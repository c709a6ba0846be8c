import PythonLint.Proofs.Ignore.Verification

/-!
# Compiling filters

Filters can be compiled as they are written, or after they have been checked. A filter that is
compiled as it is written suppresses a warning only if every one of its comparisons is well formed
and true of the warning: one that expresses no condition makes the filter void, and one between an
attribute and a value of another type is never true. Checking removes such comparisons, so that it
can only add to what is suppressed.

A filter for a category is checked against the attributes that all warnings have, one for a kind
against those of its warnings, which may be more. The difference does not show: the attributes that
not all warnings have are locations, and no value is one, so that a comparison with them is not well
formed anywhere.

Main statements: `suppresses_compile_iff`, `compile_conservative`, `suppresses_category_iff`.
-/

namespace PythonLint.Ignore

variable {subject : Attribute} {expression : Expression} {filter : Filter} {target : Target}
    {value : Value}
  {warning : Warning}

/-! ### Unchecked conditions -/

theorem type_eq_of_value_eq (h : warning.value subject = value.toAttribute) :
    value.type = subject.type := by
  cases subject <;> cases value <;> cases h <;> rfl

theorem type_eq_of_compare? {ordering : Ordering}
    (h : Condition.compare? (warning.value subject) value = some ordering) :
    value.type = subject.type := by
  cases subject <;> cases value <;> cases h <;> rfl

/-- A condition that holds for some warning comes from a well-formed comparison. -/
theorem wellFormed_of_holds {condition : Condition}
    (h : Condition.ofExpression? target expression = some condition)
    (hholds : condition.holds warning = true) : expression.WellFormed target := by
  unfold Condition.ofExpression? at h
  split at h
  · next id value nameOnLeft hshape =>
    obtain ⟨subject, hsubject, rfl⟩ := Option.map_eq_some_iff.1 h
    unfold Condition.holds at hholds
    split at hholds
    · cases hholds
    · next ordering hcompare =>
      exact Expression.wellFormed_iff.2
        ⟨id, value, nameOnLeft, subject, hshape, hsubject, type_eq_of_compare? hcompare⟩
  · cases h

/-- The conditions of comparisons all hold when the comparisons are all well formed and true. -/
theorem holds_mapM_iff {expressions : List Expression} {conditions : List Condition}
    (h : expressions.mapM (Condition.ofExpression? target) = some conditions) (warning : Warning) :
    (conditions.all fun condition => condition.holds warning) = true ↔
      ∀ expression ∈ expressions, expression.WellFormed target ∧
        expression.TrueOf target warning := by
  have hwellFormed : (conditions.all fun condition => condition.holds warning) = true →
      ∀ expression ∈ expressions, expression.WellFormed target := by
    induction expressions generalizing conditions with
    | nil => exact fun _ => List.forall_mem_nil _
    | cons expression expressions ih =>
      rw [List.mapM_cons] at h
      obtain ⟨condition, hcondition, h⟩ := Option.bind_eq_some_iff.1 h
      obtain ⟨others, hothers, h⟩ := Option.bind_eq_some_iff.1 h
      cases h
      rw [List.all_cons, Bool.and_eq_true]
      rintro ⟨hholds, hall⟩
      exact List.forall_mem_cons.2 ⟨wellFormed_of_holds hcondition hholds, ih hothers hall⟩
  have htrue : (∀ expression ∈ expressions, expression.WellFormed target) →
      ((conditions.all fun condition => condition.holds warning) = true ↔
        ∀ expression ∈ expressions, expression.TrueOf target warning) := by
    intro hall
    obtain ⟨others, hothers, hiff⟩ := holds_mapM_ofExpression? hall
    rw [h] at hothers
    cases hothers
    exact hiff warning
  constructor
  · intro hholds expression hmem
    have hall := hwellFormed hholds
    exact ⟨hall expression hmem, (htrue hall).1 hholds expression hmem⟩
  · intro hboth
    exact (htrue fun expression hmem => (hboth expression hmem).1).2 fun expression hmem =>
      (hboth expression hmem).2

/-! ### What filters suppress -/

/-- The filter suppresses a warning without having been checked: its name stands for a kind or a
category that covers the warning, and all its comparisons are well formed and true of the
warning. -/
def Filter.SilencesAsWritten (filter : Filter) (warning : Warning) : Prop :=
  ∃ target : Target, target.name = filter.name ∧ target.covers warning.kind = true ∧
    ∀ expression ∈ filter.expressions, expression.WellFormed target ∧
      expression.TrueOf target warning

theorem Filter.SilencesAsWritten.silences (h : filter.SilencesAsWritten warning) :
    filter.Silences warning := by
  obtain ⟨target, htarget, hcovers, hall⟩ := h
  exact ⟨target, htarget, hcovers, fun expression hmem _ => (hall expression hmem).2⟩

theorem ofFilter?_suppresses_iff (filter : Filter) (warning : Warning) :
    (∃ suppressor, Suppressor.ofFilter? filter = some suppressor ∧
      suppressor.suppresses warning = true) ↔
      filter.SilencesAsWritten warning := by
  constructor
  · rintro ⟨suppressor, h, hsuppresses⟩
    obtain ⟨target, htarget, h⟩ := Option.bind_eq_some_iff.1 h
    obtain ⟨conditions, hconditions, h⟩ := Option.bind_eq_some_iff.1 h
    cases h
    rw [Suppressor.suppresses, Bool.and_eq_true, holds_mapM_iff hconditions] at hsuppresses
    exact ⟨target, Target.ofName?_eq_some_iff.1 htarget, hsuppresses⟩
  · rintro ⟨target, htarget, hcovers, hall⟩
    obtain ⟨conditions, hconditions, -⟩ :=
      holds_mapM_ofExpression? fun expression hmem => (hall expression hmem).1
    refine ⟨⟨target, conditions⟩, ?_, ?_⟩
    · rw [Suppressor.ofFilter?, Target.ofName?_eq_some_iff.2 htarget]
      show (filter.expressions.mapM (Condition.ofExpression? target)).bind _ = _
      rw [hconditions]
      rfl
    · rw [Suppressor.suppresses, Bool.and_eq_true, holds_mapM_iff hconditions]
      exact ⟨hcovers, hall⟩

/-- Filters that are compiled as they are written suppress what one of them does. -/
theorem suppresses_compile_iff (filters : List Filter) (warning : Warning) :
    (IgnoreFilter.compile filters).suppresses warning = true ↔
      ∃ filter ∈ filters, filter.SilencesAsWritten warning := by
  simp only [IgnoreFilter.compile, suppresses_filterMap_iff, ofFilter?_suppresses_iff]

/-! ### Checking adds to what is suppressed -/

theorem checkFilter_of_no_notices {context : Context} (h : (checkFilter context filter).2 = []) :
    (checkFilter context filter).1 = some filter := by
  unfold checkFilter at h ⊢
  cases htarget : Target.ofName? filter.name with
  | none =>
    rw [htarget] at h
    cases h
  | some target =>
    simp only [htarget, List.filterMap_eq_nil_iff, Option.map_eq_none_iff] at h
    have hkept : (filter.expressions.filter fun expression =>
      (expressionProblem? target expression).isNone) =
        filter.expressions :=
      List.filter_eq_self.2 fun expression hmem => Option.isNone_iff_eq_none.2 (h expression hmem)
    simp only [hkept]

/-- Filters about which there is nothing to say are kept as they are. -/
theorem verify_of_no_notices {file : File} {source : List Char} (h : (verify file source).2 = []) :
    (verify file source).1 = file.filters := by
  rw [verify_eq] at h ⊢
  have hkept := List.filterMap_congr fun filter hmem =>
    checkFilter_of_no_notices (List.flatMap_eq_nil_iff.1 h filter hmem)
  exact hkept.trans List.filterMap_some

/-- Whatever filters suppress as they are written they suppress when they have been checked. If
nothing is found wrong with them, checking makes no difference to what they suppress or to the
number of suppressors. -/
theorem compile_conservative (file : File) (source : List Char) :
    (∀ warning, (IgnoreFilter.compile file.filters).suppresses warning = true →
      (IgnoreFilter.compile (verify file source).1).suppresses warning = true) ∧
    ((verify file source).2 = [] →
      (∀ warning, (IgnoreFilter.compile (verify file source).1).suppresses warning =
        (IgnoreFilter.compile file.filters).suppresses warning) ∧
      (IgnoreFilter.compile (verify file source).1).size =
        (IgnoreFilter.compile file.filters).size) := by
  constructor
  · intro warning h
    obtain ⟨filter, hmem, hsilences⟩ := (suppresses_compile_iff _ _).1 h
    exact (compile_verify_suppresses_iff _ _ _ _).2 ⟨filter, hmem, hsilences.silences⟩
  · intro h
    rw [verify_of_no_notices h]
    exact ⟨fun _ => rfl, rfl⟩

/-- A file whose first filter is in order and whose other filters each have a flaw, and its first
filter alone. Checking makes the last filter suppress a warning that the file as it is written does
not. -/
theorem compile_conservative_flawed :
    let source := "star-import\n  3 <= lineno\nnothing\npep8\n  lineno = \"a\"\n".toList
    let sound := "star-import\n  3 <= lineno\n".toList
    let third : Warning := ⟨.starImport, "", "a.py", ⟨3, 0⟩, ⟨3, 4⟩, []⟩
    let second : Warning := ⟨.starImport, "", "a.py", ⟨2, 0⟩, ⟨2, 4⟩, []⟩
    ∃ filters kept, parse source = .ok filters ∧ parse sound = .ok kept ∧
      (IgnoreFilter.compile filters).suppresses third = true ∧
      (IgnoreFilter.compile (verify ⟨"ignore", filters⟩ source).1).suppresses third = true ∧
      (IgnoreFilter.compile filters).suppresses second = false ∧
      (IgnoreFilter.compile (verify ⟨"ignore", filters⟩ source).1).suppresses second = true ∧
      (verify ⟨"ignore", kept⟩ sound).2 = [] ∧
      (∀ warning, (IgnoreFilter.compile (verify ⟨"ignore", kept⟩ sound).1).suppresses warning =
        (IgnoreFilter.compile kept).suppresses warning) ∧
      (IgnoreFilter.compile (verify ⟨"ignore", kept⟩ sound).1).size =
        (IgnoreFilter.compile kept).size := by
  intro source sound third second
  have hflawed : (parse source).toOption.any (fun filters =>
      (IgnoreFilter.compile filters).suppresses third &&
      !(IgnoreFilter.compile filters).suppresses second &&
        (IgnoreFilter.compile (verify ⟨"ignore", filters⟩ source).1).suppresses second) = true := by
    decide +kernel
  have hsound : (parse sound).toOption.any
      (fun kept => (verify ⟨"ignore", kept⟩ sound).2 = []) = true := by
    decide +kernel
  cases hfilters : parse source with
  | error error =>
    rw [hfilters] at hflawed
    cases hflawed
  | ok filters =>
    cases hkept : parse sound with
    | error error =>
      rw [hkept] at hsound
      cases hsound
    | ok kept =>
      rw [hfilters] at hflawed
      rw [hkept] at hsound
      simp only [Except.toOption, Option.any_some, Bool.and_eq_true, Bool.not_eq_true',
        decide_eq_true_iff] at hflawed hsound
      obtain ⟨⟨hthird, hsecond⟩, hadded⟩ := hflawed
      obtain ⟨hmore, -⟩ := compile_conservative ⟨"ignore", filters⟩ source
      obtain ⟨-, hsame⟩ := compile_conservative ⟨"ignore", kept⟩ sound
      exact ⟨filters, kept, rfl, rfl, hthird, hmore third hthird, hsecond, hadded, hsound,
        hsame hsound⟩

/-! ### Categories -/

/-- Every target declares the attributes that can be compared with a value. -/
theorem mem_attributes_of_type (h : value.type = subject.type) (target : Target) :
    subject ∈ target.attributes := by
  have hline : subject ∈ lineAttributes := by
    cases subject with
    | message => decide
    | file => decide
    | line => decide
    | start => cases value <;> cases h
    | stop => cases value <;> cases h
  have hall : ∀ other ∈ lineAttributes, other ∈ target.attributes := by
    cases target with
    | ofKind kind => cases kind <;> decide
    | ofCategory category => exact fun _ => id
  exact hall subject hline

theorem Expression.WellFormed.of_target (h : expression.WellFormed target) (other : Target) :
    expression.WellFormed other := by
  rcases h with ⟨subject, value, -, hleft, hright, htype⟩ | ⟨subject, value, -, hleft,
    hright, htype⟩
  · exact .nameLeft subject value (mem_attributes_of_type htype other) hleft hright htype
  · exact .nameRight subject value (mem_attributes_of_type htype other) hleft hright htype

theorem OperandKind.Denotes.of_target {kind : OperandKind} (h : kind.Denotes target warning value)
    (other : Target) : kind.Denotes other warning value := by
  cases h with
  | name _ hvalue => exact .name (mem_attributes_of_type (type_eq_of_value_eq hvalue) other) hvalue
  | literal => exact .literal value

theorem Expression.TrueOf.of_target (h : expression.TrueOf target warning) (other : Target) :
    expression.TrueOf other warning := by
  obtain ⟨left, right, hleft, hright, hrelates⟩ := h
  exact ⟨left, right, hleft.of_target other, hright.of_target other, hrelates⟩

/-- Two filters with the same comparisons differ only in the kinds that they cover. -/
theorem silences_iff_covers (target other : Target) (htarget : target.name = filter.name) :
    filter.Silences warning ↔ target.covers warning.kind = true ∧
      ∀ expression ∈ filter.expressions, expression.WellFormed other →
        expression.TrueOf other warning := by
  constructor
  · rintro ⟨named, hnamed, hcovers, hall⟩
    obtain rfl : target = named := by
      rw [← Target.ofName?_eq_some_iff, ← hnamed, Target.ofName?_eq_some_iff.2 rfl] at htarget
      exact (Option.some.inj htarget).symm
    exact ⟨hcovers, fun expression hmem hwell =>
      (hall expression hmem (hwell.of_target target)).of_target other⟩
  · rintro ⟨hcovers, hall⟩
    exact ⟨target, htarget, hcovers, fun expression hmem hwell =>
      (hall expression hmem (hwell.of_target other)).of_target target⟩

theorem covers_ofCategory_iff (category : Category) (kind : WarningKind) :
    (Target.ofCategory category).covers kind = true ↔
      ∃ member ∈ category.members, (Target.ofKind member).covers kind = true := by
  have hkind : kind ∈ WarningKind.all := by cases kind <;> decide
  simp only [Target.covers, Category.members, List.mem_filter, beq_iff_eq]
  constructor
  · exact fun h => ⟨kind, ⟨hkind, h⟩, rfl⟩
  · rintro ⟨member, ⟨-, h⟩, rfl⟩
    exact h

/-- A filter for a category suppresses a warning exactly if the same filter for some member of the
category does, whatever comparisons are left out of the one or the other by the check. -/
theorem suppresses_category_iff (category : Category) (filter : Filter) (name : String)
    (source : List Char) (warning : Warning) :
    (IgnoreFilter.compile
      (verify ⟨name, [{ filter with name := category.name }]⟩ source).1).suppresses warning = true ↔
      ∃ kind ∈ category.members,
        (IgnoreFilter.compile (verify ⟨name, [{ filter with name := kind.name }]⟩
          source).1).suppresses warning = true := by
  have hcategory : ({ filter with name := category.name } : Filter).Silences warning ↔ _ :=
    silences_iff_covers (.ofCategory category) (.ofCategory category) rfl
  have hkind : ∀ kind : WarningKind,
      ({ filter with name := kind.name } : Filter).Silences warning ↔ _ :=
    fun kind => silences_iff_covers (.ofKind kind) (.ofCategory category) rfl
  simp only [compile_verify_suppresses_iff, List.mem_singleton, exists_eq_left, hcategory, hkind,
    covers_ofCategory_iff]
  constructor
  · rintro ⟨⟨kind, hmem, hcovers⟩, hall⟩
    exact ⟨kind, hmem, hcovers, hall⟩
  · rintro ⟨kind, hmem, hcovers, hall⟩
    exact ⟨⟨kind, hmem, hcovers⟩, hall⟩

end PythonLint.Ignore
