import PythonLint.Proofs.Ignore.Spans
import Mathlib.Data.List.Forall2

/-!
# Checking filters accounts for everything

Checking the filters of an ignore file sorts out its parts, which are its filters and their
comparisons. A filter is left out when its name stands for nothing, a comparison of any other filter
when it is not well formed, and every part that is left out has a notice that says where it stands
and what is wrong with it. Nothing else is changed, and there is nothing to leave out of what is
kept.

Main statements: `expressionProblem?_eq_some`, `reportedBy_checkFilter`, `pairwise_dropped`,
`verify_accounts`.
-/

namespace PythonLint.Ignore

variable {expression : Expression} {filter : Filter} {target : Target}

instance (target : Target) (expression : Expression) : Decidable (expression.WellFormed target) :=
  decidable_of_iff _ isNone_expressionProblem?_iff

theorem Filter.not_isRegistered_iff : ¬filter.IsRegistered ↔ Target.ofName? filter.name = none := by
  rw [isRegistered_iff, Bool.not_eq_true, Option.isSome_eq_false_iff, Option.isNone_iff_eq_none]

/-! ### Parts -/

/-- What can be left out of an ignore file: a filter, or a comparison of a filter. -/
inductive Part where
  | ofFilter (filter : Filter)
  | ofExpression (filter : Filter) (expression : Expression)

/-- The parts of a filter, in the order of the file. -/
def Filter.parts (filter : Filter) : List Part :=
  .ofFilter filter :: filter.expressions.map (.ofExpression filter)

def File.parts (file : File) : List Part :=
  file.filters.flatMap Filter.parts

namespace Part

def start : Part → Location
  | .ofFilter filter => filter.start
  | .ofExpression _ expression => expression.start

def stop : Part → Location
  | .ofFilter filter => filter.stop
  | .ofExpression _ expression => expression.stop

/-- The part is left out: it is a filter without a registered name, or a comparison that is not well
formed in a filter with one. -/
inductive IsDropped : Part → Prop
  | ofFilter {filter : Filter} (h : ¬filter.IsRegistered) : IsDropped (.ofFilter filter)
  | ofExpression {filter : Filter} {expression : Expression} {target : Target}
      (htarget : target.name = filter.name) (h : ¬expression.WellFormed target) :
      IsDropped (.ofExpression filter expression)

/-- What is wrong with a part. -/
inductive HasProblem : Part → Problem → Prop
  | unknownFilter {filter : Filter} (h : ¬filter.IsRegistered) :
      HasProblem (.ofFilter filter) (.unknownFilter filter.name)
  | missingConstant {filter : Filter} {expression : Expression} {left right : String}
      (hleft : expression.left.kind = .name left) (hright : expression.right.kind = .name right) :
      HasProblem (.ofExpression filter expression) (.missingConstant expression.operator)
  | missingName {filter : Filter} {expression : Expression} {left right : Value}
      (hleft : expression.left.kind = .literal left)
      (hright : expression.right.kind = .literal right) :
      HasProblem (.ofExpression filter expression) (.missingName expression.operator)
  | unknownAttribute {filter : Filter} {expression : Expression} {target : Target} {id : String}
      {value : Value} {nameOnLeft : Bool} (htarget : target.name = filter.name)
      (hshape : expression.shape = .comparison id value nameOnLeft)
      (h : ∀ subject ∈ target.attributes, subject.name ≠ id) :
      HasProblem (.ofExpression filter expression)
        (.unknownAttribute expression.operator id filter.name)
  | wrongType {filter : Filter} {expression : Expression} {target : Target} {subject : Attribute}
      {value : Value} {nameOnLeft : Bool} (htarget : target.name = filter.name)
      (hshape : expression.shape = .comparison subject.name value nameOnLeft)
      (hdeclared : subject ∈ target.attributes) (h : value.type ≠ subject.type) :
      HasProblem (.ofExpression filter expression)
        (.wrongType expression.operator subject.name value.typeName)

/-- The notice is about the part: it has its span and says what is wrong with it. -/
structure ReportedBy (file : String) (part : Part) (notice : Notice) : Prop where
  start : notice.start = part.start
  stop : notice.stop = part.stop
  file : notice.file = file
  problem : part.HasProblem notice.problem

theorem isDropped_ofFilter_iff : IsDropped (.ofFilter filter) ↔ ¬filter.IsRegistered := by
  constructor
  · rintro ⟨h⟩
    exact h
  · exact .ofFilter

/-- A comparison of a filter with a registered name is left out when it is not well formed. -/
theorem isDropped_ofExpression_iff (htarget : Target.ofName? filter.name = some target) :
    IsDropped (.ofExpression filter expression) ↔ ¬expression.WellFormed target := by
  constructor
  · rintro (_ | ⟨hother, h⟩)
    rw [← Target.ofName?_eq_some_iff, htarget] at hother
    cases hother
    exact h
  · exact .ofExpression (Target.ofName?_eq_some_iff.1 htarget)

/-- The comparisons of a filter whose name stands for nothing go with it. -/
theorem not_isDropped_ofExpression (expression : Expression)
    (htarget : Target.ofName? filter.name = none) :
    ¬IsDropped (.ofExpression filter expression) := by
  rintro (_ | ⟨hother, -⟩)
  rw [← Target.ofName?_eq_some_iff, htarget] at hother
  cases hother

instance : DecidablePred IsDropped
  | .ofFilter _ => decidable_of_iff _ isDropped_ofFilter_iff.symm
  | .ofExpression filter expression =>
    match htarget : Target.ofName? filter.name with
    | none => .isFalse (not_isDropped_ofExpression expression htarget)
    | some _ => decidable_of_iff _ (isDropped_ofExpression_iff htarget).symm

end Part

/-! ### One comparison -/

theorem Expression.exists_of_shape_eq_bothNames (h : expression.shape = .bothNames) :
    ∃ left right, expression.left.kind = .name left ∧ expression.right.kind = .name right := by
  unfold shape at h
  cases hleft : expression.left.kind <;> cases hright : expression.right.kind <;>
    simp [hleft, hright] at h ⊢

theorem Expression.exists_of_shape_eq_bothLiterals (h : expression.shape = .bothLiterals) :
    ∃ left right, expression.left.kind = .literal left ∧
      expression.right.kind = .literal right := by
  unfold shape at h
  cases hleft : expression.left.kind <;> cases hright : expression.right.kind <;>
    simp [hleft, hright] at h ⊢

/-- What is found wrong with a comparison is wrong with it. -/
theorem expressionProblem?_eq_some {problem : Problem} (htarget : target.name = filter.name)
    (h : expressionProblem? target expression = some problem) :
    Part.HasProblem (.ofExpression filter expression) problem := by
  unfold expressionProblem? at h
  cases hshape : expression.shape with
  | bothNames =>
    obtain ⟨left, right, hleft, hright⟩ := Expression.exists_of_shape_eq_bothNames hshape
    rw [hshape] at h
    cases h
    exact .missingConstant hleft hright
  | bothLiterals =>
    obtain ⟨left, right, hleft, hright⟩ := Expression.exists_of_shape_eq_bothLiterals hshape
    rw [hshape] at h
    cases h
    exact .missingName hleft hright
  | comparison id value nameOnLeft =>
    simp only [hshape] at h
    cases hsubject : target.attribute? id with
    | none =>
      simp only [hsubject, Option.some.injEq] at h
      rw [← h, htarget]
      refine .unknownAttribute htarget hshape fun subject hdeclared hname => ?_
      rw [Target.attribute?_eq_some_iff.2 ⟨hdeclared, hname⟩] at hsubject
      cases hsubject
    | some subject =>
      obtain ⟨hdeclared, rfl⟩ := Target.attribute?_eq_some_iff.1 hsubject
      simp only [hsubject] at h
      split at h
      · cases h
      · next haccepts =>
        cases h
        exact .wrongType htarget hshape hdeclared fun htype => haccepts (accepts_iff.2 htype)

/-! ### One filter -/

/-- The filter is kept with its name, its span and those of its comparisons that are well formed. -/
structure Filter.KeptAs (filter kept : Filter) : Prop where
  name : kept.name = filter.name
  start : kept.start = filter.start
  stop : kept.stop = filter.stop
  expressions : ∃ target : Target, target.name = filter.name ∧
    kept.expressions = filter.expressions.filter (·.WellFormed target)

/-- A filter whose name stands for nothing is left out as a whole. -/
theorem Filter.dropped_parts_of_ofName?_eq_none (htarget : Target.ofName? filter.name = none) :
    (filter.parts.filter fun part => part.IsDropped) = [.ofFilter filter] := by
  have hothers : ((filter.expressions.map (Part.ofExpression filter)).filter fun part =>
      part.IsDropped) = [] := by
    refine List.filter_eq_nil_iff.2 fun part hmem => ?_
    obtain ⟨expression, -, rfl⟩ := List.mem_map.1 hmem
    simpa using Part.not_isDropped_ofExpression expression htarget
  have hdropped : Part.IsDropped (.ofFilter filter) := .ofFilter (not_isRegistered_iff.2 htarget)
  rw [parts, List.filter_cons_of_pos (by simpa using hdropped), hothers]

/-- Only comparisons are left out of any other filter. -/
theorem Filter.dropped_parts_of_ofName?_eq_some
    (htarget : Target.ofName? filter.name = some target) :
    (filter.parts.filter fun part => part.IsDropped) =
      (filter.expressions.map (Part.ofExpression filter)).filter fun part => part.IsDropped := by
  have hknown : filter.IsRegistered := ⟨target, Target.ofName?_eq_some_iff.1 htarget⟩
  rw [parts, List.filter_cons_of_neg (by simpa [Part.isDropped_ofFilter_iff] using hknown)]

section CheckFilter

variable (context : Context)

theorem checkFilter_of_not_isRegistered (h : ¬filter.IsRegistered) :
    (checkFilter context filter).1 = none := by
  rw [checkFilter, Filter.not_isRegistered_iff.1 h]

theorem exists_keptAs_checkFilter (h : filter.IsRegistered) :
    ∃ kept, (checkFilter context filter).1 = some kept ∧ filter.KeptAs kept := by
  obtain ⟨target, htarget⟩ := h
  rw [checkFilter, Target.ofName?_eq_some_iff.2 htarget]
  refine ⟨_, rfl, rfl, rfl, rfl, target, htarget, List.filter_congr fun expression _ => ?_⟩
  rw [Bool.eq_iff_iff, isNone_expressionProblem?_iff, decide_eq_true_iff]

/-- Whatever is kept is a filter with a registered name. -/
theorem keptAs_of_checkFilter_eq_some {kept : Filter}
    (h : (checkFilter context filter).1 = some kept) : filter.KeptAs kept := by
  by_cases hknown : filter.IsRegistered
  · obtain ⟨other, hother, hsame⟩ := exists_keptAs_checkFilter context hknown
    rw [h] at hother
    cases hother
    exact hsame
  · rw [checkFilter_of_not_isRegistered context hknown] at h
    cases h

/-- There is nothing to leave out of a filter that has been kept. -/
theorem Filter.KeptAs.checkFilter_eq {kept : Filter} (h : filter.KeptAs kept) :
    checkFilter context kept = (some kept, []) := by
  obtain ⟨target, htarget, hexpressions⟩ := h.expressions
  have hnone : ∀ expression ∈ kept.expressions, expressionProblem? target expression = none := by
    intro expression hmem
    rw [hexpressions] at hmem
    exact Option.isNone_iff_eq_none.1
      (isNone_expressionProblem?_iff.2 (of_decide_eq_true (List.mem_filter.1 hmem).2))
  have hkept : (kept.expressions.filter fun expression =>
    (expressionProblem? target expression).isNone) =
      kept.expressions :=
        List.filter_eq_self.2 fun expression hmem => by rw [hnone expression hmem]; rfl
  have hnotices : (kept.expressions.filterMap fun expression =>
    (expressionProblem? target expression).map
      fun problem => context.notice problem expression.start expression.stop) = [] :=
    List.filterMap_eq_nil_iff.2 fun expression hmem => by rw [hnone expression hmem]; rfl
  rw [checkFilter, Target.ofName?_eq_some_iff.2 (htarget.trans h.name.symm)]
  simp only [hkept, hnotices]

/-- The notices about comparisons of a filter with a registered name. -/
theorem reportedBy_expressions (htarget : Target.ofName? filter.name = some target)
    (expressions : List Expression) :
    List.Forall₂ (Part.ReportedBy context.file)
      ((expressions.map (Part.ofExpression filter)).filter fun part => part.IsDropped)
      (expressions.filterMap fun expression =>
        (expressionProblem? target expression).map fun problem =>
        context.notice problem expression.start expression.stop) := by
  induction expressions with
  | nil => exact .nil
  | cons expression expressions ih =>
    have hdropped : Part.IsDropped (.ofExpression filter expression) ↔
        ¬expression.WellFormed target :=
      Part.isDropped_ofExpression_iff htarget
    rw [← isNone_expressionProblem?_iff] at hdropped
    cases hproblem : expressionProblem? target expression with
    | none =>
      rw [hproblem] at hdropped
      rw [List.map_cons, List.filter_cons_of_neg (by simp [hdropped]),
        List.filterMap_cons_none (by simp [hproblem])]
      exact ih
    | some problem =>
      rw [hproblem] at hdropped
      rw [List.map_cons, List.filter_cons_of_pos (by simp [hdropped]),
        List.filterMap_cons_some (by simp [hproblem]; rfl)]
      exact .cons ⟨rfl, rfl, rfl,
        expressionProblem?_eq_some (Target.ofName?_eq_some_iff.1 htarget) hproblem⟩ ih

/-- The notices about a filter are about what is left out of it, in order. -/
theorem reportedBy_checkFilter (filter : Filter) :
    List.Forall₂ (Part.ReportedBy context.file) (filter.parts.filter fun part => part.IsDropped)
      (checkFilter context filter).2 := by
  rw [checkFilter]
  cases htarget : Target.ofName? filter.name with
  | none =>
    rw [Filter.dropped_parts_of_ofName?_eq_none htarget]
    exact .cons ⟨rfl, rfl, rfl, .unknownFilter (Filter.not_isRegistered_iff.2 htarget)⟩ .nil
  | some target =>
    rw [Filter.dropped_parts_of_ofName?_eq_some htarget]
    exact reportedBy_expressions context htarget filter.expressions

end CheckFilter

/-! ### All filters -/

section CheckAll

variable (context : Context)

theorem keptAs_filterMap (filters : List Filter) :
    List.Forall₂ Filter.KeptAs (filters.filter fun filter => filter.IsRegistered)
      (filters.filterMap fun filter => (checkFilter context filter).1) := by
  induction filters with
  | nil => exact .nil
  | cons filter filters ih =>
    by_cases hknown : filter.IsRegistered
    · obtain ⟨kept, hkept, hsame⟩ := exists_keptAs_checkFilter context hknown
      rw [List.filter_cons_of_pos (by simpa using hknown),
        List.filterMap_cons_some (by exact hkept)]
      exact .cons hsame ih
    · rw [List.filter_cons_of_neg (by simpa using hknown),
        List.filterMap_cons_none (by exact checkFilter_of_not_isRegistered context hknown)]
      exact ih

theorem reportedBy_flatMap (filters : List Filter) :
    List.Forall₂ (Part.ReportedBy context.file)
      ((filters.flatMap Filter.parts).filter fun part => part.IsDropped)
      (filters.flatMap fun filter => (checkFilter context filter).2) := by
  induction filters with
  | nil => exact .nil
  | cons filter filters ih =>
    rw [List.flatMap_cons, List.filter_append, List.flatMap_cons]
    exact List.rel_append (reportedBy_checkFilter context filter) ih

end CheckAll

theorem verify_eq (file : File) (source : List Char) :
    verify file source =
      (file.filters.filterMap fun filter =>
        (checkFilter ⟨file.name, Text.segments source⟩ filter).1, file.filters.flatMap fun filter =>
          (checkFilter ⟨file.name, Text.segments source⟩ filter).2) := by
  simp only [verify, List.filterMap_map, List.flatMap_map, Function.comp_def]

/-- Filters that have been kept are returned as they are. -/
theorem verify_of_forall {filters : List Filter}
    (h : ∀ filter ∈ filters, ∃ original : Filter, original.KeptAs filter) (name : String)
    (source : List Char) : verify ⟨name, filters⟩ source = (filters, []) := by
  have hall : ∀ filter ∈ filters, checkFilter ⟨name, Text.segments source⟩ filter =
      (some filter, []) := by
    intro filter hmem
    obtain ⟨original, hkept⟩ := h filter hmem
    exact hkept.checkFilter_eq _
  rw [verify_eq, Prod.mk.injEq]
  constructor
  · rw [List.filterMap_congr fun filter hmem => congrArg Prod.fst (hall filter hmem)]
    exact List.filterMap_some
  · exact List.flatMap_eq_nil_iff.2 fun filter hmem => congrArg Prod.snd (hall filter hmem)

/-! ### Order -/

theorem Filter.IsNested.inside_of_mem_parts (h : filter.IsNested) {part : Part}
    (hmem : part ∈ filter.parts) : filter.start ≤ part.start ∧ part.stop ≤ filter.stop := by
  rcases List.mem_cons.1 hmem with rfl | hmem
  · exact ⟨Location.le_refl _, Location.le_refl _⟩
  · obtain ⟨expression, hexpression, rfl⟩ := List.mem_map.1 hmem
    obtain ⟨hlow, hhigh⟩ := h.inside expression hexpression
    exact ⟨Location.le_trans (.inl h.name) hlow, hhigh⟩

theorem Filter.IsNested.pairwise_dropped_parts (h : filter.IsNested) :
    (filter.parts.filter fun part => part.IsDropped).Pairwise fun first second => first.stop ≤
      second.start := by
  cases htarget : Target.ofName? filter.name with
  | none =>
    rw [dropped_parts_of_ofName?_eq_none htarget]
    exact List.pairwise_singleton _ _
  | some target =>
    rw [dropped_parts_of_ofName?_eq_some htarget]
    exact (List.pairwise_map.2 h.ordered).filter _

/-- What is left out of filters that stand in order and apart does so too. A filter and a comparison
of it would overlap, but they are never both left out. -/
theorem pairwise_dropped {filters : List Filter} (hnested : ∀ filter ∈ filters, filter.IsNested)
    (hordered : filters.Pairwise fun first second => first.stop ≤ second.start) :
    ((filters.flatMap Filter.parts).filter fun part => part.IsDropped).Pairwise
      fun first second => first.stop ≤ second.start := by
  rw [List.filter_flatMap, List.pairwise_flatMap]
  constructor
  · exact fun filter hmem => (hnested filter hmem).pairwise_dropped_parts
  · refine hordered.imp_of_mem fun {first second} hfirst hsecond hle before hbefore after
      hafter => ?_
    have hstop := ((hnested first hfirst).inside_of_mem_parts (List.mem_of_mem_filter hbefore)).2
    have hstart := ((hnested second hsecond).inside_of_mem_parts (List.mem_of_mem_filter hafter)).1
    exact Location.le_trans hstop (Location.le_trans hle hstart)

/-- Notices stand in the order of what they are about. -/
theorem Part.pairwise_of_reportedBy {file : String} {parts : List Part} {notices : List Notice}
    (h : List.Forall₂ (ReportedBy file) parts notices)
    (hordered : parts.Pairwise fun first second => first.stop ≤ second.start) :
    notices.Pairwise fun first second => first.stop ≤ second.start := by
  have hspans : notices.map (fun notice => (notice.start, notice.stop)) =
      parts.map fun part => (part.start, part.stop) := by
    induction h with
    | nil => rfl
    | cons hreported _ ih =>
      rw [List.map_cons, List.map_cons, hreported.start, hreported.stop,
        ih (List.pairwise_cons.1 hordered).2]
  have hpairs : (parts.map fun part => (part.start, part.stop)).Pairwise fun first second =>
      first.2 ≤ second.1 :=
    List.pairwise_map.2 hordered
  rw [← hspans] at hpairs
  exact List.pairwise_map.1 hpairs

/-- Checking keeps the filters with registered names, in order, with their names, their spans and
their well-formed comparisons. There is one notice for each filter and each comparison that is left
out, with its span, in the order of the file, and there are no others. What is kept passes the check
as it is. -/
theorem verify_accounts (file : File) (source : List Char) :
    List.Forall₂ Filter.KeptAs (file.filters.filter fun filter => filter.IsRegistered)
      (verify file source).1 ∧
    List.Forall₂ (Part.ReportedBy file.name) (file.parts.filter fun part => part.IsDropped)
      (verify file source).2 ∧
    (parse source = .ok file.filters →
      (verify file source).2.Pairwise fun first second => first.stop ≤ second.start) ∧
    ∀ name text, verify ⟨name, (verify file source).1⟩ text = ((verify file source).1, []) := by
  have hreported : List.Forall₂ (Part.ReportedBy file.name)
    (file.parts.filter fun part => part.IsDropped)
      (verify file source).2 := by
    rw [verify_eq]
    exact reportedBy_flatMap ⟨file.name, Text.segments source⟩ file.filters
  refine ⟨?_, hreported, fun hparse => ?_,
    fun name text => verify_of_forall (fun kept hmem => ?_) name text⟩
  · rw [verify_eq]
    exact keptAs_filterMap _ _
  · obtain ⟨hnested, hordered⟩ := isNested_of_parse hparse
    exact Part.pairwise_of_reportedBy hreported (pairwise_dropped hnested hordered)
  · rw [verify_eq] at hmem
    obtain ⟨filter, -, hkept⟩ := List.mem_filterMap.1 hmem
    exact ⟨filter, keptAs_of_checkFilter_eq_some _ hkept⟩

/-- A file with every kind of problem. The comparison of the filter without a registered name has no
notice of its own, and the filter out of which all comparisons are left is kept. -/
theorem verify_accounts_everyProblem :
    let source :=
      ("pep8\n  3 <= lineno\n  message > 4\n  a = b\nnothing\n  1 = 2\n" ++
        "star-import\n  1 = 2\n  column < 1\n").toList
    ∃ values, parse source = .ok values ∧
      (verify ⟨"ignore", values⟩ source).1.map (fun kept => (kept.name, kept.expressions.length)) =
        [("pep8", 1), ("star-import", 0)] ∧
      (verify ⟨"ignore", values⟩ source).2.map
        (fun notice => (notice.problem, notice.start, notice.stop)) =
        [(.wrongType .greater "message" "integer", ⟨3, 2⟩, ⟨3, 13⟩),
          (.missingConstant .equal, ⟨4, 2⟩, ⟨4, 7⟩), (.unknownFilter "nothing", ⟨5, 0⟩, ⟨7, 0⟩),
          (.missingName .equal, ⟨8, 2⟩, ⟨8, 7⟩),
          (.unknownAttribute .less "column" "star-import", ⟨9, 2⟩, ⟨9, 12⟩)] ∧
      ((verify ⟨"ignore", values⟩ source).2.Pairwise fun first second =>
        first.stop ≤ second.start) ∧
      verify ⟨"kept", (verify ⟨"ignore", values⟩ source).1⟩ [] =
        ((verify ⟨"ignore", values⟩ source).1, []) := by
  intro source
  have hcheck : (parse source).toOption.map (fun values =>
      ((verify ⟨"ignore", values⟩ source).1.map fun kept => (kept.name, kept.expressions.length),
        (verify ⟨"ignore", values⟩ source).2.map fun notice =>
        (notice.problem, notice.start, notice.stop))) =
      some ([("pep8", 1), ("star-import", 0)],
        [(.wrongType .greater "message" "integer", ⟨3, 2⟩, ⟨3, 13⟩),
          (.missingConstant .equal, ⟨4, 2⟩, ⟨4, 7⟩), (.unknownFilter "nothing", ⟨5, 0⟩, ⟨7, 0⟩),
          (.missingName .equal, ⟨8, 2⟩, ⟨8, 7⟩),
          (.unknownAttribute .less "column" "star-import", ⟨9, 2⟩, ⟨9, 12⟩)]) := by
    decide +kernel
  cases hvalues : parse source with
  | error error =>
    rw [hvalues] at hcheck
    cases hcheck
  | ok values =>
    rw [hvalues] at hcheck
    obtain ⟨hkept, hnotices⟩ := Prod.mk.inj (Option.some.inj hcheck)
    obtain ⟨-, -, hordered, hagain⟩ := verify_accounts ⟨"ignore", values⟩ source
    exact ⟨values, rfl, hkept, hnotices, hordered hvalues, hagain "kept" []⟩

end PythonLint.Ignore
