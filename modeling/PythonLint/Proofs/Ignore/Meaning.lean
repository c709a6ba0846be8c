import PythonLint.Ignore.Suppress
import Mathlib.Logic.Basic

/-!
# The meaning of an ignore file

What an ignore file suppresses, said without lexer, checker or compiler: a warning is suppressed
when some filter names a kind or a category that covers it, and all comparisons of that filter that
are well formed are true of the warning. Comparisons that are not well formed say nothing.

Main statements: `Target.ofName?_eq_some_iff`, `isNone_expressionProblem?_iff`,
`holds_ofExpression?`, `loadIgnore_suppresses_iff`.
-/

namespace PythonLint

variable {subject : Attribute} {target : Target}

/-! ### Names -/

/-- In a list whose elements have different keys, searching for a key finds the element that has
it. -/
theorem find?_key_eq_some_iff {α : Type} {key : α → String} {list : List α}
    (hkey : ∀ a ∈ list, ∀ b ∈ list, key a = key b → a = b) {name : String} {a : α} :
    list.find? (fun b => key b == name) = some a ↔ a ∈ list ∧ key a = name := by
  constructor
  · intro h
    exact ⟨List.mem_of_find?_eq_some h, by simpa using List.find?_some h⟩
  · rintro ⟨hmem, rfl⟩
    cases hfind : list.find? fun b => key b == key a with
    | none =>
      have hnone := List.find?_eq_none.1 hfind a hmem
      simp at hnone
    | some b =>
      have hb : key b = key a := by simpa using List.find?_some hfind
      rw [hkey b (List.mem_of_find?_eq_some hfind) a hmem hb]

namespace Target

theorem mem_all (target : Target) : target ∈ all := by
  cases target with
  | ofKind kind => cases kind <;> decide
  | ofCategory category => cases category <;> decide

/-- A name stands for the one kind or category that has it. -/
theorem ofName?_eq_some_iff {name : String} : ofName? name = some target ↔ target.name = name := by
  have hkey : ∀ a ∈ all, ∀ b ∈ all, a.name = b.name → a = b := by decide
  unfold ofName?
  rw [find?_key_eq_some_iff hkey]
  exact and_iff_right (mem_all target)

/-- A name stands for an attribute of a target when the target declares an attribute of that
name. -/
theorem attribute?_eq_some_iff {id : String} :
    target.attribute? id = some subject ↔
      subject ∈ target.attributes ∧ subject.name = id := by
  have hname : ∀ a b : Attribute, a.name = b.name → a = b := by
    intro a b
    cases a <;> cases b <;> decide
  exact find?_key_eq_some_iff fun a _ b _ => hname a b

end Target

namespace Ignore

variable {expression : Expression} {filter : Filter} {a b : Value}

/-! ### Values -/

def codePoints (text : String) : List Nat :=
  text.toList.map Char.toNat

namespace Value

/-- The type of attribute that has values like this one. -/
def type : Value → AttributeType
  | string _ => .string
  | integer _ => .integer

def toAttribute : Value → AttributeValue
  | string value => .string value
  | integer value => .integer value

/-- Integers are ordered as numbers and strings by their code points. -/
def Precedes : Value → Value → Prop
  | string a, string b => codePoints a < codePoints b
  | integer a, integer b => a < b
  | _, _ => False

end Value

/-- The operator relates two values, the left one given first. -/
def Operator.Relates : Operator → Value → Value → Prop
  | equal, left, right => left = right
  | less, left, right => left.Precedes right
  | greater, left, right => right.Precedes left
  | lessOrEqual, left, right => left.Precedes right ∨ left = right
  | greaterOrEqual, left, right => right.Precedes left ∨ left = right

/-! ### Comparisons and filters -/

/-- What an operand stands for in a filter for the given target: a name for the value that the
warning has for the attribute of that name, and a literal for itself. -/
inductive OperandKind.Denotes (target : Target) (warning : Warning) : OperandKind → Value → Prop
  | name {subject : Attribute} {value : Value} (hdeclared : subject ∈ target.attributes)
      (hvalue : warning.value subject = value.toAttribute) :
      Denotes target warning (.name subject.name) value
  | literal (value : Value) : Denotes target warning (.literal value) value

namespace Expression

/-- One side is the name of an attribute that the target declares, the other one a literal of the
type of that attribute. -/
inductive WellFormed (target : Target) (expression : Expression) : Prop
  | nameLeft (subject : Attribute) (value : Value) (hdeclared : subject ∈ target.attributes)
      (hleft : expression.left.kind = .name subject.name)
      (hright : expression.right.kind = .literal value) (htype : value.type = subject.type)
  | nameRight (subject : Attribute) (value : Value) (hdeclared : subject ∈ target.attributes)
      (hleft : expression.left.kind = .literal value)
      (hright : expression.right.kind = .name subject.name) (htype : value.type = subject.type)

def TrueOf (target : Target) (warning : Warning) (expression : Expression) : Prop :=
  ∃ left right, expression.left.kind.Denotes target warning left ∧
    expression.right.kind.Denotes target warning right ∧ expression.operator.Relates left right

end Expression

namespace Filter

/-- The filter has the name of a kind or of a category. -/
def IsRegistered (filter : Filter) : Prop :=
  ∃ target : Target, target.name = filter.name

/-- The filter suppresses a warning: its name stands for a kind or a category that covers the
warning, and all its well-formed comparisons are true of the warning. -/
def Silences (filter : Filter) (warning : Warning) : Prop :=
  ∃ target : Target, target.name = filter.name ∧ target.covers warning.kind = true ∧
    ∀ expression ∈ filter.expressions,
      expression.WellFormed target → expression.TrueOf target warning

theorem isRegistered_iff : filter.IsRegistered ↔ (Target.ofName? filter.name).isSome = true := by
  rw [Option.isSome_iff_exists]
  exact exists_congr fun target => Target.ofName?_eq_some_iff.symm

instance (filter : Filter) : Decidable filter.IsRegistered :=
  decidable_of_iff _ isRegistered_iff.symm

end Filter

/-! ### Comparing values -/

theorem compare_eq_lt_iff_codePoints (a b : String) :
    compare a b = .lt ↔ codePoints a < codePoints b := by
  have hlt : compare a b = .lt ↔ a.toList < b.toList := compareOfLessAndEq_eq_lt
  rw [hlt, codePoints, codePoints]
  generalize a.toList = s
  generalize b.toList = t
  induction s generalizing t with
  | nil => cases t <;> simp
  | cons c s ih =>
    cases t with
    | nil => simp
    | cons d t =>
      have hval : c < d ↔ c.toNat < d.toNat := Iff.rfl
      have heq : c = d ↔ c.toNat = d.toNat := Char.toNat_inj.symm
      rw [List.map_cons, List.map_cons, List.cons_lt_cons_iff, List.cons_lt_cons_iff, hval, heq]
      exact or_congr_right (and_congr_right fun _ => ih t)

/-- The ordering is that of two values. -/
structure Value.Orders (a b : Value) (ordering : Ordering) : Prop where
  lt_iff : ordering = .lt ↔ a.Precedes b
  eq_iff : ordering = .eq ↔ a = b
  gt_iff : ordering = .gt ↔ b.Precedes a

theorem Value.Orders.swap {ordering : Ordering} (h : a.Orders b ordering) :
    b.Orders a ordering.swap where
  lt_iff := Ordering.swap_eq_lt.trans h.gt_iff
  eq_iff := Ordering.swap_eq_eq.trans (h.eq_iff.trans eq_comm)
  gt_iff := Ordering.swap_eq_gt.trans h.lt_iff

/-- Two values of one type have an ordering, and it is the one that conditions use. -/
theorem Value.compare?_toAttribute (htype : a.type = b.type) :
    ∃ ordering, Condition.compare? a.toAttribute b = some ordering ∧ a.Orders b ordering := by
  cases a with
  | string a =>
    cases b with
    | string b =>
      refine ⟨compare a b, rfl, compare_eq_lt_iff_codePoints a b, ?_, ?_⟩
      · rw [Std.LawfulEqOrd.compare_eq_iff_eq, Value.string.injEq]
      · rw [Std.OrientedCmp.gt_iff_lt]
        exact compare_eq_lt_iff_codePoints b a
    | integer b => cases htype
  | integer a =>
    cases b with
    | string b => cases htype
    | integer b =>
      refine ⟨compare a b, rfl, Nat.compare_eq_lt, ?_, ?_⟩
      · rw [Nat.compare_eq_eq, Value.integer.injEq]
      · exact Nat.compare_eq_gt

theorem Operator.holds_iff_relates (operator : Operator) {ordering : Ordering}
    (h : a.Orders b ordering) : operator.holds ordering = true ↔ operator.Relates a b := by
  cases operator with
  | equal => simp only [holds, Relates, beq_iff_eq, h.eq_iff]
  | less => simp only [holds, Relates, beq_iff_eq, h.lt_iff]
  | greater => simp only [holds, Relates, beq_iff_eq, h.gt_iff]
  | lessOrEqual =>
    rw [Relates, ← h.lt_iff, ← h.eq_iff]
    cases ordering <;> decide
  | greaterOrEqual =>
    rw [Relates, ← h.gt_iff, ← h.eq_iff]
    cases ordering <;> decide

/-! ### Well-formed comparisons -/

/-- What the two sides of a comparison between an attribute and a value are. -/
theorem Expression.shape_eq_comparison_iff {id : String} {value : Value} {nameOnLeft : Bool} :
    expression.shape = .comparison id value nameOnLeft ↔
      nameOnLeft = true ∧ expression.left.kind = .name id ∧ expression.right.kind = .literal value ∨
      nameOnLeft = false ∧ expression.left.kind = .literal value ∧
        expression.right.kind = .name id := by
  unfold shape
  cases expression.left.kind <;> cases expression.right.kind <;> cases nameOnLeft <;> simp
  exact and_comm

/-- A comparison is well formed when the name in it stands for an attribute of the type of its
value. -/
theorem Expression.wellFormed_iff :
    expression.WellFormed target ↔ ∃ id value nameOnLeft subject,
      expression.shape = .comparison id value nameOnLeft ∧ target.attribute? id = some subject ∧
        value.type = subject.type := by
  constructor
  · rintro (⟨subject, value, hdeclared, hleft, hright, htype⟩ |
      ⟨subject, value, hdeclared, hleft, hright, htype⟩)
    · refine ⟨_, value, true, subject, ?_, Target.attribute?_eq_some_iff.2 ⟨hdeclared, rfl⟩, htype⟩
      exact shape_eq_comparison_iff.2 (.inl ⟨rfl, hleft, hright⟩)
    · refine ⟨_, value, false, subject, ?_, Target.attribute?_eq_some_iff.2 ⟨hdeclared, rfl⟩, htype⟩
      exact shape_eq_comparison_iff.2 (.inr ⟨rfl, hleft, hright⟩)
  · rintro ⟨id, value, nameOnLeft, subject, hshape, hsubject, htype⟩
    obtain ⟨hdeclared, rfl⟩ := Target.attribute?_eq_some_iff.1 hsubject
    rcases shape_eq_comparison_iff.1 hshape with ⟨-, hleft, hright⟩ | ⟨-, hleft, hright⟩
    · exact .nameLeft subject value hdeclared hleft hright htype
    · exact .nameRight subject value hdeclared hleft hright htype

theorem accepts_iff {type : AttributeType} {value : Value} :
    accepts type value = true ↔ value.type = type := by
  cases type <;> cases value <;> simp [accepts, Value.type]

/-- The checker finds nothing wrong with exactly the well-formed comparisons. -/
theorem isNone_expressionProblem?_iff :
    (expressionProblem? target expression).isNone = true ↔ expression.WellFormed target := by
  rw [Expression.wellFormed_iff]
  unfold expressionProblem?
  cases hshape : expression.shape with
  | bothNames => simp
  | bothLiterals => simp
  | comparison id value nameOnLeft =>
    cases hsubject : target.attribute? id with
    | none => simp [hsubject]
    | some subject =>
      simp only [hsubject]
      by_cases haccepts : accepts subject.type value = true
      · rw [if_pos haccepts]
        have htype := accepts_iff.1 haccepts
        exact ⟨fun _ => ⟨id, value, nameOnLeft, subject, rfl, hsubject, htype⟩, fun _ => rfl⟩
      · rw [if_neg haccepts]
        have htype : ¬value.type = subject.type := fun htype => haccepts (accepts_iff.2 htype)
        simp [hsubject, htype]

/-! ### Conditions -/

section Denotation

variable {target : Target} {warning : Warning} {id : String} {value : Value}

theorem OperandKind.denotes_name_iff :
    (OperandKind.name id).Denotes target warning value ↔ ∃ subject,
      target.attribute? id = some subject ∧ warning.value subject = value.toAttribute := by
  constructor
  · generalize hkind : OperandKind.name id = kind
    rintro (⟨hdeclared, hvalue⟩ | _)
    · cases hkind
      exact ⟨_, Target.attribute?_eq_some_iff.2 ⟨hdeclared, rfl⟩, hvalue⟩
    · cases hkind
  · rintro ⟨subject, hsubject, hvalue⟩
    obtain ⟨hdeclared, rfl⟩ := Target.attribute?_eq_some_iff.1 hsubject
    exact .name hdeclared hvalue

theorem OperandKind.denotes_literal_iff {other : Value} :
    (OperandKind.literal value).Denotes target warning other ↔ other = value := by
  constructor
  · rintro ⟨⟩
    rfl
  · rintro rfl
    exact .literal other

theorem exists_toAttribute_eq (warning : Warning) (htype : value.type = subject.type) :
    ∃ actual : Value, warning.value subject = actual.toAttribute ∧ actual.type = value.type := by
  cases subject with
  | message => exact ⟨.string warning.message, rfl, htype.symm⟩
  | file => exact ⟨.string warning.file, rfl, htype.symm⟩
  | line => exact ⟨.integer warning.line, rfl, htype.symm⟩
  | start => cases value <;> cases htype
  | stop => cases value <;> cases htype

theorem Value.toAttribute_injective (h : a.toAttribute = b.toAttribute) : a = b := by
  cases a <;> cases b <;> cases h <;> rfl

/-- A name stands for the value of its attribute and nothing else. -/
theorem OperandKind.denotes_name_iff_eq {actual : Value}
    (hsubject : target.attribute? id = some subject)
    (hactual : warning.value subject = actual.toAttribute) :
    (OperandKind.name id).Denotes target warning value ↔ value = actual := by
  rw [denotes_name_iff]
  constructor
  · rintro ⟨other, hother, hvalue⟩
    obtain rfl : subject = other := by simpa [hsubject] using hother
    exact Value.toAttribute_injective (hvalue.symm.trans hactual)
  · rintro rfl
    exact ⟨subject, hsubject, hactual⟩

end Denotation

/-- A well-formed comparison is turned into a condition that holds for the warnings that it is true
of. -/
theorem holds_ofExpression? (h : expression.WellFormed target) :
    ∃ condition, Condition.ofExpression? target expression = some condition ∧
      ∀ warning, condition.holds warning = true ↔ expression.TrueOf target warning := by
  obtain ⟨id, value, nameOnLeft, subject, hshape, hsubject, htype⟩ := Expression.wellFormed_iff.1 h
  refine ⟨⟨subject, expression.operator, value, nameOnLeft⟩, ?_, ?_⟩
  · rw [Condition.ofExpression?, hshape]
    simp [hsubject]
  intro warning
  obtain ⟨actual, hactual, hsame⟩ := exists_toAttribute_eq warning htype
  obtain ⟨ordering, hcompare, horders⟩ := Value.compare?_toAttribute hsame
  have hname : ∀ other, (OperandKind.name id).Denotes target warning other ↔ other = actual :=
    fun other => OperandKind.denotes_name_iff_eq hsubject hactual
  rw [Condition.holds, hactual, hcompare]
  unfold Expression.TrueOf
  -- The sides are exchanged when the value stands on the left.
  rcases Expression.shape_eq_comparison_iff.1 hshape with
    ⟨rfl, hleft, hright⟩ | ⟨rfl, hleft, hright⟩
  · simp only [hleft, hright, hname, OperandKind.denotes_literal_iff, if_true,
      expression.operator.holds_iff_relates horders]
    simp
  · simp only [hleft, hright, hname, OperandKind.denotes_literal_iff, Bool.false_eq_true, if_false,
      expression.operator.holds_iff_relates horders.swap]
    simp

/-! ### Whole files -/

/-- The conditions of well-formed comparisons all hold for the warnings that all comparisons are
true of. -/
theorem holds_mapM_ofExpression? {expressions : List Expression}
    (h : ∀ expression ∈ expressions, expression.WellFormed target) :
    ∃ conditions, expressions.mapM (Condition.ofExpression? target) = some conditions ∧
      ∀ warning, conditions.all (fun condition => condition.holds warning) = true ↔
        ∀ expression ∈ expressions, expression.TrueOf target warning := by
  induction expressions with
  | nil => exact ⟨[], rfl, by simp⟩
  | cons expression expressions ih =>
    obtain ⟨condition, hcondition, hholds⟩ := holds_ofExpression? (h expression List.mem_cons_self)
    obtain ⟨conditions, hconditions, hall⟩ :=
      ih fun other hmem => h other (List.mem_cons_of_mem _ hmem)
    refine ⟨condition :: conditions, ?_, ?_⟩
    · simp [List.mapM_cons, hcondition, hconditions]
    · intro warning
      rw [List.all_cons, Bool.and_eq_true, hholds, hall, List.forall_mem_cons]

/-- What becomes of a filter that is checked and then compiled. -/
def suppressorOf (context : Context) (filter : Filter) : Option Suppressor :=
  (checkFilter context filter).1.bind Suppressor.ofFilter?

theorem suppressorOf_eq_none {context : Context} (h : Target.ofName? filter.name = none) :
    suppressorOf context filter = none := by
  rw [suppressorOf, checkFilter, h]
  rfl

/-- A filter with a registered name becomes a suppressor that judges warnings by the well-formed
comparisons. -/
theorem suppressorOf_eq_some (context : Context) (h : Target.ofName? filter.name = some target) :
    ∃ suppressor, suppressorOf context filter = some suppressor ∧
      ∀ warning, suppressor.suppresses warning = true ↔ target.covers warning.kind = true ∧
        ∀ expression ∈ filter.expressions,
          expression.WellFormed target → expression.TrueOf target warning := by
  have hkept : ∀ expression ∈ filter.expressions.filter fun expression =>
      (expressionProblem? target expression).isNone, expression.WellFormed target := by
    intro expression hmem
    exact isNone_expressionProblem?_iff.1 (List.mem_filter.1 hmem).2
  obtain ⟨conditions, hconditions, hall⟩ := holds_mapM_ofExpression? hkept
  refine ⟨⟨target, conditions⟩, ?_, ?_⟩
  · simp [suppressorOf, checkFilter, h, Suppressor.ofFilter?, hconditions]
  · intro warning
    rw [Suppressor.suppresses, Bool.and_eq_true, hall]
    refine and_congr_right fun _ => ?_
    simp only [List.mem_filter, isNone_expressionProblem?_iff, and_imp]

/-- A filter that is checked and compiled suppresses what it says. -/
theorem suppressorOf_suppresses_iff (context : Context) (filter : Filter) (warning : Warning) :
    (∃ suppressor, suppressorOf context filter = some suppressor ∧
      suppressor.suppresses warning = true) ↔ filter.Silences warning := by
  unfold Filter.Silences
  cases htarget : Target.ofName? filter.name with
  | none =>
    rw [suppressorOf_eq_none htarget]
    simp only [reduceCtorEq, false_and, exists_false, false_iff]
    rintro ⟨target, hname, -⟩
    rw [Target.ofName?_eq_some_iff.2 hname] at htarget
    cases htarget
  | some target =>
    obtain ⟨suppressor, hsome, hsuppresses⟩ := suppressorOf_eq_some context htarget
    have hname := Target.ofName?_eq_some_iff.1 htarget
    rw [hsome]
    simp only [Option.some.injEq, exists_eq_left', hsuppresses]
    constructor
    · rintro ⟨hcovers, htrue⟩
      exact ⟨target, hname, hcovers, htrue⟩
    · rintro ⟨other, hother, hcovers, htrue⟩
      obtain rfl : target = other := by
        rw [← Target.ofName?_eq_some_iff, htarget] at hother
        exact Option.some.inj hother
      exact ⟨hcovers, htrue⟩

theorem isSome_suppressorOf_iff (context : Context) (filter : Filter) :
    (suppressorOf context filter).isSome = true ↔ filter.IsRegistered := by
  rw [Filter.isRegistered_iff]
  cases htarget : Target.ofName? filter.name with
  | none =>
    rw [suppressorOf_eq_none htarget]
    exact Iff.rfl
  | some target =>
    obtain ⟨suppressor, hsome, -⟩ := suppressorOf_eq_some context htarget
    rw [hsome]
    exact Iff.rfl

/-- The suppressors of checked filters, one filter at a time. -/
theorem suppressors_compile_verify (name : String) (filters : List Filter) (source : List Char) :
    (IgnoreFilter.compile (verify ⟨name, filters⟩ source).1).suppressors =
      filters.filterMap (suppressorOf ⟨name, Text.segments source⟩) := by
  rw [IgnoreFilter.compile, verify, List.filterMap_map, List.filterMap_filterMap]
  rfl

theorem suppresses_filterMap_iff (compiled : Filter → Option Suppressor) (filters : List Filter)
    (warning : Warning) :
    (IgnoreFilter.mk (filters.filterMap compiled)).suppresses warning = true ↔
      ∃ filter ∈ filters, ∃ suppressor, compiled filter = some suppressor ∧
        suppressor.suppresses warning = true := by
  rw [IgnoreFilter.suppresses, List.any_eq_true]
  simp only [List.mem_filterMap]
  constructor
  · rintro ⟨suppressor, ⟨filter, hmem, hsome⟩, hsuppresses⟩
    exact ⟨filter, hmem, suppressor, hsome, hsuppresses⟩
  · rintro ⟨filter, hmem, suppressor, hsome, hsuppresses⟩
    exact ⟨suppressor, ⟨filter, hmem, hsome⟩, hsuppresses⟩

/-- What the filters of an ignore file suppress once they are checked and compiled. -/
theorem compile_verify_suppresses_iff (name : String) (filters : List Filter) (source : List Char)
    (warning : Warning) :
    (IgnoreFilter.compile (verify ⟨name, filters⟩ source).1).suppresses warning = true ↔
      ∃ filter ∈ filters, filter.Silences warning := by
  have hcompiled : IgnoreFilter.compile (verify ⟨name, filters⟩ source).1 =
      ⟨filters.filterMap (suppressorOf _)⟩ :=
    congrArg IgnoreFilter.mk (suppressors_compile_verify name filters source)
  simp only [hcompiled, suppresses_filterMap_iff, suppressorOf_suppresses_iff]

/-- An ignore file that is accepted suppresses a warning when one of its filters says so, and has a
suppressor for every filter with a registered name. -/
theorem loadIgnore_suppresses_iff (name : String) {source : List Char} {filters : List Filter}
    (h : parse source = .ok filters) :
    ∃ ignore notices, loadIgnore name source = .ok (ignore, notices) ∧
      (∀ warning, ignore.suppresses warning = true ↔ ∃ filter ∈ filters, filter.Silences warning) ∧
      ignore.size = filters.countP fun filter => decide filter.IsRegistered := by
  refine ⟨.compile (verify ⟨name, filters⟩ source).1, (verify ⟨name, filters⟩ source).2, ?_, ?_, ?_⟩
  · rw [loadIgnore, h]
    rfl
  · exact compile_verify_suppresses_iff name filters source
  · rw [IgnoreFilter.size, suppressors_compile_verify, List.length_filterMap_eq_countP]
    refine List.countP_congr fun filter _ => ?_
    rw [isSome_suppressorOf_iff, decide_eq_true_iff]

/-- A category with a literal on the left and a comparison that is not well formed, and a name that
stands for nothing. -/
theorem loadIgnore_suppresses_iff_category :
    ∃ filters, parse "pep8\n  3 <= lineno\n  start = \"a\"\nnope".toList = .ok filters ∧
      ∃ ignore notices,
        loadIgnore "ignore" "pep8\n  3 <= lineno\n  start = \"a\"\nnope".toList =
          .ok (ignore, notices) ∧
        (∀ warning, ignore.suppresses warning = true ↔
          ∃ filter ∈ filters, filter.Silences warning) ∧
        ignore.size = filters.countP fun filter => decide filter.IsRegistered := by
  have hok : (parse "pep8\n  3 <= lineno\n  start = \"a\"\nnope".toList).toOption.isSome =
      true := by
    decide +kernel
  rcases hparse : parse "pep8\n  3 <= lineno\n  start = \"a\"\nnope".toList with error | filters
  · rw [hparse] at hok
    cases hok
  · exact ⟨filters, rfl, loadIgnore_suppresses_iff "ignore" hparse⟩

end Ignore

end PythonLint
