import Mathlib.Data.List.Basic
import Mathlib.Data.List.Flatten
import PythonLint.Ast

/-!
# The parts of a syntax tree

A syntax tree is made of parts of many kinds: statements, expressions, parameters, patterns and so
on. Here they are put into one type, and a part lists all that it holds, whatever the checks make of
it. Walking down these lists gives every part of the tree, each before what it holds, and as often
as it occurs.

Some parts are overlooked by the checks: format specifications, patterns, type parameters and type
aliases. Walking down without entering these gives the parts that the checks see.

Main statements: `Part.filterMap_seen_eq_iff`, `Part.isBlock_eq_false_of_mem_all`.
-/

namespace PythonLint

/-- The position of the first byte of a statement, after any decorators. -/
def Stmt.start : Stmt → Nat
  | function start _ _ _ _ _ _ | classDef start _ _ _ _ _ _ | ret start _ | delete start _
  | assign start _ _ | augmented start _ _ | annotated start _ _ _ | typeAlias start _ _ _
  | forLoop start _ _ _ _ | whileLoop start _ _ _ | branch start _ _ _ | withBlock start _ _
  | matchBlock start _ _ | raise start _ _ | tryBlock start _ _ _ _ | assertion start _ _
  | importNames start _ | importFrom start _ _ _ | global start _ | nonlocal start _
  | expression start _ | pass start | breakLoop start | continueLoop start => start

/-- A part of a syntax tree, of any kind. -/
inductive Part where
  | module (body : List Stmt)
  | stmt (inner : Stmt)
  | handler (inner : Handler)
  | matchCase (inner : MatchCase)
  | withItem (inner : WithItem)
  | typeParam (inner : TypeParam)
  | pattern (inner : Pattern)
  | expr (inner : Expr)
  | field (inner : Field)
  | spec (fields : List Field)
  | param (inner : Param)
  | keyword (inner : KeywordArg)
  | entry (inner : Entry)
  | clause (inner : Clause)

namespace Part

variable {child inner part : Part}

/-! ### What a part holds -/

/-- The parts that an expression holds. -/
def ofExpr : Expr → List Part
  | .name _ _ | .literal _ => []
  | .formatted _ fields => fields.map field
  | .unary _ operand | .await _ operand | .yieldFrom _ operand | .starred _ operand | .member _
      operand _ =>
    [expr operand]
  | .binary _ _ left right => [expr left, expr right]
  | .boolean _ operands | .tuple _ operands | .listDisplay _ operands | .setDisplay _ operands =>
    operands.map expr
  | .comparison _ left others => expr left :: others.map expr
  | .conditional _ value test otherwise => [expr value, expr test, expr otherwise]
  | .lambda _ params body => params.map param ++ [expr body]
  | .named _ target value | .subscript _ target value => [expr target, expr value]
  | .yield _ value => value.toList.map expr
  | .call _ callee args keywords => expr callee :: (args.map expr ++ keywords.map keyword)
  | .slice _ lower upper step => (lower.toList ++ upper.toList ++ step.toList).map expr
  | .dictDisplay _ entries => entries.map entry
  | .comprehension _ _ elements clauses => elements.map expr ++ clauses.map clause

def ofPattern : Pattern → List Part
  | .value value => [expr value]
  | .singleton | .capture _ | .star _ => []
  | .sequence patterns | .alternatives patterns => patterns.map pattern
  | .mapping keys patterns _ => keys.map expr ++ patterns.map pattern
  | .classPattern callee patterns _ named => expr callee :: (patterns ++ named).map pattern
  | .binding inner _ => [pattern inner]

/-- The parts that a statement holds, blocks after what introduces them. -/
def ofStmt : Stmt → List Part
  | .function _ decorators _ typeParams params returns body =>
    decorators.map expr ++ typeParams.map typeParam ++ params.map param ++
      returns.toList.map expr ++ body.map stmt
  | .classDef _ decorators _ typeParams bases keywords body =>
    decorators.map expr ++ typeParams.map typeParam ++ bases.map expr ++ keywords.map keyword ++
      body.map stmt
  | .ret _ value => value.toList.map expr
  | .delete _ targets => targets.map expr
  | .assign _ targets value => (targets ++ [value]).map expr
  | .augmented _ target value => [expr target, expr value]
  | .annotated _ target type value => expr target :: expr type :: value.toList.map expr
  | .typeAlias _ _ typeParams value => typeParams.map typeParam ++ [expr value]
  | .forLoop _ target source body orelse => expr target :: expr source :: (body ++ orelse).map stmt
  | .whileLoop _ test body orelse | .branch _ test body orelse =>
    expr test :: (body ++ orelse).map stmt
  | .withBlock _ items body => items.map withItem ++ body.map stmt
  | .matchBlock _ subject cases => expr subject :: cases.map matchCase
  | .raise _ exception cause => (exception.toList ++ cause.toList).map expr
  | .tryBlock _ body handlers orelse finish =>
    body.map stmt ++ handlers.map handler ++ (orelse ++ finish).map stmt
  | .assertion _ test message => expr test :: message.toList.map expr
  | .expression _ value => [expr value]
  | .importNames _ _ | .importFrom _ _ _ _ | .global _ _ | .nonlocal _ _ | .pass _
  | .breakLoop _ | .continueLoop _ => []

def children : Part → List Part
  | module body => body.map stmt
  | stmt inner => ofStmt inner
  | handler (.mk _ type body) => type.toList.map expr ++ body.map stmt
  | matchCase (.mk inner guard body) => pattern inner :: (guard.toList.map expr ++ body.map stmt)
  | withItem ⟨context, target⟩ => expr context :: target.toList.map expr
  | typeParam ⟨_, bound⟩ => bound.toList.map expr
  | pattern inner => ofPattern inner
  | expr inner => ofExpr inner
  | field (.mk value inner) => [expr value, spec inner]
  | spec fields => fields.map field
  | param (.mk _ _ _ type byDefault) => (type.toList ++ byDefault.toList).map expr
  | keyword (.mk _ value) => [expr value]
  | entry (.pair key value) => [expr key, expr value]
  | entry (.unpack value) => [expr value]
  | clause (.mk target source conditions) => expr target :: expr source :: conditions.map expr

theorem sizeOf_lt_of_mem_ofExpr {inner : Expr} (h : child ∈ ofExpr inner) :
    sizeOf child < 1 + sizeOf inner := by
  cases inner <;> simp [ofExpr] at h ⊢ <;> grind [→ List.sizeOf_lt_of_mem]

theorem sizeOf_lt_of_mem_ofPattern {inner : Pattern} (h : child ∈ ofPattern inner) :
    sizeOf child < 1 + sizeOf inner := by
  cases inner <;> simp [ofPattern] at h ⊢ <;> grind [→ List.sizeOf_lt_of_mem]

theorem sizeOf_lt_of_mem_ofStmt {inner : Stmt} (h : child ∈ ofStmt inner) :
    sizeOf child < 1 + sizeOf inner := by
  cases inner <;> simp [ofStmt] at h ⊢ <;> grind [→ List.sizeOf_lt_of_mem]

theorem sizeOf_lt_of_mem_children (h : child ∈ part.children) : sizeOf child < sizeOf part := by
  fun_cases children part with
  | case2 inner => exact sizeOf_lt_of_mem_ofStmt h
  | case7 inner => exact sizeOf_lt_of_mem_ofPattern h
  | case8 inner => exact sizeOf_lt_of_mem_ofExpr h
  | _ =>
    simp [children] at h ⊢
    grind [→ List.sizeOf_lt_of_mem]

/-- What holds of a part when it holds of what the part holds, holds of every part. -/
@[elab_as_elim]
theorem induction {motive : Part → Prop}
    (step : ∀ part : Part, (∀ child ∈ part.children, motive child) → motive part) (part : Part) :
    motive part :=
  step part fun child _ => induction step child
termination_by sizeOf part
decreasing_by exact sizeOf_lt_of_mem_children ‹_›

/-! ### Parts inside a part -/

/-- A part with those inside it that are reached by entering some parts only, each before what it
holds. -/
def reached (enter : Part → Bool) (part : Part) : List Part :=
  part :: if enter part then part.children.attach.flatMap fun child => child.1.reached enter else []
termination_by sizeOf part
decreasing_by exact sizeOf_lt_of_mem_children child.2

theorem reached_eq (enter : Part → Bool) (part : Part) :
    part.reached enter = part :: if enter part then part.children.flatMap (reached enter)
      else [] := by
  rw [reached, List.flatMap_subtype (g := reached enter) fun _ _ => rfl, List.unattach_attach]

def all (part : Part) : List Part :=
  part.reached fun _ => true

/-- The parts that the checks do not enter. -/
def isOverlooked : Part → Bool
  | stmt (.typeAlias _ _ _ _) | typeParam _ | spec _ | pattern _ => true
  | _ => false

/-- A part with the parts inside it that are not inside an overlooked one. -/
def seen (part : Part) : List Part :=
  part.reached fun inner => !inner.isOverlooked

theorem all_eq (part : Part) : part.all = part :: part.children.flatMap all := by
  rw [all, reached_eq, if_pos rfl]
  rfl

theorem seen_eq (part : Part) :
    part.seen = part :: if part.isOverlooked then [] else part.children.flatMap seen := by
  rw [seen, reached_eq]
  cases part.isOverlooked <;> rfl

theorem mem_all_self (part : Part) : part ∈ part.all := by
  rw [all_eq]
  exact List.mem_cons_self

theorem mem_all_iff :
    inner ∈ part.all ↔ inner = part ∨ ∃ child ∈ part.children, inner ∈ child.all := by
  rw [all_eq, List.mem_cons, List.mem_flatMap]

theorem mem_all_trans {last : Part} (hinner : inner ∈ part.all) (hlast : last ∈ inner.all) :
    last ∈ part.all := by
  induction part using Part.induction with
  | step part ih =>
    rcases mem_all_iff.1 hinner with rfl | ⟨child, hchild, hinner⟩
    · exact hlast
    · exact mem_all_iff.2 (.inr ⟨child, hchild, ih child hchild hinner⟩)

theorem seen_sublist_all (part : Part) : part.seen.Sublist part.all := by
  induction part using Part.induction with
  | step part ih =>
    rw [seen_eq, all_eq]
    refine List.Sublist.cons_cons _ ?_
    split
    · exact List.nil_sublist _
    · exact List.Sublist.flatMap_right _ ih

/-! ### Missing nothing -/

section

variable {β : Type} {f : Part → Option β}

/-- When parts that hold less each miss nothing together, none of them does. -/
theorem forall_eq_of_flatMap_eq {parts : List Part} {g h : Part → List β}
    (hsub : ∀ part ∈ parts, (g part).Sublist (h part)) (heq : parts.flatMap g = parts.flatMap h) :
    ∀ part ∈ parts, g part = h part := by
  induction parts with
  | nil => exact List.forall_mem_nil _
  | cons part parts ih =>
    obtain ⟨hpart, hparts⟩ := List.forall_mem_cons.1 hsub
    have hlength := congrArg List.length heq
    rw [List.flatMap_cons, List.flatMap_cons, List.length_append, List.length_append] at hlength
    have hrest := (List.Sublist.flatMap_right parts hparts).length_le
    have hfirst : g part = h part := hpart.eq_of_length (by have := hpart.length_le; omega)
    rw [List.flatMap_cons, List.flatMap_cons, hfirst, List.append_cancel_left_eq] at heq
    exact List.forall_mem_cons.2 ⟨hfirst, ih hparts heq⟩

theorem filterMap_all_eq_nil_of_mem (hpart : part.all.filterMap f = [])
    (hinner : inner ∈ part.all) : inner.all.filterMap f = [] := by
  rw [List.filterMap_eq_nil_iff] at hpart ⊢
  exact fun last hlast => hpart last (mem_all_trans hinner hlast)

/-- What is looked for in all parts is found in those that are seen, exactly if no overlooked part
has it inside. -/
theorem filterMap_seen_eq_iff (hf : ∀ part : Part, part.isOverlooked = true → f part = none)
    (part : Part) :
    part.seen.filterMap f = part.all.filterMap f ↔
      ∀ inner ∈ part.all, inner.isOverlooked = true → inner.all.filterMap f = [] := by
  induction part using Part.induction with
  | step part ih =>
    by_cases hover : part.isOverlooked = true
    · have hseen : part.seen.filterMap f = [] := by
        rw [seen_eq, if_pos hover, List.filterMap_cons_none (hf part hover), List.filterMap_nil]
      rw [hseen]
      refine ⟨fun hnil inner hinner _ => filterMap_all_eq_nil_of_mem hnil.symm hinner, fun h => ?_⟩
      exact (h part (mem_all_self part) hover).symm
    · -- The part is the same in both lists, so that the children are to be compared.
      have hchildren : part.seen.filterMap f = part.all.filterMap f ↔
          (part.children.flatMap fun child => child.seen.filterMap f) =
            part.children.flatMap fun child => child.all.filterMap f := by
        rw [seen_eq, all_eq, if_neg hover, List.filterMap_cons, List.filterMap_cons,
          List.filterMap_flatMap, List.filterMap_flatMap]
        cases f part with
        | none => rfl
        | some b => exact List.cons_inj_right b
      rw [hchildren]
      constructor
      · intro heq inner hinner hinnerOver
        obtain rfl | ⟨child, hchild, hinner⟩ := mem_all_iff.1 hinner
        · exact absurd hinnerOver hover
        · have hchild' :=
            forall_eq_of_flatMap_eq (fun child _ => (seen_sublist_all child).filterMap f) heq
            child hchild
          exact (ih child hchild).1 hchild' inner hinner hinnerOver
      · intro h
        refine List.flatMap_congr fun child hchild => (ih child hchild).2 fun inner hinner => ?_
        exact h inner (mem_all_iff.2 (.inr ⟨child, hchild, hinner⟩))

end

/-! ### Blocks -/

/-- The part is a statement or made of statements. -/
def isBlock : Part → Bool
  | module _ | stmt _ | handler _ | matchCase _ => true
  | _ => false

theorem isBlock_eq_false_of_mem_children (hpart : part.isBlock = false)
    (h : child ∈ part.children) : child.isBlock = false := by
  fun_cases children part with
  | case7 inner => cases inner <;> simp [children, ofPattern] at h <;> grind [isBlock]
  | case8 inner => cases inner <;> simp [children, ofExpr] at h <;> grind [isBlock]
  | _ =>
    simp [children] at h
    grind [isBlock]

/-- No statement is inside an expression, a pattern or a parameter. -/
theorem isBlock_eq_false_of_mem_all (hpart : part.isBlock = false) (h : inner ∈ part.all) :
    inner.isBlock = false := by
  induction part using Part.induction with
  | step part ih =>
    rcases mem_all_iff.1 h with rfl | ⟨child, hchild, hinner⟩
    · exact hpart
    · exact ih child hchild (isBlock_eq_false_of_mem_children hpart hchild) hinner

/-- No statement is inside an overlooked part. -/
theorem isBlock_eq_false_of_isOverlooked (hpart : part.isOverlooked = true)
    (hchild : child ∈ part.children) (hinner : inner ∈ child.all) : inner.isBlock = false := by
  refine isBlock_eq_false_of_mem_all ?_ hinner
  unfold isOverlooked at hpart
  split at hpart
  · simp [children, ofStmt] at hchild
    grind [isBlock]
  · exact isBlock_eq_false_of_mem_children rfl hchild
  · exact isBlock_eq_false_of_mem_children rfl hchild
  · exact isBlock_eq_false_of_mem_children rfl hchild
  · cases hpart

/-! ### The order of the source -/

def start? : Part → Option Nat
  | stmt inner => some inner.start
  | handler (.mk start _ _) => some start
  | expr inner => some inner.start
  | param inner => some inner.start
  | _ => none

/-- All that is inside one part starts before all that is inside another. -/
def Before (first second : Part) : Prop :=
  ∀ a ∈ first.all.filterMap start?, ∀ b ∈ second.all.filterMap start?, a < b

instance (first second : Part) : Decidable (first.Before second) :=
  inferInstanceAs (Decidable (∀ a ∈ _, ∀ b ∈ _, a < b))

/-- Of two things that a part holds, at least one of them a block, the one that is listed first
comes first. -/
def SourceOrdered (part : Part) : Prop :=
  ∀ inner ∈ part.all, inner.children.Pairwise fun first second =>
    first.isBlock = true ∨ second.isBlock = true → first.Before second

instance (part : Part) : Decidable part.SourceOrdered :=
  inferInstanceAs (Decidable (∀ inner ∈ _, List.Pairwise _ _))

end Part

end PythonLint
