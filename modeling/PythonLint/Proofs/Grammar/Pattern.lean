import PythonLint.Grammar.Pattern
import PythonLint.Proofs.Grammar.Expression

/-!
# Patterns without slashes

The checks do not look into patterns. All that counts of the rules for them is that they leave no
slash behind in what is left of the tokens.

Main statements: `yields_patterns`.
-/

namespace PythonLint.Grammar

open Std.Do Rule

set_option mvcgen.warning false

variable {self : Rules}

/-! ### Constants and names -/

@[spec]
theorem yields_number : Yields Cursor.SlashFree number fun _ => True := by
  mvcgen [number]
  all_goals simp_all

@[spec]
theorem yields_numberPattern : Yields Cursor.SlashFree numberPattern fun _ => True := by
  mvcgen [numberPattern]
  all_goals simp_all

@[spec]
theorem yields_dottedRest {start : Nat} {first : Expr} :
    Yields Cursor.SlashFree (dottedRest start first) fun _ => True := by
  mvcgen [dottedRest, yields_iterate_true]
  all_goals simp_all

@[spec]
theorem yields_key (h : self.Undivided) : Yields Cursor.SlashFree (key self) fun _ => True := by
  mvcgen [key]
  all_goals simp_all

/-! ### Patterns -/

section Inner

variable {inner : Rule Pattern} (hinner : Yields Cursor.SlashFree inner fun _ => True)

@[spec]
theorem yields_proceed {state : PatternState} :
    Yields Cursor.SlashFree state.proceed fun _ => True := by
  mvcgen [PatternState.proceed]

include hinner

theorem yields_mappingStep (h : self.Undivided) {state : PatternState} :
    Yields Cursor.SlashFree (mappingStep self inner state) fun _ => True := by
  mvcgen [mappingStep, hinner]
  all_goals simp_all

@[spec]
theorem yields_mappingPattern (h : self.Undivided) :
    Yields Cursor.SlashFree (mappingPattern self inner) fun _ => True := by
  have hiterate : Yields Cursor.SlashFree (iterate (mappingStep self inner) .empty) fun _ => True :=
    yields_iterate_true fun _ => yields_mappingStep hinner h
  mvcgen [mappingPattern, hiterate]
  all_goals simp_all

theorem yields_classStep {state : PatternState} :
    Yields Cursor.SlashFree (classStep inner state) fun _ => True := by
  mvcgen [classStep, hinner]
  all_goals simp_all

@[spec]
theorem yields_classPattern {callee : Expr} :
    Yields Cursor.SlashFree (classPattern inner callee) fun _ => True := by
  have hiterate : Yields Cursor.SlashFree (iterate (classStep inner) .empty) fun _ => True :=
    yields_iterate_true fun _ => yields_classStep hinner
  mvcgen [classPattern, hiterate]
  all_goals simp_all

@[spec]
theorem yields_bracketed {opening closing : String} :
    Yields Cursor.SlashFree (bracketed inner opening closing) fun _ => True := by
  have hitems : Yields Cursor.SlashFree (items startsPattern inner) fun _ => True :=
    yields_items_true hinner
  mvcgen [bracketed, hitems]
  all_goals simp_all

@[spec]
theorem yields_closedPattern (h : self.Undivided) :
    Yields Cursor.SlashFree (closedPattern self inner) fun _ => True := by
  mvcgen [closedPattern, hinner]
  all_goals simp_all

@[spec]
theorem yields_bindingPattern (h : self.Undivided) :
    Yields Cursor.SlashFree (bindingPattern self inner) fun _ => True := by
  have hmany : Yields Cursor.SlashFree (many (acceptSymbol "|") (closedPattern self inner))
      fun _ => True :=
    yields_many_true yields_acceptSymbol (yields_closedPattern hinner h)
  mvcgen [bindingPattern, hmany, hinner]
  all_goals simp_all

end Inner

theorem yields_pattern (h : self.Undivided) (level : Nat) :
    Yields Cursor.SlashFree (pattern self level) fun _ => True := by
  induction level with
  | zero => exact yields_unexpected.mono fun _ => False.elim
  | succ level ih => exact yields_bindingPattern ih h

@[spec]
theorem yields_patterns (h : self.Undivided) {level : Nat} :
    Yields Cursor.SlashFree (patterns self level) fun _ => True := by
  have hitems : Yields Cursor.SlashFree (items startsPattern (pattern self level)) fun _ => True :=
    yields_items_true (yields_pattern h level)
  mvcgen [patterns, hitems]

end PythonLint.Grammar
