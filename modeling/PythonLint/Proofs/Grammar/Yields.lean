import PythonLint.Grammar.Rules
import Mathlib

/-!
# What a reader yields

A reader goes through what is left of its input and yields a value, or gives up. What it yields is
described by a triple that says nothing of readers that give up: when something holds of the input
before, it still holds of the input that is left, and something else holds of the value.

Main statements: `yields_iff`, `yields_loop`, `Rule.yields_many`, `Rule.yields_items`.
-/

namespace PythonLint

open Std.Do

set_option mvcgen.warning false

variable {σ ε α β : Type}

/-- If the reader starts with input of which `Kept` holds and yields a value, then `P` holds of the
value and `Kept` of what is left of the input. -/
abbrev Yields (Kept : σ → Prop) (reader : StateT σ (Except ε) α) (P : α → Prop) : Prop :=
  ⦃fun input => ⌜Kept input⌝⦄ reader ⦃⇓? value => fun left => ⌜Kept left ∧ P value⌝⦄

theorem yields_iff {Kept : σ → Prop} {reader : StateT σ (Except ε) α} {P : α → Prop} :
    Yields Kept reader P ↔
      ∀ input value left, Kept input → reader input = .ok (value, left) → Kept left ∧ P value := by
  constructor
  · intro h input value left hinput hrun
    have hwp := h input hinput
    change (wp⟦reader input⟧ (⇓? result => ⌜Kept result.2 ∧ P result.1⌝)).down at hwp
    rw [hrun] at hwp
    exact hwp
  · intro h input hinput
    change (wp⟦reader input⟧ (⇓? result => ⌜Kept result.2 ∧ P result.1⌝)).down
    cases hrun : reader input with
    | error fault => exact trivial
    | ok result => exact h input result.1 result.2 hinput hrun

theorem Yields.mono {Kept : σ → Prop} {reader : StateT σ (Except ε) α} {P Q : α → Prop}
    (h : Yields Kept reader P) (himp : ∀ value, P value → Q value) : Yields Kept reader Q := by
  rw [yields_iff] at h ⊢
  intro input value left hinput hrun
  obtain ⟨hleft, hvalue⟩ := h input value left hinput hrun
  exact ⟨hleft, himp value hvalue⟩

/-- What a computation without input yields. -/
theorem ensures_of_ok {result : Except ε α} {P : α → Prop}
    (h : ∀ value, result = .ok value → P value) : ⦃⌜True⌝⦄ result ⦃⇓? value => ⌜P value⌝⦄ := by
  intro _
  cases result with
  | error fault => exact trivial
  | ok value => exact h value rfl

/-- What each step keeps holds after all of them. The steps end because less input is left after
each. -/
theorem yields_loop {Kept : σ → Prop} {I : α → Prop} (size : σ → Nat)
    {step : α → StateT σ (Except ε) (Option α)} {loop : α → StateT σ (Except ε) α}
    (hloop : ∀ value input, loop value input =
      match step value input with
      | .error fault => .error fault
      | .ok (none, left) => .ok (value, left)
      | .ok (some value, left) =>
        if size left < size input then loop value left else .ok (value, left))
    {value : α} (hvalue : I value)
    (hstep : ∀ value, I value → Yields Kept (step value) fun value? => ∀ value ∈ value?, I value) :
    Yields Kept (loop value) I := by
  rw [yields_iff]
  intro input result left hinput hrun
  induction hsize : size input using Nat.strong_induction_on generalizing value input with
  | h bound ih =>
    rw [hloop] at hrun
    cases hone : step value input with
    | error fault =>
      rw [hone] at hrun
      cases hrun
    | ok stepped =>
      obtain ⟨value?, middle⟩ := stepped
      obtain ⟨hmiddle, hkept⟩ := yields_iff.1 (hstep value hvalue) _ _ _ hinput hone
      rw [hone] at hrun
      cases value? with
      | none =>
        cases hrun
        exact ⟨hmiddle, hvalue⟩
      | some further =>
        simp only at hrun
        split at hrun
        · next hless => exact ih (size middle) (hsize ▸ hless) (hkept _ rfl) middle hmiddle hrun rfl
        · cases hrun
          exact ⟨hmiddle, hkept _ rfl⟩

/-- The token is no slash and no string with one. A slash in a longer operator counts for
nothing. -/
def Tok.SlashFree : Tok → Prop
  | symbol text => text ≠ "/"
  | string literal => '/' ∉ literal.content
  | _ => True

/-- No token that is left is a slash or a string with one. -/
def Cursor.SlashFree (cursor : Cursor) : Prop :=
  ∀ lexeme ∈ cursor.rest, lexeme.tok.SlashFree

namespace Rule

/-! ### Single tokens -/

@[spec]
theorem yields_peek : Yields Cursor.SlashFree peek fun tok? => ∀ tok ∈ tok?, tok.SlashFree := by
  rw [yields_iff]
  intro cursor tok? after hcursor hrun
  unfold peek at hrun
  split at hrun
  · cases hrun
  · cases hrun
    exact ⟨hcursor, fun tok h => by cases h⟩
  · next lexeme rest hrest =>
    cases hrun
    refine ⟨hcursor, fun tok h => ?_⟩
    cases h
    exact hcursor lexeme (hrest ▸ List.mem_cons_self)

@[spec]
theorem yields_peekSecond : Yields Cursor.SlashFree peekSecond fun _ => True := by
  rw [yields_iff]
  rintro cursor tok? after hcursor ⟨⟩
  exact ⟨hcursor, trivial⟩

@[spec]
theorem yields_position : Yields Cursor.SlashFree position fun _ => True := by
  rw [yields_iff]
  rintro cursor offset after hcursor ⟨⟩
  exact ⟨hcursor, trivial⟩

@[spec]
theorem yields_skip : Yields Cursor.SlashFree skip fun _ => True := by
  rw [yields_iff]
  intro cursor value after hcursor hrun
  unfold skip at hrun
  split at hrun
  · cases hrun
    exact ⟨hcursor, trivial⟩
  · next lexeme rest hrest =>
    cases hrun
    exact ⟨fun other h => hcursor other (hrest ▸ List.mem_cons_of_mem _ h), trivial⟩

@[spec]
theorem yields_fail {fault : Fault} {offset : Nat} :
    Yields Cursor.SlashFree (fail fault offset : Rule α) fun _ => False := by
  rw [yields_iff]
  intro cursor value after _ hrun
  cases hrun

@[spec]
theorem yields_unexpected {indentOnly : Bool} :
    Yields Cursor.SlashFree (unexpected indentOnly : Rule α) fun _ => False := by
  mvcgen [unexpected]
  all_goals simp_all

@[spec]
theorem yields_next {tok : Tok} : Yields Cursor.SlashFree (next tok) fun _ => True := by
  mvcgen [next]
  simp_all

@[spec]
theorem yields_accept {tok : Tok} : Yields Cursor.SlashFree (accept tok) fun _ => True := by
  mvcgen [accept]
  all_goals simp_all

@[spec]
theorem yields_expect {tok : Tok} : Yields Cursor.SlashFree (expect tok) fun _ => True := by
  mvcgen [expect]
  all_goals simp_all

@[spec]
theorem yields_symbol {text : String} : Yields Cursor.SlashFree (symbol text) fun _ => True :=
  yields_expect

@[spec]
theorem yields_keyword {text : String} : Yields Cursor.SlashFree (keyword text) fun _ => True :=
  yields_expect

@[spec]
theorem yields_nextSymbol {text : String} :
    Yields Cursor.SlashFree (nextSymbol text) fun _ => True :=
  yields_next

@[spec]
theorem yields_nextKeyword {text : String} :
    Yields Cursor.SlashFree (nextKeyword text) fun _ => True :=
  yields_next

@[spec]
theorem yields_acceptSymbol {text : String} :
    Yields Cursor.SlashFree (acceptSymbol text) fun _ => True :=
  yields_accept

@[spec]
theorem yields_acceptKeyword {text : String} :
    Yields Cursor.SlashFree (acceptKeyword text) fun _ => True :=
  yields_accept

@[spec]
theorem yields_identifier : Yields Cursor.SlashFree identifier fun _ => True := by
  mvcgen [identifier]
  all_goals simp_all

@[spec]
theorem yields_nextNameThen {text : String} :
    Yields Cursor.SlashFree (nextNameThen text) fun _ => True := by
  mvcgen [nextNameThen]
  all_goals simp_all

@[spec]
theorem yields_nextIs {p : Tok → Bool} : Yields Cursor.SlashFree (nextIs p) fun _ => True := by
  mvcgen [nextIs]
  simp_all

/-! ### Repetition -/

@[inherit_doc yields_loop]
theorem yields_iterate (I : α → Prop) {step : α → Rule (Option α)} {value : α} (hvalue : I value)
    (hstep : ∀ value, I value → Yields Cursor.SlashFree (step value) fun value? =>
      ∀ value ∈ value?, I value) :
    Yields Cursor.SlashFree (iterate step value) I := by
  refine yields_loop (fun cursor => cursor.rest.length) (fun value cursor => ?_) hvalue hstep
  rw [iterate]
  rcases step value cursor with fault | ⟨_ | further, after⟩ <;> rfl

theorem yields_iterate_true {step : α → Rule (Option α)} {value : α}
    (hstep : ∀ value, Yields Cursor.SlashFree (step value) fun _ => True) :
    Yields Cursor.SlashFree (iterate step value) fun _ => True :=
  yields_iterate (fun _ => True) trivial fun value _ => (hstep value).mono fun _ _ _ _ => trivial

theorem yields_many {P : α → Prop} {more : Rule Bool} {item : Rule α}
    (hmore : Yields Cursor.SlashFree more fun _ => True) (hitem : Yields Cursor.SlashFree item P) :
    Yields Cursor.SlashFree (many more item) fun items => ∀ item ∈ items, P item := by
  have hstep : ∀ items : List α, (∀ item ∈ items, P item) →
      Yields Cursor.SlashFree (do if ← more then return some ((← item) :: items) else return none)
        fun items? => ∀ items ∈ items?, ∀ item ∈ items, P item := by
    intro items hitems
    mvcgen [hmore, hitem]
    all_goals simp_all
  have hempty : ∀ item ∈ ([] : List α), P item := by simp
  have hiterate := yields_iterate (fun items => ∀ item ∈ items, P item) hempty hstep
  unfold many
  mvcgen [hiterate]
  simp_all

theorem yields_many_true {more : Rule Bool} {item : Rule α}
    (hmore : Yields Cursor.SlashFree more fun _ => True)
    (hitem : Yields Cursor.SlashFree item fun _ => True) :
    Yields Cursor.SlashFree (many more item) fun _ => True :=
  (yields_many hmore hitem).mono fun _ _ => trivial

theorem yields_commaList {P : α → Prop} {item : Rule α} (hitem : Yields Cursor.SlashFree item P) :
    Yields Cursor.SlashFree (commaList item) fun items => ∀ item ∈ items, P item := by
  have hafter : Yields Cursor.SlashFree (do symbol ","; item) P := by
    mvcgen [hitem]
    all_goals simp_all
  have hmany : Yields Cursor.SlashFree (manyAfterComma item) fun items => ∀ item ∈ items, P item :=
    yields_many yields_nextSymbol hafter
  mvcgen [commaList, hitem, hmany]
  all_goals simp_all

theorem yields_commaList_true {item : Rule α} (hitem : Yields Cursor.SlashFree item fun _ => True) :
    Yields Cursor.SlashFree (commaList item) fun _ => True :=
  (yields_commaList hitem).mono fun _ _ => trivial

theorem yields_moreItems {P : α → Prop} {starts : Tok → Bool} {item : Rule α}
    (hitem : Yields Cursor.SlashFree item P) :
    Yields Cursor.SlashFree (moreItems starts item) fun read => ∀ item ∈ read.1, P item := by
  have hstep : ∀ state : List α × Bool, (∀ item ∈ state.1, P item) →
      Yields Cursor.SlashFree (do
        if state.2 then return none
        if ← acceptSymbol "," then
          if ← nextIs starts then return some ((← item) :: state.1, false)
          return some (state.1, true)
        return none) fun state? => ∀ state ∈ state?, ∀ item ∈ state.1, P item := by
    intro state hstate
    mvcgen [hitem]
    all_goals simp_all
  have hempty : ∀ item ∈ (([], false) : List α × Bool).1, P item := by simp
  have hiterate :=
    yields_iterate (fun state : List α × Bool => ∀ item ∈ state.1, P item) hempty hstep
  unfold moreItems
  mvcgen [hiterate]
  all_goals simp_all

theorem yields_items {P : α → Prop} {starts : Tok → Bool} {item : Rule α}
    (hitem : Yields Cursor.SlashFree item P) :
    Yields Cursor.SlashFree (items starts item) fun read => ∀ item ∈ read.1, P item := by
  have hmore : Yields Cursor.SlashFree (moreItems starts item) fun read =>
      ∀ item ∈ read.1, P item :=
    yields_moreItems hitem
  mvcgen [items, hitem, hmore]
  all_goals simp_all

theorem yields_items_true {starts : Tok → Bool} {item : Rule α}
    (hitem : Yields Cursor.SlashFree item fun _ => True) :
    Yields Cursor.SlashFree (items starts item) fun _ => True :=
  (yields_items hitem).mono fun _ _ => trivial

theorem yields_optional {P : α → Prop} {starts : Tok → Bool} {item : Rule α}
    (hitem : Yields Cursor.SlashFree item P) :
    Yields Cursor.SlashFree (optional starts item) fun item? => ∀ item ∈ item?, P item := by
  mvcgen [optional, hitem]
  all_goals simp_all

theorem yields_orElse {P : α → Prop} {first second : Rule α}
    (hfirst : Yields Cursor.SlashFree first P) (hsecond : Yields Cursor.SlashFree second P) :
    Yields Cursor.SlashFree (orElse first second) P := by
  rw [yields_iff] at hfirst hsecond ⊢
  intro cursor value after hcursor hrun
  unfold orElse at hrun
  split at hrun
  · next result hresult =>
    cases hrun
    exact hfirst _ _ _ hcursor hresult
  · split at hrun
    · next result hresult =>
      cases hrun
      exact hsecond _ _ _ hcursor hresult
    · cases hrun

end Rule

end PythonLint
