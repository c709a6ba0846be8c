import PythonLint.Proofs.Ignore.Acceptance

/-!
# Reading with one token of lookahead

The rules of ignore files read tokens from left to right and look at most one token ahead. So what a
rule does is decided by the tokens that it has seen: a success stands whatever comes after the next
token, and a token that is refused is refused whatever comes after it, while the tokens before it
call for more. An error that ends the tokens shows which tokens have been seen: it is reported
exactly when a rule calls for more tokens than there are.

Main statements: `ReadsAt.bind`, `leftToRight_readMany`, `readMany_error_cases`,
`LeftToRight.extend_ok`, `LeftToRight.extend_parsing`, `LeftToRight.lexing_of_ended`,
`isItem_comparison`, `isItem_filter`, `leftToRight_filters`.
-/

namespace PythonLint.Ignore

variable {problem : IgnoreError} {input : Input} {refusal : ParseError}

/-- The error is about the token: the token cannot stand where it stands, or is an integer out of
range. -/
def Refuses (token : Token) (refusal : ParseError) : Prop :=
  refusal = ⟨.unexpected token.kind token.lexeme, token.start⟩ ∨
    ¬token.InRange ∧ refusal = ⟨.outOfRange token.lexeme, token.start⟩

theorem Refuses.location_eq {token : Token} (h : Refuses token refusal) :
    refusal.location = token.start := by
  rcases h with rfl | ⟨-, rfl⟩ <;> rfl

theorem Refuses.fault_ne {token : Token} (h : Refuses token refusal) :
    refusal.fault ≠ .endOfInput := by
  rcases h with rfl | ⟨-, rfl⟩ <;> exact nofun

/-! ### Results that are decided -/

section Results

variable {α β : Type}

/-- The reader uses up tokens. The success depends on the next token at most: the same happens
whatever comes after that token, and when the tokens break off before it, the reader calls for more
or does not need it. -/
structure ReadsTo (p : Parser Input α) (input : Input) (a : α) (after : Input)
    (used : List Token) : Prop where
  tokens : input.tokens = used ++ after.tokens
  error : after.error = input.error
  serves : ∀ next, next ≠ [] → next.head? = after.tokens.head? → ∀ error,
    p ⟨used ++ next, input.last, error⟩ = .ok (a, ⟨next, after.last, error⟩)
  cut : (∀ error, p ⟨used, input.last, some error⟩ = .error (.lexing error)) ∨
    ∀ next error, p ⟨used ++ next, input.last, error⟩ = .ok (a, ⟨next, after.last, error⟩)

/-- The reader refuses a token, whatever comes after it. When the tokens break off before it, the
reader calls for more. -/
structure RefusesAt (p : Parser Input α) (input : Input) (refusal : ParseError)
    (before : List Token) (token : Token)
    (after : List Token) : Prop where
  tokens : input.tokens = before ++ token :: after
  refuses : Refuses token refusal
  serves : ∀ next error, p ⟨before ++ token :: next, input.last, error⟩ = .error (.parsing refusal)
  cut : ∀ error, p ⟨before, input.last, some error⟩ = .error (.lexing error)

/-- All that can stop a reader: it calls for tokens where an error or nothing comes, or it refuses a
token. -/
inductive Stops (p : Parser Input α) (input : Input) : IgnoreError → Prop
  | lexing {error : LexError} (herror : input.error = some error) : Stops p input (.lexing error)
  | ended {last : Location} (herror : input.error = none) :
      Stops p input (.parsing ⟨.endOfInput, last⟩)
  | refused {refusal : ParseError} {before : List Token} {token : Token} {after : List Token}
      (h : RefusesAt p input refusal before token after) : Stops p input (.parsing refusal)

/-- What the reader does with this input is decided by the tokens that it sees. -/
structure ReadsAt (p : Parser Input α) (input : Input) : Prop where
  ok : ∀ a after, p input = .ok (a, after) → ∃ used, ReadsTo p input a after used
  error : ∀ problem, p input = .error problem → Stops p input problem

/-- The reader reads from left to right, with one token of lookahead at most. -/
def LeftToRight (p : Parser Input α) : Prop :=
  ∀ input, ReadsAt p input

/-! ### One reader after another -/

theorem bind_of_ok {p : Parser Input α} {f : α → Parser Input β} {middle : Input} {a : α}
    (h : p input = .ok (a, middle)) : (p >>= f) input = f a middle := by
  change (p input).bind _ = _
  rw [h]
  rfl

theorem bind_of_error {p : Parser Input α} {f : α → Parser Input β} (h : p input = .error problem) :
    (p >>= f) input = .error problem := by
  change (p input).bind _ = _
  rw [h]
  rfl

theorem bind_eq_error_iff {p : Parser Input α} {f : α → Parser Input β} :
    (p >>= f) input = .error problem ↔
      p input = .error problem ∨ ∃ a middle, p input = .ok (a, middle) ∧
      f a middle = .error problem := by
  cases hp : p input with
  | error found =>
    rw [bind_of_error hp]
    simp
  | ok found =>
    rw [bind_of_ok (show p input = .ok (found.1, found.2) from hp)]
    constructor
    · intro h
      exact .inr ⟨found.1, found.2, rfl, h⟩
    · rintro (h | ⟨a, middle, h, hf⟩)
      · cases h
      · cases h
        exact hf

namespace ReadsTo

variable {p : Parser Input α} {f : α → Parser Input β} {input middle : Input} {a : α}
    {used : List Token}

theorem bind_serves (h : ReadsTo p input a middle used) {next : List Token} (hne : next ≠ [])
    (hhead : next.head? = middle.tokens.head?) (error : Option LexError) :
    (p >>= f) ⟨used ++ next, input.last, error⟩ = f a ⟨next, middle.last, error⟩ :=
  bind_of_ok (h.serves next hne hhead error)

/-- When the tokens break off after the first reader is done, the second one calls for more, if not
the first. -/
theorem bind_cut (h : ReadsTo p input a middle used) {next : List Token}
    (hnext : next <+: middle.tokens) {error : LexError}
    (hcut : f a ⟨next, middle.last, some error⟩ = .error (.lexing error)) :
    (p >>= f) ⟨used ++ next, input.last, some error⟩ = .error (.lexing error) := by
  obtain ⟨rest, hrest⟩ := hnext
  by_cases hnil : next = []
  · subst hnil
    rcases h.cut with hlexing | hfree
    · rw [List.append_nil]
      exact bind_of_error (hlexing error)
    · rw [bind_of_ok (hfree [] (some error)), hcut]
  · rw [h.bind_serves hnil (by simp [← hrest, List.head?_append, List.head?_eq_some_head hnil]),
      hcut]

end ReadsTo

/-- One reader after another is decided by what both see. -/
theorem ReadsAt.bind {p : Parser Input α} {f : α → Parser Input β} (hp : ReadsAt p input)
    (hf : ∀ a middle, p input = .ok (a, middle) → ReadsAt (f a) middle) :
    ReadsAt (p >>= f) input := by
  constructor
  · intro b after h
    obtain ⟨a, middle, hfirst, hsecond⟩ := bind_eq_ok_iff.1 h
    obtain ⟨used, hused⟩ := hp.ok a middle hfirst
    obtain ⟨used', hused'⟩ := (hf a middle hfirst).ok b after hsecond
    have hserves : ∀ next, used' ++ next ≠ [] →
      (used' ++ next).head? = middle.tokens.head? → ∀ error,
        f a ⟨used' ++ next, middle.last, error⟩ = .ok (b, ⟨next, after.last, error⟩) →
          (p >>= f) ⟨used ++ used' ++ next, input.last, error⟩ =
            .ok (b, ⟨next, after.last, error⟩) := by
      intro next hne hhead error hok
      rw [List.append_assoc, hused.bind_serves hne hhead, hok]
    refine ⟨used ++ used', ?_, hused'.error.trans hused.error, fun next hne hhead error => ?_, ?_⟩
    · rw [hused.tokens, hused'.tokens, List.append_assoc]
    · refine hserves next (by simp [hne]) ?_ error (hused'.serves next hne hhead error)
      rw [hused'.tokens, List.head?_append, List.head?_append, hhead]
    · rcases hused'.cut with hlexing | hfree
      · exact .inl fun error => hused.bind_cut ⟨after.tokens, hused'.tokens.symm⟩ (hlexing error)
      · -- A second reader that uses up no token needs the lookahead of the first one.
        by_cases hnil : used' = []
        · subst hnil
          rw [List.append_nil]
          refine hused.cut.imp (fun hlexing error => bind_of_error (hlexing error))
            fun hfirst next error => ?_
          rw [bind_of_ok (hfirst next error)]
          exact hfree next error
        · refine .inr fun next error => hserves next (by simp [hnil]) ?_ error (hfree next error)
          simp [hused'.tokens, List.head?_append, List.head?_eq_some_head hnil]
  · intro problem h
    rcases bind_eq_error_iff.1 h with hfirst | ⟨a, middle, hfirst, hsecond⟩
    · cases hp.error problem hfirst with
      | lexing herror => exact .lexing herror
      | ended herror => exact .ended herror
      | refused hrefused =>
        exact .refused ⟨hrefused.tokens, hrefused.refuses,
          fun next error => bind_of_error (hrefused.serves next error),
          fun error => bind_of_error (hrefused.cut error)⟩
    · obtain ⟨used, hused⟩ := hp.ok a middle hfirst
      cases (hf a middle hfirst).error problem hsecond with
      | lexing herror => exact .lexing (hused.error ▸ herror)
      | ended herror => exact .ended (hused.error ▸ herror)
      | @refused refusal before token after hrefused =>
        have hbefore : RefusesAt (p >>= f) input refusal (used ++ before) token after := by
          refine ⟨?_, hrefused.refuses, fun next error => ?_, fun error => ?_⟩
          · rw [hused.tokens, hrefused.tokens, List.append_assoc]
          · rw [List.append_assoc, hused.bind_serves (by simp), hrefused.serves]
            rw [hrefused.tokens, List.head?_append, List.head?_append, List.head?_cons,
              List.head?_cons]
          · exact hused.bind_cut ⟨token :: after, hrefused.tokens.symm⟩ (hrefused.cut error)
        exact .refused hbefore

theorem LeftToRight.bind {p : Parser Input α} {f : α → Parser Input β} (hp : LeftToRight p)
    (hf : ∀ a, LeftToRight (f a)) : LeftToRight (p >>= f) :=
  fun input => (hp input).bind fun a middle _ => hf a middle

/-! ### Single tokens -/

theorem leftToRight_pure (a : α) : LeftToRight (pure a : Parser Input α) := by
  intro input
  refine ⟨fun b after h => ?_, fun problem h => by cases h⟩
  obtain ⟨rfl, rfl⟩ := pure_eq_ok_iff.1 h
  exact ⟨[], rfl, rfl, fun _ _ _ _ => rfl, .inr fun _ _ => rfl⟩

theorem leftToRight_peekKind : LeftToRight peekKind := by
  intro input
  refine ⟨fun kind after h => ?_, fun problem h => ?_⟩
  · obtain ⟨-, rfl, rfl⟩ := peekKind_eq_ok_iff.1 h
    refine ⟨[], rfl, rfl, fun next hne hhead error => ?_, .inl fun error => rfl⟩
    refine peekKind_eq_ok_iff.2 ⟨fun hnil => absurd hnil hne, ?_, rfl⟩
    rw [nextKind, nextKind, ← hhead]
    rfl
  · obtain ⟨tokens, last, error⟩ := input
    cases tokens with
    | cons token tokens => cases h
    | nil =>
      cases error with
      | none => cases h
      | some error =>
        cases h
        exact .lexing rfl

theorem leftToRight_take : LeftToRight take := by
  intro input
  refine ⟨fun token after h => ?_, fun problem h => ?_⟩
  · obtain ⟨rest, htokens, rfl⟩ := take_eq_ok_iff.1 h
    exact ⟨[token], htokens, rfl, fun _ _ _ _ => rfl, .inr fun _ _ => rfl⟩
  · obtain ⟨tokens, last, error⟩ := input
    cases tokens with
    | cons token tokens => cases h
    | nil =>
      cases error with
      | none =>
        cases h
        exact .ended rfl
      | some error =>
        cases h
        exact .lexing rfl

/-- After a token that was read, a reader reads on or refuses that token. -/
theorem leftToRight_take_bind {f : Token → Parser Input α}
    (hf : ∀ token, LeftToRight (f token) ∨ ∃ refusal, Refuses token refusal ∧
      f token = throw (.parsing refusal)) :
    LeftToRight (take >>= f) := by
  rintro ⟨tokens, last, error⟩
  cases tokens with
  | nil => exact (leftToRight_take _).bind fun token middle h => by cases error <;> cases h
  | cons token tokens =>
    rcases hf token with hreads | ⟨refusal, hrefuses, hthrows⟩
    · refine (leftToRight_take _).bind fun found middle h => ?_
      cases h
      exact hreads _
    · have hserves : ∀ next error, (take >>= f) ⟨token :: next, last, error⟩ =
          .error (.parsing refusal) := by
        intro next error
        rw [bind_of_ok (show take (⟨token :: next, last, error⟩ : Input) =
          .ok (token, ⟨next, token.stop, error⟩) from rfl), hthrows]
        rfl
      refine ⟨fun a after h => ?_, fun problem h => ?_⟩
      · rw [hserves] at h
        cases h
      · rw [hserves] at h
        cases h
        have hfirst : RefusesAt (take >>= f) ⟨token :: tokens, last, error⟩ refusal []
            token tokens :=
          ⟨rfl, hrefuses, hserves, fun error => rfl⟩
        exact .refused hfirst

/-! ### Items -/

theorem LeftToRight.length_le {p : Parser Input α} (hp : LeftToRight p) {after : Input} {a : α}
    (h : p input = .ok (a, after)) : after.tokens.length ≤ input.tokens.length := by
  obtain ⟨used, hused⟩ := (hp input).ok a after h
  rw [hused.tokens, List.length_append]
  exact Nat.le_add_left _ _

/-- The reader can be repeated: it reads from left to right and uses up at least one token. -/
structure IsItem (p : Parser Input α) : Prop where
  reads : LeftToRight p
  consumes : ∀ input a after, p input = .ok (a, after) → after.tokens.length < input.tokens.length

theorem IsItem.bind {p : Parser Input α} {f : α → Parser Input β} (hp : IsItem p)
    (hf : ∀ a, LeftToRight (f a)) : IsItem (p >>= f) := by
  refine ⟨hp.reads.bind hf, fun input b after h => ?_⟩
  obtain ⟨a, middle, hfirst, hsecond⟩ := bind_eq_ok_iff.1 h
  exact Nat.lt_of_le_of_lt ((hf a).length_le hsecond) (hp.consumes input a middle hfirst)

/-- After a token of one of the given kinds, a reader reads on or refuses that token. -/
theorem isItem_expect_bind {kinds : List TokenKind} {f : Token → Parser Input α}
    (hf : ∀ token, token.kind ∈ kinds → LeftToRight (f token) ∨
      ∃ refusal, Refuses token refusal ∧ f token = throw (.parsing refusal)) :
    IsItem (expect kinds >>= f) := by
  constructor
  · rw [expect, bind_assoc]
    refine leftToRight_take_bind fun token => ?_
    by_cases hkind : kinds.contains token.kind = true
    · rw [if_pos hkind, pure_bind]
      exact hf token (by simpa using hkind)
    · rw [if_neg hkind]
      exact .inr ⟨_, .inl rfl, rfl⟩
  · intro input a after h
    obtain ⟨token, middle, hexpect, h⟩ := bind_eq_ok_iff.1 h
    obtain ⟨rest, htokens, hkind, rfl⟩ := expect_eq_ok_iff.1 hexpect
    rcases hf token hkind with hreads | ⟨_, -, hthrows⟩
    · rw [htokens]
      exact Nat.lt_succ_of_le (hreads.length_le h)
    · rw [hthrows] at h
      cases h

theorem isItem_expect (kinds : List TokenKind) : IsItem (expect kinds) := by
  rw [← bind_pure (expect kinds)]
  exact isItem_expect_bind fun token _ => .inl (leftToRight_pure token)

/-! ### Repetition -/

section ReadMany

variable {item : Parser Input α}

theorem readMany_eq (test : Option TokenKind → Bool) (hitem : IsItem item) :
    readMany (do return test (← peekKind)) item = do
      if ← (do return test (← peekKind) : Parser Input Bool) then
        let first ← item
        let others ← readMany (do return test (← peekKind)) item
        return first :: others
      else return [] := by
  funext input
  rw [readMany]
  cases hmore : (do return test (← peekKind) : Parser Input Bool) input with
  | error problem => rw [bind_of_error hmore]
  | ok found =>
    obtain ⟨more, ahead⟩ := found
    obtain ⟨-, -, rfl⟩ := test_eq_ok_iff.1 hmore
    rw [bind_of_ok hmore]
    cases more with
    | false => rfl
    | true =>
      rw [if_pos rfl]
      simp only
      cases hfirst : item ahead with
      | error problem => rw [bind_of_error hfirst]
      | ok found =>
        rw [bind_of_ok (show item ahead = .ok (found.1, found.2) from hfirst)]
        simp only [if_pos (show left found.2 < left ahead from hitem.consumes _ _ _ hfirst)]
        cases hothers : readMany (do return test (← peekKind)) item found.2 with
        | error problem => rw [bind_of_error hothers]
        | ok rest =>
          obtain ⟨others, after⟩ := rest
          rw [bind_of_ok hothers]
          rfl

/-- All that can stop a repetition: a look ahead, an item, or the repetition after an item. -/
theorem readMany_error_cases (test : Option TokenKind → Bool) (hitem : IsItem item)
    {tokens : List Token} {last : Location} {error : Option LexError}
    (h : readMany (do return test (← peekKind)) item ⟨tokens, last, error⟩ = .error problem) :
    peekKind (⟨tokens, last, error⟩ : Input) = .error problem ∨
      test (nextKind tokens) = true ∧ item ⟨tokens, last, error⟩ = .error problem ∨
      ∃ first used rest stop, item ⟨tokens, last, error⟩ = .ok (first, ⟨rest, stop, error⟩) ∧
        tokens = used ++ rest ∧ rest.length < tokens.length ∧
        readMany (do return test (← peekKind)) item ⟨rest, stop, error⟩ = .error problem := by
  rw [readMany_eq test hitem, bind_eq_error_iff] at h
  rcases h with h | ⟨more, ahead, hmore, h⟩
  · rcases bind_eq_error_iff.1 h with h | ⟨_, _, -, h⟩
    · exact .inl h
    · cases h
  obtain ⟨-, htest, rfl⟩ := test_eq_ok_iff.1 hmore
  cases more with
  | false => cases h
  | true =>
    rw [if_pos rfl, bind_eq_error_iff] at h
    rcases h with h | ⟨first, ⟨rest, stop, _⟩, hfirst, h⟩
    · exact .inr (.inl ⟨htest.symm, h⟩)
    rcases bind_eq_error_iff.1 h with h | ⟨_, _, -, h⟩
    · obtain ⟨used, htokens, herror, -⟩ := (hitem.reads _).ok _ _ hfirst
      obtain rfl := herror
      exact .inr (.inr ⟨first, used, rest, stop, hfirst, htokens, hitem.consumes _ _ _ hfirst, h⟩)
    · cases h

/-- A repetition is decided by the tokens that its tests and items see. -/
theorem leftToRight_readMany (test : Option TokenKind → Bool) (hitem : IsItem item) :
    LeftToRight (readMany (do return test (← peekKind)) item) := by
  intro input
  induction hlength : input.tokens.length using Nat.strongRecOn generalizing input with
  | _ n ih =>
    rw [readMany_eq test hitem]
    have htest := leftToRight_peekKind.bind fun kind => leftToRight_pure (test kind)
    refine (htest input).bind fun more ahead hmore => ?_
    obtain ⟨-, -, rfl⟩ := test_eq_ok_iff.1 hmore
    cases more with
    | false => exact leftToRight_pure [] _
    | true =>
      rw [if_pos rfl]
      refine (hitem.reads _).bind fun first middle hfirst => ?_
      exact (ih _ (hlength ▸ hitem.consumes _ _ _ hfirst) _ rfl).bind fun others after _ =>
        leftToRight_pure _ _

end ReadMany

/-! ### Longer tokens -/

section Longer

variable {p : Parser Input α} {tokens : List Token} {last : Location} {error : LexError}

/-- A success before the tokens break off stands when they go on. -/
theorem LeftToRight.extend_ok (hp : LeftToRight p) {a : α} {after : Input}
    (h : p ⟨tokens, last, some error⟩ = .ok (a, after)) (more : List Token)
    (error' : Option LexError) :
    p ⟨tokens ++ more, last, error'⟩ = .ok (a, ⟨after.tokens ++ more, after.last, error'⟩) := by
  obtain ⟨used, htokens, -, hserves, hcut⟩ := (hp _).ok a after h
  obtain rfl : tokens = used ++ after.tokens := htokens
  rw [List.append_assoc]
  by_cases hnil : after.tokens = []
  · rcases hcut with hlexing | hfree
    · rw [hnil, List.append_nil, hlexing] at h
      cases h
    · exact hfree _ _
  · exact hserves _ (by simp [hnil]) (by simp [List.head?_append, List.head?_eq_some_head hnil]) _

/-- A refusal before the tokens break off stands when they go on. -/
theorem LeftToRight.extend_parsing (hp : LeftToRight p)
    (h : p ⟨tokens, last, some error⟩ = .error (.parsing refusal)) (more : List Token)
    (error' : Option LexError) : p ⟨tokens ++ more, last, error'⟩ = .error (.parsing refusal) := by
  cases (hp _).error _ h with
  | ended herror => cases herror
  | @refused _ before token after hrefused =>
    obtain rfl : tokens = before ++ token :: after := hrefused.tokens
    rw [List.append_assoc, List.cons_append]
    exact hrefused.serves _ _

/-- A reader that calls for tokens at the end would also do so where an error ends them. -/
theorem LeftToRight.lexing_of_ended (hp : LeftToRight p) {stop : Location}
    (h : p ⟨tokens, last, none⟩ = .error (.parsing ⟨.endOfInput, stop⟩)) (error : LexError) :
    p ⟨tokens, last, some error⟩ = .error (.lexing error) := by
  cases hcut : p ⟨tokens, last, some error⟩ with
  | ok found =>
    obtain ⟨a, after⟩ := found
    have hlonger := hp.extend_ok hcut [] none
    rw [List.append_nil, h] at hlonger
    cases hlonger
  | error problem =>
    cases (hp _).error _ hcut with
    | lexing herror =>
      cases herror
      rfl
    | ended herror => cases herror
    | refused hrefused =>
      have hlonger := hp.extend_parsing hcut [] none
      rw [List.append_nil, h] at hlonger
      cases hlonger
      exact absurd rfl hrefused.refuses.fault_ne

end Longer

end Results

/-! ### The rules -/

theorem isItem_operand : IsItem operand := by
  refine isItem_expect_bind fun token hkind => ?_
  have hoperand : token.kind.IsOperand := by simpa [TokenKind.IsOperand] using hkind
  rcases hoperand with hname | hstring | hinteger
  · simp only [hname]
    exact .inl (leftToRight_pure _)
  · simp only [hstring]
    exact .inl (leftToRight_pure _)
  · simp only [hinteger]
    split
    · exact .inl (leftToRight_pure _)
    · next hrange => exact .inr ⟨_, .inr ⟨fun h => hrange (h hinteger), rfl⟩, rfl⟩

theorem isItem_comparison : IsItem comparison := by
  refine isItem_operand.bind fun left => (isItem_expect_bind fun symbol _ => ?_).reads
  cases Operator.ofSymbol? symbol.lexeme with
  | none => exact .inr ⟨_, .inl rfl, rfl⟩
  | some operator =>
    refine .inl (isItem_operand.reads.bind fun right => leftToRight_peekKind.bind fun kind => ?_)
    split
    · exact leftToRight_pure _
    · exact leftToRight_pure _
    · exact (isItem_expect _).reads.bind fun _ => leftToRight_pure _

theorem leftToRight_comparisons :
    LeftToRight (readMany (do return (← peekKind) ≠ some .dedent) comparison) :=
  leftToRight_readMany (fun kind => kind ≠ some .dedent) isItem_comparison

theorem leftToRight_nameEnd (name : Token) : LeftToRight (nameEnd name) := by
  refine leftToRight_peekKind.bind fun kind => ?_
  cases kind with
  | none => exact leftToRight_pure _
  | some kind => exact (isItem_expect _).reads.bind fun _ => leftToRight_pure _

theorem isItem_filter : IsItem filter := by
  refine (isItem_expect _).bind fun name => (leftToRight_nameEnd name).bind fun stop =>
    leftToRight_peekKind.bind fun kind => ?_
  split
  · refine leftToRight_take.bind fun indent => leftToRight_comparisons.bind fun expressions => ?_
    exact (isItem_expect _).reads.bind fun dedent => leftToRight_pure _
  · exact leftToRight_pure _

theorem leftToRight_filters : LeftToRight filters :=
  leftToRight_readMany Option.isSome isItem_filter

end PythonLint.Ignore
