import PythonLint.Proofs.Ignore.OpenLevels

/-!
# What a lexer of ignore files gives out

A lexer that is asked for a token reads a whole line, also when the token is only looked at. What it
still has to give does not change by that: the tokens that it holds ready and those of the lines
that it has not read, and then the error of the first line that has one. Every call gives the first
of these, and only a call that takes a token removes it. So looking ahead changes nothing of what is
taken. After an error a lexer holds tokens of the line that has it, unless it is read as a sequence:
then it has nothing more to give.

Main statements: `Lexer.call_result`, `Lexer.ahead_call`, `Lexer.consumed_run`, `Lexer.ahead_run`,
`looksThrough_run`.
-/

namespace PythonLint.Ignore

/-- A call of a lexer and what it gave. -/
abbrev Event := Call × Except LexError (Option Token)

variable {lexer : Lexer} {calls : List Call} {after before : List Event} {n : Nat}

/-- No call gave an error. -/
def ErrorFree (events : List Event) : Prop :=
  ∀ event ∈ events, event.2.isOk = true

/-- What the calls gave that take a token, in order. -/
def consumed (events : List Event) : List (Except LexError (Option Token)) :=
  (events.filter (·.1 ≠ .peek)).map Prod.snd

theorem consumed_append (a b : List Event) : consumed (a ++ b) = consumed a ++ consumed b := by
  rw [consumed, List.filter_append, List.map_append]
  rfl

theorem consumed_cons (event : Event) (events : List Event) :
    consumed (event :: events) = consumed [event] ++ consumed events :=
  consumed_append [event] events

/-! ### Streams -/

namespace Stream

/-- What a call gives when `n` tokens have been taken: the next token, and after the last one the
error, or nothing. -/
def result (stream : Stream) (n : Nat) : Except LexError (Option Token) :=
  match stream.error, stream.tokens[n]? with
  | _, some token => .ok (some token)
  | some error, none => .error error
  | none, none => .ok none

/-- The stream when `n` tokens have been taken. -/
def drop (stream : Stream) (n : Nat) : Stream :=
  { stream with tokens := stream.tokens.drop n }

variable {stream : Stream}

theorem drop_zero : stream.drop 0 = stream := rfl

theorem drop_drop (m n : Nat) : (stream.drop m).drop n = stream.drop (m + n) := by
  rw [drop, drop, drop, List.drop_drop]

theorem result_drop (m n : Nat) : (stream.drop m).result n = stream.result (m + n) := by
  simp only [result, drop, List.getElem?_drop]

theorem result_of_lt (h : n < stream.tokens.length) :
    stream.result n = .ok (some stream.tokens[n]) := by
  rw [result, List.getElem?_eq_getElem h]

theorem isOk_result_iff :
    (stream.result n).isOk = true ↔ n < stream.tokens.length ∨ stream.error = none := by
  by_cases h : n < stream.tokens.length
  · simp [result_of_lt h, h, Except.isOk, Except.toBool]
  · rw [result, List.getElem?_eq_none (Nat.le_of_not_lt h)]
    cases stream.error <;> simp [h, Except.isOk, Except.toBool]

theorem result_eq_error {error : LexError} (h : stream.result n = .error error) :
    stream.tokens.length ≤ n ∧ stream.error = some error := by
  rw [result] at h
  split at h
  · cases h
  · next herror hnone =>
    cases h
    exact ⟨List.getElem?_eq_none_iff.1 hnone, herror⟩
  · cases h

theorem map_result_range (h : n ≤ stream.tokens.length) :
    (List.range n).map stream.result = (stream.tokens.take n).map (.ok ∘ some) := by
  refine List.ext_getElem (by simp [h]) fun i hi _ => ?_
  rw [List.length_map, List.length_range] at hi
  simp [result_of_lt (Nat.lt_of_lt_of_le hi h)]

/-- Results without errors are tokens, and then nothing if the stream has no error. -/
theorem map_result_range_of_isOk (h : ∀ i < n, (stream.result i).isOk = true) :
    ∃ rest, (List.range n).map stream.result =
        (stream.tokens.take n).map (.ok ∘ some) ++ List.replicate rest (.ok none) ∧
      (rest ≠ 0 → stream.error = none) := by
  by_cases hle : n ≤ stream.tokens.length
  · exact ⟨0, by simpa using map_result_range hle, fun hne => absurd rfl hne⟩
  · have herror : stream.error = none :=
      (isOk_result_iff.1 (h stream.tokens.length (by omega))).resolve_left (Nat.lt_irrefl _)
    obtain ⟨rest, rfl⟩ := Nat.exists_eq_add_of_le (Nat.le_of_not_le hle)
    have hnothing : (List.range rest).map (fun i => stream.result (stream.tokens.length + i)) =
        List.replicate rest (.ok none) := by
      refine List.eq_replicate_iff.2 ⟨by simp, fun result hmem => ?_⟩
      obtain ⟨i, -, rfl⟩ := List.mem_map.1 hmem
      rw [result, List.getElem?_eq_none (Nat.le_add_right _ _), herror]
    refine ⟨rest, ?_, fun _ => herror⟩
    rw [List.range_add, List.map_append, map_result_range (Nat.le_refl _), List.map_map]
    rw [List.take_length, List.take_of_length_le (Nat.le_add_right _ _)]
    exact congrArg _ hnothing

end Stream

namespace Lexer

/-! ### One call -/

/-- A lexer with a token ready, if there is one, gives the first of what it has to give. -/
theorem result_zero_of_filled (h : lexer.pending = [] → lexer.finished = true) :
    lexer.ahead.result 0 = .ok lexer.pending.head? := by
  rcases ahead_of_filled h with ⟨hnone, hend⟩ | ⟨token, rest, error, hhead, hahead, -⟩
  · rw [hend, hnone]
    rfl
  · rw [hahead, hhead]
    exact Stream.result_of_lt (Nat.zero_lt_succ rest.length)

theorem ahead_tail (lexer : Lexer) (h : lexer.pending = [] → lexer.finished = true) :
    ({ lexer with pending := lexer.pending.tail } : Lexer).ahead = lexer.ahead.drop 1 := by
  obtain ⟨lines, pending, levels, stop, finished⟩ := lexer
  cases pending with
  | nil =>
    obtain rfl : finished = true := h rfl
    rfl
  | cons token pending => cases finished <;> rfl

/-- However a lexer is asked, it gives the first of what it has to give. -/
theorem call_result (lexer : Lexer) (call : Call) : (lexer.call call).1 = lexer.ahead.result 0 := by
  rcases lexer.fill_cases with ⟨filled, hfill, hahead, hready⟩ | ⟨filled, error, hfill, hahead⟩
  · rw [← hahead, result_zero_of_filled hready]
    cases call <;> simp [Lexer.call, peek, next, advance, hfill]
  · rw [hahead]
    cases call <;> simp [Lexer.call, peek, next, advance, hfill, Stream.result]

/-- A call without an error removes what it takes, and nothing when it only looks ahead. -/
theorem ahead_call {after : Lexer} {call : Call} {token : Option Token}
    (h : lexer.call call = (.ok token, after)) :
    after.ahead = lexer.ahead.drop (consumed [(call, .ok token)]).length := by
  obtain ⟨filled, hfill, rfl, rfl⟩ := call_eq_ok h
  rcases lexer.fill_cases with ⟨other, hother, hahead, hready⟩ | ⟨other, error, hother, -⟩
  · obtain rfl : filled = other := by simpa [hfill] using hother
    rw [← hahead]
    by_cases hpeek : call = .peek
    · simp [consumed, hpeek, Stream.drop_zero]
    · rw [if_neg hpeek, ahead_tail _ hready]
      simp [consumed, hpeek]
  · simp [hfill] at hother

/-! ### Calls without errors -/

theorem exists_run_of_append (h : (lexer.run calls).1 = before ++ after) :
    ∃ first later, (lexer.run first).1 = before ∧ ((lexer.run first).2.run later).1 = after := by
  induction before generalizing lexer calls with
  | nil => exact ⟨[], calls, rfl, h⟩
  | cons event before ih =>
    cases calls with
    | nil => cases h
    | cons call calls =>
      rw [run, List.cons_append, List.cons.injEq] at h
      obtain ⟨first, later, hfirst, hlater⟩ := ih h.2
      refine ⟨call :: first, later, ?_, hlater⟩
      rw [run, ← h.1, ← hfirst]

variable {lexer : Lexer}

/-- Calls without errors remove what they take. -/
theorem ahead_run (h : ErrorFree (lexer.run calls).1) :
    (lexer.run calls).2.ahead = lexer.ahead.drop (consumed (lexer.run calls).1).length := by
  induction calls generalizing lexer with
  | nil => rfl
  | cons call calls ih =>
    obtain ⟨hfirst, hothers⟩ := List.forall_mem_cons.1 h
    rcases hcall : lexer.call call with ⟨result, after⟩
    simp only [run, hcall] at hfirst hothers ⊢
    cases result with
    | error error => cases hfirst
    | ok token =>
      rw [ih hothers, ahead_call hcall, Stream.drop_drop,
        consumed_cons (call, .ok token) (after.run calls).1, List.length_append]

/-- Calls without errors take what there is to give, in order. -/
theorem consumed_run (h : ErrorFree (lexer.run calls).1) :
    consumed (lexer.run calls).1 =
      (List.range (consumed (lexer.run calls).1).length).map lexer.ahead.result := by
  induction calls generalizing lexer with
  | nil => rfl
  | cons call calls ih =>
    obtain ⟨hfirst, hothers⟩ := List.forall_mem_cons.1 h
    have hresult := lexer.call_result call
    rcases hcall : lexer.call call with ⟨result, after⟩
    simp only [run, hcall] at hfirst hothers hresult ⊢
    cases result with
    | error error => cases hfirst
    | ok token =>
      have hrest := ih hothers
      rw [ahead_call hcall] at hrest
      by_cases hpeek : call = .peek
      · simpa [consumed_cons (call, _), consumed, hpeek, Stream.drop_zero] using hrest
      · have hone : consumed [(call, .ok token)] = [.ok token] := by simp [consumed, hpeek]
        rw [hone, List.length_singleton] at hrest
        rw [consumed_cons, hone, List.singleton_append, List.length_cons, List.range_succ_eq_map,
          List.map_cons, List.map_map, ← hresult]
        refine congrArg _ (hrest.trans (List.map_congr_left fun n _ => ?_))
        rw [Stream.result_drop, Function.comp_apply, Nat.succ_eq_one_add]

theorem result_of_run {call : Call} {result : Except LexError (Option Token)}
    (h : (lexer.run calls).1 = before ++ (call, result) :: after) (hfree : ErrorFree before) :
    result = lexer.ahead.result (consumed before).length := by
  obtain ⟨first, later, rfl, hlater⟩ := exists_run_of_append h
  cases later with
  | nil => cases hlater
  | cons other later =>
    rw [run, List.cons.injEq, Prod.mk.injEq] at hlater
    rw [← hlater.1.2, call_result, ahead_run hfree, Stream.result_drop, Nat.add_zero]

/-! ### Calls that only look ahead, and calls that only take -/

/-- What is looked at stays the same until it is taken. -/
theorem result_of_peeks {peeks : List Event} {call : Call} {given : Except LexError (Option Token)}
    {token : Option Token} (hahead : lexer.ahead.result 0 = .ok token)
    (h : (lexer.run calls).1 = peeks ++ (call, given) :: after)
    (hpeeks : ∀ event ∈ peeks, event.1 = .peek) : given = .ok token := by
  induction peeks generalizing lexer calls with
  | nil =>
    rw [← hahead]
    exact result_of_run h fun event hmem => nomatch hmem
  | cons event peeks ih =>
    obtain ⟨hpeek, hothers⟩ := List.forall_mem_cons.1 hpeeks
    cases calls with
    | nil => cases h
    | cons first calls =>
      have hresult := (lexer.call_result first).trans hahead
      rcases hcall : lexer.call first with ⟨result, later⟩
      simp only [run, hcall, List.cons_append, List.cons.injEq] at hresult h
      obtain ⟨rfl, h⟩ := h
      obtain rfl : first = .peek := hpeek
      subst hresult
      exact ih ((ahead_call hcall).symm ▸ hahead) h hothers

/-- Calls that all take a token give what there is to give up to the first error. -/
theorem run_of_forall_ne_peek (hcalls : ∀ call ∈ calls, call ≠ .peek)
    (hfree : ∀ n, n + 1 < calls.length → (lexer.ahead.result n).isOk = true) :
    (lexer.run calls).1.map Prod.snd = (List.range calls.length).map lexer.ahead.result := by
  induction calls generalizing lexer with
  | nil => rfl
  | cons call calls ih =>
    obtain ⟨hcall, hcalls⟩ := List.forall_mem_cons.1 hcalls
    have hresult := lexer.call_result call
    rw [run, List.map_cons, List.length_cons, List.range_succ_eq_map, List.map_cons,
      List.map_map, hresult]
    refine congrArg _ ?_
    by_cases hempty : calls = []
    · rw [hempty]
      rfl
    · have hpos := List.length_pos_iff.2 hempty
      have hok := hfree 0 (by rw [List.length_cons]; omega)
      rcases hgiven : lexer.call call with ⟨result, after⟩
      rw [hgiven] at hresult
      cases result with
      | error error =>
        rw [← hresult] at hok
        cases hok
      | ok token =>
        have hahead : after.ahead = lexer.ahead.drop 1 := by
          simpa [consumed, hcall] using ahead_call hgiven
        have hshift : ∀ n, after.ahead.result n = lexer.ahead.result (n + 1) := fun n => by
          rw [hahead, Stream.result_drop, Nat.add_comm]
        refine (ih hcalls fun n hn => ?_).trans (List.map_congr_left fun n _ => hshift n)
        rw [hshift]
        exact hfree (n + 1) (by rw [List.length_cons]; omega)

/-! ### After the end -/

/-- A lexer that has nothing more to give. -/
structure IsExhausted (lexer : Lexer) : Prop where
  pending : lexer.pending = []
  finished : lexer.finished = true

theorem IsExhausted.call (h : lexer.IsExhausted) (call : Call) :
    lexer.call call = (.ok none, lexer) := by
  obtain ⟨lines, pending, levels, stop, finished⟩ := lexer
  obtain ⟨rfl, rfl⟩ := h
  cases call <;> rfl

theorem IsExhausted.run (h : lexer.IsExhausted) (calls : List Call) :
    ∀ event ∈ (lexer.run calls).1, event.2 = .ok none := by
  induction calls with
  | nil => exact fun event hmem => nomatch hmem
  | cons call calls ih =>
    rw [Lexer.run, h.call]
    exact List.forall_mem_cons.2 ⟨rfl, ih⟩

/-- An error ends a file that is read as a sequence. -/
theorem isExhausted_of_advance {after : Lexer} {error : LexError}
    (h : lexer.call .advance = (.error error, after)) : after.IsExhausted := by
  unfold Lexer.call advance at h
  simp only at h
  split at h
  · cases h
  · cases h
    exact ⟨rfl, rfl⟩

end Lexer

/-! ### All sources -/

/-- Looking ahead does not show in what calls of a lexer for the source take. -/
structure LooksThrough (source : List Char) (events : List Event) : Prop where
  /-- Up to the first error, a token that is looked at is the one that is taken next, and where
  there is nothing to look at there is nothing to take. -/
  peek : ∀ before token peeks call given after,
    events = before ++ (.peek, .ok token) :: (peeks ++ (call, given) :: after) → ErrorFree before →
      (∀ event ∈ peeks, event.1 = .peek) → call ≠ .peek → given = .ok token
  /-- Up to the first error, what is taken is what other calls give, none of which looks ahead. -/
  same : ∀ before after plain, events = before ++ after → ErrorFree before →
    (∀ call ∈ plain, call ≠ .peek) → plain.length = (consumed before).length →
      ((Lexer.ofSource source).run plain).1.map Prod.snd = consumed before
  /-- The first error is the one that such calls meet after they have given the same. -/
  sameError : ∀ before call error after plain, events = before ++ (call, .error error) :: after →
    ErrorFree before →
    (∀ call ∈ plain, call ≠ .peek) → plain.length = (consumed before).length + 1 →
      ((Lexer.ofSource source).run plain).1.map Prod.snd = consumed before ++ [.error error]
  /-- Up to the first error, the tokens of the file are taken in order. After all of them there is
  nothing for ever if the file has no error. -/
  tokens : ∀ before after, events = before ++ after → ErrorFree before →
    ∃ n, consumed before =
        ((lexStream source).tokens.take (consumed before).length).map (.ok ∘ some) ++
          List.replicate n (.ok none) ∧
      (n ≠ 0 → (lexStream source).error = none)
  /-- The first error is that of the file, and all tokens have been taken before it. -/
  error : ∀ before call error after, events = before ++ (call, .error error) :: after →
    ErrorFree before → (lexStream source).error = some error ∧
      consumed before = (lexStream source).tokens.map (.ok ∘ some)
  /-- An error that is met when the file is read as a sequence is the end of it. -/
  ended : ∀ before error after, events = before ++ (.advance, .error error) :: after →
    ∀ event ∈ after, event.2 = .ok none

theorem ErrorFree.isOk_of_mem_consumed {events : List Event} (h : ErrorFree events)
    {result : Except LexError (Option Token)} (hmem : result ∈ consumed events) :
    result.isOk = true := by
  obtain ⟨event, hevent, rfl⟩ := List.mem_map.1 hmem
  exact h event (List.mem_filter.1 hevent).1

/-- What calls without errors have taken of a stream. -/
theorem ErrorFree.isOk_result {source : List Char} (hfree : ErrorFree before)
    (h : ((Lexer.ofSource source).run calls).1 = before ++ after) :
    consumed before = (List.range (consumed before).length).map (lexStream source).result ∧
      ∀ i < (consumed before).length, ((lexStream source).result i).isOk = true := by
  obtain ⟨first, later, rfl, -⟩ := Lexer.exists_run_of_append h
  have hconsumed := Lexer.consumed_run hfree
  rw [Lexer.ahead_ofSource] at hconsumed
  refine ⟨hconsumed, fun i hi => hfree.isOk_of_mem_consumed ?_⟩
  rw [hconsumed]
  exact List.mem_map_of_mem (List.mem_range.2 hi)

/-- However a lexer is asked, looking ahead does not change what it gives. -/
theorem looksThrough_run (source : List Char) (calls : List Call) :
    LooksThrough source ((Lexer.ofSource source).run calls).1 where
  peek before token peeks call given after h hfree hpeeks _ := by
    have htoken := Lexer.result_of_run h hfree
    obtain ⟨first, later, rfl, hlater⟩ := Lexer.exists_run_of_append h
    have hpeeked : (((Lexer.ofSource source).run first).2.run later).1 =
        ((.peek, .ok token) :: peeks) ++ (call, given) :: after := hlater
    refine Lexer.result_of_peeks ?_ hpeeked (List.forall_mem_cons.2 ⟨rfl, hpeeks⟩)
    rw [Lexer.ahead_run hfree, Stream.result_drop, Nat.add_zero]
    exact htoken.symm
  same before after plain h hfree hplain hlength := by
    obtain ⟨hconsumed, hok⟩ := hfree.isOk_result h
    rw [hconsumed, ← hlength]
    exact Lexer.run_of_forall_ne_peek hplain fun n hn => hok n (by omega)
  sameError before call error after plain h hfree hplain hlength := by
    obtain ⟨hconsumed, hok⟩ := hfree.isOk_result h
    have herror := Lexer.result_of_run h hfree
    rw [Lexer.ahead_ofSource] at herror
    rw [hconsumed, herror, ← List.map_singleton, ← List.map_append, ← List.range_succ,
      Nat.succ_eq_add_one, ← hlength]
    exact Lexer.run_of_forall_ne_peek hplain fun n hn => hok n (by omega)
  tokens before after h hfree := by
    obtain ⟨hconsumed, hok⟩ := hfree.isOk_result h
    obtain ⟨rest, htokens, hrest⟩ := Stream.map_result_range_of_isOk hok
    exact ⟨rest, hconsumed.trans htokens, hrest⟩
  error before call error after h hfree := by
    obtain ⟨hconsumed, hok⟩ := hfree.isOk_result h
    obtain ⟨hall, herror⟩ := Stream.result_eq_error (Lexer.result_of_run h hfree).symm
    rw [Lexer.ahead_ofSource] at hall herror
    have hlength : (consumed before).length = (lexStream source).tokens.length := by
      refine Nat.le_antisymm (Nat.le_of_not_lt fun hlt => ?_) hall
      rcases Stream.isOk_result_iff.1 (hok _ hlt) with hlt | hnone
      · exact Nat.lt_irrefl _ hlt
      · rw [hnone] at herror
        cases herror
    refine ⟨herror, ?_⟩
    rw [hconsumed, hlength, Stream.map_result_range (Nat.le_refl _), List.take_length]
  ended before error after h := by
    obtain ⟨first, later, -, hlater⟩ := Lexer.exists_run_of_append h
    cases later with
    | nil => cases hlater
    | cons call later =>
      rcases hcall : ((Lexer.ofSource source).run first).2.call call with ⟨result, next⟩
      simp only [Lexer.run, hcall, List.cons.injEq, Prod.mk.injEq] at hlater
      obtain ⟨⟨rfl, rfl⟩, rfl⟩ := hlater
      exact (Lexer.isExhausted_of_advance hcall).run later

/-- A file whose second line breaks off, read as a sequence up to the error and beyond. -/
theorem looksThrough_run_broken :
    let source := "foo\n  a !\nbar".toList
    let events :=
      ((Lexer.ofSource source).run [.peek, .next, .peek, .advance, .advance, .peek, .next]).1
    let before := events.take 4
    let after := events.drop 5
    events = before ++ (.advance, .error ⟨.noWord, ⟨2, 4⟩⟩) :: after ∧ ErrorFree before ∧
      consumed before = (lexStream source).tokens.map (.ok ∘ some) ∧ after.length = 2 ∧
      ∀ event ∈ after, event.2 = .ok none := by
  intro source events before after
  have hevents : events = before ++ (.advance, .error ⟨.noWord, ⟨2, 4⟩⟩) :: after := by
    decide +kernel
  have hfree : ErrorFree before := List.all_eq_true.1 (by decide +kernel)
  have hlooks := looksThrough_run source [.peek, .next, .peek, .advance, .advance, .peek, .next]
  exact ⟨hevents, hfree, (hlooks.error _ _ _ _ hevents hfree).2, by decide +kernel,
    hlooks.ended _ _ _ hevents⟩

end PythonLint.Ignore
