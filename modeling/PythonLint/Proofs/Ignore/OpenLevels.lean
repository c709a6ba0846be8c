import PythonLint.Proofs.Ignore.Concatenation

/-!
# Open levels of an ignore file

The lexer of ignore files keeps the levels of the blocks that are open. Its tokens tell them: an
indent opens the level at which it ends, a dedent closes the innermost level, and no dedent closes
the outermost one. `Leads` says this of any tokens. Every line leads from the levels before it to
those after it, and the end of the file leads back to the outermost level, so that indents and
dedents are balanced. A lexer that is read token by token keeps the levels to which the tokens lead
that it has given out or holds ready.

Main statements: `Leads.count_kinds`, `leads_lexLine`, `exists_leads_lexLines`, `Lexer.Tracks.run`,
`lexer_balances_blocks`.
-/

namespace PythonLint.Ignore

/-- The token opens a block inside a level: it covers the columns from there to a deeper one. -/
structure Token.OpensBlock (level : Nat) (token : Token) : Prop where
  kind : token.kind = .indent
  start : token.start.column = level
  deeper : level < token.stop.column
  covers : level + token.lexeme.length = token.stop.column

/-- The tokens lead from the open levels `levels` to `final`, the innermost first. The outermost
level stays open. -/
inductive Leads : (levels : List Nat) → List Token → (final : List Nat) → Prop
  | nil (levels : List Nat) : Leads levels [] levels
  | indent {level : Nat} {outer final : List Nat} {token : Token} {tokens : List Token}
      (hopens : token.OpensBlock level)
      (h : Leads (token.stop.column :: level :: outer) tokens final) :
      Leads (level :: outer) (token :: tokens) final
  | dedent {level next : Nat} {outer final : List Nat} {token : Token} {tokens : List Token}
      (hkind : token.kind = .dedent) (h : Leads (next :: outer) tokens final) :
      Leads (level :: next :: outer) (token :: tokens) final
  | other {levels final : List Nat} {token : Token} {tokens : List Token}
      (hkind : token.kind ≠ .indent ∧ token.kind ≠ .dedent) (h : Leads levels tokens final) :
      Leads levels (token :: tokens) final

namespace Leads

variable {a b c : List Nat} {first second : List Token}

theorem append (hfirst : Leads a first b) (hsecond : Leads b second c) :
    Leads a (first ++ second) c := by
  induction hfirst with
  | nil => exact hsecond
  | indent hopens _ ih => exact .indent hopens (ih hsecond)
  | dedent hkind _ ih => exact .dedent hkind (ih hsecond)
  | other hkind _ ih => exact .other hkind (ih hsecond)

theorem exists_of_append (h : Leads a (first ++ second) c) :
    ∃ b, Leads a first b ∧ Leads b second c := by
  induction first generalizing a with
  | nil => exact ⟨a, .nil a, h⟩
  | cons token first ih =>
    cases h with
    | indent hopens h =>
      obtain ⟨b, hfirst, hsecond⟩ := ih h
      exact ⟨b, .indent hopens hfirst, hsecond⟩
    | dedent hkind h =>
      obtain ⟨b, hfirst, hsecond⟩ := ih h
      exact ⟨b, .dedent hkind hfirst, hsecond⟩
    | other hkind h =>
      obtain ⟨b, hfirst, hsecond⟩ := ih h
      exact ⟨b, .other hkind hfirst, hsecond⟩

/-- Tokens that are no marks of blocks leave the levels as they are. -/
theorem of_forall (h : ∀ token ∈ first, token.kind ≠ .indent ∧ token.kind ≠ .dedent)
    (levels : List Nat) : Leads levels first levels := by
  induction first with
  | nil => exact .nil levels
  | cons token first ih =>
    obtain ⟨htoken, hfirst⟩ := List.forall_mem_cons.1 h
    exact .other htoken (ih hfirst)

/-- Dedents close the levels that stand first. -/
theorem dedents (closed : List Nat) {kept : List Nat} (hkept : kept ≠ []) (location : Location) :
    Leads (closed ++ kept) (closed.map fun _ => dedentAt location) kept := by
  induction closed with
  | nil => exact .nil kept
  | cons level closed ih =>
    obtain ⟨next, outer, hrest⟩ :=
      List.exists_cons_of_ne_nil (List.append_ne_nil_of_right_ne_nil closed hkept)
    rw [List.cons_append, List.map_cons, hrest]
    exact .dedent rfl (hrest ▸ ih)

/-- Levels that can be open at the same time lead to such levels. -/
theorem levels (h : Leads a first b) (ha : Levels a) : Levels b := by
  induction h with
  | nil => exact ha
  | indent hopens _ ih => exact ih (ha.cons hopens.deeper)
  | dedent _ _ ih =>
    refine ih ⟨(List.pairwise_cons.1 ha.deepens).2, ?_⟩
    rw [← ha.outermost, List.getLast?_cons_cons]
  | other _ _ ih => exact ih ha

/-- Every indent opens a level and every dedent closes one. -/
theorem count_kinds (h : Leads a first b) :
    (first.map Token.kind).count .dedent + b.length =
      (first.map Token.kind).count .indent + a.length := by
  induction h with
  | nil => rfl
  | indent hopens _ ih =>
    rw [List.map_cons, hopens.kind, List.count_cons_self, List.count_cons_of_ne (by decide)]
    rw [List.length_cons] at ih
    omega
  | dedent hkind _ ih =>
    rw [List.map_cons, hkind, List.count_cons_self, List.count_cons_of_ne (by decide),
      List.length_cons]
    omega
  | other hkind _ ih =>
    rw [List.map_cons, List.count_cons_of_ne hkind.1, List.count_cons_of_ne hkind.2]
    exact ih

theorem exists_opensBlock (h : Leads a first b) {token : Token} (hmem : token ∈ first)
    (hkind : token.kind = .indent) : ∃ level, token.OpensBlock level := by
  induction h with
  | nil => cases hmem
  | indent hopens _ ih =>
    rcases List.mem_cons.1 hmem with rfl | hmem
    · exact ⟨_, hopens⟩
    · exact ih hmem
  | dedent hother _ ih =>
    rcases List.mem_cons.1 hmem with rfl | hmem
    · rw [hother] at hkind
      cases hkind
    · exact ih hmem
  | other hother _ ih =>
    rcases List.mem_cons.1 hmem with rfl | hmem
    · exact absurd hkind hother.1
    · exact ih hmem

end Leads

theorem Levels.ne_nil {levels : List Nat} (h : Levels levels) : levels ≠ [] := by
  rintro rfl
  cases h.outermost

/-! ### Lines -/

theorem TokenKind.IsWordKind.ne_mark {kind : TokenKind} (h : kind.IsWordKind) :
    kind ≠ .indent ∧ kind ≠ .dedent := by
  rcases h with rfl | rfl | rfl | rfl <;> decide

/-- The marks for the margin of a line lead to the levels after it. -/
theorem leads_lexMargin {levels : List Nat} (hlevels : Levels levels) (number : Nat)
    (margin : List Char) :
    Leads levels (lexMargin levels number margin).tokens
      (lexMargin levels number margin).levels := by
  unfold lexMargin
  simp only
  split
  · next hdeeper =>
    obtain ⟨level, outer, rfl⟩ := List.exists_cons_of_ne_nil hlevels.ne_nil
    have hwidth : level < margin.length := hdeeper
    refine .indent ⟨rfl, rfl, hdeeper, ?_⟩ (.nil _)
    simp only [List.headD_cons, String.length_ofList, List.length_drop]
    omega
  · have hkept := (hlevels.dropWhile margin.length).ne_nil
    have hleads :=
      Leads.dedents (levels.takeWhile (margin.length < ·)) hkept ⟨number, margin.length⟩
    rwa [List.takeWhile_append_dropWhile] at hleads

/-- The tokens of a line lead to the levels after it, also when an error ends them. -/
theorem leads_lexLine {levels : List Nat} (hlevels : Levels levels) (line : Line) :
    Leads levels (lexLine levels line).tokens (lexLine levels line).levels := by
  have hmargin := leads_lexMargin hlevels line.number (line.text.takeWhile isGap)
  have hwords : ∀ column text, ∀ token ∈ (lexWords line.number column text).tokens,
      token.kind ≠ .indent ∧ token.kind ≠ .dedent :=
    fun column text token hmem => (lexWords_isWord _ _ _ token hmem).isWordKind.ne_mark
  unfold lexLine
  simp only
  split
  · exact .nil levels
  · split
    · exact hmargin
    · split
      · exact hmargin.append (.of_forall (hwords _ _) _)
      · refine (hmargin.append (.of_forall (hwords _ _) _)).append
          (.of_forall (fun token hmem => ?_) _)
        rw [kind_of_mem_lineEnd hmem]
        decide

theorem leads_closeAll {levels : List Nat} (hlevels : Levels levels) (stop : Location) :
    Leads levels (closeAll levels stop) [0] := by
  obtain ⟨inner, rfl, -⟩ := hlevels.exists_inner
  rw [closeAll, List.dropLast_concat]
  exact .dedents inner (List.cons_ne_nil 0 []) stop

/-- The tokens of lines lead to the outermost level, unless an error ends them. -/
theorem exists_leads_lexLines {levels : List Nat} (hlevels : Levels levels) (stop : Location)
    (lines : List Line) :
    ∃ final, Leads levels (lexLines levels stop lines).tokens final ∧
      ((lexLines levels stop lines).error = none → final = [0]) := by
  induction lines generalizing levels with
  | nil => exact ⟨[0], leads_closeAll hlevels stop, fun _ => rfl⟩
  | cons line lines ih =>
    rw [lexLines]
    cases herror : (lexLine levels line).error with
    | some error => exact ⟨levels, .nil levels, fun h => by cases h⟩
    | none =>
      obtain ⟨final, hleads, hfinal⟩ := ih (hlevels.lexLine line)
      exact ⟨final, (leads_lexLine hlevels line).append hleads, hfinal⟩

/-- The tokens of a file without errors lead from the outermost level back to it. -/
theorem leads_of_lex {source : List Char} {tokens : List Token} (h : lex source = .ok tokens) :
    Leads [0] tokens [0] := by
  have hstream : lexLines [0] (endOfLines (sourceLines source)) (sourceLines source) =
      ⟨tokens, none⟩ :=
    lex_eq_ok_iff.1 h
  obtain ⟨final, hleads, hfinal⟩ :=
    exists_leads_lexLines Levels.zero (endOfLines (sourceLines source)) (sourceLines source)
  rw [hstream] at hleads hfinal
  rwa [hfinal rfl] at hleads

/-! ### Reading token by token -/

/-- The ways to ask a lexer for a token. -/
inductive Call where
  | peek
  | next
  | advance
deriving DecidableEq, Repr

/-- The tokens that calls have given out. A token that was only looked at is not among them. -/
def taken (events : List (Call × Except LexError (Option Token))) : List Token :=
  events.filterMap fun event => if event.1 = .peek then none else event.2.toOption.join

theorem taken_cons (event : Call × Except LexError (Option Token))
    (events : List (Call × Except LexError (Option Token))) :
    taken (event :: events) = taken [event] ++ taken events :=
  List.filterMap_append (l := [event])

namespace Lexer

/-- What a call gives, and the lexer after it. -/
def call (lexer : Lexer) : Call → Except LexError (Option Token) × Lexer
  | .peek => lexer.peek
  | .next => lexer.next
  | .advance => lexer.advance

/-- What calls give, one after the other, and the lexer after them. -/
def run (lexer : Lexer) : List Call → List (Call × Except LexError (Option Token)) × Lexer
  | [] => ([], lexer)
  | call :: calls =>
    let given := lexer.call call
    let others := given.2.run calls
    ((call, given.1) :: others.1, others.2)

/-- The lexer keeps the levels to which the tokens lead that it has given out and those that it
holds ready. -/
def Tracks (given : List Token) (lexer : Lexer) : Prop :=
  Leads [0] (given ++ lexer.pending) lexer.levels

variable {lexer filled after : Lexer} {given : List Token}

/-- All that a call without an error does: it reads until a token is ready, and unless it only looks
at that token, it gives it out. -/
theorem call_eq_ok {call : Call} {token : Option Token} (h : lexer.call call = (.ok token, after)) :
    ∃ filled, lexer.fill = (filled, none) ∧ token = filled.pending.head? ∧
      after = if call = .peek then filled else { filled with pending := filled.pending.tail } := by
  rcases hfill : lexer.fill with ⟨filled, error⟩
  cases error with
  | some error =>
    cases call <;> simp [Lexer.call, peek, next, advance, hfill] at h
  | none =>
    have hresult : lexer.call call = (.ok filled.pending.head?,
        if call = .peek then filled else { filled with pending := filled.pending.tail }) := by
      cases call <;> simp [Lexer.call, peek, next, advance, hfill]
    rw [hresult] at h
    cases h
    exact ⟨filled, rfl, rfl, rfl⟩

theorem tracks_fillFrom {levels : List Nat} (hgiven : Leads [0] given levels) {stop : Location}
    {lines : List Line} (h : fillFrom levels stop lines = (filled, none)) :
    filled.Tracks given := by
  induction lines generalizing levels given with
  | nil =>
    cases h
    have hlevels := hgiven.levels Levels.zero
    obtain ⟨inner, hinner, -⟩ := hlevels.exists_inner
    have hclosed : levels.drop (levels.length - 1) = [0] := by simp [hinner]
    rw [Tracks, hclosed]
    exact hgiven.append (leads_closeAll hlevels stop)
  | cons line lines ih =>
    have hline := hgiven.append (leads_lexLine (hgiven.levels Levels.zero) line)
    rw [fillFrom] at h
    cases herror : (lexLine levels line).error with
    | some error =>
      simp only [herror] at h
      cases h
    | none =>
      cases htokens : (lexLine levels line).tokens with
      | nil =>
        simp only [herror, htokens] at h
        rw [htokens, List.append_nil] at hline
        exact ih hline h
      | cons token tokens =>
        simp only [herror, htokens] at h
        cases h
        rw [htokens] at hline
        exact hline

/-- Reading lines until a token is ready keeps the levels. -/
theorem Tracks.fill (h : lexer.Tracks given) (hfill : lexer.fill = (filled, none)) :
    filled.Tracks given := by
  unfold Lexer.fill at hfill
  split at hfill
  · next hempty =>
    have hpending : lexer.pending = [] := List.isEmpty_iff.1 (Bool.and_eq_true_iff.1 hempty).1
    rw [Tracks, hpending, List.append_nil] at h
    exact tracks_fillFrom h hfill
  · cases hfill
    exact h

/-- A call without an error keeps the levels. -/
theorem Tracks.call {call : Call} {token : Option Token} (h : lexer.Tracks given)
    (hcall : lexer.call call = (.ok token, after)) :
    after.Tracks (given ++ taken [(call, .ok token)]) := by
  obtain ⟨filled, hfill, rfl, rfl⟩ := call_eq_ok hcall
  have hfilled := h.fill hfill
  by_cases hpeek : call = .peek
  · simpa [taken, hpeek] using hfilled
  · obtain ⟨lines, pending, levels, stop, finished⟩ := filled
    cases pending with
    | nil => simpa [taken, hpeek, Except.toOption] using hfilled
    | cons token pending => simpa [Tracks, taken, hpeek, Except.toOption] using hfilled

/-- Calls without errors keep the levels. -/
theorem Tracks.run (h : lexer.Tracks given) (calls : List Call)
    (hok : ∀ event ∈ (lexer.run calls).1, event.2.isOk = true) :
    (lexer.run calls).2.Tracks (given ++ taken (lexer.run calls).1) := by
  induction calls generalizing lexer given with
  | nil => simpa [Lexer.run, taken] using h
  | cons call calls ih =>
    obtain ⟨hfirst, hothers⟩ := List.forall_mem_cons.1 hok
    rcases hcall : lexer.call call with ⟨result, after⟩
    rw [Lexer.run] at hok ⊢
    simp only [hcall] at hfirst hothers ⊢
    cases result with
    | error error => cases hfirst
    | ok token =>
      have hrest := ih (h.call hcall) hothers
      rwa [List.append_assoc, ← taken_cons] at hrest

end Lexer

/-! ### All sources -/

/-- The first tokens of a file hold no more dedents than indents. -/
theorem Leads.count_dedent_le {tokens : List Token} {final : List Nat} (h : Leads [0] tokens final)
    {before : List TokenKind} (hbefore : before <+: tokens.map Token.kind) :
    before.count .dedent ≤ before.count .indent := by
  obtain ⟨after, hkinds⟩ := hbefore
  obtain ⟨first, second, rfl, rfl, -⟩ := List.map_eq_append_iff.1 hkinds.symm
  obtain ⟨middle, hfirst, -⟩ := h.exists_of_append
  have hcount := hfirst.count_kinds
  have hpos := List.length_pos_iff.2 (hfirst.levels Levels.zero).ne_nil
  rw [List.length_singleton] at hcount
  omega

/-- However a lexer is asked, as long as no call gives an error, its open levels deepen from zero
on, and they are those to which its tokens lead. The tokens of a file without errors have no dedent
before the indent that it answers, and as many dedents as indents. An indent covers at least one
column, and a word follows it. -/
theorem lexer_balances_blocks (source : List Char) :
    (∀ calls events lexer, (Lexer.ofSource source).run calls = (events, lexer) →
      (∀ event ∈ events, event.2.isOk = true) →
        lexer.levels.reverse.Pairwise (· < ·) ∧ lexer.levels.reverse.head? = some 0 ∧
          Leads [0] (taken events ++ lexer.pending) lexer.levels) ∧
    ∀ tokens, lex source = .ok tokens →
      (∀ before, before <+: tokens.map Token.kind → before.count .dedent ≤ before.count .indent) ∧
      (tokens.map Token.kind).count .indent = (tokens.map Token.kind).count .dedent ∧
      ∀ before token after, tokens = before ++ token :: after → token.kind = .indent →
        token.lexeme ≠ "" ∧
          ∃ word rest, after = word :: rest ∧
            word.kind ∉ [TokenKind.indent, .dedent, .newline] := by
  constructor
  · intro calls events lexer hrun hok
    have hstart : (Lexer.ofSource source).Tracks [] := .nil [0]
    have htracks : lexer.Tracks (taken events) := by
      have htracks := hstart.run calls
      rw [hrun] at htracks
      exact htracks hok
    obtain ⟨hdeepens, houtermost⟩ := htracks.levels Levels.zero
    exact ⟨List.pairwise_reverse.2 hdeepens, by rw [List.head?_reverse, houtermost], htracks⟩
  · intro tokens hlex
    have hleads := leads_of_lex hlex
    have hcount := hleads.count_kinds
    refine ⟨fun before hbefore => hleads.count_dedent_le hbefore, by omega, ?_⟩
    rintro before token after rfl hkind
    have hopen := indentsOpen_lexStream source
    rw [lex_eq_ok_iff.1 hlex] at hopen
    obtain ⟨word, rest, rfl, hword⟩ := hopen before token after rfl hkind
    obtain ⟨level, -, -, hdeeper, hcovers⟩ := hleads.exists_opensBlock (by simp) hkind
    refine ⟨fun hempty => ?_, word, rest, rfl, ?_⟩
    · rw [hempty, String.length_empty] at hcovers
      omega
    · rcases hword with h | h | h | h <;> rw [h] <;> decide

/-- A lexer that is asked in all three ways, up to the line that is two blocks deep, and the tokens
of the whole file. -/
theorem lexer_balances_blocks_twoBlocks :
    let source := "a\n  b\n# c\n    d = 1\n\ne".toList
    let calls := [Call.peek, .next, .advance, .peek, .next, .next, .advance, .peek]
    ∃ events lexer tokens, (Lexer.ofSource source).run calls = (events, lexer) ∧
      (∀ event ∈ events, event.2.isOk = true) ∧ lexer.levels = [4, 2, 0] ∧
      lexer.levels.reverse.Pairwise (· < ·) ∧ lex source = .ok tokens ∧
      (tokens.map Token.kind).count .indent = (tokens.map Token.kind).count .dedent := by
  intro source calls
  have hcheck : ((Lexer.ofSource source).run calls).1.all (·.2.isOk) = true ∧
      ((Lexer.ofSource source).run calls).2.levels = [4, 2, 0] ∧
        (lexStream source).error = none := by
    decide +kernel
  rcases hrun : (Lexer.ofSource source).run calls with ⟨events, lexer⟩
  rw [hrun] at hcheck
  obtain ⟨hall, hdeep, herror⟩ := hcheck
  have hok : ∀ event ∈ events, event.2.isOk = true := List.all_eq_true.1 hall
  have hlex : lex source = .ok (lexStream source).tokens := by rw [lex_eq_ok_iff, ← herror]
  obtain ⟨hruns, htokens⟩ := lexer_balances_blocks source
  exact ⟨events, lexer, _, rfl, hok, hdeep, (hruns _ events lexer hrun hok).1, hlex,
    (htokens _ hlex).2.1⟩

end PythonLint.Ignore
