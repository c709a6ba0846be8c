import PythonLint.Ignore.Parser

/-!
# Parsing from a lexer

A parser that looks at a token makes its lexer read a whole line. What lies ahead of the lexer does
not change by that, so that a parser does the same with a lexer as with the tokens ahead of it, and
an error among them counts when the parser gets there. This is shown for each of the two ways to ask
for a token and carried through the combinators up to whole files.

Main statements: `Lexer.fill_cases`, `ReadsAlike.readMany`, `parse_eq`.
-/

namespace PythonLint.Ignore

/-! ### Lines that are read ahead -/

namespace Lexer

theorem ahead_ofSource (source : List Char) : (ofSource source).ahead = lexStream source := rfl

/-- Reading lines until a token is ready: what is still to be given stays the same, and without a
token it is nothing or an error. -/
theorem fillFrom_cases (levels : List Nat) (stop : Location) (lines : List Line) :
    (∃ filled, fillFrom levels stop lines = (filled, none) ∧
      filled.ahead = lexLines levels stop lines ∧
        (filled.pending = [] → filled.finished = true)) ∨
      ∃ filled error, fillFrom levels stop lines = (filled, some error) ∧
        lexLines levels stop lines = ⟨[], some error⟩ := by
  induction lines generalizing levels with
  | nil => exact .inl ⟨_, rfl, rfl, fun _ => rfl⟩
  | cons line lines ih =>
    rw [fillFrom, lexLines]
    cases herror : (lexLine levels line).error with
    | some error => exact .inr ⟨_, error, rfl, rfl⟩
    | none =>
      cases htokens : (lexLine levels line).tokens with
      | nil => exact ih _
      | cons token tokens => exact .inl ⟨_, rfl, rfl, fun hpending => by cases hpending⟩

theorem fill_cases (lexer : Lexer) :
    (∃ filled, lexer.fill = (filled, none) ∧ filled.ahead = lexer.ahead ∧
        (filled.pending = [] → filled.finished = true)) ∨
      ∃ filled error, lexer.fill = (filled, some error) ∧ lexer.ahead = ⟨[], some error⟩ := by
  obtain ⟨lines, pending, levels, stop, finished⟩ := lexer
  cases finished with
  | true => exact .inl ⟨_, by simp [fill], rfl, fun _ => rfl⟩
  | false =>
    cases pending with
    | nil => exact fillFrom_cases levels stop lines
    | cons token pending => exact .inl ⟨_, rfl, rfl, fun hpending => by cases hpending⟩

/-- What lies ahead of a lexer that has a token ready, or nothing more to give. -/
theorem ahead_of_filled {lexer : Lexer} (h : lexer.pending = [] → lexer.finished = true) :
    lexer.pending = [] ∧ lexer.ahead = ⟨[], none⟩ ∨
      ∃ token rest error, lexer.pending.head? = some token ∧ lexer.ahead = ⟨token :: rest, error⟩ ∧
        ({ lexer with pending := lexer.pending.tail } : Lexer).ahead = ⟨rest, error⟩ := by
  obtain ⟨lines, pending, levels, stop, finished⟩ := lexer
  cases pending with
  | nil =>
    obtain rfl : finished = true := h rfl
    exact .inl ⟨rfl, rfl⟩
  | cons token pending =>
    cases finished with
    | true => exact .inr ⟨token, _, _, rfl, rfl, rfl⟩
    | false => exact .inr ⟨token, _, _, rfl, rfl, rfl⟩

end Lexer

/-! ### Parsers -/

/-- The tokens that lie ahead of the lexer. -/
def Reader.input (reader : Reader) : Input :=
  ⟨reader.lexer.ahead.tokens, reader.last, reader.lexer.ahead.error⟩

variable {α β : Type} {reader : Reader}

/-- Two parsers, one of a lexer and one of the tokens ahead of it, have the same result and leave
the same tokens. -/
def ReadsAlike (p : Parser Reader α) (q : Parser Input α) : Prop :=
  ∀ reader, q reader.input = (p reader).map (Prod.map id Reader.input)

theorem readsAlike_pure (a : α) : ReadsAlike (pure a) (pure a) :=
  fun _ => rfl

theorem readsAlike_throw (error : IgnoreError) :
    ReadsAlike (throw error : Parser Reader α) (throw error) :=
  fun _ => rfl

theorem ReadsAlike.bind {p : Parser Reader α} {q : Parser Input α} {f : α → Parser Reader β}
    {g : α → Parser Input β} (hp : ReadsAlike p q) (hf : ∀ a, ReadsAlike (f a) (g a)) :
    ReadsAlike (p >>= f) (q >>= g) := by
  intro reader
  have hbind : (q >>= g) reader.input = (q reader.input).bind fun found => g found.1 found.2 := rfl
  rw [hbind, hp reader]
  change _ = ((p reader).bind fun found => f found.1 found.2).map _
  cases p reader with
  | error error => rfl
  | ok found => exact hf found.1 found.2

/-- Looking at a token fills the lexer, and that leaves what lies ahead of it. -/
theorem readsAlike_peekKind : ReadsAlike peekKind peekKind := by
  rintro ⟨lexer, last⟩
  change Input.peekKind _ = (Reader.peekKind _).map _
  rcases lexer.fill_cases with ⟨filled, hfill, hahead, hready⟩ | ⟨filled, error, hfill, hahead⟩
  · have hpeek : lexer.peek = (.ok filled.pending.head?, filled) := by rw [Lexer.peek, hfill]
    rcases Lexer.ahead_of_filled hready with ⟨hnone, hend⟩ | ⟨token, rest, error, hhead, htokens, -⟩
    · simp [Reader.peekKind, Input.peekKind, Reader.input, hpeek, ← hahead, hnone, hend, Except.map]
    · simp [Reader.peekKind, Input.peekKind, Reader.input, hpeek, ← hahead, hhead, htokens,
        Except.map]
  · have hpeek : lexer.peek = (.error error, filled) := by rw [Lexer.peek, hfill]
    simp [Reader.peekKind, Input.peekKind, Reader.input, hpeek, hahead, Except.map]

theorem readsAlike_take : ReadsAlike take take := by
  rintro ⟨lexer, last⟩
  change Input.take _ = (Reader.take _).map _
  rcases lexer.fill_cases with ⟨filled, hfill, hahead, hready⟩ | ⟨filled, error, hfill, hahead⟩
  · have hnext : lexer.next =
        (.ok filled.pending.head?, { filled with pending := filled.pending.tail }) := by
      rw [Lexer.next, hfill]
    rcases Lexer.ahead_of_filled hready with ⟨hnone, hend⟩ | ⟨token, rest, error, hhead,
      htokens, hrest⟩
    · simp [Reader.take, Input.take, Reader.input, hnext, ← hahead, hnone, hend, Except.map]
    · simp [Reader.take, Input.take, Reader.input, hnext, ← hahead, hhead, htokens, hrest,
        Except.map]
  · have hnext : lexer.next = (.error error, filled) := by rw [Lexer.next, hfill]
    simp [Reader.take, Input.take, Reader.input, hnext, hahead, Except.map]

/-- A repetition takes the same items, since an item leaves as many tokens of both. -/
theorem ReadsAlike.readMany {more : Parser Reader Bool} {more' : Parser Input Bool}
    {item : Parser Reader α} {item' : Parser Input α} (hmore : ReadsAlike more more')
    (hitem : ReadsAlike item item') : ReadsAlike (readMany more item) (readMany more' item') := by
  intro reader
  induction hleft : left reader using Nat.strongRecOn generalizing reader with
  | ind n ih =>
    subst hleft
    rw [Ignore.readMany, Ignore.readMany, hmore reader]
    rcases more reader with error | ⟨_ | _, ahead⟩
    · rfl
    · rfl
    · simp only [Except.map, Prod.map, id, hitem ahead]
      rcases item ahead with error | ⟨first, after⟩
      · rfl
      · by_cases hless : left after < left reader
        · have hrest := ih _ hless after rfl
          have hless' : left after.input < left reader.input := hless
          simp only [if_pos hless, if_pos hless', hrest]
          rcases Ignore.readMany more item after with error | ⟨others, rest⟩
          · rfl
          · rfl
        · have hless' : ¬left after.input < left reader.input := hless
          simp only [if_neg hless, if_neg hless']

/-! ### The language -/

theorem readsAlike_expect (kinds : List TokenKind) : ReadsAlike (expect kinds) (expect kinds) := by
  refine readsAlike_take.bind fun token => ?_
  split
  · exact readsAlike_pure token
  · exact readsAlike_throw _

theorem readsAlike_operand : ReadsAlike operand operand := by
  refine (readsAlike_expect _).bind fun token => ?_
  split
  · exact readsAlike_pure _
  · exact readsAlike_pure _
  · simp only
    split
    · exact readsAlike_pure _
    · exact readsAlike_throw _

theorem readsAlike_comparison : ReadsAlike comparison comparison := by
  refine readsAlike_operand.bind fun left => (readsAlike_expect _).bind fun symbol => ?_
  split
  · exact readsAlike_throw _
  · refine readsAlike_operand.bind fun right => readsAlike_peekKind.bind fun kind => ?_
    split
    · exact readsAlike_pure _
    · exact readsAlike_pure _
    · exact (readsAlike_expect _).bind fun _ => readsAlike_pure _

theorem readsAlike_nameEnd (name : Token) : ReadsAlike (nameEnd name) (nameEnd name) := by
  refine readsAlike_peekKind.bind fun kind => ?_
  split
  · exact readsAlike_pure _
  · exact (readsAlike_expect _).bind fun _ => readsAlike_pure _

theorem readsAlike_filter : ReadsAlike filter filter := by
  refine (readsAlike_expect _).bind fun name => (readsAlike_nameEnd name).bind fun stop =>
    readsAlike_peekKind.bind fun kind => ?_
  split
  · refine readsAlike_take.bind fun _ => ReadsAlike.bind ?_ fun expressions =>
      (readsAlike_expect _).bind fun dedent => readsAlike_pure _
    exact (readsAlike_peekKind.bind fun kind => readsAlike_pure _).readMany readsAlike_comparison
  · exact readsAlike_pure _

theorem readsAlike_filters : ReadsAlike filters filters :=
  (readsAlike_peekKind.bind fun _ => readsAlike_pure _).readMany readsAlike_filter

/-- The filters of a file are those that its tokens, up to the first error, are read as. -/
theorem parse_eq (source : List Char) :
    parse source =
      (filters (Input.mk (lexStream source).tokens ⟨1, 0⟩ (lexStream source).error)).map
        Prod.fst := by
  have h := readsAlike_filters ⟨.ofSource source, ⟨1, 0⟩⟩
  rw [Reader.input, Lexer.ahead_ofSource] at h
  rw [h, parse]
  cases filters (Reader.mk (.ofSource source) ⟨1, 0⟩) <;> rfl

end PythonLint.Ignore
