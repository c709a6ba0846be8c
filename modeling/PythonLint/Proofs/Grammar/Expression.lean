import PythonLint.Grammar.Expression
import PythonLint.Proofs.Grammar.Scan
import PythonLint.Proofs.Grammar.Undivided

/-!
# Expressions without slashes

One lemma for each rule says what the rule yields when no slash is left: an expression without
division. Each follows from those of the rules inside it. The paths through a rule are walked by
`mvcgen`, and what is left of each path is that the parts of the tree it builds hold no division.

Only an operator that associates to the left can be a division, and its symbol is looked up in a
table. The rules of a level use those one level further in, so that all levels follow by induction.

Main statements: `yields_leftAssociative`, `undivides_readField`, `undivided_rules`.
-/

namespace PythonLint

open Std.Do

variable {typed : Bool} {start : Nat} {kind : ParamKind} {inner item : Rule Expr}

set_option mvcgen.warning false

namespace Grammar

open Rule

/-- The rules one level further in read no division from tokens, nor from the text of a field,
without a slash. -/
structure Rules.Undivided (rules : Rules) : Prop where
  test : Yields Cursor.SlashFree rules.test Expr.Undivided
  disjunction : Yields Cursor.SlashFree rules.disjunction Expr.Undivided
  negation : Yields Cursor.SlashFree rules.negation Expr.Undivided
  operand : Yields Cursor.SlashFree rules.operand Expr.Undivided
  unary : Yields Cursor.SlashFree rules.unary Expr.Undivided
  field : ∀ text offset value, '/' ∉ text → rules.field text offset = .ok value → value.Undivided

variable {self : Rules} {names : Text.NameTable}

attribute [spec] Rules.Undivided.test Rules.Undivided.disjunction Rules.Undivided.negation
  Rules.Undivided.operand Rules.Undivided.unary

/-! ### Repeated expressions -/

@[spec]
theorem yields_iterate_expr {step : Expr → Rule (Option Expr)} {value : Expr}
    (hvalue : value.Undivided) (hstep : ∀ value : Expr, value.Undivided →
      Yields Cursor.SlashFree (step value) fun value? => ∀ value ∈ value?, value.Undivided) :
    Yields Cursor.SlashFree (iterate step value) Expr.Undivided :=
  yields_iterate Expr.Undivided hvalue hstep

@[spec]
theorem yields_many_expr {more : Rule Bool} (hmore : Yields Cursor.SlashFree more fun _ => True)
    (hitem : Yields Cursor.SlashFree item Expr.Undivided) :
    Yields Cursor.SlashFree (many more item) fun exprs => ∀ expr ∈ exprs, expr.Undivided :=
  yields_many hmore hitem

@[spec]
theorem yields_moreItems_expr {starts : Tok → Bool}
    (hitem : Yields Cursor.SlashFree item Expr.Undivided) :
    Yields Cursor.SlashFree (moreItems starts item) fun read => ∀ expr ∈ read.1, expr.Undivided :=
  yields_moreItems hitem

@[spec]
theorem yields_items_expr {starts : Tok → Bool}
    (hitem : Yields Cursor.SlashFree item Expr.Undivided) :
    Yields Cursor.SlashFree (items starts item) fun read => ∀ expr ∈ read.1, expr.Undivided :=
  yields_items hitem

@[spec]
theorem yields_optional_expr {starts : Tok → Bool}
    (hitem : Yields Cursor.SlashFree item Expr.Undivided) :
    Yields Cursor.SlashFree (optional starts item) fun expr? => ∀ expr ∈ expr?, expr.Undivided :=
  yields_optional hitem

/-! ### Rules inside rules -/

@[spec]
theorem yields_complain {α : Type} {follows : Tok → Bool} {fault : Fault} {offset : Nat} :
    Yields Cursor.SlashFree (complain follows fault offset : Rule α) fun _ => False := by
  mvcgen [complain]
  all_goals simp_all

@[simp]
theorem noDivision_tupleOf {read : List Expr × Bool} :
    NoDivision (tupleOf start read).sites ↔ ∀ expr ∈ read.1, NoDivision expr.sites := by
  unfold tupleOf
  split <;> simp

@[spec]
theorem yields_starred (h : self.Undivided) :
    Yields Cursor.SlashFree (starred self) Expr.Undivided := by
  mvcgen [starred]
  all_goals simp_all

@[spec]
theorem yields_testOrStarred (h : self.Undivided) :
    Yields Cursor.SlashFree (testOrStarred self) Expr.Undivided := by
  mvcgen [testOrStarred]
  all_goals simp_all

@[spec]
theorem yields_namedTest (h : self.Undivided) :
    Yields Cursor.SlashFree (namedTest self) Expr.Undivided := by
  mvcgen [namedTest]
  all_goals simp_all

@[spec]
theorem yields_namedTestOrStarred (h : self.Undivided) :
    Yields Cursor.SlashFree (namedTestOrStarred self) Expr.Undivided := by
  mvcgen [namedTestOrStarred]
  all_goals simp_all

@[spec]
theorem yields_exprs (h : self.Undivided) :
    Yields Cursor.SlashFree (exprs self) Expr.Undivided := by
  mvcgen [exprs]
  all_goals simp_all

@[spec]
theorem yields_targetItems (h : self.Undivided) :
    Yields Cursor.SlashFree (targetItems self) fun read => ∀ expr ∈ read.1, expr.Undivided := by
  mvcgen [targetItems]
  all_goals simp_all

@[spec]
theorem yields_targets (h : self.Undivided) :
    Yields Cursor.SlashFree (targets self) Expr.Undivided := by
  mvcgen [targets]
  all_goals simp_all

@[spec]
theorem yields_yieldExpr (h : self.Undivided) :
    Yields Cursor.SlashFree (yieldExpr self) Expr.Undivided := by
  mvcgen [yieldExpr]
  all_goals simp_all

/-! ### Comprehensions -/

@[spec]
theorem yields_clause (h : self.Undivided) :
    Yields Cursor.SlashFree (clause self) Clause.Undivided := by
  mvcgen [clause]
  all_goals simp_all

@[spec]
theorem yields_clauses (h : self.Undivided) :
    Yields Cursor.SlashFree (clauses self) fun clauses => ∀ clause ∈ clauses, clause.Undivided := by
  have hmany : Yields Cursor.SlashFree (many (nextIs startsClause) (clause self)) _ :=
    yields_many yields_nextIs (yields_clause h)
  mvcgen [clauses, hmany]
  all_goals simp_all

/-! ### Atoms -/

@[spec]
theorem yields_iterate_run {step : List (Nat × Literal) → Rule (Option (List (Nat × Literal)))}
    {run : List (Nat × Literal)} (hrun : RunSlashFree run) (hstep : ∀ run, RunSlashFree run →
      Yields Cursor.SlashFree (step run) fun run? => ∀ run ∈ run?, RunSlashFree run) :
    Yields Cursor.SlashFree (iterate step run) RunSlashFree :=
  yields_iterate RunSlashFree hrun hstep

@[spec]
theorem yields_literalRun : Yields Cursor.SlashFree literalRun RunSlashFree := by
  mvcgen [literalRun]
  all_goals simp_all [Tok.SlashFree]

@[spec]
theorem ensures_runExpr (h : self.Undivided) {run : List (Nat × Literal)}
    (hrun : RunSlashFree run) :
    ⦃⌜True⌝⦄ runExpr self.names self.field start run ⦃⇓? value => ⌜value.Undivided⌝⦄ :=
  ensures_of_ok fun _ => undivided_runExpr h.field hrun

@[spec]
theorem yields_strings (h : self.Undivided) {follows : Tok → Bool} :
    Yields Cursor.SlashFree (strings self follows) Expr.Undivided := by
  mvcgen [strings]
  all_goals simp_all

@[spec]
theorem yields_parenthesizedRest (h : self.Undivided) {first : Expr} (hfirst : first.Undivided) :
    Yields Cursor.SlashFree (parenthesizedRest self start first) Expr.Undivided := by
  mvcgen [parenthesizedRest]
  all_goals simp_all

@[spec]
theorem yields_parenthesized (h : self.Undivided) :
    Yields Cursor.SlashFree (parenthesized self) Expr.Undivided := by
  mvcgen [parenthesized]
  all_goals simp_all

@[spec]
theorem yields_listDisplay (h : self.Undivided) :
    Yields Cursor.SlashFree (listDisplay self) Expr.Undivided := by
  mvcgen [listDisplay]
  all_goals simp_all

@[spec]
theorem yields_entry (h : self.Undivided) :
    Yields Cursor.SlashFree (entry self) Entry.Undivided := by
  mvcgen [entry]
  all_goals simp_all

@[spec]
theorem yields_dictRest (h : self.Undivided) {first : Entry} (hfirst : first.Undivided) :
    Yields Cursor.SlashFree (dictRest self start first) Expr.Undivided := by
  have hmore : Yields Cursor.SlashFree (moreItems startsEntry (entry self)) _ :=
    yields_moreItems (yields_entry h)
  mvcgen [dictRest, hmore]
  all_goals simp_all

@[spec]
theorem yields_setRest (h : self.Undivided) {first : Expr} (hfirst : first.Undivided) :
    Yields Cursor.SlashFree (setRest self start first) Expr.Undivided := by
  mvcgen [setRest]
  all_goals simp_all

@[spec]
theorem yields_braceDisplay (h : self.Undivided) :
    Yields Cursor.SlashFree (braceDisplay self) Expr.Undivided := by
  mvcgen [braceDisplay]
  all_goals simp_all

@[spec]
theorem yields_atom (h : self.Undivided) : Yields Cursor.SlashFree (atom self) Expr.Undivided := by
  mvcgen [atom]
  all_goals simp_all

/-! ### Arguments -/

/-- The value of an argument holds no division. -/
def Argument.Undivided : Argument → Prop
  | positional value => value.Undivided
  | keyword _ _ value => value.Undivided

@[spec]
theorem yields_argument (h : self.Undivided) :
    Yields Cursor.SlashFree (argument self) Argument.Undivided := by
  mvcgen [argument]
  all_goals simp_all [Argument.Undivided]

theorem undivided_sortArguments {args : List Expr} {keywords : List KeywordArg}
    {written : List Argument} (hargs : ∀ arg ∈ args, arg.Undivided)
    (hkeywords : ∀ keyword ∈ keywords, keyword.Undivided)
    (hwritten : ∀ argument ∈ written, argument.Undivided) {sorted : Arguments}
    (h : sortArguments args keywords written = .ok sorted) :
    (∀ arg ∈ sorted.1, arg.Undivided) ∧ ∀ keyword ∈ sorted.2, keyword.Undivided := by
  fun_induction sortArguments args keywords written with
  | case1 args keywords =>
    cases h
    exact ⟨hargs, hkeywords⟩
  | case2 => cases h
  | case3 args keywords start id value rest _ ih =>
    rw [List.forall_mem_cons] at hwritten
    refine ih hargs ?_ hwritten.2 h
    rw [List.forall_mem_append, List.forall_mem_singleton]
    exact ⟨hkeywords, hwritten.1⟩
  | case4 args keywords start value rest ih =>
    rw [List.forall_mem_cons] at hwritten
    refine ih hargs ?_ hwritten.2 h
    rw [List.forall_mem_append, List.forall_mem_singleton]
    exact ⟨hkeywords, hwritten.1⟩
  | case5 => cases h
  | case6 => cases h
  | case7 args keywords value rest _ _ ih =>
    rw [List.forall_mem_cons] at hwritten
    refine ih ?_ hkeywords hwritten.2 h
    rw [List.forall_mem_append, List.forall_mem_singleton]
    exact ⟨hargs, hwritten.1⟩

@[spec]
theorem ensures_sortArguments {written : List Argument}
    (hwritten : ∀ argument ∈ written, argument.Undivided) :
    ⦃⌜True⌝⦄ sortArguments [] [] written
      ⦃⇓? sorted => ⌜(∀ arg ∈ sorted.1, arg.Undivided) ∧ ∀ keyword ∈ sorted.2,
        keyword.Undivided⌝⦄ :=
  ensures_of_ok fun _ => undivided_sortArguments (by simp) (by simp) hwritten

@[spec]
theorem yields_arguments (h : self.Undivided) :
    Yields Cursor.SlashFree (arguments self) fun sorted =>
      (∀ arg ∈ sorted.1, arg.Undivided) ∧ ∀ keyword ∈ sorted.2, keyword.Undivided := by
  have hitems : Yields Cursor.SlashFree (items startsArgument (argument self)) _ :=
    yields_items (yields_argument h)
  mvcgen [arguments, hitems]
  all_goals simp_all

/-! ### Parameters -/

@[spec]
theorem yields_typeHint {value : Rule Expr}
    (hvalue : Yields Cursor.SlashFree value Expr.Undivided) :
    Yields Cursor.SlashFree (typeHint typed value) fun expr? => ∀ expr ∈ expr?, expr.Undivided := by
  mvcgen [typeHint, hvalue]
  all_goals simp_all

@[spec]
theorem yields_parameter (h : self.Undivided) :
    Yields Cursor.SlashFree (parameter self typed kind) Param.Undivided := by
  mvcgen [parameter]
  all_goals simp_all

@[spec]
theorem yields_starParameter {type : Rule Expr}
    (htype : Yields Cursor.SlashFree type Expr.Undivided) :
    Yields Cursor.SlashFree (starParameter typed kind type) fun params =>
      ∀ param ∈ params, param.Undivided := by
  mvcgen [starParameter, htype]
  all_goals simp_all

@[simp]
theorem Param.undivided_withKind {param : Param} :
    (param.withKind kind).Undivided ↔ param.Undivided := by
  cases param
  rfl

theorem yields_parameterStep (h : self.Undivided) {state : ParamState}
    (hstate : ∀ param ∈ state.params, param.Undivided) :
    Yields Cursor.SlashFree (parameterStep self typed state) fun state? =>
      ∀ state ∈ state?, ∀ param ∈ state.params, param.Undivided := by
  mvcgen [parameterStep]
  all_goals simp_all [or_imp]

@[spec]
theorem yields_checkNames {params : List Param} :
    Yields Cursor.SlashFree (checkNames params) fun _ => True := by
  mvcgen [checkNames]
  all_goals simp_all

@[spec]
theorem yields_parameters (h : self.Undivided) {closing : String} :
    Yields Cursor.SlashFree (parameters self typed closing) fun params =>
      ∀ param ∈ params, param.Undivided := by
  have hstart : ∀ param ∈ (ParamState.mk [] .positional false none true).params,
    param.Undivided := by simp
  have hiterate : Yields Cursor.SlashFree (iterate (parameterStep self typed) _) _ :=
    yields_iterate (fun state : ParamState => ∀ param ∈ state.params, param.Undivided) hstart
      fun state hstate => yields_parameterStep h hstate
  mvcgen [parameters, hiterate]
  all_goals simp_all

/-! ### Trailers -/

@[spec]
theorem yields_sliceRest (h : self.Undivided) {lower : Option Expr}
    (hlower : ∀ expr ∈ lower, expr.Undivided) :
    Yields Cursor.SlashFree (sliceRest self start lower) Expr.Undivided := by
  mvcgen [sliceRest]
  all_goals simp_all

@[spec]
theorem yields_subscript (h : self.Undivided) :
    Yields Cursor.SlashFree (subscript self) Expr.Undivided := by
  mvcgen [subscript]
  all_goals simp_all

@[spec]
theorem yields_subscripts (h : self.Undivided) :
    Yields Cursor.SlashFree (subscripts self) Expr.Undivided := by
  mvcgen [subscripts]
  all_goals simp_all

@[spec]
theorem yields_primary (h : self.Undivided) :
    Yields Cursor.SlashFree (primary self) Expr.Undivided := by
  mvcgen [primary]
  all_goals simp_all

/-! ### Operators -/

@[spec]
theorem yields_power (h : self.Undivided) :
    Yields Cursor.SlashFree (power self) Expr.Undivided := by
  mvcgen [power]
  all_goals simp_all

@[spec]
theorem yields_unary (h : self.Undivided) :
    Yields Cursor.SlashFree (unary self) Expr.Undivided := by
  mvcgen [unary]
  all_goals simp_all

/-- A symbol other than a slash stands for no division. -/
def SlashDivides (ops : List (String × BinaryOp)) : Prop :=
  ∀ entry ∈ ops, entry.2 = .divide → entry.1 = "/"

theorem SlashDivides.ne_divide {ops : List (String × BinaryOp)} (hops : SlashDivides ops)
    {symbol : String} {op : BinaryOp} (hlookup : ops.lookup symbol = some op)
    (hsymbol : symbol ≠ "/") : op ≠ .divide := by
  obtain ⟨before, after, rfl, -⟩ := List.lookup_eq_some_iff.1 hlookup
  exact fun hop => hsymbol (hops (symbol, op) (by simp) hop)

theorem yields_leftAssociative {ops : List (String × BinaryOp)} (hops : SlashDivides ops)
    (hinner : Yields Cursor.SlashFree inner Expr.Undivided) :
    Yields Cursor.SlashFree (leftAssociative ops inner) Expr.Undivided := by
  mvcgen [leftAssociative, hinner]
  all_goals simp_all [Tok.SlashFree]
  -- What is left is the operator of a symbol that is no slash.
  next hlookup hsymbol _ _ _ => exact hops.ne_divide hlookup hsymbol.2

theorem yields_foldr_leftAssociative {levels : List (List (String × BinaryOp))}
    (hlevels : ∀ ops ∈ levels, SlashDivides ops)
    (hinner : Yields Cursor.SlashFree inner Expr.Undivided) :
    Yields Cursor.SlashFree (levels.foldr leftAssociative inner) Expr.Undivided := by
  induction levels with
  | nil => exact hinner
  | cons ops rest ih =>
    rw [List.forall_mem_cons] at hlevels
    exact yields_leftAssociative hlevels.1 (ih hlevels.2)

@[spec]
theorem yields_operand (h : self.Undivided) :
    Yields Cursor.SlashFree (operand self) Expr.Undivided :=
  yields_foldr_leftAssociative (by unfold SlashDivides; decide) (yields_unary h)

@[spec]
theorem yields_comparisonOp : Yields Cursor.SlashFree comparisonOp fun _ => True := by
  mvcgen [comparisonOp]
  all_goals simp_all

@[spec]
theorem yields_comparison (h : self.Undivided) :
    Yields Cursor.SlashFree (comparison self) Expr.Undivided := by
  mvcgen [comparison]
  all_goals simp_all
  split <;> simp_all

@[spec]
theorem yields_negation (h : self.Undivided) :
    Yields Cursor.SlashFree (negation self) Expr.Undivided := by
  mvcgen [negation]
  all_goals simp_all

theorem yields_joined {word : String} (hinner : Yields Cursor.SlashFree inner Expr.Undivided) :
    Yields Cursor.SlashFree (joined word inner) Expr.Undivided := by
  mvcgen [joined, hinner]
  all_goals simp_all
  split <;> simp_all

@[spec]
theorem yields_disjunction (h : self.Undivided) :
    Yields Cursor.SlashFree (disjunction self) Expr.Undivided :=
  yields_joined (yields_joined (yields_negation h))

@[spec]
theorem yields_lambda (h : self.Undivided) :
    Yields Cursor.SlashFree (lambda self) Expr.Undivided := by
  mvcgen [lambda]
  all_goals simp_all

@[spec]
theorem yields_test (h : self.Undivided) : Yields Cursor.SlashFree (test self) Expr.Undivided := by
  mvcgen [test]
  all_goals simp_all

/-! ### The rules together -/

theorem yields_loneExpression (h : self.Undivided) :
    Yields Cursor.SlashFree (loneExpression self) Expr.Undivided := by
  have hlines : Yields Cursor.SlashFree (many (next .newline) (expect .newline)) _ :=
    yields_many yields_next yields_expect
  mvcgen [loneExpression, hlines]
  all_goals simp_all

/-- The text of a field is scanned again, between parentheses. -/
theorem undivides_readField (h : self.Undivided) : FieldReader.Undivides (readField self) := by
  intro text offset value htext hread
  have hslash : '/' ∉ '(' :: text ++ [')'] := by simpa using htext
  unfold readField at hread
  obtain ⟨result, hrun, rfl⟩ := exists_of_map_eq_ok hread
  exact (yields_iff.1 (yields_loneExpression h) _ _ _ (slashFree_scanExpression hslash _) hrun).2

theorem undivided_none : (Rules.none names).Undivided where
  test := yields_unexpected.mono fun _ => False.elim
  disjunction := yields_unexpected.mono fun _ => False.elim
  negation := yields_unexpected.mono fun _ => False.elim
  operand := yields_unexpected.mono fun _ => False.elim
  unary := yields_unexpected.mono fun _ => False.elim
  field := fun _ _ _ _ hread => by cases hread

/-- The rules of every level find no division without a slash. -/
theorem undivided_rules (names : Text.NameTable) (level : Nat) :
    (rules names level).Undivided := by
  induction level with
  | zero => exact undivided_none
  | succ level ih =>
    exact {
      test := yields_test ih
      disjunction := yields_disjunction ih
      negation := yields_negation ih
      operand := yields_operand ih
      unary := yields_unary ih
      field := undivides_readField ih }

end Grammar

end PythonLint
