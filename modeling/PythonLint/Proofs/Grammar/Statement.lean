import PythonLint.Grammar.Statement
import PythonLint.Proofs.Grammar.Pattern

/-!
# Modules without slashes

What holds of the rules for expressions holds of those for statements: without a slash they yield
trees without division. The rule for the statements of a block is that of the level further in, so
the levels follow by induction once more.

Main statements: `Grammar.yields_simpleLine`, `Grammar.yields_compound`,
`noDivision_of_parseModule`.
-/

namespace PythonLint

open Std.Do

set_option mvcgen.warning false

/-! ### Statements without division -/

attribute [simp] Stmt.sites

@[simp]
theorem noDivision_sitesOf {statements : List Stmt} :
    NoDivision (sitesOf statements) ↔ ∀ statement ∈ statements, NoDivision statement.sites := by
  induction statements with
  | nil => simp [sitesOf]
  | cons statement rest ih => simp [sitesOf, ih]

/-- The exceptions and the block of a handler hold no division. -/
def Handler.Undivided : Handler → Prop
  | mk _ type body =>
      (∀ expr ∈ type, NoDivision expr.sites) ∧ ∀ statement ∈ body, NoDivision statement.sites

@[simp]
theorem Handler.undivided_mk {start : Nat} {type : Option Expr} {body : List Stmt} :
    (mk start type body).Undivided ↔
      (∀ expr ∈ type, NoDivision expr.sites) ∧ ∀ statement ∈ body, NoDivision statement.sites :=
  Iff.rfl

@[simp]
theorem noDivision_handlerSites {handlers : List Handler} :
    NoDivision (handlerSites handlers) ↔ ∀ handler ∈ handlers, handler.Undivided := by
  induction handlers with
  | nil => simp [handlerSites]
  | cons handler rest ih =>
    cases handler
    simp [handlerSites, ih, and_assoc]

/-- The guard and the block of a case hold no division. Its pattern is not looked at. -/
def MatchCase.Undivided : MatchCase → Prop
  | mk _ guard body =>
      (∀ expr ∈ guard, NoDivision expr.sites) ∧ ∀ statement ∈ body, NoDivision statement.sites

@[simp]
theorem MatchCase.undivided_mk {pattern : Pattern} {guard : Option Expr} {body : List Stmt} :
    (mk pattern guard body).Undivided ↔
      (∀ expr ∈ guard, NoDivision expr.sites) ∧ ∀ statement ∈ body, NoDivision statement.sites :=
  Iff.rfl

@[simp]
theorem noDivision_caseSites {cases : List MatchCase} :
    NoDivision (caseSites cases) ↔ ∀ case ∈ cases, case.Undivided := by
  induction cases with
  | nil => simp [caseSites]
  | cons case rest ih =>
    cases case
    simp [caseSites, ih, and_assoc]

/-- A context manager and its target hold no division. -/
def WithItem.Undivided (item : WithItem) : Prop :=
  NoDivision item.context.sites ∧ ∀ expr ∈ item.target, NoDivision expr.sites

@[simp]
theorem WithItem.undivided_mk {context : Expr} {target : Option Expr} :
    (mk context target).Undivided ↔ NoDivision context.sites ∧ ∀ expr ∈ target,
      NoDivision expr.sites :=
  Iff.rfl

@[simp]
theorem noDivision_itemSites {items : List WithItem} :
    NoDivision (itemSites items) ↔ ∀ item ∈ items, item.Undivided := by
  induction items with
  | nil => simp [itemSites]
  | cons item rest ih =>
    rw [itemSites] at ih ⊢
    rw [List.flatMap_cons, noDivision_append, ih]
    simp [WithItem.Undivided]

@[simp]
def Stmt.Undivided (statement : Stmt) : Prop :=
  NoDivision statement.sites

namespace Grammar

open Rule

variable {self : Rules}

/-! ### Simple statements -/

@[spec]
theorem yields_assignedValue (h : self.Undivided) :
    Yields Cursor.SlashFree (assignedValue self) Expr.Undivided := by
  mvcgen [assignedValue]
  all_goals simp_all

@[simp]
theorem noDivision_assignment {start : Nat} {first : Expr} {values : List Expr} :
    NoDivision (assignment start first values).sites ↔
      NoDivision first.sites ∧ ∀ value ∈ values, NoDivision value.sites := by
  cases values with
  | nil => simp [assignment]
  | cons second rest =>
    obtain ⟨last, hlast⟩ : ∃ last, (first :: second :: rest).getLast? = some last :=
      ⟨_, List.getLast?_eq_some_getLast (List.cons_ne_nil first (second :: rest))⟩
    have hall : (∀ value ∈ first :: second :: rest, NoDivision value.sites) ↔
        (∀ value ∈ (first :: second :: rest).dropLast, NoDivision value.sites) ∧
          NoDivision last.sites := by
      conv_lhs => rw [← List.dropLast_append_getLast? last hlast]
      rw [List.forall_mem_append, List.forall_mem_singleton]
    simp only [assignment, hlast]
    rw [Stmt.sites, noDivision_append, noDivision_exprSites, ← hall, List.forall_mem_cons]

@[spec]
theorem yields_exprStatement (h : self.Undivided) :
    Yields Cursor.SlashFree (exprStatement self) Stmt.Undivided := by
  mvcgen [exprStatement]
  all_goals simp_all +zetaDelta

/-! ### Imports and types -/

@[spec]
theorem yields_dottedName : Yields Cursor.SlashFree dottedName fun _ => True := by
  have hmany : Yields Cursor.SlashFree (many (acceptSymbol ".") identifier) fun _ => True :=
    yields_many_true yields_acceptSymbol yields_identifier
  mvcgen [dottedName, hmany]
  all_goals simp_all

@[spec]
theorem yields_importedName {name : Rule String}
    (hname : Yields Cursor.SlashFree name fun _ => True) :
    Yields Cursor.SlashFree (importedName name) fun _ => True := by
  mvcgen [importedName, hname]
  all_goals simp_all

@[spec]
theorem yields_importNames : Yields Cursor.SlashFree importNames Stmt.Undivided := by
  have hnames : Yields Cursor.SlashFree (commaList (importedName dottedName)) fun _ => True :=
    yields_commaList_true (yields_importedName yields_dottedName)
  mvcgen [importNames, hnames]
  all_goals simp_all

@[spec]
theorem yields_importedNames : Yields Cursor.SlashFree importedNames fun _ => True := by
  have hname : Yields Cursor.SlashFree (importedName identifier) fun _ => True :=
    yields_importedName yields_identifier
  have hlist := yields_commaList_true hname
  have hitems : ∀ starts,
      Yields Cursor.SlashFree (items starts (importedName identifier)) fun _ => True :=
    fun _ => yields_items_true hname
  mvcgen [importedNames, hlist, hitems]
  all_goals simp_all

@[spec]
theorem yields_dots : Yields Cursor.SlashFree dots fun _ => True := by
  mvcgen [dots]
  all_goals simp_all

@[spec]
theorem yields_importFrom : Yields Cursor.SlashFree importFrom Stmt.Undivided := by
  have hdots : Yields Cursor.SlashFree
      (many (nextIs fun tok => tok == .symbol "." || tok == .symbol "...") dots) fun _ => True :=
    yields_many_true yields_nextIs yields_dots
  mvcgen [importFrom, hdots]
  all_goals simp_all

@[spec]
theorem yields_typeParameter (h : self.Undivided) :
    Yields Cursor.SlashFree (typeParameter self) fun _ => True := by
  mvcgen [typeParameter]
  all_goals simp_all

@[spec]
theorem yields_typeParameters (h : self.Undivided) :
    Yields Cursor.SlashFree (typeParameters self) fun _ => True := by
  have hitems : Yields Cursor.SlashFree (items startsTypeParameter (typeParameter self))
      fun _ => True :=
    yields_items_true (yields_typeParameter h)
  mvcgen [typeParameters, hitems]
  all_goals simp_all

@[spec]
theorem yields_typeAlias (h : self.Undivided) :
    Yields Cursor.SlashFree (typeAlias self) Stmt.Undivided := by
  mvcgen [typeAlias]
  all_goals simp_all

/-! ### Other simple statements -/

@[spec]
theorem yields_raiseStatement (h : self.Undivided) :
    Yields Cursor.SlashFree (raiseStatement self) Stmt.Undivided := by
  mvcgen [raiseStatement]
  all_goals simp_all

@[spec]
theorem yields_assertion (h : self.Undivided) :
    Yields Cursor.SlashFree (assertion self) Stmt.Undivided := by
  mvcgen [assertion]
  all_goals simp_all

@[spec]
theorem yields_simpleStatement (h : self.Undivided) :
    Yields Cursor.SlashFree (simpleStatement self) Stmt.Undivided := by
  have hnames : Yields Cursor.SlashFree (commaList identifier) fun _ => True :=
    yields_commaList_true yields_identifier
  mvcgen [simpleStatement, hnames]
  all_goals simp_all

@[spec]
theorem yields_iterate_line {step : List Stmt × Bool → Rule (Option (List Stmt × Bool))}
    {state : List Stmt × Bool} (hstate : ∀ statement ∈ state.1, statement.Undivided)
    (hstep : ∀ state : List Stmt × Bool, (∀ statement ∈ state.1, statement.Undivided) →
      Yields Cursor.SlashFree (step state) fun state? =>
        ∀ state ∈ state?, ∀ statement ∈ state.1, statement.Undivided) :
    Yields Cursor.SlashFree (iterate step state) fun state => ∀ statement ∈ state.1,
      statement.Undivided :=
  yields_iterate (fun state : List Stmt × Bool => ∀ statement ∈ state.1, statement.Undivided)
    hstate hstep

@[spec]
theorem yields_simpleLine (h : self.Undivided) :
    Yields Cursor.SlashFree (simpleLine self) fun statements =>
      ∀ statement ∈ statements, statement.Undivided := by
  mvcgen [simpleLine]
  all_goals simp_all

/-! ### Blocks -/

/-- The rules inside a compound statement find no division without a slash. -/
structure Inside.Undivided (inside : Inside) : Prop where
  expr : inside.expr.Undivided
  statement : Yields Cursor.SlashFree inside.statement fun statements =>
    ∀ statement ∈ statements, statement.Undivided

variable {inside : Inside}

@[spec]
theorem yields_indent : Yields Cursor.SlashFree indent fun _ => True := by
  mvcgen [indent]
  all_goals simp_all

theorem yields_block {α : Type} {P : α → Prop} {item : Rule α}
    (hitem : Yields Cursor.SlashFree item P) :
    Yields Cursor.SlashFree (block item) fun items => ∀ item ∈ items, P item := by
  have hmore : Yields Cursor.SlashFree (do return !(← next .dedent)) fun _ => True := by
    mvcgen
  have hmany := yields_many hmore hitem
  mvcgen [block, hitem, hmany]
  all_goals simp_all

@[spec]
theorem yields_suite (h : inside.Undivided) :
    Yields Cursor.SlashFree (suite inside) fun statements =>
      ∀ statement ∈ statements, statement.Undivided := by
  have hexpr := h.expr
  have hblock : Yields Cursor.SlashFree (block inside.statement) _ := yields_block h.statement
  mvcgen [suite, hblock]
  all_goals simp_all
  next hstatements _ _ => exact fun statement line hline => hstatements.2 line hline statement

@[spec]
theorem yields_suiteAfter (h : inside.Undivided) {word : String} :
    Yields Cursor.SlashFree (suiteAfter inside word) fun statements =>
      ∀ statement ∈ statements, statement.Undivided := by
  mvcgen [suiteAfter]
  all_goals simp_all

/-! ### Conditions and loops -/

/-- The condition and the block of a branch hold no division. -/
def BranchUndivided (guard : Nat × Expr × List Stmt) : Prop :=
  guard.2.1.Undivided ∧ ∀ statement ∈ guard.2.2, statement.Undivided

@[spec]
theorem yields_guarded (h : inside.Undivided) :
    Yields Cursor.SlashFree (guarded inside) BranchUndivided := by
  have hexpr := h.expr
  mvcgen [guarded]
  all_goals simp_all [BranchUndivided]

@[simp]
theorem undivided_branches {guards : List (Nat × Expr × List Stmt)} {orelse : List Stmt} :
    (∀ statement ∈ branches guards orelse, NoDivision statement.sites) ↔
      (∀ guard ∈ guards, BranchUndivided guard) ∧
        ∀ statement ∈ orelse, NoDivision statement.sites := by
  induction guards with
  | nil => simp [branches]
  | cons guard rest ih =>
    simp only [branches, List.forall_mem_singleton, Stmt.sites, noDivision_append,
      noDivision_sitesOf, ih, List.forall_mem_cons, and_assoc]
    exact and_assoc.symm

@[spec]
theorem yields_ifStatement (h : inside.Undivided) :
    Yields Cursor.SlashFree (ifStatement inside) fun statements =>
      ∀ statement ∈ statements, statement.Undivided := by
  have hmany : Yields Cursor.SlashFree (many (nextKeyword "elif") (guarded inside)) _ :=
    yields_many yields_nextKeyword (yields_guarded h)
  mvcgen [ifStatement, hmany]
  all_goals simp_all

@[spec]
theorem yields_whileLoop (h : inside.Undivided) :
    Yields Cursor.SlashFree (whileLoop inside) Stmt.Undivided := by
  mvcgen [whileLoop]
  all_goals simp_all [BranchUndivided]

@[spec]
theorem yields_forLoop (h : inside.Undivided) {start : Nat} :
    Yields Cursor.SlashFree (forLoop inside start) Stmt.Undivided := by
  have hexpr := h.expr
  mvcgen [forLoop]
  all_goals simp_all

/-! ### Exceptions -/

@[spec]
theorem yields_handled (h : self.Undivided) {starred : Bool} :
    Yields Cursor.SlashFree (handled self starred) fun expr? => ∀ expr ∈ expr?, expr.Undivided := by
  mvcgen [handled]
  all_goals simp_all

@[spec]
theorem yields_handler (h : inside.Undivided) {starred : Bool} :
    Yields Cursor.SlashFree (handler inside starred) Handler.Undivided := by
  have hexpr := h.expr
  mvcgen [handler]
  all_goals simp_all

@[spec]
theorem yields_takesGroups : Yields Cursor.SlashFree takesGroups fun _ => True := by
  mvcgen [takesGroups]
  all_goals simp_all

@[spec]
theorem yields_tryStatement (h : inside.Undivided) :
    Yields Cursor.SlashFree (tryStatement inside) Stmt.Undivided := by
  have hmany : ∀ starred,
      Yields Cursor.SlashFree (many (nextKeyword "except") (handler inside starred)) _ :=
    fun _ => yields_many yields_nextKeyword (yields_handler h)
  mvcgen [tryStatement, hmany]
  all_goals simp_all

/-! ### Context managers -/

@[spec]
theorem yields_withItem (h : self.Undivided) :
    Yields Cursor.SlashFree (withItem self) WithItem.Undivided := by
  mvcgen [withItem]
  all_goals simp_all

theorem yields_parenthesizedItems (h : self.Undivided) :
    Yields Cursor.SlashFree (parenthesizedItems self) fun items => ∀ item ∈ items,
      item.Undivided := by
  have hitems : Yields Cursor.SlashFree (items startsTest (withItem self)) _ :=
    yields_items (yields_withItem h)
  mvcgen [parenthesizedItems, hitems]
  all_goals simp_all

@[spec]
theorem yields_withItems (h : self.Undivided) :
    Yields Cursor.SlashFree (withItems self) fun items => ∀ item ∈ items, item.Undivided := by
  have hlist := yields_commaList (yields_withItem h)
  have heither := yields_orElse (yields_parenthesizedItems h) hlist
  mvcgen [withItems, hlist, heither]
  all_goals simp_all

@[spec]
theorem yields_withStatement (h : inside.Undivided) {start : Nat} :
    Yields Cursor.SlashFree (withStatement inside start) Stmt.Undivided := by
  have hexpr := h.expr
  mvcgen [withStatement]
  all_goals simp_all

/-! ### Definitions -/

@[spec]
theorem yields_function (h : inside.Undivided) {decorators : List Expr}
    (hdecorators : ∀ expr ∈ decorators, expr.Undivided) {start : Nat} :
    Yields Cursor.SlashFree (function inside decorators start) Stmt.Undivided := by
  have hexpr := h.expr
  mvcgen [function]
  all_goals simp_all

@[spec]
theorem yields_classDef (h : inside.Undivided) {decorators : List Expr}
    (hdecorators : ∀ expr ∈ decorators, expr.Undivided) :
    Yields Cursor.SlashFree (classDef inside decorators) Stmt.Undivided := by
  have hexpr := h.expr
  mvcgen [classDef]
  all_goals simp_all

@[spec]
theorem yields_decorator (h : self.Undivided) :
    Yields Cursor.SlashFree (decorator self) Expr.Undivided := by
  mvcgen [decorator]
  all_goals simp_all

@[spec]
theorem yields_definition (h : inside.Undivided) :
    Yields Cursor.SlashFree (definition inside) Stmt.Undivided := by
  have hexpr := h.expr
  mvcgen [definition]
  all_goals simp_all

@[spec]
theorem yields_asyncStatement (h : inside.Undivided) :
    Yields Cursor.SlashFree (asyncStatement inside) Stmt.Undivided := by
  mvcgen [asyncStatement]
  all_goals simp_all

/-! ### Case distinctions -/

@[spec]
theorem yields_matchCase (h : inside.Undivided) :
    Yields Cursor.SlashFree (matchCase inside) MatchCase.Undivided := by
  have hexpr := h.expr
  mvcgen [matchCase]
  all_goals simp_all

@[spec]
theorem yields_matchStatement (h : inside.Undivided) :
    Yields Cursor.SlashFree (matchStatement inside) Stmt.Undivided := by
  have hexpr := h.expr
  have hblock : Yields Cursor.SlashFree (block (matchCase inside)) _ :=
    yields_block (yields_matchCase h)
  mvcgen [matchStatement, hblock]
  all_goals simp_all +zetaDelta

/-! ### Statements together -/

theorem yields_compound (h : inside.Undivided) :
    Yields Cursor.SlashFree (compound inside) fun statements? =>
      ∀ statements ∈ statements?, ∀ statement ∈ statements, statement.Undivided := by
  mvcgen [compound]
  all_goals simp_all

@[spec]
theorem yields_statement (h : self.Undivided) {depth level : Nat} :
    Yields Cursor.SlashFree (statement self depth level) fun statements =>
      ∀ statement ∈ statements, statement.Undivided := by
  induction level with
  | zero => exact yields_unexpected.mono fun _ => False.elim
  | succ level ih =>
    have hcompound : Yields Cursor.SlashFree
        (compound ⟨self, depth, statement self depth level⟩) _ :=
      yields_compound ⟨h, ih⟩
    change Yields Cursor.SlashFree (compound ⟨self, depth, statement self depth level⟩ >>= _) _
    mvcgen [hcompound]
    all_goals simp_all

theorem yields_file (h : self.Undivided) {depth : Nat} :
    Yields Cursor.SlashFree (file self depth) fun statements =>
      ∀ statement ∈ statements, statement.Undivided := by
  have hmore : Yields Cursor.SlashFree (do return (← peek).isSome) fun _ => True := by
    mvcgen
    all_goals simp_all
  have hitem : Yields Cursor.SlashFree
      (do if ← accept .newline then return [] else statement self depth depth) fun statements =>
        ∀ statement ∈ statements, statement.Undivided := by
    mvcgen
    all_goals simp_all
  have hmany := yields_many hmore hitem
  mvcgen [file, hmany]
  all_goals simp_all
  next hstatements => exact fun statement line hline => hstatements.2 line hline statement

end Grammar

/-- A source without slashes divides nothing. -/
theorem noDivision_of_parseModule [Text.CharNames] {source : List Char} (hsource : '/' ∉ source)
    {statements : List Stmt} (h : parseModule source = .ok statements) :
    NoDivision (sitesOf statements) := by
  have hrules := Grammar.undivided_rules Text.CharNames.isName (source.length + 2)
  unfold parseModule at h
  obtain ⟨result, hrun, rfl⟩ := exists_of_map_eq_ok h
  rw [noDivision_sitesOf]
  exact (yields_iff.1 (Grammar.yields_file hrules) _ _ _ (slashFree_scanModule hsource) hrun).2

end PythonLint
