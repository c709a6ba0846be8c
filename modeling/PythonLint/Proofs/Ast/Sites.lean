import Mathlib.Data.List.Forall2
import PythonLint.Check.Syntax
import PythonLint.Proofs.Ast.Parts
import PythonLint.Proofs.LinePartition

/-!
# The sites of a syntax tree

The checks find their sites by walking through the syntax tree with one rule for each kind of
statement and expression. Rule by rule the walk goes through the children of a part and forgets
none, except those of overlooked parts, so that it finds the site of each part that is seen, once
and in order.

Only expressions are overlooked. The checks about statements therefore miss nothing: a statement
that offends is reported once, however deep in other statements it stands.

Main statements: `Part.sites_eq_filterMap`, `reports_offences`.
-/

namespace PythonLint

/-! ### The walk -/

/-- A walk that goes from one element to the next is made of the walks through the single
elements. -/
theorem eq_flatMap_of_cons {α : Type} {walk : List α → List Site} (hnil : walk [] = [])
    (hcons : ∀ first rest, walk (first :: rest) = walk [first] ++ walk rest) (elements : List α) :
    walk elements = elements.flatMap fun element => walk [element] := by
  induction elements with
  | nil => exact hnil
  | cons first rest ih => rw [hcons, ih, List.flatMap_cons]

theorem optionSites_eq (expr? : Option Expr) :
    optionSites expr? = expr?.toList.flatMap Expr.sites := by
  cases expr? <;> simp [optionSites]

theorem exprSites_eq (exprs : List Expr) : exprSites exprs = exprs.flatMap Expr.sites :=
  (eq_flatMap_of_cons rfl (fun _ _ => by simp [exprSites]) exprs).trans (by simp [exprSites])

theorem sitesOf_eq (body : List Stmt) : sitesOf body = body.flatMap Stmt.sites :=
  (eq_flatMap_of_cons rfl (fun _ _ => by simp [sitesOf]) body).trans (by simp [sitesOf])

theorem fieldSites_eq (fields : List Field) :
    fieldSites fields = fields.flatMap fun field => fieldSites [field] :=
  eq_flatMap_of_cons rfl (by rintro ⟨⟩ _; simp [fieldSites]) fields

theorem paramSites_eq (params : List Param) :
    paramSites params = params.flatMap fun param => paramSites [param] :=
  eq_flatMap_of_cons rfl (by rintro ⟨⟩ _; simp [paramSites]) params

theorem keywordSites_eq (args : List KeywordArg) :
    keywordSites args = args.flatMap fun arg => keywordSites [arg] :=
  eq_flatMap_of_cons rfl (by rintro ⟨⟩ _; simp [keywordSites]) args

theorem entrySites_eq (entries : List Entry) :
    entrySites entries = entries.flatMap fun entry => entrySites [entry] :=
  eq_flatMap_of_cons rfl (by rintro ⟨⟩ _ <;> simp [entrySites]) entries

theorem clauseSites_eq (clauses : List Clause) :
    clauseSites clauses = clauses.flatMap fun clause => clauseSites [clause] :=
  eq_flatMap_of_cons rfl (by rintro ⟨⟩ _; simp [clauseSites]) clauses

theorem handlerSites_eq (handlers : List Handler) :
    handlerSites handlers = handlers.flatMap fun handler => handlerSites [handler] :=
  eq_flatMap_of_cons rfl (by rintro ⟨⟩ _; simp [handlerSites]) handlers

theorem caseSites_eq (blocks : List MatchCase) :
    caseSites blocks = blocks.flatMap fun block => caseSites [block] :=
  eq_flatMap_of_cons rfl (by rintro ⟨⟩ _; simp [caseSites]) blocks

namespace Part

/-- The sites that the walk finds in a part. -/
def sites : Part → List Site
  | module body => sitesOf body
  | stmt inner => inner.sites
  | handler inner => handlerSites [inner]
  | matchCase inner => caseSites [inner]
  | withItem inner => itemSites [inner]
  | expr inner => inner.sites
  | field inner => fieldSites [inner]
  | param inner => paramSites [inner]
  | keyword inner => keywordSites [inner]
  | entry inner => entrySites [inner]
  | clause inner => clauseSites [inner]
  | typeParam _ | pattern _ | spec _ => []

/-- What the checks look at in a part, leaving aside what is inside it. -/
def site? : Part → Option Site
  | stmt (.importNames start names) => some (.importNames start names)
  | stmt (.importFrom start _ source names) => some (.importFrom start source names)
  | stmt (.tryBlock _ _ handlers _ _) => some (.tryBlock handlers)
  | stmt (.global start _) => some (.global start)
  | stmt (.pass start) => some (.pass start)
  | expr (.binary start op _ _) => some (.binary start op)
  | _ => none

/-- What the walk finds in an expression: what it is itself, and what the walk finds in its
parts. -/
theorem sites_expr (inner : Expr) :
    inner.sites = (expr inner).site?.toList ++ (expr inner).children.flatMap sites := by
  cases inner with
  | formatted | dictDisplay | lambda | call | comprehension =>
    simp [Expr.sites, site?, children, ofExpr, List.flatMap_map, sites, exprSites_eq,
      ← fieldSites_eq, ← entrySites_eq, ← paramSites_eq, ← keywordSites_eq, ← clauseSites_eq]
  | _ =>
    simp [Expr.sites, site?, children, ofExpr, List.flatMap_map, sites, optionSites_eq,
      exprSites_eq]

/-- What the walk finds in a statement. Type aliases are not entered, nor type parameters. -/
theorem sites_stmt (inner : Stmt) :
    inner.sites =
      (stmt inner).site?.toList ++ if (stmt inner).isOverlooked then []
        else (stmt inner).children.flatMap sites := by
  cases inner with
  | function | classDef | withBlock | matchBlock | tryBlock =>
    simp [Stmt.sites, site?, children, ofStmt, List.flatMap_map, sites, optionSites_eq,
      exprSites_eq, isOverlooked, sitesOf_eq, ← paramSites_eq, ← keywordSites_eq, ← handlerSites_eq,
      ← caseSites_eq, itemSites]
  | _ =>
    simp [Stmt.sites, site?, children, ofStmt, List.flatMap_map, sites, optionSites_eq,
      exprSites_eq, isOverlooked, sitesOf_eq]

/-- One step of the walk, for a part of any kind. -/
theorem sites_eq (part : Part) :
    part.sites = part.site?.toList ++ if part.isOverlooked then []
      else part.children.flatMap sites := by
  cases part with
  | stmt inner => exact sites_stmt inner
  | expr inner => exact sites_expr inner
  | module body => simp [sites, site?, isOverlooked, children, List.flatMap_map, sitesOf_eq]
  | withItem inner =>
    simp [sites, site?, isOverlooked, children, List.flatMap_map, itemSites, optionSites_eq]
  | typeParam | pattern | spec => rfl
  | handler inner =>
    cases inner
    simp [sites, site?, isOverlooked, children, List.flatMap_map, handlerSites, sitesOf_eq,
      optionSites_eq]
  | matchCase inner =>
    cases inner
    simp [sites, site?, isOverlooked, children, List.flatMap_map, caseSites, sitesOf_eq,
      optionSites_eq]
  | field inner =>
    cases inner
    simp [sites, site?, isOverlooked, children, fieldSites]
  | param inner =>
    cases inner
    simp [sites, site?, isOverlooked, children, List.flatMap_map, paramSites, optionSites_eq]
  | keyword inner =>
    cases inner
    simp [sites, site?, isOverlooked, children, keywordSites]
  | entry inner => cases inner <;> simp [sites, site?, isOverlooked, children, entrySites]
  | clause inner =>
    cases inner
    simp [sites, site?, isOverlooked, children, List.flatMap_map, clauseSites, exprSites_eq]

/-- The walk finds the sites of the parts that are seen, each once and in order. -/
theorem sites_eq_filterMap (part : Part) : part.sites = part.seen.filterMap site? := by
  induction part using Part.induction with
  | step part ih =>
    have hinner : (if part.isOverlooked then [] else part.children.flatMap sites) =
        (if part.isOverlooked then [] else part.children.flatMap seen).filterMap site? := by
      split
      · rfl
      · rw [List.filterMap_flatMap]
        exact List.flatMap_congr ih
    rw [sites_eq, seen_eq, hinner, List.filterMap_cons]
    cases part.site? <;> rfl

end Part

theorem sitesOf_eq_filterMap (body : List Stmt) :
    sitesOf body = (Part.module body).seen.filterMap Part.site? :=
  Part.sites_eq_filterMap (.module body)

/-! ### Warnings about lines -/

namespace SiteContext

/-- The warning is about the logical line of a position: it goes from the start of the first to the
end of the last physical line of that logical line, which has the line of the position among its
own. -/
def ReportsLineOf (context : SiteContext) (start : Nat) (warning : Warning) : Prop :=
  (locationAt context.text start).line ∈ LineRange.mk warning.start.line warning.stop.line ∧
    (warning.start, warning.stop) = context.reporter.lines.span (locationAt context.text start).line

theorem reportsLineOf_warn (context : SiteContext) (kind : WarningKind) (message : String)
    (start : Nat) : context.ReportsLineOf start (context.warn kind message start) :=
  ⟨context.reporter.lines.mem_rangeOf _, rfl⟩

end SiteContext

/-! ### Offending statements -/

def Part.stmt? : Part → Option Stmt
  | stmt inner => some inner
  | _ => none

def statementsIn (body : List Stmt) : List Stmt :=
  (Part.module body).all.filterMap Part.stmt?

def statementKinds : List WarningKind :=
  [.multipleImports, .starImport, .indiscriminateExcept, .globalKeyword, .printStatement]

/-- What a statement is reported for, and where: several names are imported at once, or all names;
the only `except` block names no exception; global variables are used; it stands for a print
statement. -/
def Stmt.offence? (prints : List Nat) : Stmt → Option (WarningKind × Nat)
  | .importNames start names => if 1 < names.length then some (.multipleImports, start) else none
  | .importFrom start _ _ names =>
    if names.map Alias.id = ["*"] then some (.starImport, start) else none
  | .tryBlock _ _ [.mk start none _] _ _ => some (.indiscriminateExcept, start)
  | .global start _ => some (.globalKeyword, start)
  | .pass start => if start ∈ prints then some (.printStatement, start) else none
  | _ => none

/-- Statements are not inside overlooked parts, so that all of them are seen. -/
theorem filterMap_seen_stmt {β : Type} {f : Stmt → Option β}
    (hf : ∀ start id params value, f (.typeAlias start id params value) = none) (part : Part) :
    (part.seen.filterMap fun inner => inner.stmt?.bind f) =
      (part.all.filterMap Part.stmt?).filterMap f := by
  have hself : ∀ part : Part, part.isOverlooked = true → part.stmt?.bind f = none := by
    intro part hover
    unfold Part.isOverlooked at hover
    split at hover
    · exact hf _ _ _ _
    · rfl
    · rfl
    · rfl
    · cases hover
  have hblock : ∀ part : Part, part.isBlock = false → part.stmt? = none := by
    intro part hpart
    cases part with
    | stmt => cases hpart
    | _ => rfl
  rw [List.filterMap_filterMap]
  refine (Part.filterMap_seen_eq_iff hself part).2 fun inner _ hover => ?_
  rw [List.filterMap_eq_nil_iff]
  intro last hlast
  rcases Part.mem_all_iff.1 hlast with rfl | ⟨child, hchild, hlast⟩
  · exact hself _ hover
  · rw [hblock last (Part.isBlock_eq_false_of_isOverlooked hover hchild hlast), Option.bind_none]

/-- The warning is of the kind of an offence and about its logical line. -/
def SiteContext.Reports (context : SiteContext) (offence : WarningKind × Nat) (warning : Warning) :
    Prop :=
  warning.kind = offence.1 ∧ context.ReportsLineOf offence.2 warning

def aboutStatements (warnings : List Warning) : List Warning :=
  warnings.filter fun warning => warning.kind ∈ statementKinds

section

variable (context : SiteContext) (rounds : Bool)

theorem reports_warn {kind : WarningKind} (hkind : kind ∈ statementKinds) (message : String)
    (start : Nat) :
    List.Forall₂ context.Reports [(kind, start)]
      (aboutStatements [context.warn kind message start]) := by
  have hwarning : (context.warn kind message start).kind ∈ statementKinds := hkind
  rw [aboutStatements, List.filter_cons_of_pos (by simpa using hwarning), List.filter_nil]
  exact .cons ⟨rfl, context.reportsLineOf_warn kind message start⟩ .nil

/-- What the checks say about a statement is what it is reported for. -/
theorem reports_stmt (inner : Stmt) :
    List.Forall₂ context.Reports (inner.offence? context.prints).toList
      (aboutStatements ((Part.stmt inner).site?.toList.flatMap (siteWarnings context rounds))) := by
  cases inner with
  | importNames start names =>
    simp only [Stmt.offence?, Part.site?, Option.toList_some, List.flatMap_singleton, siteWarnings]
    split
    · exact reports_warn context (by decide) _ start
    · exact .nil
  | importFrom start level source names =>
    simp only [Stmt.offence?, Part.site?, Option.toList_some, List.flatMap_singleton, siteWarnings]
    split
    · exact reports_warn context (by decide) _ start
    · exact .nil
  | tryBlock start body handlers orelse finish =>
    rcases handlers with _ | ⟨⟨place, _ | type, block⟩, _ | ⟨second, rest⟩⟩
    case cons.none.nil => exact reports_warn context (by decide) _ place
    all_goals exact .nil
  | global start names => exact reports_warn context (by decide) _ start
  | pass start =>
    simp only [Stmt.offence?, Part.site?, Option.toList_some, List.flatMap_singleton, siteWarnings,
      List.contains_iff_mem]
    split
    · exact reports_warn context (by decide) _ start
    · exact .nil
  | _ => exact .nil

theorem reports_part (part : Part) :
    List.Forall₂ context.Reports (part.stmt?.bind (Stmt.offence? context.prints)).toList
      (aboutStatements (part.site?.toList.flatMap (siteWarnings context rounds))) := by
  cases part with
  | stmt inner => exact reports_stmt context rounds inner
  | expr inner =>
    cases inner with
    | binary start op left right =>
      simp only [Part.site?, Option.toList_some, List.flatMap_singleton, siteWarnings]
      split <;> exact .nil
    | _ => exact .nil
  | _ => exact .nil

/-- One statement after the other, whatever a division means before the first. -/
theorem reports_parts (parts : List Part) :
    List.Forall₂ context.Reports (parts.filterMap fun part =>
      part.stmt?.bind (Stmt.offence? context.prints))
      (aboutStatements (checkSites context rounds (parts.filterMap Part.site?))) := by
  induction parts generalizing rounds with
  | nil => exact .nil
  | cons part parts ih =>
    have hpart := reports_part context rounds part
    rw [List.filterMap_eq_flatMap_toList] at ih ⊢
    rw [List.flatMap_cons, List.filterMap_cons]
    cases hsite : part.site? with
    | none =>
      rw [hsite] at hpart
      exact List.rel_append hpart (ih rounds)
    | some site =>
      rw [hsite, Option.toList_some, List.flatMap_singleton] at hpart
      rw [aboutStatements, checkSites, List.filter_append]
      exact List.rel_append hpart (ih _)

end

/-- Whatever the checks know, the warnings about statements are those about the offending statements
of the module at any depth: one for each, in order, of its kind and about the logical line where the
offence starts. -/
theorem reports_offences (context : SiteContext) (rounds : Bool) (body : List Stmt) :
    List.Forall₂ context.Reports ((statementsIn body).filterMap (Stmt.offence? context.prints))
      (aboutStatements (checkSites context rounds (sitesOf body))) := by
  have hseen :=
    filterMap_seen_stmt (f := Stmt.offence? context.prints) (fun _ _ _ _ => rfl) (.module body)
  rw [statementsIn, ← hseen, sitesOf_eq_filterMap]
  exact reports_parts context rounds (Part.module body).seen

end PythonLint
