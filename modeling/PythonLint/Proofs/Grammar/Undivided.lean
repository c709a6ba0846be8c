import PythonLint.Ast.Sites
import PythonLint.Proofs.Grammar.Yields
import PythonLint.Proofs.Result

/-!
# Trees without division, and the fields of strings

A tree holds no division when none of its sites is one. The parts of a tree that the checks do not
look at, such as format specifications, may hold any.

The expressions in a format string are read from the characters of its content. So the reading of a
string without slashes hands on texts without slashes, whatever its escapes and specifications are.

Main statements: `Reading.yields_fieldStep`, `Reading.yields_field`, `undivided_runExpr`.
-/

namespace PythonLint

open Std.Do

variable {raw : Bool} {value : Expr} {read : FieldReader} {run : List (Nat × Literal)} {start : Nat}
variable {names : Text.NameTable}

set_option mvcgen.warning false

/-! ### Trees without division -/

def NoDivision (sites : List Site) : Prop :=
  ∀ start, .binary start .divide ∉ sites

@[simp]
theorem noDivision_nil : NoDivision [] := by
  simp [NoDivision]

@[simp]
theorem noDivision_cons {site : Site} {sites : List Site} :
    NoDivision (site :: sites) ↔ (∀ start, site ≠ .binary start .divide) ∧ NoDivision sites := by
  simp only [NoDivision, List.mem_cons, not_or, forall_and, ne_comm, Ne]

@[simp]
theorem noDivision_append {first second : List Site} :
    NoDivision (first ++ second) ↔ NoDivision first ∧ NoDivision second := by
  simp only [NoDivision, List.mem_append, not_or, forall_and]

attribute [simp] Expr.sites

@[simp]
theorem noDivision_optionSites {expr? : Option Expr} :
    NoDivision (optionSites expr?) ↔ ∀ expr ∈ expr?, NoDivision expr.sites := by
  cases expr? <;> simp [optionSites]

@[simp]
theorem noDivision_exprSites {exprs : List Expr} :
    NoDivision (exprSites exprs) ↔ ∀ expr ∈ exprs, NoDivision expr.sites := by
  induction exprs with
  | nil => simp [exprSites]
  | cons expr rest ih => simp [exprSites, ih]

/-- The expression of a field holds no division. Its format specification is not looked at. -/
def Field.Undivided : Field → Prop
  | mk value _ => NoDivision value.sites

@[simp]
theorem Field.undivided_mk {spec : List Field} :
    (mk value spec).Undivided ↔ NoDivision value.sites :=
  Iff.rfl

@[simp]
theorem noDivision_fieldSites {fields : List Field} :
    NoDivision (fieldSites fields) ↔ ∀ field ∈ fields, field.Undivided := by
  induction fields with
  | nil => simp [fieldSites]
  | cons field rest ih =>
    cases field
    simp [fieldSites, ih]

/-- The type and the default of a parameter hold no division. -/
def Param.Undivided : Param → Prop
  | mk _ _ _ type byDefault =>
    (∀ expr ∈ type, NoDivision expr.sites) ∧ ∀ expr ∈ byDefault, NoDivision expr.sites

@[simp]
theorem Param.undivided_mk {kind : ParamKind} {id : String} {type byDefault : Option Expr} :
    (mk kind start id type byDefault).Undivided ↔
      (∀ expr ∈ type, NoDivision expr.sites) ∧ ∀ expr ∈ byDefault, NoDivision expr.sites :=
  Iff.rfl

@[simp]
theorem noDivision_paramSites {params : List Param} :
    NoDivision (paramSites params) ↔ ∀ param ∈ params, param.Undivided := by
  induction params with
  | nil => simp [paramSites]
  | cons param rest ih =>
    cases param
    simp [paramSites, ih, and_assoc]

/-- The value of an argument holds no division. -/
def KeywordArg.Undivided : KeywordArg → Prop
  | mk _ value => NoDivision value.sites

@[simp]
theorem KeywordArg.undivided_mk {id : Option String} :
    (mk id value).Undivided ↔ NoDivision value.sites :=
  Iff.rfl

@[simp]
theorem noDivision_keywordSites {keywords : List KeywordArg} :
    NoDivision (keywordSites keywords) ↔ ∀ keyword ∈ keywords, keyword.Undivided := by
  induction keywords with
  | nil => simp [keywordSites]
  | cons keyword rest ih =>
    cases keyword
    simp [keywordSites, ih]

/-- The expressions of an entry hold no division. -/
def Entry.Undivided : Entry → Prop
  | pair key value => NoDivision key.sites ∧ NoDivision value.sites
  | unpack value => NoDivision value.sites

@[simp]
theorem Entry.undivided_pair {key : Expr} :
    (pair key value).Undivided ↔ NoDivision key.sites ∧ NoDivision value.sites :=
  Iff.rfl

@[simp]
theorem Entry.undivided_unpack : (unpack value).Undivided ↔ NoDivision value.sites :=
  Iff.rfl

@[simp]
theorem noDivision_entrySites {entries : List Entry} :
    NoDivision (entrySites entries) ↔ ∀ entry ∈ entries, entry.Undivided := by
  induction entries with
  | nil => simp [entrySites]
  | cons entry rest ih =>
    cases entry <;> simp [entrySites, ih, and_assoc]

/-- The expressions of a clause hold no division. -/
def Clause.Undivided : Clause → Prop
  | mk target source conditions =>
    NoDivision target.sites ∧ NoDivision source.sites ∧ ∀ expr ∈ conditions, NoDivision expr.sites

@[simp]
theorem Clause.undivided_mk {target source : Expr} {conditions : List Expr} :
    (mk target source conditions).Undivided ↔
      NoDivision target.sites ∧ NoDivision source.sites ∧ ∀ expr ∈ conditions,
        NoDivision expr.sites :=
  Iff.rfl

@[simp]
theorem noDivision_clauseSites {clauses : List Clause} :
    NoDivision (clauseSites clauses) ↔ ∀ clause ∈ clauses, clause.Undivided := by
  induction clauses with
  | nil => simp [clauseSites]
  | cons clause rest ih =>
    cases clause
    simp [clauseSites, ih, and_assoc]

/-- The expression holds no division. -/
@[simp]
def Expr.Undivided (expr : Expr) : Prop :=
  NoDivision expr.sites

/-- The reader finds no division in the text of a field without a slash. -/
def FieldReader.Undivides (read : FieldReader) : Prop :=
  ∀ text offset value, '/' ∉ text → read text offset = .ok value → value.Undivided

def Content.SlashFree (content : Content) : Prop :=
  '/' ∉ content.rest

namespace Reading

variable {state : FieldState}

variable {α : Type}

/-! ### Characters -/

@[spec]
theorem yields_peek : Yields Content.SlashFree peek fun c? => ∀ c ∈ c?, '/' ≠ c := by
  rw [yields_iff]
  rintro content c? after hcontent ⟨⟩
  refine ⟨hcontent, fun c h hslash => hcontent ?_⟩
  rw [hslash]
  exact List.mem_of_head? h

@[spec]
theorem yields_next : Yields Content.SlashFree next fun c? => ∀ c ∈ c?, '/' ≠ c := by
  rw [yields_iff]
  intro content c? after hcontent hrun
  unfold next at hrun
  split at hrun
  · cases hrun
    exact ⟨hcontent, fun c h => by cases h⟩
  · next first rest hrest =>
    cases hrun
    rw [Content.SlashFree, hrest, List.mem_cons, not_or] at hcontent
    refine ⟨hcontent.2, fun c h => ?_⟩
    cases h
    exact hcontent.1

@[spec]
theorem yields_position : Yields Content.SlashFree position fun _ => True := by
  rw [yields_iff]
  rintro content offset after hcontent ⟨⟩
  exact ⟨hcontent, trivial⟩

@[spec]
theorem yields_failAt {fault : Fault} {offset : Nat} :
    Yields Content.SlashFree (failAt fault offset : Reading α) fun _ => False := by
  rw [yields_iff]
  intro content value after _ hrun
  cases hrun

@[spec]
theorem yields_fail {fault : Fault} :
    Yields Content.SlashFree (fail fault : Reading α) fun _ => False := by
  mvcgen [fail]
  all_goals simp_all

@[spec]
theorem yields_takeWhile {p : Char → Bool} {limit : Nat} :
    Yields Content.SlashFree (takeWhile p limit) fun _ => True := by
  rw [yields_iff]
  rintro content taken after hcontent ⟨⟩
  exact ⟨fun h => hcontent (List.mem_of_mem_drop h), trivial⟩

@[spec]
theorem yields_through {stop : Char} {missing : Fault} :
    Yields Content.SlashFree (through stop missing) fun taken => '/' ∉ taken := by
  rw [yields_iff]
  intro content taken after hcontent hrun
  unfold through at hrun
  simp only at hrun
  have htaken : '/' ∉ content.rest.takeWhile (· != stop) := fun h =>
    hcontent ((List.takeWhile_prefix _).subset h)
  split at hrun
  · cases hrun
  · next c rest hrest =>
    cases hrun
    have hleft : '/' ∉ c :: rest := fun h => hcontent (List.mem_of_mem_drop (hrest ▸ h))
    rw [List.mem_cons, not_or] at hleft
    refine ⟨hleft.2, ?_⟩
    rw [List.mem_append, List.mem_singleton, not_or]
    exact ⟨htaken, hleft.1⟩

@[inherit_doc yields_loop]
theorem yields_iterate (I : α → Prop) {step : α → Reading (Option α)} {value : α} (hvalue : I value)
    (hstep : ∀ value, I value → Yields Content.SlashFree (step value) fun value? =>
      ∀ value ∈ value?, I value) :
    Yields Content.SlashFree (iterate step value) I := by
  refine yields_loop (fun content => content.rest.length) (fun value content => ?_) hvalue hstep
  rw [iterate]
  rcases step value content with fault | ⟨_ | further, after⟩ <;> rfl

/-! ### Escapes -/

@[spec]
theorem yields_hexEscape {count : Nat} :
    Yields Content.SlashFree (hexEscape count) fun _ => True := by
  mvcgen [hexEscape]
  all_goals simp_all

@[spec]
theorem yields_nameEscape : Yields Content.SlashFree (nameEscape names) fun _ => True := by
  mvcgen [nameEscape]
  all_goals simp_all

@[spec]
theorem yields_escape {bytes : Bool} :
    Yields Content.SlashFree (escape names bytes) fun _ => True := by
  mvcgen [escape]
  all_goals simp_all

@[spec]
theorem yields_backslash : Yields Content.SlashFree (backslash names) fun _ => True := by
  mvcgen [backslash]
  all_goals simp_all

/-! ### Fields -/

/-- No slash stands in what has been read of the expression of a field. -/
def FieldState.SlashFree (state : FieldState) : Prop :=
  '/' ∉ state.expression

theorem yields_closeBracket {closing : Char} (hstate : state.SlashFree) (hclosing : '/' ≠ closing) :
    Yields Content.SlashFree (closeBracket state closing) FieldState.SlashFree := by
  mvcgen [closeBracket]
  all_goals simp_all [FieldState.SlashFree, FieldState.push]

@[spec]
theorem yields_conversion : Yields Content.SlashFree (conversion state) fun _ => True := by
  mvcgen [conversion]
  all_goals simp_all

theorem yields_fieldStep {spec : Reading (List Field)}
    (hspec : Yields Content.SlashFree spec fun _ => True) (hstate : state.SlashFree) :
    Yields Content.SlashFree (fieldStep spec state) fun state? => ∀ state ∈ state?,
      state.SlashFree := by
  mvcgen [fieldStep, hspec, yields_closeBracket]
  all_goals simp_all [FieldState.SlashFree, FieldState.push]

theorem yields_field {spec : Reading (List Field)} (hread : read.Undivides)
    (hspec : Yields Content.SlashFree spec fun _ => True) :
    Yields Content.SlashFree (field read spec) Field.Undivided := by
  have hempty : FieldState.empty.SlashFree := by simp [FieldState.SlashFree, FieldState.empty]
  have hiterate := yields_iterate FieldState.SlashFree hempty fun state => yields_fieldStep hspec
  mvcgen [field, hiterate]
  case vc3.post.success.post.success.h_1 state value hvalue content hstate _ =>
    refine ⟨hstate.1, hread _ _ _ ?_ hvalue⟩
    rw [List.mem_reverse]
    exact hstate.2
  all_goals simp_all

theorem yields_iterate_true {step : α → Reading (Option α)} {value : α}
    (hstep : ∀ value, Yields Content.SlashFree (step value) fun _ => True) :
    Yields Content.SlashFree (iterate step value) fun _ => True :=
  yields_iterate (fun _ => True) trivial fun value _ => (hstep value).mono fun _ _ _ _ => trivial

@[spec]
theorem yields_plainSpec : Yields Content.SlashFree plainSpec fun _ => True := by
  mvcgen [plainSpec, yields_iterate_true]
  all_goals simp_all

@[spec]
theorem yields_innerText (hread : read.Undivides) :
    Yields Content.SlashFree (innerText names read raw) fun _ => True := by
  have hfield := yields_field hread yields_plainSpec
  mvcgen [innerText, yields_iterate_true, hfield]
  all_goals simp_all

@[spec]
theorem yields_spec (hread : read.Undivides) :
    Yields Content.SlashFree (spec names read raw) fun _ => True := by
  mvcgen [spec, yields_iterate_true]
  all_goals simp_all

theorem yields_formatText (hread : read.Undivides) :
    Yields Content.SlashFree (formatText names read raw) fun fields =>
      ∀ field ∈ fields, field.Undivided := by
  have hfield : Yields Content.SlashFree (field read (spec names read raw)) Field.Undivided :=
    yields_field hread (yields_spec hread)
  have hempty : ∀ field ∈ ([] : List Field), field.Undivided := by simp
  unfold formatText
  refine yields_iterate _ hempty fun fields hfields => ?_
  mvcgen [hfield]
  all_goals simp_all [or_imp]

end Reading

theorem undivided_literalFields (hread : read.Undivides) {literal : Literal}
    (hliteral : '/' ∉ literal.content) {fields : List Field}
    (h : literalFields names read start literal = .ok fields) :
    ∀ field ∈ fields, field.Undivided := by
  have hcontent : Content.SlashFree ⟨literal.content, start + literal.openingLength⟩ := hliteral
  unfold literalFields at h
  simp only at h
  split at h
  · obtain ⟨result, hrun, rfl⟩ := exists_of_map_eq_ok h
    exact (yields_iff.1 (Reading.yields_formatText hread) _ _ _ hcontent hrun).2
  all_goals
    obtain ⟨result, -, rfl⟩ := exists_of_map_eq_ok h
    exact List.forall_mem_nil _

def RunSlashFree (run : List (Nat × Literal)) : Prop :=
  ∀ entry ∈ run, '/' ∉ entry.2.content

@[simp]
theorem runSlashFree_nil : RunSlashFree [] := by
  simp [RunSlashFree]

@[simp]
theorem runSlashFree_cons {entry : Nat × Literal} :
    RunSlashFree (entry :: run) ↔ '/' ∉ entry.2.content ∧ RunSlashFree run :=
  List.forall_mem_cons

@[simp]
theorem runSlashFree_reverse : RunSlashFree run.reverse ↔ RunSlashFree run := by
  simp only [RunSlashFree, List.mem_reverse]

theorem undivided_mapM_literalFields (hread : read.Undivides) (hrun : RunSlashFree run)
    {fields : List (List Field)}
    (h : run.mapM (fun entry => literalFields names read entry.1 entry.2) = .ok fields) :
    ∀ field ∈ fields.flatten, field.Undivided := by
  induction run generalizing fields with
  | nil =>
    cases h
    simp
  | cons entry rest ih =>
    rw [runSlashFree_cons] at hrun
    rw [List.mapM_cons] at h
    obtain ⟨first, hfirst, hrest⟩ := exists_of_bind_eq_ok h
    obtain ⟨others, hothers, hfields⟩ := exists_of_bind_eq_ok hrest
    cases hfields
    rw [List.flatten_cons, List.forall_mem_append]
    exact ⟨undivided_literalFields hread hrun.1 hfirst, ih hrun.2 hothers⟩

theorem undivided_runExpr (hread : read.Undivides) (hrun : RunSlashFree run)
    (h : runExpr names read start run = .ok value) : value.Undivided := by
  unfold runExpr at h
  simp only at h
  split at h
  · cases h
  · obtain ⟨fields, hfields, hjoin⟩ := exists_of_bind_eq_ok h
    have hundivided := undivided_mapM_literalFields hread hrun hfields
    split at hjoin
    · cases hjoin
      simpa using hundivided
    · cases hjoin
      simp

end PythonLint
