import PythonLint.Proofs.Grammar.Statement
import PythonLint.Proofs.PassSeparation

/-!
# Where the version of a source matters

The version of a source says whether `print` and `exec` are statements of their own, and whether a
division may round. Brackets after those words are grouped in two ways, print statements are masked
before the source is parsed, and divisions are reported. A source that has neither the words as
names nor a slash is linted alike for both versions: no bracket follows such a word, nothing is
masked, and nothing is divided.

Main statements: `treeOfStream_congr`, `maskedSource_eq`, `checkSites_congr`,
`lintSource_congr_version`.
-/

namespace PythonLint

open Ignore (IgnoreFilter)

/-- The token is no name that is a statement of its own in some version. -/
def Token.IsPlain (token : Token) : Prop :=
  token.kind = .name → token.lexeme ≠ "print" ∧ token.lexeme ≠ "exec"

/-! ### The tree of brackets -/

def Node.IsPlain : Node → Prop
  | leaf _ token => token.IsPlain
  | branch _ _ _ _ _ => True

theorem Node.isPlain_ofChildren (kind : BranchKind) (children : List Node) :
    (Node.ofChildren kind children).IsPlain := by
  unfold Node.ofChildren
  split <;> exact trivial

section Dialects

variable (first second : Dialect)

theorem isStatement_eq_false (dialect : Dialect) {token : Token} (h : token.IsPlain)
    (hkind : token.kind = .name) : dialect.isStatement token.lexeme = false := by
  obtain ⟨hprint, hexec⟩ := h hkind
  simp [Dialect.isStatement, hprint, hexec]

theorem closesExpression_congr {node : Node} (h : node.IsPlain) (atStart : Bool) :
    node.closesExpression first atStart = node.closesExpression second atStart := by
  cases node with
  | branch => rfl
  | leaf before token =>
    change token.closesExpression first atStart = token.closesExpression second atStart
    unfold Token.closesExpression
    split
    · next hkind => rw [isStatement_eq_false first h hkind, isStatement_eq_false second h hkind]
    all_goals rfl

theorem classify_congr {siblings : List Node} (h : ∀ node ∈ siblings, node.IsPlain)
    (outermost : Bool) (opening : String) (contents : List Node) :
    classify first outermost opening siblings contents =
      classify second outermost opening siblings contents := by
  -- The dialect is asked about the node right before the bracket only.
  have htrailer : ∀ atStart, siblings.head?.any (Node.closesExpression first atStart) =
      siblings.head?.any (Node.closesExpression second atStart) := by
    intro atStart
    cases siblings with
    | nil => rfl
    | cons node rest =>
      exact closesExpression_congr first second (h node List.mem_cons_self) atStart
  simp only [classify, htrailer]

/-- The nodes of the innermost group, and those before every open bracket, are plain. -/
structure Builder.IsPlain (builder : Builder) : Prop where
  nodes : ∀ node ∈ builder.nodes, node.IsPlain
  siblings : ∀ group ∈ builder.enclosing, ∀ node ∈ group.siblings, node.IsPlain

namespace Builder

variable {builder after : Builder} {item : String × Token}

theorem close_congr (hbuilder : builder.IsPlain) (before : String) (token : Token) :
    builder.close first before token = builder.close second before token := by
  unfold close
  cases henclosing : builder.enclosing with
  | nil => rfl
  | cons group outer =>
    have hsiblings := hbuilder.siblings group (henclosing ▸ List.mem_cons_self)
    simp only [classify_congr first second hsiblings]

theorem isPlain_close {before : String} {token : Token} (hbuilder : builder.IsPlain)
    (h : builder.close first before token = .ok after) : after.IsPlain := by
  unfold close at h
  split at h
  · cases h
  · next group outer henclosing =>
    simp only at h
    split at h
    · cases h
      have hsiblings := hbuilder.siblings
      rw [henclosing, List.forall_mem_cons] at hsiblings
      exact ⟨List.forall_mem_cons.2 ⟨Node.isPlain_ofChildren _ _, hsiblings.1⟩, hsiblings.2⟩
    · cases h

theorem isPlain_endStatement (hbuilder : builder.IsPlain) (nodes : List Node) :
    (builder.endStatement nodes).IsPlain := by
  unfold endStatement
  split
  · exact hbuilder
  · exact ⟨List.forall_mem_nil _, hbuilder.siblings⟩

theorem isPlain_endLine {before : String} {token : Token} (hbuilder : builder.IsPlain)
    (h : builder.endLine before token = .ok after) : after.IsPlain := by
  unfold endLine at h
  split at h
  · cases h
  · simp only at h
    split at h
    · cases h
      have hended := isPlain_endStatement hbuilder builder.nodes
      exact ⟨hended.nodes, hended.siblings⟩
    · cases h
      exact isPlain_endStatement hbuilder _

theorem push_congr (hbuilder : builder.IsPlain) :
    builder.push first item = builder.push second item := by
  unfold push
  simp only [close_congr first second hbuilder]

theorem isPlain_push (hbuilder : builder.IsPlain) (hitem : item.2.IsPlain)
    (h : builder.push first item = .ok after) : after.IsPlain := by
  unfold push at h
  simp only at h
  split at h
  · cases h
    exact ⟨List.forall_mem_nil _, List.forall_mem_cons.2 ⟨hbuilder.nodes, hbuilder.siblings⟩⟩
  split at h
  · exact isPlain_close first hbuilder h
  split at h
  · exact isPlain_endLine hbuilder h
  · cases h
    exact ⟨List.forall_mem_cons.2 ⟨hitem, hbuilder.nodes⟩, hbuilder.siblings⟩

theorem foldlM_push_congr (hbuilder : builder.IsPlain) {items : List (String × Token)}
    (hitems : ∀ item ∈ items, item.2.IsPlain) :
    items.foldlM (push first) builder = items.foldlM (push second) builder := by
  induction items generalizing builder with
  | nil => rfl
  | cons item rest ih =>
    rw [List.forall_mem_cons] at hitems
    rw [List.foldlM_cons, List.foldlM_cons, ← push_congr first second hbuilder]
    cases hpush : builder.push first item with
    | error error => rfl
    | ok after => exact ih (isPlain_push first hbuilder hitems.1 hpush) hitems.2

end Builder

theorem isPlain_of_mem_attachText {text : List Char} {last : Location} {tokens : List Token}
    (h : ∀ token ∈ tokens, token.IsPlain) :
    ∀ item ∈ attachText text last tokens, item.2.IsPlain := by
  induction tokens generalizing last with
  | nil => exact fun item hitem => by cases hitem
  | cons token rest ih =>
    rw [List.forall_mem_cons] at h
    rw [attachText, List.forall_mem_cons]
    exact ⟨h.1, ih h.2⟩

/-- Plain tokens form the same tree in all dialects. -/
theorem treeOfStream_congr (text : List Char) {stream : TokenStream}
    (h : ∀ token ∈ stream.tokens, token.IsPlain) :
    treeOfStream first text stream = treeOfStream second text stream := by
  have hempty : Builder.empty.IsPlain := ⟨List.forall_mem_nil _, List.forall_mem_nil _⟩
  have hitems : ∀ item ∈ attachText text ⟨1, 0⟩
    (stream.tokens.filter fun token => !token.kind.isBlockMark),
      item.2.IsPlain :=
    isPlain_of_mem_attachText fun token htoken => h token (List.mem_filter.1 htoken).1
  simp only [treeOfStream, treeOfTokens, Builder.foldlM_push_congr first second hempty hitems]

end Dialects

/-! ### The syntax tree -/

theorem printSpansFrom_eq_nil (text : List Char) {state : PrintState} (hstate : state.opened = none)
    {tokens : List Token} (h : ∀ token ∈ tokens, token.IsPlain) :
    printSpansFrom text state tokens = [] := by
  induction tokens generalizing state with
  | nil => rfl
  | cons token rest ih =>
    rw [List.forall_mem_cons] at h
    have hname : token.isName "print" = false := by
      unfold Token.isName
      by_cases hkind : token.kind = .name
      · simp [(h.1 hkind).1]
      · simp [hkind]
    rw [printSpansFrom]
    split
    · simp only [hstate]
      exact ih rfl h.2
    · -- No token opens a statement that would have to be masked.
      refine ih ?_ h.2
      unfold PrintState.after
      split
      · exact hstate
      split
      · exact hstate
      · simp [hname, hstate]

/-- Without a name `print` there is no print statement, and nothing is masked. -/
theorem maskedSource_eq (version : Version) (text : List Char) {tokens : List Token}
    (h : ∀ token ∈ tokens, token.IsPlain) : maskedSource version text tokens = .ok (text, []) := by
  have hspans : printSpans text tokens = [] := printSpansFrom_eq_nil text rfl h
  have hmask : maskInPlace? (Text.encodeUtf8 text) [] = some (text, []) := by
    rw [maskInPlace?, List.foldlM_nil, Option.pure_def, Option.bind_eq_bind, Option.bind_some,
      Text.decodeUtf8_encodeUtf8]
    rfl
  unfold maskedSource
  split
  · rw [hspans, hmask]
  · rfl

theorem siteWarnings_congr (context : SiteContext) (rounds others : Bool) {site : Site}
    (h : ∀ start, site ≠ .binary start .divide) :
    siteWarnings context rounds site = siteWarnings context others site := by
  unfold siteWarnings
  split
  case h_7 start op =>
    have hop : op ≠ .divide := fun hdivide => h start (by rw [hdivide])
    simp only [hop, false_and]
  all_goals rfl

/-- Where nothing is divided it does not matter whether a division may round. -/
theorem checkSites_congr (context : SiteContext) (rounds others : Bool) {sites : List Site}
    (h : NoDivision sites) : checkSites context rounds sites = checkSites context others sites := by
  induction sites generalizing rounds others with
  | nil => rfl
  | cons site rest ih =>
    rw [noDivision_cons] at h
    rw [checkSites, checkSites, siteWarnings_congr context rounds others h.1]
    exact congrArg _ (ih _ _ h.2)

theorem checkSyntax_congr [Text.CharNames] (first second : Version) (reporter : Reporter)
    {text : List Char} {tokens : List Token} (hslash : '/' ∉ text)
    (htokens : ∀ token ∈ tokens, token.IsPlain) :
    checkSyntax first reporter text tokens = checkSyntax second reporter text tokens := by
  simp only [checkSyntax, maskedSource_eq _ text htokens, bind, Except.bind]
  split
  · rfl
  · next statements hparse =>
    exact congrArg Except.ok (checkSites_congr _ _ _ (noDivision_of_parseModule hslash hparse))

/-! ### All passes -/

theorem runPass_congr [Text.CharNames] (first second : Version) {source : Source}
    {stream : TokenStream} (hslash : '/' ∉ source.text)
    (htokens : ∀ token ∈ stream.tokens, token.IsPlain) (pass : Pass) :
    runPass first source stream pass = runPass second source stream pass := by
  cases herror : stream.error with
  | some error =>
    -- Without all tokens a pass fails before it asks for the version.
    by_cases hpass : pass = .line
    · rw [hpass]
      rfl
    · rw [runPass_of_error herror hpass, runPass_of_error herror hpass]
  | none =>
    cases pass with
    | line => rfl
    | token => rw [runPass_token herror, runPass_token herror]
    | tree =>
      rw [runPass_tree herror, runPass_tree herror]
      exact congrArg _ (treeOfStream_congr _ _ _ htokens)
    | ast =>
      rw [runPass_ast herror, runPass_ast herror]
      exact checkSyntax_congr first second _ hslash htokens

/-- A source without a slash and without the names `print` and `exec` is linted alike for both
versions. -/
theorem lintSource_congr_version [Text.CharNames] (enabled : List Pass) (filter : IgnoreFilter)
    {source : Source} (hslash : '/' ∉ source.text)
    (hnames : ∀ token ∈ (tokenize source.text).tokens,
      token.kind = .name → token.lexeme ≠ "print" ∧ token.lexeme ≠ "exec") :
    lintSource ⟨.python2, enabled⟩ filter source =
      lintSource ⟨.python3, enabled⟩ filter source := by
  have hpass : passResult .python2 filter source (tokenize source.text) =
      passResult .python3 filter source (tokenize source.text) := by
    funext pass
    unfold passResult
    rw [runPass_congr .python2 .python3 hslash hnames pass]
  unfold lintSource
  simp only [hpass]
  rfl

/-- Names that only begin like the words, with blanks and brackets after them, and an import of two
modules. -/
theorem lintSource_congr_version_call :
    let source := Source.ofText "m.py" "import os, sys\nexecute (printer [0] % 2)\n".toList
    '/' ∉ source.text ∧
      (∀ token ∈ (tokenize source.text).tokens,
        token.kind = .name → token.lexeme ≠ "print" ∧ token.lexeme ≠ "exec") ∧
      lintSource ⟨.python2, Pass.all⟩ .allowAll source =
        lintSource ⟨.python3, Pass.all⟩ .allowAll source ∧
      (lintSource ⟨.python2, Pass.all⟩ .allowAll source).warnings.length = 3 := by
  intro source
  have hslash : '/' ∉ source.text := by decide +kernel
  have hnames : ∀ token ∈ (tokenize source.text).tokens,
      token.kind = .name → token.lexeme ≠ "print" ∧ token.lexeme ≠ "exec" := by decide +kernel
  exact ⟨hslash, hnames,
    lintSource_congr_version Pass.all .allowAll hslash hnames, by decide +kernel⟩

end PythonLint
