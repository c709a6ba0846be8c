import PythonLint.Lint
import PythonLint.Proofs.PrintMask.MaskedBytes
import PythonLint.Proofs.TreeText
import Mathlib.Data.List.Basic

/-!
# Passes do not see each other

A pass reads the source and its tokens and nothing that another pass has found, and the filter of an
ignore file is asked about each warning by itself. So a result is put together from what each pass
reports when it runs alone. A pass reports only warnings of its own kinds, so that its part of a
result can also be told from the warnings themselves.

All passes but the one over lines start from the tokens of the source. Where the tokens end with an
error, these passes fail with that error; where they do not, only the grammar can be at fault.

Main statements: `pass_of_mem_runPass`, `warnings_lintSource`, `errors_lintSource`,
`lintSource_separates`, `lintSource_tokenization`.
-/

namespace PythonLint

open Ignore (IgnoreFilter)

variable {error : AnalysisError} {dialect : Dialect} {text : List Char} {tokens : List Token}
    {pass : Pass}
  {reporter : Reporter} {version : Version} {warning : Warning}

/-! ### The warnings of a pass -/

theorem pass_of_mem_longLinesFrom {file : String} {lines : List (List Char)} {number : Nat}
    (h : warning ∈ longLinesFrom file number lines) : warning.kind.pass = .line := by
  induction lines generalizing number with
  | nil => cases h
  | cons line rest ih =>
    rw [longLinesFrom] at h
    split at h
    · rcases List.mem_cons.1 h with rfl | h
      · rfl
      · exact ih h
    · exact ih h

theorem pass_of_mem_tokenWarnings {blocks : List Int} {token : Token}
    (h : warning ∈ tokenWarnings reporter blocks token) : warning.kind.pass = .token := by
  unfold tokenWarnings at h
  split at h
  · simp only [List.mem_ite_nil_left, List.mem_singleton] at h
    rw [h.2]
    rfl
  · simp only [List.mem_ite_nil_right, List.mem_singleton] at h
    rw [h.2]
    rfl
  · cases h

theorem pass_of_mem_tokenWarningsFrom {blocks : List Int}
    (h : warning ∈ tokenWarningsFrom reporter blocks tokens) : warning.kind.pass = .token := by
  induction tokens generalizing blocks with
  | nil => cases h
  | cons token rest ih =>
    rcases List.mem_append.1 h with h | h
    · exact pass_of_mem_tokenWarnings h
    · exact ih h

theorem pass_of_mem_checkTree {tree : Node} (h : warning ∈ checkTree reporter tree) :
    warning.kind.pass = .tree := by
  obtain ⟨node, -, h⟩ := List.mem_flatMap.1 h
  unfold nodeWarnings at h
  split at h
  · cases h
  · obtain ⟨⟨spot, place⟩, -, h⟩ := List.mem_flatMap.1 h
    rw [(List.mem_replicate.1 h).2]
    rfl

theorem pass_of_mem_siteWarnings {context : SiteContext} {rounds : Bool} {site : Site}
    (h : warning ∈ siteWarnings context rounds site) : warning.kind.pass = .ast := by
  unfold siteWarnings at h
  split at h <;> simp only [List.mem_ite_nil_right, List.mem_singleton, List.not_mem_nil] at h
  · rw [h.2]; rfl
  · rw [h.2]; rfl
  · rw [h]; rfl
  · rw [h]; rfl
  · rw [h.2]; rfl
  · rw [h.2]; rfl

theorem pass_of_mem_checkSites {context : SiteContext} {rounds : Bool} {sites : List Site}
    (h : warning ∈ checkSites context rounds sites) : warning.kind.pass = .ast := by
  induction sites generalizing rounds with
  | nil => cases h
  | cons site rest ih =>
    rcases List.mem_append.1 h with h | h
    · exact pass_of_mem_siteWarnings h
    · exact ih h

theorem pass_of_mem_checkSyntax [Text.CharNames] {warnings : List Warning}
    (hcheck : checkSyntax version reporter text tokens = .ok warnings) (h : warning ∈ warnings) :
    warning.kind.pass = .ast := by
  obtain ⟨⟨masked, prints⟩, -, hcheck⟩ := exists_of_bind_eq_ok hcheck
  simp only at hcheck
  split at hcheck
  · cases hcheck
  · cases hcheck
    exact pass_of_mem_checkSites h

/-! ### The steps of a pass -/

section Run

variable {version : Version} {source : Source} {stream : TokenStream}

theorem prepare_of_error {error : TokenError} (h : stream.error = some error) :
    prepare source stream = .error (.tokenization error) := by
  simp only [prepare, TokenStream.complete, h]

theorem prepare_of_complete (h : stream.error = none) :
    prepare source stream = .ok (.ofTokens source.name source.text stream.tokens,
      stream.tokens) := by
  simp only [prepare, TokenStream.complete, h]

theorem runPass_of_error [Text.CharNames] {error : TokenError} (h : stream.error = some error)
    (hpass : pass ≠ .line) : runPass version source stream pass = .error (.tokenization error) := by
  cases pass with
  | line => exact absurd rfl hpass
  | token => simp only [runPass, prepare_of_error h]; rfl
  | tree => simp only [runPass, prepare_of_error h]; rfl
  | ast => simp only [runPass, prepare_of_error h]; rfl

theorem runPass_token [Text.CharNames] (h : stream.error = none) :
    runPass version source stream .token =
      .ok (checkTokens (.ofTokens source.name source.text stream.tokens) stream.tokens) := by
  simp only [runPass, prepare_of_complete h]
  rfl

theorem runPass_tree [Text.CharNames] (h : stream.error = none) :
    runPass version source stream .tree =
      (treeOfStream (.of version (featuresOfTokens stream.tokens)) source.text stream).map
        (checkTree (.ofTokens source.name source.text stream.tokens)) := by
  simp only [runPass, prepare_of_complete h]
  rfl

theorem runPass_ast [Text.CharNames] (h : stream.error = none) :
    runPass version source stream .ast =
      checkSyntax version (.ofTokens source.name source.text stream.tokens) source.text
        stream.tokens := by
  simp only [runPass, prepare_of_complete h]
  rfl

/-- A pass reports warnings of its own kinds. -/
theorem pass_of_mem_runPass [Text.CharNames] {warnings : List Warning}
    (hrun : runPass version source stream pass = .ok warnings) (h : warning ∈ warnings) :
    warning.kind.pass = pass := by
  cases herror : stream.error with
  | some error =>
    by_cases hpass : pass = .line
    · subst hpass
      cases hrun
      exact pass_of_mem_longLinesFrom h
    · rw [runPass_of_error herror hpass] at hrun
      cases hrun
  | none =>
    cases pass with
    | line =>
      cases hrun
      exact pass_of_mem_longLinesFrom h
    | token =>
      rw [runPass_token herror] at hrun
      cases hrun
      exact pass_of_mem_tokenWarningsFrom h
    | tree =>
      rw [runPass_tree herror] at hrun
      obtain ⟨tree, -, rfl⟩ := exists_of_map_eq_ok hrun
      exact pass_of_mem_checkTree h
    | ast =>
      rw [runPass_ast herror] at hrun
      exact pass_of_mem_checkSyntax hrun h

/-! ### How a pass fails -/

theorem Builder.exists_fault_of_push {builder : Builder} {item : String × Token}
    (h : builder.push dialect item = .error error) :
    ∃ fault location, error = .grammar (.bracket fault) location := by
  obtain ⟨before, token⟩ := item
  obtain ⟨-, -, ⟨-, rfl⟩ | ⟨_, _, -, -, rfl⟩⟩ | ⟨-, _, _, -, rfl⟩ := Builder.push_error_cases h
  all_goals exact ⟨_, _, rfl⟩

theorem exists_fault_of_foldlM_push {items : List (String × Token)} {builder : Builder}
    (h : items.foldlM (Builder.push dialect) builder = .error error) :
    ∃ fault location, error = .grammar (.bracket fault) location := by
  induction items generalizing builder with
  | nil => cases h
  | cons item rest ih =>
    rw [List.foldlM_cons] at h
    rcases bind_error_cases h with hpush | ⟨after, -, hrest⟩
    · exact Builder.exists_fault_of_push hpush
    · exact ih hrest

theorem exists_fault_of_treeOfStream (hstream : stream.error = none)
    (h : treeOfStream dialect text stream = .error error) :
    ∃ fault location, error = .grammar (.bracket fault) location := by
  unfold treeOfStream treeOfTokens at h
  simp only [hstream] at h
  rcases bind_error_cases h with htree | ⟨tree, -, hread⟩
  · rcases bind_error_cases htree with hbuild | ⟨builder, -, hsource⟩
    · exact exists_fault_of_foldlM_push hbuild
    · cases hsource
  · cases hread

/-- Masking the print statements of a source does not fail. -/
theorem exists_maskedSource (version : Version) (h : (tokenize text).error = none) :
    ∃ masked, maskedSource version text (tokenize text).tokens = .ok masked := by
  unfold maskedSource
  split
  · rw [maskInPlace?_tokenize h]
    exact ⟨_, rfl⟩
  · exact ⟨_, rfl⟩

theorem exists_fault_of_checkSyntax [Text.CharNames] (htokens : (tokenize text).error = none)
    (h : checkSyntax version reporter text (tokenize text).tokens = .error error) :
    ∃ fault location, error = .grammar (.grammar fault) location := by
  obtain ⟨masked, hmasked⟩ := exists_maskedSource version htokens
  rw [checkSyntax, hmasked] at h
  rcases bind_error_cases h with hmask | ⟨⟨_, prints⟩, -, h⟩
  · cases hmask
  simp only at h
  split at h
  · cases h
    exact ⟨_, _, rfl⟩
  · cases h

/-- When the tokens are complete, only the passes over trees fail, and only for want of a tree. -/
theorem exists_fault_of_runPass [Text.CharNames] (hstream : (tokenize source.text).error = none)
    (h : runPass version source (tokenize source.text) pass = .error error) :
    (pass = .tree ∨ pass = .ast) ∧ ∃ fault location, error = .grammar fault location := by
  cases pass with
  | line => cases h
  | token =>
    rw [runPass_token hstream] at h
    cases h
  | tree =>
    rw [runPass_tree hstream] at h
    obtain ⟨fault, location, rfl⟩ :=
      exists_fault_of_treeOfStream hstream (eq_error_of_map_eq_error h)
    exact ⟨.inl rfl, _, location, rfl⟩
  | ast =>
    rw [runPass_ast hstream] at h
    obtain ⟨fault, location, rfl⟩ := exists_fault_of_checkSyntax hstream h
    exact ⟨.inr rfl, _, location, rfl⟩

end Run

/-! ### The parts of a result -/

def LintError.pass? : LintError → Option Pass
  | decoding _ => none
  | analysis pass _ => some pass

/-- What a pass reports when no other one runs. -/
def lintAlone [Text.CharNames] (settings : Settings) (filter : IgnoreFilter) (source : Source)
    (pass : Pass) : LintResult :=
  lintSource { settings with enabled := [pass] } filter source

theorem foldl_append (results : List LintResult) (first : LintResult) :
    results.foldl .append first =
      ⟨first.file, first.warnings ++ results.flatMap LintResult.warnings,
        first.errors ++ results.flatMap LintResult.errors⟩ := by
  induction results generalizing first with
  | nil => simp
  | cons result rest ih =>
    rw [List.foldl_cons, ih]
    simp only [LintResult.append, List.flatMap_cons, List.append_assoc]

section Parts

variable (settings : Settings) (filter : IgnoreFilter) (source : Source)

/-- The warnings of a result are those of its passes, one pass after the other. -/
theorem warnings_lintSource [Text.CharNames] : (lintSource settings filter source).warnings =
    settings.passes.flatMap fun pass =>
      (passResult settings.version filter source (tokenize source.text) pass).warnings := by
  rw [lintSource, foldl_append]
  simp only [List.nil_append, List.flatMap_map]

/-- The errors of a result are those of its passes, one pass after the other. -/
theorem errors_lintSource [Text.CharNames] : (lintSource settings filter source).errors =
    settings.passes.flatMap fun pass =>
      (passResult settings.version filter source (tokenize source.text) pass).errors := by
  rw [lintSource, foldl_append]
  simp only [List.nil_append, List.flatMap_map]

theorem lintAlone_eq [Text.CharNames] (pass : Pass) : lintAlone settings filter source pass =
    passResult settings.version filter source (tokenize source.text) pass := by
  have hpasses : Settings.passes { settings with enabled := [pass] } = [pass] := by
    cases pass <;> rfl
  rw [lintAlone, lintSource, hpasses, List.map_singleton, List.foldl_cons, List.foldl_nil,
    LintResult.append]
  simp only [List.nil_append]
  unfold passResult
  split <;> rfl

/-! ### The filter -/

theorem emits_allowAll (warning : Warning) : IgnoreFilter.allowAll.emits warning = true := rfl

theorem warnings_passResult [Text.CharNames] (version : Version) (stream : TokenStream)
    (pass : Pass) :
    (passResult version filter source stream pass).warnings =
      (passResult version .allowAll source stream pass).warnings.filter filter.emits := by
  unfold passResult
  split
  · next warnings _ =>
    rw [List.filter_eq_self.2 fun warning (_ : warning ∈ warnings) => emits_allowAll warning]
  · rfl

theorem errors_passResult [Text.CharNames] (other : IgnoreFilter) (version : Version)
    (stream : TokenStream) (pass : Pass) :
    (passResult version filter source stream pass).errors =
      (passResult version other source stream pass).errors := by
  unfold passResult
  split <;> rfl

/-! ### The part of one pass -/

theorem filter_warnings_passResult [Text.CharNames] (version : Version) (stream : TokenStream)
    (pass other : Pass) :
    (passResult version filter source stream other).warnings.filter (·.kind.pass = pass) =
      if other = pass then (passResult version filter source stream other).warnings else [] := by
  unfold passResult
  split
  · next warnings hrun =>
    have hkind : ∀ warning ∈ warnings.filter filter.emits, warning.kind.pass = other :=
      fun warning h => pass_of_mem_runPass hrun (List.mem_filter.1 h).1
    split
    · next heq =>
      rw [List.filter_eq_self]
      intro warning h
      rw [hkind warning h, heq, decide_eq_true rfl]
    · next hne =>
      rw [List.filter_eq_nil_iff]
      intro warning h
      rw [hkind warning h, decide_eq_false hne]
      decide
  · exact (ite_self _).symm

theorem filter_errors_passResult [Text.CharNames] (version : Version) (stream : TokenStream)
    (pass other : Pass) :
    (passResult version filter source stream other).errors.filter (·.pass? = some pass) =
      if other = pass then (passResult version filter source stream other).errors else [] := by
  unfold passResult
  split
  · exact (ite_self _).symm
  · simp only [List.filter_cons, List.filter_nil, LintError.pass?, Option.some.injEq,
      decide_eq_true_eq]

theorem Settings.mem_passes : pass ∈ settings.passes ↔ pass ∈ settings.enabled := by
  have hall : pass ∈ Pass.all := by cases pass <;> decide
  rw [Settings.passes, List.mem_filter, List.contains_iff_mem]
  exact and_iff_right hall

theorem Settings.nodup_passes : settings.passes.Nodup := by
  have hall : Pass.all.Nodup := by decide
  exact hall.filter _

omit settings in
theorem flatMap_ite_eq {α : Type} {passes : List Pass} (hnodup : passes.Nodup) (pass : Pass)
    (part : Pass → List α) :
    (passes.flatMap fun other => if other = pass then part other else []) =
      if pass ∈ passes then part pass else [] := by
  induction passes with
  | nil => rfl
  | cons first rest ih =>
    obtain ⟨hfirst, hrest⟩ := List.nodup_cons.1 hnodup
    rw [List.flatMap_cons, ih hrest]
    by_cases heq : first = pass
    · subst heq
      rw [if_pos rfl, if_neg hfirst, if_pos List.mem_cons_self, List.append_nil]
    · simp only [heq, if_false, List.nil_append, List.mem_cons, Ne.symm heq, false_or]

/-- Of parts that stand in the order of their passes, the one of an enabled pass can be told by a
mark that only its own members bear. -/
theorem Settings.filter_flatMap_passes {α : Type} {mark : α → Bool} {part : Pass → List α}
    (hmark : ∀ other, (part other).filter mark = if other = pass then part other else []) :
    (settings.passes.flatMap part).filter mark = if pass ∈ settings.enabled then part pass
      else [] := by
  rw [List.filter_flatMap]
  simp only [hmark]
  rw [flatMap_ite_eq settings.nodup_passes]
  simp only [Settings.mem_passes]

/-- A result is its filtered warnings and its errors, in the order of the passes and as each of them
reports alone; the warnings and errors of each pass are what it reports alone, whichever others run
or fail. -/
theorem lintSource_separates [Text.CharNames] :
    (lintSource settings filter source).warnings =
        (lintSource settings .allowAll source).warnings.filter filter.emits ∧
      (∀ other, (lintSource settings filter source).errors =
        (lintSource settings other source).errors) ∧
      (∀ enabled : List Pass, (∀ pass, pass ∈ enabled ↔ pass ∈ settings.enabled) →
        lintSource { settings with enabled } filter source = lintSource settings filter source) ∧
      lintSource settings filter source =
        (([.line, .token, .tree, .ast].filter (· ∈ settings.enabled)).map
          (lintAlone settings filter source)).foldl .append ⟨source.name, [], []⟩ ∧
      ∀ pass,
        (lintSource settings filter source).warnings.filter (·.kind.pass = pass) =
            (if pass ∈ settings.enabled then (lintAlone settings filter source pass).warnings
              else []) ∧
          (lintSource settings filter source).errors.filter (·.pass? = some pass) =
            if pass ∈ settings.enabled then (lintAlone settings filter source pass).errors
              else [] := by
  refine ⟨?_, fun other => ?_, fun enabled hsame => ?_, ?_, fun pass => ⟨?_, ?_⟩⟩
  · rw [warnings_lintSource, warnings_lintSource, List.filter_flatMap]
    simp only [← warnings_passResult]
  · rw [errors_lintSource, errors_lintSource]
    simp only [errors_passResult filter source other]
  · have hpasses : Settings.passes { settings with enabled } = settings.passes := by
      apply List.filter_congr
      intro pass _
      rw [Bool.eq_iff_iff, List.contains_iff_mem, List.contains_iff_mem, hsame]
    rw [lintSource, lintSource, hpasses]
  · have hpasses : [.line, .token, .tree, .ast].filter (· ∈ settings.enabled) =
        settings.passes := by
      apply List.filter_congr
      intro pass _
      rw [List.contains_eq_mem]
    rw [hpasses, lintSource]
    simp only [funext (lintAlone_eq settings filter source)]
  · rw [lintAlone_eq, warnings_lintSource]
    exact settings.filter_flatMap_passes (filter_warnings_passResult filter source _ _ pass)
  · rw [lintAlone_eq, errors_lintSource]
    exact settings.filter_flatMap_passes (filter_errors_passResult filter source _ _ pass)

end Parts

/-- Asked for twice and before the pass over brackets, the pass over the syntax tree fails once and
after it. -/
theorem lintSource_separates_failing :
    let source := Source.ofText "m.py" "x = [1 , 2]\ny = = 3\n".toList
    let result := lintSource ⟨.python3, [.ast, .tree, .ast]⟩ .allowAll source
    (∀ pass, pass ∈ [Pass.ast, .tree, .ast] ↔ pass ∈ [Pass.tree, .ast]) ∧
      result = lintSource ⟨.python3, [.tree, .ast]⟩ .allowAll source ∧
      result.warnings.map Warning.kind = [.extraneousWhitespace] ∧
      result.errors.map LintError.pass? = [some .ast] := by
  intro source result
  have hsame : ∀ pass, pass ∈ [Pass.ast, .tree, .ast] ↔ pass ∈ [Pass.tree, .ast] := by
    intro pass
    cases pass <;> decide
  have hresult : result = lintSource ⟨.python3, [.tree, .ast]⟩ .allowAll source :=
    (lintSource_separates ⟨.python3, [.tree, .ast]⟩ .allowAll source).2.2.1 _ hsame
  exact ⟨hsame, hresult, by decide +kernel, by decide +kernel⟩

/-! ### Tokenization -/

section Tokenization

variable (settings : Settings) (filter : IgnoreFilter) (source : Source)

theorem errors_passResult_of_error [Text.CharNames] {stream : TokenStream} {error : TokenError}
    (h : stream.error = some error) (pass : Pass) :
    (passResult version filter source stream pass).errors =
      if pass ≠ .line then [.analysis pass (.tokenization error)] else [] := by
  by_cases hpass : pass = .line
  · subst hpass
    rfl
  · rw [if_pos hpass, passResult, runPass_of_error h hpass]

theorem mem_errors_passResult [Text.CharNames] {stream : TokenStream} {error : LintError}
    (h : error ∈ (passResult version filter source stream pass).errors) :
    ∃ cause, runPass version source stream pass = .error cause ∧ error = .analysis pass cause := by
  unfold passResult at h
  split at h
  · cases h
  · next cause hrun => exact ⟨cause, hrun, List.mem_singleton.1 h⟩

/-- The pass over lines never fails. When the tokens of a source end with an error, each other pass
fails with that error; when they do not, the pass over tokens succeeds and a failing pass has found
no tree. -/
theorem lintSource_tokenization [Text.CharNames] :
    (∃ warnings, runPass settings.version source (tokenize source.text) .line = .ok warnings) ∧
      (∀ error, (tokenize source.text).error = some error →
        (∀ pass, pass ≠ .line → runPass settings.version source (tokenize source.text) pass =
          .error (.tokenization error)) ∧
        (lintSource settings filter source).errors =
          (settings.passes.filter (· ≠ .line)).map (.analysis · (.tokenization error))) ∧
      ((tokenize source.text).error = none →
        (∃ warnings, runPass settings.version source (tokenize source.text) .token = .ok warnings) ∧
        (∀ pass error, runPass settings.version source (tokenize source.text) pass = .error error →
          (pass = .tree ∨ pass = .ast) ∧ ∃ fault location, error = .grammar fault location) ∧
        ∀ error ∈ (lintSource settings filter source).errors, ∃ pass ∈ settings.enabled,
          (pass = .tree ∨ pass = .ast) ∧
            ∃ fault location, error = .analysis pass (.grammar fault location)) := by
  refine ⟨⟨_, rfl⟩, fun error herror => ⟨fun pass hpass => runPass_of_error herror hpass, ?_⟩,
    fun herror => ⟨⟨_, runPass_token herror⟩, fun pass error h => exists_fault_of_runPass herror h,
      fun error h => ?_⟩⟩
  · rw [errors_lintSource]
    simp only [errors_passResult_of_error filter source herror]
    induction settings.passes with
    | nil => rfl
    | cons pass rest ih =>
      rw [List.flatMap_cons, ih]
      by_cases hpass : pass = .line
      · simp [hpass]
      · simp [hpass]
  · rw [errors_lintSource] at h
    obtain ⟨pass, hpass, h⟩ := List.mem_flatMap.1 h
    obtain ⟨cause, hrun, rfl⟩ := mem_errors_passResult filter source h
    obtain ⟨htree, fault, location, rfl⟩ := exists_fault_of_runPass herror hrun
    exact ⟨pass, settings.mem_passes.1 hpass, htree, fault, location, rfl⟩

end Tokenization

/-- A string that its line ends, and a source whose tokens are complete but make no syntax tree. -/
theorem lintSource_tokenization_openString :
    let settings : Settings := ⟨.python2, [.ast, .line, .token]⟩
    let cut := Source.ofText "m.py" "x = 'abc\n".toList
    let whole := Source.ofText "m.py" "x = = 'abc'\n".toList
    let error : TokenError := ⟨.lineEndInString, ⟨1, 8⟩⟩
    ((tokenize cut.text).error = some error ∧ (lintSource settings .allowAll cut).errors =
        [.analysis .token (.tokenization error), .analysis .ast (.tokenization error)]) ∧
      (tokenize whole.text).error = none ∧ (lintSource settings .allowAll whole).errors.length = 1 ∧
      ∀ error ∈ (lintSource settings .allowAll whole).errors, ∃ pass ∈ settings.enabled,
        (pass = .tree ∨ pass = .ast) ∧
          ∃ fault location, error = .analysis pass (.grammar fault location) := by
  intro settings cut whole error
  have hcut : (tokenize cut.text).error = some error := by decide +kernel
  have hwhole : (tokenize whole.text).error = none := by decide +kernel
  exact ⟨⟨hcut, ((lintSource_tokenization settings .allowAll cut).2.1 error hcut).2⟩,
    hwhole, by decide +kernel, ((lintSource_tokenization settings .allowAll whole).2.2 hwhole).2.2⟩

end PythonLint
