import PythonLint.Lint
import PythonLint.Proofs.Ast.Sites
import PythonLint.Proofs.GroupKinds

/-!
# Divisions

A division is reported under Python 2 unless division has been imported from the future before. The
walk remembers whether it has met such an import. In a tree whose blocks are listed in the order of
the source it meets an import before a division exactly if the import starts first, so what it
remembers is right at every division it meets.

Divisions inside overlooked parts are not met: those in format specifications, in bounds of type
parameters, in type aliases and in patterns. All others are reported when nothing is imported. The
walk does not look at the dots before the name of a module, so that an import from a module of the
same name in the package counts as one from the future.

Main statements: `Part.SourceOrdered.pairwise_seen`, `reports_divisions_of_pairwise`,
`reports_divisions_until`, `reports_divisions_iff`, `reports_divisions_before_import`.
-/

namespace PythonLint

def Part.division? : Part → Option Nat
  | expr (.binary start op _ _) => if op = .divide then some start else none
  | _ => none

/-- Where a statement starts that imports division from a module with the name of the future. -/
def Stmt.divisionImport? : Stmt → Option Nat
  | .importFrom start _ source names =>
    if source = some "__future__" ∧ "division" ∈ names.map Alias.id then some start else none
  | _ => none

/-- The statement imports division from a module with the name of the future; `relative` says that
dots stand before the name, so that it is another module. -/
def Stmt.importsDivision (relative : Bool) : Stmt → Bool
  | .importFrom start level source names =>
    decide (0 < level) == relative &&
      (Stmt.importFrom start level source names).divisionImport?.isSome
  | _ => false

/-- Where a part starts that imports division from a module with the name of the future. -/
def Part.divisionImport? (part : Part) : Option Nat :=
  part.stmt?.bind Stmt.divisionImport?

/-- The parts that the walk meets before an import of division with dots. -/
def Part.seenBeforeRelative (part : Part) : List Part :=
  part.seen.takeWhile fun inner => !inner.stmt?.any (Stmt.importsDivision true)

def aboutDivisions (warnings : List Warning) : List Warning :=
  warnings.filter fun warning => warning.kind = .divStatement

namespace Part

theorem start?_of_division? {part : Part} {start : Nat} (h : part.division? = some start) :
    part.start? = some start := by
  unfold division? at h
  split at h
  · exact (Option.ite_none_right_eq_some.1 h).2
  · cases h

theorem start?_of_divisionImport? {part : Part} {start : Nat}
    (h : part.divisionImport? = some start) : part.start? = some start := by
  obtain ⟨inner, hinner, h⟩ := Option.bind_eq_some_iff.1 h
  cases part with
  | stmt inner' =>
    obtain rfl : inner' = inner := Option.some.inj hinner
    unfold Stmt.divisionImport? at h
    split at h
    · exact (Option.ite_none_right_eq_some.1 h).2
    · cases h
  | _ => cases hinner

theorem isBlock_eq_false_of_division? {part : Part} {start : Nat}
    (h : part.division? = some start) : part.isBlock = false := by
  cases part with
  | expr => rfl
  | _ => cases h

theorem division?_of_isOverlooked (part : Part) (h : part.isOverlooked = true) :
    part.division? = none := by
  cases part with
  | expr => cases h
  | _ => rfl

theorem isBlock_of_divisionImport? {part inner : Part} {start : Nat} (hinner : inner ∈ part.all)
    (h : inner.divisionImport? = some start) : part.isBlock = true := by
  by_contra hpart
  have hblock := isBlock_eq_false_of_mem_all (Bool.eq_false_iff.2 hpart) hinner
  cases inner with
  | stmt => cases hblock
  | _ => cases h

theorem children_eq_nil_of_divisionImport? {part : Part} {start : Nat}
    (h : part.divisionImport? = some start) : part.children = [] := by
  cases part with
  | stmt inner =>
    cases inner with
    | importFrom => rfl
    | _ => cases h
  | _ => cases h

theorem division?_eq_none_of_divisionImport? {part : Part}
    (h : part.divisionImport?.isSome = true) : part.division? = none := by
  cases part with
  | stmt => rfl
  | _ => cases h

/-- If one part is a division and the other an import of division, the first one starts first. -/
def InOrder (first second : Part) : Prop :=
  (∀ a ∈ first.divisionImport?, ∀ b ∈ second.division?, a < b) ∧
    ∀ a ∈ first.division?, ∀ b ∈ second.divisionImport?, a < b

end Part

/-! ### What the walk remembers -/

section

variable (context : SiteContext) (rounds : Bool)

theorem aboutDivisions_stmt (inner : Stmt) :
    aboutDivisions ((Part.stmt inner).site?.toList.flatMap (siteWarnings context rounds)) = [] := by
  cases inner with
  | importNames | importFrom | pass =>
    simp only [Part.site?, Option.toList_some, List.flatMap_singleton, siteWarnings]
    split <;> rfl
  | tryBlock start body handlers orelse finish =>
    rcases handlers with _ | ⟨⟨place, _ | type, block⟩, _ | ⟨second, rest⟩⟩ <;> rfl
  | _ => rfl

/-- What the checks say about divisions at the site of a part. -/
theorem reports_division (part : Part) :
    List.Forall₂ context.ReportsLineOf (if rounds then part.division?.toList else [])
      (aboutDivisions (part.site?.toList.flatMap (siteWarnings context rounds))) := by
  cases part with
  | expr inner =>
    cases inner with
    | binary start op left right =>
      simp only [Part.site?, Option.toList_some, List.flatMap_singleton, siteWarnings,
        Part.division?]
      by_cases hop : op = .divide
      · cases rounds
        · simp [aboutDivisions]
        · rw [if_pos rfl, if_pos hop, if_pos ⟨hop, rfl⟩]
          exact .cons (context.reportsLineOf_warn _ _ start) .nil
      · rw [if_neg hop, if_neg fun h : op = .divide ∧ rounds = true => hop h.1,
          Option.toList_none, ite_self]
        exact .nil
    | _ => cases rounds <;> exact .nil
  | stmt inner =>
    rw [aboutDivisions_stmt]
    cases rounds <;> exact .nil
  | _ => cases rounds <;> exact .nil

/-- One step of the walk: after an import divisions do not round. -/
theorem checkSites_cons_part (part : Part) (parts : List Part) :
    checkSites context rounds ((part :: parts).filterMap Part.site?) =
      part.site?.toList.flatMap (siteWarnings context rounds) ++
        checkSites context (rounds && part.divisionImport?.isNone)
          (parts.filterMap Part.site?) := by
  have himport : part.divisionImport?.isNone = !part.site?.any importsDivision := by
    cases part with
    | stmt inner =>
      cases inner with
      | importFrom start level source names =>
        have hiff : importsDivision (.importFrom start source names) = true ↔
            source = some "__future__" ∧ "division" ∈ names.map Alias.id := by
              simp [importsDivision]
        simp only [Part.divisionImport?, Part.stmt?, Stmt.divisionImport?, Part.site?,
          Option.bind_some, Option.any_some]
        split
        · next h => rw [hiff.2 h]; rfl
        · next h => rw [Bool.eq_false_iff.2 fun himports => h (hiff.1 himports)]; rfl
      | _ => rfl
    | expr inner => cases inner <;> rfl
    | _ => rfl
  rw [himport, List.filterMap_cons]
  cases part.site? with
  | none => simp
  | some site => simp [checkSites]

end

/-- A division may round at a position: it may round to begin with, and no import starts before. -/
def RoundsAt (rounds : Bool) (imports : List Nat) (start : Nat) : Prop :=
  rounds = true ∧ ∀ other ∈ imports, ¬other < start

instance (rounds : Bool) (imports : List Nat) (start : Nat) :
    Decidable (RoundsAt rounds imports start) :=
  inferInstanceAs (Decidable (_ ∧ _))

section

variable {part : Part} {parts : List Part} (hpart : ∀ later ∈ parts, part.InOrder later)
    (rounds : Bool)

include hpart

/-- No import starts before the first part if that is a division. -/
theorem filter_roundsAt_head :
    (part.division?.toList.filter fun start =>
      RoundsAt rounds ((part :: parts).filterMap Part.divisionImport?) start) =
      if rounds then part.division?.toList else [] := by
  cases hdivision : part.division? with
  | none => simp
  | some start =>
    have hlater : ∀ other ∈ (part :: parts).filterMap Part.divisionImport?, ¬other < start := by
      intro other hother
      obtain ⟨inner, hinner, himport⟩ := List.mem_filterMap.1 hother
      rcases List.mem_cons.1 hinner with rfl | hinner
      · have hblock := Part.isBlock_of_divisionImport? inner.mem_all_self himport
        rw [Part.isBlock_eq_false_of_division? hdivision] at hblock
        cases hblock
      · exact Nat.lt_asymm ((hpart inner hinner).2 start hdivision other himport)
    cases rounds with
    | false => simp [RoundsAt]
    | true => exact List.filter_cons_of_pos (decide_eq_true ⟨rfl, hlater⟩)

/-- If the first part is an import, it starts before all divisions after it. -/
theorem filter_roundsAt_tail :
    ((parts.filterMap Part.division?).filter fun start =>
        RoundsAt rounds ((part :: parts).filterMap Part.divisionImport?) start) =
      (parts.filterMap Part.division?).filter fun start =>
        RoundsAt (rounds && part.divisionImport?.isNone) (parts.filterMap Part.divisionImport?)
          start := by
  refine List.filter_congr fun start hstart => decide_eq_decide.2 ?_
  cases himport : part.divisionImport? with
  | none => rw [List.filterMap_cons_none himport, Option.isNone_none, Bool.and_true]
  | some other =>
    rw [List.filterMap_cons_some himport, Option.isNone_some, Bool.and_false]
    obtain ⟨inner, hinner, hdivision⟩ := List.mem_filterMap.1 hstart
    have hbefore : other < start := (hpart inner hinner).1 other himport start hdivision
    exact ⟨fun h => absurd hbefore (h.2 other List.mem_cons_self),
      fun h => absurd h.1 Bool.false_ne_true⟩

end

/-- Through parts in order the walk reports a division unless an import starts before it. -/
theorem reports_divisions_of_pairwise (context : SiteContext) (rounds : Bool) {parts : List Part}
    (h : parts.Pairwise Part.InOrder) :
    List.Forall₂ context.ReportsLineOf
      ((parts.filterMap Part.division?).filter fun start =>
        RoundsAt rounds (parts.filterMap Part.divisionImport?) start)
      (aboutDivisions (checkSites context rounds (parts.filterMap Part.site?))) := by
  induction parts generalizing rounds with
  | nil => exact .nil
  | cons part parts ih =>
    obtain ⟨hpart, hparts⟩ := List.pairwise_cons.1 h
    have hsplit : (part :: parts).filterMap Part.division? =
        part.division?.toList ++ parts.filterMap Part.division? := by
      rw [List.filterMap_cons]
      cases part.division? <;> rfl
    rw [hsplit, List.filter_append, filter_roundsAt_head hpart, filter_roundsAt_tail hpart,
      checkSites_cons_part, aboutDivisions, List.filter_append]
    exact List.rel_append (reports_division context rounds part) (ih _ hparts)

/-- A part that the walk does not stop at brings its own division. One that it stops at is an import
and has none. -/
theorem divisionsUntil_cons (rounds : Bool) {stops : Part → Bool} {part : Part}
    (hpart : part.divisionImport?.isNone = !stops part) (parts : List Part) :
    (if rounds then
        ((part :: parts).takeWhile fun part => !stops part).filterMap Part.division? else []) =
      (if rounds then part.division?.toList else []) ++
        if rounds && part.divisionImport?.isNone then
          (parts.takeWhile fun part => !stops part).filterMap Part.division?
        else [] := by
  rw [hpart]
  cases rounds with
  | false => rfl
  | true =>
    cases hstops : stops part with
    | false =>
      rw [List.takeWhile_cons_of_pos (by rw [hstops]; rfl), List.filterMap_cons]
      cases part.division? <;> rfl
    | true =>
      rw [hstops, Bool.not_true, Option.isNone_eq_false_iff] at hpart
      rw [List.takeWhile_cons_of_neg (by simp [hstops]),
        Part.division?_eq_none_of_divisionImport? hpart]
      rfl

/-- Whatever the order, the walk reports the divisions that it meets before it stops at an
import. -/
theorem reports_divisions_until (context : SiteContext) (rounds : Bool) {stops : Part → Bool}
    {parts : List Part} (h : ∀ part ∈ parts, part.divisionImport?.isNone = !stops part) :
    List.Forall₂ context.ReportsLineOf
      (if rounds then (parts.takeWhile fun part => !stops part).filterMap Part.division? else [])
      (aboutDivisions (checkSites context rounds (parts.filterMap Part.site?))) := by
  induction parts generalizing rounds with
  | nil => cases rounds <;> exact .nil
  | cons part parts ih =>
    obtain ⟨hpart, hparts⟩ := List.forall_mem_cons.1 h
    rw [divisionsUntil_cons rounds hpart, checkSites_cons_part, aboutDivisions, List.filter_append]
    exact List.rel_append (reports_division context rounds part) (ih _ hparts)

/-! ### The order of the source -/

/-- Where blocks are listed in the order of the source, the walk meets imports and divisions in that
order. -/
theorem Part.SourceOrdered.pairwise_seen {part : Part} (h : part.SourceOrdered) :
    part.seen.Pairwise Part.InOrder := by
  induction part using Part.induction with
  | step part ih =>
    have hinner : ∀ child ∈ part.children, child.seen.Pairwise InOrder := fun child hchild =>
      ih child hchild fun inner hinner => h inner (mem_all_iff.2 (.inr ⟨child, hchild, hinner⟩))
    have hbetween : part.children.Pairwise fun first second => ∀ a ∈ first.seen, ∀ b ∈ second.seen,
        a.InOrder b := by
      refine (h part (mem_all_self part)).imp fun {first second} hbefore a ha b hb => ?_
      have ha := (seen_sublist_all first).subset ha
      have hb := (seen_sublist_all second).subset hb
      have hstarts : first.isBlock = true ∨ second.isBlock = true →
          ∀ m n, a.start? = some m → b.start? = some n → m < n := fun hblock m n hm hn =>
        hbefore hblock m (List.mem_filterMap.2 ⟨a, ha, hm⟩) n (List.mem_filterMap.2 ⟨b, hb, hn⟩)
      refine ⟨fun m hm n hn => hstarts (.inl ?_) m n (start?_of_divisionImport? hm)
        (start?_of_division? hn), fun m hm n hn =>
        hstarts (.inr ?_) m n (start?_of_division? hm) (start?_of_divisionImport? hn)⟩
      · exact isBlock_of_divisionImport? ha hm
      · exact isBlock_of_divisionImport? hb hn
    rw [seen_eq]
    split
    · exact List.pairwise_singleton _ _
    · refine List.pairwise_cons.2 ⟨?_, List.pairwise_flatMap.2 ⟨hinner, hbetween⟩⟩
      intro inner hmem
      obtain ⟨child, hchild, hmem⟩ := List.mem_flatMap.1 hmem
      have hmem := (seen_sublist_all child).subset hmem
      refine ⟨fun m hm => ?_, fun m hm n hn => ?_⟩
      · rw [children_eq_nil_of_divisionImport? hm] at hchild
        cases hchild
      · have hblock := isBlock_of_divisionImport? (mem_all_iff.2 (.inr ⟨child, hchild, hmem⟩)) hn
        rw [isBlock_eq_false_of_division? hm] at hblock
        cases hblock

/-! ### Divisions of a module -/

theorem filterMap_seen_divisionImport? (body : List Stmt) :
    (Part.module body).seen.filterMap Part.divisionImport? =
      (statementsIn body).filterMap Stmt.divisionImport? :=
  filterMap_seen_stmt (fun _ _ _ _ => rfl) (.module body)

/-- Where blocks are listed in the order of the source, a division that the walk meets is reported
exactly if the version is Python 2 and no statement that imports division from the future, at any
depth, starts before the division. -/
theorem reports_divisions_before_import (context : SiteContext) (version : Version)
    {body : List Stmt} (h : (Part.module body).SourceOrdered) :
    List.Forall₂ context.ReportsLineOf
      (((Part.module body).seen.filterMap Part.division?).filter fun start =>
        version = .python2 ∧
          ∀ other ∈ (statementsIn body).filterMap Stmt.divisionImport?, ¬other < start)
      (aboutDivisions (checkSites context (version = .python2) (sitesOf body))) := by
  have hreports := reports_divisions_of_pairwise context (version = .python2) h.pairwise_seen
  rw [filterMap_seen_divisionImport?, ← sitesOf_eq_filterMap] at hreports
  simpa only [RoundsAt, decide_eq_true_eq] using hreports

/-- Divisions in a decorator, a default and a block come before an import in that block, and one in
the header of a later block and one after the function come after it. -/
theorem reports_divisions_before_import_nested :
    let text :=
      ("@d(1 / 2)\ndef f(x=1 / 3):\n    try:\n        a = 1 / 4\n" ++
        "        from __future__ import division\n    except E / 1:\n        pass\n" ++
        "b = 1 / 5\n").toList
    let context : SiteContext := ⟨.ofTokens "m.py" text (tokenize text).tokens, text, []⟩
    ∃ body, parseModule text = .ok body ∧ (Part.module body).SourceOrdered ∧
      (Part.module body).seen.filterMap Part.division? = [3, 18, 47, 104, 128] ∧
      (statementsIn body).filterMap Stmt.divisionImport? = [61] ∧
      List.Forall₂ context.ReportsLineOf [3, 18, 47]
        (aboutDivisions (checkSites context true (sitesOf body))) := by
  intro text context
  obtain ⟨body, hbody, hcheck⟩ : ∃ body, parseModule text = .ok body ∧
      decide ((Part.module body).SourceOrdered ∧
        (Part.module body).seen.filterMap Part.division? = [3, 18, 47, 104, 128] ∧
        (statementsIn body).filterMap Stmt.divisionImport? = [61]) = true :=
    exists_of_any_toOption (by decide +kernel)
  obtain ⟨hordered, hdivisions, himports⟩ := of_decide_eq_true hcheck
  have hreports := reports_divisions_before_import context .python2 hordered
  rw [hdivisions, himports] at hreports
  exact ⟨body, hbody, hordered, hdivisions, himports, hreports⟩

theorem divisionImport?_isNone_eq (part : Part)
    (h : part.stmt?.any (Stmt.importsDivision false) = false) :
    part.divisionImport?.isNone = !part.stmt?.any (Stmt.importsDivision true) := by
  cases part with
  | stmt inner =>
    cases inner with
    | importFrom start level source names =>
      simp only [Part.stmt?, Option.any_some, Stmt.importsDivision, Part.divisionImport?,
        Option.bind_some] at h ⊢
      cases hstart : (Stmt.importFrom start level source names).divisionImport? with
      | none => simp
      | some start =>
        rw [hstart] at h
        simpa [Nat.pos_iff_ne_zero] using h
    | _ => rfl
  | _ => rfl

/-- Under Python 2 and without `from __future__ import division`, the divisions are reported that
are not inside an overlooked part, up to an import of division from a module `__future__` with dots
before its name: one warning for each, about the logical line where it starts. So all divisions of
the module are reported exactly if no overlooked part has one inside and the walk meets none after
such an import. -/
theorem reports_divisions_iff (context : SiteContext) {version : Version}
    (hversion : version = .python2) {body : List Stmt}
    (himport : ∀ inner ∈ statementsIn body, inner.importsDivision false = false) :
    let warnings := aboutDivisions (checkSites context (version = .python2) (sitesOf body))
    let met := (Part.module body).seenBeforeRelative
    List.Forall₂ context.ReportsLineOf (met.filterMap Part.division?) warnings ∧
      (List.Forall₂ context.ReportsLineOf
        ((Part.module body).all.filterMap Part.division?) warnings ↔
        (∀ part ∈ (Part.module body).all, part.isOverlooked = true →
          part.all.filterMap Part.division? = []) ∧
          met.filterMap Part.division? = (Part.module body).seen.filterMap Part.division?) := by
  intro warnings met
  have hstops : ∀ part ∈ (Part.module body).seen,
      part.divisionImport?.isNone = !part.stmt?.any (Stmt.importsDivision true) := by
    intro part hpart
    refine divisionImport?_isNone_eq part ?_
    cases hstmt : part.stmt? with
    | none => rfl
    | some inner =>
      have hmem := List.mem_filterMap.2 ⟨part, (Part.seen_sublist_all _).subset hpart, hstmt⟩
      exact himport inner hmem
  have hmet : List.Forall₂ context.ReportsLineOf (met.filterMap Part.division?) warnings := by
    have hreports := reports_divisions_until context (version = .python2) hstops
    rwa [if_pos (decide_eq_true hversion), ← sitesOf_eq_filterMap] at hreports
  have hiff := Part.filterMap_seen_eq_iff Part.division?_of_isOverlooked (.module body)
  have hseen : (met.filterMap Part.division?).Sublist
      ((Part.module body).seen.filterMap Part.division?) :=
    (List.takeWhile_sublist _).filterMap _
  have hall := (Part.seen_sublist_all (.module body)).filterMap Part.division?
  refine ⟨hmet, fun hreports => ?_, fun h => by rwa [← hiff.2 h.1, ← h.2]⟩
  -- As many are reported as there are, so that nothing is left out on the way.
  have hlength := hmet.length_eq.trans hreports.length_eq.symm
  have hle := hseen.length_le
  have hle' := hall.length_le
  exact ⟨hiff.1 (hall.eq_of_length (by omega)), hseen.eq_of_length (by omega)⟩

/-- Divisions in a decorator, a field of a format string, an annotation, an element and an index are
reported. One in a format specification, one in a bound and one in a type alias are not, and neither
is one after an import with a dot. -/
theorem reports_divisions_iff_positions :
    let text :=
      ("@a / b\nclass C(k=f'\x7ba / b:\x7bc / d\x7d\x7d'):\n" ++
        "    x: a / b = [c / d for y in z[a / b:]]\n" ++
        "type A[T: a / b] = c / d\nfrom .__future__ import division\ne / f\n").toList
    let context : SiteContext := ⟨.ofTokens "m.py" text (tokenize text).tokens, text, []⟩
    ∃ body, parseModule text = .ok body ∧
      (∀ inner ∈ statementsIn body, inner.importsDivision false = false) ∧
      (Part.module body).seenBeforeRelative.filterMap Part.division? = [1, 20, 45, 54, 71] ∧
      (Part.module body).seen.filterMap Part.division? = [1, 20, 45, 54, 71, 138] ∧
      (Part.module body).all.filterMap Part.division? = [1, 20, 27, 45, 54, 71, 90, 99, 138] ∧
      List.Forall₂ context.ReportsLineOf [1, 20, 45, 54, 71]
        (aboutDivisions (checkSites context true (sitesOf body))) := by
  intro text context
  obtain ⟨body, hbody, hcheck⟩ : ∃ body, parseModule text = .ok body ∧
      decide ((∀ inner ∈ statementsIn body, inner.importsDivision false = false) ∧
        (Part.module body).seenBeforeRelative.filterMap Part.division? = [1, 20, 45, 54, 71] ∧
        (Part.module body).seen.filterMap Part.division? = [1, 20, 45, 54, 71, 138] ∧
        (Part.module body).all.filterMap Part.division? = [1, 20, 27, 45, 54, 71, 90, 99, 138]) =
        true :=
    exists_of_any_toOption (by decide +kernel)
  obtain ⟨himports, hmet, hseen, hall⟩ := of_decide_eq_true hcheck
  have hreports := (reports_divisions_iff context (rfl : Version.python2 = .python2) himports).1
  rw [hmet] at hreports
  exact ⟨body, hbody, himports, hmet, hseen, hall, hreports⟩

theorem division_in_typeAlias :
    let source := Source.ofText "m.py" "type A = b / c\n".toList
    (∃ body, parseModule source.text = .ok body ∧
      (statementsIn body).filterMap Stmt.divisionImport? = [] ∧
      (Part.module body).all.filterMap Part.division? = [9]) ∧
    (lintSource ⟨.python2, [.ast]⟩ .allowAll source).errors = [] ∧
    (lintSource ⟨.python2, [.ast]⟩ .allowAll source).warnings = [] := by
  intro source
  obtain ⟨body, hbody, hcheck⟩ : ∃ body, parseModule source.text = .ok body ∧
      decide ((statementsIn body).filterMap Stmt.divisionImport? = [] ∧
        (Part.module body).all.filterMap Part.division? = [9]) = true :=
    exists_of_any_toOption (by decide +kernel)
  exact ⟨⟨body, hbody, of_decide_eq_true hcheck⟩, by decide +kernel, by decide +kernel⟩

end PythonLint
