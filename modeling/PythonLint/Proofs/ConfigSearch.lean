import PythonLint.Config
import PythonLint.Proofs.Split
import Mathlib.Data.List.Basic

/-!
# The nearest project file

The search for a project file goes from a directory to those above it, which are known by the text
of the path alone: each is the one below without its last name. All of them are listed at once, so
that the walk ends and the first project file with a section is the nearest.

Main statements: `Path.components_take`, `Path.ancestors_eq`, `findConfig_nearest`.
-/

namespace PythonLint

namespace Text

/-- The length of pieces, each with the separator after it. -/
def pieceLength {α : Type} (pieces : List (List α)) : Nat :=
  pieces.foldr (fun piece length => piece.length + 1 + length) 0

/-- Where a list is cut off at the end of a piece, the pieces up to there are left. -/
theorem splitOn_take {α : Type} {p : α → Bool} {xs piece : List α} {before after : List (List α)}
    (h : splitOn p xs = before ++ piece :: after) :
    splitOn p (xs.take (pieceLength before + piece.length)) = before ++ [piece] := by
  induction xs generalizing before piece with
  | nil =>
    cases before with
    | nil =>
      obtain ⟨rfl, -⟩ := List.cons.inj h
      rfl
    | cons first before => simp [splitOn] at h
  | cons x xs ih =>
    obtain ⟨first, others, hxs⟩ := splitOn_eq_cons p xs
    by_cases hx : p x = true
    · rw [splitOn, if_pos hx] at h
      cases before with
      | nil =>
        obtain ⟨rfl, -⟩ := List.cons.inj h
        rfl
      | cons start before =>
        obtain ⟨rfl, hrest⟩ := List.cons.inj h
        have hlength : pieceLength ([] :: before) + piece.length =
            pieceLength before + piece.length + 1 := by
          simp only [pieceLength, List.foldr_cons, List.length_nil]
          omega
        rw [hlength, List.take_succ_cons, splitOn, if_pos hx, ih hrest, List.cons_append]
    · rw [splitOn, if_neg hx, hxs] at h
      cases before with
      | nil =>
        obtain ⟨rfl, rfl⟩ := List.cons.inj h
        have htake : splitOn p (xs.take (pieceLength [] + first.length)) = [first] := ih hxs
        rw [pieceLength, List.foldr_nil, Nat.zero_add] at htake ⊢
        rw [List.length_cons, List.take_succ_cons, splitOn, if_neg hx, htake]
        rfl
      | cons start before =>
        obtain ⟨rfl, hrest⟩ := List.cons.inj h
        have htake : splitOn p (xs.take (pieceLength (first :: before) + piece.length)) =
            first :: before ++ [piece] :=
          ih (hxs.trans (by rw [hrest]; rfl))
        have hlength : pieceLength ((x :: first) :: before) + piece.length =
            pieceLength (first :: before) + piece.length + 1 := by
          simp only [pieceLength, List.foldr_cons, List.length_cons]
          omega
        rw [hlength, List.take_succ_cons, splitOn, if_neg hx, htake]
        rfl

end Text

namespace Path

/-! ### Paths that are cut off after a name -/

theorem exists_of_componentsFrom {here stop : Nat} {name : List Char} {pieces : List (List Char)}
    {before after : List (List Char × Nat)}
    (h : componentsFrom here pieces = before ++ (name, stop) :: after) :
    ∃ front back, pieces = front ++ name :: back ∧
      componentsFrom here (front ++ [name]) = before ++ [(name, stop)] ∧
      stop = here + (Text.pieceLength front + name.length) := by
  induction pieces generalizing here before with
  | nil => cases before <;> cases h
  | cons piece rest ih =>
    rw [componentsFrom] at h
    split at h
    · next hskip =>
      obtain ⟨front, back, rfl, hfront, rfl⟩ := ih h
      refine ⟨piece :: front, back, rfl, ?_, ?_⟩
      · rw [List.cons_append, componentsFrom, if_pos hskip, hfront]
      · simp only [Text.pieceLength, List.foldr_cons]
        omega
    · next hkeep =>
      cases before with
      | nil =>
        obtain ⟨heq, -⟩ := List.cons.inj h
        obtain ⟨rfl, rfl⟩ := Prod.mk.inj heq
        refine ⟨[], rest, rfl, ?_, ?_⟩
        · rw [List.nil_append, componentsFrom, if_neg hkeep, componentsFrom, List.nil_append]
        · simp [Text.pieceLength]
      | cons first before =>
        obtain ⟨rfl, hrest⟩ := List.cons.inj h
        obtain ⟨front, back, rfl, hfront, rfl⟩ := ih hrest
        refine ⟨piece :: front, back, rfl, ?_, ?_⟩
        · rw [List.cons_append, componentsFrom, if_neg hkeep, hfront, List.cons_append]
        · simp only [Text.pieceLength, List.foldr_cons]
          omega

/-- Where a path is cut off after a name, the names up to there are left. -/
theorem components_take {path : Path} {name : List Char} {stop : Nat}
    {before after : List (List Char × Nat)}
    (h : path.components = before ++ (name, stop) :: after) :
    (Path.mk (path.text.take stop)).components = before ++ [(name, stop)] := by
  obtain ⟨front, back, hpieces, hfront, hstop⟩ := exists_of_componentsFrom h
  rw [Nat.zero_add] at hstop
  rw [components, pieces, hstop, Text.splitOn_take hpieces, ← hstop, hfront]

theorem pairwise_componentsFrom (here : Nat) (pieces : List (List Char)) :
    (componentsFrom here pieces).Pairwise (fun first second => first.2 < second.2) ∧
      ∀ component ∈ componentsFrom here pieces, here < component.2 := by
  induction pieces generalizing here with
  | nil => exact ⟨.nil, List.forall_mem_nil _⟩
  | cons piece rest ih =>
    obtain ⟨hrest, habove⟩ := ih (here + piece.length + 1)
    rw [componentsFrom]
    split
    · exact ⟨hrest, fun component hmem => by have := habove component hmem; omega⟩
    · next hkeep =>
      have hlength : 0 < piece.length := List.length_pos_of_ne_nil fun hnil => hkeep (.inl hnil)
      refine ⟨List.pairwise_cons.2 ⟨fun component hmem => ?_, hrest⟩,
        List.forall_mem_cons.2 ⟨?_, fun component hmem => ?_⟩⟩
      · have := habove component hmem
        omega
      · exact Nat.lt_add_of_pos_right hlength
      · have := habove component hmem
        omega

/-! ### Upward -/

/-- The paths above a path are found step by step. -/
theorem ancestors_eq (path : Path) : path.ancestors = path :: (path.parent?.elim [] ancestors) := by
  rcases hnames : path.components.reverse with _ | ⟨last, _ | ⟨⟨name, stop⟩, more⟩⟩
  · have hnone : path.components = [] := List.reverse_eq_nil_iff.1 hnames
    simp [ancestors, parent?, hnone]
  · have hone : path.components = [last] := List.reverse_inj.1 hnames
    have htop : ∀ absolute : Bool, (Path.mk (if absolute then ['/'] else [])).components =
      [] := by decide
    simp [ancestors, parent?, hone, htop]
  · have hnames' : path.components = more.reverse ++ (name, stop) :: [last] := by
      rw [← List.reverse_reverse path.components, hnames]
      simp
    have hup := components_take hnames'
    obtain ⟨hascends, hpos⟩ := pairwise_componentsFrom 0 (pieces path.text)
    rw [← components, hnames'] at hascends hpos
    have hstop : 0 < stop := hpos (name, stop) (by simp)
    have hbelow : ∀ component ∈ more, component.2 < stop := fun component hmem =>
      (List.pairwise_append.1 hascends).2.2 component (List.mem_reverse.2 hmem) (name, stop)
        List.mem_cons_self
    have habsolute : (Path.mk (path.text.take stop)).isAbsolute = path.isAbsolute := by
      rw [isAbsolute, isAbsolute, List.head?_take, if_neg (Nat.ne_of_gt hstop)]
    have hmore : more.map (fun component => Path.mk ((path.text.take stop).take component.2)) =
        more.map fun component => Path.mk (path.text.take component.2) := by
      refine List.map_congr_left fun component hmem => ?_
      rw [List.take_take, Nat.min_eq_left (Nat.le_of_lt (hbelow component hmem))]
    have hparent : path.parent? = some ⟨path.text.take stop⟩ := by rw [parent?, hnames]
    rw [hparent, Option.elim_some, ancestors, ancestors, hup, habsolute, hnames']
    simp [hmore]

/-- The path that is reached after a number of steps upward. -/
def climb : Nat → Path → Option Path
  | 0, path => some path
  | n + 1, path => path.parent?.bind (climb n)

theorem getElem?_ancestors (n : Nat) (path : Path) : path.ancestors[n]? = climb n path := by
  induction n generalizing path with
  | zero =>
    rw [ancestors_eq]
    rfl
  | succ n ih =>
    rw [ancestors_eq, List.getElem?_cons_succ, climb]
    cases path.parent? with
    | none => rfl
    | some up => exact ih up

end Path

/-! ### The search -/

/-- The file can be read, is well formed and has the section. -/
def HasSection (world : World) (path : Path) : Prop :=
  ∃ content document tools found, world.readText path = .ok content ∧
    Toml.parse content = some document ∧
    document.get? "tool" = some tools ∧ tools.get? "pyward" = some found

theorem isSome_configSection?_iff {world : World} {path : Path} :
    (configSection? world path).isSome = true ↔ HasSection world path := by
  rw [configSection?, HasSection]
  cases world.readText path with
  | error error => simp [Except.toOption]
  | ok content =>
    simp only [Except.toOption, Option.isSome_iff_exists, Option.bind_eq_bind, Option.bind_some,
      Option.bind_eq_some_iff, Config.sectionName, Except.ok.injEq]
    constructor
    · rintro ⟨found, document, hdocument, tools, htools, hfound⟩
      exact ⟨content, document, tools, found, rfl, hdocument, htools, hfound⟩
    · rintro ⟨_, document, tools, found, rfl, hdocument, htools, hfound⟩
      exact ⟨found, document, hdocument, tools, htools, hfound⟩

/-- The directory that a search starts in: the start itself, or the one that a file is in. -/
def searchStart (world : World) (start : Path) : Option Path :=
  if world.isFile start then start.parent? else some start

/-- The directory that a search comes to after a number of steps upward. -/
def upward (world : World) (start : Path) (n : Nat) : Option Path :=
  (searchStart world start).bind (Path.climb n)

theorem findConfig_eq (world : World) (start : Path) :
    findConfig world start = (searchStart world start).bind fun directory =>
      (directory.ancestors.find? fun above =>
        (configSection? world (above.join "pyproject.toml")).isSome).map
        fun above => above.join "pyproject.toml" := by
  have hfind : ∀ directory : Path,
    (directory.ancestors.map fun above => above.join Config.fileName).find?
      (fun path => (configSection? world path).isSome) = _ := fun directory => List.find?_map
  rw [findConfig, searchStart]
  split
  · exact Option.bind_congr fun directory _ => hfind directory
  · exact hfind start

theorem find?_eq_some_iff_getElem? {α : Type} {xs : List α} {p : α → Bool} {b : α} :
    xs.find? p = some b ↔ ∃ n :
      Nat, xs[n]? = some b ∧ p b = true ∧ ∀ m < n, ∀ a, xs[m]? = some a → ¬p a = true := by
  rw [List.find?_eq_some_iff_getElem]
  constructor
  · rintro ⟨hb, n, hn, rfl, hbefore⟩
    refine ⟨n, List.getElem?_eq_getElem hn, hb, fun m hm a ha => ?_⟩
    obtain ⟨_, rfl⟩ := List.getElem?_eq_some_iff.1 ha
    simpa using hbefore m hm
  · rintro ⟨n, hn, hb, hbefore⟩
    obtain ⟨hlt, heq⟩ := List.getElem?_eq_some_iff.1 hn
    refine ⟨hb, n, hlt, heq, fun m hm => ?_⟩
    simpa using hbefore m hm _ (List.getElem?_eq_getElem (Nat.lt_trans hm hlt))

/-- The search finds the project file of the nearest directory, upward from the start, whose project
file has the section, and finds none exactly if there is no such directory. The way up ends. -/
theorem findConfig_nearest (world : World) (start : Path) :
    (∀ found, findConfig world start = some found ↔ ∃ n directory,
      upward world start n = some directory ∧
      found = directory.join "pyproject.toml" ∧ HasSection world found ∧
      ∀ m < n, ∀ nearer, upward world start m = some nearer →
        ¬HasSection world (nearer.join "pyproject.toml")) ∧
    (findConfig world start = none ↔
      ∀ n directory, upward world start n = some directory →
        ¬HasSection world (directory.join "pyproject.toml")) ∧
    ∃ n, upward world start n = none := by
  rw [findConfig_eq]
  cases hstart : searchStart world start with
  | none => simp [upward, hstart]
  | some first =>
    have hupward : ∀ n, upward world start n = first.ancestors[n]? := fun n => by
      rw [upward, hstart, Option.bind_some, Path.getElem?_ancestors]
    simp only [hupward, Option.bind_some, ← isSome_configSection?_iff]
    refine ⟨fun found => ?_, ?_, first.ancestors.length, List.getElem?_eq_none (Nat.le_refl _)⟩
    · simp only [Option.map_eq_some_iff, find?_eq_some_iff_getElem?]
      constructor
      · rintro ⟨directory, ⟨n, hn, hsection, hnearer⟩, rfl⟩
        exact ⟨n, directory, hn, rfl, hsection, hnearer⟩
      · rintro ⟨n, directory, hn, rfl, hsection, hnearer⟩
        exact ⟨directory, ⟨n, hn, hsection, hnearer⟩, rfl⟩
    · rw [Option.map_eq_none_iff, List.find?_eq_none]
      constructor
      · exact fun h n directory hn => h directory (List.mem_of_getElem? hn)
      · intro h directory hmem
        obtain ⟨n, hn⟩ := List.mem_iff_getElem?.1 hmem
        exact h n directory hn

instance (world : World) (path : Path) : Decidable (HasSection world path) :=
  decidable_of_iff _ isSome_configSection?_iff

/-- A project file with the section, one without it in a package, and one that is not well formed
below. -/
def nestedProject : World where
  root := .directory [("pyproject.toml", .file (Text.encodeUtf8 "[tool.pyward]\n".toList)),
    ("pkg", .directory [("pyproject.toml", .file (Text.encodeUtf8 "[tool]\nx = 1\n".toList)),
      ("sub",
        .directory [("pyproject.toml", .file (Text.encodeUtf8 "[tool".toList)),
          ("m.py", .file [])])])]
  working := []

theorem findConfig_nearest_nested :
    upward nestedProject (.ofString "pkg/sub//m.py") 2 = some (.ofString "") ∧
      (∀ m < 2, ∀ nearer, upward nestedProject (.ofString "pkg/sub//m.py") m = some nearer →
        ¬HasSection nestedProject (nearer.join "pyproject.toml")) ∧
      findConfig nestedProject (.ofString "pkg/sub//m.py") = some (.ofString "pyproject.toml") := by
  have hnearer : ∀ m < 2, ∀ nearer, upward nestedProject (.ofString "pkg/sub//m.py") m =
    some nearer →
      ¬HasSection nestedProject (nearer.join "pyproject.toml") := by
    intro m hm nearer hmeets
    obtain ⟨directory, hdirectory, hlacks⟩ : ∃ directory,
      upward nestedProject (.ofString "pkg/sub//m.py") m =
        some directory ∧ ¬HasSection nestedProject (directory.join "pyproject.toml") := by
      obtain rfl | rfl : m = 0 ∨ m = 1 := by omega
      · exact ⟨.ofString "pkg/sub", by decide +kernel, by decide +kernel⟩
      · exact ⟨.ofString "pkg", by decide +kernel, by decide +kernel⟩
    obtain rfl := Option.some.inj (hdirectory.symm.trans hmeets)
    exact hlacks
  have hup : upward nestedProject (.ofString "pkg/sub//m.py") 2 = some (.ofString "") := by
    decide +kernel
  exact ⟨hup, hnearer, ((findConfig_nearest nestedProject (.ofString "pkg/sub//m.py")).1 _).2
    ⟨2, .ofString "", hup, rfl, by decide +kernel, hnearer⟩⟩

end PythonLint
