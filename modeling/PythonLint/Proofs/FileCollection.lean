import PythonLint.Collect
import PythonLint.Proofs.Split
import Mathlib.Data.List.Sort
import Mathlib.Data.String.Basic

/-!
# Collecting files

Below a directory that is given by its path, the patterns decide about one name after the other: a
file is collected when no name that leads to it is left out. What they decide about a name is the
same wherever the directory lies, but the path of the directory is not out of the way. Each path
below it starts with its names, so that a pattern without a star that is one of them leaves out
everything.

Main statements: `Path.names_join`, `excludes_join_iff`, `collectFiles_directory_eq`.
-/

namespace PythonLint

/-! ### Names -/

def IsEntryName (name : String) : Prop :=
  name ≠ "" ∧ '/' ∉ name.toList ∧ name ≠ "." ∧ name ≠ ".."

instance (name : String) : Decidable (IsEntryName name) :=
  inferInstanceAs (Decidable (_ ∧ _))

namespace Path

theorem componentsFrom_append_name {name : List Char} (hname : name ≠ []) (hdot : name ≠ ['.'])
    (here : Nat) (pieces : List (List Char)) :
    ∃ stop, componentsFrom here (pieces ++ [name]) =
      componentsFrom here pieces ++ [(name, stop)] := by
  induction pieces generalizing here with
  | nil => exact ⟨here + name.length, by simp [componentsFrom, hname, hdot]⟩
  | cons piece pieces ih =>
    obtain ⟨stop, hstop⟩ := ih (here + piece.length + 1)
    refine ⟨stop, ?_⟩
    simp only [List.cons_append, componentsFrom, hstop]
    split <;> rfl

theorem componentsFrom_append_empty (here : Nat) (pieces : List (List Char)) :
    componentsFrom here (pieces ++ [[]]) = componentsFrom here pieces := by
  induction pieces generalizing here with
  | nil => rfl
  | cons piece pieces ih => simp only [List.cons_append, componentsFrom, ih]

theorem pieces_append_slash (text rest : List Char) :
    pieces (text ++ '/' :: rest) = pieces text ++ pieces rest :=
  Text.splitOn_append_cons (by decide) text rest

theorem pieces_name {name : List Char} (h : '/' ∉ name) : pieces name = [name] := by
  apply Text.splitOn_eq_singleton
  intro c hc
  have hne : c ≠ '/' := fun heq => h (heq ▸ hc)
  simpa using hne

variable {name : String}

theorem components_join (path : Path) (hname : IsEntryName name) :
    ∃ stop, (path.join name).components = path.components ++ [(name.toList, stop)] := by
  obtain ⟨hne, hslash, hdot, -⟩ := hname
  have hne : name.toList ≠ [] := by simpa using hne
  have hdot : name.toList ≠ ['.'] := fun h => hdot (String.toList_inj.mp h)
  have hpieces := pieces_name hslash
  obtain ⟨text⟩ := path
  unfold components join
  by_cases hempty : text = []
  · obtain ⟨stop, hstop⟩ := componentsFrom_append_name hne hdot 0 []
    subst hempty
    refine ⟨stop, ?_⟩
    show componentsFrom 0 (pieces name.toList) = _
    rw [hpieces]
    exact hstop
  by_cases hlast : text.getLast? = some '/'
  -- The slash at the end of the path ends an empty piece, which the name replaces.
  · obtain ⟨start, rfl⟩ := List.getLast?_eq_some_iff.mp hlast
    obtain ⟨stop, hstop⟩ := componentsFrom_append_name hne hdot 0 (pieces start)
    have hstart : pieces (start ++ ['/']) = pieces start ++ [[]] := pieces_append_slash start []
    refine ⟨stop, ?_⟩
    rw [if_pos (by simp)]
    show componentsFrom 0 (pieces (start ++ ['/'] ++ name.toList)) =
      componentsFrom 0 (pieces (start ++ ['/'])) ++ _
    rw [hstart, componentsFrom_append_empty, ← hstop, List.append_assoc, List.singleton_append,
      pieces_append_slash, hpieces]
  · obtain ⟨stop, hstop⟩ := componentsFrom_append_name hne hdot 0 (pieces text)
    refine ⟨stop, ?_⟩
    rw [if_neg (by simp [hempty, hlast]), ← hstop, pieces_append_slash, hpieces]

theorem isAbsolute_join (path : Path) (hname : IsEntryName name) :
    (path.join name).isAbsolute = path.isAbsolute := by
  obtain ⟨text⟩ := path
  cases text with
  | nil =>
    have hhead : name.toList.head? ≠ some '/' := fun h => hname.2.1 (List.mem_of_head? h)
    simpa [join, isAbsolute] using hhead
  | cons c text =>
    unfold join
    split <;> simp [isAbsolute]

theorem names_join (path : Path) (hname : IsEntryName name) :
    (path.join name).names = path.names ++ [name.toList] := by
  obtain ⟨stop, hstop⟩ := components_join path hname
  simp only [names, isAbsolute_join path hname, hstop, List.map_append, List.map_cons, List.map_nil,
    List.append_assoc]

theorem fileName?_join (path : Path) (hname : IsEntryName name) :
    (path.join name).fileName? = some name.toList := by
  obtain ⟨stop, hstop⟩ := components_join path hname
  have hdot : name.toList ≠ ['.'] := fun h => hname.2.2.1 (String.toList_inj.mp h)
  have hdots : name.toList ≠ ['.', '.'] := fun h => hname.2.2.2 (String.toList_inj.mp h)
  simp [fileName?, hstop, hdot, hdots]

/-- The ending of a name is what follows its last dot, provided that something stands before the
dot. -/
theorem extensionOf?_eq_some_iff (name ending : List Char) :
    extensionOf? name = some ending ↔
      '.' ∉ ending ∧ ∃ stem, stem ≠ [] ∧ name = stem ++ '.' :: ending := by
  constructor
  · intro h
    have hsplit := @List.takeWhile_append_dropWhile _ (fun c => decide (c ≠ '.')) name.reverse
    have hdot := List.head?_dropWhile_not (fun c => decide (c ≠ '.')) name.reverse
    have hmem {c : Char} (hc : c ∈ name.reverse.takeWhile (· ≠ '.')) : c ≠ '.' :=
      of_decide_eq_true (List.all_eq_true.mp List.all_takeWhile c hc)
    unfold extensionOf? at h
    generalize name.reverse.takeWhile (· ≠ '.') = after at h hsplit hmem
    generalize name.reverse.dropWhile (· ≠ '.') = rest at hsplit hdot
    dsimp only at h
    obtain rfl : name = rest.reverse ++ after.reverse := by
      rw [← List.reverse_append, hsplit, List.reverse_reverse]
    split at h
    · cases h
    · next hlong =>
      cases h
      refine ⟨fun hc => hmem (List.mem_reverse.mp hc) rfl, ?_⟩
      -- By its length, what stands before the ending is the dot and a stem.
      simp only [List.length_append, List.length_reverse] at hlong
      match rest with
      | [] | [_] =>
        simp only [List.length_cons, List.length_nil] at hlong
        omega
      | c :: d :: stem =>
        obtain rfl : c = '.' := by simpa using hdot
        exact ⟨(d :: stem).reverse, by simp, by simp⟩
  · rintro ⟨hending, stem, hstem, rfl⟩
    have hlength : 0 < stem.length := List.length_pos_of_ne_nil hstem
    have hafter : (stem ++ '.' :: ending).reverse.takeWhile (· ≠ '.') = ending.reverse := by
      have hall : ∀ c ∈ ending.reverse, decide (c ≠ '.') = true := by
        intro c hc
        exact decide_eq_true fun heq => hending (heq ▸ List.mem_reverse.mp hc)
      rw [List.reverse_append, List.reverse_cons, List.append_assoc,
        List.takeWhile_append_of_pos hall]
      simp
    unfold extensionOf?
    rw [hafter, if_neg (by simp; omega), List.reverse_reverse]

def below (path : Path) (names : List String) : Path :=
  names.foldl join path

end Path

/-- The name of a Python file, which has more than its ending. -/
def IsPythonName (name : String) : Prop :=
  ∃ stem, stem ≠ [] ∧ name.toList = stem ++ ['.', 'p', 'y']

theorem extensionOf?_eq_py_iff (name : String) :
    Path.extensionOf? name.toList = some ['p', 'y'] ↔ IsPythonName name := by
  rw [Path.extensionOf?_eq_some_iff, IsPythonName]
  exact and_iff_right (by decide)

theorem isPythonFile_iff {path : Path} {name : String} (h : path.fileName? = some name.toList) :
    isPythonFile path = true ↔ IsPythonName name := by
  rw [← extensionOf?_eq_py_iff, isPythonFile, Path.extension?, h, Option.bind_some, beq_iff_eq]

/-! ### Patterns -/

/-- A pattern leaves out the name: it is the name, or a star and an ending of it. -/
def NameExcluded (patterns : List String) (name : String) : Prop :=
  ∃ pattern ∈ patterns, name = pattern ∨ pattern.toList.head? = some '*' ∧
    pattern.toList.tail <:+ name.toList

instance (patterns : List String) (name : String) : Decidable (NameExcluded patterns name) :=
  inferInstanceAs (Decidable (∃ pattern ∈ patterns, _))

/-- A pattern without a star is one of the names of the path. -/
def NamesPattern (patterns : List String) (path : Path) : Prop :=
  ∃ pattern ∈ patterns, pattern.toList.head? ≠ some '*' ∧ pattern.toList ∈ path.names

instance (patterns : List String) (path : Path) : Decidable (NamesPattern patterns path) :=
  inferInstanceAs (Decidable (∃ pattern ∈ patterns, _))

section Patterns

variable {patterns : List String} {path : Path} {name : String}

/-- A path is left out for its last name, or for the names before that. -/
theorem excludes_join_iff (hname : IsEntryName name) :
    excludes patterns (path.join name) = true ↔ NamesPattern patterns path ∨
    NameExcluded patterns name := by
  unfold excludes NamesPattern NameExcluded
  rw [List.any_eq_true, ← exists_or]
  apply exists_congr
  intro pattern
  rw [← and_or_left]
  apply and_congr_right
  intro _
  rw [Path.names_join path hname, Path.fileName?_join path hname]
  split
  · next ending heq =>
    have hself : name = pattern → ending <:+ name.toList := by
      rintro rfl
      exact heq ▸ List.suffix_cons '*' ending
    simpa [heq] using hself
  · next hstar =>
    have hhead : pattern.toList.head? ≠ some '*' := by
      intro h
      obtain ⟨ending, hending⟩ := List.head?_eq_some_iff.mp h
      exact hstar ending hending
    have hname : pattern.toList = name.toList ↔ name = pattern := by
      rw [String.toList_inj, eq_comm]
    simp [hhead, hname]

theorem not_namesPattern_join (hname : IsEntryName name) (hpath : ¬NamesPattern patterns path)
    (hexcluded : ¬NameExcluded patterns name) : ¬NamesPattern patterns (path.join name) := by
  rintro ⟨pattern, hmem, hstar, hnames⟩
  rw [Path.names_join path hname, List.mem_append, List.mem_singleton] at hnames
  obtain hnames | hnames := hnames
  · exact hpath ⟨pattern, hmem, hstar, hnames⟩
  · exact hexcluded ⟨pattern, hmem, .inl (String.toList_inj.mp hnames.symm)⟩

end Patterns

/-! ### Trees -/

/-- The names in each directory of the tree are different, and are names. -/
inductive FileTree.WellFormed : FileTree → Prop
  | file (content : List UInt8) : WellFormed (.file content)
  | directory {entries : List (String × FileTree)} (names : ∀ entry ∈ entries, IsEntryName entry.1)
      (distinct : (entries.map Prod.fst).Nodup) (inner : ∀ entry ∈ entries, WellFormed entry.2) :
      WellFormed (.directory entries)

/-- The names lead to a Python file of the tree, and no pattern leaves out one of them. -/
def IsCollected (patterns : List String) (tree : FileTree) (names : List String) : Prop :=
  (∃ content, tree.get? names = some (.file content)) ∧
    (∃ name, names.getLast? = some name ∧ IsPythonName name) ∧
    ∀ name ∈ names, ¬NameExcluded patterns name

def visited (patterns : List String) (entries : List (String × FileTree)) :
    List (String × FileTree) :=
  (entries.filter fun entry => ¬NameExcluded patterns entry.1).mergeSort fun a b =>
    decide (a.1 ≤ b.1)

section Entries

variable {patterns : List String} {entries : List (String × FileTree)} {path : Path}

theorem mem_visited {entry : String × FileTree} :
    entry ∈ visited patterns entries ↔ entry ∈ entries ∧ ¬NameExcluded patterns entry.1 := by
  rw [visited, List.mem_mergeSort, List.mem_filter, decide_eq_true_iff]

theorem visited_sorted (hdistinct : (entries.map Prod.fst).Nodup) :
    (visited patterns entries).Pairwise fun a b => a.1 < b.1 := by
  have hle : (visited patterns entries).Pairwise fun a b => a.1 ≤ b.1 := by
    refine (List.pairwise_mergeSort ?_ ?_ _).imp fun h => of_decide_eq_true h
    · intro a b c hab hbc
      exact decide_eq_true (le_trans (of_decide_eq_true hab) (of_decide_eq_true hbc))
    · intro a b
      simpa using le_total a.1 b.1
  have hne : (visited patterns entries).Pairwise fun a b => a.1 ≠ b.1 := by
    apply List.pairwise_map.mp
    apply ((List.mergeSort_perm _ _).map Prod.fst).nodup_iff.mpr
    exact hdistinct.sublist (List.filter_sublist.map Prod.fst)
  exact (hle.and hne).imp fun h => lt_of_le_of_ne h.1 h.2

theorem lookup_eq_some_iff_mem (hdistinct : (entries.map Prod.fst).Nodup) {name : String}
    {tree : FileTree} : entries.lookup name = some tree ↔ (name, tree) ∈ entries := by
  rw [List.lookup_eq_some_iff]
  constructor
  · rintro ⟨before, after, rfl, -⟩
    exact List.mem_append_right before List.mem_cons_self
  · intro hmem
    obtain ⟨before, after, rfl⟩ := List.append_of_mem hmem
    refine ⟨before, after, rfl, ?_⟩
    rintro ⟨other, inner⟩ hother
    rw [List.map_append, List.nodup_append] at hdistinct
    have hne : other ≠ name := hdistinct.2.2 other (List.mem_map_of_mem hother) name (by simp)
    simpa using hne.symm

theorem filesOfEntries_eq (hnames : ∀ entry ∈ entries, IsEntryName entry.1)
    (hpath : ¬NamesPattern patterns path) :
    filesOfEntries patterns path entries =
      (entries.filter fun entry => ¬NameExcluded patterns entry.1).map fun entry =>
        (entry.1, filesIn patterns (path.join entry.1) entry.2) := by
  induction entries with
  | nil => simp [filesOfEntries]
  | cons entry entries ih =>
    obtain ⟨name, tree⟩ := entry
    have hname : IsEntryName name := hnames (name, tree) List.mem_cons_self
    have hrest := ih fun entry hentry => hnames entry (List.mem_cons_of_mem _ hentry)
    by_cases hexcluded : NameExcluded patterns name
    · have hout : excludes patterns (path.join name) = true :=
        (excludes_join_iff hname).mpr (.inr hexcluded)
      simp [filesOfEntries, hout, hrest, hexcluded]
    · have hin : ¬excludes patterns (path.join name) = true := by
        rw [excludes_join_iff hname]
        exact not_or.mpr ⟨hpath, hexcluded⟩
      simp [filesOfEntries, hin, hrest, hexcluded]

theorem filesOfEntries_eq_nil (hnames : ∀ entry ∈ entries, IsEntryName entry.1)
    (hpath : NamesPattern patterns path) : filesOfEntries patterns path entries = [] := by
  induction entries with
  | nil => simp [filesOfEntries]
  | cons entry entries ih =>
    have hname : IsEntryName entry.1 := hnames entry List.mem_cons_self
    have hout := (excludes_join_iff hname).mpr (.inl hpath)
    have hrest := ih fun entry hentry => hnames entry (List.mem_cons_of_mem _ hentry)
    simp [filesOfEntries, hout, hrest]

theorem filesIn_directory (hnames : ∀ entry ∈ entries, IsEntryName entry.1)
    (hpath : ¬NamesPattern patterns path) :
    filesIn patterns path (.directory entries) =
      (visited patterns entries).flatMap fun entry =>
        filesIn patterns (path.join entry.1) entry.2 := by
  rw [filesIn, filesOfEntries_eq hnames hpath, visited,
    ← @List.map_mergeSort _ _ fun a b => decide (a.1 ≤ b.1), List.flatMap_map]
  intros
  rfl

end Entries

/-! ### The files below a directory -/

/-- A list of names for each file that is collected from a tree with a name: they are in order, and
lead to the files wherever the tree lies. -/
structure IsListing (patterns : List String) (last : String) (tree : FileTree)
    (relative : List (List String)) :
    Prop where
  sorted : relative.Pairwise (· < ·)
  mem_iff : ∀ names, names ∈ relative ↔ (∃ content, tree.get? names = some (.file content)) ∧
    IsPythonName (names.getLastD last) ∧ ∀ name ∈ names, ¬NameExcluded patterns name
  filesIn_eq : ∀ path, ¬NamesPattern patterns path → tree.isDirectory ∨
    path.fileName? = some last.toList → filesIn patterns path tree = relative.map path.below

namespace IsListing

variable {patterns : List String}

theorem file (last : String) (content : List UInt8) :
    ∃ relative, IsListing patterns last (.file content) relative := by
  have hfile (names : List String) :
      (∃ found, (FileTree.file content).get? names = some (.file found)) ↔ names = [] := by
    cases names <;> simp [FileTree.get?, FileTree.entry?]
  have hpath (path : Path) (h : (FileTree.file content).isDirectory ∨
    path.fileName? = some last.toList) :
      isPythonFile path = true ↔ IsPythonName last :=
    isPythonFile_iff (h.resolve_left Bool.false_ne_true)
  by_cases hpython : IsPythonName last
  · refine ⟨[[]], List.pairwise_singleton _ _, ?_, ?_⟩
    · intro names
      rw [hfile, List.mem_singleton]
      constructor
      · rintro rfl
        exact ⟨rfl, hpython, by simp⟩
      · exact fun h => h.1
    · intro path _ hlast
      rw [filesIn, if_pos ((hpath path hlast).mpr hpython)]
      rfl
  · refine ⟨[], List.Pairwise.nil, ?_, ?_⟩
    · intro names
      rw [hfile]
      refine iff_of_false List.not_mem_nil ?_
      rintro ⟨rfl, h, -⟩
      exact hpython h
    · intro path _ hlast
      rw [filesIn, if_neg (mt (hpath path hlast).mp hpython)]
      rfl

variable {entries : List (String × FileTree)}

theorem directory (last : String) (hnames : ∀ entry ∈ entries, IsEntryName entry.1)
    (hdistinct : (entries.map Prod.fst).Nodup) {inner : String × FileTree → List (List String)}
    (hinner : ∀ entry ∈ entries, IsListing patterns entry.1 entry.2 (inner entry)) :
    IsListing patterns last (.directory entries)
      ((visited patterns entries).flatMap fun entry => (inner entry).map (entry.1 :: ·)) := by
  refine ⟨?_, ?_, ?_⟩
  -- Names of one entry are ordered by what follows, names of two entries by the entries.
  · rw [List.pairwise_flatMap]
    refine ⟨?_, (visited_sorted hdistinct).imp ?_⟩
    · intro entry hentry
      rw [List.pairwise_map]
      exact (hinner entry (mem_visited.mp hentry).1).sorted.imp fun h =>
        List.cons_lt_cons_iff.mpr (.inr ⟨rfl, h⟩)
    · intro a b hab x hx y hy
      obtain ⟨x, -, rfl⟩ := List.mem_map.mp hx
      obtain ⟨y, -, rfl⟩ := List.mem_map.mp hy
      exact List.cons_lt_cons_iff.mpr (.inl hab)
  · intro names
    cases names with
    | nil => simp [FileTree.get?]
    | cons name names =>
      have hget : (FileTree.directory entries).get? (name :: names) =
          (entries.lookup name).bind fun tree => tree.get? names := rfl
      rw [hget, List.getLastD_cons, List.mem_flatMap]
      constructor
      · rintro ⟨⟨other, tree⟩, hvisited, hmem⟩
        obtain ⟨hentry, hexcluded⟩ := mem_visited.mp hvisited
        obtain ⟨rest, hrest, hcons⟩ := List.mem_map.mp hmem
        obtain ⟨rfl, rfl⟩ := List.cons.inj hcons
        obtain ⟨hfile, hpython, hall⟩ := ((hinner _ hentry).mem_iff rest).mp hrest
        rw [(lookup_eq_some_iff_mem hdistinct).mpr hentry, Option.bind_some]
        exact ⟨hfile, hpython, List.forall_mem_cons.mpr ⟨hexcluded, hall⟩⟩
      · rintro ⟨⟨content, hfile⟩, hpython, hall⟩
        obtain ⟨hexcluded, hall⟩ := List.forall_mem_cons.mp hall
        obtain ⟨tree, hlookup, hfile⟩ := Option.bind_eq_some_iff.mp hfile
        have hentry := (lookup_eq_some_iff_mem hdistinct).mp hlookup
        refine ⟨(name, tree), mem_visited.mpr ⟨hentry, hexcluded⟩, List.mem_map_of_mem ?_⟩
        exact ((hinner _ hentry).mem_iff names).mpr ⟨⟨content, hfile⟩, hpython, hall⟩
  · intro path hpath _
    rw [filesIn_directory hnames hpath, List.map_flatMap]
    apply List.flatMap_congr
    intro entry hvisited
    obtain ⟨hentry, hexcluded⟩ := mem_visited.mp hvisited
    have hname := hnames entry hentry
    rw [(hinner entry hentry).filesIn_eq (path.join entry.1)
      (not_namesPattern_join hname hpath hexcluded)
      (.inr (Path.fileName?_join path hname)), List.map_map]
    rfl

theorem exists_of_wellFormed (patterns : List String) {tree : FileTree} (h : tree.WellFormed)
    (last : String) : ∃ relative, IsListing patterns last tree relative := by
  induction h generalizing last with
  | file content => exact file last content
  | @directory entries hnames hdistinct _ ih =>
    have hinner (entry : String × FileTree) :
        ∃ relative, entry ∈ entries → IsListing patterns entry.1 entry.2 relative := by
      by_cases hentry : entry ∈ entries
      · obtain ⟨relative, hrelative⟩ := ih entry hentry entry.1
        exact ⟨relative, fun _ => hrelative⟩
      · exact ⟨[], fun h => absurd h hentry⟩
    choose inner hinner using hinner
    exact ⟨_, directory last hnames hdistinct hinner⟩

theorem mem_iff_isCollected {last : String} {relative : List (List String)}
    (h : IsListing patterns last (.directory entries) relative) (names : List String) :
    names ∈ relative ↔ IsCollected patterns (.directory entries) names := by
  rw [h.mem_iff, IsCollected]
  obtain rfl | ⟨before, name, rfl⟩ := List.eq_nil_or_concat names
  · simp [FileTree.get?]
  · simp

end IsListing

/-- What a directory stands for. Which names lead to a file that is collected depends on the tree
below the directory only, and so does their order: names are compared one by one, so that the
entries of each directory follow each other by name. Where the path of the directory has a pattern
among its own names, nothing is collected, whatever the tree. -/
theorem collectFiles_directory_eq (patterns : List String) (entries : List (String × FileTree))
    (htree : (FileTree.directory entries).WellFormed) :
    ∃ relative : List (List String),
      relative.Pairwise (· < ·) ∧
      (∀ names, names ∈ relative ↔ IsCollected patterns (.directory entries) names) ∧
      ∀ (world : World) (root : Path), world.find root = .ok (.directory entries) →
        ∀ before after : List Path,
          collectFiles world patterns (before ++ root :: after) =
            collectFiles world patterns before ++
              (if NamesPattern patterns root then [] else relative.map root.below) ++
              collectFiles world patterns after := by
  obtain ⟨relative, hlisting⟩ := IsListing.exists_of_wellFormed patterns htree ""
  refine ⟨relative, hlisting.sorted, hlisting.mem_iff_isCollected, ?_⟩
  intro world root hfind before after
  have hroot : filesIn patterns root (.directory entries) =
      if NamesPattern patterns root then [] else relative.map root.below := by
    by_cases hpath : NamesPattern patterns root
    · cases htree with
      | directory hnames _ _ =>
        rw [if_pos hpath, filesIn, filesOfEntries_eq_nil hnames hpath, List.mergeSort_nil,
          List.flatMap_nil]
    · rw [if_neg hpath]
      exact hlisting.filesIn_eq root hpath (.inl rfl)
  simp only [collectFiles, List.flatMap_append, List.flatMap_cons, hfind, hroot, List.append_assoc]

def onePackage : List (String × FileTree) :=
  [("a.py", .file [])]

/-- The same directory under two names. -/
def twoPackages : World where
  root := .directory [("lib", .directory onePackage), ("pkg", .directory onePackage)]
  working := []

theorem wellFormed_onePackage : (FileTree.directory onePackage).WellFormed := by
  refine .directory ?_ (by decide) ?_
  · intro entry hentry
    obtain rfl := List.mem_singleton.mp hentry
    decide
  · intro entry hentry
    obtain rfl := List.mem_singleton.mp hentry
    exact .file []

theorem collectFiles_directory_eq_onePackage :
    ∃ relative : List (List String),
      relative.Pairwise (· < ·) ∧
      (∀ names, names ∈ relative ↔ IsCollected ["pkg"] (.directory onePackage) names) ∧
      collectFiles twoPackages ["pkg"] [.ofString "pkg", .ofString "lib"] =
        relative.map (Path.ofString "lib").below := by
  obtain ⟨relative, hsorted, hmem, hfiles⟩ :=
    collectFiles_directory_eq ["pkg"] onePackage wellFormed_onePackage
  refine ⟨relative, hsorted, hmem, ?_⟩
  have hpkg := hfiles twoPackages (.ofString "pkg") rfl [] [.ofString "lib"]
  have hlib := hfiles twoPackages (.ofString "lib") rfl [] []
  rw [if_pos (by decide +kernel)] at hpkg
  rw [if_neg (by decide +kernel)] at hlib
  simpa [collectFiles] using hpkg.trans hlib

/-- Names that no pattern leaves out lead to the same file in both directories, which is collected
from one of them only. -/
theorem collectFiles_depends_on_root :
    twoPackages.find (.ofString "lib") = .ok (.directory onePackage) ∧
    twoPackages.find (.ofString "pkg") = .ok (.directory onePackage) ∧
    IsCollected ["pkg"] (.directory onePackage) ["a.py"] ∧
    collectFiles twoPackages ["pkg"] [.ofString "lib"] = [.ofString "lib/a.py"] ∧
    collectFiles twoPackages ["pkg"] [.ofString "pkg"] = [] := by
  refine ⟨rfl, rfl, ⟨⟨[], rfl⟩, ⟨"a.py", rfl, ?_⟩, by decide⟩, by decide +kernel, by decide +kernel⟩
  exact ⟨['a'], by decide, rfl⟩

end PythonLint
