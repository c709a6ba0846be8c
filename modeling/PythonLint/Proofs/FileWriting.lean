import PythonLint.LogFile
import PythonLint.Proofs.Result
import PythonLint.Proofs.Split
import Mathlib.Data.List.Basic

/-!
# Writing to files

What is written to a file stands at the end of its content. Everything else stays where it is, so
that a path that led somewhere leads to the same place afterwards, and one file can be written to
again and again.

Main statements: `FileTree.exists_get?_put`, `World.Extends.newPlace`, `World.FileAt.append`,
`World.FileAt.of_openLog`.
-/

namespace PythonLint

/-! ### Trees -/

namespace FileTree

theorem lookup_replace (name other : String) (tree : FileTree)
    (entries : List (String × FileTree)) :
    (replace name tree entries).lookup other = if other = name then some tree
      else entries.lookup other := by
  induction entries with
  | nil => grind [replace]
  | cons entry rest ih => grind [replace]

theorem put_directory (content : FileTree) (name : String) (rest : List String)
    (entries : List (String × FileTree)) :
    put content (name :: rest) (directory entries) =
      directory (replace name (put content rest ((entries.lookup name).getD empty)) entries) := by
  rw [put]

theorem get?_put_self (content : FileTree) (place : List String) (tree : FileTree) :
    (put content place tree).get? place = some content := by
  induction place generalizing tree with
  | nil => rw [put, get?]
  | cons name rest ih =>
    cases tree <;> rw [put, get?, entry?, lookup_replace, if_pos rfl, Option.bind_some, ih]

theorem get?_append (tree : FileTree) (place more : List String) :
    tree.get? (place ++ more) = (tree.get? place).bind fun inner => inner.get? more := by
  induction place generalizing tree with
  | nil => rfl
  | cons name place ih => cases h : tree.entry? name <;> simp [get?, h, ih]

theorem get?_concat {tree : FileTree} {place : List String} {entries : List (String × FileTree)}
    (h : tree.get? place = some (directory entries)) (name : String) :
    tree.get? (place ++ [name]) = entries.lookup name := by
  rw [get?_append, h, Option.bind_some, get?, entry?]
  exact Option.bind_fun_some _

/-- Everything else stays when something is put into a directory, in place of nothing or of a file
by a file. -/
theorem exists_get?_put {content tree old : FileTree} {entries : List (String × FileTree)}
    {place path : List String} {name : String} (hplace : tree.get? place = some (directory entries))
    (hold : ∀ found, entries.lookup name = some found →
      found.isDirectory = false ∧ content.isDirectory = false)
    (h : tree.get? path = some old) :
    ∃ new, (put content (place ++ [name]) tree).get? path = some new ∧
      new.isDirectory = old.isDirectory ∧
      (path ≠ place ++ [name] → old.isDirectory = false → new = old) := by
  induction place generalizing tree path with
  | nil =>
    obtain rfl := Option.some.inj hplace
    rw [List.nil_append, put_directory]
    cases path with
    | nil =>
      obtain rfl := Option.some.inj h
      exact ⟨_, rfl, rfl, fun _ hfile => Bool.noConfusion hfile⟩
    | cons first rest =>
      rw [get?, entry?] at h ⊢
      rw [lookup_replace]
      split
      · next hfirst =>
        subst hfirst
        obtain ⟨found, hfound, hrest⟩ := Option.bind_eq_some_iff.1 h
        obtain ⟨hfile, hcontent⟩ := hold found hfound
        -- Nothing is below a file.
        cases rest with
        | nil =>
          obtain rfl := Option.some.inj hrest
          exact ⟨content, rfl, hcontent.trans hfile.symm, fun hne => absurd rfl hne⟩
        | cons next rest => cases found with
          | file => cases hrest
          | directory => exact Bool.noConfusion hfile
      · exact ⟨old, h, rfl, fun _ _ => rfl⟩
  | cons first place ih =>
    -- The directory on the way is replaced by one that differs below `first` only.
    obtain ⟨inner, hinner, hbelow⟩ := Option.bind_eq_some_iff.1 hplace
    cases tree with
    | file => cases hinner
    | directory others =>
      rw [ entry?] at hinner
      rw [List.cons_append, put_directory, hinner, Option.getD_some]
      cases path with
      | nil =>
        obtain rfl := Option.some.inj h
        exact ⟨_, rfl, rfl, fun _ hfile => Bool.noConfusion hfile⟩
      | cons start rest =>
        rw [get?, entry?] at h ⊢
        rw [lookup_replace]
        split
        · next hstart =>
          subst hstart
          rw [hinner, Option.bind_some] at h
          obtain ⟨new, hnew, hkind, hsame⟩ := ih hbelow h
          exact ⟨new, hnew, hkind, fun hne => hsame fun heq => hne (congrArg _ heq)⟩
        · exact ⟨old, h, rfl, fun _ _ => rfl⟩

end FileTree

/-! ### Places -/

/-- The last piece of a list is empty only after a separator. -/
theorem Text.getLast?_splitOn_concat {α : Type} {p : α → Bool} (xs : List α) (x : α) :
    (splitOn p (xs ++ [x])).getLast? = some [] ↔ p x = true := by
  refine ⟨fun hlast => ?_, fun hx => ?_⟩
  · by_contra hx
    induction xs with
    | nil => simp [splitOn, hx] at hlast
    | cons y xs ih =>
      obtain ⟨first, others, hxs⟩ := splitOn_eq_cons p (xs ++ [x])
      rw [List.cons_append, splitOn, hxs] at hlast
      rw [hxs] at ih
      split at hlast
      · exact ih hlast
      · cases others with
        | nil => cases hlast
        | cons second others => exact ih hlast
  · rw [splitOn_append_cons hx, splitOn, List.getLast?_concat]

namespace World

variable {world old new : World} {kept : List String → Prop} {path : Path}
    {place next : List String} {name : String}
  {content : List UInt8}

def HasDirectory (world : World) (place : List String) : Prop :=
  ∃ entries, world.root.get? place = some (.directory entries)

/-- A piece of a path that is the name of something in a directory. -/
def IsName (piece : List Char) : Prop :=
  piece ≠ [] ∧ piece ≠ ['.'] ∧ piece ≠ ['.', '.']

theorem hasDirectory_of_step {piece : List Char} (h : world.step place piece = .ok next) :
    world.HasDirectory place := by
  rw [step] at h
  split at h
  · cases h
  · cases h
  · next entries hentries => exact ⟨entries, hentries⟩

/-- One piece of a path, by where it leads. -/
theorem step_eq (h : world.HasDirectory place) (piece : List Char) :
    world.step place piece =
      if piece = [] ∨ piece = ['.'] then .ok place
      else if piece = ['.', '.'] then .ok place.dropLast
      else if (world.root.get? (place ++ [String.ofList piece])).isSome then .ok
        (place ++ [String.ofList piece])
      else .error .notFound := by
  obtain ⟨entries, hentries⟩ := h
  rw [step, hentries, FileTree.get?_concat hentries]

/-- What is at a place in a world is there in another one too, and the same where `kept` holds for a
file. -/
structure Extends (kept : List String → Prop) (old new : World) : Prop where
  working_eq : new.working = old.working
  exists_get? : ∀ {place tree}, old.root.get? place = some tree → ∃ after,
    new.root.get? place = some after ∧
    after.isDirectory = tree.isDirectory ∧ (kept place → tree.isDirectory = false → after = tree)

namespace Extends

theorem refl (kept : List String → Prop) (world : World) : Extends kept world world :=
  ⟨rfl, fun h => ⟨_, h, rfl, fun _ _ => rfl⟩⟩

theorem trans {middle : World} (first : Extends kept old middle)
    (second : Extends kept middle new) : Extends kept old new := by
  refine ⟨second.working_eq.trans first.working_eq, fun h => ?_⟩
  obtain ⟨tree, htree, hkind, hsame⟩ := first.exists_get? h
  obtain ⟨after, hafter, hkind', hsame'⟩ := second.exists_get? htree
  refine ⟨after, hafter, hkind'.trans hkind, fun hkept hfile => ?_⟩
  exact (hsame' hkept (hkind.trans hfile)).trans (hsame hkept hfile)

theorem hasDirectory (h : Extends kept old new) (hplace : old.HasDirectory place) :
    new.HasDirectory place := by
  obtain ⟨entries, hentries⟩ := hplace
  obtain ⟨after, hafter, hkind, -⟩ := h.exists_get? hentries
  cases after with
  | file => exact Bool.noConfusion hkind
  | directory others => exact ⟨others, hafter⟩

theorem step (h : Extends kept old new) {piece : List Char}
    (hstep : old.step place piece = .ok next) : new.step place piece = .ok next := by
  have hplace := hasDirectory_of_step hstep
  rw [step_eq hplace] at hstep
  rw [step_eq (h.hasDirectory hplace)]
  split_ifs at hstep with hdot hup hsome
  · rwa [if_pos hdot]
  · rwa [if_neg hdot, if_pos hup]
  · obtain ⟨tree, htree⟩ := Option.isSome_iff_exists.1 hsome
    obtain ⟨after, hafter, -⟩ := h.exists_get? htree
    rwa [if_neg hdot, if_neg hup, if_pos (Option.isSome_iff_exists.2 ⟨after, hafter⟩)]

theorem foldlM (h : Extends kept old new) {pieces : List (List Char)}
    (hfold : pieces.foldlM old.step place = .ok next) :
    pieces.foldlM new.step place = .ok next := by
  induction pieces generalizing place with
  | nil => exact hfold
  | cons piece pieces ih =>
    rw [List.foldlM_cons] at hfold ⊢
    obtain ⟨middle, hstep, hrest⟩ := exists_of_bind_eq_ok hfold
    rw [h.step hstep]
    exact ih hrest

theorem startOf (h : Extends kept old new) (path : Path) : new.startOf path = old.startOf path := by
  rw [World.startOf, World.startOf, h.working_eq]

theorem place_eq (h : Extends kept old new) (hplace : old.place path = .ok place) :
    new.place path = .ok place := by
  rw [World.place] at hplace ⊢
  split at hplace
  · cases hplace
  · next hempty => rw [if_neg hempty, h.startOf, h.foldlM hplace]

theorem newPlace (h : Extends kept old new) {found : List String × Option String}
    (hfound : old.newPlace path = .ok found) : new.newPlace path = .ok found := by
  rw [World.newPlace] at hfound ⊢
  split at hfound
  · cases hfound
  · next hempty =>
    obtain ⟨middle, hfold, hrest⟩ := exists_of_bind_eq_ok hfound
    obtain ⟨last, hstep, hresult⟩ := exists_of_bind_eq_ok hrest
    -- Once the walk has led to a place, the rest depends on the text of the path alone.
    rw [if_neg hempty, h.startOf]
    dsimp only
    rw [h.foldlM hfold]
    change (new.step middle [] >>= _) = _
    rw [h.step hstep]
    exact hresult

end Extends

/-- The pieces of a path that ends with no slash end with no empty one. -/
theorem dropWhile_pieces {text : List Char} (htext : text ≠ [])
    (hslash : text.getLast? ≠ some '/') :
    ∃ pieces last, Path.pieces text = pieces ++ [last] ∧ last ≠ [] ∧
      (Path.pieces text).reverse.dropWhile List.isEmpty = (pieces ++ [last]).reverse := by
  obtain ⟨first, c, rfl⟩ : ∃ first c, text = first ++ [c] :=
    ⟨_, _, (List.dropLast_append_getLast htext).symm⟩
  have hne : Path.pieces (first ++ [c]) ≠ [] := by
    obtain ⟨piece, others, h⟩ := Text.splitOn_eq_cons (· == '/') (first ++ [c])
    rw [Path.pieces, h]
    exact List.cons_ne_nil piece others
  obtain ⟨pieces, last, hpieces⟩ : ∃ pieces last, Path.pieces (first ++ [c]) = pieces ++ [last] :=
    ⟨_, _, (List.dropLast_append_getLast hne).symm⟩
  have hlast : last ≠ [] := by
    rintro rfl
    have hc :=
      (Text.getLast?_splitOn_concat first c).1 ((congrArg _ hpieces).trans List.getLast?_concat)
    exact hslash (by rw [List.getLast?_concat, eq_of_beq hc])
  refine ⟨pieces, last, hpieces, hlast, ?_⟩
  rw [hpieces, List.reverse_concat, List.dropWhile_cons_of_neg (by rwa [List.isEmpty_iff])]

/-- A new name stands at the end of a path, after pieces that lead to a directory. -/
theorem exists_of_newPlace (h : world.newPlace path = .ok (place, some name)) :
    ∃ pieces last, Path.pieces path.text = pieces ++ [last] ∧ IsName last ∧
      name = String.ofList last ∧
      pieces.foldlM world.step (world.startOf path) = .ok place ∧ world.HasDirectory place := by
  rw [newPlace] at h
  split at h
  · cases h
  · next hempty =>
    obtain ⟨middle, hfold, hrest⟩ := exists_of_bind_eq_ok h
    obtain ⟨final, hstep, hresult⟩ := exists_of_bind_eq_ok hrest
    have hmiddle := hasDirectory_of_step hstep
    obtain rfl : middle = final := Except.ok.inj ((step_eq hmiddle []).symm.trans hstep)
    split at hresult
    · cases hresult
    · next last hlast =>
      dsimp only at hresult
      split at hresult
      · cases hresult
      · next hname =>
        obtain ⟨rfl, hsome⟩ := Prod.mk.inj (Except.ok.inj hresult)
        simp only [Bool.or_eq_true, beq_iff_eq, not_or] at hname
        obtain ⟨⟨hslash, hdot⟩, hup⟩ := hname
        obtain ⟨pieces, piece, hpieces, hpiece, hnames⟩ :=
          dropWhile_pieces (by rwa [List.isEmpty_iff] at hempty) hslash
        rw [hnames, List.reverse_reverse] at hfold hlast
        rw [List.dropLast_concat] at hfold
        obtain rfl := Option.some.inj (List.getLast?_concat.symm.trans hlast)
        exact ⟨pieces, piece, hpieces, ⟨hpiece, hdot, hup⟩, (Option.some.inj hsome).symm,
          hfold, hmiddle⟩

theorem find_eq (world : World) (path : Path) :
    world.find path = world.place path >>= fun place =>
      (world.root.get? place).elim (.error .notFound) .ok := by
  rw [find]
  refine congrArg _ (funext fun place => ?_)
  cases world.root.get? place <;> rfl

theorem find_of_newPlace (h : world.newPlace path = .ok (place, some name)) :
    world.find path = (world.root.get? (place ++ [name])).elim (.error .notFound) .ok := by
  obtain ⟨pieces, last, hpieces, ⟨hlast, hdot, hup⟩, rfl, hfold, hdirectory⟩ := exists_of_newPlace h
  have hempty : ¬path.text.isEmpty = true := fun hempty => by
    rw [List.isEmpty_iff.1 hempty] at hpieces
    exact hlast
      (Option.some.inj (List.getLast?_concat.symm.trans (congrArg List.getLast? hpieces.symm)))
  rw [find_eq, World.place, if_neg hempty, hpieces, List.foldlM_append, hfold]
  -- The last piece is one more step from where the others lead.
  change ([last].foldlM world.step place >>= _) = _
  simp only [List.foldlM_cons, List.foldlM_nil, bind_pure]
  rw [step_eq hdirectory, if_neg (not_or.2 ⟨hlast, hdot⟩), if_neg hup]
  split
  · rfl
  · next hnone => rw [Option.not_isSome_iff_eq_none.1 hnone]; rfl

/-! ### Writing -/

/-- Everything else stays where something is put at a new place, unless it takes the place of a
directory. -/
theorem extends_put (content : FileTree) (h : world.newPlace path = .ok (place, some name))
    (hold : ∀ found, world.root.get? (place ++ [name]) = some found →
      found.isDirectory = false ∧ content.isDirectory = false) :
    Extends (· ≠ place ++ [name]) world
      { world with root := .put content (place ++ [name]) world.root } := by
  obtain ⟨pieces, last, -, -, -, -, entries, hentries⟩ := exists_of_newPlace h
  refine ⟨rfl, FileTree.exists_get?_put hentries fun found hfound => hold found ?_⟩
  rwa [FileTree.get?_concat hentries]

theorem extends_createDirectory (h : old.createDirectory path = .ok new) :
    Extends (fun _ => True) old new := by
  rw [createDirectory] at h
  split at h
  · obtain rfl := Except.ok.inj h
    exact .refl _ _
  · cases h
  · next hfind =>
    obtain ⟨⟨place, name?⟩, hplace, hmade⟩ := exists_of_bind_eq_ok h
    cases name? with
    | none => cases hmade
    | some name =>
      obtain rfl := Except.ok.inj hmade
      -- The path would lead to what is at the place.
      have hnone : old.root.get? (place ++ [name]) = none := by
        cases hfound : old.root.get? (place ++ [name]) with
        | none => rfl
        | some found =>
          rw [find_of_newPlace hplace, hfound] at hfind
          cases hfind
      have hextends :=
        extends_put .empty hplace fun found hfound => by cases hnone.symm.trans hfound
      refine ⟨rfl, fun {here tree} htree => ?_⟩
      obtain ⟨after, hafter, hkind, hsame⟩ := hextends.exists_get? htree
      refine ⟨after, hafter, hkind, fun _ => hsame ?_⟩
      rintro rfl
      cases hnone.symm.trans htree
  · cases h

theorem extends_createFrom {paths : List Path} (h : old.createFrom paths = .ok new) :
    Extends (fun _ => True) old new := by
  induction paths generalizing new with
  | nil => cases h
  | cons path above ih =>
    rw [createFrom] at h
    split at h
    · obtain rfl := Except.ok.inj h
      exact .refl _ _
    · split at h
      · obtain ⟨middle, hmiddle, hmade⟩ := exists_of_bind_eq_ok h
        exact (ih hmiddle).trans (extends_createDirectory hmade)
      · exact extends_createDirectory h

theorem extends_createParent (h : old.createParent path = .ok new) :
    Extends (fun _ => True) old new := by
  rw [createParent] at h
  split at h
  · obtain rfl := Except.ok.inj h
    exact .refl _ _
  · split at h
    · obtain rfl := Except.ok.inj h
      exact .refl _ _
    · exact extends_createFrom h

theorem Extends.find_eq_file (h : Extends (fun _ => True) old new)
    (hcontent : old.readBytes path = .ok content) : new.find path = .ok (.file content) := by
  obtain ⟨tree, hfind, htree⟩ := exists_of_bind_eq_ok hcontent
  cases tree with
  | directory => cases htree
  | file =>
    obtain rfl := Except.ok.inj htree
    rw [find_eq] at hfind ⊢
    obtain ⟨place, hplace, hfound⟩ := exists_of_bind_eq_ok hfind
    cases hold : old.root.get? place with
    | none => rw [hold] at hfound; cases hfound
    | some tree =>
      rw [hold] at hfound
      obtain rfl := Except.ok.inj hfound
      obtain ⟨after, hafter, -, hsame⟩ := h.exists_get? hold
      rw [h.place_eq hplace]
      change (new.root.get? place).elim _ _ = _
      rw [hafter, hsame trivial rfl]
      rfl

/-- A path at which a file can be written leads to a file with a content. -/
def FileAt (world : World) (path : Path) (content : List UInt8) : Prop :=
  ∃ place name, world.newPlace path = .ok (place, some name) ∧
    world.root.get? (place ++ [name]) = some (.file content)

theorem FileAt.readBytes (h : world.FileAt path content) : world.readBytes path = .ok content := by
  obtain ⟨place, name, hplace, hcontent⟩ := h
  rw [World.readBytes, find_of_newPlace hplace, hcontent]
  rfl

/-- What is written stands at the end of a file, which may be new. -/
theorem exists_append {before : List UInt8} (hplace : world.newPlace path = .ok (place, some name))
    (hbefore : world.root.get? (place ++ [name]) = some (.file before) ∨
      world.root.get? (place ++ [name]) = none ∧ before = []) (content : List UInt8) :
    ∃ after, world.append path content = .ok after ∧ after.FileAt path (before ++ content) := by
  have hextends := extends_put (.file (before ++ content)) hplace fun found hfound => by
    rcases hbefore with h | ⟨h, -⟩
    · obtain rfl := Option.some.inj (h.symm.trans hfound)
      exact ⟨rfl, rfl⟩
    · cases h.symm.trans hfound
  refine ⟨_, ?_, place, name, hextends.newPlace hplace, FileTree.get?_put_self _ _ _⟩
  rcases hbefore with h | ⟨h, rfl⟩ <;>
    simp only [World.append, filePlace, hplace, h, bind, Except.bind, pure, Except.pure]

theorem exists_of_append (h : old.append path content = .ok new) :
    ∃ place name before, old.newPlace path = .ok (place, some name) ∧
      (old.root.get? (place ++ [name]) = some (.file before) ∨
        old.root.get? (place ++ [name]) = none ∧ before = []) := by
  obtain ⟨found, hfile, -⟩ := exists_of_bind_eq_ok h
  obtain ⟨⟨place, name?⟩, hplace, hrest⟩ := exists_of_bind_eq_ok hfile
  cases name? with
  | none => cases hrest
  | some name =>
    dsimp only at hrest
    split at hrest
    · cases hrest
    · next hnot =>
      cases hold : old.root.get? (place ++ [name]) with
      | none => exact ⟨place, name, [], hplace, .inr ⟨hold, rfl⟩⟩
      | some tree => cases tree with
        | file before => exact ⟨place, name, before, hplace, .inl hold⟩
        | directory entries => exact absurd hold (hnot entries)

theorem FileAt.append {before : List UInt8} (h : world.FileAt path before) (content : List UInt8) :
    ∃ after, world.append path content = .ok after ∧ after.FileAt path (before ++ content) := by
  obtain ⟨place, name, hplace, hbefore⟩ := h
  exact exists_append hplace (.inl hbefore) content

/-- A log that is opened holds what it held before. -/
theorem FileAt.of_openLog (h : old.openLog path = .ok new) :
    ∃ before, new.FileAt path before ∧ ∀ content, old.readBytes path = .ok content →
      content = before := by
  obtain ⟨middle, hmiddle, hnew⟩ := exists_of_bind_eq_ok h
  obtain ⟨place, name, before, hplace, hbefore⟩ := exists_of_append hnew
  obtain ⟨after, hafter, hfile⟩ := exists_append hplace hbefore []
  obtain rfl := Except.ok.inj (hafter.symm.trans hnew)
  rw [List.append_nil] at hfile
  refine ⟨before, hfile, fun content hcontent => ?_⟩
  have hfind : middle.find path = .ok (.file content) :=
    (extends_createParent hmiddle).find_eq_file hcontent
  rw [find_of_newPlace hplace] at hfind
  rcases hbefore with hbefore | ⟨hbefore, -⟩
  · rw [hbefore] at hfind
    exact (FileTree.file.inj (Except.ok.inj hfind)).symm
  · rw [hbefore] at hfind
    cases hfind

end World

end PythonLint
