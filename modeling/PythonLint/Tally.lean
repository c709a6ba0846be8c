/-!
# Numbers by name

A number for each of some names, in order of the names.
-/

namespace PythonLint

/-- A number for each of some names, in order of the names. -/
structure Tally where
  entries : List (String × Nat)
  sorted : entries.Pairwise fun first second => first.1 < second.1
deriving DecidableEq, Repr

namespace Tally

def empty : Tally := ⟨[], .nil⟩

/-- Entries in order with a new number for a name, which may depend on the number that it had. -/
def updateIn (name : String) (change : Option Nat → Nat) : List (String × Nat) → List (String × Nat)
  | [] => [(name, change none)]
  | (other, number) :: rest =>
    if name < other then (name, change none) :: (other, number) :: rest
    else if name = other then (name, change (some number)) :: rest
    else (other, number) :: updateIn name change rest

theorem fst_of_mem_updateIn {name : String} {change : Option Nat → Nat}
    {entries : List (String × Nat)} {entry : String × Nat}
    (h : entry ∈ updateIn name change entries) : entry.1 = name ∨ entry ∈ entries := by
  fun_induction updateIn name change entries with
  | case1 => exact .inl (by rw [List.mem_singleton.1 h])
  | case2 other number rest hlt =>
    rcases List.mem_cons.1 h with rfl | h
    · exact .inl rfl
    · exact .inr h
  | case3 number rest hlt =>
    rcases List.mem_cons.1 h with rfl | h
    · exact .inl rfl
    · exact .inr (List.mem_cons_of_mem _ h)
  | case4 other number rest hlt hne ih =>
    rcases List.mem_cons.1 h with rfl | h
    · exact .inr List.mem_cons_self
    · exact (ih h).imp_right (List.mem_cons_of_mem _)

theorem pairwise_updateIn {entries : List (String × Nat)} (name : String)
    (change : Option Nat → Nat) (h : entries.Pairwise fun first second => first.1 < second.1) :
    (updateIn name change entries).Pairwise fun first second => first.1 < second.1 := by
  fun_induction updateIn name change entries with
  | case1 => exact List.pairwise_singleton _ _
  | case2 other number rest hlt =>
    refine List.pairwise_cons.2 ⟨List.forall_mem_cons.2 ⟨hlt, fun entry hmem => ?_⟩, h⟩
    exact String.lt_trans hlt ((List.pairwise_cons.1 h).1 entry hmem)
  | case3 number rest hlt => exact List.pairwise_cons.2 (List.pairwise_cons.1 h)
  | case4 other number rest hlt hne ih =>
    obtain ⟨hother, hrest⟩ := List.pairwise_cons.1 h
    refine List.pairwise_cons.2 ⟨fun entry hmem => ?_, ih hrest⟩
    rcases fst_of_mem_updateIn hmem with hname | hmem
    · exact hname ▸ Std.lt_of_le_of_ne (String.not_lt.1 hlt) (Ne.symm hne)
    · exact hother entry hmem

/-- The tally with a new number for a name, which may depend on the number that it had. -/
def update (tally : Tally) (name : String) (change : Option Nat → Nat) : Tally :=
  ⟨updateIn name change tally.entries, pairwise_updateIn name change tally.sorted⟩

def add (tally : Tally) (name : String) : Tally :=
  tally.update name fun number => number.getD 0 + 1

end Tally

end PythonLint
