import PythonLint.Text.Split

/-!
# Splitting at separators

A list without separators is one piece, and a separator cuts a list in two, whose pieces are those
of the list.

Main statements: `splitOn_eq_singleton`, `splitOn_append_cons`, `splitOn_append_rows`.
-/

namespace PythonLint.Text

theorem splitOn_eq_singleton {α : Type} {p : α → Bool} {xs : List α} (h : ∀ x ∈ xs, p x = false) :
    splitOn p xs = [xs] := by
  induction xs with
  | nil => rfl
  | cons x xs ih =>
    have hx : p x = false := h x List.mem_cons_self
    have hxs := ih fun y hy => h y (List.mem_cons_of_mem x hy)
    simp [splitOn, hx, hxs]

theorem splitOn_eq_cons {α : Type} (p : α → Bool) (xs : List α) :
    ∃ first others, splitOn p xs = first :: others := by
  cases xs with
  | nil => exact ⟨[], [], rfl⟩
  | cons x xs =>
    unfold splitOn
    split
    · exact ⟨_, _, rfl⟩
    · split <;> exact ⟨_, _, rfl⟩

theorem splitOn_append_cons {α : Type} {p : α → Bool} {x : α} (hx : p x = true) (xs ys : List α) :
    splitOn p (xs ++ x :: ys) = splitOn p xs ++ splitOn p ys := by
  induction xs with
  | nil => simp [splitOn, hx]
  | cons y xs ih =>
    obtain ⟨first, others, hxs⟩ := splitOn_eq_cons p xs
    by_cases hy : p y = true
    · simp [splitOn, hy, ih]
    · simp [splitOn, hy, ih, hxs]

/-- Rows that follow what is empty or ends with a separator, each with a separator after it. -/
theorem splitOn_append_rows {α : Type} {p : α → Bool} {x : α} (hx : p x = true) {before : List α}
    (hbefore : before = [] ∨ before.getLast? = some x) {rows : List (List α)}
    (hrows : ∀ row ∈ rows, ∀ y ∈ row, p y = false) :
    splitOn p (before ++ rows.flatMap (· ++ [x])) =
      (splitOn p before).dropLast ++ rows ++ [[]] := by
  have hsplit : splitOn p (rows.flatMap (· ++ [x])) = rows ++ [[]] := by
    induction rows with
    | nil => rfl
    | cons row rows ih =>
      obtain ⟨hrow, hrows⟩ := List.forall_mem_cons.1 hrows
      rw [List.flatMap_cons, List.append_assoc, List.singleton_append, splitOn_append_cons hx,
        splitOn_eq_singleton hrow, ih hrows, List.singleton_append, List.cons_append]
  rcases hbefore with rfl | hlast
  · exact hsplit
  · obtain ⟨first, rfl⟩ := List.getLast?_eq_some_iff.1 hlast
    rw [List.append_assoc, List.singleton_append, splitOn_append_cons hx, splitOn_append_cons hx,
      hsplit, splitOn, List.dropLast_concat, List.append_assoc]

end PythonLint.Text
