/-!
# Computations that may fail

A computation that is made of others succeeds only where they do. The lemmas lead from its value
back to the values of its parts, so that a proof about what it yields does not look at the ways in
which it fails, and from its error to the part that raises it.

Main statements: `exists_of_map_eq_ok`, `exists_of_bind_eq_ok`, `bind_error_cases`,
`exists_of_any_toOption`.
-/

namespace PythonLint

variable {ε α β : Type} {first : Except ε α} {result : β} {fault : ε}

theorem exists_of_map_eq_ok {f : α → β} (h : first.map f = .ok result) :
    ∃ value, first = .ok value ∧ result = f value := by
  cases first with
  | error => cases h
  | ok value =>
    cases h
    exact ⟨value, rfl, rfl⟩

theorem exists_of_bind_eq_ok {next : α → Except ε β} (h : first >>= next = .ok result) :
    ∃ value, first = .ok value ∧ next value = .ok result := by
  cases first with
  | error => cases h
  | ok value => exact ⟨value, rfl, h⟩

theorem eq_error_of_map_eq_error {f : α → β} (h : first.map f = .error fault) :
    first = .error fault := by
  cases first with
  | error =>
    cases h
    rfl
  | ok => cases h

/-- The first part fails, or the second one at the value of the first. -/
theorem bind_error_cases {next : α → Except ε β} (h : first >>= next = .error fault) :
    first = .error fault ∨ ∃ value, first = .ok value ∧ next value = .error fault := by
  cases first with
  | error =>
    cases h
    exact .inl rfl
  | ok value => exact .inr ⟨value, rfl, h⟩

/-- A value that passes a check exists, which is known without the value when the check is
evaluated. -/
theorem exists_of_any_toOption {check : α → Bool} (h : first.toOption.any check = true) :
    ∃ value, first = .ok value ∧ check value = true := by
  cases first with
  | error => cases h
  | ok value => exact ⟨value, rfl, h⟩

end PythonLint
