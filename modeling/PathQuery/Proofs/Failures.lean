/-!
# Computations that can fail

A computation in steps succeeds only if each of its steps does.
-/

namespace PathQuery

variable {ε β γ : Type} {x : Except ε β}

theorem exists_of_bind_eq_ok {f : β → Except ε γ} {result : γ} (h : x >>= f = .ok result) :
    ∃ value, x = .ok value ∧ f value = .ok result := by
  cases x with
  | error e => cases h
  | ok value => exact ⟨value, rfl, h⟩

theorem exists_of_map_eq_ok {f : β → γ} {result : γ} (h : x.map f = .ok result) :
    ∃ value, x = .ok value ∧ f value = result := by
  cases x with
  | error e => cases h
  | ok value =>
    cases h
    exact ⟨value, rfl, rfl⟩

end PathQuery
