import Mathlib.Tactic

/-!
# Hypura.Core.Exec

Taking successful runs of a program with state and errors apart: what a `bind`, a
`map` and a `pure` did when the whole succeeded, and how to run one whose first part
is known to succeed.
-/

namespace Hypura.Core

section Exec
variable {ε σ α β : Type}

theorem bind_ok {p : EStateM ε σ α} {f : α → EStateM ε σ β} {s s' : σ} {b : β}
    (h : (p >>= f) s = .ok b s') : ∃ a s₁, p s = .ok a s₁ ∧ f a s₁ = .ok b s' := by
  change EStateM.bind p f s = .ok b s' at h
  unfold EStateM.bind at h
  cases hp : p s with
  | ok a s₁ => exact ⟨a, s₁, rfl, by simpa [hp] using h⟩
  | error e s₁ => simp [hp] at h

theorem bind_eq_of_ok {p : EStateM ε σ α} {f : α → EStateM ε σ β} {s s₁ : σ} {a : α}
    (h : p s = .ok a s₁) : (p >>= f) s = f a s₁ := by
  change EStateM.bind p f s = f a s₁
  simp [EStateM.bind, h]

theorem bind_eq_of_error {p : EStateM ε σ α} {f : α → EStateM ε σ β} {s s₁ : σ} {e : ε}
    (h : p s = .error e s₁) : (p >>= f) s = .error e s₁ := by
  change EStateM.bind p f s = .error e s₁
  simp [EStateM.bind, h]

theorem pure_ok {a b : α} {s s' : σ}
    (h : (pure a : EStateM ε σ α) s = .ok b s') : a = b ∧ s = s' := by
  change EStateM.Result.ok a s = .ok b s' at h
  cases h
  exact ⟨rfl, rfl⟩

theorem map_ok {p : EStateM ε σ α} {f : α → β} {s s' : σ} {b : β}
    (h : (f <$> p) s = .ok b s') : ∃ a, p s = .ok a s' ∧ b = f a := by
  change EStateM.map f p s = .ok b s' at h
  unfold EStateM.map at h
  cases hp : p s with
  | ok a s₁ =>
      simp only [hp, EStateM.Result.ok.injEq] at h
      exact ⟨a, by rw [h.2], h.1.symm⟩
  | error e s₁ => simp [hp] at h

theorem map_eq_of_ok {p : EStateM ε σ α} {f : α → β} {s s₁ : σ} {a : α}
    (h : p s = .ok a s₁) : (f <$> p) s = .ok (f a) s₁ := by
  change EStateM.map f p s = .ok (f a) s₁
  simp [EStateM.map, h]

/-- What a program that only throws cannot do. -/
theorem throw_ne_ok {e : ε} {s s' : σ} {a : α} :
    (throw e : EStateM ε σ α) s ≠ .ok a s' := by
  intro h
  cases h

end Exec

end Hypura.Core
