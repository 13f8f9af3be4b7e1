import Hypura.Core.Exec

/-!
# Hypura.Core.Account

Accounts of programs. An account says how far a program with state and errors gets,
without the state it works on: it ends where the program ends. `Follows` relates the two,
and is proved step by step (`Follows.bind`).
-/

namespace Hypura.Core

section Account
variable {ε σ ρ α β α' β' : Type} {leaves : ρ → σ → Prop} {good : β → α → σ → Prop}
  {good' : β' → α' → σ → Prop}

/-- The result of a program follows an account: both succeed, with `good` results, or both
fail, in a state that the account's failure describes. -/
def Follows (leaves : ρ → σ → Prop) (good : β → α → σ → Prop) :
    EStateM.Result ε σ β → Except ρ α → Prop
  | .ok b s, .ok a => good b a s
  | .error _ s, .error r => leaves r s
  | _, _ => False

theorem Follows.pure {b : β} {a : α} {s : σ} (h : good b a s) :
    Follows leaves good ((Pure.pure b : EStateM ε σ β) s) (Pure.pure a : Except ρ α) := h

theorem Follows.throw {e : ε} {r : ρ} {s : σ} (h : leaves r s) :
    Follows leaves good ((throw e : EStateM ε σ β) s) (throw r : Except ρ α) := h

/-- One step, and then the rest. -/
theorem Follows.bind {x : EStateM ε σ β} {f : β → EStateM ε σ β'} {s : σ} {p : Except ρ α}
    {q : α → Except ρ α'} (h : Follows leaves good (x s) p)
    (hrest : ∀ b a s', good b a s' → Follows leaves good' (f b s') (q a)) :
    Follows leaves good' ((x >>= f) s) (p >>= q) := by
  cases hx : x s with
  | ok b s' =>
      rw [hx] at h
      cases p with
      | ok a =>
          rw [bind_eq_of_ok hx]
          exact hrest b a s' h
      | error r => exact h.elim
  | error e s' =>
      rw [hx] at h
      cases p with
      | ok a => exact h.elim
      | error r =>
          rw [bind_eq_of_error hx]
          exact h

theorem Follows.imp {r : EStateM.Result ε σ β} {p : Except ρ α} {better : β → α → σ → Prop}
    (h : Follows leaves better r p) (himp : ∀ b a s, better b a s → good b a s) :
    Follows leaves good r p :=
  match r, p with
  | .ok b s, .ok a => himp b a s h
  | .error _ _, .error _ => h

/-- Where the program fails, so does the account. -/
theorem Follows.of_error {x : EStateM ε σ β} {s s' : σ} {e : ε} {p : Except ρ α}
    (h : Follows leaves good (x s) p) (hx : x s = .error e s') : ∃ r, p = .error r ∧ leaves r s' := by
  rw [hx] at h
  cases p with
  | ok a => cases h
  | error r => exact ⟨r, rfl, h⟩

end Account

end Hypura.Core
