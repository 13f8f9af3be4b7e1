import Mathlib.Tactic

/-!
# Hypura.Core.Trace

Runs of a labelled transition system whose step function may refuse a label.

`Reaches step ok init s`: some run leads from `init` to `s`, and each of its steps met
the condition `ok` in the state it was taken from. `Reaches.invariant` is the induction
over such runs; `exec` runs a given list of labels, so that a run can be exhibited.
-/

namespace Hypura.Core

/-- A step that is taken under a condition. -/
theorem eq_of_guarded {σ : Type} {p : Prop} [Decidable p] {s s' : σ}
    (h : (if p then some s else none) = some s') : p ∧ s = s' := by
  obtain ⟨hp, heq⟩ := Option.ite_none_right_eq_some.mp h
  exact ⟨hp, Option.some.inj heq⟩

section Trace
variable {σ ℓ : Type} {step : σ → ℓ → Option σ} {ok : σ → ℓ → Prop} {init : σ}

/-- The states that runs of `ok` steps lead to. -/
inductive Reaches (step : σ → ℓ → Option σ) (ok : σ → ℓ → Prop) (init : σ) : σ → Prop
  | refl : Reaches step ok init init
  | tail {s s' : σ} {l : ℓ} : Reaches step ok init s → ok s l → step s l = some s' →
      Reaches step ok init s'

/-- What holds at the start and is kept by every `ok` step holds in every state reached. -/
theorem Reaches.invariant {P : σ → Prop} (h₀ : P init)
    (hstep : ∀ s l s', P s → ok s l → step s l = some s' → P s') {s : σ}
    (h : Reaches step ok init s) : P s := by
  induction h with
  | refl => exact h₀
  | tail _ hok hs ih => exact hstep _ _ _ ih hok hs

/-- A weaker condition on the steps leads at least as far. -/
theorem Reaches.mono {ok' : σ → ℓ → Prop} (himp : ∀ s l, ok s l → ok' s l) {s : σ}
    (h : Reaches step ok init s) : Reaches step ok' init s := by
  induction h with
  | refl => exact .refl
  | tail _ hok hs ih => exact ih.tail (himp _ _ hok) hs

/-- Take the given steps in order; `none` when one is refused or is not `ok`. -/
def exec (step : σ → ℓ → Option σ) (ok : σ → ℓ → Bool) : σ → List ℓ → Option σ
  | s, [] => some s
  | s, l :: ls => if ok s l then (step s l).bind fun s' => exec step ok s' ls else none

theorem Reaches.exec {okb : σ → ℓ → Bool} (hok : ∀ s l, okb s l = true → ok s l) :
    ∀ {ls : List ℓ} {s s' : σ}, Reaches step ok init s → Core.exec step okb s ls = some s' →
      Reaches step ok init s'
  | [], s, s', hr, h => by
      cases h
      exact hr
  | l :: ls, s, s', hr, h => by
      rw [Core.exec] at h
      split at h
      · next hl =>
          obtain ⟨s₁, hs₁, hrest⟩ := Option.bind_eq_some_iff.mp h
          exact Reaches.exec hok (hr.tail (hok _ _ hl) hs₁) hrest
      · cases h

end Trace

end Hypura.Core
