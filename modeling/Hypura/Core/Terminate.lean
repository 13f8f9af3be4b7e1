import Mathlib.Order.WellFounded
import Mathlib.Tactic

/-!
# Hypura.Core.Terminate

Runs that come to an end.

`EndsIn r goal s`: every run of `r` from `s`, continued for as long as it can be, is
finite, and ends in a state with `goal`. Nothing is assumed about which of the possible
steps is taken, so this is termination under every scheduler, fair or not.
-/

namespace Hypura.Core

section EndsIn
variable {σ : Type} {r : σ → σ → Prop} {goal : σ → Prop}

inductive EndsIn (r : σ → σ → Prop) (goal : σ → Prop) : σ → Prop
  | intro {s : σ} (next : ∀ s', r s s' → EndsIn r goal s')
      (last : (∀ s', ¬ r s s') → goal s) : EndsIn r goal s

namespace EndsIn

/-- An invariant of the steps, a measure they decrease, and the goal wherever none is left. -/
theorem of_measure {α : Type} {lt : α → α → Prop} (hlt : WellFounded lt) (measure : σ → α)
    (inv : σ → Prop) (hkeep : ∀ s s', inv s → r s s' → inv s')
    (hless : ∀ s s', inv s → r s s' → lt (measure s') (measure s))
    (hlast : ∀ s, inv s → (∀ s', ¬ r s s') → goal s) {s : σ} (hs : inv s) : EndsIn r goal s := by
  -- by induction on the measure
  obtain ⟨a, ha⟩ : ∃ a, measure s = a := ⟨_, rfl⟩
  induction a using hlt.induction generalizing s with
  | _ a ih =>
      subst ha
      refine ⟨fun s' hr => ?_, hlast s hs⟩
      exact ih _ (hless s s' hs hr) (hkeep s s' hs hr) rfl

end EndsIn

end EndsIn

/-! ### A measure of many parts -/

theorem sum_map_set {α : Type} (f : α → Nat) {xs : List α} {w : Nat} {x : α} (h : xs[w]? = some x)
    (y : α) : ((xs.set w y).map f).sum + f x = (xs.map f).sum + f y := by
  induction xs generalizing w with
  | nil => cases h
  | cons first xs ih =>
      cases w with
      | zero =>
          cases h
          simp only [List.set_cons_zero, List.map_cons, List.sum_cons]
          omega
      | succ w =>
          have hrest := ih h
          simp only [List.set_cons_succ, List.map_cons, List.sum_cons]
          omega

/-- One part gets smaller. -/
theorem sum_map_set_lt {α : Type} (f : α → Nat) {xs : List α} {w : Nat} {x y : α}
    (h : xs[w]? = some x) (hless : f y < f x) : ((xs.set w y).map f).sum < (xs.map f).sum := by
  have hset := sum_map_set f h y
  omega

end Hypura.Core
