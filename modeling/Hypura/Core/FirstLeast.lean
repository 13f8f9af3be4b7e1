import Mathlib.Order.Lattice
import Mathlib.Order.Nat
import Mathlib.Tactic.TypeStar

/-!
# Hypura.Core.FirstLeast

The first index of least cost, among the indices that are admitted.

* `FirstLeast p f i` — `i` is admitted, no admitted index is cheaper, and every admitted
  index before it is dearer,
* `FirstLeast.unique` — there is at most one,
* `FirstLeast.keep`, `FirstLeast.replace` — one more index behind those seen so far: what
  a scan that keeps the best index does at each step.
-/

namespace Hypura.Core

/-- The first index of least cost among those that `p` admits. -/
structure FirstLeast {ι α : Type*} [LT ι] [LinearOrder α] (p : ι → Prop) (f : ι → α) (i : ι) :
    Prop where
  admitted : p i
  least : ∀ j, p j → f i ≤ f j
  first : ∀ j, p j → j < i → f i < f j

namespace FirstLeast
variable {ι α : Type*} [LinearOrder ι] [LinearOrder α] {p q : ι → Prop} {f g : ι → α} {i j k : ι}

theorem unique (hi : FirstLeast p f i) (hj : FirstLeast p f j) : i = j := by
  rcases lt_trichotomy i j with hlt | heq | hgt
  · exact absurd (hj.first i hi.admitted hlt) (not_lt.mpr (hi.least j hj.admitted))
  · exact heq
  · exact absurd (hi.first j hj.admitted hgt) (not_lt.mpr (hj.least i hi.admitted))

/-- Only the admitted indices and their costs matter. -/
theorem congr (hp : ∀ j, p j ↔ q j) (hf : ∀ j, q j → f j = g j) (h : FirstLeast p f i) :
    FirstLeast q g i := by
  have hi := (hp i).mp h.admitted
  refine ⟨hi, fun j hj => ?_, fun j hj hlt => ?_⟩
  · rw [← hf i hi, ← hf j hj]
    exact h.least j ((hp j).mpr hj)
  · rw [← hf i hi, ← hf j hj]
    exact h.first j ((hp j).mpr hj) hlt

/-- A later index that is not cheaper leaves the best one. -/
theorem keep (h : FirstLeast (fun j => p j ∧ j < k) f i) (hk : f i ≤ f k) :
    FirstLeast (fun j => p j ∧ j ≤ k) f i := by
  refine ⟨⟨h.admitted.1, h.admitted.2.le⟩, fun j hj => ?_, fun j hj hlt => ?_⟩
  · rcases hj.2.lt_or_eq with hlt | rfl
    · exact h.least j ⟨hj.1, hlt⟩
    · exact hk
  · exact h.first j ⟨hj.1, hlt.trans h.admitted.2⟩ hlt

/-- A later index that is cheaper takes its place. -/
theorem replace (h : FirstLeast (fun j => p j ∧ j < k) f i) (hpk : p k) (hk : f k < f i) :
    FirstLeast (fun j => p j ∧ j ≤ k) f k := by
  have hbefore : ∀ j, p j → j < k → f k < f j := fun j hj hlt => hk.trans_le (h.least j ⟨hj, hlt⟩)
  refine ⟨⟨hpk, le_rfl⟩, fun j hj => ?_, fun j hj hlt => hbefore j hj.1 hlt⟩
  rcases hj.2.lt_or_eq with hlt | rfl
  · exact (hbefore j hj.1 hlt).le
  · exact le_rfl

end FirstLeast

end Hypura.Core
