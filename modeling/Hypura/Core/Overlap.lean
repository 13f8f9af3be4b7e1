import Mathlib.Algebra.Order.BigOperators.Group.List
import Mathlib.Algebra.Order.Group.Basic
import Mathlib.Algebra.BigOperators.Group.List.Basic
import Mathlib.Order.Lattice

/-!
# Hypura.Core.Overlap

A pipeline of stages that each compute and load, where the loading of a stage may start
while the stage before it computes.

* `overlapTime` — the time of a pipeline: each stage takes the longer of its compute and
  of what is left of its loading once the previous compute has hidden a part,
* `overlapTime_append` — pipelines in sequence,
* `overlapTime_compute` — stages that load nothing take the sum of their computes.
-/

namespace Hypura.Core

section Overlap
variable {α : Type*}

/-- The compute of the last stage. -/
def lastCompute : α → List (α × α) → α
  | prev, [] => prev
  | _, (compute, _) :: stages => lastCompute compute stages

theorem lastCompute_append (prev : α) (stages stages' : List (α × α)) :
    lastCompute prev (stages ++ stages') = lastCompute (lastCompute prev stages) stages' := by
  induction stages generalizing prev with
  | nil => rfl
  | cons stage stages ih => exact ih stage.1

variable [AddCommGroup α] [LinearOrder α]

/-- The time of the stages (compute, load) when `prev` is the compute before the first. -/
def overlapTime : α → List (α × α) → α
  | _, [] => 0
  | prev, (compute, load) :: stages =>
    max compute (max (load - prev) 0) + overlapTime compute stages

@[simp] theorem overlapTime_nil (prev : α) : overlapTime prev [] = 0 := rfl

theorem overlapTime_cons (prev compute load : α) (stages : List (α × α)) :
    overlapTime prev ((compute, load) :: stages) =
      max compute (max (load - prev) 0) + overlapTime compute stages := rfl

theorem overlapTime_append (prev : α) (stages stages' : List (α × α)) :
    overlapTime prev (stages ++ stages') =
      overlapTime prev stages + overlapTime (lastCompute prev stages) stages' := by
  induction stages generalizing prev with
  | nil => rw [List.nil_append, overlapTime_nil, zero_add]; rfl
  | cons stage stages ih =>
      rw [List.cons_append, overlapTime_cons, overlapTime_cons, ih, add_assoc]
      rfl

/-- Stages that load nothing take the sum of their computes. -/
theorem overlapTime_compute [IsOrderedAddMonoid α] {prev : α} {computes : List α}
    (hprev : 0 ≤ prev) (h : ∀ c ∈ computes, 0 ≤ c) :
    overlapTime prev (computes.map fun c => (c, 0)) = computes.sum := by
  induction computes generalizing prev with
  | nil => rfl
  | cons c computes ih =>
      have hc : 0 ≤ c := h c List.mem_cons_self
      have hload : max (0 - prev) 0 = 0 := max_eq_right (by rwa [zero_sub, neg_nonpos])
      rw [List.map_cons, overlapTime_cons, hload, max_eq_left hc,
        ih hc fun c' hc' => h c' (List.mem_cons_of_mem c hc'), List.sum_cons]

end Overlap

end Hypura.Core
