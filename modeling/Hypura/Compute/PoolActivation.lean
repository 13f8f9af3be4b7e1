import Hypura.Compute.BuildState
import Hypura.Compute.ExpertPool

/-!
# Hypura.Compute.PoolActivation

How the pool of the streaming modes is made (`activate_expert_pool` and
`activate_dense_ffn_pool`, `compute/nvme_backend.rs`): its slots have the size of the
largest tensor that is streamed. The allocation itself is taken to succeed.
-/

namespace Hypura

/-- The size of the largest tensor whose role is streamed. -/
def largestTensor (streamed : TensorRole → Bool) (gguf : GgufFile) : Option Nat :=
  ((gguf.tensors.filter fun t => streamed (.fromName t.name)).map (·.sizeBytes)).max?

/-- A pool of `numSlots` slots for the streamed tensors, if there is one to stream. -/
def activatePool (streamed : TensorRole → Bool) (gguf : GgufFile) (numSlots : Nat) :
    Option ExpertPool :=
  let slotSize := (largestTensor streamed gguf).getD 0
  if 0 < slotSize then some (.new (numSlots * slotSize) slotSize) else none

/-- `matches!(role, TensorRole::MoeFusedExperts)`. -/
def TensorRole.isFusedExperts (role : TensorRole) : Bool := role = .moeFusedExperts

/-- `activate_expert_pool`. -/
def activateExpertPool (gguf : GgufFile) (numSlots : Nat) : Option ExpertPool :=
  activatePool TensorRole.isFusedExperts gguf numSlots

/-- `activate_dense_ffn_pool`. -/
def activateDenseFfnPool (gguf : GgufFile) (numSlots : Nat) : Option ExpertPool :=
  activatePool TensorRole.isDenseFfn gguf numSlots

section Activation
variable {streamed : TensorRole → Bool} {gguf : GgufFile} {numSlots : Nat} {pool : ExpertPool}

theorem le_largestTensor {t : TensorInfo} (ht : t ∈ gguf.tensors)
    (hrole : streamed (.fromName t.name)) :
    t.sizeBytes ≤ (largestTensor streamed gguf).getD 0 := by
  have hmem : t.sizeBytes ∈
      (gguf.tensors.filter fun t => streamed (.fromName t.name)).map (·.sizeBytes) :=
    List.mem_map.mpr ⟨t, List.mem_filter.mpr ⟨ht, hrole⟩, rfl⟩
  exact List.le_max?_getD_of_mem hmem

/-- What a pool is, once it is active. -/
theorem activatePool_spec (h : activatePool streamed gguf numSlots = some pool) :
    pool.slotSize = (largestTensor streamed gguf).getD 0 ∧
      pool.poolSize = numSlots * pool.slotSize ∧ 0 < pool.slotSize := by
  simp only [activatePool, Option.ite_none_right_eq_some, Option.some.injEq] at h
  obtain ⟨hpos, rfl⟩ := h
  exact ⟨rfl, rfl, hpos⟩

/-- Before any slot is taken. -/
theorem activatePool_fresh (h : activatePool streamed gguf numSlots = some pool) :
    pool.numSlots = numSlots ∧ pool.layerSlots = [] ∧ pool.Partitioned := by
  simp only [activatePool, Option.ite_none_right_eq_some, Option.some.injEq] at h
  obtain ⟨hpos, rfl⟩ := h
  exact ⟨Nat.mul_div_cancel _ hpos, rfl, ExpertPool.partitioned_new _ _⟩

/-- A streamed tensor fits in a slot. -/
theorem sizeBytes_le_slotSize (h : activatePool streamed gguf numSlots = some pool) {t : TensorInfo}
    (ht : t ∈ gguf.tensors) (hrole : streamed (.fromName t.name)) :
    t.sizeBytes ≤ pool.slotSize :=
  (le_largestTensor ht hrole).trans_eq (activatePool_spec h).1.symm

end Activation

end Hypura
