import Hypura.Scheduler.PlacementFits

/-!
# Hypura.Scheduler.KvHeadroom

The memory a plan keeps free for the KV cache, and the context that is then allocated.

`compute_placement_with_context` plans for a capped context, while `run`, `serve` and
`bench` hand the length they are given to the runtime as it is. The headroom covers the
allocated cache exactly up to the cap (`kvHeadroom_reserved`), as long as the products of
`estimate_kv_bytes` fit in a `u64`.
-/

namespace Hypura

/-- The part of `InferenceConfig` that sizes the KV cache. -/
structure InferenceConfig where
  nCtx : Nat

/-- The config that `run`, `serve` and `bench` make: `n_ctx: context`. -/
def cliConfig (context : Nat) : InferenceConfig := { nCtx := context }

/-- The context that is allocated: a zero `n_ctx` stands for the model's own. -/
def allocatedContext (metadata : ModelMetadata) (config : InferenceConfig) : Nat :=
  if config.nCtx = 0 then metadata.contextLength else config.nCtx

/-- `estimate_kv_bytes` in a release build, whose products wrap around. -/
def estimateKvBytesU64 (metadata : ModelMetadata) (contextLength : Nat) : Nat :=
  estimateKvBytes metadata contextLength % 2 ^ 64

/-- The `kv_headroom` of a plan for `context`. -/
def kvHeadroom (metadata : ModelMetadata) (context : Nat) : Nat :=
  estimateKvBytesU64 metadata (planContext metadata context)

/-- Neither the planned nor the allocated context makes `estimate_kv_bytes` overflow. -/
def KvBytesFit (metadata : ModelMetadata) (context : Nat) : Prop :=
  estimateKvBytes metadata (planContext metadata context) < 2 ^ 64 ∧
    estimateKvBytes metadata (allocatedContext metadata (cliConfig context)) < 2 ^ 64

/-- No plan is made for a longer context: the model's own (at least 2048), or 8192 when no
length is given. -/
def contextCap (metadata : ModelMetadata) (context : Nat) : Nat :=
  if context = 0 then 8192 else max metadata.contextLength 2048

/-- The capacities leave `kv` bytes of what the system leaves. -/
structure Reserves (hw : HardwareProfile) (caps : TierCapacities) (kv : Nat) : Prop where
  unifiedLimit : caps.unifiedLimit = hw.memory.totalBytes - osOverhead - kv
  gpuBytes : caps.gpuBytes =
    min (hw.gpu.elim 0 GpuProfile.vramBytes) (hw.memory.totalBytes - osOverhead) - kv -
      gpuRuntimeOverhead
  ramBytes : caps.ramBytes = hw.memory.totalBytes - osOverhead - caps.gpuBytes - kv

/-- What the headroom of a plan for `context` is worth at run time. -/
structure KvReserved (hw : HardwareProfile) (metadata : ModelMetadata) (context : Nat) : Prop where
  reserves : Reserves hw (computeTierCapacities hw metadata (planContext metadata context))
    (kvHeadroom metadata context)
  /-- Up to the cap, the allocated context is covered. -/
  capped : estimateKvBytesU64 metadata
      (min (allocatedContext metadata (cliConfig context)) (contextCap metadata context)) ≤
    kvHeadroom metadata context
  /-- Beyond the cap it is not, unless the cache takes no bytes at all. -/
  covers_iff : estimateKvBytesU64 metadata (allocatedContext metadata (cliConfig context)) ≤
      kvHeadroom metadata context ↔
    estimateKvBytes metadata 1 = 0 ∨
      allocatedContext metadata (cliConfig context) ≤ contextCap metadata context

section
variable {metadata : ModelMetadata} {n m : Nat}

/-- More context never takes fewer bytes, and takes more if a token takes any. -/
theorem estimateKvBytes_le_iff :
    estimateKvBytes metadata n ≤ estimateKvBytes metadata m ↔
      estimateKvBytes metadata 1 = 0 ∨ n ≤ m := by
  rw [estimateKvBytes_eq_mul metadata n, estimateKvBytes_eq_mul metadata m]
  rcases Nat.eq_zero_or_pos (estimateKvBytes metadata 1) with hzero | hpos
  · simp [hzero]
  · rw [Nat.mul_le_mul_left_iff hpos, or_iff_right (by omega)]

theorem estimateKvBytesU64_eq (h : estimateKvBytes metadata n < 2 ^ 64) :
    estimateKvBytesU64 metadata n = estimateKvBytes metadata n :=
  Nat.mod_eq_of_lt h

theorem allocatedContext_of_pos (h : 0 < n) : allocatedContext metadata (cliConfig n) = n :=
  if_neg h.ne'

theorem planContext_of_pos (h : 0 < n) : planContext metadata n = min n (contextCap metadata n) := by
  rw [planContext, if_pos h, contextCap, if_neg h.ne']

theorem planContext_zero :
    planContext metadata 0 = min (max metadata.contextLength 2048) (contextCap metadata 0) := rfl

/-- A plan is made for the allocated context when the cap does not cut it. -/
theorem allocatedContext_le_planContext_iff :
    allocatedContext metadata (cliConfig n) ≤ planContext metadata n ↔
      allocatedContext metadata (cliConfig n) ≤ contextCap metadata n := by
  rcases Nat.eq_zero_or_pos n with rfl | hn
  · rw [planContext_zero, le_min_iff, and_iff_right]
    exact le_max_left _ _
  · rw [planContext_of_pos hn, allocatedContext_of_pos hn, le_min_iff, and_iff_right le_rfl]

theorem min_contextCap_le_planContext :
    min (allocatedContext metadata (cliConfig n)) (contextCap metadata n) ≤
      planContext metadata n := by
  rcases Nat.eq_zero_or_pos n with rfl | hn
  · rw [planContext_zero]
    exact min_le_min_right _ (le_max_left _ _)
  · rw [planContext_of_pos hn, allocatedContext_of_pos hn]

/-- **The headroom covers the allocated context up to the cap**, and exactly up to the cap. -/
theorem kvHeadroom_reserved (hw : HardwareProfile) (metadata : ModelMetadata) (context : Nat)
    (hfits : KvBytesFit metadata context) : KvReserved hw metadata context where
  reserves := by
    rw [kvHeadroom, estimateKvBytesU64_eq hfits.1]
    exact ⟨rfl, rfl, rfl⟩
  capped := by
    have hle : estimateKvBytes metadata (min (allocatedContext metadata (cliConfig context))
        (contextCap metadata context)) ≤ estimateKvBytes metadata (planContext metadata context) :=
      estimateKvBytes_le_iff.mpr (.inr min_contextCap_le_planContext)
    rw [kvHeadroom, estimateKvBytesU64_eq hfits.1, estimateKvBytesU64_eq (hle.trans_lt hfits.1)]
    exact hle
  covers_iff := by
    rw [kvHeadroom, estimateKvBytesU64_eq hfits.1, estimateKvBytesU64_eq hfits.2,
      estimateKvBytes_le_iff, allocatedContext_le_planContext_iff]

end

/-- A model of 32 layers with a context of 131072 tokens. -/
def longContextMetadata : ModelMetadata where
  architecture := "llama"
  contextLength := 131072
  embeddingDim := 4096
  numLayers := 32
  numHeads := 32
  numKvHeads := 8
  isMoe := false
  numExperts := none
  numExpertsUsed := none

/-- The whole of a context of 4096 tokens is covered, 512 MiB. -/
theorem longContext_reserved :
    allocatedContext longContextMetadata (cliConfig 4096) = 4096 ∧
      kvHeadroom longContextMetadata 4096 = 512 * 2 ^ 20 ∧
      KvReserved smallMachine longContextMetadata 4096 :=
  ⟨by decide, by decide, kvHeadroom_reserved smallMachine _ _ ⟨by decide, by decide⟩⟩

/-- Without a length, 1 GiB is kept free, and 16 GiB are allocated. -/
theorem longContext_not_covered :
    ¬ estimateKvBytesU64 longContextMetadata (allocatedContext longContextMetadata (cliConfig 0)) ≤
      kvHeadroom longContextMetadata 0 := by
  decide

end Hypura
