import Hypura.Compute.GpuLayers
import Hypura.Compute.LoadPaths
import Hypura.Scheduler.KvHeadroom

/-!
# Hypura.Compute.PoolBudget

The pool of the streaming modes against the GPU budget that admitted them.

* `MemoryBudget` (`scheduler/types.rs`) sizes the pool from physical memory,
* the placement admits a mode by its own estimate of the pool.

The two are related exactly (`streamingPool_fits_iff`): the pool is in the budget if this
has room for the fewest slots, and for as many as physical memory or the mode allow.
-/

namespace Hypura

open Hypura.Core Hypura.Rust

/-! ### The memory budget -/

/-- `memory_scale`: the memory scale factor relative to F16. -/
def KvQuantization.memoryScale {F : Type} [F64 F] : KvQuantization → F
  | .f16 => 1.0
  | .q8_0 => 0.53
  | .q4_0 => 0.28

/-- Metal compute buffer overhead, rounded up to 512 MiB. -/
def metalComputeOverhead : Nat := 512 * 2 ^ 20

/-- OS + page cache reservation. -/
def osReserved : Nat := 3 * 2 ^ 30

/-- Unified memory budget for pool sizing and residency decisions. -/
structure MemoryBudget where
  totalRam : Nat
  gpuCommitted : Nat
  kvCacheBytes : Nat
  metalOverhead : Nat
  osOverhead : Nat
  poolBytes : Nat
  residentBytes : Nat
  totalCommitted : Nat
  /-- Available for new allocations. -/
  available : Nat

namespace MemoryBudget

/-- `kv_cache_bytes` of `MemoryBudget::compute`. -/
def kvBytes (F : Type) [F64 F] (numLayers numKvHeads headDim contextLength : Nat)
    (kvQuant : Option KvQuantization) : Nat :=
  let kvRaw := 2 * numLayers * numKvHeads * headDim * 2 * contextLength
  kvQuant.elim kvRaw fun q => F64.toU64 ((kvRaw : F) * q.memoryScale)

/-- `MemoryBudget::compute`. -/
def compute (F : Type) [F64 F] (totalRam gpuTensorBytes : Nat) (useMmap : Bool)
    (numLayers numKvHeads headDim contextLength : Nat) (kvQuant : Option KvQuantization) :
    MemoryBudget :=
  let gpuCommitted := if useMmap then gpuTensorBytes * 60 / 100 else gpuTensorBytes
  let kvCacheBytes := kvBytes F numLayers numKvHeads headDim contextLength kvQuant
  let totalCommitted := gpuCommitted + kvCacheBytes + metalComputeOverhead + osReserved
  { totalRam, gpuCommitted, kvCacheBytes, totalCommitted
    metalOverhead := metalComputeOverhead
    osOverhead := osReserved
    poolBytes := 0
    residentBytes := 0
    available := totalRam - totalCommitted }

/-- `pool_slots`: as many as are available, clamped. -/
def poolSlots (b : MemoryBudget) (slotSize minSlots maxSlots : Nat) : Nat :=
  if slotSize = 0 then minSlots else max minSlots (min (b.available / slotSize) maxSlots)

/-- The slots fit in `room` bytes if the fewest do, and the most or all that are available. -/
theorem poolSlots_mul_le_iff {b : MemoryBudget} {slotSize minSlots maxSlots room : Nat}
    (h : 0 < slotSize) : b.poolSlots slotSize minSlots maxSlots * slotSize ≤ room ↔
      minSlots * slotSize ≤ room ∧
        (maxSlots * slotSize ≤ room ∨ b.available < (room / slotSize + 1) * slotSize) := by
  rw [poolSlots, if_neg h.ne']
  simp only [← Nat.le_div_iff_mul_le h, ← Nat.div_lt_iff_lt_mul h]
  omega

end MemoryBudget

/-! ### The pool of a run -/

section Source
variable {F : Type} [F64 F] (plan : PlacementPlan F) (gguf : GgufFile)

/-- The tensors that the plan keeps off the GPU. -/
def bufferBytes : Nat :=
  ((gguf.tensors.filter fun t =>
    plan.tierAssignments.lookup t.name = some .nvme ||
      plan.tierAssignments.lookup t.name = some .ram).map (·.sizeBytes)).sum

/-- `gpu_bytes` of a run: everything else. -/
def gpuTensorBytes : Nat := gguf.totalTensorBytes - bufferBytes plan gguf

/-- `memory_budget` of a run, of a model that reports `numLayers` layers. -/
def runBudget (totalRam numLayers : Nat) (config : InferenceConfig) : MemoryBudget :=
  let metadata := ModelMetadata.fromGguf gguf
  let headDim := if 0 < metadata.numHeads then metadata.embeddingDim / metadata.numHeads else 0
  let anyStreaming :=
    plan.inferenceMode = .expertStreaming || plan.inferenceMode = .denseFfnStreaming
  .compute F totalRam (gpuTensorBytes plan gguf) (!anyStreaming) numLayers metadata.numKvHeads
    headDim config.nCtx plan.kvCachePlan.kvQuantization

/-- The pool that a run activates in the streaming modes. -/
def activateStreamingPool (memoryBudget : MemoryBudget) : Option ExpertPool :=
  match plan.inferenceMode with
  | .expertStreaming =>
    let expertSlotSize := (largestTensor TensorRole.isFusedExperts gguf).getD 1
    activateExpertPool gguf (memoryBudget.poolSlots expertSlotSize 6 18)
  | .denseFfnStreaming =>
    let ffnSlotSize := (largestTensor TensorRole.isDenseFfn gguf).getD 1
    activateDenseFfnPool gguf (memoryBudget.poolSlots ffnSlotSize 6 24)
  | _ => none

end Source

/-! ### What admits a streaming mode -/

/-- The most slots of a mode's pool. -/
def InferenceMode.maxSlots : InferenceMode → Nat
  | .expertStreaming => 18
  | _ => 24

/-- The bytes of the tensors that a mode does not stream. -/
def nonStreamedBytes (mode : InferenceMode) (gguf : GgufFile) : Nat :=
  ((gguf.tensors.filter fun t => !mode.isStreamed (.fromName t.name)).map (·.sizeBytes)).sum

/-- The bytes of the tensors that a mode streams. -/
def streamedBytes (mode : InferenceMode) (gguf : GgufFile) : Nat :=
  ((gguf.tensors.filter fun t => mode.isStreamed (.fromName t.name)).map (·.sizeBytes)).sum

/-- The size of the largest tensor that a mode streams. -/
def largestStreamed (mode : InferenceMode) (gguf : GgufFile) : Nat :=
  (largestTensor mode.isStreamed gguf).getD 0

section Admission
variable {F : Type} [F64 F] {solve : Program MipVar F → Option (MipVar → F)} {model : GgufFile}
  {hw : HardwareProfile} {context : Nat} {plan : PlacementPlan F} {mode : InferenceMode}

theorem isStreamed_expert :
    InferenceMode.isStreamed .expertStreaming = TensorRole.isFusedExperts := by
  funext role
  simp [InferenceMode.isStreamed]

theorem isStreamed_dense : InferenceMode.isStreamed .denseFfnStreaming = TensorRole.isDenseFfn := by
  funext role
  simp [InferenceMode.isStreamed]

/-- The bytes of scored tensors are those of the file's tensors of the same roles. -/
theorem sumBytes_scored (p : TensorRole → Bool) (tensors : List TensorInfo)
    (metadata : ModelMetadata) :
    sumBytes ((scoreTensors (F := F) tensors metadata).filter fun t => p t.role) =
      ((tensors.filter fun t => p (.fromName t.name)).map (·.sizeBytes)).sum := by
  rw [sumBytes, scoreTensors, List.filter_map, List.map_map]
  rfl

/-- A placement that chooses a streaming mode has bytes to stream. -/
theorem streamedBytes_pos (hplan : computePlacementWithContext solve model hw context = plan)
    (hmode : plan.inferenceMode = .expertStreaming ∨ plan.inferenceMode = .denseFfnStreaming) :
    0 < streamedBytes plan.inferenceMode model := by
  subst hplan
  have hffn : (isFfn : ScoredTensor F → Bool) = fun t => t.role.isDenseFfn := by
    funext t
    unfold isFfn TensorRole.isDenseFfn
    cases t.role <;> rfl
  rcases chooseAssignments_try hmode rfl with ⟨hm, hexpert⟩ | ⟨hm, hdense⟩
  · simp only [tryExpertStreamingAssign, Option.ite_none_left_eq_some] at hexpert
    obtain ⟨-, hsize, -⟩ := hexpert
    have hsum := sumBytes_scored (F := F) TensorRole.isFusedExperts model.tensors (.fromGguf model)
    rw [hm, streamedBytes, isStreamed_expert, ← hsum]
    change 0 < sumBytes (List.filter isFusedExpert _)
    omega
  · simp only [tryDenseFfnStreamingAssign, Option.ite_none_left_eq_some] at hdense
    obtain ⟨-, -, hpos, -⟩ := hdense
    have hsum := sumBytes_scored (F := F) TensorRole.isDenseFfn model.tensors (.fromGguf model)
    rw [hm, streamedBytes, isStreamed_dense, ← hsum, ← hffn]
    omega

/-- Where there are bytes to stream, there is a largest streamed tensor. -/
theorem largestStreamed_pos (h : 0 < streamedBytes mode model) : 0 < largestStreamed mode model := by
  by_contra hzero
  refine h.ne' (List.sum_eq_zero fun size hsize => ?_)
  obtain ⟨t, ht, rfl⟩ := List.mem_map.mp hsize
  obtain ⟨ht, hrole⟩ := List.mem_filter.mp ht
  have hle : t.sizeBytes ≤ largestStreamed mode model := le_largestTensor ht hrole
  omega

omit [F64 F] in
/-- The activated pool has slots for the largest streamed tensor. -/
theorem activateStreamingPool_eq (gguf : GgufFile) (budget : MemoryBudget)
    (hmode : plan.inferenceMode = .expertStreaming ∨ plan.inferenceMode = .denseFfnStreaming)
    (hpos : 0 < largestStreamed plan.inferenceMode gguf) :
    ∃ pool, activateStreamingPool plan gguf budget = some pool ∧ pool.poolSize =
      budget.poolSlots (largestStreamed plan.inferenceMode gguf) 6 plan.inferenceMode.maxSlots *
        largestStreamed plan.inferenceMode gguf := by
  have hactive : ∀ (streamed : TensorRole → Bool) maxSlots, 0 < (largestTensor streamed gguf).getD 0 →
      ∃ pool, activatePool streamed gguf
          (budget.poolSlots ((largestTensor streamed gguf).getD 1) 6 maxSlots) = some pool ∧
        pool.poolSize = budget.poolSlots ((largestTensor streamed gguf).getD 0) 6 maxSlots *
          (largestTensor streamed gguf).getD 0 := by
    intro streamed maxSlots hslot
    cases hlargest : largestTensor streamed gguf with
    | none => simp [hlargest] at hslot
    | some size =>
        rw [hlargest] at hslot
        exact ⟨_, by rw [activatePool, hlargest, if_pos hslot], rfl⟩
  unfold largestStreamed at hpos ⊢
  rcases hmode with hm | hm <;> rw [hm] at hpos ⊢
  · rw [isStreamed_expert] at hpos ⊢
    rw [activateStreamingPool, hm]
    exact hactive _ 18 hpos
  · rw [isStreamed_dense] at hpos ⊢
    rw [activateStreamingPool, hm]
    exact hactive _ 24 hpos

/-- What physical memory has left for the pool of a streaming mode. -/
def physicalLeft (plan : PlacementPlan F) (gguf : GgufFile) (totalRam numLayers : Nat)
    (config : InferenceConfig) : Nat :=
  let metadata := ModelMetadata.fromGguf gguf
  let headDim := if 0 < metadata.numHeads then metadata.embeddingDim / metadata.numHeads else 0
  totalRam - (gpuTensorBytes plan gguf +
    MemoryBudget.kvBytes F numLayers metadata.numKvHeads headDim config.nCtx
      plan.kvCachePlan.kvQuantization + metalComputeOverhead + osReserved)

theorem runBudget_available (gguf : GgufFile) (totalRam numLayers : Nat) (config : InferenceConfig)
    (hmode : plan.inferenceMode = .expertStreaming ∨ plan.inferenceMode = .denseFfnStreaming) :
    (runBudget plan gguf totalRam numLayers config).available =
      physicalLeft plan gguf totalRam numLayers config := by
  rcases hmode with hm | hm <;> simp [runBudget, physicalLeft, MemoryBudget.compute, hm]

/-- What the budget that admitted a mode leaves beside the tensors that are not streamed has
room for the pool: for 6 slots, and for the most that the mode takes or more than
physical memory has left. -/
def RoomForPool (budgetBytes physical : Nat) (mode : InferenceMode) (gguf : GgufFile) : Prop :=
  let slotSize := largestStreamed mode gguf
  let room := budgetBytes - nonStreamedBytes mode gguf
  6 * slotSize ≤ room ∧
    (mode.maxSlots * slotSize ≤ room ∨ physical < (room / slotSize + 1) * slotSize)

/-- **The pool of a streaming mode is in the budget exactly when this has room for it**: at
least for 6 slots, and for as many as the mode or physical memory allow. -/
theorem streamingPool_fits_iff {numLayers : Nat}
    (hplan : computePlacementWithContext solve model hw context = plan)
    (hmode : plan.inferenceMode = .expertStreaming ∨ plan.inferenceMode = .denseFfnStreaming) :
    let caps := computeTierCapacities hw (.fromGguf model) (planContext (.fromGguf model) context)
    let budget := runBudget plan model hw.memory.totalBytes numLayers (cliConfig context)
    ∃ pool, activateStreamingPool plan model budget = some pool ∧
      (nonStreamedBytes plan.inferenceMode model + pool.poolSize ≤
          caps.gpuBytes + gpuRuntimeOverhead ↔
        RoomForPool (caps.gpuBytes + gpuRuntimeOverhead)
          (physicalLeft plan model hw.memory.totalBytes numLayers (cliConfig context))
          plan.inferenceMode model) := by
  intro caps budget
  have hpos := largestStreamed_pos (streamedBytes_pos hplan hmode)
  obtain ⟨pool, hpool, hsize⟩ := activateStreamingPool_eq model budget hmode hpos
  refine ⟨pool, hpool, ?_⟩
  rw [hsize]
  rcases Nat.lt_or_ge (caps.gpuBytes + gpuRuntimeOverhead)
    (nonStreamedBytes plan.inferenceMode model) with hover | hroom
  · -- no room at all, and the pool is not empty
    refine ⟨fun hfits => absurd hfits (by omega), fun ⟨hmin, _⟩ => ?_⟩
    rw [Nat.sub_eq_zero_of_le hover.le] at hmin
    omega
  · rw [RoomForPool, ← runBudget_available model _ _ _ hmode,
      ← MemoryBudget.poolSlots_mul_le_iff hpos, Nat.le_sub_iff_add_le' hroom]

end Admission

/-- 4 GiB of embeddings and eleven FFN tensors of 1 GiB. -/
def elevenFfnHeader : WireHeader where
  version := 3
  kvs := [("general.architecture", .string "llama"), ("llama.context_length", .uint32 8192),
    ("llama.block_count", .uint32 11), ("llama.embedding_length", .uint32 4096),
    ("llama.attention.head_count", .uint32 32)]
  tensors := { name := "token_embd.weight", dims := [2 ^ 30], dtype := 0, offset := 0 } ::
    (List.range 11).map fun i =>
      { name := "blk." ++ toString i ++ ".ffn_up.weight", dims := [2 ^ 28], dtype := 0,
        offset := UInt64.ofNat ((4 + i) * 2 ^ 30) }

/-- 16 GiB of memory, 11 of them for the GPU. -/
def sixteenGibMachine : HardwareProfile where
  memory := { totalBytes := 16 * 2 ^ 30, bandwidthBytesPerSec := 100 * 2 ^ 30 }
  gpu := some { vramBytes := 11 * 2 ^ 30, bandwidthBytesPerSec := 200 * 2 ^ 30 }
  storage := [{ peakSequential := 5 * 2 ^ 30 }]

def elevenFfnPlan : PlacementPlan ℚ :=
  computePlacementWithContext (fun _ => none) elevenFfnHeader.parsed sixteenGibMachine 4096

theorem elevenFfn_parse : GgufFile.parse elevenFfnHeader.encode = .ok elevenFfnHeader.parsed := by
  have hkvs : ∀ kv ∈ elevenFfnHeader.kvs, FitsLength kv.1 ∧ kv.2.Readable := by
    intro kv hkv
    simp only [elevenFfnHeader, List.mem_cons, List.not_mem_nil, or_false] at hkv
    rcases hkv with rfl | rfl | rfl | rfl | rfl
    · exact ⟨by decide +kernel, .string _ (by decide +kernel)⟩
    all_goals exact ⟨by decide +kernel, .uint32 _⟩
  have htensors : ∀ t ∈ elevenFfnHeader.tensors, t.Readable := by decide +kernel
  simpa using parse_encode ⟨.inr rfl, by decide, by decide, hkvs, htensors⟩ []

theorem elevenFfn_mode : elevenFfnPlan.inferenceMode = .denseFfnStreaming := by decide +kernel

/-- Seven slots fit physical memory; the GPU has room for six. -/
theorem elevenFfn_pool_overflows :
    GgufFile.parse elevenFfnHeader.encode = .ok elevenFfnHeader.parsed ∧
      elevenFfnPlan.inferenceMode = .denseFfnStreaming ∧
      ∃ pool, activateStreamingPool elevenFfnPlan elevenFfnHeader.parsed
          (runBudget elevenFfnPlan elevenFfnHeader.parsed sixteenGibMachine.memory.totalBytes 11
            (cliConfig 4096)) = some pool ∧
        ¬ nonStreamedBytes elevenFfnPlan.inferenceMode elevenFfnHeader.parsed + pool.poolSize ≤
          (computeTierCapacities sixteenGibMachine (.fromGguf elevenFfnHeader.parsed)
            (planContext (.fromGguf elevenFfnHeader.parsed) 4096)).gpuBytes +
              gpuRuntimeOverhead := by
  refine ⟨elevenFfn_parse, elevenFfn_mode, ?_⟩
  have hover : (activateStreamingPool elevenFfnPlan elevenFfnHeader.parsed
      (runBudget elevenFfnPlan elevenFfnHeader.parsed sixteenGibMachine.memory.totalBytes 11
        (cliConfig 4096))).any fun pool =>
      !decide (nonStreamedBytes elevenFfnPlan.inferenceMode elevenFfnHeader.parsed + pool.poolSize ≤
        (computeTierCapacities sixteenGibMachine (.fromGguf elevenFfnHeader.parsed)
          (planContext (.fromGguf elevenFfnHeader.parsed) 4096)).gpuBytes +
            gpuRuntimeOverhead) := by decide +kernel
  obtain ⟨pool, hpool, hlt⟩ := (Option.any_eq_true _ _).mp hover
  exact ⟨pool, hpool, by simpa using hlt⟩

theorem elevenFfn_pool_fits_iff :
    ∃ pool, activateStreamingPool elevenFfnPlan elevenFfnHeader.parsed
        (runBudget elevenFfnPlan elevenFfnHeader.parsed sixteenGibMachine.memory.totalBytes 11
          (cliConfig 4096)) = some pool ∧
      (nonStreamedBytes elevenFfnPlan.inferenceMode elevenFfnHeader.parsed + pool.poolSize ≤
          (computeTierCapacities sixteenGibMachine (.fromGguf elevenFfnHeader.parsed)
            (planContext (.fromGguf elevenFfnHeader.parsed) 4096)).gpuBytes + gpuRuntimeOverhead ↔
        RoomForPool
          ((computeTierCapacities sixteenGibMachine (.fromGguf elevenFfnHeader.parsed)
            (planContext (.fromGguf elevenFfnHeader.parsed) 4096)).gpuBytes + gpuRuntimeOverhead)
          (physicalLeft elevenFfnPlan elevenFfnHeader.parsed sixteenGibMachine.memory.totalBytes 11
            (cliConfig 4096))
          elevenFfnPlan.inferenceMode elevenFfnHeader.parsed) := by
  have hplan : computePlacementWithContext (fun _ => none) elevenFfnHeader.parsed
      sixteenGibMachine 4096 = elevenFfnPlan := rfl
  exact streamingPool_fits_iff hplan (.inr elevenFfn_mode)

end Hypura
