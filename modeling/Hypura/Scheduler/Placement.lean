import Hypura.Core.Linear
import Hypura.Model.Metadata
import Hypura.Model.TensorRole
import Hypura.Scheduler.Types

/-!
# Hypura.Scheduler.Placement

Tensor placement (`scheduler/placement.rs`): tier capacities, scoring, the streaming
placements, the MIP, the greedy fallback, the KV plan and the quick estimate.

* `f64` is any type with the operations of `Rust.F64`; byte counts are naturals, so a
  `saturating_sub` is natural subtraction and a sum is the exact sum.
* Maps that the program iterates in key order (`BTreeMap`, `BTreeSet`) are sorted lists.
* The solver is a parameter: it is given the program that `lp_assign` builds.

The prefetch schedule, the model id and the profile hash of a plan are left out: the
schedule is passed to `quick_estimate`, which does not look at it.
-/

namespace Hypura

open Hypura.Core Hypura.Rust

/-- 2 GiB reserved for macOS. -/
def osOverhead : Nat := 2 * 2 ^ 30

/-- 1 GiB reserved for compute buffers + Metal overhead. -/
def gpuRuntimeOverhead : Nat := 2 ^ 30

variable {F : Type} [F64 F]

/-- `SYNC_OVERHEAD_PER_LAYER_US * 1e-6`: 50μs CPU-GPU sync per layer, in seconds. -/
def syncOverheadPerLayer : F := (50.0 : F) * (1e-6 : F)

/-- From PowerInfer-2, matches estimator.rs. -/
def moeCacheHitRate : F := (0.965 : F)

/-! ### Capacities -/

structure TierCapacities where
  gpuBytes : Nat
  ramBytes : Nat
  /-- Total unified limit (gpu + ram must not exceed this). -/
  unifiedLimit : Nat
  nvmePeakBw : Nat
  deriving DecidableEq, Repr

/-- `estimate_kv_bytes`, exact: the source's `u64` product as long as it does not overflow
(`estimateKvBytesU64`). -/
def estimateKvBytes (metadata : ModelMetadata) (contextLength : Nat) : Nat :=
  if metadata.numHeads = 0 ∨ metadata.embeddingDim = 0 then 0
  else
    let headDim := metadata.embeddingDim / metadata.numHeads
    2 * metadata.numLayers * metadata.numKvHeads * headDim * 2 * contextLength

/-- `compute_tier_capacities`. -/
def computeTierCapacities (hw : HardwareProfile) (metadata : ModelMetadata)
    (contextLength : Nat) : TierCapacities :=
  let usable := hw.memory.totalBytes - osOverhead
  let gpuMax := hw.gpu.elim 0 GpuProfile.vramBytes
  let kvHeadroom := estimateKvBytes metadata contextLength
  let gpuBytes := min gpuMax usable - kvHeadroom - gpuRuntimeOverhead
  { gpuBytes
    ramBytes := usable - gpuBytes - kvHeadroom
    unifiedLimit := usable - kvHeadroom
    nvmePeakBw := hw.storage.head?.elim 3000000000 StorageProfile.peakSequential }

/-! ### Scoring -/

structure ScoredTensor (F : Type) where
  name : String
  sizeBytes : Nat
  score : F
  accessFreq : F
  layerIndex : Option Nat
  role : TensorRole

/-- `effective_io_freq`: I/O frequency on NVMe, with the MoE cache-hit discount. -/
def effectiveIoFreq (role : TensorRole) (baseFreq : F) (isMoe : Bool) : F :=
  if isMoe && role.isExpert then baseFreq * ((1.0 : F) - moeCacheHitRate) else baseFreq

/-- The closure `score_tensors` maps over the tensors. -/
def scoreTensor (metadata : ModelMetadata) (t : TensorInfo) : ScoredTensor F :=
  let role := TensorRole.fromName t.name
  let accessFreq : F :=
    role.accessFrequency (metadata.numExpertsUsed.getD 1) (metadata.numExperts.getD 1)
  -- Bonus for small, always-accessed tensors
  let bonus : F := match role with
    | .norm => 10.0
    | .embedding => 5.0
    | .outputHead => 5.0
    | _ => 1.0
  let sizeGb : F := (t.sizeBytes : F) / ((2 ^ 30 : Nat) : F)
  { name := t.name
    sizeBytes := t.sizeBytes
    score := accessFreq * bonus / ((1.0 : F) + sizeGb)
    accessFreq, role
    layerIndex := t.layerIndex }

/-- `score_tensors`. -/
def scoreTensors (tensors : List TensorInfo) (metadata : ModelMetadata) :
    List (ScoredTensor F) :=
  tensors.map (scoreTensor metadata)

/-- `sort_by(|a, b| b.score.partial_cmp(&a.score).unwrap())`: stable, best score first. -/
def sortByScore (ts : List (ScoredTensor F)) : List (ScoredTensor F) :=
  ts.mergeSort fun a b => !decide (a.score < b.score)

/-- The bytes of the tensors of a list. -/
def sumBytes (ts : List (ScoredTensor F)) : Nat := (ts.map ScoredTensor.sizeBytes).sum

/-! ### Filling the map -/

/-- The loop that fills the assignment map: `step` picks a tier from what is left. -/
def assignAll {σ : Type} (step : σ → ScoredTensor F → σ × StorageTier) :
    σ × Assignments → List (ScoredTensor F) → σ × Assignments
  | acc, [] => acc
  | (s, m), t :: ts => assignAll step ((step s t).1, m.insert t.name (step s t).2) ts

/-- GPU while the tensor fits in what is left of the GPU, else RAM. -/
def gpuThenRam (gpuRemaining : Nat) (t : ScoredTensor F) : Nat × StorageTier :=
  if t.sizeBytes ≤ gpuRemaining then (gpuRemaining - t.sizeBytes, .gpu) else (gpuRemaining, .ram)

/-- GPU if it fits there and in unified memory, else RAM if it fits in unified memory,
else NVMe. The state is what remains of the GPU and of unified memory. -/
def gpuRamNvme (remaining : Nat × Nat) (t : ScoredTensor F) : (Nat × Nat) × StorageTier :=
  if t.sizeBytes ≤ remaining.1 ∧ t.sizeBytes ≤ remaining.2 then
    ((remaining.1 - t.sizeBytes, remaining.2 - t.sizeBytes), .gpu)
  else if t.sizeBytes ≤ remaining.2 then ((remaining.1, remaining.2 - t.sizeBytes), .ram)
  else (remaining, .nvme)

/-- Everything to one tier. -/
def allTo {σ : Type} (tier : StorageTier) (s : σ) (_ : ScoredTensor F) : σ × StorageTier :=
  (s, tier)

/-! ### Streaming placements -/

/-- `try_sparse_moe_mmap`. -/
def trySparseMoeMmap (tensors : List (ScoredTensor F)) (caps : TierCapacities)
    (metadata : ModelMetadata) : Option Assignments :=
  if !metadata.isMoe then none
  else
    let expertsTotal := max (metadata.numExperts.getD 1) 1
    let expertsUsed := max (metadata.numExpertsUsed.getD 1) 1
    let activationRatio : F := (expertsUsed : F) / (expertsTotal : F)
    -- Only for sparse models (activation ratio < 15%)
    if ¬ activationRatio < (0.15 : F) then none
    else
      let activeBytes := F64.toU64 ((sumBytes tensors : F) * activationRatio)
      if caps.unifiedLimit * 30 / 100 < activeBytes then none
      else some (assignAll (allTo .gpu) ((), ∅) tensors).2

/-- The assignment the two streaming placements share: what is not streamed goes to
GPU/RAM by score, what is streamed goes to NVMe. -/
def assignStreaming (tensors : List (ScoredTensor F)) (caps : TierCapacities)
    (streamed : ScoredTensor F → Bool) : Assignments :=
  let resident := sortByScore (tensors.filter fun t => !streamed t)
  let filled := assignAll gpuThenRam (caps.gpuBytes, ∅) resident
  (assignAll (allTo .nvme) filled (tensors.filter streamed)).2

/-- `matches!(t.role, TensorRole::MoeFusedExperts)`. -/
def isFusedExpert (t : ScoredTensor F) : Bool := t.role = .moeFusedExperts

/-- `try_expert_streaming_assign`. -/
def tryExpertStreamingAssign (tensors : List (ScoredTensor F)) (caps : TierCapacities)
    (metadata : ModelMetadata) : Option Assignments :=
  if !metadata.isMoe then none
  else
    let nonExpertBytes := sumBytes (tensors.filter fun t => !isFusedExpert t)
    let expertBytes := sumBytes (tensors.filter isFusedExpert)
    let total := nonExpertBytes + expertBytes
    if caps.unifiedLimit < nonExpertBytes ∨ total ≤ caps.unifiedLimit then none
    else
      let estimatedPool := 3 * 2 ^ 30 / 2
      if caps.gpuBytes + gpuRuntimeOverhead < nonExpertBytes + estimatedPool then none
      else some (assignStreaming tensors caps isFusedExpert)

/-- The `is_ffn` closure of `try_dense_ffn_streaming_assign`. -/
def isFfn (t : ScoredTensor F) : Bool :=
  match t.role with
  | .ffnGate => true
  | .ffnUp => true
  | .ffnDown => true
  | _ => false

/-- `try_dense_ffn_streaming_assign`. -/
def tryDenseFfnStreamingAssign (tensors : List (ScoredTensor F)) (caps : TierCapacities)
    (metadata : ModelMetadata) : Option Assignments :=
  if metadata.isMoe then none
  else
    let nonFfnBytes := sumBytes (tensors.filter fun t => !isFfn t)
    let ffnBytes := sumBytes (tensors.filter isFfn)
    let total := nonFfnBytes + ffnBytes
    if caps.unifiedLimit < nonFfnBytes ∨ total ≤ caps.unifiedLimit then none
    else if ffnBytes = 0 then none
    else
      let maxFfnTensor := (((tensors.filter isFfn).map ScoredTensor.sizeBytes).max?).getD 0
      let estimatedPool := maxFfnTensor * 6
      if caps.gpuBytes + gpuRuntimeOverhead < nonFfnBytes + estimatedPool then none
      else some (assignStreaming tensors caps isFfn)

/-! ### Layers -/

/-- The layer indices that occur, ascending. -/
def layerIndices (tensors : List (ScoredTensor F)) : List Nat :=
  ((tensors.filterMap ScoredTensor.layerIndex).dedup).mergeSort fun a b => decide (a ≤ b)

/-- The tensors of one layer, in file order. -/
def layerTensors (tensors : List (ScoredTensor F)) (layer : Nat) : List (ScoredTensor F) :=
  tensors.filter fun t => t.layerIndex = some layer

/-! ### Greedy placement -/

/-- `t.size_bytes as f64 * t.access_freq / ram_bw`, summed over a list. -/
def transferCost (ramBw : F) (ts : List (ScoredTensor F)) : F :=
  sumFrom 0.0 (ts.map fun t => (t.sizeBytes : F) * t.accessFreq / ramBw)

/-- The I/O time of one layer in the greedy cost. -/
def layerIoCost (nvmeBw : F) (isMoe : Bool) (ts : List (ScoredTensor F)) : F :=
  sumFrom 0.0 (ts.map fun t =>
    (t.sizeBytes : F) * effectiveIoFreq t.role t.accessFreq isMoe / nvmeBw)

/-- The cost of the NVMe layers: only the first can hide its I/O behind compute. -/
def nvmeLayersCost (nvmeBw : F) (isMoe : Bool) :
    F → F → List (List (ScoredTensor F)) → F
  | nvmeCost, _, [] => nvmeCost
  | nvmeCost, prevCompute, ts :: layers =>
    let effectiveIo := max (layerIoCost nvmeBw isMoe ts - prevCompute) 0.0
    nvmeLayersCost nvmeBw isMoe (nvmeCost + (effectiveIo + syncOverheadPerLayer)) 0.0 layers

/-- The cost of a cutoff under the overlap model. -/
def cutoffCost (ramBw nvmeBw : F) (isMoe : Bool) (layers : List (List (ScoredTensor F)))
    (cutoff : Nat) : F :=
  let residentCost := transferCost ramBw (layers.take cutoff).flatten
  let prevCompute := if 0 < cutoff then transferCost ramBw (layers.getD (cutoff - 1) []) else 0.0
  residentCost + nvmeLayersCost nvmeBw isMoe 0.0 prevCompute (layers.drop cutoff)

/-- The loop over cutoffs: it stops at the first that does not fit, and keeps the first
of least cost. -/
def searchCutoff (fits : Nat → Bool) (cost : Nat → F) : List Nat → Nat × F → Nat
  | [], best => best.1
  | cutoff :: rest, best =>
    if fits cutoff then
      searchCutoff fits cost rest (if cost cutoff < best.2 then (cutoff, cost cutoff) else best)
    else best.1

/-- Apply the best cutoff: `cutoff` layers are resident, the others go to NVMe. -/
def applyCutoff : Nat → Nat × Assignments → List (List (ScoredTensor F)) → Nat × Assignments
  | _, acc, [] => acc
  | 0, acc, ts :: layers => applyCutoff 0 (assignAll (allTo .nvme) acc ts) layers
  | cutoff + 1, acc, ts :: layers =>
    applyCutoff cutoff (assignAll gpuThenRam acc (sortByScore ts)) layers

/-- `layer_list`: the tensors layer by layer, in ascending order. -/
def layerList (tensors : List (ScoredTensor F)) : List (List (ScoredTensor F)) :=
  (layerIndices tensors).map (layerTensors tensors)

/-- The first loop of `greedy_assign`: non-layer tensors are always accessed. -/
def placeNonLayer (tensors : List (ScoredTensor F)) (caps : TierCapacities) :
    (Nat × Nat) × Assignments :=
  assignAll gpuRamNvme ((caps.gpuBytes, caps.unifiedLimit), ∅)
    (sortByScore (tensors.filter fun t => t.layerIndex.isNone))

/-- `best_cutoff`: the cheapest cutoff whose resident layers fit. -/
def bestCutoff (caps : TierCapacities) (hw : HardwareProfile) (metadata : ModelMetadata)
    (layers : List (List (ScoredTensor F))) (unifiedRemaining : Nat) : Nat :=
  let ramBw : F := (hw.memory.bandwidthBytesPerSec : F)
  let nvmeBw : F := (caps.nvmePeakBw : F)
  searchCutoff (fun cutoff => decide (sumBytes (layers.take cutoff).flatten ≤ unifiedRemaining))
    (cutoffCost ramBw nvmeBw metadata.isMoe layers) (List.range (layers.length + 1))
    (0, F64.maxValue)

/-- `greedy_assign`. -/
def greedyAssign (tensors : List (ScoredTensor F)) (caps : TierCapacities)
    (hw : HardwareProfile) (metadata : ModelMetadata) : Assignments :=
  let placed := placeNonLayer tensors caps
  let cutoff := bestCutoff caps hw metadata (layerList tensors) placed.1.2
  (applyCutoff cutoff (placed.1.1, placed.2) (layerList tensors)).2

/-! ### The MIP -/

/-- The variables of the MIP: three tiers per tensor, and per layer a switch and a cost. -/
inductive MipVar
  | xGpu (i : Nat)
  | xRam (i : Nat)
  | xNvme (i : Nat)
  | layerNvme (j : Nat)
  | layerCost (j : Nat)
  deriving DecidableEq, Repr

abbrev MipExpr (F : Type) := LinExpr MipVar F

section Mip
variable (tensors : List (ScoredTensor F)) (caps : TierCapacities) (hw : HardwareProfile)
  (metadata : ModelMetadata)

def gpuBandwidth (hw : HardwareProfile) : F :=
  hw.gpu.elim 1e9 fun g => (g.bandwidthBytesPerSec : F)

/-- `compute_expr` of a layer: GPU and RAM transfers contribute to compute time. -/
def computeExpr (layerIdx : Nat) : MipExpr F :=
  .sum 0.0 ((tensors.zipIdx.filter fun (t, _) => t.layerIndex = some layerIdx).flatMap
    fun (t, i) =>
      let weight := (t.sizeBytes : F) * t.accessFreq
      [.term (weight / gpuBandwidth hw) (.xGpu i),
        .term (weight / (hw.memory.bandwidthBytesPerSec : F)) (.xRam i)])

/-- `io_expr` of a layer: NVMe transfers contribute to I/O time. -/
def ioExpr (layerIdx : Nat) : MipExpr F :=
  .sum 0.0 ((tensors.zipIdx.filter fun (t, _) => t.layerIndex = some layerIdx).map
    fun (t, i) =>
      let effWeight := (t.sizeBytes : F) * effectiveIoFreq t.role t.accessFreq metadata.isMoe
      .term (effWeight / (caps.nvmePeakBw : F)) (.xNvme i))

/-- Per-layer costs, plus the transfers of non-layer tensors (embedding, output head). -/
def mipObjective : MipExpr F :=
  .sum 0.0
    (((List.range (layerIndices tensors).length).map fun j => .term 1.0 (.layerCost j)) ++
      (tensors.zipIdx.filter fun (t, _) => t.layerIndex.isNone).flatMap fun (t, i) =>
        let weight := (t.sizeBytes : F) * t.accessFreq
        [.term (weight / gpuBandwidth hw) (.xGpu i),
          .term (weight / (hw.memory.bandwidthBytesPerSec : F)) (.xRam i),
          .term (weight / (caps.nvmePeakBw : F)) (.xNvme i)])

/-- `layer_cost[j] >= compute_time`, and for layer 0, which no prefetch can serve,
`layer_cost[0] >= io_time`. -/
def layerCostConstraints : List (Constraint MipVar F) :=
  (layerIndices tensors).zipIdx.flatMap fun (layerIdx, j) =>
    ⟨.term 1.0 (.layerCost j), .ge, computeExpr tensors hw layerIdx⟩ ::
      if j = 0 then
        [⟨.term 1.0 (.layerCost j), .ge, ioExpr tensors caps metadata layerIdx⟩]
      else []

/-- Cross-layer prefetch overlap: `layer_cost[j] >= io[j] - compute[j - 1]`. -/
def overlapConstraints : List (Constraint MipVar F) :=
  ((layerIndices tensors).zip (layerIndices tensors).tail).zipIdx.map fun ((prev, layerIdx), k) =>
    ⟨.term 1.0 (.layerCost (k + 1)), .ge,
      .sub (ioExpr tensors caps metadata layerIdx) (computeExpr tensors hw prev)⟩

/-- Each tensor on exactly one tier. -/
def oneTierConstraints : List (Constraint MipVar F) :=
  (List.range tensors.length).map fun i =>
    ⟨.add (.add (.term 1.0 (.xGpu i)) (.term 1.0 (.xRam i))) (.term 1.0 (.xNvme i)), .eq, .const 1.0⟩

/-- GPU capacity. -/
def gpuCapacity : Constraint MipVar F :=
  ⟨.sum 0.0 (tensors.zipIdx.map fun (t, i) => .term (t.sizeBytes : F) (.xGpu i)), .le,
    .const (caps.gpuBytes : F)⟩

/-- RAM capacity. -/
def ramCapacity : Constraint MipVar F :=
  ⟨.sum 0.0 (tensors.zipIdx.map fun (t, i) => .term (t.sizeBytes : F) (.xRam i)), .le,
    .const (caps.ramBytes : F)⟩

/-- Unified memory: GPU + RAM combined. -/
def unifiedCapacity : Constraint MipVar F :=
  ⟨.sum 0.0 (tensors.zipIdx.flatMap fun (t, i) =>
      [.term (t.sizeBytes : F) (.xGpu i), .term (t.sizeBytes : F) (.xRam i)]), .le,
    .const (caps.unifiedLimit : F)⟩

/-- Once NVMe starts, it stays NVMe. -/
def contiguityConstraints : List (Constraint MipVar F) :=
  (List.range ((layerIndices tensors).length - 1)).map fun k =>
    ⟨.term 1.0 (.layerNvme (k + 1)), .ge, .term 1.0 (.layerNvme k)⟩

/-- All tensors in a layer share the same NVMe/non-NVMe assignment. -/
def linkConstraints : List (Constraint MipVar F) :=
  tensors.zipIdx.filterMap fun (t, i) =>
    (t.layerIndex.bind fun layer => (layerIndices tensors).idxOf? layer).map fun j =>
      ⟨.term 1.0 (.xNvme i), .eq, .term 1.0 (.layerNvme j)⟩

/-- The program `lp_assign` builds. -/
def mipProgram : Program MipVar F where
  binary := ((List.range tensors.length).flatMap fun i => [.xGpu i, .xRam i, .xNvme i]) ++
    (List.range (layerIndices tensors).length).map .layerNvme
  nonneg := (List.range (layerIndices tensors).length).map .layerCost
  objective := mipObjective tensors caps hw
  constraints := layerCostConstraints tensors caps hw metadata ++
    overlapConstraints tensors caps hw metadata ++ oneTierConstraints tensors ++
    [gpuCapacity tensors caps, ramCapacity tensors caps, unifiedCapacity tensors caps] ++
    contiguityConstraints tensors ++ linkConstraints tensors

/-- The tier read off a solution. -/
def solutionTier (σ : MipVar → F) (i : Nat) : StorageTier :=
  if (0.5 : F) < σ (.xGpu i) then .gpu
  else if (0.5 : F) < σ (.xRam i) then .ram
  else .nvme

/-- The loop that reads the assignments off a solution; the state is the tensor's index. -/
def extractAssignments (σ : MipVar → F) : Assignments :=
  (assignAll (fun i _ => (i + 1, solutionTier σ i)) (0, ∅) tensors).2

/-- `lp_assign`, with the solver as a parameter. -/
def lpAssign (solve : Program MipVar F → Option (MipVar → F)) : Option Assignments :=
  if tensors.isEmpty then some ∅
  else (solve (mipProgram tensors caps hw metadata)).map (extractAssignments tensors)

end Mip

/-! ### KV plan -/

/-- `compute_kv_cache_plan`. -/
def computeKvCachePlan (metadata : ModelMetadata) (contextLength : Nat)
    (caps : TierCapacities) : KvCachePlan :=
  let kvPerTokenFp16 := estimateKvBytes metadata 1
  if kvPerTokenFp16 = 0 then
    { hotWindowTokens := contextLength, warmWindowTokens := 0, hotTier := .gpu, warmTier := .ram,
      hotBytes := 0, warmBytes := 0, kvQuantization := none }
  else
    let totalFp16Kv := kvPerTokenFp16 * contextLength
    let kvQuantization :=
      if 0 < caps.gpuBytes ∧ caps.gpuBytes * 2 / 5 < totalFp16Kv ∧
          totalFp16Kv / 2 ≤ caps.gpuBytes / 4 then some KvQuantization.q8_0
      else none
    let kvPerToken := if kvQuantization.isSome then kvPerTokenFp16 / 2 else kvPerTokenFp16
    let gpuKvBudget := caps.gpuBytes / 5
    let hotTokens := min (gpuKvBudget / kvPerToken) contextLength
    let warmTokens := contextLength - hotTokens
    let kvPerTokenQ8 := kvPerTokenFp16 / 2
    { hotWindowTokens := hotTokens, warmWindowTokens := warmTokens, hotTier := .gpu,
      warmTier := .ram, hotBytes := hotTokens * kvPerToken, warmBytes := warmTokens * kvPerTokenQ8,
      kvQuantization }

/-! ### Quick estimate -/

section Estimate
variable (assignments : Assignments) (tensors : List TensorInfo) (metadata : ModelMetadata)
  (hw : HardwareProfile)

/-- `nvme_bw` of the estimate: the first storage device, or 3 GB/s. -/
def nvmeBandwidth : F := hw.storage.head?.elim 3e9 fun s => (s.peakSequential : F)

/-- `freq` of the estimate. -/
def estimateFreq (t : TensorInfo) : F :=
  (TensorRole.fromName t.name).accessFrequency (metadata.numExpertsUsed.getD 1)
    (metadata.numExperts.getD 1)

/-- Where one tensor of a layer adds its transfer time: compute or I/O. -/
def addTransfer (acc : F × F) (t : TensorInfo) : F × F :=
  let freq : F := estimateFreq metadata t
  match assignments.tierOf t.name with
  | .gpu => (acc.1 + (t.sizeBytes : F) * freq / gpuBandwidth hw, acc.2)
  | .ram => (acc.1 + (t.sizeBytes : F) * freq / (hw.memory.bandwidthBytesPerSec : F), acc.2)
  | .nvme =>
    let eff := effectiveIoFreq (TensorRole.fromName t.name) freq metadata.isMoe
    (acc.1, acc.2 + (t.sizeBytes : F) * eff / nvmeBandwidth hw)

/-- The inner loop: `layer_compute` and `layer_io` of one layer. -/
def layerTimes (layerIdx : Nat) : F × F :=
  (tensors.filter fun t => t.layerIndex = some layerIdx).foldl
    (addTransfer assignments metadata hw) (0.0, 0.0)

/-- One layer of the overlap model: `max(compute, io - prev_compute)` plus the sync
overhead. The state is the total latency and the previous layer's compute time. -/
def addLayer (acc : F × F) (layerIdx : Nat) : F × F :=
  let (layerCompute, layerIo) := layerTimes assignments tensors metadata hw layerIdx
  let effectiveIo := max (layerIo - acc.2) 0.0
  let layerLatency := max layerCompute effectiveIo + syncOverheadPerLayer
  (acc.1 + layerLatency, layerCompute)

/-- `transfer` of a tensor outside layers. -/
def nonLayerTransfer (t : TensorInfo) : F :=
  let freq : F := estimateFreq metadata t
  match assignments.tierOf t.name with
  | .gpu => (t.sizeBytes : F) * freq / gpuBandwidth hw
  | .ram => (t.sizeBytes : F) * freq / (hw.memory.bandwidthBytesPerSec : F)
  | .nvme => (t.sizeBytes : F) * freq / nvmeBandwidth hw

/-- `total_latency_secs` of `quick_estimate`: the layers, then the tensors outside
layers (embedding, output head), which are additive. -/
def estimateLatency : F :=
  sumFrom ((List.range metadata.numLayers).foldl (addLayer assignments tensors metadata hw)
      (0.0, 0.0)).1
    ((tensors.filter fun t => t.layerIndex.isNone).map (nonLayerTransfer assignments metadata hw))

end Estimate

/-- `quick_estimate`. -/
def quickEstimate (assignments : Assignments) (tensors : List TensorInfo)
    (metadata : ModelMetadata) (hw : HardwareProfile) : F :=
  let totalLatencySecs := estimateLatency assignments tensors metadata hw
  if (0.0 : F) < totalLatencySecs then (1.0 : F) / totalLatencySecs else 0.0

/-! ### The plan -/

/-- The context length a plan is made for. -/
def planContext (metadata : ModelMetadata) (contextLength : Nat) : Nat :=
  if 0 < contextLength then min contextLength (max metadata.contextLength 2048)
  else min (max metadata.contextLength 2048) 8192

/-- The choice among the placements: sparse MoE mmap, expert streaming, dense FFN
streaming, the MIP, and greedy when the solver fails. -/
def chooseAssignments (solve : Program MipVar F → Option (MipVar → F))
    (scored : List (ScoredTensor F)) (caps : TierCapacities) (hw : HardwareProfile)
    (metadata : ModelMetadata) : Assignments × InferenceMode :=
  match trySparseMoeMmap scored caps metadata with
  | some assignments => (assignments, .sparseMoeMmap)
  | none =>
    match tryExpertStreamingAssign scored caps metadata with
    | some assignments => (assignments, .expertStreaming)
    | none =>
      match tryDenseFfnStreamingAssign scored caps metadata with
      | some assignments => (assignments, .denseFfnStreaming)
      | none =>
        let assignments := (lpAssign scored caps hw metadata solve).getD
          (greedyAssign scored caps hw metadata)
        let hasNvme := assignments.entries.any fun e => e.2 = .nvme
        (assignments, if hasNvme then .fullStreaming else .fullResident)

/-- `compute_placement_with_context`. -/
def computePlacementWithContext (solve : Program MipVar F → Option (MipVar → F))
    (model : GgufFile) (hardware : HardwareProfile) (contextLength : Nat) : PlacementPlan F :=
  let metadata := ModelMetadata.fromGguf model
  let contextLength := planContext metadata contextLength
  let capacities := computeTierCapacities hardware metadata contextLength
  let scored : List (ScoredTensor F) := scoreTensors model.tensors metadata
  let (tierAssignments, inferenceMode) :=
    chooseAssignments solve scored capacities hardware metadata
  let estimatedTokPerSec := quickEstimate tierAssignments model.tensors metadata hardware
  { tierAssignments, inferenceMode, estimatedTokPerSec
    kvCachePlan := computeKvCachePlan metadata contextLength capacities
    experienceTier := .fromTokPerSec estimatedTokPerSec }

end Hypura
