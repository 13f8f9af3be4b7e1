import Hypura.Scheduler.Placement

/-!
# Hypura.Scheduler.Estimator

The performance prediction of `hypura estimate` (`scheduler/estimator.rs`), and the
placement summary it reports (`summarize_placement` of `scheduler/placement.rs`).

It implements the overlap model of `quick_estimate` a second time, with constants and
loops of its own: the tensors of a layer are found by their name, and the compute time of
the previous layer is taken off the I/O time of each tensor. The id of the model is left
out, as it is from the plan.
-/

namespace Hypura

open Hypura.Rust

variable {F : Type} [F64 F]

/-! ### The summary of a placement -/

structure PlacementSummary where
  layersOnGpu : Nat
  layersInRam : Nat
  layersOnNvme : Nat
  totalGpuBytes : Nat
  totalRamBytes : Nat
  totalNvmeBytes : Nat
  deriving DecidableEq, Repr

/-- The tensors on one tier; a tensor without an assignment is on NVMe. -/
def tensorsOn (assignments : Assignments) (tensors : List TensorInfo) (tier : StorageTier) :
    List TensorInfo :=
  tensors.filter fun t => assignments.tierOf t.name = tier

/-- The number of distinct layers with a tensor on the tier (`len() as u32`). -/
def layersOn (assignments : Assignments) (tensors : List TensorInfo) (tier : StorageTier) : Nat :=
  ((tensorsOn assignments tensors tier).filterMap TensorInfo.layerIndex).dedup.length % 2 ^ 32

def totalBytesOn (assignments : Assignments) (tensors : List TensorInfo) (tier : StorageTier) :
    Nat :=
  ((tensorsOn assignments tensors tier).map TensorInfo.sizeBytes).sum

/-- `summarize_placement`. -/
def summarizePlacement (assignments : Assignments) (tensors : List TensorInfo) :
    PlacementSummary where
  layersOnGpu := layersOn assignments tensors .gpu
  layersInRam := layersOn assignments tensors .ram
  layersOnNvme := layersOn assignments tensors .nvme
  totalGpuBytes := totalBytesOn assignments tensors .gpu
  totalRamBytes := totalBytesOn assignments tensors .ram
  totalNvmeBytes := totalBytesOn assignments tensors .nvme

namespace Estimator

/-- `SYNC_OVERHEAD_US * 1e-6`: CPU-GPU sync per layer, in seconds. -/
def syncOverhead : F := (50.0 : F) * (1e-6 : F)

/-- `MOE_CACHE_HIT_RATE`, from PowerInfer-2 research. -/
def moeCacheHitRate : F := (0.965 : F)

/-- `OS_OVERHEAD_BYTES`. -/
def osOverheadBytes : Nat := 2 * 2 ^ 30

/-! ### Layers -/

/-- `layer_prefix`: `format!("blk.{layer_idx}.")`. -/
def layerPrefix (layerIdx : Nat) : String := "blk." ++ toString layerIdx ++ "."

/-- `layer_tensors`: found by the name, not by the layer index. -/
def namedTensors (tensors : List TensorInfo) (layerIdx : Nat) : List TensorInfo :=
  tensors.filter fun t => startsWith t.name (layerPrefix layerIdx)

/-- The variables of the loop over the layers. -/
structure Totals (F : Type) where
  totalLatency : F
  totalNvmeBytesPerToken : F
  prevComputeTime : F

/-- The variables of the loop over the tensors of a layer. -/
structure LayerTotals (F : Type) where
  layerComputeTime : F
  layerIoTime : F
  totalNvmeBytesPerToken : F

section Estimate
variable (assignments : Assignments) (tensors : List TensorInfo) (metadata : ModelMetadata)
  (hw : HardwareProfile)

/-- `effective_freq`: experts that the cache is expected to hold are not read. -/
def effectiveFreq (t : TensorInfo) : F :=
  let role := TensorRole.fromName t.name
  let freq : F := estimateFreq metadata t
  if metadata.isMoe then
    if role.isExpert then freq * ((1.0 : F) - moeCacheHitRate) else freq
  else freq

/-- The body of the loop over the tensors of a layer. -/
def addTensor (prevComputeTime : F) (acc : LayerTotals F) (t : TensorInfo) : LayerTotals F :=
  let freq : F := estimateFreq metadata t
  match assignments.tierOf t.name with
  | .gpu =>
    { acc with layerComputeTime := acc.layerComputeTime + (t.sizeBytes : F) * freq / gpuBandwidth hw }
  | .ram =>
    { acc with
      layerComputeTime :=
        acc.layerComputeTime + (t.sizeBytes : F) * freq / (hw.memory.bandwidthBytesPerSec : F) }
  | .nvme =>
    let bytes := (t.sizeBytes : F) * effectiveFreq metadata t
    let io := bytes / nvmeBandwidth hw
    { acc with
      totalNvmeBytesPerToken := acc.totalNvmeBytesPerToken + bytes
      -- the previous layer's compute hides the I/O, of each tensor anew
      layerIoTime :=
        if prevComputeTime < io then acc.layerIoTime + (io - minF64 prevComputeTime io)
        else acc.layerIoTime }

/-- The body of the loop over the layers. -/
def addLayer (acc : Totals F) (layerIdx : Nat) : Totals F :=
  let layer := (namedTensors tensors layerIdx).foldl
    (addTensor assignments metadata hw acc.prevComputeTime)
    ⟨0.0, 0.0, acc.totalNvmeBytesPerToken⟩
  { totalLatency :=
      acc.totalLatency + (max layer.layerComputeTime layer.layerIoTime + syncOverhead)
    totalNvmeBytesPerToken := layer.totalNvmeBytesPerToken
    prevComputeTime := layer.layerComputeTime }

/-- The body of the loop over the tensors outside layers (embedding, output head). -/
def addNonLayer (acc : F × F) (t : TensorInfo) : F × F :=
  let freq : F := estimateFreq metadata t
  match assignments.tierOf t.name with
  | .gpu => (acc.1 + (t.sizeBytes : F) * freq / gpuBandwidth hw, acc.2)
  | .ram => (acc.1 + (t.sizeBytes : F) * freq / (hw.memory.bandwidthBytesPerSec : F), acc.2)
  | .nvme =>
    (acc.1 + (t.sizeBytes : F) * freq / nvmeBandwidth hw, acc.2 + (t.sizeBytes : F) * freq)

/-- `total_latency` and `total_nvme_bytes_per_token` at the end of the loops. -/
def totals : F × F :=
  let layers := (List.range metadata.numLayers).foldl
    (addLayer assignments tensors metadata hw) ⟨0.0, 0.0, 0.0⟩
  (tensors.filter fun t => t.layerIndex.isNone).foldl (addNonLayer assignments metadata hw)
    (layers.totalLatency, layers.totalNvmeBytesPerToken)

end Estimate

/-- `estimate_kv_per_token`. -/
def estimateKvPerToken (metadata : ModelMetadata) : Nat :=
  if metadata.numHeads = 0 ∨ metadata.embeddingDim = 0 then 0
  else
    let headDim := metadata.embeddingDim / metadata.numHeads
    2 * metadata.numLayers * metadata.numKvHeads * headDim * 2

/-- `max_context`: the tokens whose KV fits beside the model (`as u32`). -/
def maxContext (model : GgufFile) (metadata : ModelMetadata) (hw : HardwareProfile) : Nat :=
  let kvPerToken := estimateKvPerToken metadata
  let total := hw.memory.totalBytes
  let availableForKv := total - min model.totalTensorBytes (total - osOverheadBytes)
  if 0 < kvPerToken then availableForKv / kvPerToken % 2 ^ 32 else metadata.contextLength

end Estimator

inductive EstimateConfidence
  | measured
  | predicted
  | interpolated
  deriving DecidableEq, Repr

/-- Pre-download performance prediction for a model on specific hardware. -/
structure HypuraEstimate (F : Type) where
  estimatedTokPerSecInteractive : F
  estimatedTokPerSecBatched : F
  placementSummary : PlacementSummary
  maxContextBeforeSpill : Nat
  diskReadPerTokenBytes : Nat
  experienceTier : ExperienceTier
  confidence : EstimateConfidence

/-- `estimate_performance`. -/
def estimatePerformance (model : GgufFile) (metadata : ModelMetadata) (hardware : HardwareProfile)
    (placement : PlacementPlan F) : HypuraEstimate F :=
  let (totalLatency, totalNvmeBytesPerToken) :=
    Estimator.totals placement.tierAssignments model.tensors metadata hardware
  let interactiveTps := if (0.0 : F) < totalLatency then (1.0 : F) / totalLatency else 0.0
  { estimatedTokPerSecInteractive := interactiveTps
    -- ~70% efficiency for a batch of 8
    estimatedTokPerSecBatched := interactiveTps * (8.0 : F) * (0.7 : F)
    placementSummary := summarizePlacement placement.tierAssignments model.tensors
    maxContextBeforeSpill := Estimator.maxContext model metadata hardware
    diskReadPerTokenBytes := F64.toU64 totalNvmeBytesPerToken
    experienceTier := .fromTokPerSec interactiveTps
    confidence := .predicted }

end Hypura
