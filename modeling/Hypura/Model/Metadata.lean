import Hypura.Model.Gguf

/-!
# Hypura.Model.Metadata

The model metadata the scheduler and the runtime read (`model/metadata.rs`).
-/

namespace Hypura

/-- Unified model metadata extracted from any supported format. -/
structure ModelMetadata where
  architecture : String
  contextLength : Nat
  embeddingDim : Nat
  numLayers : Nat
  numHeads : Nat
  numKvHeads : Nat
  isMoe : Bool
  numExperts : Option Nat
  numExpertsUsed : Option Nat
  deriving DecidableEq, Repr

namespace ModelMetadata

/-- A field looked up under the architecture's prefix first, then on its own. -/
def archU32 (gguf : GgufFile) (arch key : String) : Option Nat :=
  (gguf.getU32 (arch ++ "." ++ key)).or (gguf.getU32 key)

/-- `ModelMetadata::from_gguf`. A per-layer `head_count_kv` array stands for its
maximum. -/
def fromGguf (gguf : GgufFile) : ModelMetadata :=
  let arch := (gguf.getString "general.architecture").getD "unknown"
  let numHeads := (archU32 gguf arch "attention.head_count").getD 0
  let numKvHeads := ((archU32 gguf arch "attention.head_count_kv").or
    ((gguf.getU32Array "attention.head_count_kv").bind List.max?)).getD numHeads
  let numExperts := archU32 gguf arch "expert_count"
  { architecture := arch
    contextLength := (archU32 gguf arch "context_length").getD 0
    embeddingDim := (archU32 gguf arch "embedding_length").getD 0
    numLayers := (archU32 gguf arch "block_count").getD 0
    numHeads, numKvHeads, numExperts
    isMoe := numExperts.any fun n => 1 < n
    numExpertsUsed := archU32 gguf arch "expert_used_count" }

end ModelMetadata

end Hypura
