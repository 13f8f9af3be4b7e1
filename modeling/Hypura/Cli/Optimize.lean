import Hypura.Cache.CoActivation
import Hypura.Compute.BuildState
import Hypura.Core.Exec
import Hypura.Rust.Slice

/-!
# Hypura.Cli.Optimize

`hypura optimize` (`cli/optimize.rs`): rewrite the fused expert tensors of a model so
that co-activated experts are contiguous on disk.

* `computeOptimalExpertOrder` — the greedy nearest-neighbour order of one layer,
* `reorder` — the strides of one tensor in that order,
* `run` — the command, over a disk with the model, its output and the sidecar, where
  every I/O call may succeed, be refused, or stop after some bytes.
-/

namespace Hypura

open Hypura.Core Hypura.Rust

namespace Optimize

/-! ### The order of one layer -/

/-- The loop of `compute_optimal_expert_order`: `k` more experts to place. -/
def tourFrom (counts : List (List Nat)) (ne : Nat) :
    Nat → List Bool → List Nat → Option (List Nat)
  | 0, _, order => some order
  | k + 1, visited, order => do
    let current ← order.getLast?
    let next ← maxByKey (CoActivationMatrix.entry counts current)
      ((List.range ne).filter fun e => visited[e]? = some false)
    let next := next.getD 0
    tourFrom counts ne k (visited.set next true) (order ++ [next])

/-- `compute_optimal_expert_order`: greedy nearest-neighbour, from the most frequently
activated expert. -/
def computeOptimalExpertOrder (coAct : CoActivationMatrix) (layer numExperts : Nat) :
    Option (List Nat) :=
  match coAct.layerCounts[layer]? with
  | none => some (List.range numExperts)
  | some counts =>
    if numExperts = 0 then some (List.range numExperts)
    else do
      let start ← maxByKey (fun e => CoActivationMatrix.entry counts e e) (List.range numExperts)
      let start := start.getD 0
      tourFrom counts numExperts (numExperts - 1)
        ((List.replicate numExperts false).set start true) [start]

/-! ### The strides of one tensor -/

/-- The copy loop, from position `pos` on: `perm[new_pos] = old_expert`. -/
def reorderFrom (original : List UInt8) (stride pos : Nat) : List Nat → List UInt8 →
    Option (List UInt8)
  | [], reordered => some reordered
  | old :: perm, reordered => do
    let reordered ← copySlice reordered (pos * stride) original (old * stride) stride
    reorderFrom original stride (pos + 1) perm reordered

/-- The tensor's bytes with its strides in the order of `perm`. -/
def reorder (original : List UInt8) (stride : Nat) (perm : List Nat) : Option (List UInt8) :=
  reorderFrom original stride 0 perm (List.replicate original.length 0)

/-- The byte sum that is compared before and after. -/
def byteSum (bytes : List UInt8) : Nat :=
  (bytes.map UInt8.toNat).sum

/-! ### The disk and its failures -/

/-- The files the command touches. -/
structure Disk where
  model : List UInt8
  /-- `{stem}.optimized.{ext}`, when it exists. -/
  output : Option (List UInt8)
  /-- `{stem}.optimized.permutations.json`, when it exists. -/
  sidecar : Option Sidecar

/-- How one I/O call goes. -/
inductive IoOutcome
  | done
  /-- It fails without effect. -/
  | refused
  /-- It fails after so many bytes. -/
  | cut (bytes : Nat)

/-- Why the command stops. -/
inductive OptimizeError
  | io
  | gguf (e : GgufError)
  | noCoActivationData
  | insufficientData
  | notMoe
  | noFusedTensors
  | checksumMismatch (name : String) (original reordered : Nat)
  | panic

/-- The disk, and the outcomes of the I/O calls to come (calls past the end of the list
succeed). -/
structure RunState where
  disk : Disk
  calls : List IoOutcome

abbrev OptimizeM := EStateM OptimizeError RunState

/-- The outcome of the next I/O call. -/
def nextCall : OptimizeM IoOutcome := fun s =>
  match s.calls with
  | [] => .ok .done s
  | c :: cs => .ok c { s with calls := cs }

def modifyDisk (f : Disk → Disk) : OptimizeM Unit := fun s =>
  .ok () { s with disk := f s.disk }

def getDisk : OptimizeM Disk := fun s => .ok s.disk s

/-- An I/O call that leaves the disk as it is. -/
def call : OptimizeM Unit := do
  match ← nextCall with
  | .done => pure ()
  | _ => throw .io

/-- A value whose absence is a panic. -/
def orPanic {α : Type} : Option α → OptimizeM α
  | some a => pure a
  | none => throw .panic

/-- `std::fs::copy(model_path, &output_path)`. -/
def copyModel : OptimizeM Unit := do
  match ← nextCall with
  | .done => modifyDisk fun d => { d with output := some d.model }
  | .refused => throw .io
  | .cut n =>
    modifyDisk fun d => { d with output := some (d.model.take n) }
    throw .io

/-- `read_exact` of `size` bytes at `offset` of the output. -/
def readOutput (offset size : Nat) : OptimizeM (List UInt8) := do
  call
  let d ← getDisk
  match d.output with
  | some bytes =>
    if offset + size ≤ bytes.length ∨ size = 0 then pure ((bytes.drop offset).take size)
    else throw .io
  | none => throw .io

/-- The output with `bs` written at `offset`; an empty write writes nothing. -/
def Disk.writeOutput (d : Disk) (offset : Nat) (bs : List UInt8) : Disk :=
  { d with output := d.output.map fun bytes => if bs = [] then bytes else overwrite bytes offset bs }

/-- `write_all` of `bs` at `offset` of the output. -/
def writeOutput (offset : Nat) (bs : List UInt8) : OptimizeM Unit := do
  match ← nextCall with
  | .done => modifyDisk fun d => d.writeOutput offset bs
  | .refused => throw .io
  | .cut n =>
    modifyDisk fun d => d.writeOutput offset (bs.take n)
    throw .io

/-- `let _ = std::fs::remove_file(&output_path)`. -/
def removeOutput : OptimizeM Unit := do
  match ← nextCall with
  | .done => modifyDisk fun d => { d with output := none }
  | _ => pure ()

/-- `std::fs::write(&perm_path, perm_json)`: what is cut short does not parse. -/
def writeSidecar (permutations : List (Nat × List Nat)) : OptimizeM Unit := do
  match ← nextCall with
  | .done => modifyDisk fun d => { d with sidecar := some (.permutations permutations) }
  | .refused => throw .io
  | .cut _ =>
    modifyDisk fun d => { d with sidecar := some .unreadable }
    throw .io

/-! ### The command -/

/-- The layer of a fused expert tensor: the tensors both loops look at. -/
def fusedLayer (t : TensorInfo) : Option Nat :=
  if TensorRole.fromName t.name = .moeFusedExperts then t.layerIndex else none

/-- Fused expert tensors: one permutation per layer, computed at its first tensor. -/
def findPermutations (coAct : CoActivationMatrix) (numExperts : Nat) :
    List TensorInfo → List (Nat × List Nat) → OptimizeM (List (Nat × List Nat))
  | [], perms => pure perms
  | t :: ts, perms =>
    match fusedLayer t with
    | none => findPermutations coAct numExperts ts perms
    | some layer =>
      if (perms.lookup layer).isSome then findPermutations coAct numExperts ts perms
      else do
        let perm ← orPanic (computeOptimalExpertOrder coAct layer numExperts)
        findPermutations coAct numExperts ts (perms ++ [(layer, perm)])

/-- One tensor of the second loop: read, rearrange, verify, write. -/
def rewriteTensor (gguf : GgufFile) (numExperts : Nat) (t : TensorInfo) (perm : List Nat) :
    OptimizeM Unit := do
  let stride := t.sizeBytes / numExperts
  let absOffset := gguf.dataOffset + t.offset
  call
  let original ← readOutput absOffset t.sizeBytes
  let reordered ← orPanic (reorder original stride perm)
  if byteSum original ≠ byteSum reordered then do
    removeOutput
    throw (.checksumMismatch t.name (byteSum original) (byteSum reordered))
  else do
    call
    writeOutput absOffset reordered

/-- The second loop. -/
def rewriteTensors (gguf : GgufFile) (numExperts : Nat) (perms : List (Nat × List Nat)) :
    List TensorInfo → OptimizeM Unit
  | [] => pure ()
  | t :: ts =>
    match (fusedLayer t).bind fun layer => perms.lookup layer with
    | none => rewriteTensors gguf numExperts perms ts
    | some perm => do
      rewriteTensor gguf numExperts t perm
      rewriteTensors gguf numExperts perms ts

/-- `GgufFile::open(model_path)`. -/
def openModel : OptimizeM GgufFile := do
  call
  let d ← getDisk
  match GgufFile.parse d.model with
  | .ok gguf => pure gguf
  | .error e => throw (.gguf e)

/-- `run` once the model and its co-activation data are read. -/
def optimizeWith (gguf : GgufFile) (coAct : CoActivationMatrix) : OptimizeM Unit := do
  let numExperts := (gguf.getU32 "expert_count").getD 0
  if ¬ coAct.hasData then throw .insufficientData
  else if numExperts = 0 then throw .notMoe
  else do
    let perms ← findPermutations coAct numExperts gguf.tensors []
    if perms = [] then throw .noFusedTensors
    else do
      copyModel
      -- reopened for reading and writing
      call
      rewriteTensors gguf numExperts perms gguf.tensors
      writeSidecar perms

/-- `optimize::run`; `coAct` is what stands at the matrix's persistence path. -/
def run (coAct : Option CoActivationMatrix) : OptimizeM Unit := do
  let gguf ← openModel
  match coAct with
  | none => throw .noCoActivationData
  | some coAct => optimizeWith gguf coAct

end Optimize

end Hypura
