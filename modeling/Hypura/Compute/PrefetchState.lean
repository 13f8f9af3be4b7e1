import Hypura.Cache.CoActivation
import Hypura.Cache.NeuronCache
import Hypura.Compute.BuildState
import Hypura.Compute.ExpertPool
import Hypura.Core.Countdown
import Hypura.Rust.Slice

/-!
# Hypura.Compute.PrefetchState

The state shared by the inference thread and the I/O workers (`PrefetchState`,
`compute/nvme_backend.rs`), and the operations on it.

A lock is held for a few reads and writes at a time, so the unit of interleaving is what
one critical section does to the data that both sides touch: the layer status, the task
channel and the completion counters. Everything else (the selections, the neuron cache,
the co-activation matrix, the slot pool, the tensor pointers) is touched by the inference
thread alone, and its updates are part of the step at whose end they become observable.

* `Op` — what the inference thread still has to do in the callback it is in; each
  operation is one step, and may leave further ones,
* `Machine` — the shared state, the thread's position in its callback, and a history
  that the code does not keep: what was submitted and read, and what of it was read
  since a layer was last released.
-/

namespace Hypura

open Hypura.Core Hypura.Core.Countdown Hypura.Rust

/-! ### Data -/

/-- `LayerStatus`; a layer without an entry counts as `notLoaded`. -/
inductive LayerStatus
  | notLoaded
  | loading
  | loaded
  deriving DecidableEq, Repr

/-- What a base pointer points to. -/
inductive Base
  /-- The buffer the model was loaded into. -/
  | buffer
  /-- The slot pool. -/
  | pool
  /-- The buffer of the layers whose FFN data stays in memory. -/
  | resident
  deriving DecidableEq, Repr

/-- `IoPoolTask` without its completion. -/
structure IoPoolTask where
  /-- Regions to pread, those still to do. -/
  regions : List Region
  base : Base
  /-- The regions of the task that a worker is through with. -/
  done : List Region
  deriving DecidableEq, Repr

/-- `IoCompletion` without its counter. -/
structure IoCompletion where
  layerIdx : Nat
  /-- Whether to store `Loaded` on completion. -/
  updateStatus : Bool
  deriving DecidableEq, Repr

/-- The channel, the workers and the completions. -/
abbrev IoPool := Pool IoPoolTask IoCompletion

/-- Memory behind a base pointer; `none` is a byte that was freed and not written since, of
which nothing is known. -/
abbrev Buffer := Nat → Option UInt8

/-- The buffer after `count` bytes of the region were read. -/
def Region.fill (file : List UInt8) (r : Region) (count : Nat) (buf : Buffer) : Buffer := fun a =>
  if r.dst ≤ a ∧ a < r.dst + count then
    match file[r.fileOffset + (a - r.dst)]? with
    | some b => some b
    | none => buf a
  else buf a

/-- The start of the page of `a`. -/
def pageFloor (pageSize a : Nat) : Nat := a / pageSize * pageSize

/-- The first start of a page from `a` on. -/
def pageCeil (pageSize a : Nat) : Nat := (a + (pageSize - 1)) / pageSize * pageSize

/-- Offset `a` is on a page with a byte of `[dst, dst + size)`. The base pointers come from
`mmap`, so the pages start at the multiples of their size. -/
def OnPages (pageSize dst size a : Nat) : Prop :=
  0 < size ∧ pageFloor pageSize dst ≤ a ∧ a < pageCeil pageSize (dst + size)

instance (pageSize dst size a : Nat) : Decidable (OnPages pageSize dst size a) :=
  inferInstanceAs (Decidable (_ ∧ _))

/-- `MADV_FREE` on `[dst, dst + size)`: whole pages are freed. -/
def freeRange (pageSize dst size : Nat) (buf : Buffer) : Buffer := fun a =>
  if OnPages pageSize dst size a then none else buf a

/-- What stays fixed while the model runs. -/
structure Runtime where
  config : PrefetchConfig
  /-- The model file. -/
  file : List UInt8
  /-- The size of the pages that `madvise` acts on. -/
  pageSize : Nat
  /-- No buffer base was captured. -/
  bufferBaseNull : Bool
  ioPoolStarted : Bool
  prefetchEnabled : Bool
  keepNvmeResident : Bool
  expertStreaming : Bool
  denseFfnStreaming : Bool
  denseFfnLookahead : Nat
  residentFfnLayers : Finset Nat
  residentFfnOffsets : String → Option Nat

/-- Neither of the pool-backed modes. -/
def Runtime.Standard (rt : Runtime) : Prop :=
  rt.expertStreaming = false ∧ rt.denseFfnStreaming = false

instance (rt : Runtime) : Decidable rt.Standard := inferInstanceAs (Decidable (_ ∧ _))

/-- What the inference thread still has to do, most urgent first. -/
inductive Op
  /-- `ensure_layer_loaded`, at the head of its loop. -/
  | ensureLayer (l : Nat)
  /-- `request_prefetch(Layer(l))`. -/
  | requestLayer (l : Nat)
  /-- `submit_layer_load`. -/
  | submitLayer (l : Nat)
  /-- Send the tasks of the completion just created. -/
  | send
  /-- `request_prefetch(ExpertSlices { .. })`. -/
  | requestExperts (l : Nat) (ids : List Nat)
  /-- Record the selection of `l` and request what the next layer is likely to need. -/
  | speculate (l : Nat)
  /-- `ensure_experts_loaded`. -/
  | ensureExperts (l : Nat) (ids : List Nat)
  /-- `status.insert(l, NotLoaded)`. -/
  | resetStatus (l : Nat)
  /-- `ensure_dense_ffn_loaded`, up to the check of the status. -/
  | ensureDenseFfn (l : Nat)
  /-- `ensure_dense_ffn_loaded`, from the allocation on. -/
  | loadDenseFfn (l : Nat)
  /-- The prefetch decision after the computation of `l`. -/
  | planDenseFfn (l : Nat)
  /-- `prefetch_dense_ffn`. -/
  | prefetchDenseFfn (l : Nat)
  /-- `activate_resident_ffn` for the first `n` layers, from its wait on. -/
  | awaitResident (n : Nat)
  deriving DecidableEq, Repr

/-- The shared state, the inference thread and the history. -/
structure Machine where
  currentLayer : Int
  layerStatus : Nat → LayerStatus
  selectedExperts : Nat → Option (List Nat)
  neuronCache : NeuronCache
  coActivation : CoActivationMatrix
  prevLayerExperts : Option (Nat × List Nat)
  expertPool : Option ExpertPool
  /-- `tensor->data` of the captured tensors: a base and an offset from it. -/
  tensorData : String → Base × Nat
  memory : Base → Buffer
  io : IoPool
  /-- The operations left in the current callback. -/
  pending : List Op
  /-- The layer whose `Loaded` the callback waits for at its end. -/
  await : Option Nat
  /-- Asleep on the condition variable. -/
  asleep : Bool
  /-- The layer of the node whose `ask` callback came last, until its `done` callback. -/
  asked : Option Nat
  /-- The regions completely read for a layer since it was last released. -/
  readSince : Nat → List Region
  /-- The selection the layer's last load was built from; `none` for a full load. -/
  basis : Nat → Option (List Nat)
  /-- What the layer's router selected in the current token. -/
  routed : Nat → Option (List Nat)
  /-- The tasks of each batch as they were submitted. -/
  submitted : List (List (List Region))
  /-- The `pread_region` calls: the batch, the region and the number of bytes read. -/
  preads : List (Nat × Region × Nat)

/-! ### Building tasks -/

/-- One non-empty task for the regions that are no experts'. -/
def nonExpertTask (cfg : PrefetchConfig) (l : Nat) : List (List Region) :=
  if cfg.nonExpertRegions l = [] then [] else [cfg.nonExpertRegions l]

/-- The loop over the selected experts of one fused tensor: ids out of range and cache
hits are skipped, the others are marked loaded and their slice is to be read. -/
def expertRegions (l : Nat) (layout : ExpertLayout) (place : Nat → Region) :
    List Nat → NeuronCache → NeuronCache × List Region
  | [], cache => (cache, [])
  | eid :: ids, cache =>
    if layout.numExperts ≤ eid then expertRegions l layout place ids cache
    else
      let looked := cache.isLoaded (l, eid, layout.tensorType)
      if looked.1 then expertRegions l layout place ids looked.2
      else
        let rest := expertRegions l layout place ids
          (looked.2.markLoaded (l, eid, layout.tensorType)).2
        (rest.1, place eid :: rest.2)

/-- Each fused expert tensor as a separate task, if anything of it is to be read. -/
def expertTasks (l : Nat) (ids : List Nat) :
    List (ExpertLayout × (Nat → Region)) → NeuronCache → NeuronCache × List (List Region)
  | [], cache => (cache, [])
  | (layout, place) :: rest, cache =>
    let here := expertRegions l layout place ids cache
    let later := expertTasks l ids rest here.1
    (later.1, if here.2 = [] then later.2 else here.2 :: later.2)

/-- The fused tensors of a layer with the places of their slices in the buffer. -/
def bufferPlaces (cfg : PrefetchConfig) (l : Nat) : List (ExpertLayout × (Nat → Region)) :=
  (cfg.expertLayouts l).map fun layout => (layout, layout.bufferRegion)

/-- The tasks of a load, and the selection they were built from. -/
structure LayerPlan where
  tasks : List (List Region)
  cache : NeuronCache
  basis : Option (List Nat)

/-- The regions that are no experts', and the slices of `ids`: the part that
`submit_layer_load` and `submit_expert_load` have in common. -/
def planSlices (cfg : PrefetchConfig) (cache : NeuronCache) (l : Nat) (ids : List Nat) :
    LayerPlan :=
  let slices := expertTasks l ids (bufferPlaces cfg l) cache
  ⟨nonExpertTask cfg l ++ slices.2, slices.1, some ids⟩

/-- Split regions across workers for parallel I/O. -/
def planFull (rt : Runtime) (m : Machine) (l : Nat) : LayerPlan :=
  let regions := rt.config.layerRegions l
  let numWorkers := if rt.ioPoolStarted then max m.io.workers.length 1 else 1
  ⟨chunks ((regions.length + numWorkers - 1) / numWorkers) regions, m.neuronCache, none⟩

/-- The decomposition of `submit_layer_load`: by expert where a selection is known, else
all regions. -/
def planLayer (rt : Runtime) (m : Machine) (l : Nat) : LayerPlan :=
  match m.selectedExperts l with
  | some experts =>
    if rt.config.expertLayouts l = [] then planFull rt m l
    else planSlices rt.config m.neuronCache l experts
  | none => planFull rt m l

namespace Machine

/-! ### The status, the channel and the slots -/

def setStatus (m : Machine) (l : Nat) (st : LayerStatus) : Machine :=
  { m with layerStatus := Function.update m.layerStatus l st }

/-- `status.insert(l, Loaded); layer_notify.notify_all()`. -/
def storeLoaded (m : Machine) (l : Nat) : Machine :=
  { m.setStatus l .loaded with asleep := false }

/-- Create a completion and go on to send its tasks; without a pool nothing is sent. -/
def submitTasks (rt : Runtime) (m : Machine) (completion : IoCompletion) (base : Base)
    (tasks : List (List Region)) : Machine :=
  if rt.ioPoolStarted then
    { m with
      io := m.io.openBatch completion (tasks.map (⟨·, base, []⟩))
      pending := .send :: m.pending
      submitted := m.submitted ++ [tasks] }
  else m

/-- `submit_layer_load`. -/
def submitLayerLoad (rt : Runtime) (m : Machine) (l : Nat) : Machine :=
  if rt.bufferBaseNull then m
  else
    let plan := planLayer rt m l
    let m := { m with
      neuronCache := plan.cache
      basis := Function.update m.basis l plan.basis }
    if plan.tasks = [] then m.storeLoaded l
    else if rt.ioPoolStarted then m.submitTasks rt ⟨l, true⟩ .buffer plan.tasks
    -- no pool: mark as loaded to avoid a deadlock
    else m.storeLoaded l

/-- `submit_expert_load`: no status change. -/
def submitExpertLoad (rt : Runtime) (m : Machine) (l : Nat) (ids : List Nat) : Machine :=
  if rt.config.expertLayouts l = [] ∨ rt.bufferBaseNull then m
  else
    let plan := planSlices rt.config m.neuronCache l ids
    let m := { m with neuronCache := plan.cache }
    if plan.tasks = [] then m else m.submitTasks rt ⟨l, false⟩ .buffer plan.tasks

/-- `release_layer`. -/
def releaseLayer (rt : Runtime) (m : Machine) (l : Nat) : Machine :=
  if rt.config.layerRegions l = [] ∨ rt.bufferBaseNull then m
  else
    let m := m.setStatus l .notLoaded
    { m with
      memory := Function.update m.memory .buffer
        ((rt.config.layerRegions l).foldl (fun buf r => freeRange rt.pageSize r.dst r.size buf)
          (m.memory .buffer))
      neuronCache := m.neuronCache.evictLayer l
      readSince := Function.update m.readSince l [] }

/-! ### Speculation -/

/-- Union predicted + observed, cap at 4. -/
def prefetchExperts (observed predicted : List Nat) : List Nat :=
  (predicted.foldl (fun acc p => if p ∈ acc then acc else acc ++ [p]) observed).take 4

/-- `layer_idx + lookahead`, as a `u32`. -/
def ahead (l k : Nat) : Nat := (l + k) % 2 ^ 32

/-- Record the selection of `l`, and how it goes with that of the layer recorded before.
`none` is the panic of a malformed matrix, here and below. -/
def recordExperts (m : Machine) (l : Nat) (experts : List Nat) : Option CoActivationMatrix := do
  let coAct ← m.coActivation.record l experts
  match m.prevLayerExperts with
  | some (prevL, prevE) => coAct.recordCrossLayer prevL prevE experts
  | none => some coAct

/-- The experts the next layer is likely to need; without data, the same as here. -/
def predictExperts (coAct : CoActivationMatrix) (l : Nat) (experts : List Nat) :
    Option (List Nat) :=
  if coAct.hasData then coAct.predictNextLayer l experts 3 else some experts

/-- The request for the first eligible layer within three, if there is one. -/
def requestNext (rt : Runtime) (l : Nat) (experts predicted : List Nat) (eligible : Nat → Bool) :
    List Op :=
  match [1, 2, 3].find? fun k =>
    decide (ahead l k < rt.config.numLayers) && eligible (ahead l k) with
  | none => []
  | some k => [.requestExperts (ahead l k) (prefetchExperts experts predicted)]

/-- After the computation of an MoE layer whose selection is known: record it, predict,
and request the slices of the next layer within three that `eligible` admits. -/
def speculate (rt : Runtime) (m : Machine) (l : Nat) (eligible : Nat → Bool) : Option Machine :=
  if rt.config.expertLayouts l = [] then some m
  else match m.selectedExperts l with
  | none => some m
  | some experts => do
    let coAct ← m.recordExperts l experts
    let predicted ← predictExperts coAct l experts
    pure { m with
      coActivation := coAct
      prevLayerExperts := some (l, experts)
      pending := requestNext rt l experts predicted eligible ++ m.pending }

end Machine

end Hypura
