import Hypura.Compute.PoolStreaming
import Hypura.Core.Trace

/-!
# Hypura.Compute.EvalCallback

The program as a transition system: `eval_callback` on the inference thread, `io_worker`
on each worker thread, and the requests the generation loop makes between callbacks
(`compute/nvme_backend.rs`, `compute/inference.rs`).

A graph node of layer `l` is an `ask` callback followed, after its computation, by a
`done` callback. The thread handles an event by running its pending operations one by
one; between any two of them the workers may take steps.
-/

namespace Hypura

open Hypura.Core Hypura.Core.Countdown

/-! ### Labels -/

/-- The `ffn_moe_argsort` tensor: `ne[0]`, `ne[1]`, and its `i32` data if there is any. -/
structure ArgsortTensor where
  nExperts : Nat
  nTokens : Nat
  data : Option (List Int)

/-- What the inference thread is made to do next. -/
inductive Event
  /-- The `ask` callback of a node of layer `l`. -/
  | ask (l : Nat)
  /-- The `done` callback of the node last asked for, with the measured lookahead. -/
  | done (lookaheadMax : Nat)
  /-- The `done` callback of an argsort node. -/
  | doneRouter (tensor : ArgsortTensor)
  /-- `prefetch_all_nvme`. -/
  | prefetchAllNvme
  /-- `request_prefetch(Layer(l))`. -/
  | request (l : Nat)
  /-- `request_prefetch(ExpertSlices { .. })`. -/
  | requestSlices (l : Nat) (ids : List Nat)
  /-- `activate_resident_ffn`, for the first `n` layers. -/
  | residentFfn (n : Nat)
  /-- The prefetch of the first streaming layers before the first forward pass. -/
  | initialDenseFfn
  /-- The same at a token boundary, for the layers that need it. -/
  | boundaryDenseFfn
  /-- The next token begins. -/
  | token

/-- A step of the system. -/
inductive Label
  | event (e : Event)
  /-- The inference thread's next operation. -/
  | thread
  /-- A wakeup of the inference thread without a notification. -/
  | wake
  | recv (w : Nat)
  /-- Worker `w` reads the next region of its task and gets `count` bytes, as `preadRegion`
  counts them. -/
  | pread (w count : Nat)
  | finish (w : Nat)
  | fire (w : Nat)

/-! ### The router -/

/-- The in-range ids among the first `k` of each row, row after row. -/
def selectedIds (numExpertsTotal k : Nat) (t : ArgsortTensor) (data : List Int) : List Nat :=
  (List.range (max t.nTokens 1)).flatMap fun token =>
    ((data.drop (token * t.nExperts)).take k).filterMap fun id =>
      if 0 ≤ id ∧ id.toNat < numExpertsTotal then some id.toNat else none

/-- `sort_unstable` and `dedup`. -/
def sortDedup (ids : List Nat) : List Nat :=
  (ids.insertionSort (· ≤ ·)).destutter (· ≠ ·)

namespace Machine

/-- `intercept_router_output`. The selection it reads is noted in the history whether or
not it is stored. -/
def interceptRouterOutput (rt : Runtime) (m : Machine) (l : Nat) (t : ArgsortTensor) : Machine :=
  match t.data with
  | none => m
  | some data =>
    let k := min rt.config.numExpertsUsed t.nExperts
    let ids := selectedIds rt.config.numExpertsTotal k t data
    let m := { m with routed := Function.update m.routed l (some ids) }
    if t.nExperts = 0 ∨ 64 < t.nExperts then m
    else if k = 0 then m
    else if ids = [] then m
    else { m with selectedExperts := Function.update m.selectedExperts l (some (sortDedup ids)) }

/-! ### The inference thread -/

/-- Execute one operation; those after it are still pending. -/
def exec (rt : Runtime) (m : Machine) : Op → Option Machine
  | .ensureLayer l =>
    match m.layerStatus l with
    | .loaded => some m
    -- wait for a notification, then look again
    | .loading => some { m with pending := .ensureLayer l :: m.pending, asleep := true }
    | .notLoaded => some
        { m.setStatus l .loading with pending := .submitLayer l :: m.pending, await := some l }
  | .requestLayer l =>
    match m.layerStatus l with
    | .notLoaded => some { m.setStatus l .loading with pending := .submitLayer l :: m.pending }
    | _ => some m
  | .submitLayer l => some (m.submitLayerLoad rt l)
  | .send =>
    match m.io.send with
    | some io => some { m with io := io, pending := .send :: m.pending }
    | none => some m
  | .requestExperts l ids => some (m.submitExpertLoad rt l ids)
  | .speculate l =>
    if rt.expertStreaming then
      m.speculate rt l fun t => rt.config.expertLayouts t ≠ []
    else
      m.speculate rt l fun t => t ∈ rt.config.nvmeLayers && rt.config.expertLayouts t ≠ []
  | .ensureExperts l ids => m.ensureExpertsLoaded rt l ids
  | .resetStatus l => some (m.setStatus l .notLoaded)
  | .ensureDenseFfn l => some (m.ensureDenseFfnLoaded rt l)
  | .loadDenseFfn l => (m.submitDenseFfn rt l).map fun m => { m with await := some l }
  | .planDenseFfn l => some (m.planDenseFfn rt l)
  | .prefetchDenseFfn l => m.prefetchDenseFfn rt l
  | .awaitResident n =>
    if m.layerStatus (sentinelLayer rt.config) = .loaded then some (m.finishResidentFfn rt n)
    else some { m with pending := .awaitResident n :: m.pending, asleep := true }

/-- The thread's next step: its next operation, else the wait at the end of the callback. -/
def threadStep (rt : Runtime) (m : Machine) : Option Machine :=
  if m.asleep then none
  else
    match m.pending with
    | op :: rest => exec rt { m with pending := rest } op
    | [] =>
      match m.await with
      | none => none
      | some l =>
        if m.layerStatus l = .loaded then some { m with await := none }
        else some { m with asleep := true }

/-- The thread is between callbacks. -/
def Idle (m : Machine) : Prop := m.pending = [] ∧ m.await = none

instance (m : Machine) : Decidable m.Idle := inferInstanceAs (Decidable (_ ∧ _))

/-! ### Callbacks -/

/-- `layer_idx as i32`. -/
def asI32 (l : Nat) : Int := if l % 2 ^ 32 < 2 ^ 31 then (l % 2 ^ 32 : Nat) else (l % 2 ^ 32 : Nat) - 2 ^ 32

/-- The layer before `l` in this pass, if there was one: the `prev` tests of the `done` callbacks. -/
def prevLayer (m : Machine) (l : Nat) : Option Nat :=
  if 0 ≤ m.currentLayer ∧ m.currentLayer.toNat ≠ l ∧ m.currentLayer.toNat < l then
    some m.currentLayer.toNat
  else none

/-- `current_layer.swap(layer_idx)`. -/
def swapLayer (m : Machine) (l : Nat) : Machine := { m with currentLayer := asI32 l }

/-- The `ask` callback in standard mode. -/
def askStandard (m : Machine) (l : Nat) : Machine := { m with pending := [.ensureLayer l] }

/-- The `done` callback in standard mode: release the old layer, prefetch ahead. -/
def doneStandard (rt : Runtime) (m : Machine) (l lookaheadMax : Nat) : Machine :=
  let prev := m.prevLayer l
  let m := m.swapLayer l
  match prev with
  | none => m
  | some prev =>
    if rt.keepNvmeResident then m
    else
      let m := if prev ∈ rt.config.nvmeLayers then m.releaseLayer rt prev else m
      let targets := ((List.range' 2 (lookaheadMax - 1)).map (ahead l)).filter fun t =>
        t < rt.config.numLayers ∧ t ∈ rt.config.nvmeLayers
      { m with pending := targets.map .requestLayer ++ [.speculate l] }

/-- `eval_callback_dense_ffn_streaming`, `ask`. -/
def askDense (rt : Runtime) (m : Machine) (l : Nat) : Machine :=
  if l ∈ rt.residentFfnLayers then m.rewriteResidentPtrs rt l
  else { m with pending := [.ensureDenseFfn l] }

/-- `eval_callback_dense_ffn_streaming`, `done`. -/
def doneDense (rt : Runtime) (m : Machine) (l : Nat) : Machine :=
  let prev := m.prevLayer l
  let m := m.swapLayer l
  let m := match prev with
    | none => m
    | some prev =>
      if prev ∉ rt.residentFfnLayers ∧ rt.config.denseFfnLayouts prev ≠ [] then
        (m.releaseSlots rt prev).setStatus prev .notLoaded
      else m
  { m with pending := [.planDenseFfn l] }

/-- `eval_callback_expert_streaming`, `ask`; `none` is a malformed co-activation matrix. -/
def askExperts (rt : Runtime) (m : Machine) (l : Nat) : Option Machine :=
  if rt.config.expertLayouts l = [] then some m
  else
    match m.selectedExperts l with
    | some ids => some { m with pending := [.ensureExperts l ids] }
    | none => do
      let predicted ← if m.coActivation.hasData then
        m.coActivation.predictNextLayer l [] rt.config.numExpertsUsed else some []
      -- true cold start: load all experts of the layer
      if predicted = [] then pure { m with pending := [.ensureLayer l] }
      else pure { m with pending := [.ensureExperts l predicted] }

/-- `eval_callback_expert_streaming`, `done`. -/
def doneExperts (rt : Runtime) (m : Machine) (l : Nat) : Machine :=
  let prev := m.prevLayer l
  let m := m.swapLayer l
  let reset := match prev with
    | some prev => if rt.config.expertLayouts l ≠ [] then [.resetStatus prev] else []
    | none => []
  { m with pending := .speculate l :: reset }

/-- The `ask` branch of `eval_callback`. -/
def askCallback (rt : Runtime) (m : Machine) (l : Nat) : Option Machine :=
  if ¬ rt.prefetchEnabled ∨ rt.config.layerRegions l = [] then some m
  else if rt.expertStreaming then m.askExperts rt l
  else if rt.denseFfnStreaming then some (m.askDense rt l)
  else some (m.askStandard l)

/-- The other branch. -/
def doneCallback (rt : Runtime) (m : Machine) (l lookaheadMax : Nat) : Machine :=
  if ¬ rt.prefetchEnabled ∨ rt.config.layerRegions l = [] then m
  else if rt.expertStreaming then m.doneExperts rt l
  else if rt.denseFfnStreaming then m.doneDense rt l
  else m.doneStandard rt l lookaheadMax

/-- What an idle inference thread does with an event. Layer indices are `u32`s; each mode
makes its own requests between callbacks. -/
def handle (rt : Runtime) (m : Machine) : Event → Option Machine
  | .ask l =>
    if m.asked = none ∧ l < 2 ^ 32 then
      (m.askCallback rt l).map fun m => { m with asked := some l }
    else none
  | .done lookaheadMax =>
    m.asked.map fun l => { m.doneCallback rt l lookaheadMax with asked := none }
  | .doneRouter t =>
    m.asked.map fun l =>
      { (if rt.prefetchEnabled then m.interceptRouterOutput rt l t else m) with asked := none }
  | .prefetchAllNvme =>
    if rt.Standard then some { m with pending := rt.config.sortedNvmeLayers.map .requestLayer }
    else none
  | .request l => if rt.Standard then some { m with pending := [.requestLayer l] } else none
  | .requestSlices l ids =>
    if rt.Standard then some { m with pending := [.requestExperts l ids] } else none
  | .residentFfn n =>
    -- before anything else is loaded
    if rt.denseFfnStreaming ∧ m.submitted = [] then some (m.activateResidentFfn rt n) else none
  | .initialDenseFfn =>
    if rt.denseFfnStreaming then
      some { m with pending := (firstStreaming rt).map .prefetchDenseFfn }
    else none
  | .boundaryDenseFfn =>
    if rt.denseFfnStreaming then
      some { m with pending := ((firstStreaming rt).filter fun l =>
        m.layerStatus l = .notLoaded).map .prefetchDenseFfn }
    else none
  | .token => if m.asked = none then some { m with routed := fun _ => none } else none

/-! ### The workers -/

/-- The layer a batch was submitted for. -/
def layerOf (io : IoPool) (b : Nat) : Option Nat := (io.tag? b).map (·.layerIdx)

/-- `pread_region`: how much of `size` bytes is read when the `pread` calls return `results`
one after the other, `read` bytes being there. Zero or an error ends the loop. -/
def preadRegion (size : Nat) : List Int → Nat → Nat
  | [], read => read
  | n :: ns, read =>
    if size ≤ read then read
    else if n ≤ 0 then read
    else preadRegion size ns (read + n.toNat)

/-- Worker `w` reads the next region of its task. Only a region read in full counts as read. -/
def preadStep (rt : Runtime) (m : Machine) (w count : Nat) : Option Machine :=
  match m.io.workers[w]? with
  | some (.busy j) =>
    match j.payload.regions, layerOf m.io j.batch with
    | r :: rs, some l => do
      let io ← m.io.work w { j.payload with regions := rs, done := r :: j.payload.done }
      pure { m with
        io := io
        preads := (j.batch, r, count) :: m.preads
        memory := Function.update m.memory j.payload.base
          (r.fill rt.file (min count r.size) (m.memory j.payload.base))
        readSince := if r.size ≤ count then
          Function.update m.readSince l (r :: m.readSince l) else m.readSince }
    | _, _ => none
  | _ => none

/-- Worker `w`, its regions done, decrements the completion's counter. -/
def finishStep (m : Machine) (w : Nat) : Option Machine :=
  match m.io.workers[w]? with
  | some (.busy j) =>
    if j.payload.regions = [] then (m.io.finish w).map fun io => { m with io := io } else none
  | _ => none

/-- Worker `w` saw the counter reach zero: it stores `Loaded` and notifies, if the
completion says so. -/
def fireStep (m : Machine) (w : Nat) : Option Machine :=
  match m.io.workers[w]? with
  | some (.firing b) =>
    match m.io.tag? b with
    | some tag => (m.io.fire w).map fun io =>
      let m := { m with io := io }
      if tag.updateStatus then m.storeLoaded tag.layerIdx else m
    | none => none
  | _ => none

/-! ### The system -/

/-- One step. -/
def step (rt : Runtime) (m : Machine) : Label → Option Machine
  | .event e => if m.Idle then m.handle rt e else none
  | .thread => m.threadStep rt
  | .wake => if m.asleep then some { m with asleep := false } else none
  | .recv w => (m.io.recv w).map fun io => { m with io := io }
  | .pread w count => m.preadStep rt w count
  | .finish w => m.finishStep w
  | .fire w => m.fireStep w

/-- The state after `build_prefetch_state` and `start_io_pool` with `workers` workers. -/
def start (rt : Runtime) (coActivation : CoActivationMatrix) (expertPool : Option ExpertPool)
    (workers : Nat) : Machine where
  currentLayer := -1
  layerStatus := fun _ => .notLoaded
  selectedExperts := fun _ => none
  neuronCache := .new rt.config.cacheCapacity
  coActivation := coActivation
  prevLayerExperts := none
  expertPool := expertPool
  tensorData := fun _ => (.pool, 0)
  memory := fun _ _ => none
  io := Pool.start workers
  pending := []
  await := none
  asleep := false
  asked := none
  readSince := fun _ => []
  basis := fun _ => none
  routed := fun _ => none
  submitted := []
  preads := []

end Machine

end Hypura
