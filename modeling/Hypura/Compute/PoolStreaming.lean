import Hypura.Compute.PrefetchState

/-!
# Hypura.Compute.PoolStreaming

The operations of the two pool-backed modes (`compute/nvme_backend.rs`): expert
streaming (`ensure_experts_loaded`) and dense FFN streaming (`ensure_dense_ffn_loaded`,
`prefetch_dense_ffn`). They take slots for a layer, point its tensors there, and read
into the slots. Every fused expert and FFN tensor has its pointer captured when the
model is loaded, so every layout's tensor is rewritten.

`none` is a panic: the allocator out of slots, or a layer with fewer slots than tensors.
-/

namespace Hypura

namespace Machine

/-! ### Slots and pointers -/

/-- The slots of the layers that lost theirs between `p` and `p'`. -/
def lostSlots (p p' : ExpertPool) : List Nat :=
  (p.layerSlots.filter fun entry => p'.slotsOf entry.1 = none).flatMap (·.2)

/-- Replace the slot pool; the pages of the slots taken away are freed. -/
def setPool (rt : Runtime) (m : Machine) (p p' : ExpertPool) : Machine :=
  { m with
    expertPool := some p'
    memory := Function.update m.memory .pool
      ((lostSlots p p').foldl
        (fun buf s => freeRange rt.pageSize (s * p.slotSize) p.slotSize buf) (m.memory .pool)) }

/-- `pool.allocate_layer`, with the check of the indexing that follows it. -/
def allocate (rt : Runtime) (m : Machine) (l numTensors : Nat) :
    Option (List Nat × Machine) := do
  let p ← m.expertPool
  let (offsets, p') ← p.allocateLayer l numTensors
  if offsets.length < numTensors then none
  else pure (offsets, m.setPool rt p p')

/-- `pool.release_layer`. -/
def releaseSlots (rt : Runtime) (m : Machine) (l : Nat) : Machine :=
  match m.expertPool with
  | none => m
  | some p => m.setPool rt p (p.releaseLayer l)

/-- Point tensors at pool offsets, in order. -/
def rewritePtrs (m : Machine) (names : List String) (offsets : List Nat) : Machine :=
  { m with
    tensorData := (names.zip offsets).foldl
      (fun data entry => Function.update data entry.1 (.pool, entry.2)) m.tensorData }

/-- `rewrite_tensor_ptrs_for_layer`, `rewrite_dense_ffn_ptrs`: to the layer's current slots. -/
def rewriteToSlots (m : Machine) (l : Nat) (names : List String) : Machine :=
  match m.expertPool with
  | none => m
  | some p =>
    match p.slotsOf l with
    | none => m
    | some slots => m.rewritePtrs names (slots.map (· * p.slotSize))

/-! ### Expert streaming -/

/-- Is a slice of expert `eid` missing from the cache? Stops at the first that is. -/
def probeLayouts (l eid : Nat) : List ExpertLayout → NeuronCache → Bool × NeuronCache
  | [], cache => (false, cache)
  | layout :: rest, cache =>
    let looked := cache.isLoaded (l, eid, layout.tensorType)
    if looked.1 then probeLayouts l eid rest looked.2 else (true, looked.2)

/-- Is a slice of one of the experts missing? -/
def probeExperts (l : Nat) (layouts : List ExpertLayout) : List Nat → NeuronCache →
    Bool × NeuronCache
  | [], cache => (false, cache)
  | eid :: ids, cache =>
    let probed := probeLayouts l eid layouts cache
    if probed.1 then probed else probeExperts l layouts ids probed.2

/-- The layers whose cache entries `load_experts_pooled` drops before it allocates. -/
def evictedLayers (p : ExpertPool) (l numTensors : Nat) : List Nat :=
  (p.layerSlots.map (·.1)).filter fun l' => l' ≠ l && decide (p.freeSlots.length < numTensors)

/-- `load_experts_pooled`. -/
def loadExpertsPooled (rt : Runtime) (m : Machine) (l : Nat) (ids : List Nat) :
    Option Machine := do
  let layouts := rt.config.expertLayouts l
  let p ← m.expertPool
  let m := { m with neuronCache :=
    (evictedLayers p l layouts.length).foldl NeuronCache.evictLayer m.neuronCache }
  let (offsets, m) ← m.allocate rt l layouts.length
  let m := m.rewritePtrs (layouts.map (·.tensorName)) offsets
  let places := (layouts.zip offsets).map fun (layout, offset) =>
    (layout, layout.pooledRegion offset)
  let slices := expertTasks l ids places m.neuronCache
  let m := { m with neuronCache := slices.1 }
  if slices.2 = [] then pure m
  else
    pure { (m.setStatus l .loading).submitTasks rt ⟨l, true⟩ .pool slices.2 with await := some l }

/-- `ensure_experts_loaded`, with a pool. -/
def ensureExpertsLoaded (rt : Runtime) (m : Machine) (l : Nat) (ids : List Nat) :
    Option Machine :=
  let layouts := rt.config.expertLayouts l
  if ids = [] ∨ layouts = [] then some m
  else
    let probed := probeExperts l layouts ids m.neuronCache
    let m := { m with neuronCache := probed.2 }
    if probed.1 then m.loadExpertsPooled rt l ids
    -- even cache hits need their pointers rewritten
    else some (m.rewriteToSlots l (layouts.map (·.tensorName)))

/-! ### Dense FFN streaming -/

/-- One task for each FFN tensor, into its slot. -/
def denseTasks (layouts : List DenseFfnLayout) (offsets : List Nat) : List (List Region) :=
  (layouts.zip offsets).map fun (layout, offset) => [⟨offset, layout.size, layout.fileOffset⟩]

/-- What `ensure_dense_ffn_loaded` and `prefetch_dense_ffn` share: take slots, rewrite the
pointers, set `Loading` and submit. -/
def submitDenseFfn (rt : Runtime) (m : Machine) (l : Nat) : Option Machine := do
  let layouts := rt.config.denseFfnLayouts l
  let (offsets, m) ← m.allocate rt l layouts.length
  let m := m.rewritePtrs (layouts.map (·.tensorName)) offsets
  pure ((m.setStatus l .loading).submitTasks rt ⟨l, true⟩ .pool (denseTasks layouts offsets))

/-- `ensure_dense_ffn_loaded`: the check of the status. -/
def ensureDenseFfnLoaded (rt : Runtime) (m : Machine) (l : Nat) : Machine :=
  let layouts := rt.config.denseFfnLayouts l
  if layouts = [] then m
  else if m.layerStatus l = .loaded then m.rewriteToSlots l (layouts.map (·.tensorName))
  else { m with pending := .loadDenseFfn l :: m.pending }

/-- `prefetch_dense_ffn`. -/
def prefetchDenseFfn (rt : Runtime) (m : Machine) (l : Nat) : Option Machine :=
  if rt.config.denseFfnLayouts l = [] then some m else m.submitDenseFfn rt l

/-- `rewrite_resident_ffn_ptrs`. -/
def rewriteResidentPtrs (rt : Runtime) (m : Machine) (l : Nat) : Machine :=
  { m with
    tensorData := (rt.config.denseFfnLayouts l).foldl (fun data layout =>
      match rt.residentFfnOffsets layout.tensorName with
      | some offset => Function.update data layout.tensorName (.resident, offset)
      | none => data) m.tensorData }

/-! ### Layers whose FFN data stays in memory -/

/-- The places of FFN tensors in the resident buffer: one after the other, each on a page
boundary. -/
def residentPlaces : List DenseFfnLayout → Nat → List (String × Nat)
  | [], _ => []
  | layout :: rest, total => (layout.tensorName, total) ::
      residentPlaces rest ((total + layout.size + 4095) / 4096 * 4096)

/-- The FFN tensors of the first `n` layers. -/
def residentLayouts (cfg : PrefetchConfig) (n : Nat) : List DenseFfnLayout :=
  (List.range n).flatMap cfg.denseFfnLayouts

/-- `offsets.get(name)`: of two tensors with one name, the later. -/
def residentOffset (cfg : PrefetchConfig) (n : Nat) (name : String) : Option Nat :=
  (residentPlaces (residentLayouts cfg n) 0).reverse.lookup name

/-- One task for each of the tensors. -/
def residentTasks (cfg : PrefetchConfig) (n : Nat) : List (List Region) :=
  (residentLayouts cfg n).filterMap fun layout =>
    (residentOffset cfg n layout.tensorName).map fun offset =>
      [⟨offset, layout.size, layout.fileOffset⟩]

/-- The layer index that stands for the resident buffer: `self.num_layers + 1`. -/
def sentinelLayer (cfg : PrefetchConfig) : Nat := (cfg.numLayers + 1) % 2 ^ 32

/-- `activate_resident_ffn`, up to the wait. -/
def activateResidentFfn (rt : Runtime) (m : Machine) (n : Nat) : Machine :=
  let tasks := residentTasks rt.config n
  if ((residentLayouts rt.config n).map (·.size)).sum = 0 then m
  else
    ({ m with pending := [.awaitResident n] }.setStatus (sentinelLayer rt.config) .loading).submitTasks
      rt ⟨sentinelLayer rt.config, true⟩ .resident tasks

/-- `activate_resident_ffn`, after the wait: forget the status and point the tensors at
the resident buffer. -/
def finishResidentFfn (rt : Runtime) (m : Machine) (n : Nat) : Machine :=
  { m.setStatus (sentinelLayer rt.config) .notLoaded with
    tensorData := (residentPlaces (residentLayouts rt.config n) 0).foldl
      (fun data entry => Function.update data entry.1 (.resident, entry.2)) m.tensorData }

/-! ### Prefetching -/

/-- The streaming layers among `targets` that are neither loaded nor loading. -/
def toPrefetch (rt : Runtime) (m : Machine) (targets : List Nat) : List Nat :=
  targets.filter fun t => decide (t ∉ rt.residentFfnLayers) &&
    (decide (rt.config.denseFfnLayouts t ≠ []) && decide (m.layerStatus t = .notLoaded))

/-- The decision after the computation of `l`: up to `lookahead` layers ahead. -/
def planDenseFfn (rt : Runtime) (m : Machine) (l : Nat) : Machine :=
  let targets := ((List.range rt.denseFfnLookahead).map fun k => ahead l (k + 1)).takeWhile
    (· < rt.config.numLayers)
  { m with pending := (m.toPrefetch rt targets).map .prefetchDenseFfn ++ m.pending }

/-- The first streaming layers, at most four. -/
def firstStreaming (rt : Runtime) : List Nat :=
  let first := rt.residentFfnLayers.card
  (List.range' first (min (first + 4) rt.config.numLayers - first)).filter fun l =>
    rt.config.denseFfnLayouts l ≠ []

end Machine

end Hypura
