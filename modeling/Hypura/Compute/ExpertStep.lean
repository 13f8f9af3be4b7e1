import Hypura.Compute.DenseStep
import Hypura.Compute.ThreadTurn

/-!
# Hypura.Compute.ExpertStep

Expert streaming: where the inference thread is, and what one step does to the layer
statuses, the slots, the neuron cache, the tensor pointers and the tasks.

* `ExpertPhase` — the thread's position in a callback; in particular, whether it makes sure
  of selected experts, which are read into slots, or of a whole layer, which goes to the
  buffer,
* `Ensured` — what `ensure_experts_loaded` comes to,
* `ExpertStep` — the effects of a step.
-/

namespace Hypura

open Hypura.Core Hypura.Core.Countdown

/-- The names of the fused expert tensors of a layer. -/
def PrefetchConfig.expertNames (cfg : PrefetchConfig) (l : Nat) : List String :=
  (cfg.expertLayouts l).map (·.tensorName)

/-- An operation of a `done` callback, or a send that it leads to. -/
def Op.FollowsUp : Op → Prop
  | .send => True
  | .requestExperts _ _ => True
  | .speculate _ => True
  | .resetStatus _ => True
  | _ => False

namespace Machine

/-! ### The thread inside a callback -/

/-- The thread is about to make sure of the experts `ids` that the router of `l` selected. -/
structure Ensuring (m : Machine) (l : Nat) (ids : List Nat) : Prop where
  pending : m.pending = [.ensureExperts l ids]
  await : m.await = none
  asked : m.asked = some l
  selected : m.selectedExperts l = some ids

/-- Where the inference thread is. -/
inductive ExpertPhase (m : Machine) : Prop
  /-- Between callbacks, or with requests left to make. -/
  | requests (hops : ∀ op ∈ m.pending, op.FollowsUp) (hawait : m.await = none)
  | ensure (l : Nat) (ids : List Nat) (h : m.Ensuring l ids)
  /-- About to make sure of a layer of which no selection is known. -/
  | cold (l : Nat) (hpending : m.pending = [.ensureLayer l]) (hawait : m.await = none)
      (hsel : m.selectedExperts l = none)
  | announced (l : Nat) (hpending : m.pending = [.submitLayer l]) (hawait : m.await = some l)
      (hsel : m.selectedExperts l = none)
  /-- Sending tasks, and then waiting for them. -/
  | wait (l : Nat) (hops : ∀ op ∈ m.pending, op = .send) (hawait : m.await = some l)

/-! ### Effects -/

/-- The two states agree on the slots, the pointers into them and the memory. -/
structure SamePlaces (m m' : Machine) : Prop where
  pool : m'.expertPool = m.expertPool
  data : m'.tensorData = m.tensorData
  memory : m'.memory = m.memory

/-- Layer `l` has slots and its tensors point there; `tasks` read those slices of the experts
`ids` that the cache misses. -/
structure Pooled (rt : Runtime) (m : Machine) (l : Nat) (ids : List Nat) (p : ExpertPool)
    (offsets : List Nat) (p' : ExpertPool) (tasks : List (List Region)) (m' : Machine) : Prop where
  nonempty : rt.config.expertLayouts l ≠ []
  before : m.expertPool = some p
  taken : p.allocateLayer l (rt.config.expertLayouts l).length = some (offsets, p')
  enough : (rt.config.expertLayouts l).length ≤ offsets.length
  pool : m'.expertPool = some p'
  data : m'.tensorData = (m.rewritePtrs (rt.config.expertNames l) offsets).tensorData
  memory : m'.memory = (m.setPool rt p p').memory
  /-- The entries of other layers are dropped if slots are short, and what is newly marked is
  read. -/
  cache : ∀ key ∈ m'.neuronCache.entries,
    key ∈ m.neuronCache.entries ∧ key.1 ∉ evictedLayers p l (rt.config.expertLayouts l).length ∨
      ∃ q ∈ (rt.config.expertLayouts l).zip offsets, ∃ e ∈ ids, e < q.1.numExperts ∧
        key = (l, e, q.1.tensorType) ∧ q.1.pooledRegion q.2 e ∈ tasks.flatten
  only : ∀ r ∈ tasks.flatten, ∃ q ∈ (rt.config.expertLayouts l).zip offsets, ∃ e ∈ ids,
    e < q.1.numExperts ∧ r = q.1.pooledRegion q.2 e
  complete : DistinctTypes (rt.config.expertLayouts l) →
    ∀ q ∈ (rt.config.expertLayouts l).zip offsets, ∀ e ∈ ids, e < q.1.numExperts →
      q.1.pooledRegion q.2 e ∈ tasks.flatten ∨ (l, e, q.1.tensorType) ∈ m.neuronCache.entries

/-- What `ensure_experts_loaded` comes to. -/
inductive Ensured (rt : Runtime) (m : Machine) (l : Nat) (ids : List Nat) : Machine → Prop
  /-- Every slice is in the cache, and the tensors are pointed at the slots. -/
  | found {m' : Machine}
      (hcached : ∀ e ∈ ids, ∀ layout ∈ rt.config.expertLayouts l,
        (l, e, layout.tensorType) ∈ m.neuronCache.entries)
      (hdata : ∀ p slots, m.expertPool = some p → p.slotsOf l = some slots → m'.tensorData =
        (m.rewritePtrs (rt.config.expertNames l) (slots.map (· * p.slotSize))).tensorData)
      (hpool : m'.expertPool = m.expertPool) (hmemory : m'.memory = m.memory)
      (hcache : m'.neuronCache.entries = m.neuronCache.entries)
      (hloading : m'.loading = m.loading) (hawait : m'.await = none) : Ensured rt m l ids m'
  /-- No slice is to be read. -/
  | pooled {p p' : ExpertPool} {offsets : List Nat} {m' : Machine}
      (h : Pooled rt m l ids p offsets p' [] m') (hloading : m'.loading = m.loading)
      (hawait : m'.await = none) : Ensured rt m l ids m'
  | submitted {p p' : ExpertPool} {offsets : List Nat} {tasks : List (List Region)} {m' : Machine}
      (htasks : tasks ≠ []) (h : Pooled rt m l ids p offsets p' tasks m')
      (hloading : m'.loading = ⟨Function.update m.layerStatus l .loading,
        m.io.openBatch ⟨l, true⟩ (tasks.map (⟨·, .pool, []⟩)), none⟩)
      (hawait : m'.await = some l) : Ensured rt m l ids m'

/-- What one step can do. -/
inductive ExpertStep (rt : Runtime) (m : Machine) : Label → Machine → Prop
  | rest {lab : Label} {m' : Machine} (h : m.SamePlaces m')
      (hcache : m'.neuronCache.entries = m.neuronCache.entries)
      (hloading : m'.loading = m.loading) (hawait : m'.await = m.await) : ExpertStep rt m lab m'
  | ensured {l : Nat} {ids : List Nat} {m' : Machine} (hensuring : m.Ensuring l ids)
      (h : Ensured rt m l ids m') : ExpertStep rt m .thread m'
  /-- Slices of layer `l` are requested, to be read into the buffer. -/
  | request {l : Nat} {ids : List Nat} {ops : List Op} {m' : Machine}
      (hpending : m.pending = .requestExperts l ids :: ops) (h : m.SamePlaces m')
      (hcache : m'.neuronCache = (planSlices rt.config m.neuronCache l ids).cache)
      (hloading : m'.loading = m.loading ∨ ∃ tasks ≠ [], m'.loading =
        { m.loading with io := m.io.openBatch ⟨l, false⟩ (tasks.map (⟨·, .buffer, []⟩)) })
      (hawait : m'.await = m.await) : ExpertStep rt m .thread m'
  | reset {l : Nat} {m' : Machine} (h : m.SamePlaces m')
      (hcache : m'.neuronCache.entries = m.neuronCache.entries)
      (hloading : m'.loading =
        { m.loading with status := Function.update m.layerStatus l .notLoaded })
      (hsub : m.submitting = none) (hnone : m.await = none) (hawait : m'.await = none) :
      ExpertStep rt m .thread m'
  /-- The load of a whole layer is announced, -/
  | announce {l : Nat} {m' : Machine} (h : m.SamePlaces m')
      (hcache : m'.neuronCache.entries = m.neuronCache.entries) (hsub : m.submitting = none)
      (hl : m.layerStatus l = .notLoaded) (hloading : m'.loading =
        ⟨Function.update m.layerStatus l .loading, m.io, some l⟩)
      (hnone : m.await = none) (hawait : m'.await = some l) : ExpertStep rt m .thread m'
  /-- and submitted, -/
  | cold {l : Nat} {tasks : List (List Region)} {m' : Machine} (h : m.SamePlaces m')
      (hcache : m'.neuronCache.entries = m.neuronCache.entries) (hsub : m.submitting = some l)
      (htasks : tasks ≠ []) (hloading : m'.loading =
        ⟨m.layerStatus, m.io.openBatch ⟨l, true⟩ (tasks.map (⟨·, .buffer, []⟩)), none⟩)
      (hsome : m.await = some l) (hawait : m'.await = some l) : ExpertStep rt m .thread m'
  /-- or there is nothing to load. -/
  | nothing {l : Nat} {m' : Machine} (h : m.SamePlaces m')
      (hcache : m'.neuronCache.entries = m.neuronCache.entries) (hsub : m.submitting = some l)
      (hloading : m'.loading = ⟨Function.update m.layerStatus l .loaded, m.io, none⟩)
      (hawait : m'.await = m.await) : ExpertStep rt m .thread m'
  /-- What was waited for is loaded. -/
  | arrived {l : Nat} {m' : Machine} (h : m.SamePlaces m')
      (hcache : m'.neuronCache.entries = m.neuronCache.entries)
      (hloading : m'.loading = m.loading) (hl : m.layerStatus l = .loaded)
      (hsome : m.await = some l) (hawait : m'.await = none) : ExpertStep rt m .thread m'
  | send {io : IoPool} (h : m.io.send = some io) : ExpertStep rt m .thread { m with io := io }
  | recv {w : Nat} {io : IoPool} (h : m.io.recv w = some io) :
      ExpertStep rt m (.recv w) { m with io := io }
  | pread {w count : Nat} {m' : Machine} (h : m.preadStep rt w count = some m') :
      ExpertStep rt m (.pread w count) m'
  | finish {w : Nat} {m' : Machine} (h : m.finishStep w = some m') :
      ExpertStep rt m (.finish w) m'
  | fire {w : Nat} {m' : Machine} (h : m.fireStep w = some m') : ExpertStep rt m (.fire w) m'

/-- A step, with where the thread is after it. -/
structure ExpertTurn (rt : Runtime) (m : Machine) (lab : Label) (m' : Machine) : Prop where
  effect : ExpertStep rt m lab m'
  phase : m'.ExpertPhase
  /-- A selection is not forgotten. -/
  known : ∀ l, m'.selectedExperts l = none → m.selectedExperts l = none
  /-- The experts selected of the layer asked for are still to be made sure of, or were before
  the step, or it makes sure of them. -/
  serves : ∀ l ids, m'.asked = some l → m'.selectedExperts l = some ids →
    rt.config.expertLayouts l = [] ∨ ids = [] ∨ m'.pending = [.ensureExperts l ids] ∨
      m.asked = some l ∧ m.selectedExperts l = some ids ∧
        (m.pending = [.ensureExperts l ids] → Ensured rt m l ids m')

section ExpertStep
variable {rt : Runtime} {m m' : Machine} {l : Nat} {op : Op} {ops : List Op}

theorem ensuring_submitting {ids : List Nat} (h : m.Ensuring l ids) : m.submitting = none := by
  simp [submitting, h.pending]

theorem FollowsUp.submitting (hpending : m.pending = op :: ops) (hop : op.FollowsUp) :
    m.submitting = none := by
  cases op <;> first | exact absurd hop id | simp [Machine.submitting, hpending]

/-- A step of a worker, or one that only sleeps or wakes. -/
theorem ExpertTurn.worker {lab : Label} (heffect : ExpertStep rt m lab m') (hphase : m.ExpertPhase)
    (hpending : m'.pending = m.pending) (hawait : m'.await = m.await) (hasked : m'.asked = m.asked)
    (hsel : m'.selectedExperts = m.selectedExperts) : ExpertTurn rt m lab m' where
  effect := heffect
  phase := by
    cases hphase with
    | requests hops ha => exact .requests (hpending ▸ hops) (hawait ▸ ha)
    | ensure l ids h =>
        exact .ensure l ids ⟨hpending ▸ h.pending, hawait ▸ h.await, hasked ▸ h.asked,
          hsel ▸ h.selected⟩
    | cold l hp ha hs => exact .cold l (hpending ▸ hp) (hawait ▸ ha) (hsel ▸ hs)
    | announced l hp ha hs => exact .announced l (hpending ▸ hp) (hawait ▸ ha) (hsel ▸ hs)
    | wait l hops ha => exact .wait l (hpending ▸ hops) (hawait ▸ ha)
  known l hl := hsel ▸ hl
  serves l ids hl hids := by
    by_cases hp : m.pending = [.ensureExperts l ids]
    · exact .inr (.inr (.inl (hpending ▸ hp)))
    · exact .inr (.inr (.inr ⟨hasked ▸ hl, hsel ▸ hids, fun h => absurd h hp⟩))

/-! ### What `ensure_experts_loaded` comes to -/

theorem loading_eq (hstatus : m'.layerStatus = m.layerStatus) (hio : m'.io = m.io)
    (hsub : m'.submitting = m.submitting) : m'.loading = m.loading := by
  rw [loading, loading, hstatus, hio, hsub]

end ExpertStep

end Machine

end Hypura
