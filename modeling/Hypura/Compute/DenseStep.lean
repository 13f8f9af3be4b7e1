import Hypura.Compute.Eviction
import Hypura.Compute.PoolStep

/-!
# Hypura.Compute.DenseStep

Dense FFN streaming: where the inference thread is, and what one step does to the layer
statuses, the slots, the tensor pointers and the tasks.

* `DensePhase` — the thread's position in a callback; in particular, which layer it is
  making sure of,
* `DenseStep` — the effects of a step. Slots are taken by `allocate` and given back by
  `release`; a layer becomes loaded by `fire` alone.
-/

namespace Hypura

open Hypura.Core Hypura.Core.Countdown

/-- Dense FFN streaming with the callback switched on and the I/O pool started. -/
structure Runtime.StreamsFfn (rt : Runtime) : Prop where
  experts : rt.expertStreaming = false
  dense : rt.denseFfnStreaming = true
  enabled : rt.prefetchEnabled = true
  started : rt.ioPoolStarted = true

/-- A layer whose FFN tensors are streamed. -/
def Runtime.Streamed (rt : Runtime) (l : Nat) : Prop :=
  l ∉ rt.residentFfnLayers ∧ rt.config.denseFfnLayouts l ≠ []

instance (rt : Runtime) (l : Nat) : Decidable (rt.Streamed l) :=
  inferInstanceAs (Decidable (_ ∧ _))

/-- The names of the FFN tensors of a layer. -/
def PrefetchConfig.ffnNames (cfg : PrefetchConfig) (l : Nat) : List String :=
  (cfg.denseFfnLayouts l).map (·.tensorName)

/-- An operation that waits for nothing. -/
def Op.IsPrefetch : Op → Prop
  | .send => True
  | .planDenseFfn _ => True
  | .prefetchDenseFfn _ => True
  | _ => False

namespace Machine

/-- The slots that are assigned to layer `l`. -/
def slotsOf (m : Machine) (l : Nat) : Option (List Nat) := m.expertPool.bind (·.slotsOf l)

/-! ### The thread inside a callback -/

/-- Where the inference thread is. -/
inductive DensePhase (rt : Runtime) (m : Machine) : Prop
  /-- Between callbacks, or with prefetches left to make. -/
  | requests (hops : ∀ op ∈ m.pending, op.IsPrefetch) (hawait : m.await = none)
  /-- About to look at the status of the layer asked for. -/
  | ensure (l : Nat) (hpending : m.pending = [.ensureDenseFfn l]) (hawait : m.await = none)
      (hl : m.asked = some l)
  /-- About to load it. -/
  | load (l : Nat) (hpending : m.pending = [.loadDenseFfn l]) (hawait : m.await = none)
      (hl : m.asked = some l) (hne : rt.config.denseFfnLayouts l ≠ [])
  /-- Sending its tasks, and then waiting for it. -/
  | wait (l : Nat) (hops : ∀ op ∈ m.pending, op = .send) (hawait : m.await = some l)
      (hl : m.asked = some l)
  /-- Loading the resident layers, before anything else. -/
  | resident (n : Nat) (hops : ∀ op ∈ m.pending, op = .send ∨ op = .awaitResident n)
      (hawait : m.await = none) (hempty : ∀ l, m.slotsOf l = none)

/-- The thread is not making sure of a layer. -/
def Settled (m : Machine) : Prop :=
  m.await = none ∧ ∀ op ∈ m.pending, ∀ l, op ≠ .ensureDenseFfn l ∧ op ≠ .loadDenseFfn l

/-- The layer that is asked for was made sure of before the step, or is found loaded. -/
def Settles (rt : Runtime) (m m' : Machine) : Prop :=
  ∀ l, rt.Streamed l → m'.asked = some l → m'.Settled →
    m.asked = some l ∧ (m.Settled ∨ m.layerStatus l = .loaded)

/-! ### Effects -/

/-- The two states agree on the layers, their slots and the tasks. -/
structure SameSlots (m m' : Machine) : Prop where
  status : m'.layerStatus = m.layerStatus
  pool : m'.expertPool = m.expertPool
  data : m'.tensorData = m.tensorData
  memory : m'.memory = m.memory
  io : m'.io = m.io

/-- Layer `l` has taken slots, and its tasks were submitted. -/
structure Allocated (rt : Runtime) (m : Machine) (l : Nat) (p : ExpertPool) (offsets : List Nat)
    (p' : ExpertPool) (m' : Machine) : Prop where
  before : m.expertPool = some p
  taken : p.allocateLayer l (rt.config.denseFfnLayouts l).length = some (offsets, p')
  enough : (rt.config.denseFfnLayouts l).length ≤ offsets.length
  status : m'.layerStatus = Function.update m.layerStatus l .loading
  pool : m'.expertPool = some p'
  data : m'.tensorData = (m.rewritePtrs (rt.config.ffnNames l) offsets).tensorData
  memory : m'.memory = (m.setPool rt p p').memory
  io : m'.io = m.io.openBatch ⟨l, true⟩
    ((denseTasks (rt.config.denseFfnLayouts l) offsets).map (⟨·, .pool, []⟩))

/-- An operation that allocates slots for layer `l`. -/
def Allocates (m : Machine) (l : Nat) : Prop :=
  ∃ op ops, m.pending = op :: ops ∧ (op = .loadDenseFfn l ∨ op = .prefetchDenseFfn l)

/-- The layer that the `done` callback of a node of `asked` gives up. -/
def givenUp (rt : Runtime) (m : Machine) : Option Nat :=
  m.asked.bind fun l =>
    if rt.config.layerRegions l = [] then none
    else (m.prevLayer l).filter fun prev => decide (rt.Streamed prev)

/-- What one step can do. -/
inductive DenseStep (rt : Runtime) (m : Machine) : Label → Machine → Prop
  | rest {lab : Label} {m' : Machine} (h : m.SameSlots m') : DenseStep rt m lab m'
  /-- The tensors of a loaded layer are pointed at its slots. -/
  | point {l : Nat} {p : ExpertPool} {slots : List Nat} {m' : Machine}
      (hpool : m.expertPool = some p) (hslots : p.slotsOf l = some slots)
      (h : (m.rewritePtrs (rt.config.ffnNames l) (slots.map (· * p.slotSize))).SameSlots m') :
      DenseStep rt m .thread m'
  /-- The tensors of a resident layer are pointed at their places. -/
  | pointResident {e : Event} {l : Nat} {m' : Machine} (hl : l ∈ rt.residentFfnLayers)
      (h : (m.rewriteResidentPtrs rt l).SameSlots m') : DenseStep rt m (.event e) m'
  | allocate {l : Nat} {p p' : ExpertPool} {offsets : List Nat} {m' : Machine}
      (hop : m.Allocates l) (hne : rt.config.denseFfnLayouts l ≠ [])
      (h : m.Allocated rt l p offsets p' m') : DenseStep rt m .thread m'
  /-- A layer's slots are given back, and its status reset. -/
  | release {l lookaheadMax : Nat} {m' : Machine} (hl : m.givenUp rt = some l)
      (h : ((m.releaseSlots rt l).setStatus l .notLoaded).SameSlots m') (hasked : m'.asked = none) :
      DenseStep rt m (.event (.done lookaheadMax)) m'
  /-- The load of the resident layers is submitted. -/
  | activate {n : Nat} {tasks : List (List Region)} {m' : Machine} (htasks : tasks ≠ [])
      (hempty : ∀ l, m.slotsOf l = none)
      (h : { m.setStatus (sentinelLayer rt.config) .loading with
        io := m.io.openBatch ⟨sentinelLayer rt.config, true⟩
          (tasks.map (⟨·, .resident, []⟩)) }.SameSlots m') :
      DenseStep rt m (.event (.residentFfn n)) m'
  /-- The resident layers are loaded, and their tensors point there. -/
  | residentLoaded {m' : Machine} (hempty : ∀ l, m.slotsOf l = none)
      (h : { m.setStatus (sentinelLayer rt.config) .notLoaded with
        tensorData := m'.tensorData }.SameSlots m') : DenseStep rt m .thread m'
  | send {io : IoPool} (h : m.io.send = some io) : DenseStep rt m .thread { m with io := io }
  | recv {w : Nat} {io : IoPool} (h : m.io.recv w = some io) :
      DenseStep rt m (.recv w) { m with io := io }
  | pread {w count : Nat} {m' : Machine} (h : m.preadStep rt w count = some m') :
      DenseStep rt m (.pread w count) m'
  | finish {w : Nat} {m' : Machine} (h : m.finishStep w = some m') :
      DenseStep rt m (.finish w) m'
  | fire {w : Nat} {m' : Machine} (h : m.fireStep w = some m') : DenseStep rt m (.fire w) m'

/-- A step, with where the thread is after it. -/
structure DenseTurn (rt : Runtime) (m : Machine) (lab : Label) (m' : Machine) : Prop where
  effect : DenseStep rt m lab m'
  phase : m'.DensePhase rt
  settles : Settles rt m m'
  /-- Slots are taken with a submission. -/
  submits : m'.submitted = [] → m.submitted = [] ∧ ∀ l, m.slotsOf l = none → m'.slotsOf l = none

section DenseStep
variable {rt : Runtime} {m m' : Machine} {l : Nat}

theorem SameSlots.refl : m.SameSlots m := ⟨rfl, rfl, rfl, rfl, rfl⟩

theorem SameSlots.slotsOf (h : m.SameSlots m') (l : Nat) : m'.slotsOf l = m.slotsOf l := by
  rw [Machine.slotsOf, Machine.slotsOf, h.pool]

/-- A step that leaves the slots alone, and the thread where it makes sure of no layer. -/
theorem DenseTurn.rest {lab : Label} (h : m.SameSlots m') (hphase : m'.DensePhase rt)
    (hsettles : Settles rt m m') (hsubmitted : m'.submitted = m.submitted) :
    DenseTurn rt m lab m' :=
  ⟨.rest h, hphase, hsettles, fun hnil =>
    ⟨hsubmitted ▸ hnil, fun l hl => (h.slotsOf l).trans hl⟩⟩

theorem settles_of_not (h : ¬ m'.Settled) : Settles rt m m' :=
  fun _ _ _ hset => absurd hset h

/-- What is asked for stays, and nothing that makes sure of a layer has come to its end. -/
theorem settles_of_same (hasked : m'.asked = m.asked) (hset : m'.Settled → m.Settled) :
    Settles rt m m' :=
  fun _ _ hl hs => ⟨hasked ▸ hl, .inl (hset hs)⟩

theorem settles_of_none (hasked : m'.asked = none) : Settles rt m m' := by
  intro l _ hl
  rw [hasked] at hl
  cases hl

theorem settled_of_prefetch (hops : ∀ op ∈ m.pending, op.IsPrefetch) (hawait : m.await = none) :
    m.Settled := by
  refine ⟨hawait, fun op hop l => ⟨?_, ?_⟩⟩
  · rintro rfl
    exact hops _ hop
  · rintro rfl
    exact hops _ hop

/-! ### The operations -/

/-- `submit_dense_ffn`: what is allocated, and what is left to do. -/
theorem submitDenseFfn_allocated (hrt : rt.StreamsFfn) (h : m.submitDenseFfn rt l = some m') :
    ∃ p offsets p', m.Allocated rt l p offsets p' m' ∧ m'.pending = .send :: m.pending ∧
      m'.await = m.await ∧ m'.asked = m.asked ∧ m'.submitted ≠ [] := by
  unfold submitDenseFfn at h
  obtain ⟨⟨offsets, m₁⟩, halloc, h⟩ := Option.bind_eq_some_iff.mp h
  unfold allocate at halloc
  obtain ⟨p, hp, halloc⟩ := Option.bind_eq_some_iff.mp halloc
  obtain ⟨⟨offsets', p'⟩, htaken, halloc⟩ := Option.bind_eq_some_iff.mp halloc
  dsimp only at halloc
  split at halloc
  · cases halloc
  · next henough =>
      cases halloc
      cases h
      rw [submitTasks_of_started hrt.started]
      exact ⟨p, offsets, p', ⟨hp, htaken, not_lt.mp henough, rfl, rfl, rfl, rfl, rfl⟩, rfl, rfl, rfl,
        by simp⟩

/-- The tensors of a layer pointed at its slots, if it has some. -/
theorem rewriteToSlots_cases (m : Machine) (l : Nat) (names : List String) :
    m.rewriteToSlots l names = m ∨ ∃ p slots, m.expertPool = some p ∧ p.slotsOf l = some slots ∧
      m.rewriteToSlots l names = m.rewritePtrs names (slots.map (· * p.slotSize)) := by
  unfold rewriteToSlots
  split
  · exact .inl rfl
  · next p hp =>
      split
      · exact .inl rfl
      · next slots hslots => exact .inr ⟨p, slots, hp, hslots, rfl⟩

/-- A prefetch, or the end of a send. -/
theorem denseTurn_request (hrt : rt.StreamsFfn) {op : Op} {ops : List Op} (hpending : m.pending = op :: ops)
    (hop : op.IsPrefetch) (hops : ∀ op ∈ ops, op.IsPrefetch) (hawait : m.await = none)
    (h : exec rt { m with pending := ops } op = some m') : DenseTurn rt m .thread m' := by
  have hsettled : m.Settled := by
    refine settled_of_prefetch (fun op' hop' => ?_) hawait
    rw [hpending] at hop'
    exact (List.mem_cons.mp hop').elim (fun heq => heq ▸ hop) (hops op')
  have hsame : ∀ {m₁ : Machine}, m₁.asked = m.asked → Settles rt m m₁ := fun hasked =>
    settles_of_same hasked fun _ => hsettled
  cases op with
  | send =>
      simp only [exec] at h
      split at h
      · next io hio =>
          cases h
          have heq : { m with io := io, pending := .send :: ops } = { m with io := io } := by
            rw [← hpending]
          rw [heq]
          refine ⟨.send hio, .requests (fun op hop' => ?_) hawait, hsame rfl, fun hnil =>
            ⟨hnil, fun _ => id⟩⟩
          rw [hpending] at hop'
          exact (List.mem_cons.mp hop').elim (fun heq => heq ▸ hop) (hops op)
      · cases h
        exact .rest ⟨rfl, rfl, rfl, rfl, rfl⟩ (.requests hops hawait) (hsame rfl) rfl
  | planDenseFfn k =>
      cases h
      refine .rest ⟨rfl, rfl, rfl, rfl, rfl⟩ (.requests (fun op hop' => ?_) hawait) (hsame rfl) rfl
      rcases List.mem_append.mp hop' with hnew | hold
      · obtain ⟨t, -, rfl⟩ := List.mem_map.mp hnew
        trivial
      · exact hops op hold
  | prefetchDenseFfn k =>
      simp only [exec, prefetchDenseFfn] at h
      split at h
      · cases h
        exact .rest ⟨rfl, rfl, rfl, rfl, rfl⟩ (.requests hops hawait) (hsame rfl) rfl
      · next hne =>
          obtain ⟨p, offsets, p', halloc, hpend, haw, hasked, hsub⟩ := submitDenseFfn_allocated hrt h
          refine ⟨.allocate ⟨_, _, hpending, .inr rfl⟩ hne ⟨halloc.1, halloc.2, halloc.3, halloc.4,
            halloc.5, halloc.6, halloc.7, halloc.8⟩, .requests (fun op hop' => ?_) (haw.trans hawait),
            hsame hasked, fun hnil => absurd hnil hsub⟩
          rw [hpend] at hop'
          exact (List.mem_cons.mp hop').elim (fun heq => heq ▸ trivial) (hops op)
  | _ => exact absurd hop id

/-- The status of the layer asked for is looked at. -/
theorem denseTurn_ensure (hawait : m.await = none) (hl : m.asked = some l) :
    DenseTurn rt m .thread ({ m with pending := [] }.ensureDenseFfnLoaded rt l) := by
  unfold ensureDenseFfnLoaded
  dsimp only
  split
  · next hnil =>
      refine .rest ⟨rfl, rfl, rfl, rfl, rfl⟩ (.requests (fun op hop => nomatch hop) hawait) ?_ rfl
      intro l' hstreamed hl'
      cases hl.symm.trans hl'
      exact absurd hnil hstreamed.2
  · next hne =>
      split
      · next hloaded =>
          have hsettles : ∀ {m₁ : Machine}, m₁.asked = m.asked → Settles rt m m₁ := by
            intro m₁ hasked l' _ hl' _
            rw [hasked] at hl'
            cases hl.symm.trans hl'
            exact ⟨hl, .inr hloaded⟩
          rcases rewriteToSlots_cases { m with pending := [] } l (rt.config.ffnNames l) with
            heq | ⟨p, slots, hp, hslots, heq⟩
          · rw [PrefetchConfig.ffnNames] at heq
            rw [heq]
            exact .rest ⟨rfl, rfl, rfl, rfl, rfl⟩ (.requests (fun op hop => nomatch hop) hawait)
              (hsettles rfl) rfl
          · rw [PrefetchConfig.ffnNames] at heq
            rw [heq]
            exact ⟨.point hp hslots ⟨rfl, rfl, rfl, rfl, rfl⟩,
              .requests (fun op hop => nomatch hop) hawait, hsettles rfl,
              fun hnil => ⟨hnil, fun _ => id⟩⟩
      · refine .rest ⟨rfl, rfl, rfl, rfl, rfl⟩ (.load l rfl hawait hl hne) ?_ rfl
        exact settles_of_not fun hset => (hset.2 _ List.mem_cons_self l).2 rfl

/-- The layer asked for is loaded. -/
theorem denseTurn_load (hrt : rt.StreamsFfn) (hpending : m.pending = [.loadDenseFfn l])
    (hl : m.asked = some l) (hne : rt.config.denseFfnLayouts l ≠ [])
    (h : exec rt { m with pending := [] } (.loadDenseFfn l) = some m') :
    DenseTurn rt m .thread m' := by
  obtain ⟨m₁, hm₁, rfl⟩ := Option.map_eq_some_iff.mp h
  obtain ⟨p, offsets, p', halloc, hpend, -, hasked, hsub⟩ := submitDenseFfn_allocated hrt hm₁
  refine ⟨.allocate ⟨_, _, hpending, .inl rfl⟩ hne ⟨halloc.1, halloc.2, halloc.3, halloc.4,
    halloc.5, halloc.6, halloc.7, halloc.8⟩, .wait l (fun op hop => ?_) rfl (hasked.trans hl),
    settles_of_not fun hset => ?_, fun hnil => absurd hnil hsub⟩
  · have hop : op ∈ m₁.pending := hop
    rw [hpend] at hop
    exact List.mem_singleton.mp hop
  · have hnone : some l = none := hset.1
    cases hnone

/-- Its tasks are sent. -/
theorem denseTurn_sending {op : Op} {ops : List Op} (hpending : m.pending = op :: ops)
    (hops : ∀ op ∈ m.pending, op = .send) (hawait : m.await = some l) (hl : m.asked = some l)
    (h : exec rt { m with pending := ops } op = some m') : DenseTurn rt m .thread m' := by
  have hop : op = .send := hops op (hpending ▸ List.mem_cons_self)
  subst hop
  have hnot : ∀ {m₁ : Machine}, m₁.await = m.await → Settles rt m m₁ := by
    intro m₁ haw
    refine settles_of_not fun hset => ?_
    have hnone := hset.1
    rw [haw, hawait] at hnone
    cases hnone
  simp only [exec] at h
  split at h
  · next io hio =>
      cases h
      have heq : { m with io := io, pending := .send :: ops } = { m with io := io } := by
        rw [← hpending]
      rw [heq]
      exact ⟨.send hio, .wait l hops hawait hl, hnot rfl, fun hnil => ⟨hnil, fun _ => id⟩⟩
  · cases h
    exact .rest ⟨rfl, rfl, rfl, rfl, rfl⟩
      (.wait l (fun op hop => hops op (hpending ▸ List.mem_cons_of_mem _ hop)) hawait hl)
      (hnot rfl) rfl

/-- The load of the resident layers. -/
theorem denseTurn_resident {n : Nat} {op : Op} {ops : List Op} (hpending : m.pending = op :: ops)
    (hops : ∀ op ∈ m.pending, op = .send ∨ op = .awaitResident n) (hawait : m.await = none)
    (hempty : ∀ l, m.slotsOf l = none) (h : exec rt { m with pending := ops } op = some m') :
    DenseTurn rt m .thread m' := by
  have hsettled : m.Settled := by
    refine ⟨hawait, fun op hop l => ?_⟩
    rcases hops op hop with rfl | rfl
    · exact ⟨nofun, nofun⟩
    · exact ⟨nofun, nofun⟩
  have hsame : ∀ {m₁ : Machine}, m₁.asked = m.asked → Settles rt m m₁ := fun hasked =>
    settles_of_same hasked fun _ => hsettled
  have hrest : ∀ op ∈ ops, op = .send ∨ op = .awaitResident n := fun op hop =>
    hops op (hpending ▸ List.mem_cons_of_mem _ hop)
  rcases hops op (hpending ▸ List.mem_cons_self) with rfl | rfl
  · simp only [exec] at h
    split at h
    · next io hio =>
        cases h
        have heq : { m with io := io, pending := .send :: ops } = { m with io := io } := by
          rw [← hpending]
        rw [heq]
        exact ⟨.send hio, .resident n hops hawait hempty, hsame rfl,
          fun hnil => ⟨hnil, fun _ => id⟩⟩
    · cases h
      exact .rest ⟨rfl, rfl, rfl, rfl, rfl⟩ (.resident n hrest hawait hempty) (hsame rfl) rfl
  · simp only [exec] at h
    split at h
    · cases h
      exact ⟨.residentLoaded hempty ⟨rfl, rfl, rfl, rfl, rfl⟩, .resident n hrest hawait hempty,
        hsame rfl, fun hnil => ⟨hnil, fun _ => id⟩⟩
    · cases h
      refine .rest ⟨rfl, rfl, rfl, rfl, rfl⟩ (.resident n (fun op hop => ?_) hawait hempty)
        (hsame rfl) rfl
      exact (List.mem_cons.mp hop).elim .inr (hrest op)

theorem denseTurn_thread (hrt : rt.StreamsFfn) (hphase : m.DensePhase rt)
    (h : m.threadStep rt = some m') : DenseTurn rt m .thread m' := by
  obtain ⟨-, ⟨op, ops, hcons, hexec⟩ | ⟨hnil, l, haw, hlook⟩⟩ := threadStep_cases h
  · cases hphase with
    | requests hops hawait =>
        rw [hcons] at hops
        obtain ⟨hop, hrest⟩ := List.forall_mem_cons.mp hops
        exact denseTurn_request hrt hcons hop hrest hawait hexec
    | ensure l hpending hawait hl =>
        rw [hpending] at hcons
        cases hcons
        cases hexec
        exact denseTurn_ensure hawait hl
    | load l hpending hawait hl hne =>
        rw [hpending] at hcons
        cases hcons
        exact denseTurn_load hrt hpending hl hne hexec
    | wait l hops hawait hl => exact denseTurn_sending hcons hops hawait hl hexec
    | resident n hops hawait hempty => exact denseTurn_resident hcons hops hawait hempty hexec
  · cases hphase with
    | wait l' hops hawait hl =>
        rw [hawait] at haw
        cases haw
        rcases hlook with ⟨hloaded, rfl⟩ | ⟨-, rfl⟩
        · refine .rest ⟨rfl, rfl, rfl, rfl, rfl⟩ (.requests (fun op hop => ?_) rfl) ?_ rfl
          · exact hops op hop ▸ trivial
          · intro l' _ hl' _
            cases hl.symm.trans hl'
            exact ⟨hl, .inr hloaded⟩
        · refine .rest ⟨rfl, rfl, rfl, rfl, rfl⟩ (.wait l hops hawait hl) ?_ rfl
          exact settles_of_same rfl id
    | requests _ hawait => rw [hawait] at haw; cases haw
    | ensure _ _ hawait => rw [hawait] at haw; cases haw
    | load _ _ hawait => rw [hawait] at haw; cases haw
    | resident _ _ hawait => rw [hawait] at haw; cases haw

/-! ### Callbacks -/

theorem askCallback_dense (hrt : rt.StreamsFfn) (l : Nat) : m.askCallback rt l = some
    (if rt.config.layerRegions l = [] then m
      else if l ∈ rt.residentFfnLayers then m.rewriteResidentPtrs rt l
      else { m with pending := [.ensureDenseFfn l] }) := by
  unfold askCallback
  by_cases hregions : rt.config.layerRegions l = []
  · simp [hregions]
  · simp only [hrt.enabled, not_true_eq_false, false_or, hregions, if_false, hrt.experts,
      hrt.dense, if_true, askDense]
    rfl

/-- The `ask` callback. -/
theorem denseTurn_ask (hregions : ∀ l, rt.config.denseFfnLayouts l ≠ [] →
    rt.config.layerRegions l ≠ []) (hidle : m.Idle) (e : Event) :
    DenseTurn rt m (.event e)
      { (if rt.config.layerRegions l = [] then m
        else if l ∈ rt.residentFfnLayers then m.rewriteResidentPtrs rt l
        else { m with pending := [.ensureDenseFfn l] }) with asked := some l } := by
  obtain ⟨hnil, hnone⟩ := hidle
  have hrequests : ∀ {m₁ : Machine}, m₁.pending = m.pending → m₁.await = m.await →
      m₁.DensePhase rt := by
    intro m₁ hpend haw
    refine .requests (fun op hop => ?_) (haw.trans hnone)
    rw [hpend, hnil] at hop
    cases hop
  split
  · next hgate =>
      refine .rest ⟨rfl, rfl, rfl, rfl, rfl⟩ (hrequests rfl rfl) ?_ rfl
      intro l' hstreamed hl'
      cases hl'
      exact absurd hgate (hregions l hstreamed.2)
  · split
    · next hresident =>
        refine ⟨.pointResident hresident ⟨rfl, rfl, rfl, rfl, rfl⟩, hrequests rfl rfl, ?_,
          fun hnil => ⟨hnil, fun _ => id⟩⟩
        intro l' hstreamed hl'
        cases hl'
        exact absurd hresident hstreamed.1
    · refine .rest ⟨rfl, rfl, rfl, rfl, rfl⟩ (.ensure l rfl hnone rfl) ?_ rfl
      exact settles_of_not fun hset => (hset.2 _ List.mem_cons_self l).1 rfl

/-- Only the slots and their memory change when a layer is released. -/
theorem releaseSlots_spec (m : Machine) (l : Nat) : ∃ pool memory,
    m.releaseSlots rt l = { m with expertPool := pool, memory := memory } := by
  unfold releaseSlots
  split
  · exact ⟨_, _, rfl⟩
  · exact ⟨_, _, rfl⟩

theorem slotsOf_releaseSlots (m : Machine) (l k : Nat) :
    (m.releaseSlots rt l).slotsOf k = if k = l then none else m.slotsOf k := by
  unfold releaseSlots slotsOf
  split
  · next hp => simp [hp]
  · next p hp =>
      rw [hp]
      exact ExpertPool.slotsOf_releaseLayer p l k

theorem doneCallback_dense (hrt : rt.StreamsFfn) (hl : m.asked = some l) (lookaheadMax : Nat) :
    rt.config.layerRegions l = [] ∧ m.doneCallback rt l lookaheadMax = m ∨
      m.doneCallback rt l lookaheadMax =
        { m with currentLayer := asI32 l, pending := [.planDenseFfn l] } ∨
      ∃ prev, m.givenUp rt = some prev ∧ m.doneCallback rt l lookaheadMax =
        { (m.releaseSlots rt prev).setStatus prev .notLoaded with
          currentLayer := asI32 l, pending := [.planDenseFfn l] } := by
  unfold doneCallback
  rw [hrt.enabled, hrt.experts, hrt.dense]
  by_cases hregions : rt.config.layerRegions l = []
  · exact .inl ⟨hregions, by simp [hregions]⟩
  · refine .inr ?_
    simp only [not_true_eq_false, false_or, if_neg hregions, Bool.false_eq_true, if_false, if_true,
      doneDense]
    cases hprev : m.prevLayer l with
    | none => exact .inl rfl
    | some prev =>
        dsimp only
        by_cases hstreamed : prev ∉ rt.residentFfnLayers ∧ rt.config.denseFfnLayouts prev ≠ []
        · refine .inr ⟨prev, ?_, ?_⟩
          · rw [givenUp, hl, Option.bind_some, if_neg hregions, hprev, Option.filter_some]
            exact if_pos (decide_eq_true hstreamed)
          · rw [if_pos hstreamed]
            unfold releaseSlots swapLayer
            dsimp only
            split
            · rfl
            · rfl
        · refine .inl ?_
          rw [if_neg hstreamed]
          rfl

/-- The `done` callback: the streamed layer before it is released. -/
theorem denseTurn_done (hrt : rt.StreamsFfn) (hl : m.asked = some l) (hidle : m.Idle)
    (lookaheadMax : Nat) : DenseTurn rt m (.event (.done lookaheadMax))
      { m.doneCallback rt l lookaheadMax with asked := none } := by
  obtain ⟨hnil, hnone⟩ := hidle
  have hplan : ∀ {m₁ : Machine}, m₁.pending = [.planDenseFfn l] → m₁.await = none →
      m₁.DensePhase rt := by
    intro m₁ hpend haw
    refine .requests (fun op hop => ?_) haw
    rw [hpend, List.mem_singleton] at hop
    subst hop
    trivial
  rcases doneCallback_dense hrt hl lookaheadMax with ⟨-, heq⟩ | heq | ⟨prev, hgiven, heq⟩
  · rw [heq]
    refine .rest ⟨rfl, rfl, rfl, rfl, rfl⟩ (.requests (fun op hop => ?_) hnone)
      (settles_of_none rfl) rfl
    have hop : op ∈ m.pending := hop
    rw [hnil] at hop
    cases hop
  · rw [heq]
    exact .rest ⟨rfl, rfl, rfl, rfl, rfl⟩ (hplan rfl hnone) (settles_of_none rfl) rfl
  · rw [heq]
    obtain ⟨pool, memory, hreleased⟩ := releaseSlots_spec m prev
    refine ⟨.release hgiven ⟨rfl, rfl, rfl, rfl, rfl⟩ rfl, hplan rfl ?_, settles_of_none rfl,
      fun hsub => ⟨?_, fun k hk => ?_⟩⟩
    · show (m.releaseSlots rt prev).await = none
      rw [hreleased]
      exact hnone
    · change (m.releaseSlots rt prev).submitted = [] at hsub
      rw [hreleased] at hsub
      exact hsub
    · show (m.releaseSlots rt prev).slotsOf k = none
      rw [slotsOf_releaseSlots, hk, ite_self]

/-- Prefetches at the start of a pass. -/
theorem denseTurn_prefetches (hidle : m.Idle) (e : Event) (layers : List Nat) :
    DenseTurn rt m (.event e) { m with pending := layers.map .prefetchDenseFfn } := by
  refine .rest ⟨rfl, rfl, rfl, rfl, rfl⟩ (.requests (fun op hop => ?_) hidle.2)
    (settles_of_same rfl fun _ => ?_) rfl
  · obtain ⟨l, -, rfl⟩ := List.mem_map.mp hop
    trivial
  · refine ⟨hidle.2, fun op hop => ?_⟩
    rw [hidle.1] at hop
    cases hop

/-- `activate_resident_ffn`, before anything was submitted. -/
theorem denseTurn_residentFfn (hrt : rt.StreamsFfn) (hidle : m.Idle) (n : Nat)
    (hempty : ∀ l, m.slotsOf l = none) :
    DenseTurn rt m (.event (.residentFfn n)) (m.activateResidentFfn rt n) := by
  have hidleSettled : m.Settled := by
    refine ⟨hidle.2, fun op hop => ?_⟩
    rw [hidle.1] at hop
    cases hop
  unfold activateResidentFfn
  dsimp only
  split
  · refine .rest .refl (.requests (fun op hop => ?_) hidle.2) (settles_of_same rfl id) rfl
    rw [hidle.1] at hop
    cases hop
  · next hsum =>
      rw [submitTasks_of_started hrt.started]
      refine ⟨.activate (residentTasks_ne_nil fun hnil => hsum ?_) hempty
        ⟨rfl, rfl, rfl, rfl, rfl⟩, .resident n (fun op hop => ?_) hidle.2 hempty,
        settles_of_same rfl fun _ => hidleSettled, fun hnil => ?_⟩
      · rw [hnil]
        rfl
      · rcases List.mem_cons.mp hop with rfl | hop
        · exact .inl rfl
        · exact .inr (List.mem_singleton.mp hop)
      · exact absurd hnil (by simp)

/-- The selection of a router changes nothing here. -/
theorem interceptRouterOutput_same (rt : Runtime) (m : Machine) (l : Nat) (t : ArgsortTensor) :
    m.SameSlots (m.interceptRouterOutput rt l t) ∧
      (m.interceptRouterOutput rt l t).pending = m.pending ∧
      (m.interceptRouterOutput rt l t).await = m.await ∧
      (m.interceptRouterOutput rt l t).submitted = m.submitted := by
  unfold interceptRouterOutput
  split
  · exact ⟨.refl, rfl, rfl, rfl⟩
  · dsimp only
    split
    · exact ⟨⟨rfl, rfl, rfl, rfl, rfl⟩, rfl, rfl, rfl⟩
    · split
      · exact ⟨⟨rfl, rfl, rfl, rfl, rfl⟩, rfl, rfl, rfl⟩
      · split
        · exact ⟨⟨rfl, rfl, rfl, rfl, rfl⟩, rfl, rfl, rfl⟩
        · exact ⟨⟨rfl, rfl, rfl, rfl, rfl⟩, rfl, rfl, rfl⟩

theorem denseTurn_handle (hrt : rt.StreamsFfn) (hregions : ∀ l, rt.config.denseFfnLayouts l ≠ [] →
    rt.config.layerRegions l ≠ []) (hunsubmitted : m.submitted = [] → ∀ l, m.slotsOf l = none)
    (hidle : m.Idle) {e : Event} (h : m.handle rt e = some m') : DenseTurn rt m (.event e) m' := by
  have hrequests : ∀ {m₁ : Machine}, m₁.pending = m.pending → m₁.await = m.await →
      m₁.DensePhase rt := by
    intro m₁ hpend haw
    refine .requests (fun op hop => ?_) (haw.trans hidle.2)
    rw [hpend, hidle.1] at hop
    cases hop
  have hnot : ¬ rt.Standard := fun hstandard => by
    have hdense := hstandard.2
    rw [hrt.dense] at hdense
    cases hdense
  cases e with
  | ask l =>
      simp only [handle] at h
      split at h
      · rw [askCallback_dense hrt] at h
        cases h
        exact denseTurn_ask hregions hidle _
      · cases h
  | done lookaheadMax =>
      obtain ⟨l, hl, rfl⟩ := Option.map_eq_some_iff.mp h
      exact denseTurn_done hrt hl hidle lookaheadMax
  | doneRouter t =>
      obtain ⟨l, -, rfl⟩ := Option.map_eq_some_iff.mp h
      rw [if_pos hrt.enabled]
      obtain ⟨hsame, hpend, haw, hsub⟩ := interceptRouterOutput_same rt m l t
      exact .rest ⟨hsame.1, hsame.2, hsame.3, hsame.4, hsame.5⟩ (hrequests hpend haw)
        (settles_of_none rfl) hsub
  | residentFfn n =>
      simp only [handle] at h
      split at h
      · next hnil =>
          cases h
          exact denseTurn_residentFfn hrt hidle n (hunsubmitted hnil.2)
      · cases h
  | initialDenseFfn =>
      simp only [handle, if_pos hrt.dense] at h
      cases h
      exact denseTurn_prefetches hidle _ _
  | boundaryDenseFfn =>
      simp only [handle, if_pos hrt.dense] at h
      cases h
      exact denseTurn_prefetches hidle _ _
  | token =>
      simp only [handle] at h
      split at h
      · next hasked =>
          cases h
          exact .rest ⟨rfl, rfl, rfl, rfl, rfl⟩ (hrequests rfl rfl) (settles_of_none hasked) rfl
      · cases h
  | prefetchAllNvme =>
      simp only [handle, if_neg hnot] at h
      cases h
  | request l =>
      simp only [handle, if_neg hnot] at h
      cases h
  | requestSlices l ids =>
      simp only [handle, if_neg hnot] at h
      cases h

/-! ### Every step -/

/-- A step of a worker leaves the thread where it is. -/
theorem DensePhase.of_same (h : m.DensePhase rt) (hpending : m'.pending = m.pending)
    (hawait : m'.await = m.await) (hasked : m'.asked = m.asked)
    (hpool : m'.expertPool = m.expertPool) : m'.DensePhase rt := by
  cases h with
  | requests hops ha => exact .requests (hpending ▸ hops) (hawait ▸ ha)
  | ensure l hp ha hl => exact .ensure l (hpending ▸ hp) (hawait ▸ ha) (hasked ▸ hl)
  | load l hp ha hl hne => exact .load l (hpending ▸ hp) (hawait ▸ ha) (hasked ▸ hl) hne
  | wait l hops ha hl => exact .wait l (hpending ▸ hops) (hawait ▸ ha) (hasked ▸ hl)
  | resident n hops ha he =>
      refine .resident n (hpending ▸ hops) (hawait ▸ ha) fun l => ?_
      rw [slotsOf, hpool]
      exact he l

/-- So what the thread makes sure of is the same. -/
theorem DenseTurn.worker {lab : Label} (heffect : DenseStep rt m lab m') (hphase : m.DensePhase rt)
    (hpending : m'.pending = m.pending) (hawait : m'.await = m.await) (hasked : m'.asked = m.asked)
    (hpool : m'.expertPool = m.expertPool) (hsubmitted : m'.submitted = m.submitted) :
    DenseTurn rt m lab m' := by
  refine ⟨heffect, hphase.of_same hpending hawait hasked hpool,
    settles_of_same hasked fun hset => ?_, fun hnil => ⟨hsubmitted ▸ hnil, fun l hl => ?_⟩⟩
  · rwa [Settled, hpending, hawait] at hset
  · rwa [slotsOf, hpool]

/-- Where the thread is, and that slots are taken with a submission. -/
structure DenseOrderly (rt : Runtime) (m : Machine) : Prop where
  phase : m.DensePhase rt
  unsubmitted : m.submitted = [] → ∀ l, m.slotsOf l = none

theorem denseTurn (hrt : rt.StreamsFfn) (hregions : ∀ l, rt.config.denseFfnLayouts l ≠ [] →
    rt.config.layerRegions l ≠ []) (ho : m.DenseOrderly rt) {lab : Label}
    (h : m.step rt lab = some m') : DenseTurn rt m lab m' := by
  cases lab with
  | event e =>
      simp only [Machine.step] at h
      split at h
      · next hidle => exact denseTurn_handle hrt hregions ho.unsubmitted hidle h
      · cases h
  | thread => exact denseTurn_thread hrt ho.phase h
  | wake =>
      simp only [Machine.step] at h
      split at h
      · cases h
        exact .worker (.rest ⟨rfl, rfl, rfl, rfl, rfl⟩) ho.phase rfl rfl rfl rfl rfl
      · cases h
  | recv w =>
      obtain ⟨io, hio, rfl⟩ := Option.map_eq_some_iff.mp h
      exact .worker (.recv hio) ho.phase rfl rfl rfl rfl rfl
  | pread w count =>
      obtain ⟨j, r, rs, l, io, -, -, -, -, rfl⟩ := preadStep_spec h
      exact .worker (.pread h) ho.phase rfl rfl rfl rfl rfl
  | finish w =>
      obtain ⟨j, io, -, -, -, rfl⟩ := finishStep_spec h
      exact .worker (.finish h) ho.phase rfl rfl rfl rfl rfl
  | fire w =>
      obtain ⟨b, tag, io, -, -, -, rfl⟩ := fireStep_spec h
      refine .worker (.fire h) ho.phase ?_ ?_ ?_ ?_ ?_
      all_goals split <;> rfl

theorem DenseTurn.orderly {lab : Label} (h : DenseTurn rt m lab m') (ho : m.DenseOrderly rt) :
    m'.DenseOrderly rt where
  phase := h.phase
  unsubmitted hnil l := by
    obtain ⟨hnil', hkept⟩ := h.submits hnil
    exact hkept l (ho.unsubmitted hnil' l)

/-- At the start no layer has slots. -/
theorem denseOrderly_start (coActivation : CoActivationMatrix) {pool : ExpertPool}
    (hempty : pool.layerSlots = []) (workers : Nat) :
    (start rt coActivation (some pool) workers).DenseOrderly rt where
  phase := .requests (fun op hop => nomatch hop) rfl
  unsubmitted _ l := by
    show pool.slotsOf l = none
    rw [ExpertPool.slotsOf, hempty]
    rfl

end DenseStep

end Machine

end Hypura
