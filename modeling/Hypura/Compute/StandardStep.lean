import Hypura.Compute.EvalCallback
import Hypura.Compute.LoadProtocol

/-!
# Hypura.Compute.StandardStep

Standard mode: what one step of the system does to the data that loads go through.

* `Orderly` — where the inference thread can be inside a callback, and what it may rely on
  there: the layer asked for is loaded once the callback has returned, and so is the
  layer computed last,
* `StandardStep` — the effects a step can have, said once; every invariant of standard
  mode is a case split over it,
* every effect is a `Loading.Move`, so what moves keep (`Sound`) holds of every run.
-/

namespace Hypura

open Hypura.Core Hypura.Core.Countdown

/-- Standard mode with the callback switched on, a buffer, and the I/O pool started. -/
structure Runtime.Streams (rt : Runtime) : Prop where
  standard : rt.Standard
  enabled : rt.prefetchEnabled = true
  base : rt.bufferBaseNull = false
  started : rt.ioPoolStarted = true

/-- An operation that starts reads and waits for nothing. -/
def Op.IsRequest : Op → Prop
  | .requestLayer _ => True
  | .requestExperts _ _ => True
  | .speculate _ => True
  | _ => False

/-- Layer `l` is one whose pages the `done` callback in standard mode frees. -/
def Runtime.Releases (rt : Runtime) (l : Nat) : Prop :=
  rt.keepNvmeResident = false ∧ l ∈ rt.config.nvmeLayers

namespace Machine

/-- The layer whose status was set to `Loading` and whose load comes next. -/
def submitting (m : Machine) : Option Nat :=
  match m.pending with
  | .submitLayer l :: _ => some l
  | _ => none

/-- The part of the state that loads go through. -/
def loading (m : Machine) : Loading IoPoolTask := ⟨m.layerStatus, m.io, m.submitting⟩

/-! ### The thread inside a callback -/

/-- Where the inference thread is. -/
inductive Phase (m : Machine) : Prop
  /-- Between callbacks, or with requests left to make. -/
  | requests (hops : ∀ op ∈ m.pending, op.IsRequest) (hawait : m.await = none)
      (hsent : m.io.unsent = [])
  /-- In the loop of `ensure_layer_loaded`. -/
  | ensure (l : Nat) (hops : m.pending = [.ensureLayer l]) (hawait : m.await = none)
      (hsent : m.io.unsent = [])
  /-- About to submit the load of `l`. -/
  | submit (l : Nat) (ops : List Op) (hpending : m.pending = .submitLayer l :: ops)
      (hops : ∀ op ∈ ops, op.IsRequest) (hawait : ∀ l', m.await = some l' → ops = [])
      (hsent : m.io.unsent = [])
  /-- Sending tasks. -/
  | send (ops : List Op) (hpending : m.pending = .send :: ops)
      (hops : ∀ op ∈ ops, op.IsRequest) (hawait : ∀ l', m.await = some l' → ops = [])
  /-- At the wait for the load it submitted. -/
  | wait (l : Nat) (hpending : m.pending = []) (hawait : m.await = some l)
      (hsent : m.io.unsent = [])

structure Orderly (rt : Runtime) (m : Machine) : Prop where
  phase : m.Phase
  /-- A load waited for is under way. -/
  awaited : ∀ l, m.await = some l → m.layerStatus l ≠ .notLoaded
  /-- The thread sleeps only for a layer that is loading. -/
  asleep : m.asleep = true → ∃ l, m.layerStatus l = .loading ∧
    (m.pending = [.ensureLayer l] ∨ m.pending = [] ∧ m.await = some l)
  /-- The layer asked for is loaded, or the thread is making sure that it is. -/
  asked : ∀ l, m.asked = some l → l < 2 ^ 32 ∧ (rt.config.layerRegions l ≠ [] →
    m.layerStatus l = .loaded ∨ m.await = some l ∨ m.pending = [.ensureLayer l])
  /-- The layer computed last is still loaded. -/
  current : 0 ≤ m.currentLayer → m.layerStatus m.currentLayer.toNat = .loaded
  workers : 0 < m.io.workers.length

theorem asI32_toNat {l : Nat} (hl : l < 2 ^ 32) (h : 0 ≤ asI32 l) : (asI32 l).toNat = l := by
  unfold asI32 at h ⊢
  rw [Nat.mod_eq_of_lt hl] at h ⊢
  split at h <;> split <;> omega

section Orderly
variable {rt : Runtime} {m m' : Machine}

theorem Phase.of_same (h : m.Phase) (hpending : m'.pending = m.pending)
    (hawait : m'.await = m.await) (hunsent : m'.io.unsent = m.io.unsent) : m'.Phase := by
  cases h with
  | requests hops ha hs => exact .requests (hpending ▸ hops) (hawait ▸ ha) (hunsent ▸ hs)
  | ensure l hp ha hs => exact .ensure l (hpending ▸ hp) (hawait ▸ ha) (hunsent ▸ hs)
  | submit l ops hp hops ha hs =>
      exact .submit l ops (hpending ▸ hp) hops (hawait ▸ ha) (hunsent ▸ hs)
  | send ops hp hops ha => exact .send ops (hpending ▸ hp) hops (hawait ▸ ha)
  | wait l hp ha hs => exact .wait l (hpending ▸ hp) (hawait ▸ ha) (hunsent ▸ hs)

/-- With no operation left there is nothing left to send. -/
theorem Phase.sent_of_nil (h : m.Phase) (hnil : m.pending = []) : m.io.unsent = [] := by
  cases h with
  | requests _ _ hsent => exact hsent
  | ensure _ _ _ hsent => exact hsent
  | submit _ _ _ _ _ hsent => exact hsent
  | send _ hpending => rw [hnil] at hpending; cases hpending
  | wait _ _ _ hsent => exact hsent

namespace Orderly

/-- A step of the thread before its wait. -/
theorem advance (h : m.Orderly rt) (hphase : m'.Phase) (hawait : m'.await = m.await)
    (hasked : m'.asked = m.asked) (hcurrent : m'.currentLayer = m.currentLayer)
    (hasleep : m'.asleep = false) (hworkers : m'.io.workers.length = m.io.workers.length)
    (hloaded : ∀ l, m.layerStatus l = .loaded → m'.layerStatus l = .loaded)
    (hload : ∀ l, m.layerStatus l ≠ .notLoaded → m'.layerStatus l ≠ .notLoaded)
    (hensure : ∀ l, m.pending ≠ [.ensureLayer l]) : m'.Orderly rt where
  phase := hphase
  awaited l hl := hload l (h.awaited l (hawait ▸ hl))
  asleep hs := by
    rw [hasleep] at hs
    cases hs
  asked l hl := by
    obtain ⟨hlt, hdone⟩ := h.asked l (hasked ▸ hl)
    refine ⟨hlt, fun hregions => ?_⟩
    rcases hdone hregions with hst | haw | hpe
    · exact .inl (hloaded l hst)
    · exact .inr (.inl (hawait ▸ haw))
    · exact absurd hpe (hensure l)
  current hc := by
    rw [hcurrent] at hc ⊢
    exact hloaded _ (h.current hc)
  workers := hworkers ▸ h.workers

/-- A step of a worker, which at most stores `Loaded` somewhere and notifies. -/
theorem worker (h : m.Orderly rt) (hpending : m'.pending = m.pending)
    (hawait : m'.await = m.await) (hasked : m'.asked = m.asked)
    (hcurrent : m'.currentLayer = m.currentLayer) (hunsent : m'.io.unsent = m.io.unsent)
    (hworkers : m'.io.workers.length = m.io.workers.length)
    (hstatus : ∀ l, m'.layerStatus l = m.layerStatus l ∨ m'.layerStatus l = .loaded)
    (hasleep : m'.asleep = true → m.asleep = true ∧ m'.layerStatus = m.layerStatus) :
    m'.Orderly rt where
  phase := h.phase.of_same hpending hawait hunsent
  awaited l hl := by
    rcases hstatus l with hs | hs
    · rw [hs]
      exact h.awaited l (hawait ▸ hl)
    · rw [hs]
      decide
  asleep hs := by
    obtain ⟨hslept, hsame⟩ := hasleep hs
    rw [hsame, hpending, hawait]
    exact h.asleep hslept
  asked l hl := by
    obtain ⟨hlt, hdone⟩ := h.asked l (hasked ▸ hl)
    refine ⟨hlt, fun hregions => ?_⟩
    rw [hawait, hpending]
    rcases hdone hregions with hst | hrest
    · refine .inl ?_
      rcases hstatus l with hs | hs
      · rw [hs, hst]
      · exact hs
    · exact .inr hrest
  current hc := by
    rw [hcurrent] at hc ⊢
    rcases hstatus m.currentLayer.toNat with hs | hs
    · rw [hs]
      exact h.current hc
    · exact hs
  workers := hworkers ▸ h.workers

/-- Between callbacks the layer asked for is loaded. -/
theorem loaded_of_idle (h : m.Orderly rt) (hidle : m.Idle) {l : Nat} (hl : m.asked = some l)
    (hregions : rt.config.layerRegions l ≠ []) : m.layerStatus l = .loaded := by
  obtain ⟨hnil, hnone⟩ := hidle
  rcases (h.asked l hl).2 hregions with hst | haw | hpe
  · exact hst
  · rw [hnone] at haw
    cases haw
  · rw [hnil] at hpe
    cases hpe

/-- An idle thread is awake. -/
theorem awake_of_idle (h : m.Orderly rt) (hidle : m.Idle) : m.asleep = false := by
  by_contra hs
  obtain ⟨l, -, hpe | ⟨-, haw⟩⟩ := h.asleep (by simpa using hs)
  · rw [hidle.1] at hpe
    cases hpe
  · rw [hidle.2] at haw
    cases haw

end Orderly

/-- At the start. -/
theorem orderly_start (coActivation : CoActivationMatrix) (expertPool : Option ExpertPool)
    {workers : Nat} (hworkers : 0 < workers) :
    (start rt coActivation expertPool workers).Orderly rt where
  phase := .requests (fun op hop => by cases hop) rfl rfl
  awaited l hl := by cases hl
  asleep hs := by cases hs
  asked l hl := by cases hl
  current hc := absurd hc (by show ¬ (0 : Int) ≤ -1; decide)
  workers := by
    show 0 < (List.replicate workers Worker.idle : List (Worker IoPoolTask)).length
    rw [List.length_replicate]
    exact hworkers

end Orderly

/-! ### Effects -/

/-- The two states agree on what loads go through and what is known of them. -/
structure Agrees (m m' : Machine) : Prop where
  status : m'.layerStatus = m.layerStatus
  io : m'.io = m.io
  submitting : m'.submitting = m.submitting
  cache : m'.neuronCache = m.neuronCache
  basis : m'.basis = m.basis
  readSince : m'.readSince = m.readSince

/-- What one step can do in standard mode. -/
inductive StandardStep (rt : Runtime) (m : Machine) : Label → Machine → Prop
  /-- Nothing that loads go through changes. -/
  | rest {lab : Label} {m' : Machine} (h : m.Agrees m') : StandardStep rt m lab m'
  /-- A layer that is not loaded is set to `Loading`; its load comes next. -/
  | announce {l : Nat} {m' : Machine} (hsub : m.submitting = none)
      (hl : m.layerStatus l = .notLoaded)
      (h : { m.setStatus l .loading with pending := [.submitLayer l] }.Agrees m') :
      StandardStep rt m .thread m'
  | submit {l : Nat} {ops : List Op} (hpending : m.pending = .submitLayer l :: ops)
      (hops : ∀ op ∈ ops, op.IsRequest) :
      StandardStep rt m .thread ({ m with pending := ops }.submitLayerLoad rt l)
  | request {l : Nat} {ids : List Nat} {ops : List Op}
      (hpending : m.pending = .requestExperts l ids :: ops) (hops : ∀ op ∈ ops, op.IsRequest) :
      StandardStep rt m .thread ({ m with pending := ops }.submitExpertLoad rt l ids)
  | send {io : IoPool} (h : m.io.send = some io) : StandardStep rt m .thread { m with io := io }
  /-- A loaded layer is released. -/
  | release {e : Event} {l : Nat} {m' : Machine} (hl : m.layerStatus l = .loaded)
      (h : (m.releaseLayer rt l).Agrees m') : StandardStep rt m (.event e) m'
  | recv {w : Nat} {io : IoPool} (h : m.io.recv w = some io) :
      StandardStep rt m (.recv w) { m with io := io }
  | pread {w count : Nat} {m' : Machine} (h : m.preadStep rt w count = some m') :
      StandardStep rt m (.pread w count) m'
  | finish {w : Nat} {m' : Machine} (h : m.finishStep w = some m') :
      StandardStep rt m (.finish w) m'
  | fire {w : Nat} {m' : Machine} (h : m.fireStep w = some m') : StandardStep rt m (.fire w) m'

section Effects
variable {rt : Runtime} {m m' : Machine}

theorem submitting_eq_none (h : ∀ op ∈ m.pending, op.IsRequest) : m.submitting = none := by
  unfold submitting
  split
  · next l ops hpending => exact absurd (h _ (hpending ▸ List.mem_cons_self)) id
  · rfl

/-- Speculation records, and goes on to at most one request. -/
theorem speculate_spec {l : Nat} {eligible : Nat → Bool} (h : m.speculate rt l eligible = some m') :
    ∃ coAct prev ops, (∀ op ∈ ops, ∃ k ids, op = .requestExperts k ids) ∧ m' =
      { m with coActivation := coAct, prevLayerExperts := prev, pending := ops ++ m.pending } := by
  unfold speculate at h
  split at h
  · cases h
    exact ⟨m.coActivation, m.prevLayerExperts, [], nofun, rfl⟩
  · split at h
    · cases h
      exact ⟨m.coActivation, m.prevLayerExperts, [], nofun, rfl⟩
    · next experts _ =>
        obtain ⟨coAct, -, h⟩ := Option.bind_eq_some_iff.mp h
        obtain ⟨predicted, -, h⟩ := Option.bind_eq_some_iff.mp h
        cases h
        refine ⟨coAct, _, requestNext rt l experts predicted eligible, fun op hop => ?_, rfl⟩
        unfold requestNext at hop
        split at hop
        · cases hop
        · exact ⟨_, _, List.mem_singleton.mp hop⟩

/-- Submitting tasks: the pool gets a batch, and sending comes next. -/
theorem submitTasks_of_started (hrt : rt.ioPoolStarted = true) (completion : IoCompletion)
    (base : Base) (tasks : List (List Region)) :
    m.submitTasks rt completion base tasks = { m with
      io := m.io.openBatch completion (tasks.map (⟨·, base, []⟩))
      pending := .send :: m.pending
      submitted := m.submitted ++ [tasks] } :=
  if_pos hrt

/-- `submit_layer_load`: there is nothing to load, or a load of `l` is sent. -/
theorem submitLayerLoad_cases (hrt : rt.Streams) (l : Nat) :
    (planLayer rt m l).tasks = [] ∧ m.submitLayerLoad rt l =
        { m with
          neuronCache := (planLayer rt m l).cache
          basis := Function.update m.basis l (planLayer rt m l).basis
          layerStatus := Function.update m.layerStatus l .loaded
          asleep := false } ∨
      (planLayer rt m l).tasks ≠ [] ∧ m.submitLayerLoad rt l =
        { m with
          neuronCache := (planLayer rt m l).cache
          basis := Function.update m.basis l (planLayer rt m l).basis
          io := m.io.openBatch ⟨l, true⟩ ((planLayer rt m l).tasks.map (⟨·, .buffer, []⟩))
          pending := .send :: m.pending
          submitted := m.submitted ++ [(planLayer rt m l).tasks] } := by
  have hbase : ¬ rt.bufferBaseNull = true := by
    rw [hrt.base]
    decide
  unfold submitLayerLoad
  rw [if_neg hbase]
  dsimp only
  by_cases hnil : (planLayer rt m l).tasks = []
  · rw [if_pos hnil]
    exact .inl ⟨hnil, rfl⟩
  · rw [if_neg hnil, if_pos hrt.started, submitTasks_of_started hrt.started]
    exact .inr ⟨hnil, rfl⟩

/-- `submit_expert_load`: no request of a layer without fused tensors, nothing new to read,
or the slices are sent. -/
theorem submitExpertLoad_cases (hrt : rt.Streams) (l : Nat) (ids : List Nat) :
    rt.config.expertLayouts l = [] ∧ m.submitExpertLoad rt l ids = m ∨
      (planSlices rt.config m.neuronCache l ids).tasks = [] ∧ m.submitExpertLoad rt l ids =
        { m with neuronCache := (planSlices rt.config m.neuronCache l ids).cache } ∨
      rt.config.expertLayouts l ≠ [] ∧ (planSlices rt.config m.neuronCache l ids).tasks ≠ [] ∧
        m.submitExpertLoad rt l ids =
        { m with
          neuronCache := (planSlices rt.config m.neuronCache l ids).cache
          io := m.io.openBatch ⟨l, false⟩
            ((planSlices rt.config m.neuronCache l ids).tasks.map (⟨·, .buffer, []⟩))
          pending := .send :: m.pending
          submitted := m.submitted ++ [(planSlices rt.config m.neuronCache l ids).tasks] } := by
  unfold submitExpertLoad
  by_cases hlayouts : rt.config.expertLayouts l = []
  · rw [if_pos (.inl hlayouts)]
    exact .inl ⟨hlayouts, rfl⟩
  · rw [if_neg (by rw [hrt.base]; simpa using hlayouts)]
    dsimp only
    by_cases hnil : (planSlices rt.config m.neuronCache l ids).tasks = []
    · rw [if_pos hnil]
      exact .inr (.inl ⟨hnil, rfl⟩)
    · rw [if_neg hnil, submitTasks_of_started hrt.started]
      exact .inr (.inr ⟨hlayouts, hnil, rfl⟩)

/-! ### Steps of the thread -/

/-- The thread's step, inverted: awake, it takes its next operation, or looks at the layer
it waits for. -/
theorem threadStep_cases (h : m.threadStep rt = some m') :
    m.asleep = false ∧ ((∃ op ops, m.pending = op :: ops ∧ exec rt { m with pending := ops } op = some m') ∨
      m.pending = [] ∧ ∃ l, m.await = some l ∧
        (m.layerStatus l = .loaded ∧ m' = { m with await := none } ∨
          m.layerStatus l ≠ .loaded ∧ m' = { m with asleep := true })) := by
  unfold threadStep at h
  split at h
  · cases h
  · next hawake =>
      refine ⟨by simpa using hawake, ?_⟩
      split at h
      · next op ops hpending => exact .inl ⟨op, ops, hpending, h⟩
      · next hpending =>
          refine .inr ⟨hpending, ?_⟩
          split at h
          · cases h
          · next l hawait =>
              refine ⟨l, hawait, ?_⟩
              split at h
              · next hl =>
                  cases h
                  exact .inl ⟨hl, rfl⟩
              · next hl =>
                  cases h
                  exact .inr ⟨hl, rfl⟩

/-- What the first operation does, if it is a request. -/
theorem exec_request {op : Op} {ops : List Op} (hop : op.IsRequest)
    (hops : ∀ op ∈ ops, op.IsRequest) (h : exec rt { m with pending := ops } op = some m') :
    (∃ coAct prev ops', (∀ op ∈ ops', op.IsRequest) ∧ m' =
        { m with coActivation := coAct, prevLayerExperts := prev, pending := ops' }) ∨
      (∃ l, m.layerStatus l = .notLoaded ∧
        m' = { m.setStatus l .loading with pending := .submitLayer l :: ops }) ∨
      ∃ l ids, op = .requestExperts l ids ∧
        m' = { m with pending := ops }.submitExpertLoad rt l ids := by
  cases op with
  | requestLayer l =>
      simp only [exec] at h
      split at h
      · next hl =>
          cases h
          exact .inr (.inl ⟨l, hl, rfl⟩)
      · cases h
        exact .inl ⟨m.coActivation, m.prevLayerExperts, ops, hops, rfl⟩
  | requestExperts l ids =>
      cases h
      exact .inr (.inr ⟨l, ids, rfl, rfl⟩)
  | speculate l =>
      have hspec : ∃ eligible, { m with pending := ops }.speculate rt l eligible = some m' := by
        simp only [exec] at h
        split at h
        · exact ⟨_, h⟩
        · exact ⟨_, h⟩
      obtain ⟨eligible, hspec⟩ := hspec
      obtain ⟨coAct, prev, ops', hops', rfl⟩ := speculate_spec hspec
      refine .inl ⟨coAct, prev, ops' ++ ops, fun op hop => ?_, rfl⟩
      rcases List.mem_append.mp hop with hop | hop
      · obtain ⟨k, ids, rfl⟩ := hops' op hop
        trivial
      · exact hops op hop
  | _ => exact absurd hop id

/-- With nothing to send, the thread has requests left or waits. -/
theorem Phase.of_sent (hops : ∀ op ∈ m.pending, op.IsRequest)
    (hawait : ∀ l, m.await = some l → m.pending = []) (hsent : m.io.unsent = []) : m.Phase := by
  cases haw : m.await with
  | none => exact .requests hops haw hsent
  | some l => exact .wait l (hawait l haw) haw hsent

theorem unsent_of_send (h : m.io.send = none) : m.io.unsent = [] := by
  unfold Pool.send at h
  split at h
  · assumption
  · cases h

/-- A status other than `notLoaded` stays when a layer is set to `Loading`. -/
theorem setStatus_of_loads {l l' : Nat} {st : LayerStatus} (hl : m.layerStatus l = .notLoaded)
    (hl' : m.layerStatus l' ≠ .notLoaded) :
    (m.setStatus l st).layerStatus l' = m.layerStatus l' :=
  Function.update_of_ne (fun heq : l' = l => hl' (by rw [heq, hl])) _ _

namespace Orderly

theorem requests_step {op : Op} {ops : List Op} (hrt : rt.Streams) (ho : m.Orderly rt)
    (hawake : m.asleep = false) (hpending : m.pending = op :: ops) (hop : op.IsRequest)
    (hops : ∀ op ∈ ops, op.IsRequest) (hawait : m.await = none) (hsent : m.io.unsent = [])
    (h : exec rt { m with pending := ops } op = some m') : m'.Orderly rt := by
  have hensure : ∀ l, m.pending ≠ [.ensureLayer l] := by
    intro l heq
    rw [hpending] at heq
    cases heq
    exact hop
  rcases exec_request hop hops h with ⟨coAct, prev, ops', hops', rfl⟩ | ⟨l, hl, rfl⟩ |
    ⟨l, ids, -, rfl⟩
  · exact ho.advance (.requests hops' hawait hsent) rfl rfl rfl hawake rfl (fun _ => id)
      (fun _ => id) hensure
  · refine ho.advance (.submit l ops rfl hops (fun l' hl' => ?_) hsent) rfl rfl rfl hawake rfl
      (fun l' hl' => ?_) (fun l' hl' => ?_) hensure
    · exact absurd (hawait.symm.trans hl') nofun
    · exact (setStatus_of_loads hl (by rw [hl']; decide)).trans hl'
    · exact fun heq => hl' ((setStatus_of_loads hl hl').symm.trans heq)
  · rcases submitExpertLoad_cases (m := { m with pending := ops }) hrt l ids with
      ⟨-, heq⟩ | ⟨-, heq⟩ | ⟨-, -, heq⟩
    · rw [heq]
      exact ho.advance (.requests hops hawait hsent) rfl rfl rfl hawake rfl (fun _ => id)
        (fun _ => id) hensure
    · rw [heq]
      exact ho.advance (.requests hops hawait hsent) rfl rfl rfl hawake rfl (fun _ => id)
        (fun _ => id) hensure
    · rw [heq]
      refine ho.advance (.send ops rfl hops fun l' hl' => ?_) rfl rfl rfl hawake rfl (fun _ => id)
        (fun _ => id) hensure
      exact absurd (hawait.symm.trans hl') nofun

theorem ensure_step {l : Nat} (ho : m.Orderly rt) (hawake : m.asleep = false)
    (hpending : m.pending = [.ensureLayer l]) (hawait : m.await = none)
    (hsent : m.io.unsent = []) (h : exec rt { m with pending := [] } (.ensureLayer l) = some m') :
    m'.Orderly rt := by
  -- whatever was asked for is `l`, or loaded
  have hasked : ∀ l', m.asked = some l' → l' < 2 ^ 32 ∧
      (rt.config.layerRegions l' ≠ [] → m.layerStatus l' = .loaded ∨ l' = l) := by
    intro l' hl'
    refine ⟨(ho.asked l' hl').1, fun hregions => ?_⟩
    rcases (ho.asked l' hl').2 hregions with hst | haw | hpe
    · exact .inl hst
    · rw [hawait] at haw
      cases haw
    · rw [hpending] at hpe
      cases hpe
      exact .inr rfl
  simp only [exec] at h
  cases hst : m.layerStatus l with
  | loaded =>
      rw [hst] at h
      cases h
      constructor
      · exact .requests nofun hawait hsent
      · exact ho.awaited
      · exact fun hs => absurd (hawake.symm.trans hs) nofun
      · intro l' hl'
        obtain ⟨hlt, hdone⟩ := hasked l' hl'
        refine ⟨hlt, fun hregions => .inl ?_⟩
        rcases hdone hregions with hst' | rfl
        · exact hst'
        · exact hst
      · exact ho.current
      · exact ho.workers
  | loading =>
      rw [hst] at h
      cases h
      constructor
      · exact .ensure l rfl hawait hsent
      · exact ho.awaited
      · exact fun _ => ⟨l, hst, .inl rfl⟩
      · intro l' hl'
        obtain ⟨hlt, hdone⟩ := hasked l' hl'
        refine ⟨hlt, fun hregions => ?_⟩
        rcases hdone hregions with hst' | rfl
        · exact .inl hst'
        · exact .inr (.inr rfl)
      · exact ho.current
      · exact ho.workers
  | notLoaded =>
      rw [hst] at h
      cases h
      have hkeep : ∀ l', m.layerStatus l' = .loaded →
          (m.setStatus l .loading).layerStatus l' = .loaded := fun l' hl' =>
        (setStatus_of_loads hst (by rw [hl']; decide)).trans hl'
      constructor
      · exact .submit l [] rfl nofun (fun _ _ => rfl) hsent
      · intro l' hl'
        cases hl'
        show Function.update m.layerStatus l .loading l ≠ .notLoaded
        rw [Function.update_self]
        decide
      · exact fun hs => absurd (hawake.symm.trans hs) nofun
      · intro l' hl'
        obtain ⟨hlt, hdone⟩ := hasked l' hl'
        refine ⟨hlt, fun hregions => ?_⟩
        rcases hdone hregions with hst' | rfl
        · exact .inl (hkeep l' hst')
        · exact .inr (.inl rfl)
      · exact fun hc => hkeep _ (ho.current hc)
      · exact ho.workers

theorem submit_step {l : Nat} {ops : List Op} (hrt : rt.Streams) (ho : m.Orderly rt)
    (hawake : m.asleep = false) (hpending : m.pending = .submitLayer l :: ops)
    (hops : ∀ op ∈ ops, op.IsRequest) (hawait : ∀ l', m.await = some l' → ops = [])
    (hsent : m.io.unsent = []) : ({ m with pending := ops }.submitLayerLoad rt l).Orderly rt := by
  have hensure : ∀ l', m.pending ≠ [.ensureLayer l'] := by
    intro l' heq
    rw [hpending] at heq
    cases heq
  rcases submitLayerLoad_cases (m := { m with pending := ops }) hrt l with ⟨-, heq⟩ | ⟨-, heq⟩
  · rw [heq]
    have hupdate : ∀ l', Function.update m.layerStatus l .loaded l' = m.layerStatus l' ∨
        Function.update m.layerStatus l .loaded l' = .loaded := by
      intro l'
      by_cases hl' : l' = l
      · subst hl'
        exact .inr (Function.update_self ..)
      · exact .inl (Function.update_of_ne hl' ..)
    refine ho.advance (.of_sent hops hawait hsent) rfl rfl rfl rfl rfl (fun l' hl' => ?_)
      (fun l' hl' => ?_) hensure
    · rcases hupdate l' with hsame | hload
      · exact hsame.trans hl'
      · exact hload
    · rcases hupdate l' with hsame | hload
      · exact fun hnot => hl' (hsame.symm.trans hnot)
      · exact fun hnot => absurd (hload.symm.trans hnot) nofun
  · rw [heq]
    exact ho.advance (.send ops rfl hops hawait) rfl rfl rfl hawake rfl (fun _ => id)
      (fun _ => id) hensure

theorem send_step {ops : List Op} (ho : m.Orderly rt) (hawake : m.asleep = false)
    (hpending : m.pending = .send :: ops) (hops : ∀ op ∈ ops, op.IsRequest)
    (hawait : ∀ l', m.await = some l' → ops = [])
    (h : exec rt { m with pending := ops } .send = some m') : m'.Orderly rt := by
  have hensure : ∀ l', m.pending ≠ [.ensureLayer l'] := by
    intro l' heq
    rw [hpending] at heq
    cases heq
  simp only [exec] at h
  split at h
  · next io hio =>
      cases h
      obtain ⟨-, -, hworkers, -⟩ := Pool.send_spec hio
      exact ho.advance (.send ops rfl hops hawait) rfl rfl rfl hawake
        (congrArg List.length hworkers) (fun _ => id) (fun _ => id) hensure
  · next hnone =>
      cases h
      exact ho.advance (.of_sent hops hawait (unsent_of_send hnone)) rfl rfl rfl hawake rfl
        (fun _ => id) (fun _ => id) hensure

/-- At the wait: the load has come, or the thread goes to sleep. -/
theorem wait_step {l : Nat} (ho : m.Orderly rt) (hawake : m.asleep = false)
    (hpending : m.pending = []) (hawait : m.await = some l) (hsent : m.io.unsent = [])
    (h : m.layerStatus l = .loaded ∧ m' = { m with await := none } ∨
      m.layerStatus l ≠ .loaded ∧ m' = { m with asleep := true }) : m'.Orderly rt := by
  rcases h with ⟨hl, rfl⟩ | ⟨hl, rfl⟩
  · constructor
    · exact .requests (by rw [hpending]; nofun) rfl hsent
    · nofun
    · exact fun hs => absurd (hawake.symm.trans hs) nofun
    · intro l' hl'
      refine ⟨(ho.asked l' hl').1, fun hregions => .inl ?_⟩
      rcases (ho.asked l' hl').2 hregions with hst | haw | hpe
      · exact hst
      · rw [hawait] at haw
        cases haw
        exact hl
      · rw [hpending] at hpe
        cases hpe
    · exact ho.current
    · exact ho.workers
  · constructor
    · exact .wait l hpending hawait hsent
    · exact ho.awaited
    · intro _
      have hnot := ho.awaited l hawait
      cases hst : m.layerStatus l with
      | loaded => exact absurd hst hl
      | notLoaded => exact absurd hst hnot
      | loading => exact ⟨l, hst, .inr ⟨hpending, hawait⟩⟩
    · exact ho.asked
    · exact ho.current
    · exact ho.workers

/-- The thread keeps to its order. -/
theorem threadStep (hrt : rt.Streams) (ho : m.Orderly rt) (h : m.threadStep rt = some m') :
    m'.Orderly rt := by
  obtain ⟨hawake, ⟨op, ops, hcons, hexec⟩ | ⟨hnil, l, hl, hlook⟩⟩ := threadStep_cases h
  · cases ho.phase with
    | requests hops hawait hsent =>
        rw [hcons] at hops
        obtain ⟨hop, hops⟩ := List.forall_mem_cons.mp hops
        exact ho.requests_step hrt hawake hcons hop hops hawait hsent hexec
    | ensure l hpending hawait hsent =>
        rw [hpending] at hcons
        cases hcons
        exact ho.ensure_step hawake hpending hawait hsent hexec
    | submit l ops hpending hops hawait hsent =>
        rw [hpending] at hcons
        cases hcons
        cases hexec
        exact ho.submit_step hrt hawake hpending hops hawait hsent
    | send ops hpending hops hawait =>
        rw [hpending] at hcons
        cases hcons
        exact ho.send_step hawake hpending hops hawait hexec
    | wait l hpending hawait hsent =>
        rw [hpending] at hcons
        cases hcons
  · exact ho.wait_step hawake hnil hl (ho.phase.sent_of_nil hnil) hlook

end Orderly

/-! ### Events -/

/-- What an event does in standard mode. -/
inductive Handled (rt : Runtime) (m : Machine) : Machine → Prop
  /-- A node of layer `l`. -/
  | ask {l : Nat} {ops : List Op} (hl : l < 2 ^ 32)
      (hops : rt.config.layerRegions l = [] ∧ ops = [] ∨ ops = [.ensureLayer l]) :
      Handled rt m { m with pending := ops, asked := some l }
  /-- A node was computed, and no layer is released. -/
  | done {layer : Int} {ops : List Op} (hops : ∀ op ∈ ops, op.IsRequest)
      (hlayer : layer = m.currentLayer ∨
        ∃ l, m.asked = some l ∧ layer = asI32 l ∧ rt.config.layerRegions l ≠ []) :
      Handled rt m { m with currentLayer := layer, pending := ops, asked := none }
  /-- The first node of `l` was computed, and the layer before it is released. -/
  | release {l prev : Nat} {ops : List Op} (hops : ∀ op ∈ ops, op.IsRequest)
      (hl : m.asked = some l) (hregions : rt.config.layerRegions l ≠ [])
      (hprev : 0 ≤ m.currentLayer ∧ m.currentLayer.toNat = prev) (hne : prev ≠ l)
      (hreleases : rt.Releases prev) :
      Handled rt m { m.releaseLayer rt prev with
        currentLayer := asI32 l, pending := ops, asked := none }
  /-- The router's output was read. -/
  | router {selected routed : Nat → Option (List Nat)} :
      Handled rt m { m with selectedExperts := selected, routed := routed, asked := none }
  | requests {ops : List Op} (hops : ∀ op ∈ ops, op.IsRequest) :
      Handled rt m { m with pending := ops }
  | token : Handled rt m { m with routed := fun _ => none }

theorem forall_map_isRequest {α : Type} {f : α → Op} {xs : List α} (hf : ∀ x, (f x).IsRequest) :
    ∀ op ∈ xs.map f, op.IsRequest := by
  intro op hop
  obtain ⟨x, -, rfl⟩ := List.mem_map.mp hop
  exact hf x

theorem releaseLayer_swapLayer (l prev : Nat) :
    (m.swapLayer l).releaseLayer rt prev =
      { m.releaseLayer rt prev with currentLayer := asI32 l } := by
  unfold releaseLayer swapLayer
  split <;> rfl

/-- The `done` callback: at most the layer computed before is released. -/
theorem handled_done (hnil : m.pending = []) {l lookaheadMax : Nat} (hl : m.asked = some l)
    (hregions : rt.config.layerRegions l ≠ []) :
    Handled rt m { m.doneStandard rt l lookaheadMax with asked := none } := by
  have hlayer : asI32 l = m.currentLayer ∨
      ∃ l', m.asked = some l' ∧ asI32 l = asI32 l' ∧ rt.config.layerRegions l' ≠ [] :=
    .inr ⟨l, hl, rfl, hregions⟩
  have hswap : Handled rt m { m.swapLayer l with asked := none } :=
    .done (by show ∀ op ∈ m.pending, op.IsRequest; rw [hnil]; nofun) hlayer
  unfold doneStandard
  cases hprev : m.prevLayer l with
  | none => exact hswap
  | some prev =>
      dsimp only
      by_cases hkeep : rt.keepNvmeResident = true
      · rw [if_pos hkeep]
        exact hswap
      · rw [if_neg hkeep]
        generalize htargets : (((List.range' 2 (lookaheadMax - 1)).map (ahead l)).filter fun t =>
          t < rt.config.numLayers ∧ t ∈ rt.config.nvmeLayers) = targets
        have hops : ∀ op ∈ targets.map Op.requestLayer ++ [.speculate l], op.IsRequest := by
          intro op hop
          rcases List.mem_append.mp hop with hop | hop
          · obtain ⟨target, -, rfl⟩ := List.mem_map.mp hop
            trivial
          · rw [List.mem_singleton.mp hop]
            trivial
        by_cases hnvme : prev ∈ rt.config.nvmeLayers
        · rw [if_pos hnvme, releaseLayer_swapLayer]
          unfold prevLayer at hprev
          split at hprev
          · next hcond =>
              cases hprev
              have hreleases : rt.Releases _ := ⟨Bool.eq_false_iff.mpr hkeep, hnvme⟩
              exact .release hops hl hregions ⟨hcond.1, rfl⟩ hcond.2.1 hreleases
          · cases hprev
        · rw [if_neg hnvme]
          exact .done hops hlayer

theorem handle_handled (hrt : rt.Streams) (hidle : m.Idle) {e : Event}
    (h : m.handle rt e = some m') : Handled rt m m' := by
  have hdense : rt.denseFfnStreaming = false := hrt.standard.2
  cases e with
  | ask l =>
      simp only [handle] at h
      split at h
      · next hcond =>
          obtain ⟨m₁, hask, rfl⟩ := Option.map_eq_some_iff.mp h
          unfold askCallback at hask
          split at hask
          · next hoff =>
              cases hask
              have hnone : rt.config.layerRegions l = [] := by
                rcases hoff with hoff | hnone
                · exact absurd hrt.enabled hoff
                · exact hnone
              exact .ask hcond.2 (.inl ⟨hnone, hidle.1⟩)
          · rw [if_neg (by rw [hrt.standard.1]; decide), if_neg (by rw [hdense]; decide)] at hask
            cases hask
            exact .ask hcond.2 (.inr rfl)
      · cases h
  | done lookaheadMax =>
      obtain ⟨l, hl, rfl⟩ := Option.map_eq_some_iff.mp h
      unfold doneCallback
      split
      · exact .done (by rw [hidle.1]; nofun) (.inl rfl)
      · next hon =>
          rw [if_neg (by rw [hrt.standard.1]; decide), if_neg (by rw [hdense]; decide)]
          exact handled_done hidle.1 hl fun hnone => hon (.inr hnone)
  | doneRouter t =>
      obtain ⟨l, hl, rfl⟩ := Option.map_eq_some_iff.mp h
      rw [if_pos hrt.enabled]
      unfold interceptRouterOutput
      split
      · exact .router
      · dsimp only
        split
        · exact .router
        · split
          · exact .router
          · split
            · exact .router
            · exact .router
  | prefetchAllNvme =>
      simp only [handle, if_pos hrt.standard] at h
      cases h
      exact .requests (forall_map_isRequest fun _ => trivial)
  | request l =>
      simp only [handle, if_pos hrt.standard] at h
      cases h
      refine .requests fun op hop => ?_
      rw [List.mem_singleton.mp hop]
      trivial
  | requestSlices l ids =>
      simp only [handle, if_pos hrt.standard] at h
      cases h
      refine .requests fun op hop => ?_
      rw [List.mem_singleton.mp hop]
      trivial
  | residentFfn n => simp [handle, hdense] at h
  | initialDenseFfn => simp [handle, hdense] at h
  | boundaryDenseFfn => simp [handle, hdense] at h
  | token =>
      simp only [handle] at h
      split at h
      · cases h
        exact .token
      · cases h

/-- Releasing a layer: its status, its cache entries and what was read of it, or nothing
if it has no regions. -/
theorem releaseLayer_cases (hrt : rt.Streams) (l : Nat) :
    rt.config.layerRegions l = [] ∧ m.releaseLayer rt l = m ∨
      rt.config.layerRegions l ≠ [] ∧ m.releaseLayer rt l = { m with
        layerStatus := Function.update m.layerStatus l .notLoaded
        memory := Function.update m.memory .buffer
          ((rt.config.layerRegions l).foldl (fun buf r => freeRange rt.pageSize r.dst r.size buf)
            (m.memory .buffer))
        neuronCache := m.neuronCache.evictLayer l
        readSince := Function.update m.readSince l [] } := by
  unfold releaseLayer
  by_cases hnil : rt.config.layerRegions l = []
  · rw [if_pos (.inl hnil)]
    exact .inl ⟨hnil, rfl⟩
  · rw [if_neg (by rw [hrt.base]; simpa using hnil)]
    exact .inr ⟨hnil, rfl⟩

namespace Orderly

/-- An event at an idle thread. -/
theorem handled (hrt : rt.Streams) (ho : m.Orderly rt) (hidle : m.Idle) (h : Handled rt m m') :
    m'.Orderly rt := by
  have hsent := ho.phase.sent_of_nil hidle.1
  have hawake := ho.awake_of_idle hidle
  have hasked := fun l hl => ho.loaded_of_idle hidle (l := l) hl
  have hnone : ∀ {P : Prop} (l : Nat), m.await = some l → P := fun l hl =>
    absurd (hidle.2.symm.trans hl) nofun
  have hslept : ∀ {P : Prop}, m.asleep = true → P := fun hs => absurd (hawake.symm.trans hs) nofun
  cases h with
  | @ask l ops hl hops =>
      constructor
      · rcases hops with ⟨-, rfl⟩ | rfl
        · exact .requests nofun hidle.2 hsent
        · exact .ensure l rfl hidle.2 hsent
      · exact fun l' hl' => hnone l' hl'
      · exact fun hs => hslept hs
      · intro l' hl'
        cases hl'
        refine ⟨hl, fun hregions => .inr (.inr ?_)⟩
        rcases hops with ⟨hnil, -⟩ | rfl
        · exact absurd hnil hregions
        · rfl
      · exact ho.current
      · exact ho.workers
  | @done layer ops hops hlayer =>
      constructor
      · exact .requests hops hidle.2 hsent
      · exact fun l' hl' => hnone l' hl'
      · exact fun hs => hslept hs
      · exact fun l' hl' => nomatch hl'
      · intro hc
        rcases hlayer with rfl | ⟨l, hl, rfl, hregions⟩
        · exact ho.current hc
        · show m.layerStatus (asI32 l).toNat = .loaded
          rw [asI32_toNat (ho.asked l hl).1 hc]
          exact hasked l hl hregions
      · exact ho.workers
  | @release l prev ops hops hl hregions hprev hne _ =>
      have hcurrent : ∀ st : Nat → LayerStatus, (∀ l', l' ≠ prev → st l' = m.layerStatus l') →
          0 ≤ asI32 l → st (asI32 l).toNat = .loaded := by
        intro st hst hc
        rw [asI32_toNat (ho.asked l hl).1 hc, hst l hne.symm]
        exact hasked l hl hregions
      rcases releaseLayer_cases (m := m) hrt prev with ⟨-, heq⟩ | ⟨-, heq⟩
      · rw [heq]
        constructor
        · exact .requests hops hidle.2 hsent
        · exact fun l' hl' => hnone l' hl'
        · exact fun hs => hslept hs
        · exact fun l' hl' => nomatch hl'
        · exact hcurrent m.layerStatus fun _ _ => rfl
        · exact ho.workers
      · rw [heq]
        constructor
        · exact .requests hops hidle.2 hsent
        · exact fun l' hl' => hnone l' hl'
        · exact fun hs => hslept hs
        · exact fun l' hl' => nomatch hl'
        · exact hcurrent _ fun l' hl' => Function.update_of_ne hl' ..
        · exact ho.workers
  | router =>
      constructor
      · exact .requests (by show ∀ op ∈ m.pending, op.IsRequest; rw [hidle.1]; nofun) hidle.2 hsent
      · exact fun l' hl' => hnone l' hl'
      · exact fun hs => hslept hs
      · exact fun l' hl' => nomatch hl'
      · exact ho.current
      · exact ho.workers
  | requests hops =>
      constructor
      · exact .requests hops hidle.2 hsent
      · exact fun l' hl' => hnone l' hl'
      · exact fun hs => hslept hs
      · exact fun l' hl' => ⟨(ho.asked l' hl').1, fun hregions => .inl (hasked l' hl' hregions)⟩
      · exact ho.current
      · exact ho.workers
  | token => exact ⟨ho.phase.of_same rfl rfl rfl, ho.awaited, ho.asleep, ho.asked, ho.current,
      ho.workers⟩

end Orderly

/-! ### Steps of the workers -/

/-- A `pread` of a worker: the first region of its task moves to those done. -/
theorem preadStep_spec {w count : Nat} (h : m.preadStep rt w count = some m') :
    ∃ j r rs l io, m.io.workers[w]? = some (.busy j) ∧ j.payload.regions = r :: rs ∧
      layerOf m.io j.batch = some l ∧
      m.io.work w { j.payload with regions := rs, done := r :: j.payload.done } = some io ∧
      m' = { m with
        io := io
        preads := (j.batch, r, count) :: m.preads
        memory := Function.update m.memory j.payload.base
          (r.fill rt.file (min count r.size) (m.memory j.payload.base))
        readSince := if r.size ≤ count then
          Function.update m.readSince l (r :: m.readSince l) else m.readSince } := by
  unfold preadStep at h
  split at h
  · next j hw =>
      split at h
      · next r rs l hregions hlayer =>
          obtain ⟨io, hio, h⟩ := Option.bind_eq_some_iff.mp h
          cases h
          exact ⟨j, r, rs, l, io, hw, hregions, hlayer, hio, rfl⟩
      · cases h
  · cases h

theorem finishStep_spec {w : Nat} (h : m.finishStep w = some m') :
    ∃ j io, m.io.workers[w]? = some (.busy j) ∧ j.payload.regions = [] ∧
      m.io.finish w = some io ∧ m' = { m with io := io } := by
  unfold finishStep at h
  split at h
  · next j hw =>
      split at h
      · next hnil =>
          obtain ⟨io, hio, rfl⟩ := Option.map_eq_some_iff.mp h
          exact ⟨j, io, hw, hnil, hio, rfl⟩
      · cases h
  · cases h

theorem fireStep_spec {w : Nat} (h : m.fireStep w = some m') :
    ∃ b tag io, m.io.workers[w]? = some (.firing b) ∧ m.io.tag? b = some tag ∧
      m.io.fire w = some io ∧
      m' = if tag.updateStatus then { m with io := io }.storeLoaded tag.layerIdx
        else { m with io := io } := by
  unfold fireStep at h
  split at h
  · next b hw =>
      split at h
      · next tag htag =>
          obtain ⟨io, hio, rfl⟩ := Option.map_eq_some_iff.mp h
          exact ⟨b, tag, io, hw, htag, hio, rfl⟩
      · cases h
  · cases h

/-- **The thread keeps to its order in every step of the system.** -/
theorem Orderly.step (hrt : rt.Streams) (ho : m.Orderly rt) {lab : Label}
    (h : m.step rt lab = some m') : m'.Orderly rt := by
  cases lab with
  | event e =>
      simp only [Machine.step] at h
      split at h
      · next hidle => exact ho.handled hrt hidle (handle_handled hrt hidle h)
      · cases h
  | thread => exact ho.threadStep hrt h
  | wake =>
      simp only [Machine.step] at h
      split at h
      · cases h
        exact ho.worker rfl rfl rfl rfl rfl rfl (fun _ => .inl rfl) nofun
      · cases h
  | recv w =>
      obtain ⟨io, hio, rfl⟩ := Option.map_eq_some_iff.mp h
      obtain ⟨-, -, -, -, hunsent, hlen⟩ := Pool.recv_spec hio
      exact ho.worker rfl rfl rfl rfl hunsent hlen (fun _ => .inl rfl) fun hs => ⟨hs, rfl⟩
  | pread w count =>
      obtain ⟨j, r, rs, l, io, -, -, -, hio, rfl⟩ := preadStep_spec h
      obtain ⟨-, -, -, -, -, -, -, -, hunsent, hlen⟩ := Pool.work_spec hio
      exact ho.worker rfl rfl rfl rfl hunsent hlen (fun _ => .inl rfl) fun hs => ⟨hs, rfl⟩
  | finish w =>
      obtain ⟨j, io, -, -, hio, rfl⟩ := finishStep_spec h
      obtain ⟨-, -, -, -, -, -, -, -, hunsent, hlen⟩ := Pool.finish_spec hio
      exact ho.worker rfl rfl rfl rfl hunsent hlen (fun _ => .inl rfl) fun hs => ⟨hs, rfl⟩
  | fire w =>
      obtain ⟨b, tag, io, -, -, hio, rfl⟩ := fireStep_spec h
      obtain ⟨-, -, -, -, -, -, hunsent, hlen⟩ := Pool.fire_spec hio
      by_cases hupdate : tag.updateStatus = true
      · rw [if_pos hupdate]
        refine ho.worker rfl rfl rfl rfl hunsent hlen (fun l => ?_) nofun
        by_cases hl : l = tag.layerIdx
        · subst hl
          exact .inr (Function.update_self ..)
        · exact .inl (Function.update_of_ne hl ..)
      · rw [if_neg hupdate]
        exact ho.worker rfl rfl rfl rfl hunsent hlen (fun _ => .inl rfl) fun hs => ⟨hs, rfl⟩

/-! ### Every step has one of the effects -/

theorem submitting_eq_some {l : Nat} {ops : List Op} (h : m.pending = .submitLayer l :: ops) :
    m.submitting = some l := by
  rw [submitting, h]

theorem submitting_of_nil (h : m.pending = []) : m.submitting = none := by
  rw [submitting, h]

theorem standardStep_thread (ho : m.Orderly rt) (h : m.threadStep rt = some m') :
    StandardStep rt m .thread m' := by
  obtain ⟨hawake, ⟨op, ops, hcons, hexec⟩ | ⟨hnil, l, hl, hlook⟩⟩ := threadStep_cases h
  · cases ho.phase with
    | requests hops hawait hsent =>
        have hsub := submitting_eq_none hops
        rw [hcons] at hops
        obtain ⟨hop, hrest⟩ := List.forall_mem_cons.mp hops
        rcases exec_request hop hrest hexec with ⟨coAct, prev, ops', hops', rfl⟩ | ⟨l, hl, rfl⟩ |
          ⟨l, ids, rfl, rfl⟩
        · exact .rest ⟨rfl, rfl, (submitting_eq_none hops').trans hsub.symm, rfl, rfl, rfl⟩
        · exact .announce hsub hl ⟨rfl, rfl, rfl, rfl, rfl, rfl⟩
        · exact .request hcons hrest
    | ensure l hpending hawait hsent =>
        rw [hpending] at hcons
        cases hcons
        have hsub : m.submitting = none := by rw [submitting, hpending]
        simp only [exec] at hexec
        cases hst : m.layerStatus l with
        | loaded =>
            rw [hst] at hexec
            cases hexec
            exact .rest ⟨rfl, rfl, hsub.symm, rfl, rfl, rfl⟩
        | loading =>
            rw [hst] at hexec
            cases hexec
            exact .rest ⟨rfl, rfl, hsub.symm, rfl, rfl, rfl⟩
        | notLoaded =>
            rw [hst] at hexec
            cases hexec
            exact .announce hsub hst ⟨rfl, rfl, rfl, rfl, rfl, rfl⟩
    | submit l ops hpending hops hawait hsent =>
        rw [hpending] at hcons
        cases hcons
        cases hexec
        exact .submit hpending hops
    | send ops hpending hops hawait =>
        rw [hpending] at hcons
        cases hcons
        have hsub : m.submitting = none := by rw [submitting, hpending]
        simp only [exec] at hexec
        split at hexec
        · next io hio =>
            cases hexec
            have hsame : { m with io := io, pending := .send :: ops } = { m with io := io } := by
              rw [← hpending]
            rw [hsame]
            exact .send hio
        · cases hexec
          exact .rest ⟨rfl, rfl, (submitting_eq_none hops).trans hsub.symm, rfl, rfl, rfl⟩
    | wait l hpending hawait hsent =>
        rw [hpending] at hcons
        cases hcons
  · rcases hlook with ⟨-, rfl⟩ | ⟨-, rfl⟩
    · exact .rest ⟨rfl, rfl, rfl, rfl, rfl, rfl⟩
    · exact .rest ⟨rfl, rfl, rfl, rfl, rfl, rfl⟩

theorem standardStep_handled {e : Event} (ho : m.Orderly rt) (hidle : m.Idle)
    (h : Handled rt m m') : StandardStep rt m (.event e) m' := by
  have hsub := submitting_of_nil hidle.1
  cases h with
  | ask hl hops =>
      refine .rest ⟨rfl, rfl, ?_, rfl, rfl, rfl⟩
      rcases hops with ⟨-, rfl⟩ | rfl <;> exact hsub.symm
  | done hops _ => exact .rest ⟨rfl, rfl, (submitting_eq_none hops).trans hsub.symm, rfl, rfl, rfl⟩
  | @release l prev ops hops _ _ hprev _ _ =>
      have hloaded : m.layerStatus prev = .loaded := hprev.2 ▸ ho.current hprev.1
      have hkeep : (m.releaseLayer rt prev).submitting = m.submitting := by
        unfold releaseLayer
        split <;> rfl
      refine .release hloaded ⟨rfl, rfl, ?_, rfl, rfl, rfl⟩
      exact (submitting_eq_none hops).trans (hsub.symm.trans hkeep.symm)
  | router => exact .rest ⟨rfl, rfl, rfl, rfl, rfl, rfl⟩
  | requests hops => exact .rest ⟨rfl, rfl, (submitting_eq_none hops).trans hsub.symm, rfl, rfl, rfl⟩
  | token => exact .rest ⟨rfl, rfl, rfl, rfl, rfl, rfl⟩

theorem standardStep (hrt : rt.Streams) (ho : m.Orderly rt) {lab : Label}
    (h : m.step rt lab = some m') : StandardStep rt m lab m' := by
  cases lab with
  | event e =>
      simp only [Machine.step] at h
      split at h
      · next hidle => exact standardStep_handled ho hidle (handle_handled hrt hidle h)
      · cases h
  | thread => exact standardStep_thread ho h
  | wake =>
      simp only [Machine.step] at h
      split at h
      · cases h
        exact .rest ⟨rfl, rfl, rfl, rfl, rfl, rfl⟩
      · cases h
  | recv w =>
      obtain ⟨io, hio, rfl⟩ := Option.map_eq_some_iff.mp h
      exact .recv hio
  | pread w count => exact .pread h
  | finish w => exact .finish h
  | fire w => exact .fire h

/-! ### The protocol of loads -/

theorem Agrees.loading_eq (h : m.Agrees m') : m'.loading = m.loading := by
  unfold loading
  rw [h.status, h.io, h.submitting]

/-- Every effect is a move of the protocol. -/
theorem StandardStep.move (hrt : rt.Streams) {lab : Label} (h : StandardStep rt m lab m') :
    Loading.Move m.loading m'.loading := by
  cases h with
  | rest h =>
      rw [h.loading_eq]
      exact .rest
  | announce hsub hl h =>
      rw [h.loading_eq]
      exact .announce hsub hl
  | @submit l ops hpending hops =>
      have hsub : m.loading.submitting = some l := submitting_eq_some hpending
      rcases submitLayerLoad_cases (m := { m with pending := ops }) hrt l with
        ⟨-, heq⟩ | ⟨hne, heq⟩
      · rw [heq]
        have hnone : { m with pending := ops }.submitting = none := submitting_eq_none hops
        have hmove := Loading.Move.nothing hsub
        rw [← hnone] at hmove
        exact hmove
      · rw [heq]
        exact .submit hsub fun hnil => hne (List.map_eq_nil_iff.mp hnil)
  | @request l ids ops hpending hops =>
      have hsub : m.submitting = none := by rw [submitting, hpending]
      have hloading : { m with pending := ops }.loading = m.loading := by
        unfold loading
        rw [hsub, submitting_eq_none hops]
      rcases submitExpertLoad_cases (m := { m with pending := ops }) hrt l ids with
        ⟨-, heq⟩ | ⟨-, heq⟩ | ⟨-, hne, heq⟩
      · rw [heq, hloading]
        exact .rest
      · rw [heq]
        exact hloading ▸ .rest
      · rw [heq]
        have htasks : ((planSlices rt.config m.neuronCache l ids).tasks.map
            fun rs => (⟨rs, .buffer, []⟩ : IoPoolTask)) ≠ [] :=
          fun hnil => hne (List.map_eq_nil_iff.mp hnil)
        have hmove := Loading.Move.request (s := m.loading) (l := l) htasks
        show Loading.Move m.loading ⟨m.layerStatus, m.io.openBatch _ _, none⟩
        rw [loading, hsub] at hmove ⊢
        exact hmove
  | send hio => exact .pool (Pool.send_quiet hio)
  | @release e l m' hl h =>
      rw [h.loading_eq]
      rcases releaseLayer_cases (m := m) hrt l with ⟨-, heq⟩ | ⟨-, heq⟩
      · rw [heq]
        exact .rest
      · rw [heq]
        exact .release hl
  | recv hio => exact .pool (Pool.recv_quiet hio)
  | pread h =>
      obtain ⟨j, r, rs, l, io, -, -, -, hio, rfl⟩ := preadStep_spec h
      exact .pool (Pool.work_quiet hio)
  | finish h =>
      obtain ⟨j, io, -, -, hio, rfl⟩ := finishStep_spec h
      exact .pool (Pool.finish_quiet hio)
  | fire h =>
      obtain ⟨b, tag, io, hw, htag, hio, rfl⟩ := fireStep_spec h
      have hmove := Loading.Move.fire (s := m.loading) hw htag hio
      by_cases hupdate : tag.updateStatus = true
      · rw [if_pos hupdate] at hmove ⊢
        exact hmove
      · rw [if_neg hupdate] at hmove ⊢
        exact hmove

end Effects

end Machine

end Hypura
