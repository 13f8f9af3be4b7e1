import Hypura.Compute.StandardMode

/-!
# Hypura.Compute.KeepResident

Keep-resident mode (`load_model` and `generate_with_nvme_scheduling`,
`compute/inference.rs`): the NVMe layers are requested once, and then the callback that
would wait for them is switched off.

* `Session` — the system with the script that the loading function still has to go
  through, and the flag `prefetch_enabled`,
* `Requested` — what the thread's loading operations keep: a layer that was requested has
  been read or has the rest of its regions in tasks. Nothing makes a node wait for those.
-/

namespace Hypura

open Hypura.Core Hypura.Core.Countdown

/-! ### The loading functions -/

/-- What a loading function does between starting the I/O pool and the first forward pass. -/
inductive LoadOp
  /-- A request. -/
  | run (e : Event)
  /-- Wait for a layer, as `preload_ram_layers` does. -/
  | wait (l : Nat)
  /-- `prefetch_enabled.store(false)`. -/
  | disable

/-- `preload_ram_layers`: request the layers, and wait for them. -/
def preloadRamLayers (ramLayers : List Nat) : List LoadOp :=
  ramLayers.map (fun l => .run (.request l)) ++ ramLayers.map .wait

/-- Both loading functions in keep-resident mode. The RAM layers are preloaded if there is
room, in the order of a hash map; otherwise `ramLayers` is empty. -/
def loadScript (ramLayers : List Nat) : List LoadOp :=
  preloadRamLayers ramLayers ++ [.run .prefetchAllNvme, .disable]

/-- What happens once the model is loaded: graph nodes and tokens, and the requests with
which `generate_from_loaded` begins. -/
def Event.OfGeneration : Event → Bool
  | .ask _ => true
  | .done _ => true
  | .doneRouter _ => true
  | .token => true
  | .prefetchAllNvme => true
  | _ => false

/-- The system while a model is loaded and used. -/
structure Session where
  machine : Machine
  /-- `prefetch_enabled`. -/
  enabled : Bool
  /-- What is left of the loading function. -/
  script : List LoadOp

inductive SessionLabel
  /-- The loading function goes on. -/
  | load
  /-- A step of the system: an event once the model is loaded, and whatever the thread's
  pending operations and the workers do at any time. -/
  | of (lab : Label)

namespace Session

/-- The runtime, with the flag as it is now. -/
def runtime (rt : Runtime) (s : Session) : Runtime := { rt with prefetchEnabled := s.enabled }

/-- The next operation of the loading function. -/
def loadStep (rt : Runtime) (s : Session) : Option Session :=
  if s.machine.Idle then
    match s.script with
    | .run e :: rest => (s.machine.handle (s.runtime rt) e).map fun m =>
        { s with machine := m, script := rest }
    | .wait l :: rest =>
      if s.machine.layerStatus l = .loaded then some { s with script := rest } else none
    | .disable :: rest => some { s with enabled := false, script := rest }
    | [] => none
  else none

def step (rt : Runtime) (s : Session) : SessionLabel → Option Session
  | .load => s.loadStep rt
  | .of (.event e) =>
    if s.script.isEmpty && e.OfGeneration then
      (s.machine.step (s.runtime rt) (.event e)).map fun m => { s with machine := m }
    else none
  | .of lab => (s.machine.step (s.runtime rt) lab).map fun m => { s with machine := m }

/-- The state when the I/O pool was started. -/
def start (rt : Runtime) (coActivation : CoActivationMatrix) (expertPool : Option ExpertPool)
    (workers : Nat) (ramLayers : List Nat) : Session :=
  ⟨.start rt coActivation expertPool workers, true, loadScript ramLayers⟩

/-! ### Conditions on steps -/

/-- A `pread` gets all it asks for. -/
def fullRead (s : Session) : SessionLabel → Bool
  | .load => true
  | .of lab => s.machine.fullRead lab

/-- A node of an NVMe layer is asked for when no task of the layer has a region left. -/
def landed (rt : Runtime) (s : Session) : SessionLabel → Bool
  | .of (.event (.ask l)) =>
    decide (l ∉ rt.config.nvmeLayers) ||
      s.machine.io.jobs.all fun j =>
        decide (Machine.layerOf s.machine.io j.batch ≠ some l) || j.payload.regions.isEmpty
  | _ => true

end Session

namespace Machine

/-! ### The loading operations -/

/-- A request for a layer. -/
def Op.IsLayer : Op → Prop
  | .requestLayer _ => True
  | _ => False

/-- Where the inference thread is: it has requests left, and at most one load under way. -/
inductive Loader (m : Machine) : Prop
  | requests (hops : ∀ op ∈ m.pending, Op.IsLayer op)
  | submit (l : Nat) (ops : List Op) (hpending : m.pending = .submitLayer l :: ops)
      (hops : ∀ op ∈ ops, Op.IsLayer op)
  | send (ops : List Op) (hpending : m.pending = .send :: ops) (hops : ∀ op ∈ ops, Op.IsLayer op)

structure Requested (cfg : PrefetchConfig) (m : Machine) : Prop where
  loader : m.Loader
  await : m.await = none
  /-- No router has run. -/
  unselected : ∀ l, m.selectedExperts l = none
  /-- Tasks are of layers that were requested. -/
  batches : ∀ b l, layerOf m.io b = some l → m.layerStatus l ≠ .notLoaded
  announced : ∀ l, m.submitting = some l → m.layerStatus l ≠ .notLoaded
  /-- Of a layer that was requested every region was read, or is in a task. -/
  requested : ∀ l, m.layerStatus l ≠ .notLoaded → m.submitting ≠ some l →
    ∀ r ∈ cfg.layerRegions l, r ∈ m.readSince l ∨ m.Outstanding l r

section Requested
variable {rt : Runtime} {cfg : PrefetchConfig} {m m' : Machine}

theorem submitting_of_isLayer (h : ∀ op ∈ m.pending, Op.IsLayer op) : m.submitting = none := by
  unfold submitting
  split
  · next l ops hpending => exact absurd (h _ (hpending ▸ List.mem_cons_self)) id
  · rfl

theorem planLayer_of_unselected {l : Nat} (h : m.selectedExperts l = none) :
    planLayer rt m l = planFull rt m l := by
  rw [planLayer, h]

theorem update_ne_notLoaded {status : Nat → LayerStatus} {l l' : Nat} {st : LayerStatus}
    (hst : st ≠ .notLoaded) (hl : status l ≠ .notLoaded) :
    Function.update status l' st l ≠ .notLoaded := by
  by_cases hll : l = l'
  · rw [hll, Function.update_self]
    exact hst
  · rwa [Function.update_of_ne hll]

/-- What was requested is carried on. -/
theorem Requested.carry (h : m.Requested cfg) (hc : m.Carries m') (hloader : m'.Loader)
    (hawait : m'.await = none) (hselected : m'.selectedExperts = m.selectedExperts)
    (hkeep : ∀ l, m.layerStatus l ≠ .notLoaded → m'.layerStatus l ≠ .notLoaded)
    (hannounced : ∀ l, m'.submitting = some l → m'.layerStatus l ≠ .notLoaded)
    (hstatus : ∀ l, m'.layerStatus l ≠ .notLoaded → m'.submitting ≠ some l →
      m.layerStatus l ≠ .notLoaded ∧ m.submitting ≠ some l) : m'.Requested cfg where
  loader := hloader
  await := hawait
  unselected l := by rw [hselected, h.unselected l]
  batches b l hb := hkeep l (h.batches b l (hc.layerOf_eq b ▸ hb))
  announced := hannounced
  requested l hl hsub r hr := by
    obtain ⟨hl, hsub⟩ := hstatus l hl hsub
    rcases h.requested l hl hsub r hr with hread | hout
    · exact .inl (hc.readSince l r hread)
    · exact hc.outstanding hout

theorem Loader.of_pending (h : m.Loader) (hpending : m'.pending = m.pending) : m'.Loader := by
  cases h with
  | requests hops => exact .requests (hpending ▸ hops)
  | submit l ops hp hops => exact .submit l ops (hpending ▸ hp) hops
  | send ops hp hops => exact .send ops (hpending ▸ hp) hops

/-- Nothing is submitted or forgotten where neither the pool nor what was read changes. -/
theorem carries_of_same (hio : m'.io = m.io) (hread : m'.readSince = m.readSince)
    (hcache : m'.neuronCache = m.neuronCache) (hbasis : m'.basis = m.basis) : m.Carries m' where
  layerOf_eq b := by rw [hio]
  inBatch b r hr := .inl ((inBatch_of_perm (hio ▸ List.Perm.refl _)).mpr hr)
  readSince l r hr := hread ▸ hr
  cache := hcache
  basis := hbasis

/-- The load of a layer is submitted: all its regions are in tasks. -/
theorem Requested.submit (h : m.Requested cfg) (hrt : rt.Streams) (hcfg : rt.config = cfg)
    {l : Nat} {ops : List Op} (hpending : m.pending = .submitLayer l :: ops)
    (hops : ∀ op ∈ ops, Op.IsLayer op) :
    ({ m with pending := ops }.submitLayerLoad rt l).Requested cfg := by
  subst hcfg
  have hplan : planLayer rt m l = planFull rt m l := planLayer_of_unselected (h.unselected l)
  have hsub : ∀ l', m.submitting ≠ some l' ↔ l' ≠ l := by
    intro l'
    rw [submitting_eq_some hpending]
    constructor
    · exact fun hne heq => hne (congrArg some heq.symm)
    · exact fun hne heq => hne (Option.some.inj heq).symm
  have hnone : ∀ {ops' : List Op}, (∀ op ∈ ops', Op.IsLayer op) →
      { m with pending := ops' }.submitting = none := fun hops' => submitting_of_isLayer hops'
  have hloading := h.announced l (submitting_eq_some hpending)
  rcases submitLayerLoad_cases (m := { m with pending := ops }) hrt l with
    ⟨hnil, heq⟩ | ⟨hne, heq⟩
  · rw [heq]
    have hregions : rt.config.layerRegions l = [] := by
      have hnil : (planLayer rt m l).tasks = [] := hnil
      rw [hplan] at hnil
      rw [← flatten_planFull rt m l, hnil, List.flatten_nil]
    refine ⟨.requests hops, h.await, h.unselected, fun b l' hb => ?_,
      fun l' hl' => absurd ((hnone hops).symm.trans hl') nofun, fun l' hl' _ r hr => ?_⟩
    · exact update_ne_notLoaded (by decide) (h.batches b l' hb)
    by_cases hll : l' = l
    · rw [hll, hregions] at hr
      cases hr
    · change Function.update m.layerStatus l .loaded l' ≠ .notLoaded at hl'
      rw [Function.update_of_ne hll] at hl'
      exact h.requested l' hl' ((hsub l').mpr hll) r hr
  · rw [heq]
    refine ⟨.send ops rfl hops, h.await, h.unselected, fun b l' hb => ?_, nofun,
      fun l' hl' _ r hr => ?_⟩
    · obtain ⟨tag, htag, hlayer⟩ := Option.map_eq_some_iff.mp hb
      rw [Pool.tag?_openBatch] at htag
      split at htag
      · cases htag
        exact hlayer ▸ hloading
      · exact h.batches b l' (Option.map_eq_some_iff.mpr ⟨tag, htag, hlayer⟩)
    by_cases hll : l' = l
    · subst hll
      refine .inr (outstanding_of_mem_tasks (m := m) (c := ⟨l', true⟩) rfl ?_)
      show r ∈ (planLayer rt m l').tasks.flatten
      rw [hplan, flatten_planFull]
      exact hr
    · refine (h.requested l' hl' ((hsub l').mpr hll) r hr).imp_right fun hout => ?_
      exact outstanding_of_openBatch (m := m) (c := ⟨l, true⟩) rfl hout

/-- What the thread does, if it has no callback to run. -/
inductive LoaderStep (rt : Runtime) (m : Machine) : Machine → Prop
  /-- The layer was requested before. -/
  | skip {l : Nat} {ops : List Op} (hpending : m.pending = .requestLayer l :: ops)
      (hops : ∀ op ∈ ops, Op.IsLayer op) (hl : m.layerStatus l ≠ .notLoaded) :
      LoaderStep rt m { m with pending := ops }
  | announce {l : Nat} {ops : List Op} (hpending : m.pending = .requestLayer l :: ops)
      (hops : ∀ op ∈ ops, Op.IsLayer op) :
      LoaderStep rt m { m.setStatus l .loading with pending := .submitLayer l :: ops }
  | submit {l : Nat} {ops : List Op} (hpending : m.pending = .submitLayer l :: ops)
      (hops : ∀ op ∈ ops, Op.IsLayer op) :
      LoaderStep rt m ({ m with pending := ops }.submitLayerLoad rt l)
  | send {io : IoPool} (h : m.io.send = some io) : LoaderStep rt m { m with io := io }
  /-- Everything is sent. -/
  | sent {ops : List Op} (hpending : m.pending = .send :: ops)
      (hops : ∀ op ∈ ops, Op.IsLayer op) : LoaderStep rt m { m with pending := ops }

theorem loaderStep (hloader : m.Loader) (hawait : m.await = none)
    (hstep : m.threadStep rt = some m') : LoaderStep rt m m' := by
  obtain ⟨-, ⟨op, ops, hcons, hexec⟩ | ⟨-, l, hl, -⟩⟩ := threadStep_cases hstep
  · cases hloader with
    | requests hops =>
        rw [hcons] at hops
        obtain ⟨hop, hrest⟩ := List.forall_mem_cons.mp hops
        cases op with
        | requestLayer l =>
            simp only [exec] at hexec
            split at hexec
            · cases hexec
              exact .announce hcons hrest
            · next hl =>
                cases hexec
                exact .skip hcons hrest hl
        | _ => exact absurd hop id
    | submit l ops' hpending hops =>
        rw [hpending] at hcons
        cases hcons
        cases hexec
        exact .submit hpending hops
    | send ops' hpending hops =>
        rw [hpending] at hcons
        cases hcons
        simp only [exec] at hexec
        split at hexec
        · next io hio =>
            cases hexec
            have hsame : { m with io := io, pending := .send :: ops } = { m with io := io } := by
              rw [← hpending]
            rw [hsame]
            exact .send hio
        · cases hexec
          exact .sent hpending hops
  · rw [hawait] at hl
    cases hl

theorem Requested.loader_step (h : m.Requested rt.config) (hrt : rt.Streams)
    (hstep : LoaderStep rt m m') : m'.Requested rt.config := by
  have hnone : ∀ {ops : List Op} {m'' : Machine}, (∀ op ∈ ops, Op.IsLayer op) →
      m''.pending = ops → ∀ l, m''.submitting = some l → m''.layerStatus l ≠ .notLoaded := by
    intro ops m'' hops hpending l hl
    rw [submitting_of_isLayer (hpending ▸ hops)] at hl
    cases hl
  cases hstep with
  | @skip l ops hpending hops hl =>
      have hsub : m.submitting = none := by rw [submitting, hpending]
      exact h.carry (carries_of_same rfl rfl rfl rfl) (.requests hops) h.await rfl (fun _ => id)
        (hnone hops rfl) fun l' hl' _ => ⟨hl', by simp [hsub]⟩
  | @announce l ops hpending hops =>
      have hsub : m.submitting = none := by rw [submitting, hpending]
      refine h.carry (carries_of_same rfl rfl rfl rfl) (.submit l ops rfl hops) h.await rfl
        (fun _ => update_ne_notLoaded (by decide)) (fun l' hl' => ?_) fun l' hl' hne => ?_
      · cases hl'
        show Function.update m.layerStatus l .loading l ≠ .notLoaded
        rw [Function.update_self]
        decide
      · have hll : l' ≠ l := fun heq => hne (congrArg some heq.symm)
        change Function.update m.layerStatus l .loading l' ≠ .notLoaded at hl'
        rw [Function.update_of_ne hll] at hl'
        exact ⟨hl', by simp [hsub]⟩
  | submit hpending hops => exact h.submit hrt rfl hpending hops
  | send hio =>
      have hc := carries_of_io (Pool.send_quiet hio) (Pool.send_spec hio).1
      exact h.carry hc (h.loader.of_pending rfl) h.await rfl (fun _ => id) h.announced
        fun _ hl' hsub => ⟨hl', hsub⟩
  | @sent ops hpending hops =>
      have hsub : m.submitting = none := by rw [submitting, hpending]
      exact h.carry (carries_of_same rfl rfl rfl rfl) (.requests hops) h.await rfl (fun _ => id)
        (hnone hops rfl) fun l' hl' _ => ⟨hl', by simp [hsub]⟩

/-- The layer was requested, or its request is pending. -/
def Wanted (m : Machine) (l : Nat) : Prop :=
  m.layerStatus l ≠ .notLoaded ∨ .requestLayer l ∈ m.pending

/-- A layer that is wanted stays so. -/
theorem LoaderStep.wanted (hrt : rt.Streams) (hstep : LoaderStep rt m m') {l : Nat}
    (h : m.Wanted l) : m'.Wanted l := by
  have hrest : ∀ {op : Op} {ops : List Op}, m.pending = op :: ops →
      m.layerStatus l ≠ .notLoaded ∨ op = .requestLayer l ∨ .requestLayer l ∈ ops := by
    intro op ops hpending
    rcases h with hl | hmem
    · exact .inl hl
    · rw [hpending] at hmem
      exact .inr ((List.mem_cons.mp hmem).imp_left Eq.symm)
  cases hstep with
  | skip hpending _ hl =>
      rcases hrest hpending with hst | heq | hmem
      · exact .inl hst
      · cases heq
        exact .inl hl
      · exact .inr hmem
  | @announce l' ops hpending _ =>
      rcases hrest hpending with hst | heq | hmem
      · exact .inl (update_ne_notLoaded (by decide) hst)
      · cases heq
        refine .inl ?_
        show Function.update m.layerStatus l .loading l ≠ .notLoaded
        rw [Function.update_self]
        decide
      · exact .inr (List.mem_cons_of_mem _ hmem)
  | @submit l' ops hpending _ =>
      have hkeep : ∀ m'' : Machine, m''.pending = ops ∨ m''.pending = .send :: ops →
          (m.layerStatus l ≠ .notLoaded → m''.layerStatus l ≠ .notLoaded) → m''.Wanted l := by
        intro m'' hops hst
        rcases hrest hpending with hl | heq | hmem
        · exact .inl (hst hl)
        · cases heq
        · refine .inr ?_
          rcases hops with hops | hops
          · rw [hops]
            exact hmem
          · rw [hops]
            exact List.mem_cons_of_mem _ hmem
      rcases submitLayerLoad_cases (m := { m with pending := ops }) hrt l' with
        ⟨-, heq⟩ | ⟨-, heq⟩
      · rw [heq]
        exact hkeep _ (.inl rfl) (update_ne_notLoaded (by decide))
      · rw [heq]
        exact hkeep _ (.inr rfl) id
  | send _ => exact h
  | sent hpending _ =>
      rcases hrest hpending with hst | heq | hmem
      · exact .inl hst
      · cases heq
      · exact .inr hmem

/-- A step of a worker, or a wakeup: reads succeed, and a status at most becomes `Loaded`,
that of a layer with a batch. -/
structure WorkerStep (m m' : Machine) : Prop where
  carries : m.Carries m'
  pending : m'.pending = m.pending
  await : m'.await = m.await
  asked : m'.asked = m.asked
  selected : m'.selectedExperts = m.selectedExperts
  status : ∀ l, m'.layerStatus l = m.layerStatus l ∨
    m'.layerStatus l = .loaded ∧ ∃ b, layerOf m.io b = some l

theorem workerStep {lab : Label} (hlab : lab = .wake ∨ Label.OfWorker lab) (hfull : m.fullRead lab)
    (h : m.step rt lab = some m') : WorkerStep m m' := by
  cases lab with
  | event e => exact absurd hlab (by rintro (h | h) <;> cases h)
  | thread => exact absurd hlab (by rintro (h | h) <;> cases h)
  | wake =>
      simp only [Machine.step] at h
      split at h
      · cases h
        exact ⟨carries_of_same rfl rfl rfl rfl, rfl, rfl, rfl, rfl, fun _ => .inl rfl⟩
      · cases h
  | recv w =>
      obtain ⟨io, hio, rfl⟩ := Option.map_eq_some_iff.mp h
      exact ⟨carries_of_io (Pool.recv_quiet hio) (Pool.recv_spec hio).1, rfl, rfl, rfl, rfl,
        fun _ => .inl rfl⟩
  | pread w count =>
      have hc := carries_of_pread hfull h
      obtain ⟨j, r, rs, l, io, -, -, -, -, rfl⟩ := preadStep_spec h
      exact ⟨hc, rfl, rfl, rfl, rfl, fun _ => .inl rfl⟩
  | finish w =>
      have hc := carries_of_finish h
      obtain ⟨j, io, -, -, -, rfl⟩ := finishStep_spec h
      exact ⟨hc, rfl, rfl, rfl, rfl, fun _ => .inl rfl⟩
  | fire w =>
      have hc := carries_of_fire h
      obtain ⟨b, tag, io, -, htag, -, rfl⟩ := fireStep_spec h
      by_cases hupdate : tag.updateStatus = true
      · rw [if_pos hupdate] at hc ⊢
        refine ⟨hc, rfl, rfl, rfl, rfl, fun l => ?_⟩
        by_cases hl : l = tag.layerIdx
        · refine .inr ⟨?_, b, by rw [layerOf, htag, hl]; rfl⟩
          subst hl
          exact Function.update_self ..
        · exact .inl (Function.update_of_ne hl ..)
      · rw [if_neg hupdate] at hc ⊢
        exact ⟨hc, rfl, rfl, rfl, rfl, fun _ => .inl rfl⟩

theorem WorkerStep.keeps (hstep : WorkerStep m m') {l : Nat} (hl : m.layerStatus l ≠ .notLoaded) :
    m'.layerStatus l ≠ .notLoaded := by
  rcases hstep.status l with heq | ⟨heq, -⟩
  · rwa [heq]
  · rw [heq]
    decide

theorem Requested.worker (h : m.Requested cfg) (hstep : WorkerStep m m') : m'.Requested cfg := by
  have hsub : m'.submitting = m.submitting := by rw [submitting, submitting, hstep.pending]
  refine h.carry hstep.carries (h.loader.of_pending hstep.pending) (hstep.await.trans h.await)
    hstep.selected (fun _ => hstep.keeps) (fun l hl => ?_) fun l hl hne => ?_
  · exact hstep.keeps (h.announced l (hsub ▸ hl))
  · refine ⟨?_, hsub ▸ hne⟩
    rcases hstep.status l with heq | ⟨-, b, hb⟩
    · rwa [← heq]
    · exact h.batches b l hb

theorem LoaderStep.same (hrt : rt.Streams) (hstep : LoaderStep rt m m') :
    m'.asked = m.asked ∧ m'.readSince = m.readSince := by
  cases hstep with
  | @submit l ops _ _ =>
      rcases submitLayerLoad_cases (m := { m with pending := ops }) hrt l with
        ⟨-, heq⟩ | ⟨-, heq⟩
      · rw [heq]
        exact ⟨rfl, rfl⟩
      · rw [heq]
        exact ⟨rfl, rfl⟩
  | _ => exact ⟨rfl, rfl⟩

/-- Between operations, other requests become pending. -/
theorem Requested.requests (h : m.Requested cfg) {ops : List Op} {asked : Option Nat}
    {routed : Nat → Option (List Nat)} (hops : ∀ op ∈ ops, Op.IsLayer op) (hidle : m.Idle) :
    { m with pending := ops, asked := asked, routed := routed }.Requested cfg := by
  have hnone : { m with pending := ops, asked := asked, routed := routed }.submitting = none :=
    submitting_of_isLayer hops
  have hsub : m.submitting = none := submitting_of_nil hidle.1
  exact h.carry (carries_of_same rfl rfl rfl rfl) (.requests hops) h.await rfl (fun _ => id)
    (fun l hl => absurd (hnone.symm.trans hl) nofun) fun l hl _ => ⟨hl, by simp [hsub]⟩

theorem requested_start (rt : Runtime) (coActivation : CoActivationMatrix)
    (expertPool : Option ExpertPool) (workers : Nat) :
    (start rt coActivation expertPool workers).Requested cfg where
  loader := .requests nofun
  await := rfl
  unselected _ := rfl
  batches b l hb := by cases hb
  announced l hl := by cases hl
  requested l hl := absurd rfl hl

end Requested

end Machine

namespace Session

/-! ### The loading function and what follows it -/

structure Sound (rt : Runtime) (s : Session) : Prop where
  requested : s.machine.Requested rt.config
  /-- The flag is cleared at the end of the script. -/
  enabled : s.enabled = true → .disable ∈ s.script
  events : ∀ e, .run e ∈ s.script → e = .prefetchAllNvme ∨ ∃ l, e = .request l
  /-- Once `prefetch_all_nvme` was called, every NVMe layer is wanted. -/
  wanted : .run .prefetchAllNvme ∈ s.script ∨
    ∀ l ∈ rt.config.sortedNvmeLayers, s.machine.Wanted l
  /-- An NVMe layer of which a node was asked for was read. -/
  read : ∀ l, s.machine.asked = some l → l ∈ rt.config.nvmeLayers →
    ∀ r ∈ rt.config.layerRegions l, r ∈ s.machine.readSince l

section Sound
variable {rt : Runtime} {s s' : Session}

theorem isLayer_map (ls : List Nat) : ∀ op ∈ ls.map Op.requestLayer, Machine.Op.IsLayer op := by
  intro op hop
  obtain ⟨l, -, rfl⟩ := List.mem_map.mp hop
  trivial

/-- The layers just requested are wanted. -/
theorem wanted_of_map {m : Machine} {ls : List Nat} {l : Nat}
    (hpending : m.pending = ls.map .requestLayer) (hl : l ∈ ls) : m.Wanted l :=
  .inr (hpending ▸ List.mem_map.mpr ⟨l, hl, rfl⟩)

/-- Between operations a wanted layer was requested. -/
theorem requested_of_wanted {m : Machine} (hidle : m.Idle) {l : Nat} (h : m.Wanted l) :
    m.layerStatus l ≠ .notLoaded := by
  rcases h with hl | hmem
  · exact hl
  · rw [hidle.1] at hmem
    cases hmem

theorem Sound.load (h : s.Sound rt) (hrt : rt.Streams) (hstep : s.loadStep rt = some s') :
    s'.Sound rt := by
  have hstandard : (s.runtime rt).Standard := hrt.standard
  unfold loadStep at hstep
  split at hstep
  · next hidle =>
      have hsub : ∀ {o : LoadOp} {rest : List LoadOp}, s.script = o :: rest → ∀ e, .run e ∈ rest →
          e = .prefetchAllNvme ∨ ∃ l, e = .request l := fun hscript e he =>
        h.events e (hscript ▸ List.mem_cons_of_mem _ he)
      split at hstep
      · next e rest hscript =>
          obtain ⟨m, hm, rfl⟩ := Option.map_eq_some_iff.mp hstep
          have henabled : s.enabled = true → .disable ∈ rest := fun he => by
            have hmem := h.enabled he
            rw [hscript] at hmem
            exact (List.mem_cons.mp hmem).resolve_left (by simp)
          rcases h.events e (hscript ▸ List.mem_cons_self) with rfl | ⟨l, rfl⟩
          · simp only [Machine.handle, if_pos hstandard] at hm
            cases hm
            exact ⟨h.requested.requests (isLayer_map _) hidle, henabled, hsub hscript,
              .inr fun l hl => wanted_of_map rfl hl, h.read⟩
          · simp only [Machine.handle, if_pos hstandard] at hm
            cases hm
            refine ⟨h.requested.requests (isLayer_map [l]) hidle, henabled, hsub hscript, ?_,
              h.read⟩
            refine h.wanted.imp (fun hmem => ?_) fun hwanted l' hl' => ?_
            · rw [hscript] at hmem
              exact (List.mem_cons.mp hmem).resolve_left (by simp)
            · exact .inl (requested_of_wanted hidle (hwanted l' hl'))
      · next l rest hscript =>
          split at hstep
          · cases hstep
            refine ⟨h.requested, fun he => ?_, hsub hscript, ?_, h.read⟩
            · have hmem := h.enabled he
              rw [hscript] at hmem
              exact (List.mem_cons.mp hmem).resolve_left (by simp)
            · refine h.wanted.imp_left fun hmem => ?_
              rw [hscript] at hmem
              exact (List.mem_cons.mp hmem).resolve_left (by simp)
          · cases hstep
      · next rest hscript =>
          cases hstep
          refine ⟨h.requested, (fun he => by cases he), hsub hscript, ?_, h.read⟩
          refine h.wanted.imp_left fun hmem => ?_
          rw [hscript] at hmem
          exact (List.mem_cons.mp hmem).resolve_left (by simp)
      · cases hstep
  · cases hstep

/-- A node of an NVMe layer is asked for: what was not read of the layer would be in a task. -/
theorem Sound.read_of_landed (h : s.Sound rt)
    (hsorted : ∀ l ∈ rt.config.nvmeLayers, l ∈ rt.config.sortedNvmeLayers)
    (hscript : s.script = []) (hidle : s.machine.Idle) {l : Nat}
    (hlanded : s.landed rt (.of (.event (.ask l)))) (hl : l ∈ rt.config.nvmeLayers) {r : Region}
    (hr : r ∈ rt.config.layerRegions l) : r ∈ s.machine.readSince l := by
  have hwanted : s.machine.Wanted l := by
    rcases h.wanted with hmem | hall
    · rw [hscript] at hmem
      cases hmem
    · exact hall l (hsorted l hl)
  have hsub : s.machine.submitting ≠ some l := by
    rw [Machine.submitting_of_nil hidle.1]
    nofun
  rcases h.requested.requested l (requested_of_wanted hidle hwanted) hsub r hr with
    hread | ⟨b, hb, j, hj, rfl, hin⟩
  · exact hread
  · have hnone : j.payload.regions = [] := by
      have hall := (Bool.or_eq_true_iff.mp hlanded).resolve_left (by simpa using hl)
      have hj := List.all_eq_true.mp hall j hj
      simpa [hb] using hj
    rw [hnone] at hin
    cases hin

theorem Sound.event (h : s.Sound rt) (hrt : rt.Streams)
    (hsorted : ∀ l ∈ rt.config.nvmeLayers, l ∈ rt.config.sortedNvmeLayers)
    (hscript : s.script = []) {e : Event} (he : e.OfGeneration)
    (hlanded : s.landed rt (.of (.event e))) {m : Machine}
    (hstep : s.machine.step (s.runtime rt) (.event e) = some m) :
    { s with machine := m }.Sound rt := by
  have hstandard : (s.runtime rt).Standard := hrt.standard
  have hoff : ¬ (s.runtime rt).prefetchEnabled := by
    intro hon
    have hmem := h.enabled hon
    rw [hscript] at hmem
    cases hmem
  have hall : ∀ l ∈ rt.config.sortedNvmeLayers, s.machine.Wanted l := by
    rcases h.wanted with hmem | hall
    · rw [hscript] at hmem
      cases hmem
    · exact hall
  simp only [Machine.step] at hstep
  split at hstep
  · next hidle =>
      -- the callback returns at once: at most what is asked for changes
      have hquiet : ∀ (asked : Option Nat) (routed : Nat → Option (List Nat)),
          (∀ l, asked = some l → l ∈ rt.config.nvmeLayers →
            ∀ r ∈ rt.config.layerRegions l, r ∈ s.machine.readSince l) →
          Sound rt { s with machine := { s.machine with asked := asked, routed := routed } } := by
        intro asked routed hread
        have hsame : { s.machine with asked := asked, routed := routed } =
            { s.machine with pending := [], asked := asked, routed := routed } := by
          rw [← hidle.1]
        refine ⟨?_, h.enabled, h.events, .inr hall, hread⟩
        rw [hsame]
        exact h.requested.requests (by simp) hidle
      cases e with
      | ask l =>
          simp only [Machine.handle, Machine.askCallback] at hstep
          split at hstep
          · rw [if_pos (.inl hoff)] at hstep
            cases hstep
            refine hquiet (some l) s.machine.routed fun l' hl' hnvme r hr => ?_
            cases hl'
            exact h.read_of_landed hsorted hscript hidle hlanded hnvme hr
          · cases hstep
      | done lookaheadMax =>
          obtain ⟨l, -, rfl⟩ := Option.map_eq_some_iff.mp hstep
          rw [Machine.doneCallback, if_pos (.inl hoff)]
          exact hquiet none s.machine.routed fun l' hl' => by cases hl'
      | doneRouter t =>
          obtain ⟨l, -, rfl⟩ := Option.map_eq_some_iff.mp hstep
          rw [if_neg hoff]
          exact hquiet none s.machine.routed fun l' hl' => by cases hl'
      | token =>
          simp only [Machine.handle] at hstep
          split at hstep
          · cases hstep
            exact hquiet s.machine.asked _ h.read
          · cases hstep
      | prefetchAllNvme =>
          simp only [Machine.handle, if_pos hstandard] at hstep
          cases hstep
          exact ⟨h.requested.requests (isLayer_map _) hidle, h.enabled, h.events,
            .inr fun l hl => wanted_of_map rfl hl, h.read⟩
      | _ => cases he
  · cases hstep

/-- A step of the thread or of a worker. -/
theorem Sound.machine (h : s.Sound rt) {m : Machine} (hrequested : m.Requested rt.config)
    (hwanted : ∀ l, s.machine.Wanted l → m.Wanted l) (hasked : m.asked = s.machine.asked)
    (hread : ∀ l r, r ∈ s.machine.readSince l → r ∈ m.readSince l) :
    { s with machine := m }.Sound rt where
  requested := hrequested
  enabled := h.enabled
  events := h.events
  wanted := h.wanted.imp_right fun hall l hl => hwanted l (hall l hl)
  read l hl hnvme r hr := hread l r (h.read l (hasked ▸ hl) hnvme r hr)

theorem Sound.step (h : s.Sound rt) (hrt : rt.Streams)
    (hsorted : ∀ l ∈ rt.config.nvmeLayers, l ∈ rt.config.sortedNvmeLayers) {lab : SessionLabel}
    (hfull : s.fullRead lab) (hlanded : s.landed rt lab) (hstep : s.step rt lab = some s') :
    s'.Sound rt := by
  cases lab with
  | load => exact h.load hrt hstep
  | of lab =>
      have hworker : ∀ {m : Machine}, lab = .wake ∨ Machine.Label.OfWorker lab →
          s.machine.step (s.runtime rt) lab = some m → { s with machine := m }.Sound rt := by
        intro m hlab hm
        have hw := Machine.workerStep hlab hfull hm
        refine h.machine (h.requested.worker hw) (fun l => ?_) hw.asked hw.carries.readSince
        exact Or.imp hw.keeps fun hmem => hw.pending ▸ hmem
      cases lab with
      | event e =>
          simp only [Session.step] at hstep
          split at hstep
          · next hcond =>
              obtain ⟨hscript, he⟩ := Bool.and_eq_true_iff.mp hcond
              obtain ⟨m, hm, rfl⟩ := Option.map_eq_some_iff.mp hstep
              exact h.event hrt hsorted (List.isEmpty_iff.mp hscript) he hlanded hm
          · cases hstep
      | thread =>
          obtain ⟨m, hm, rfl⟩ := Option.map_eq_some_iff.mp hstep
          have hthread : s.machine.threadStep rt = some m := hm
          have hl := Machine.loaderStep h.requested.loader h.requested.await hthread
          obtain ⟨hasked, hread⟩ := hl.same hrt
          exact h.machine (h.requested.loader_step hrt hl) (fun l => hl.wanted hrt) hasked
            fun l r hr => hread ▸ hr
      | wake =>
          obtain ⟨m, hm, rfl⟩ := Option.map_eq_some_iff.mp hstep
          exact hworker (.inl rfl) hm
      | recv w =>
          obtain ⟨m, hm, rfl⟩ := Option.map_eq_some_iff.mp hstep
          exact hworker (.inr trivial) hm
      | pread w count =>
          obtain ⟨m, hm, rfl⟩ := Option.map_eq_some_iff.mp hstep
          exact hworker (.inr trivial) hm
      | finish w =>
          obtain ⟨m, hm, rfl⟩ := Option.map_eq_some_iff.mp hstep
          exact hworker (.inr trivial) hm
      | fire w =>
          obtain ⟨m, hm, rfl⟩ := Option.map_eq_some_iff.mp hstep
          exact hworker (.inr trivial) hm

theorem sound_start (rt : Runtime) (coActivation : CoActivationMatrix)
    (expertPool : Option ExpertPool) (workers : Nat) (ramLayers : List Nat) :
    (start rt coActivation expertPool workers ramLayers).Sound rt where
  requested := Machine.requested_start rt coActivation expertPool workers
  enabled _ := List.mem_append_right _ (List.mem_cons_of_mem _ List.mem_cons_self)
  events e he := by
    rcases List.mem_append.mp he with he | he
    · rcases List.mem_append.mp he with he | he
      · obtain ⟨l, -, heq⟩ := List.mem_map.mp he
        cases heq
        exact .inr ⟨l, rfl⟩
      · obtain ⟨l, -, heq⟩ := List.mem_map.mp he
        cases heq
    · rcases List.mem_cons.mp he with heq | he
      · cases heq
        exact .inl rfl
      · rcases List.mem_cons.mp he with heq | he
        · cases heq
        · cases he
  wanted := .inl (List.mem_append_right _ List.mem_cons_self)
  read l hl := by cases hl

/-- **With the callback switched off, a node of an NVMe layer finds the layer read** in
every run in which it is asked for when no task of the layer has a region left. -/
theorem keepResident_read {gguf : GgufFile} {map : TensorMap} {sidecar : Option Sidecar}
    {numLayers : Nat} {nvmeLayers : Finset Nat} {coActivation : CoActivationMatrix}
    {expertPool : Option ExpertPool} {workers : Nat} {ramLayers : List Nat} (hrt : rt.Streams)
    (hcfg : rt.config = buildPrefetchState gguf map sidecar numLayers nvmeLayers)
    (h : Reaches (Session.step rt) (fun s lab => s.fullRead lab && s.landed rt lab)
      (start rt coActivation expertPool workers ramLayers) s) :
    ∀ l ∈ rt.config.nvmeLayers, s.enabled = false → s.machine.asked = some l →
      ∀ r ∈ rt.config.layerRegions l, r ∈ s.machine.readSince l := by
  have hsorted : ∀ l ∈ rt.config.nvmeLayers, l ∈ rt.config.sortedNvmeLayers := by
    intro l hl
    rw [hcfg] at hl ⊢
    exact (Finset.mem_sort _).mpr hl
  have hsound : s.Sound rt := by
    refine h.invariant (P := Session.Sound rt) (sound_start rt _ _ _ _) ?_
    intro s lab s' hs hok hstep
    obtain ⟨hfull, hlanded⟩ := Bool.and_eq_true_iff.mp hok
    exact hs.step hrt hsorted hfull hlanded hstep
  exact fun l hl _ hasked => hsound.read l hasked hl

end Sound

end Session

/-! ### One NVMe layer -/

/-- The two layers of before, with room to keep layer 0 in memory. -/
def roomyRuntime : Runtime := { gateRuntime with keepNvmeResident := true }

def roomyStart : Session := .start roomyRuntime (.new 2 2) none 1 []

/-- Layer 0 is requested and its task sent, and the callback is switched off. -/
def loadRoomy : List SessionLabel :=
  [.load, .of .thread, .of .thread, .of .thread, .of .thread, .load]

/-- The worker reads the layer before its first node is asked for. -/
theorem roomy_read : ∃ s, exec (Session.step roomyRuntime)
    (fun s lab => s.fullRead lab && s.landed roomyRuntime lab) roomyStart
    (loadRoomy ++ [.of (.recv 0), .of (.pread 0 4), .of (.event (.ask 0))]) = some s ∧
      s.enabled = false ∧ s.machine.asked = some 0 ∧
      ∀ l ∈ roomyRuntime.config.nvmeLayers, s.enabled = false → s.machine.asked = some l →
        ∀ r ∈ roomyRuntime.config.layerRegions l, r ∈ s.machine.readSince l := by
  have hrun : (exec (Session.step roomyRuntime)
      (fun s lab => s.fullRead lab && s.landed roomyRuntime lab) roomyStart
      (loadRoomy ++ [.of (.recv 0), .of (.pread 0 4), .of (.event (.ask 0))])).map
      (fun s => (s.enabled, s.machine.asked)) = some (false, some 0) := by decide +kernel
  obtain ⟨s, hs, heq⟩ := Option.map_eq_some_iff.mp hrun
  obtain ⟨hoff, hasked⟩ := Prod.mk.inj heq
  exact ⟨s, hs, hoff, hasked, Session.keepResident_read ⟨⟨rfl, rfl⟩, rfl, rfl, rfl⟩ rfl
    (Reaches.exec (fun _ _ => id) .refl hs)⟩

/-- Or it has not come to it: the node is computed on memory that was never read. -/
theorem roomy_unread : ∃ s, Reaches (Session.step roomyRuntime) (fun s lab => s.fullRead lab)
    roomyStart s ∧ s.enabled = false ∧ s.machine.asked = some 0 ∧
      0 ∈ roomyRuntime.config.nvmeLayers ∧
      ∃ r ∈ roomyRuntime.config.layerRegions 0, r ∉ s.machine.readSince 0 := by
  have hrun : (exec (Session.step roomyRuntime) Session.fullRead roomyStart
      (loadRoomy ++ [.of (.event (.ask 0))])).map
      (fun s => (s.enabled, s.machine.asked, s.machine.readSince 0)) =
        some (false, some 0, []) := by decide +kernel
  obtain ⟨s, hs, heq⟩ := Option.map_eq_some_iff.mp hrun
  simp only [Prod.mk.injEq] at heq
  obtain ⟨hoff, hasked, hread⟩ := heq
  have hregions : roomyRuntime.config.layerRegions 0 = [⟨0, 4, 128⟩] := by decide +kernel
  refine ⟨s, Reaches.exec (fun _ _ => id) .refl hs, hoff, hasked, by decide +kernel,
    ⟨0, 4, 128⟩, by simp [hregions], by simp [hread]⟩

end Hypura
