import Hypura.Compute.Plan
import Hypura.Compute.StandardStep

/-!
# Hypura.Compute.PoolStep

What one step of the system, in any mode, does to the I/O pool and to the neuron cache.

Whatever the kind of load, its tasks go to the pool through `submitTasks`, and the slices
it marks in the cache are those its tasks read. `PoolStep` says so once for all loads:
full layers and slices, pooled experts, dense and resident FFN tensors.
-/

namespace Hypura

open Hypura.Core Hypura.Core.Countdown

/-- The region is the file range of expert `e` of the tensor, read to wherever. -/
def ExpertLayout.IsSlice (layout : ExpertLayout) (e : Nat) (r : Region) : Prop :=
  r.size = layout.expertStride ∧ r.fileOffset = layout.expertFileOffset e

instance (layout : ExpertLayout) (e : Nat) (r : Region) : Decidable (layout.IsSlice e r) :=
  inferInstanceAs (Decidable (_ ∧ _))

/-- The cache key is that of a slice among the regions. -/
def KeyIn (cfg : PrefetchConfig) (key : CacheKey) (rs : List Region) : Prop :=
  ∃ layout ∈ cfg.expertLayouts key.1, key.2.2 = layout.tensorType ∧
    ∃ r ∈ rs, layout.IsSlice key.2.1 r

/-- A load of dense FFN tensors that is still to be submitted has some tensor to read. -/
def Op.Grounded (rt : Runtime) : Op → Prop
  | .loadDenseFfn l => rt.config.denseFfnLayouts l ≠ []
  | _ => True

theorem Op.IsRequest.grounded {rt : Runtime} {op : Op} (h : op.IsRequest) : op.Grounded rt := by
  cases op with
  | loadDenseFfn l => exact absurd h id
  | _ => trivial

namespace Machine

/-! ### Effects -/

/-- Nothing is submitted, nothing marked, and no layer becomes loaded. -/
structure Still (rt : Runtime) (m m' : Machine) : Prop where
  io : m'.io = m.io
  submitted : m'.submitted = m.submitted
  preads : m'.preads = m.preads
  cache : ∀ key ∈ m'.neuronCache.entries, key ∈ m.neuronCache.entries
  loaded : ∀ l, m'.layerStatus l = .loaded → m.layerStatus l = .loaded
  ops : ∀ op ∈ m'.pending, op ∈ m.pending ∨ op.Grounded rt

/-- Tasks are submitted, and the slices marked are in them. -/
structure Submits (rt : Runtime) (m : Machine) (c : IoCompletion) (base : Base)
    (tasks : List (List Region)) (m' : Machine) : Prop where
  nonempty : tasks ≠ []
  io : m'.io = m.io.openBatch c (tasks.map (⟨·, base, []⟩))
  submitted : m'.submitted = m.submitted ++ [tasks]
  preads : m'.preads = m.preads
  cache : ∀ key ∈ m'.neuronCache.entries,
    key ∈ m.neuronCache.entries ∨ KeyIn rt.config key tasks.flatten
  loaded : ∀ l, m'.layerStatus l = .loaded → m.layerStatus l = .loaded
  ops : ∀ op ∈ m'.pending, op ∈ m.pending ∨ op.Grounded rt

/-- What one step can do. -/
inductive PoolStep (rt : Runtime) (m : Machine) : Label → Machine → Prop
  | still {lab : Label} {m' : Machine} (h : Still rt m m') : PoolStep rt m lab m'
  | submit {lab : Label} {c : IoCompletion} {base : Base} {tasks : List (List Region)}
      {m' : Machine} (h : Submits rt m c base tasks m') : PoolStep rt m lab m'
  /-- A layer is loaded at once: there is nothing to read. -/
  | nothing {l : Nat} {ops : List Op} {m' : Machine} (hpending : m.pending = .submitLayer l :: ops)
      (hnil : (planLayer rt m l).tasks = []) (h : Still rt m { m' with layerStatus := m.layerStatus })
      (hstatus : m'.layerStatus = Function.update m.layerStatus l .loaded) :
      PoolStep rt m .thread m'
  | send {io : IoPool} (h : m.io.send = some io) : PoolStep rt m .thread { m with io := io }
  | recv {w : Nat} {io : IoPool} (h : m.io.recv w = some io) :
      PoolStep rt m (.recv w) { m with io := io }
  | pread {w count : Nat} {m' : Machine} (h : m.preadStep rt w count = some m') :
      PoolStep rt m (.pread w count) m'
  | finish {w : Nat} {m' : Machine} (h : m.finishStep w = some m') :
      PoolStep rt m (.finish w) m'
  | fire {w : Nat} {m' : Machine} (h : m.fireStep w = some m') : PoolStep rt m (.fire w) m'

section Effects
variable {rt : Runtime} {m m' : Machine} {l : Nat}

theorem Still.refl : Still rt m m :=
  ⟨rfl, rfl, rfl, fun _ => id, fun _ => id, fun _ => .inl⟩

theorem Still.trans {m₁ : Machine} (h : Still rt m m₁) (h' : Still rt m₁ m') : Still rt m m' where
  io := h'.io.trans h.io
  submitted := h'.submitted.trans h.submitted
  preads := h'.preads.trans h.preads
  cache key hkey := h.cache key (h'.cache key hkey)
  loaded l hl := h.loaded l (h'.loaded l hl)
  ops op hop := (h'.ops op hop).elim (h.ops op) .inr

/-- A step of the thread that only changes what is pending. -/
theorem Still.of_pending {ops : List Op} (hio : m'.io = m.io) (hsubmitted : m'.submitted = m.submitted)
    (hpreads : m'.preads = m.preads) (hcache : m'.neuronCache = m.neuronCache)
    (hstatus : m'.layerStatus = m.layerStatus) (hpending : m'.pending = ops)
    (hops : ∀ op ∈ ops, op ∈ m.pending ∨ op.Grounded rt) : Still rt m m' :=
  ⟨hio, hsubmitted, hpreads, fun _ hkey => hcache ▸ hkey, fun _ hl => hstatus ▸ hl,
    fun op hop => hops op (hpending ▸ hop)⟩

theorem loaded_of_update {status : Nat → LayerStatus} {st : LayerStatus} (hst : st ≠ .loaded)
    {l' : Nat} (h : Function.update status l st l' = .loaded) : status l' = .loaded := by
  by_cases hl : l' = l
  · subst hl
    rw [Function.update_self] at h
    exact absurd h hst
  · rwa [Function.update_of_ne hl] at h

/-! ### Loads into the buffer -/

/-- A key that a load by expert adds to the cache is that of a slice it reads. -/
theorem keyIn_of_planSlices {ids : List Nat} {key : CacheKey}
    (h : key ∈ (planSlices rt.config m.neuronCache l ids).cache.entries) :
    key ∈ m.neuronCache.entries ∨
      KeyIn rt.config key (planSlices rt.config m.neuronCache l ids).tasks.flatten := by
  refine (mem_planSlices_cache h).imp_right fun ⟨layout, hm, e, hkey, hr⟩ => ?_
  subst hkey
  exact ⟨layout, hm, rfl, _, hr, rfl, rfl⟩

theorem keyIn_of_planLayer {key : CacheKey} (h : key ∈ (planLayer rt m l).cache.entries) :
    key ∈ m.neuronCache.entries ∨ KeyIn rt.config key (planLayer rt m l).tasks.flatten := by
  refine (mem_planLayer_cache h).imp_right fun ⟨layout, hm, e, hkey, hr⟩ => ?_
  subst hkey
  exact ⟨layout, hm, rfl, _, hr, rfl, rfl⟩

/-- A key added by tasks that read nothing is no key. -/
theorem mem_of_keyIn_nil {key : CacheKey} {tasks : List (List Region)} (hnil : tasks = [])
    (h : key ∈ m.neuronCache.entries ∨ KeyIn rt.config key tasks.flatten) :
    key ∈ m.neuronCache.entries := by
  rcases h with hold | ⟨layout, hm, hty, r, hr, hslice⟩
  · exact hold
  · rw [hnil] at hr
    cases hr

theorem poolStep_submitLayer (hpool : rt.ioPoolStarted = true) {ops : List Op}
    (hpending : m.pending = .submitLayer l :: ops) :
    PoolStep rt m .thread ({ m with pending := ops }.submitLayerLoad rt l) := by
  have hops : ∀ op ∈ ops, op ∈ m.pending ∨ op.Grounded rt := fun op hop =>
    .inl (hpending ▸ List.mem_cons_of_mem _ hop)
  unfold submitLayerLoad
  split
  · exact .still (.of_pending rfl rfl rfl rfl rfl rfl hops)
  · dsimp only
    by_cases hnil : (planLayer rt m l).tasks = []
    · have hnil' : (planLayer rt { m with pending := ops } l).tasks = [] := hnil
      rw [if_pos hnil']
      refine .nothing hpending hnil ⟨rfl, rfl, rfl, fun key hkey => ?_, fun _ => id, hops⟩ rfl
      exact mem_of_keyIn_nil hnil (keyIn_of_planLayer hkey)
    · have hne : ¬ (planLayer rt { m with pending := ops } l).tasks = [] := hnil
      rw [if_neg hne, submitTasks_of_started hpool]
      refine .submit ⟨hnil, rfl, rfl, rfl, fun key hkey => keyIn_of_planLayer hkey, fun _ => id, ?_⟩
      intro op hop
      rcases List.mem_cons.mp hop with rfl | hop
      · exact .inr trivial
      · exact hops op hop

theorem poolStep_requestExperts (hpool : rt.ioPoolStarted = true) {ids : List Nat} {ops : List Op}
    (hpending : m.pending = .requestExperts l ids :: ops) :
    PoolStep rt m .thread ({ m with pending := ops }.submitExpertLoad rt l ids) := by
  have hops : ∀ op ∈ ops, op ∈ m.pending ∨ op.Grounded rt := fun op hop =>
    .inl (hpending ▸ List.mem_cons_of_mem _ hop)
  unfold submitExpertLoad
  split
  · exact .still (.of_pending rfl rfl rfl rfl rfl rfl hops)
  · dsimp only
    by_cases hnil : (planSlices rt.config m.neuronCache l ids).tasks = []
    · rw [if_pos hnil]
      refine .still ⟨rfl, rfl, rfl, fun key hkey => ?_, fun _ => id, hops⟩
      exact mem_of_keyIn_nil hnil (keyIn_of_planSlices hkey)
    · rw [if_neg hnil, submitTasks_of_started hpool]
      refine .submit ⟨hnil, rfl, rfl, rfl, fun key hkey => keyIn_of_planSlices hkey, fun _ => id,
        ?_⟩
      intro op hop
      rcases List.mem_cons.mp hop with rfl | hop
      · exact .inr trivial
      · exact hops op hop

/-! ### Loads into slots -/

theorem probeLayouts_entries (l eid : Nat) :
    ∀ (layouts : List ExpertLayout) (cache : NeuronCache),
      (probeLayouts l eid layouts cache).2.entries = cache.entries
  | [], _ => rfl
  | layout :: rest, cache => by
      rw [probeLayouts]
      split
      · rw [probeLayouts_entries l eid rest, NeuronCache.isLoaded_entries]
      · exact NeuronCache.isLoaded_entries _ _

/-- Asking which slices are missing marks none. -/
theorem probeExperts_entries (l : Nat) (layouts : List ExpertLayout) :
    ∀ (ids : List Nat) (cache : NeuronCache),
      (probeExperts l layouts ids cache).2.entries = cache.entries
  | [], _ => rfl
  | eid :: ids, cache => by
      rw [probeExperts]
      split
      · exact probeLayouts_entries l eid layouts cache
      · rw [probeExperts_entries l layouts ids, probeLayouts_entries]

theorem mem_of_mem_foldl_evictLayer {key : CacheKey} :
    ∀ {layers : List Nat} {cache : NeuronCache},
      key ∈ (layers.foldl NeuronCache.evictLayer cache).entries → key ∈ cache.entries
  | [], _, h => h
  | _ :: _, _, h => (NeuronCache.mem_evictLayer.mp (mem_of_mem_foldl_evictLayer h)).1

/-- Slots are taken for a layer: the pool of slots and memory change, nothing else. -/
theorem allocate_spec {n : Nat} {offsets : List Nat} (h : m.allocate rt l n = some (offsets, m')) :
    n ≤ offsets.length ∧ ∃ pool memory, m' = { m with expertPool := pool, memory := memory } := by
  unfold allocate at h
  obtain ⟨p, -, h⟩ := Option.bind_eq_some_iff.mp h
  obtain ⟨⟨offsets', p'⟩, -, h⟩ := Option.bind_eq_some_iff.mp h
  dsimp only at h
  split at h
  · cases h
  · next hlen =>
      cases h
      exact ⟨Nat.le_of_not_lt hlen, _, _, rfl⟩

/-- `load_experts_pooled`: the slices missing are submitted, or there are none. -/
theorem loadExpertsPooled_spec (hpool : rt.ioPoolStarted = true) {ids : List Nat}
    (h : m.loadExpertsPooled rt l ids = some m') :
    Still rt m m' ∨ ∃ tasks, Submits rt m ⟨l, true⟩ .pool tasks m' := by
  unfold loadExpertsPooled at h
  obtain ⟨p, -, h⟩ := Option.bind_eq_some_iff.mp h
  obtain ⟨⟨offsets, m₁⟩, halloc, h⟩ := Option.bind_eq_some_iff.mp h
  obtain ⟨-, pool, memory, rfl⟩ := allocate_spec halloc
  dsimp only [rewritePtrs] at h
  generalize hcache : (evictedLayers p l (rt.config.expertLayouts l).length).foldl
    NeuronCache.evictLayer m.neuronCache = cache at h
  have hold : ∀ key ∈ cache.entries, key ∈ m.neuronCache.entries := fun key hkey =>
    mem_of_mem_foldl_evictLayer (hcache ▸ hkey)
  -- every slice is of a layout of the layer, wherever its slot is
  have hkeys : ∀ f : ExpertLayout × Nat → ExpertLayout × (Nat → Region),
      (∀ layout offset, f (layout, offset) = (layout, layout.pooledRegion offset)) →
      ∀ key ∈ (expertTasks l ids (((rt.config.expertLayouts l).zip offsets).map f) cache).1.entries,
        key ∈ m.neuronCache.entries ∨ KeyIn rt.config key
          (expertTasks l ids (((rt.config.expertLayouts l).zip offsets).map f) cache).2.flatten := by
    intro f hf key hkey
    rcases mem_expertTasks_entries hkey with hkey | ⟨q, hq, e, -, -, rfl, hr⟩
    · exact .inl (hold key hkey)
    · obtain ⟨⟨layout, offset⟩, hmem, rfl⟩ := List.mem_map.mp hq
      rw [hf] at hr ⊢
      exact .inr ⟨layout, (List.of_mem_zip hmem).1, rfl, _, hr, rfl, rfl⟩
  split at h
  · next hnil =>
      cases h
      exact .inl ⟨rfl, rfl, rfl, fun key hkey => mem_of_keyIn_nil hnil
        (hkeys _ (fun _ _ => rfl) key hkey), fun _ => id, fun _ => .inl⟩
  · next hne =>
      cases h
      rw [submitTasks_of_started hpool]
      refine .inr ⟨_, hne, rfl, rfl, rfl, hkeys _ fun _ _ => rfl,
        fun _ => loaded_of_update (by decide), ?_⟩
      intro op hop
      rcases List.mem_cons.mp hop with rfl | hop
      · exact .inr trivial
      · exact .inl hop

/-- `ensure_experts_loaded`. -/
theorem ensureExpertsLoaded_spec (hpool : rt.ioPoolStarted = true) {ids : List Nat}
    (h : m.ensureExpertsLoaded rt l ids = some m') :
    Still rt m m' ∨ ∃ tasks, Submits rt m ⟨l, true⟩ .pool tasks m' := by
  unfold ensureExpertsLoaded at h
  dsimp only at h
  have hentries := probeExperts_entries l (rt.config.expertLayouts l) ids m.neuronCache
  have hprobed : Still rt m
      { m with neuronCache := (probeExperts l (rt.config.expertLayouts l) ids m.neuronCache).2 } :=
    ⟨rfl, rfl, rfl, fun key hkey => hentries ▸ hkey, fun _ => id, fun _ => .inl⟩
  split at h
  · cases h
    exact .inl .refl
  · split at h
    · rcases loadExpertsPooled_spec hpool h with hstill | ⟨tasks, hsub⟩
      · exact .inl (hprobed.trans hstill)
      · exact .inr ⟨tasks, hsub.nonempty, hsub.io, hsub.submitted, hsub.preads,
          fun key hkey => (hsub.cache key hkey).imp_left fun hk => hentries ▸ hk, hsub.loaded,
          hsub.ops⟩
    · cases h
      refine .inl ?_
      unfold rewriteToSlots
      split
      · exact hprobed
      · split
        · exact hprobed
        · exact ⟨rfl, rfl, rfl, hprobed.cache, fun _ => id, fun _ => .inl⟩

/-- `submit_dense_ffn`: some tensor is read, if the layer has any. -/
theorem submitDenseFfn_spec (hpool : rt.ioPoolStarted = true)
    (hne : rt.config.denseFfnLayouts l ≠ []) (h : m.submitDenseFfn rt l = some m') :
    ∃ tasks, Submits rt m ⟨l, true⟩ .pool tasks m' := by
  unfold submitDenseFfn at h
  obtain ⟨⟨offsets, m₁⟩, halloc, h⟩ := Option.bind_eq_some_iff.mp h
  obtain ⟨hlen, pool, memory, rfl⟩ := allocate_spec halloc
  cases h
  rw [submitTasks_of_started hpool]
  refine ⟨_, fun hnil => ?_, rfl, rfl, rfl, fun _ => .inl, fun _ => loaded_of_update (by decide),
    fun op hop => ?_⟩
  · have hlength := congrArg List.length hnil
    rw [denseTasks, List.length_map, List.length_zip, List.length_nil] at hlength
    have hpos := List.length_pos_of_ne_nil hne
    omega
  · rcases List.mem_cons.mp hop with rfl | hop
    · exact .inr trivial
    · exact .inl hop

theorem mem_residentPlaces_names {layouts : List DenseFfnLayout} {layout : DenseFfnLayout}
    (h : layout ∈ layouts) (total : Nat) :
    layout.tensorName ∈ (residentPlaces layouts total).map (·.1) := by
  induction layouts generalizing total with
  | nil => cases h
  | cons first rest ih =>
      rw [residentPlaces, List.map_cons]
      rcases List.mem_cons.mp h with rfl | h
      · exact List.mem_cons_self
      · exact List.mem_cons_of_mem _ (ih h _)

/-- Every tensor of the first `n` layers has a place in the resident buffer. -/
theorem exists_residentOffset {cfg : PrefetchConfig} {n : Nat} {layout : DenseFfnLayout}
    (h : layout ∈ residentLayouts cfg n) :
    ∃ offset, residentOffset cfg n layout.tensorName = some offset := by
  rw [← Option.isSome_iff_exists, residentOffset, List.lookup_isSome_iff]
  obtain ⟨⟨name, offset⟩, hin, hname⟩ := List.mem_map.mp (mem_residentPlaces_names h 0)
  exact ⟨_, List.mem_reverse.mpr hin, by simpa using hname.symm⟩

theorem residentTasks_ne_nil {cfg : PrefetchConfig} {n : Nat} (h : residentLayouts cfg n ≠ []) :
    residentTasks cfg n ≠ [] := by
  obtain ⟨layout, hm⟩ := List.exists_mem_of_ne_nil _ h
  obtain ⟨offset, hoffset⟩ := exists_residentOffset hm
  exact List.ne_nil_of_mem (List.mem_filterMap.mpr ⟨layout, hm, by rw [hoffset]; rfl⟩)

/-- `activate_resident_ffn`. -/
theorem activateResidentFfn_spec (hpool : rt.ioPoolStarted = true) (n : Nat) :
    Still rt m (m.activateResidentFfn rt n) ∨
      ∃ c tasks, Submits rt m c .resident tasks (m.activateResidentFfn rt n) := by
  unfold activateResidentFfn
  dsimp only
  split
  · exact .inl .refl
  · next hsum =>
      rw [submitTasks_of_started hpool]
      refine .inr ⟨_, _, residentTasks_ne_nil fun hnil => hsum ?_, rfl, rfl, rfl, fun _ => .inl,
        fun _ => loaded_of_update (by decide), fun op hop => .inr ?_⟩
      · rw [hnil]
        rfl
      · rcases List.mem_cons.mp hop with rfl | hop
        · trivial
        · rw [List.mem_singleton.mp hop]
          trivial

/-! ### Operations that submit nothing -/

theorem Still.of_status {st : LayerStatus} (hst : st ≠ .loaded) : Still rt m (m.setStatus l st) :=
  ⟨rfl, rfl, rfl, fun _ => id, fun _ => loaded_of_update hst, fun _ => .inl⟩

/-- Further operations are put before those pending. -/
theorem pending_or_grounded {ops : List Op} (hops : ∀ op ∈ ops, op.Grounded rt) :
    ∀ op ∈ ops ++ m.pending, op ∈ m.pending ∨ op.Grounded rt := by
  intro op hop
  rcases List.mem_append.mp hop with hop | hop
  · exact .inr (hops op hop)
  · exact .inl hop

/-- One operation is put before those pending. -/
theorem pending_or_head {op : Op} (hground : op.Grounded rt) :
    ∀ op' ∈ op :: m.pending, op' ∈ m.pending ∨ op'.Grounded rt :=
  pending_or_grounded (by simpa using hground : ∀ op' ∈ [op], op'.Grounded rt)

theorem ensureLayer_still (h : exec rt m (.ensureLayer l) = some m') : Still rt m m' := by
  simp only [exec] at h
  split at h
  · cases h
    exact .refl
  · cases h
    exact .of_pending rfl rfl rfl rfl rfl rfl (pending_or_head trivial)
  · cases h
    -- it is put into `Loading` before the load is submitted
    have hset : Still rt m (m.setStatus l .loading) := .of_status (by decide)
    exact hset.trans (.of_pending rfl rfl rfl rfl rfl rfl (pending_or_head trivial))

theorem requestLayer_still (h : exec rt m (.requestLayer l) = some m') : Still rt m m' := by
  simp only [exec] at h
  split at h
  · cases h
    have hset : Still rt m (m.setStatus l .loading) := .of_status (by decide)
    exact hset.trans (.of_pending rfl rfl rfl rfl rfl rfl (pending_or_head trivial))
  · cases h
    exact .refl

theorem speculate_still (h : exec rt m (.speculate l) = some m') : Still rt m m' := by
  have hspec : ∃ eligible, m.speculate rt l eligible = some m' := by
    simp only [exec] at h
    split at h
    · exact ⟨_, h⟩
    · exact ⟨_, h⟩
  obtain ⟨eligible, hspec⟩ := hspec
  obtain ⟨coAct, prev, ops, hops, rfl⟩ := speculate_spec hspec
  exact .of_pending rfl rfl rfl rfl rfl rfl
    (pending_or_grounded fun op hop => by
      obtain ⟨k, ids, rfl⟩ := hops op hop
      trivial)

theorem ensureDenseFfnLoaded_still : Still rt m (m.ensureDenseFfnLoaded rt l) := by
  unfold ensureDenseFfnLoaded
  dsimp only
  split
  · exact .refl
  · next hne =>
      split
      · unfold rewriteToSlots
        split
        · exact .refl
        · split
          · exact .refl
          · exact .of_pending rfl rfl rfl rfl rfl rfl fun _ => .inl
      · exact .of_pending rfl rfl rfl rfl rfl rfl (pending_or_head hne)

theorem planDenseFfn_still : Still rt m (m.planDenseFfn rt l) := by
  refine .of_pending rfl rfl rfl rfl rfl rfl (pending_or_grounded fun op hop => ?_)
  obtain ⟨t, -, rfl⟩ := List.mem_map.mp hop
  trivial

theorem awaitResident_still {n : Nat} (h : exec rt m (.awaitResident n) = some m') :
    Still rt m m' := by
  simp only [exec] at h
  split at h
  · cases h
    exact ⟨rfl, rfl, rfl, fun _ => id, fun _ => loaded_of_update (by decide), fun _ => .inl⟩
  · cases h
    exact .of_pending rfl rfl rfl rfl rfl rfl (pending_or_head trivial)

/-- `prefetch_dense_ffn`: the tensors are submitted, or there are none. -/
theorem prefetchDenseFfn_spec (hpool : rt.ioPoolStarted = true)
    (h : m.prefetchDenseFfn rt l = some m') :
    Still rt m m' ∨ ∃ tasks, Submits rt m ⟨l, true⟩ .pool tasks m' := by
  unfold prefetchDenseFfn at h
  split at h
  · cases h
    exact .inl .refl
  · next hne => exact .inr (submitDenseFfn_spec hpool hne h)

/-! ### Steps of the thread -/

section Pop
variable {op : Op} {ops : List Op}

theorem mem_of_pop (hpending : m.pending = op :: ops) {op' : Op}
    (h : op' ∈ ops ∨ op'.Grounded rt) : op' ∈ m.pending ∨ op'.Grounded rt :=
  h.imp_left fun hop => hpending ▸ List.mem_cons_of_mem _ hop

/-- What an operation does to the machine it is taken off. -/
theorem Still.of_pop (hpending : m.pending = op :: ops) (h : Still rt { m with pending := ops } m') :
    Still rt m m' :=
  ⟨h.io, h.submitted, h.preads, h.cache, h.loaded, fun op' hop =>
    mem_of_pop hpending (h.ops op' hop)⟩

theorem Submits.of_pop {c : IoCompletion} {base : Base} {tasks : List (List Region)}
    (hpending : m.pending = op :: ops)
    (h : Submits rt { m with pending := ops } c base tasks m') : Submits rt m c base tasks m' :=
  ⟨h.nonempty, h.io, h.submitted, h.preads, h.cache, h.loaded, fun op' hop =>
    mem_of_pop hpending (h.ops op' hop)⟩

/-- A load into the pool, or nothing. -/
theorem PoolStep.of_pop {lab : Label} (hpending : m.pending = op :: ops)
    (h : Still rt { m with pending := ops } m' ∨
      ∃ tasks, Submits rt { m with pending := ops } ⟨l, true⟩ .pool tasks m') :
    PoolStep rt m lab m' := by
  rcases h with hstill | ⟨tasks, hsubmits⟩
  · exact .still (hstill.of_pop hpending)
  · exact .submit (hsubmits.of_pop hpending)

theorem poolStep_send (hpending : m.pending = .send :: ops)
    (h : exec rt { m with pending := ops } .send = some m') : PoolStep rt m .thread m' := by
  simp only [exec] at h
  split at h
  · next io hio =>
      cases h
      -- more may be left to send
      have hsame : { m with io := io, pending := .send :: ops } = { m with io := io } := by
        rw [← hpending]
      rw [hsame]
      exact .send hio
  · cases h
    exact .still (Still.refl.of_pop hpending)

theorem poolStep_exec (hpool : rt.ioPoolStarted = true) (hground : op.Grounded rt)
    (hpending : m.pending = op :: ops) (h : exec rt { m with pending := ops } op = some m') :
    PoolStep rt m .thread m' := by
  cases op with
  | ensureLayer l => exact .still ((ensureLayer_still h).of_pop hpending)
  | requestLayer l => exact .still ((requestLayer_still h).of_pop hpending)
  | submitLayer l =>
      cases h
      exact poolStep_submitLayer hpool hpending
  | send => exact poolStep_send hpending h
  | requestExperts l ids =>
      cases h
      exact poolStep_requestExperts hpool hpending
  | speculate l => exact .still ((speculate_still h).of_pop hpending)
  | ensureExperts l ids => exact .of_pop hpending (ensureExpertsLoaded_spec hpool h)
  | resetStatus l =>
      cases h
      exact .still ((Still.of_status (by decide)).of_pop hpending)
  | ensureDenseFfn l =>
      cases h
      exact .still (ensureDenseFfnLoaded_still.of_pop hpending)
  | loadDenseFfn l =>
      obtain ⟨m₁, hm₁, rfl⟩ := Option.map_eq_some_iff.mp h
      obtain ⟨tasks, hs⟩ := submitDenseFfn_spec hpool hground hm₁
      -- the thread will wait for the layer, which is not part of the effect
      exact .submit (Submits.of_pop hpending ⟨hs.nonempty, hs.io, hs.submitted, hs.preads,
        hs.cache, hs.loaded, hs.ops⟩)
  | planDenseFfn l =>
      cases h
      exact .still (planDenseFfn_still.of_pop hpending)
  | prefetchDenseFfn l => exact .of_pop hpending (prefetchDenseFfn_spec hpool h)
  | awaitResident n => exact .still ((awaitResident_still h).of_pop hpending)

end Pop

theorem poolStep_thread (hpool : rt.ioPoolStarted = true)
    (hground : ∀ op ∈ m.pending, op.Grounded rt) (h : m.threadStep rt = some m') :
    PoolStep rt m .thread m' := by
  obtain ⟨-, ⟨op, ops, hpending, hexec⟩ | ⟨-, l, -, hlook⟩⟩ := threadStep_cases h
  · exact poolStep_exec hpool (hground op (hpending ▸ List.mem_cons_self)) hpending hexec
  · rcases hlook with ⟨-, rfl⟩ | ⟨-, rfl⟩
    · exact .still (.of_pending rfl rfl rfl rfl rfl rfl fun _ => .inl)
    · exact .still (.of_pending rfl rfl rfl rfl rfl rfl fun _ => .inl)

/-! ### Events -/

theorem releaseLayer_still (rt : Runtime) (m : Machine) (l : Nat) :
    Still rt m (m.releaseLayer rt l) := by
  unfold releaseLayer
  split
  · exact .refl
  · exact ⟨rfl, rfl, rfl, fun key hkey => (NeuronCache.mem_evictLayer.mp hkey).1,
      fun _ => loaded_of_update (by decide), fun _ => .inl⟩

theorem releaseSlots_still (rt : Runtime) (m : Machine) (l : Nat) :
    Still rt m (m.releaseSlots rt l) := by
  unfold releaseSlots
  split
  · exact .refl
  · exact ⟨rfl, rfl, rfl, fun _ => id, fun _ => id, fun _ => .inl⟩

/-- From a still state on, other operations become pending. -/
theorem Still.pending {m₁ : Machine} (h : Still rt m m₁) {layer : Int} {ops : List Op}
    (hops : ∀ op ∈ ops, op.Grounded rt) :
    Still rt m { m₁ with currentLayer := layer, pending := ops } :=
  ⟨h.io, h.submitted, h.preads, h.cache, h.loaded, fun op hop => .inr (hops op hop)⟩

theorem Still.asked {m₁ : Machine} (h : Still rt m m₁) (asked : Option Nat) :
    Still rt m { m₁ with asked := asked } :=
  ⟨h.io, h.submitted, h.preads, h.cache, h.loaded, h.ops⟩

/-- The `ask` callback of expert streaming: a layer, or a selection, is made sure of. -/
theorem askExperts_cases (h : m.askExperts rt l = some m') : m' = m ∨
    ∃ op, (op = .ensureLayer l ∨ ∃ ids, op = .ensureExperts l ids) ∧
      m' = { m with pending := [op] } := by
  have hpredicted : ∀ predicted : List Nat,
      (if predicted = [] then some { m with pending := [Op.ensureLayer l] }
        else some { m with pending := [.ensureExperts l predicted] }) = some m' →
      ∃ op, (op = .ensureLayer l ∨ ∃ ids, op = .ensureExperts l ids) ∧
        m' = { m with pending := [op] } := by
    intro predicted h
    split at h
    · cases h
      exact ⟨_, .inl rfl, rfl⟩
    · cases h
      exact ⟨_, .inr ⟨_, rfl⟩, rfl⟩
  unfold askExperts at h
  split at h
  · cases h
    exact .inl rfl
  · split at h
    · cases h
      exact .inr ⟨_, .inr ⟨_, rfl⟩, rfl⟩
    · dsimp only at h
      split at h
      · obtain ⟨predicted, -, h⟩ := Option.bind_eq_some_iff.mp h
        exact .inr (hpredicted predicted h)
      · exact .inr (hpredicted [] h)

theorem askCallback_still (h : m.askCallback rt l = some m') : Still rt m m' := by
  have hops : ∀ {o : Op} {m₁ : Machine}, o.Grounded rt → m₁ = { m with pending := [o] } →
      Still rt m m₁ := by
    intro o m₁ ho heq
    subst heq
    refine .of_pending rfl rfl rfl rfl rfl rfl fun op hop => .inr ?_
    rw [List.mem_singleton.mp hop]
    exact ho
  unfold askCallback at h
  split at h
  · cases h
    exact .refl
  · split at h
    · rcases askExperts_cases h with rfl | ⟨op, hop | ⟨ids, hop⟩, rfl⟩
      · exact .refl
      · exact hops (o := op) (hop ▸ trivial) rfl
      · exact hops (o := op) (hop ▸ trivial) rfl
    · split at h
      · cases h
        unfold askDense
        split
        · exact .of_pending rfl rfl rfl rfl rfl rfl fun _ => .inl
        · exact hops (o := .ensureDenseFfn l) trivial rfl
      · cases h
        exact hops (o := .ensureLayer l) trivial rfl

theorem doneCallback_still (lookaheadMax : Nat) : Still rt m (m.doneCallback rt l lookaheadMax) := by
  have hswap : Still rt m (m.swapLayer l) := .of_pending rfl rfl rfl rfl rfl rfl fun _ => .inl
  unfold doneCallback
  split
  · exact .refl
  · split
    · refine hswap.pending fun op hop => ?_
      rcases List.mem_cons.mp hop with rfl | hop
      · trivial
      · split at hop
        · split at hop
          · rw [List.mem_singleton.mp hop]
            trivial
          · cases hop
        · cases hop
    · split
      · have hplan : ∀ op ∈ [Op.planDenseFfn l], op.Grounded rt := fun op hop => by
          rw [List.mem_singleton.mp hop]
          trivial
        unfold doneDense
        dsimp only
        split
        · exact hswap.pending hplan
        · next prev _ =>
            split
            · have hreleased := hswap.trans (releaseSlots_still rt _ prev)
              refine Still.pending (hreleased.trans ?_) hplan
              exact ⟨rfl, rfl, rfl, fun _ => id, fun _ => loaded_of_update (by decide),
                fun _ => .inl⟩
            · exact hswap.pending hplan
      · unfold doneStandard
        dsimp only
        split
        · exact hswap
        · next prev _ =>
            split
            · exact hswap
            · have hreleased : Still rt m (if prev ∈ rt.config.nvmeLayers then
                  (m.swapLayer l).releaseLayer rt prev else m.swapLayer l) := by
                split
                · exact hswap.trans (releaseLayer_still rt _ prev)
                · exact hswap
              refine ⟨hreleased.io, hreleased.submitted, hreleased.preads, hreleased.cache,
                hreleased.loaded, fun op hop => .inr ?_⟩
              rcases List.mem_append.mp hop with hop | hop
              · obtain ⟨t, -, rfl⟩ := List.mem_map.mp hop
                trivial
              · rw [List.mem_singleton.mp hop]
                trivial

theorem poolStep_handle (hpool : rt.ioPoolStarted = true) {e : Event}
    (h : m.handle rt e = some m') : PoolStep rt m (.event e) m' := by
  have hops : ∀ {ops : List Op} {m₁ : Machine}, (∀ op ∈ ops, op.Grounded rt) →
      m₁ = { m with pending := ops } → PoolStep rt m (.event e) m₁ := by
    intro ops m₁ hops heq
    subst heq
    exact .still (.of_pending rfl rfl rfl rfl rfl rfl fun op hop => .inr (hops op hop))
  have hmap : ∀ {ls : List Nat} {f : Nat → Op}, (∀ l, (f l).Grounded rt) →
      ∀ op ∈ ls.map f, op.Grounded rt := by
    intro ls f hf op hop
    obtain ⟨l, -, rfl⟩ := List.mem_map.mp hop
    exact hf l
  have hone : ∀ {o : Op}, o.Grounded rt → ∀ op ∈ [o], op.Grounded rt := by
    intro o ho op hop
    rw [List.mem_singleton.mp hop]
    exact ho
  cases e with
  | ask l =>
      simp only [handle] at h
      split at h
      · obtain ⟨m₁, hask, rfl⟩ := Option.map_eq_some_iff.mp h
        exact .still ((askCallback_still hask).asked _)
      · cases h
  | done lookaheadMax =>
      obtain ⟨l, -, rfl⟩ := Option.map_eq_some_iff.mp h
      exact .still ((doneCallback_still lookaheadMax).asked _)
  | doneRouter t =>
      obtain ⟨l, -, rfl⟩ := Option.map_eq_some_iff.mp h
      refine .still (Still.asked ?_ _)
      split
      · unfold interceptRouterOutput
        split
        · exact .refl
        · dsimp only
          split
          · exact .of_pending rfl rfl rfl rfl rfl rfl fun _ => .inl
          · split
            · exact .of_pending rfl rfl rfl rfl rfl rfl fun _ => .inl
            · split
              · exact .of_pending rfl rfl rfl rfl rfl rfl fun _ => .inl
              · exact .of_pending rfl rfl rfl rfl rfl rfl fun _ => .inl
      · exact .refl
  | prefetchAllNvme =>
      simp only [handle] at h
      split at h
      · cases h
        exact hops (hmap (f := .requestLayer) fun _ => trivial) rfl
      · cases h
  | request l =>
      simp only [handle] at h
      split at h
      · cases h
        exact hops (hone (o := .requestLayer l) trivial) rfl
      · cases h
  | requestSlices l ids =>
      simp only [handle] at h
      split at h
      · cases h
        exact hops (hone (o := .requestExperts l ids) trivial) rfl
      · cases h
  | residentFfn n =>
      simp only [handle] at h
      split at h
      · cases h
        rcases activateResidentFfn_spec hpool n with hs | ⟨c, tasks, hs⟩
        · exact .still hs
        · exact .submit hs
      · cases h
  | initialDenseFfn =>
      simp only [handle] at h
      split at h
      · cases h
        exact hops (hmap (f := .prefetchDenseFfn) fun _ => trivial) rfl
      · cases h
  | boundaryDenseFfn =>
      simp only [handle] at h
      split at h
      · cases h
        exact hops (hmap (f := .prefetchDenseFfn) fun _ => trivial) rfl
      · cases h
  | token =>
      simp only [handle] at h
      split at h
      · cases h
        exact .still (.of_pending rfl rfl rfl rfl rfl rfl fun _ => .inl)
      · cases h

/-! ### Every step has one of the effects -/

theorem poolStep (hpool : rt.ioPoolStarted = true) (hground : ∀ op ∈ m.pending, op.Grounded rt)
    {lab : Label} (h : m.step rt lab = some m') : PoolStep rt m lab m' := by
  cases lab with
  | event e =>
      simp only [Machine.step] at h
      split at h
      · exact poolStep_handle hpool h
      · cases h
  | thread => exact poolStep_thread hpool hground h
  | wake =>
      simp only [Machine.step] at h
      split at h
      · cases h
        exact .still (.of_pending rfl rfl rfl rfl rfl rfl fun _ => .inl)
      · cases h
  | recv w =>
      obtain ⟨io, hio, rfl⟩ := Option.map_eq_some_iff.mp h
      exact .recv hio
  | pread w count => exact .pread h
  | finish w => exact .finish h
  | fire w => exact .fire h

end Effects

end Machine

end Hypura
