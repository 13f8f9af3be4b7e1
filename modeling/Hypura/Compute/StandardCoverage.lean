import Hypura.Compute.Plan
import Hypura.Compute.StandardStep

/-!
# Hypura.Compute.StandardCoverage

Standard mode: what a layer's load has to bring in is read, or on its way.

For one layer `l` at a time, `Covered` says of every region it needs that a loaded layer
has read it since it was last released, that a load in the pool has read it or has it in
one of its tasks, and that a slice the cache takes to be loaded was read or is in a task
of the layer. Steps of the pool keep this as long as reads succeed; a load submitted from
a selection keeps it as long as the slices it skips have arrived.
-/

namespace Hypura

open Hypura.Core Hypura.Core.Countdown

namespace Machine

/-! ### Conditions on steps -/

/-- A `pread` gets all it asks for. -/
def fullRead (m : Machine) : Label → Bool
  | .pread w count =>
    match m.io.workers[w]? with
    | some (.busy j) => j.payload.regions.head?.all fun r => r.size ≤ count
    | _ => true
  | _ => true

/-- When the load of `l` is submitted from a selection, no slice of the selection that the
cache has is in a task of `l` still to be done. -/
def slicesLanded (rt : Runtime) (l : Nat) (m : Machine) : Label → Bool
  | .thread =>
    match m.selectedExperts l with
    | some ids => decide (m.submitting = some l →
        ∀ layout ∈ rt.config.expertLayouts l, ∀ e ∈ ids, e < layout.numExperts →
          (l, e, layout.tensorType) ∈ m.neuronCache.entries →
            ∀ j ∈ m.io.jobs, layerOf m.io j.batch = some l →
              layout.bufferRegion e ∉ j.payload.regions)
    | none => true
  | _ => true

theorem size_le_of_fullRead {m : Machine} {w count : Nat} {j : Job IoPoolTask} {r : Region}
    {rs : List Region} (h : m.fullRead (.pread w count)) (hw : m.io.workers[w]? = some (.busy j))
    (hregions : j.payload.regions = r :: rs) : r.size ≤ count := by
  simpa [fullRead, hw, hregions] using h

theorem landed_of_slicesLanded {rt : Runtime} {l : Nat} {m : Machine} {ids : List Nat}
    (h : m.slicesLanded rt l .thread) (hsub : m.submitting = some l)
    (hsel : m.selectedExperts l = some ids) :
    ∀ layout ∈ rt.config.expertLayouts l, ∀ e ∈ ids, e < layout.numExperts →
      (l, e, layout.tensorType) ∈ m.neuronCache.entries →
        ∀ j ∈ m.io.jobs, layerOf m.io j.batch = some l →
          layout.bufferRegion e ∉ j.payload.regions := by
  simp only [slicesLanded, hsel, decide_eq_true_eq] at h
  exact h hsub

/-- Of a layer without fused tensors there are no slices. -/
theorem slicesLanded_of_noLayouts {rt : Runtime} {l : Nat} (h : rt.config.expertLayouts l = [])
    (m : Machine) (lab : Label) : m.slicesLanded rt l lab := by
  cases lab with
  | thread => cases hsel : m.selectedExperts l <;> simp [slicesLanded, hsel, h]
  | _ => rfl

/-! ### Regions on their way -/

/-- A task of batch `b` still has region `r` to read. -/
def InBatch (m : Machine) (b : Nat) (r : Region) : Prop :=
  ∃ j ∈ m.io.jobs, j.batch = b ∧ r ∈ j.payload.regions

/-- A task of layer `l` still has region `r` to read. -/
def Outstanding (m : Machine) (l : Nat) (r : Region) : Prop :=
  ∃ b, layerOf m.io b = some l ∧ m.InBatch b r

/-- From `m` to `m'` nothing is submitted or forgotten: a region to be read is still to be
read, or was read. -/
structure Carries (m m' : Machine) : Prop where
  layerOf_eq : ∀ b, layerOf m'.io b = layerOf m.io b
  inBatch : ∀ b r, m.InBatch b r →
    m'.InBatch b r ∨ ∀ l, layerOf m.io b = some l → r ∈ m'.readSince l
  readSince : ∀ l r, r ∈ m.readSince l → r ∈ m'.readSince l
  cache : m'.neuronCache = m.neuronCache
  basis : m'.basis = m.basis

section Carries
variable {rt : Runtime} {m m' : Machine}

theorem layerOf_of_tag?_eq {io io' : IoPool} {b : Nat} (h : io'.tag? b = io.tag? b) :
    layerOf io' b = layerOf io b := by
  rw [layerOf, layerOf, h]

theorem inBatch_of_perm (h : m'.io.jobs.Perm m.io.jobs) {b : Nat} {r : Region} :
    m'.InBatch b r ↔ m.InBatch b r := by
  simp only [InBatch, h.mem_iff]

theorem carries_of_io {io : IoPool} (hq : Pool.Quiet m.io io) (hperm : io.jobs.Perm m.io.jobs) :
    m.Carries { m with io := io } where
  layerOf_eq b := layerOf_of_tag?_eq (hq.tag?_eq b)
  inBatch _ _ h := .inl ((inBatch_of_perm hperm).mpr h)
  readSince _ _ := id
  cache := rfl
  basis := rfl

/-- A full read takes the region from its task to those read. -/
theorem carries_of_pread {w count : Nat} (hfull : m.fullRead (.pread w count))
    (h : m.preadStep rt w count = some m') : m.Carries m' := by
  obtain ⟨j, r, rs, l, io, hw, hregions, hlayer, hio, rfl⟩ := preadStep_spec h
  have hsize : r.size ≤ count := size_le_of_fullRead hfull hw hregions
  obtain ⟨j', rest, hw', hjobs, hjobs', -, -, -, -, -⟩ := Pool.work_spec hio
  have hjj : j' = j := by
    rw [hw] at hw'
    exact (Worker.busy.inj (Option.some.inj hw')).symm
  subst hjj
  have hread : ∀ l', (if r.size ≤ count then
      Function.update m.readSince l (r :: m.readSince l) else m.readSince) l' =
      if l' = l then r :: m.readSince l else m.readSince l' := by
    intro l'
    rw [if_pos hsize, Function.update_apply]
  constructor
  · exact fun b => layerOf_of_tag?_eq ((Pool.work_quiet hio).tag?_eq b)
  · intro b r' ⟨j₁, hj₁, hb, hr'⟩
    rcases List.mem_cons.mp (hjobs.mem_iff.mp hj₁) with rfl | hrest
    · rw [hregions] at hr'
      rcases List.mem_cons.mp hr' with rfl | hrs
      · -- the region just read
        refine .inr fun l' hl' => ?_
        have hll : l' = l := by
          rw [← hb, hlayer] at hl'
          exact (Option.some.inj hl').symm
        show r' ∈ (if _ then _ else _ : Nat → List Region) l'
        rw [hread, if_pos hll]
        exact List.mem_cons_self
      · exact .inl ⟨_, hjobs'.mem_iff.mpr List.mem_cons_self, hb, hrs⟩
    · exact .inl ⟨j₁, hjobs'.mem_iff.mpr (List.mem_cons_of_mem _ hrest), hb, hr'⟩
  · intro l' r' hr'
    show r' ∈ (if _ then _ else _ : Nat → List Region) l'
    rw [hread]
    by_cases hll : l' = l
    · subst hll
      rw [if_pos rfl]
      exact List.mem_cons_of_mem _ hr'
    · rw [if_neg hll]
      exact hr'
  · rfl
  · rfl

/-- A task that is finished has nothing left to read. -/
theorem carries_of_finish {w : Nat} (h : m.finishStep w = some m') : m.Carries m' := by
  obtain ⟨j, io, hw, hnil, hio, rfl⟩ := finishStep_spec h
  obtain ⟨j', x, hw', -, hjobs, -, -, -, -, -⟩ := Pool.finish_spec hio
  have hjj : j' = j := by
    rw [hw] at hw'
    exact (Worker.busy.inj (Option.some.inj hw')).symm
  subst hjj
  constructor
  · exact fun b => layerOf_of_tag?_eq ((Pool.finish_quiet hio).tag?_eq b)
  · intro b r ⟨j₁, hj₁, hb, hr⟩
    rcases List.mem_cons.mp (hjobs.mem_iff.mp hj₁) with rfl | hrest
    · rw [hnil] at hr
      cases hr
    · exact .inl ⟨j₁, hrest, hb, hr⟩
  · exact fun _ _ => id
  · rfl
  · rfl

theorem carries_of_fire {w : Nat} (h : m.fireStep w = some m') : m.Carries m' := by
  obtain ⟨b, tag, io, -, -, hio, rfl⟩ := fireStep_spec h
  obtain ⟨-, -, hjobs, hbatches, -, -, -, -⟩ := Pool.fire_spec hio
  have hcarries : ∀ m'' : Machine, m''.io = io → m''.readSince = m.readSince →
      m''.neuronCache = m.neuronCache → m''.basis = m.basis → m.Carries m'' := by
    intro m'' hio'' hread hcache hbasis
    refine ⟨fun b => ?_, fun b r hr => .inl ?_, fun l r hr => hread ▸ hr, hcache, hbasis⟩
    · rw [hio'']
      exact layerOf_of_tag?_eq (Pool.tag?_of_batches hbatches b)
    · refine (inBatch_of_perm ?_).mpr hr
      rw [hio'']
      exact hjobs
  split
  · exact hcarries _ rfl rfl rfl rfl
  · exact hcarries _ rfl rfl rfl rfl

theorem Agrees.carries (h : m.Agrees m') : m.Carries m' where
  layerOf_eq b := by rw [h.io]
  inBatch b r hr := .inl ((inBatch_of_perm (h.io ▸ List.Perm.refl _)).mpr hr)
  readSince l r hr := h.readSince ▸ hr
  cache := h.cache
  basis := h.basis

/-- The regions of a batch just opened are to be read, and the others are as they were. -/
theorem inBatch_openBatch {c : IoCompletion} {tasks : List (List Region)}
    (hio : m'.io = m.io.openBatch c (tasks.map (⟨·, .buffer, []⟩))) {b : Nat} {r : Region} :
    m'.InBatch b r ↔ b = m.io.batches.length ∧ r ∈ tasks.flatten ∨ m.InBatch b r := by
  unfold InBatch
  rw [hio]
  simp only [Pool.mem_jobs_openBatch]
  constructor
  · intro ⟨j, hj, hb, hr⟩
    rcases hj with ⟨rs, hrs, rfl⟩ | hj
    · exact .inl ⟨hb.symm, List.mem_flatten.mpr ⟨rs, hrs, hr⟩⟩
    · exact .inr ⟨j, hj, hb, hr⟩
  · intro h
    rcases h with ⟨rfl, hr⟩ | ⟨j, hj, hb, hr⟩
    · obtain ⟨rs, hrs, hr⟩ := List.mem_flatten.mp hr
      exact ⟨_, .inl ⟨rs, hrs, rfl⟩, rfl, hr⟩
    · exact ⟨j, .inr hj, hb, hr⟩

/-- What is outstanding stays so when a batch is opened. -/
theorem outstanding_of_openBatch {c : IoCompletion} {tasks : List (List Region)}
    (hio : m'.io = m.io.openBatch c (tasks.map (⟨·, .buffer, []⟩))) {l : Nat} {r : Region}
    (h : m.Outstanding l r) : m'.Outstanding l r := by
  obtain ⟨b, hb, hr⟩ := h
  obtain ⟨tag, htag, -⟩ := Option.map_eq_some_iff.mp hb
  have hlt := Pool.lt_of_tag? htag
  refine ⟨b, ?_, (inBatch_openBatch hio).mpr (.inr hr)⟩
  rw [layerOf, hio, Pool.tag?_openBatch, if_neg (by omega)]
  exact hb

/-- And the regions of the batch are. -/
theorem outstanding_of_mem_tasks {c : IoCompletion} {tasks : List (List Region)}
    (hio : m'.io = m.io.openBatch c (tasks.map (⟨·, .buffer, []⟩))) {r : Region}
    (hr : r ∈ tasks.flatten) : m'.Outstanding c.layerIdx r := by
  refine ⟨m.io.batches.length, ?_, (inBatch_openBatch hio).mpr (.inl ⟨rfl, hr⟩)⟩
  rw [layerOf, hio, Pool.tag?_openBatch, if_pos rfl]
  rfl

end Carries

/-! ### Coverage -/

structure Covered (cfg : PrefetchConfig) (l : Nat) (m : Machine) : Prop where
  /-- A loaded layer has been read. -/
  loaded : m.layerStatus l = .loaded → ∀ r, Needed cfg l (m.basis l) r → r ∈ m.readSince l
  /-- What a load in the pool has not read is in its tasks. -/
  loading : ∀ b, Loading.LiveLoad m.io l b → ∀ r, Needed cfg l (m.basis l) r →
    r ∈ m.readSince l ∨ m.InBatch b r
  /-- A slice marked in the cache was read or is in a task. -/
  marked : ∀ layout ∈ cfg.expertLayouts l, ∀ e, (l, e, layout.tensorType) ∈ m.neuronCache.entries →
    layout.bufferRegion e ∈ m.readSince l ∨ m.Outstanding l (layout.bufferRegion e)

section Covered
variable {rt : Runtime} {cfg : PrefetchConfig} {l : Nat} {m m' : Machine}

theorem layerOf_liveLoad {io : IoPool} {b : Nat} (h : Loading.LiveLoad io l b) :
    layerOf io b = some l := by
  rw [layerOf, h.1]
  rfl

theorem Carries.outstanding (hc : m.Carries m') {r : Region} (h : m.Outstanding l r) :
    r ∈ m'.readSince l ∨ m'.Outstanding l r := by
  obtain ⟨b, hb, hr⟩ := h
  rcases hc.inBatch b r hr with hr | hr
  · exact .inr ⟨b, (hc.layerOf_eq b).trans hb, hr⟩
  · exact .inl (hr l hb)

/-- What is carried on stays covered, while no load of the layer is added. -/
theorem Covered.carry (h : m.Covered cfg l) (hc : m.Carries m')
    (hloaded : m'.layerStatus l = .loaded → m.layerStatus l = .loaded)
    (hlive : ∀ b, Loading.LiveLoad m'.io l b → Loading.LiveLoad m.io l b) : m'.Covered cfg l where
  loaded hl r hr := by
    rw [hc.basis] at hr
    exact hc.readSince l r (h.loaded (hloaded hl) r hr)
  loading b hb r hr := by
    rw [hc.basis] at hr
    rcases h.loading b (hlive b hb) r hr with hread | hin
    · exact .inl (hc.readSince l r hread)
    · rcases hc.inBatch b r hin with hin | hread
      · exact .inr hin
      · exact .inl (hread l (layerOf_liveLoad (hlive b hb)))
  marked layout hm e he := by
    rw [hc.cache] at he
    rcases h.marked layout hm e he with hread | hout
    · exact .inl (hc.readSince l _ hread)
    · exact hc.outstanding hout

/-- The load that fires has nothing left to read. -/
theorem Covered.fire (h : m.Covered cfg l) (hs : Loading.Sound m.loading) {w : Nat}
    (hfire : m.fireStep w = some m') : m'.Covered cfg l := by
  have hc := carries_of_fire hfire
  obtain ⟨b, tag, io, hw, htag, hio, rfl⟩ := fireStep_spec hfire
  have hfiring : b ∈ m.io.firing := List.mem_filterMap.mpr ⟨_, List.mem_of_getElem? hw, rfl⟩
  have hbalanced : m.io.Balanced := hs.balanced
  obtain ⟨hlive, hnone⟩ := hbalanced.firing_live hfiring
  have hold : ∀ b', Loading.LiveLoad io l b' → Loading.LiveLoad m.io l b' := fun b' hb' =>
    ((Loading.liveLoad_fire hio hw).mp hb').1
  by_cases hupdate : tag.updateStatus = true
  · rw [if_pos hupdate] at hc ⊢
    by_cases hl : l = tag.layerIdx
    · -- the layer becomes loaded, and the batch has no job left
      have hself : Loading.LiveLoad m.io l b := by
        refine ⟨?_, hlive.2⟩
        rw [htag, hl, ← hupdate]
      have hread : ∀ r, Needed cfg l (m.basis l) r → r ∈ m.readSince l := by
        intro r hr
        rcases h.loading b hself r hr with hread | ⟨j, hj, hjb, -⟩
        · exact hread
        · have hmem : j ∈ m.io.jobsOf b := List.mem_filter.mpr ⟨hj, by simpa using hjb⟩
          rw [hnone] at hmem
          cases hmem
      refine ⟨fun _ => hread, fun b' hb' r hr => .inl (hread r hr), fun layout hm e he => ?_⟩
      rcases h.marked layout hm e he with hread | hout
      · exact .inl hread
      · exact hc.outstanding hout
    · refine h.carry hc (fun hst => ?_) hold
      change Function.update m.layerStatus tag.layerIdx .loaded l = .loaded at hst
      rwa [Function.update_of_ne hl] at hst
  · rw [if_neg hupdate] at hc ⊢
    exact h.carry hc id hold

/-- A release of the layer itself leaves nothing to cover; one of another leaves all as it
was. -/
theorem Covered.release (h : m.Covered rt.config l) (hrt : rt.Streams)
    (hs : Loading.Sound m.loading) {l' : Nat} (hl' : m.layerStatus l' = .loaded) :
    (m.releaseLayer rt l').Covered rt.config l := by
  rcases releaseLayer_cases (m := m) hrt l' with ⟨-, heq⟩ | ⟨-, heq⟩
  · rw [heq]
    exact h
  · rw [heq]
    by_cases hl : l = l'
    · subst hl
      have hnot : ∀ b, ¬ Loading.LiveLoad m.io l b :=
        hs.not_live (by show m.layerStatus l ≠ .loading; rw [hl']; decide)
      constructor
      · intro hst
        change Function.update m.layerStatus l .notLoaded l = .loaded at hst
        rw [Function.update_self] at hst
        cases hst
      · exact fun b hb => absurd hb (hnot b)
      · intro layout hm e he
        exact absurd rfl (NeuronCache.mem_evictLayer.mp he).2
    · have hread : Function.update m.readSince l' [] l = m.readSince l :=
        Function.update_of_ne hl ..
      constructor
      · intro hst r hr
        change Function.update m.layerStatus l' .notLoaded l = .loaded at hst
        rw [Function.update_of_ne hl] at hst
        show r ∈ Function.update m.readSince l' [] l
        rw [hread]
        exact h.loaded hst r hr
      · intro b hb r hr
        show r ∈ Function.update m.readSince l' [] l ∨ _
        rw [hread]
        exact h.loading b hb r hr
      · intro layout hm e he
        show _ ∈ Function.update m.readSince l' [] l ∨ _
        rw [hread]
        exact h.marked layout hm e (NeuronCache.mem_evictLayer.mp he).1

/-- The slices that the cache has of layer `l` after a submission are those it had, and
those just submitted. -/
theorem Covered.marked_of_submitted (h : m.Covered cfg l) (hd : DistinctTypes (cfg.expertLayouts l))
    {l' : Nat} {cache : NeuronCache} {tasks : List (List Region)}
    (hcache : ∀ key ∈ cache.entries, key ∈ m.neuronCache.entries ∨
      ∃ layout ∈ cfg.expertLayouts l', ∃ e, key = (l', e, layout.tensorType) ∧
        layout.bufferRegion e ∈ tasks.flatten)
    {layout : ExpertLayout} (hm : layout ∈ cfg.expertLayouts l) {e : Nat}
    (he : (l, e, layout.tensorType) ∈ cache.entries) :
    layout.bufferRegion e ∈ m.readSince l ∨ m.Outstanding l (layout.bufferRegion e) ∨
      l' = l ∧ layout.bufferRegion e ∈ tasks.flatten := by
  rcases hcache _ he with hold | ⟨layout', hm', e', hkey, hr⟩
  · exact (h.marked layout hm e hold).imp_right .inl
  · simp only [Prod.mk.injEq] at hkey
    obtain ⟨rfl, rfl, htype⟩ := hkey
    -- one type, one tensor
    rw [hd.eq_of_tensorType hm hm' htype]
    exact .inr (.inr ⟨rfl, hr⟩)

/-- A slice that a load of `l` skips was read. -/
theorem Covered.hit (h : m.Covered cfg l) {ids : List Nat}
    (hlanded : ∀ layout ∈ cfg.expertLayouts l, ∀ e ∈ ids, e < layout.numExperts →
      (l, e, layout.tensorType) ∈ m.neuronCache.entries →
        ∀ j ∈ m.io.jobs, layerOf m.io j.batch = some l →
          layout.bufferRegion e ∉ j.payload.regions)
    {r : Region} (hr : Hit cfg l ids m.neuronCache r) : r ∈ m.readSince l := by
  obtain ⟨layout, hm, e, he, hlt, hkey, rfl⟩ := hr
  rcases h.marked layout hm e hkey with hread | ⟨b, hb, j, hj, rfl, hr⟩
  · exact hread
  · exact absurd hr (hlanded layout hm e he hlt hkey j hj hb)

/-- What the load of `l` has to bring in and does not submit was read. -/
theorem Covered.needed (h : m.Covered rt.config l) (hd : DistinctTypes (rt.config.expertLayouts l))
    (hsub : m.submitting = some l) (hlanded : m.slicesLanded rt l .thread) {r : Region}
    (hr : Needed rt.config l (planLayer rt m l).basis r) :
    r ∈ (planLayer rt m l).tasks.flatten ∨ r ∈ m.readSince l := by
  rcases planLayer_complete hd hr with htask | ⟨ids, hsel, hhit⟩
  · exact .inl htask
  · exact .inr (h.hit (landed_of_slicesLanded hlanded hsub hsel) hhit)

/-- Tasks of layer `c.layerIdx` were submitted. If they are a load of `l`, they have all it
needs that was not read. -/
theorem Covered.opened (h : m.Covered cfg l) (hd : DistinctTypes (cfg.expertLayouts l))
    (hbalanced : m.io.Balanced) {c : IoCompletion} {tasks : List (List Region)}
    (hcache : ∀ key ∈ m'.neuronCache.entries, key ∈ m.neuronCache.entries ∨
      ∃ layout ∈ cfg.expertLayouts c.layerIdx, ∃ e, key = (c.layerIdx, e, layout.tensorType) ∧
        layout.bufferRegion e ∈ tasks.flatten)
    (hio : m'.io = m.io.openBatch c (tasks.map (⟨·, .buffer, []⟩)))
    (hstatus : m'.layerStatus = m.layerStatus) (hread : m'.readSince = m.readSince)
    (hloaded : m.layerStatus l = .loaded → m'.basis l = m.basis l)
    (hlive : ∀ b, Loading.LiveLoad m.io l b → m'.basis l = m.basis l)
    (hnew : c = ⟨l, true⟩ → ∀ r, Needed cfg l (m'.basis l) r →
      r ∈ tasks.flatten ∨ r ∈ m.readSince l) : m'.Covered cfg l := by
  have hin : ∀ {b : Nat} {r : Region}, m'.InBatch b r ↔
      b = m.io.batches.length ∧ r ∈ tasks.flatten ∨ m.InBatch b r := inBatch_openBatch hio
  constructor
  · intro hst r hr
    rw [hstatus] at hst
    rw [hloaded hst] at hr
    rw [hread]
    exact h.loaded hst r hr
  · intro b hb r hr
    rw [hio] at hb
    rw [hread]
    rcases (Loading.liveLoad_openBatch hbalanced).mp hb with ⟨rfl, hc⟩ | hold
    · exact (hnew hc r hr).symm.imp_right fun htask => hin.mpr (.inl ⟨rfl, htask⟩)
    · rw [hlive b hold] at hr
      exact (h.loading b hold r hr).imp_right fun hr => hin.mpr (.inr hr)
  · intro layout hm e he
    rw [hread]
    rcases h.marked_of_submitted hd hcache hm he with hr | hout | ⟨hl, hr⟩
    · exact .inl hr
    · exact .inr (outstanding_of_openBatch hio hout)
    · exact .inr (hl ▸ outstanding_of_mem_tasks hio hr)

/-- Nothing was submitted: the cache has no more slices than before. -/
theorem Covered.unopened (h : m.Covered cfg l) (hio : m'.io = m.io)
    (hread : m'.readSince = m.readSince)
    (hcache : ∀ key ∈ m'.neuronCache.entries, key ∈ m.neuronCache.entries)
    (hlive : ∀ b, Loading.LiveLoad m.io l b → m'.basis l = m.basis l)
    (hloaded : m'.layerStatus l = .loaded → ∀ r, Needed cfg l (m'.basis l) r →
      r ∈ m.readSince l) : m'.Covered cfg l := by
  have hin : ∀ {b : Nat} {r : Region}, m'.InBatch b r ↔ m.InBatch b r :=
    inBatch_of_perm (hio ▸ List.Perm.refl _)
  constructor
  · rw [hread]
    exact hloaded
  · intro b hb r hr
    rw [hio] at hb
    rw [hlive b hb] at hr
    rw [hread]
    exact (h.loading b hb r hr).imp_right hin.mpr
  · intro layout hm e he
    rw [hread]
    refine (h.marked layout hm e (hcache _ he)).imp_right fun ⟨b, hb, hr⟩ => ?_
    exact ⟨b, by rw [hio]; exact hb, hin.mpr hr⟩

/-- The load of a layer is submitted. -/
theorem Covered.submit (h : m.Covered rt.config l) (hrt : rt.Streams)
    (hs : Loading.Sound m.loading) (hd : DistinctTypes (rt.config.expertLayouts l)) {l' : Nat}
    {ops : List Op} (hpending : m.pending = .submitLayer l' :: ops)
    (hlanded : m.slicesLanded rt l .thread) :
    ({ m with pending := ops }.submitLayerLoad rt l').Covered rt.config l := by
  have hsub : m.submitting = some l' := submitting_eq_some hpending
  have hcache : ∀ key ∈ (planLayer rt m l').cache.entries, key ∈ m.neuronCache.entries ∨
      ∃ layout ∈ rt.config.expertLayouts l', ∃ e, key = (l', e, layout.tensorType) ∧
        layout.bufferRegion e ∈ (planLayer rt m l').tasks.flatten :=
    fun key hkey => mem_planLayer_cache hkey
  have hbasis : ∀ basis : Option (List Nat), l ≠ l' →
      Function.update m.basis l' basis l = m.basis l :=
    fun basis hl => Function.update_of_ne hl ..
  -- while the load is about to be submitted, none of the layer is in the pool
  have hnot : ∀ b, ¬ Loading.LiveLoad m.io l' b := fun b hb => (hs.live l' b hb).2 hsub
  have hlive : ∀ (basis : Option (List Nat)) (b : Nat), Loading.LiveLoad m.io l b →
      Function.update m.basis l' basis l = m.basis l :=
    fun basis b hb => hbasis basis fun hl => hnot b (hl ▸ hb)
  rcases submitLayerLoad_cases (m := { m with pending := ops }) hrt l' with
    ⟨hnil, heq⟩ | ⟨hne, heq⟩
  · rw [heq]
    have hnil : (planLayer rt m l').tasks = [] := hnil
    have hflat : (planLayer rt m l').tasks.flatten = [] := by rw [hnil, List.flatten_nil]
    rw [hflat] at hcache
    refine h.unopened rfl rfl (fun key hkey => ?_) (hlive _) fun hst r hr => ?_
    · rcases hcache key hkey with hold | ⟨_, _, _, _, hr⟩
      · exact hold
      · cases hr
    · by_cases hl : l = l'
      · subst hl
        change Needed rt.config l (Function.update m.basis l (planLayer rt m l).basis l) r at hr
        rw [Function.update_self] at hr
        rcases h.needed hd hsub hlanded hr with htask | hread
        · rw [hflat] at htask
          cases htask
        · exact hread
      · change Function.update m.layerStatus l' .loaded l = .loaded at hst
        rw [Function.update_of_ne hl] at hst
        change Needed rt.config l (Function.update m.basis l' (planLayer rt m l').basis l) r at hr
        rw [hbasis _ hl] at hr
        exact h.loaded hst r hr
  · rw [heq]
    refine h.opened hd hs.balanced (c := ⟨l', true⟩) hcache rfl rfl rfl (fun hst => ?_) (hlive _)
      fun hc r hr => ?_
    · refine hbasis _ fun hl => ?_
      have hloading := hs.submitting l' hsub
      rw [← hl] at hloading
      exact absurd (hst.symm.trans hloading) nofun
    · have hl : l' = l := congrArg IoCompletion.layerIdx hc
      subst hl
      change Needed rt.config l' (Function.update m.basis l' (planLayer rt m l').basis l') r at hr
      rw [Function.update_self] at hr
      exact h.needed hd hsub hlanded hr

/-- Slices are requested. -/
theorem Covered.request (h : m.Covered rt.config l) (hrt : rt.Streams)
    (hs : Loading.Sound m.loading) (hd : DistinctTypes (rt.config.expertLayouts l))
    (l' : Nat) (ids : List Nat) (ops : List Op) :
    ({ m with pending := ops }.submitExpertLoad rt l' ids).Covered rt.config l := by
  have hcache : ∀ key ∈ (planSlices rt.config m.neuronCache l' ids).cache.entries,
      key ∈ m.neuronCache.entries ∨
        ∃ layout ∈ rt.config.expertLayouts l', ∃ e, key = (l', e, layout.tensorType) ∧
          layout.bufferRegion e ∈ (planSlices rt.config m.neuronCache l' ids).tasks.flatten :=
    fun key hkey => mem_planSlices_cache hkey
  rcases submitExpertLoad_cases (m := { m with pending := ops }) hrt l' ids with
    ⟨-, heq⟩ | ⟨hnil, heq⟩ | ⟨-, hne, heq⟩
  · rw [heq]
    exact h.unopened rfl rfl (fun _ => id) (fun _ _ => rfl) h.loaded
  · rw [heq]
    have hnil : (planSlices rt.config m.neuronCache l' ids).tasks = [] := hnil
    rw [hnil] at hcache
    refine h.unopened rfl rfl (fun key hkey => ?_) (fun _ _ => rfl) h.loaded
    rcases hcache key hkey with hold | ⟨_, _, _, _, hr⟩
    · exact hold
    · cases hr
  · rw [heq]
    exact h.opened hd hs.balanced (c := ⟨l', false⟩) hcache rfl rfl rfl (fun _ => rfl)
      (fun _ _ => rfl) nofun

/-- **Coverage is kept by every step in which reads succeed and slices skipped have
landed.** -/
theorem Covered.step (h : m.Covered rt.config l) (hrt : rt.Streams)
    (hs : Loading.Sound m.loading) (hd : DistinctTypes (rt.config.expertLayouts l)) {lab : Label}
    (hstep : StandardStep rt m lab m') (hfull : m.fullRead lab)
    (hlanded : m.slicesLanded rt l lab) : m'.Covered rt.config l := by
  cases hstep with
  | rest ha =>
      refine h.carry ha.carries (fun hst => ha.status ▸ hst) fun b hb => ?_
      rw [ha.io] at hb
      exact hb
  | @announce l' _ hsub hl ha =>
      refine Covered.carry (m := m) h ?_ (fun hst => ?_) fun b hb => ?_
      · exact ⟨fun b => by rw [ha.io]; rfl,
          fun b r hr => .inl ((inBatch_of_perm (ha.io ▸ List.Perm.refl _)).mpr hr),
          fun l r hr => ha.readSince ▸ hr, ha.cache, ha.basis⟩
      · rw [ha.status] at hst
        change Function.update m.layerStatus l' .loading l = .loaded at hst
        by_cases heq : l = l'
        · rw [heq, Function.update_self] at hst
          cases hst
        · rwa [Function.update_of_ne heq] at hst
      · rw [ha.io] at hb
        exact hb
  | submit hpending _ => exact h.submit hrt hs hd hpending hlanded
  | request hpending _ => exact h.request hrt hs hd _ _ _
  | send hio =>
      have hquiet := Pool.send_quiet hio
      exact h.carry (carries_of_io hquiet (Pool.send_spec hio).1) id
        fun b hb => (Loading.liveLoad_quiet hquiet).mp hb
  | release hl ha =>
      have hreleased := h.release hrt hs hl
      refine hreleased.carry ha.carries (fun hst => ha.status ▸ hst) fun b hb => ?_
      rw [ha.io] at hb
      exact hb
  | recv hio =>
      have hquiet := Pool.recv_quiet hio
      exact h.carry (carries_of_io hquiet (Pool.recv_spec hio).1) id
        fun b hb => (Loading.liveLoad_quiet hquiet).mp hb
  | pread hpread =>
      have hc := carries_of_pread hfull hpread
      obtain ⟨j, r, rs, _, io, -, -, -, hio, rfl⟩ := preadStep_spec hpread
      exact h.carry hc id fun b hb => (Loading.liveLoad_quiet (Pool.work_quiet hio)).mp hb
  | finish hfinish =>
      have hc := carries_of_finish hfinish
      obtain ⟨j, io, -, -, hio, rfl⟩ := finishStep_spec hfinish
      exact h.carry hc id fun b hb => (Loading.liveLoad_quiet (Pool.finish_quiet hio)).mp hb
  | fire hfire => exact h.fire hs hfire

theorem covered_start (coActivation : CoActivationMatrix) (expertPool : Option ExpertPool)
    (workers : Nat) : (start rt coActivation expertPool workers).Covered rt.config l where
  loaded hl := by cases hl
  loading b hb := by cases hb.1
  marked layout hm e he := by cases he

/-- **In every such run of standard mode the layer is covered.** -/
theorem covered_of_reaches {ok : Machine → Label → Prop} {coActivation : CoActivationMatrix}
    {expertPool : Option ExpertPool} {workers : Nat} (hrt : rt.Streams) (hworkers : 0 < workers)
    (hd : DistinctTypes (rt.config.expertLayouts l)) (hfull : ∀ m lab, ok m lab → m.fullRead lab)
    (hlanded : ∀ m lab, ok m lab → m.slicesLanded rt l lab)
    (h : Reaches (Machine.step rt) ok (start rt coActivation expertPool workers) m) :
    m.Orderly rt ∧ Loading.Sound m.loading ∧ m.Covered rt.config l := by
  refine h.invariant
    (P := fun m => m.Orderly rt ∧ Loading.Sound m.loading ∧ m.Covered rt.config l) ?_ ?_
  · exact ⟨orderly_start coActivation expertPool hworkers, Loading.sound_start workers,
      covered_start coActivation expertPool workers⟩
  · intro m lab m' ⟨ho, hs, hcov⟩ hok hstep
    have heffect := standardStep hrt ho hstep
    exact ⟨ho.step hrt hstep, (heffect.move hrt).sound hs,
      hcov.step hrt hs hd heffect (hfull m lab hok) (hlanded m lab hok)⟩

end Covered

end Machine

end Hypura
