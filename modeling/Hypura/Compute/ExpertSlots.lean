import Hypura.Compute.DenseReads
import Hypura.Compute.ExpertStep

/-!
# Hypura.Compute.ExpertSlots

Expert streaming: the slots of the layers, and what is read to them.

The thread waits for every load. So while it makes sure of experts, which is when slots
are given and taken, nothing is being read to them; and whatever is read to slots at other
times are slices of the layer that they belong to.
-/

namespace Hypura

open Hypura.Core Hypura.Core.Countdown

/-! ### The slices of a layer -/

/-- Where the slices of a layer are read to, in its slots. -/
def sliceRegions (slotSize : Nat) (layouts : List ExpertLayout) (slots : List Nat) : List Region :=
  (layouts.zip slots).flatMap fun q =>
    (List.range q.1.numExperts).map (q.1.pooledRegion (q.2 * slotSize))

/-- The fused tensors of a layer fit into the slots, expert after expert. -/
structure Sliced (cfg : PrefetchConfig) (slotSize numSlots : Nat) : Prop where
  pos : 0 < slotSize
  regions : ∀ l, cfg.expertLayouts l ≠ [] → cfg.layerRegions l ≠ []
  nodup : ∀ l, (cfg.expertNames l).Nodup
  few : ∀ l, (cfg.expertLayouts l).length ≤ numSlots
  experts : ∀ l, ∀ layout ∈ cfg.expertLayouts l, 0 < layout.numExperts
  plain : ∀ l, ∀ layout ∈ cfg.expertLayouts l, layout.expertPermutation = none
  fits : ∀ l, ∀ layout ∈ cfg.expertLayouts l, layout.numExperts * layout.expertStride ≤ slotSize

section Slices
variable {slotSize numSlots : Nat} {layouts : List ExpertLayout} {slots : List Nat} {r : Region}

theorem mem_sliceRegions : r ∈ sliceRegions slotSize layouts slots ↔
    ∃ q ∈ layouts.zip slots, ∃ e < q.1.numExperts, r = q.1.pooledRegion (q.2 * slotSize) e := by
  simp only [sliceRegions, List.mem_flatMap, List.mem_map, List.mem_range, eq_comm]

theorem mem_zip_offsets {q : ExpertLayout × Nat} :
    q ∈ layouts.zip (slots.map (· * slotSize)) ↔
      ∃ s, (q.1, s) ∈ layouts.zip slots ∧ q.2 = s * slotSize := by
  rw [List.zip_map_right, List.mem_map]
  constructor
  · rintro ⟨⟨layout, s⟩, hmem, rfl⟩
    exact ⟨s, hmem, rfl⟩
  · rintro ⟨s, hmem, heq⟩
    exact ⟨(q.1, s), hmem, Prod.ext rfl heq.symm⟩

/-- Without a permutation the experts lie in their order. -/
theorem pooledRegion_plain {layout : ExpertLayout} (h : layout.expertPermutation = none)
    (offset e : Nat) : layout.pooledRegion offset e = ⟨offset + e * layout.expertStride,
      layout.expertStride, layout.fileOffset + e * layout.expertStride⟩ := by
  simp [ExpertLayout.pooledRegion, ExpertLayout.expertFileOffset, ExpertLayout.mapExpertId, h]

/-- Ranges in different slots lie apart. -/
theorem ranges_apart {s s' a size a' size' : Nat} (hne : s ≠ s') (h : a + size ≤ slotSize)
    (h' : a' + size' ≤ slotSize) :
    DisjointRanges (s * slotSize + a) size (s' * slotSize + a') size' := by
  have hslots := DisjointRanges.of_strides 0 hne (le_refl slotSize) (le_refl slotSize)
  unfold DisjointRanges at *
  omega

/-- A slice lies in its slot. -/
theorem slice_inside {cfg : PrefetchConfig} (hs : Sliced cfg slotSize numSlots) {l e : Nat}
    {layout : ExpertLayout} (hm : layout ∈ cfg.expertLayouts l) (he : e < layout.numExperts) :
    e * layout.expertStride + layout.expertStride ≤ slotSize :=
  calc e * layout.expertStride + layout.expertStride = (e + 1) * layout.expertStride := by ring
    _ ≤ layout.numExperts * layout.expertStride := Nat.mul_le_mul_right _ he
    _ ≤ slotSize := hs.fits l layout hm

/-- A tensor has one slot. -/
theorem eq_of_zip_fst {cfg : PrefetchConfig} (hs : Sliced cfg slotSize numSlots) {l : Nat}
    {q q' : ExpertLayout × Nat} (hq : q ∈ (cfg.expertLayouts l).zip slots)
    (hq' : q' ∈ (cfg.expertLayouts l).zip slots) (heq : q.1 = q'.1) : q = q' := by
  have hlayouts : (cfg.expertLayouts l).Nodup := List.Nodup.of_map _ (hs.nodup l)
  obtain ⟨i, hi, rfl⟩ := List.mem_iff_getElem.mp hq
  obtain ⟨k, hk, rfl⟩ := List.mem_iff_getElem.mp hq'
  rw [List.getElem_zip, List.getElem_zip] at heq
  obtain rfl : i = k := hlayouts.getElem_inj_iff.mp heq
  rfl

/-- A slot has one tensor. -/
theorem eq_of_zip_snd (hnodup : slots.Nodup) {q q' : ExpertLayout × Nat}
    (hq : q ∈ layouts.zip slots) (hq' : q' ∈ layouts.zip slots) (heq : q.2 = q'.2) : q = q' := by
  obtain ⟨i, hi, rfl⟩ := List.mem_iff_getElem.mp hq
  obtain ⟨k, hk, rfl⟩ := List.mem_iff_getElem.mp hq'
  rw [List.getElem_zip, List.getElem_zip] at heq
  obtain rfl : i = k := hnodup.getElem_inj_iff.mp heq
  rfl

/-- Two slices are one, or lie apart, where no slot has two tensors. -/
theorem slice_eq_or_apart {cfg : PrefetchConfig} (hs : Sliced cfg slotSize numSlots)
    {l k e e' : Nat} {q q' : ExpertLayout × Nat} (hq : q.1 ∈ cfg.expertLayouts l) (hq' : q'.1 ∈ cfg.expertLayouts k)
    (he : e < q.1.numExperts) (he' : e' < q'.1.numExperts) (hslot : q.2 = q'.2 → q = q') :
    q.1.pooledRegion (q.2 * slotSize) e = q'.1.pooledRegion (q'.2 * slotSize) e' ∨
      DisjointRanges (q.1.pooledRegion (q.2 * slotSize) e).dst
        (q.1.pooledRegion (q.2 * slotSize) e).size (q'.1.pooledRegion (q'.2 * slotSize) e').dst
        (q'.1.pooledRegion (q'.2 * slotSize) e').size := by
  rw [pooledRegion_plain (hs.plain l _ hq), pooledRegion_plain (hs.plain k _ hq')]
  by_cases hne : q.2 = q'.2
  · obtain rfl := hslot hne
    by_cases hee : e = e'
    · exact .inl (by rw [hee])
    · exact .inr (DisjointRanges.of_strides _ hee le_rfl le_rfl)
  · exact .inr (ranges_apart hne (slice_inside hs hq he) (slice_inside hs hq' he'))

end Slices

section Build
variable {gguf : GgufFile} {map : TensorMap} {numLayers numSlots : Nat} {nvmeLayers : Finset Nat}
  {pool : ExpertPool}

end Build

namespace Machine

/-! ### The loads -/

/-- The thread waits for every load. -/
structure Awaited (m : Machine) : Prop where
  sound : m.loading.Sound
  wait : ∀ k b, Loading.LiveLoad m.io k b → m.await = some k

namespace Awaited
variable {rt : Runtime} {m m' : Machine} {l : Nat}

theorem not_live (h : m.Awaited) (hawait : m.await = none) (k b : Nat) :
    ¬ Loading.LiveLoad m.io k b := fun hlive => by
  have hwait := h.wait k b hlive
  rw [hawait] at hwait
  cases hwait

theorem not_loading (h : m.Awaited) (hawait : m.await = none) (hsub : m.submitting = none)
    (k : Nat) : m.layerStatus k ≠ .loading := by
  intro hk
  rcases h.sound.loading k hk with hsubmitting | ⟨b, hlive⟩
  · rw [show m.loading.submitting = none from hsub] at hsubmitting
    cases hsubmitting
  · exact h.not_live hawait k b hlive

theorem quiet (h : m.Awaited) {io : IoPool} (hq : Pool.Quiet m.io io)
    (hloading : m'.loading = { m.loading with io := io }) (hawait : m'.await = m.await) :
    m'.Awaited := by
  have hio : m'.io = io := congrArg Loading.io hloading
  refine ⟨hloading ▸ Loading.Move.sound (.pool hq) h.sound, fun k b hlive => ?_⟩
  rw [hio, Loading.liveLoad_quiet hq] at hlive
  exact hawait.trans (h.wait k b hlive)

/-- A load is submitted, and the thread waits for it. -/
theorem opened (h : m.Awaited) {tasks : List IoPoolTask} (hsound : m'.loading.Sound)
    (hio : m'.io = m.io.openBatch ⟨l, true⟩ tasks) (hawait : m'.await = some l)
    (hbefore : ∀ k, m.await = some k → k = l) : m'.Awaited := by
  refine ⟨hsound, fun k b hlive => ?_⟩
  rw [hio] at hlive
  rcases (Loading.liveLoad_openBatch h.sound.balanced).mp hlive with ⟨-, heq⟩ | hold
  · exact hawait.trans (congrArg (fun c => some c.layerIdx) heq)
  · rw [hawait, hbefore k (h.wait k b hold)]

/-- The tasks are left alone. -/
theorem same_io (h : m.Awaited) (hsound : m'.loading.Sound) (hio : m'.io = m.io)
    (hawait : ∀ k b, Loading.LiveLoad m.io k b → m.await = some k → m'.await = some k) :
    m'.Awaited :=
  ⟨hsound, fun k b hlive => hawait k b (hio ▸ hlive) (h.wait k b (hio ▸ hlive))⟩

theorem ensured (h : m.Awaited) {ids : List Nat} (hensuring : m.Ensuring l ids)
    (hensured : Ensured rt m l ids m') : m'.Awaited := by
  have hsub := ensuring_submitting hensuring
  cases hensured with
  | found _ _ _ _ _ hloading hawait =>
      exact h.quiet (quiet_of_eq rfl) hloading (hawait.trans hensuring.await.symm)
  | pooled _ hloading hawait =>
      exact h.quiet (quiet_of_eq rfl) hloading (hawait.trans hensuring.await.symm)
  | submitted htasks _ hloading hawait =>
      refine h.opened ?_ (congrArg Loading.io hloading) hawait fun k hk => ?_
      · rw [hloading]
        exact h.sound.load hsub (h.not_loading hensuring.await hsub l) (by simpa using htasks)
      · rw [hensuring.await] at hk
        cases hk

theorem request (h : m.Awaited) {tasks : List IoPoolTask} (htasks : tasks ≠ [])
    (hloading : m'.loading = { m.loading with io := m.io.openBatch ⟨l, false⟩ tasks })
    (hawait : m'.await = m.await) : m'.Awaited := by
  have hio : m'.io = _ := congrArg Loading.io hloading
  refine ⟨hloading ▸ h.sound.request htasks, fun k b hlive => ?_⟩
  rw [hio] at hlive
  rcases (Loading.liveLoad_openBatch h.sound.balanced).mp hlive with ⟨-, heq⟩ | hold
  · cases heq
  · exact hawait.trans (h.wait k b hold)

theorem fire (h : m.Awaited) {w : Nat} (hfire : m.fireStep w = some m') : m'.Awaited := by
  obtain ⟨b, tag, io, hw, htag, hio, rfl⟩ := fireStep_spec hfire
  have hsound := h.sound.fire hw htag hio
  have hwait : ∀ k b', Loading.LiveLoad io k b' → m.await = some k := fun k b' hlive =>
    h.wait k b' ((Loading.liveLoad_fire hio hw).mp hlive).1
  by_cases hupdate : tag.updateStatus = true
  · rw [if_pos hupdate] at hsound ⊢
    exact ⟨hsound, hwait⟩
  · rw [if_neg hupdate] at hsound ⊢
    exact ⟨hsound, hwait⟩

/-- **One step**, and the loads. -/
theorem step (h : m.Awaited) {lab : Label} (hstep : ExpertStep rt m lab m') : m'.Awaited := by
  cases hstep with
  | rest _ _ hloading hawait => exact h.quiet (quiet_of_eq rfl) hloading hawait
  | ensured hensuring hensured => exact h.ensured hensuring hensured
  | request _ _ _ hloading hawait =>
      rcases hloading with hloading | ⟨tasks, htasks, hloading⟩
      · exact h.quiet (quiet_of_eq rfl) hloading hawait
      · exact h.request (by simpa using htasks) hloading hawait
  | @reset l _ _ _ hloading hsub hnone _ =>
      refine h.same_io (hloading ▸ h.sound.release (h.not_loading hnone hsub l))
        (congrArg Loading.io hloading) fun k b hlive _ => ?_
      exact absurd hlive (h.not_live hnone k b)
  | announce _ _ hsub hl hloading hnone _ =>
      refine h.same_io (hloading ▸ h.sound.announce hsub (by simp [loading, hl]))
        (congrArg Loading.io hloading) fun k b hlive _ => ?_
      exact absurd hlive (h.not_live hnone k b)
  | cold _ _ hsub htasks hloading hsome hawait =>
      refine h.opened (hloading ▸ h.sound.submit hsub (by simpa using htasks))
        (congrArg Loading.io hloading) hawait fun k hk => ?_
      exact Option.some.inj (hk.symm.trans hsome)
  | nothing _ _ hsub hloading hawait =>
      exact h.same_io (hloading ▸ h.sound.nothing hsub) (congrArg Loading.io hloading)
        fun _ _ _ hk => hawait.trans hk
  | arrived _ _ hloading hl hsome _ =>
      refine h.same_io (hloading ▸ h.sound) (congrArg Loading.io hloading) fun k b hlive hk => ?_
      -- a loaded layer has no load
      have hst : m.layerStatus k = .loading := (h.sound.live k b hlive).1
      rw [← Option.some.inj (hsome.symm.trans hk), hl] at hst
      cases hst
  | send hio => exact h.quiet (Pool.send_quiet hio) rfl rfl
  | recv hio => exact h.quiet (Pool.recv_quiet hio) rfl rfl
  | pread hpread =>
      obtain ⟨j, r, rs, k, io, -, -, -, hio, rfl⟩ := preadStep_spec hpread
      exact h.quiet (Pool.work_quiet hio) rfl rfl
  | finish hfinish =>
      obtain ⟨j, io, -, -, hio, rfl⟩ := finishStep_spec hfinish
      exact h.quiet (Pool.finish_quiet hio) rfl rfl
  | fire hfire => exact h.fire hfire

end Awaited

/-! ### The slots -/

/-- The region is in its slot, or in a task that reads to the slots. -/
def Coming (rt : Runtime) (m : Machine) (r : Region) : Prop :=
  r.HoldsIn rt.file (m.memory .pool) ∨
    ∃ j ∈ m.io.jobs, j.payload.base = .pool ∧ r ∈ j.payload.regions

/-- What is known of the slots. -/
structure PoolKept (rt : Runtime) (slotSize numSlots : Nat) (m : Machine) : Prop where
  awaited : m.Awaited
  pool : ∃ p, m.expertPool = some p ∧ p.Partitioned ∧ p.slotSize = slotSize ∧
    p.numSlots = numSlots
  length : ∀ k slots, m.slotsOf k = some slots →
    slots.length = (rt.config.expertLayouts k).length
  /-- What a task reads to slots are slices of a layer that has them. -/
  targets : ∀ j ∈ m.io.jobs, j.payload.base = .pool → ∃ k slots,
    m.io.tag? j.batch = some ⟨k, true⟩ ∧ m.slotsOf k = some slots ∧
      ∀ r ∈ j.payload.regions, r ∈ sliceRegions slotSize (rt.config.expertLayouts k) slots

/-- The slots and the pointers are left alone, and so is what is read to them, unless it is
read in full. -/
structure KeepsPlaces (rt : Runtime) (slotSize : Nat) (m m' : Machine) : Prop where
  pool : m'.expertPool = m.expertPool
  data : m'.tensorData = m.tensorData
  tasks : ∀ j ∈ m'.io.jobs, j.payload.base = .pool → ∃ i ∈ m.io.jobs, i.payload.base = .pool ∧
    m'.io.tag? j.batch = m.io.tag? i.batch ∧ j.payload.regions ⊆ i.payload.regions
  coming : ∀ k slots, m.slotsOf k = some slots →
    ∀ r ∈ sliceRegions slotSize (rt.config.expertLayouts k) slots, m.Coming rt r → m'.Coming rt r

section Slots
variable {rt : Runtime} {m m' : Machine} {l slotSize numSlots : Nat}

/-- Nothing is read to slots while the thread does not wait. -/
theorem PoolKept.no_task (h : PoolKept rt slotSize numSlots m) (hawait : m.await = none) :
    ∀ j ∈ m.io.jobs, j.payload.base ≠ .pool := by
  intro j hj hbase
  obtain ⟨k, slots, htag, -, -⟩ := h.targets j hj hbase
  have hbalanced : m.io.Balanced := h.awaited.sound.balanced
  have hlive := hbalanced.live_iff.mpr (.inl ⟨j, hj, rfl⟩)
  exact h.awaited.not_live hawait k j.batch ⟨htag, hlive.2⟩

/-- What is coming has come. -/
theorem PoolKept.holdsIn (h : PoolKept rt slotSize numSlots m) (hawait : m.await = none)
    {r : Region} (hr : m.Coming rt r) : r.HoldsIn rt.file (m.memory .pool) :=
  hr.resolve_right fun ⟨j, hj, hbase, _⟩ => h.no_task hawait j hj hbase

/-- Two slices are one, or lie apart. -/
theorem PoolKept.eq_or_apart (h : PoolKept rt slotSize numSlots m)
    (hs : Sliced rt.config slotSize numSlots) {k : Nat} {slots slots' : List Nat}
    (hl : m.slotsOf l = some slots) (hk : m.slotsOf k = some slots') {r r' : Region}
    (hr : r ∈ sliceRegions slotSize (rt.config.expertLayouts l) slots)
    (hr' : r' ∈ sliceRegions slotSize (rt.config.expertLayouts k) slots') :
    r = r' ∨ DisjointRanges r.dst r.size r'.dst r'.size := by
  obtain ⟨p, hp, hpart, -, -⟩ := h.pool
  simp only [slotsOf, hp, Option.bind_some] at hl hk
  obtain ⟨q, hq, e, he, rfl⟩ := mem_sliceRegions.mp hr
  obtain ⟨q', hq', e', he', rfl⟩ := mem_sliceRegions.mp hr'
  refine slice_eq_or_apart hs (List.of_mem_zip hq).1 (List.of_mem_zip hq').1 he he' fun hslot => ?_
  by_cases hkl : k = l
  · subst hkl
    obtain rfl : slots = slots' := Option.some.inj (hl.symm.trans hk)
    exact eq_of_zip_snd (hpart.nodup_slots hl) hq hq' hslot
  · exact absurd (hslot ▸ (List.of_mem_zip hq').2)
      (hpart.disjoint hkl hl hk (List.of_mem_zip hq).2)

/-! ### Steps that leave the slots alone -/

theorem SamePlaces.keepsPlaces (h : m.SamePlaces m') (hjobs : m'.io.jobs.Perm m.io.jobs)
    (htag : ∀ b, m'.io.tag? b = m.io.tag? b) : KeepsPlaces rt slotSize m m' where
  pool := h.pool
  data := h.data
  tasks j hj hbase := ⟨j, hjobs.mem_iff.mp hj, hbase, htag j.batch, List.Subset.refl _⟩
  coming _ _ _ r _ hr := by
    unfold Coming
    rw [h.memory]
    exact hr.imp_right fun ⟨j, hj, hjob⟩ => ⟨j, hjobs.mem_iff.mpr hj, hjob⟩

theorem SamePlaces.still (h : m.SamePlaces m') (hio : m'.io = m.io) :
    KeepsPlaces rt slotSize m m' :=
  h.keepsPlaces (by rw [hio]) fun b => by rw [hio]

/-- Tasks for the buffer are submitted. -/
theorem SamePlaces.opened (h : m.SamePlaces m') (hb : m.io.Balanced) {c : IoCompletion}
    {tasks : List (List Region)} (hio : m'.io = m.io.openBatch c (tasks.map (⟨·, .buffer, []⟩))) :
    KeepsPlaces rt slotSize m m' where
  pool := h.pool
  data := h.data
  tasks j hj hbase := by
    rw [hio, Pool.mem_jobs_openBatch] at hj
    rcases hj with ⟨regions, -, rfl⟩ | hj
    · cases hbase
    · refine ⟨j, hj, hbase, ?_, List.Subset.refl _⟩
      rw [hio, Pool.tag?_openBatch, if_neg (hb.batch_lt j hj).ne]
  coming _ _ _ r _ hr := by
    unfold Coming
    rw [h.memory]
    refine hr.imp_right fun ⟨j, hj, hjob⟩ => ⟨j, ?_, hjob⟩
    rw [hio, Pool.mem_jobs_openBatch]
    exact .inr hj

/-- A task is finished when it has read its regions. -/
theorem KeepsPlaces.finish {w : Nat} (hfinish : m.finishStep w = some m') :
    KeepsPlaces rt slotSize m m' := by
  obtain ⟨j, io, hw, hnil, hio, rfl⟩ := finishStep_spec hfinish
  obtain ⟨j', x, hw', -, hjobs, -, -, -, -, -⟩ := Pool.finish_spec hio
  obtain rfl : j = j' := Worker.busy.inj (Option.some.inj (hw.symm.trans hw'))
  refine ⟨rfl, rfl, fun k hk hbase => ?_,
    fun _ _ _ r _ hr => hr.imp_right fun ⟨k, hk, hbase, hrk⟩ => ?_⟩
  · exact ⟨k, hjobs.mem_iff.mpr (List.mem_cons_of_mem _ hk), hbase, Pool.tag?_finish hio k.batch,
      List.Subset.refl _⟩
  · rcases List.mem_cons.mp (hjobs.mem_iff.mp hk) with rfl | hk
    · rw [hnil] at hrk
      cases hrk
    · exact ⟨k, hk, hbase, hrk⟩

/-- What a task for the slots reads in full is then there, and no other slice is written. -/
theorem PoolKept.pread (h : PoolKept rt slotSize numSlots m)
    (hs : Sliced rt.config slotSize numSlots) {w count : Nat}
    (hfull : m.fullRead (.pread w count) = true) (hpread : m.preadStep rt w count = some m') :
    KeepsPlaces rt slotSize m m' := by
  obtain ⟨j, r, rs, k, io, hw, hregions, -, hio, rfl⟩ := preadStep_spec hpread
  have hcount : r.size ≤ count := size_le_of_fullRead hfull hw hregions
  obtain ⟨j', rest, hw', hjobs, hjobs', hbatches, -, -, -, -⟩ := Pool.work_spec hio
  obtain rfl : j = j' := Worker.busy.inj (Option.some.inj (hw.symm.trans hw'))
  have hj : j ∈ m.io.jobs := hjobs.mem_iff.mpr List.mem_cons_self
  have hr : r ∈ j.payload.regions := hregions ▸ List.mem_cons_self
  refine ⟨rfl, rfl, fun i hi hbase => ?_, fun k slots hslots r' hr' hcoming => ?_⟩
  · rcases List.mem_cons.mp (hjobs'.mem_iff.mp hi) with rfl | hi
    · exact ⟨j, hj, hbase, Pool.tag?_of_batches hbatches j.batch,
        hregions ▸ List.subset_cons_self _ _⟩
    · exact ⟨i, hjobs.mem_iff.mpr (List.mem_cons_of_mem _ hi), hbase,
        Pool.tag?_of_batches hbatches i.batch, List.Subset.refl _⟩
  · have hread : j.payload.base = .pool → r.HoldsIn rt.file
        (Function.update m.memory j.payload.base
          (r.fill rt.file (min count r.size) (m.memory j.payload.base)) .pool) := fun hbase => by
      rw [hbase, Function.update_self]
      exact holdsIn_fill hcount
    rcases hcoming with hheld | ⟨i, hi, hbase, hri⟩
    · left
      show Region.HoldsIn rt.file r' (Function.update m.memory j.payload.base _ .pool)
      by_cases hbase : j.payload.base = .pool
      · obtain ⟨k', slots', -, hslots', hall⟩ := h.targets j hj hbase
        rcases h.eq_or_apart hs hslots hslots' hr' (hall r hr) with rfl | hapart
        · exact hread hbase
        · rw [hbase, Function.update_self]
          exact hheld.fill hapart (Nat.min_le_right _ _)
      · rw [Function.update_of_ne (Ne.symm hbase)]
        exact hheld
    · rcases List.mem_cons.mp (hjobs.mem_iff.mp hi) with rfl | hi
      · rw [hregions] at hri
        rcases List.mem_cons.mp hri with rfl | hri
        · exact .inl (hread hbase)
        · exact .inr ⟨_, hjobs'.mem_iff.mpr List.mem_cons_self, hbase, hri⟩
      · exact .inr ⟨i, hjobs'.mem_iff.mpr (List.mem_cons_of_mem _ hi), hbase, hri⟩

/-- Experts are made sure of, or the slots are left alone. -/
theorem PoolKept.keepsPlaces (h : PoolKept rt slotSize numSlots m)
    (hs : Sliced rt.config slotSize numSlots) {lab : Label} (hfull : m.fullRead lab = true)
    (hstep : ExpertStep rt m lab m') :
    (∃ k ids, m.Ensuring k ids ∧ Ensured rt m k ids m') ∨ KeepsPlaces rt slotSize m m' := by
  have hbalanced : m.io.Balanced := h.awaited.sound.balanced
  cases hstep with
  | ensured hensuring hensured => exact .inl ⟨_, _, hensuring, hensured⟩
  | rest hsame _ hloading _ => exact .inr (hsame.still (congrArg Loading.io hloading))
  | request _ hsame _ hloading _ =>
      rcases hloading with hloading | ⟨tasks, -, hloading⟩
      · exact .inr (hsame.still (congrArg Loading.io hloading))
      · exact .inr (hsame.opened hbalanced (congrArg Loading.io hloading))
  | reset hsame _ hloading _ _ _ => exact .inr (hsame.still (congrArg Loading.io hloading))
  | announce hsame _ _ _ hloading _ _ => exact .inr (hsame.still (congrArg Loading.io hloading))
  | cold hsame _ _ _ hloading _ _ =>
      exact .inr (hsame.opened hbalanced (congrArg Loading.io hloading))
  | nothing hsame _ _ hloading _ => exact .inr (hsame.still (congrArg Loading.io hloading))
  | arrived hsame _ hloading _ _ _ => exact .inr (hsame.still (congrArg Loading.io hloading))
  | send hio =>
      exact .inr (SamePlaces.keepsPlaces ⟨rfl, rfl, rfl⟩ (Pool.send_spec hio).1
        (Pool.send_quiet hio).tag?_eq)
  | recv hio =>
      exact .inr (SamePlaces.keepsPlaces ⟨rfl, rfl, rfl⟩ (Pool.recv_spec hio).1
        (Pool.recv_quiet hio).tag?_eq)
  | pread hpread => exact .inr (h.pread hs hfull hpread)
  | finish hfinish => exact .inr (.finish hfinish)
  | fire hfire =>
      obtain ⟨b, tag, io, -, -, hio, rfl⟩ := fireStep_spec hfire
      obtain ⟨-, -, hjobs, hbatches, -⟩ := Pool.fire_spec hio
      right
      split
      · exact SamePlaces.keepsPlaces ⟨rfl, rfl, rfl⟩ hjobs (Pool.tag?_of_batches hbatches)
      · exact SamePlaces.keepsPlaces ⟨rfl, rfl, rfl⟩ hjobs (Pool.tag?_of_batches hbatches)

theorem PoolKept.carried (h : PoolKept rt slotSize numSlots m) (hc : KeepsPlaces rt slotSize m m')
    (hawaited : m'.Awaited) : PoolKept rt slotSize numSlots m' := by
  have hslots : ∀ k, m'.slotsOf k = m.slotsOf k := fun k => by rw [slotsOf, slotsOf, hc.pool]
  refine ⟨hawaited, hc.pool ▸ h.pool, fun k slots hk => h.length k slots ((hslots k).symm.trans hk),
    fun j hj hbase => ?_⟩
  obtain ⟨i, hi, hibase, htag, hsub⟩ := hc.tasks j hj hbase
  obtain ⟨k, slots, htag', hk, hregions⟩ := h.targets i hi hibase
  exact ⟨k, slots, htag.trans htag', (hslots k).trans hk, fun r hr => hregions r (hsub hr)⟩

/-! ### Experts are made sure of -/

/-- What is submitted for slots, if anything is. -/
structure SubmitsSlices (m : Machine) (l : Nat) (tasks : List (List Region)) (m' : Machine) :
    Prop where
  jobs : ∀ j, j ∈ m'.io.jobs ↔
    (∃ regions ∈ tasks, j = ⟨m.io.batches.length, ⟨regions, .pool, []⟩⟩) ∨ j ∈ m.io.jobs
  tag : tasks ≠ [] → m'.io.tag? m.io.batches.length = some ⟨l, true⟩

/-- Every slice is found, or the layer is given slots. -/
theorem Ensured.found_or_pooled {ids : List Nat} (h : Ensured rt m l ids m') :
    ((∀ e ∈ ids, ∀ layout ∈ rt.config.expertLayouts l,
        (l, e, layout.tensorType) ∈ m.neuronCache.entries) ∧
      (∀ p slots, m.expertPool = some p → p.slotsOf l = some slots → m'.tensorData =
        (m.rewritePtrs (rt.config.expertNames l) (slots.map (· * p.slotSize))).tensorData) ∧
      m'.expertPool = m.expertPool ∧ m'.memory = m.memory ∧
      m'.neuronCache.entries = m.neuronCache.entries ∧ m'.io = m.io) ∨
    ∃ p offsets p' tasks, Pooled rt m l ids p offsets p' tasks m' ∧ SubmitsSlices m l tasks m' := by
  cases h with
  | found hcached hdata hpool hmemory hcache hloading _ =>
      exact .inl ⟨hcached, hdata, hpool, hmemory, hcache, congrArg Loading.io hloading⟩
  | pooled hpooled hloading _ =>
      have hio : m'.io = m.io := congrArg Loading.io hloading
      refine .inr ⟨_, _, _, [], hpooled, fun j => ?_, fun hne => absurd rfl hne⟩
      simp [hio]
  | submitted _ hpooled hloading _ =>
      have hio : m'.io = _ := congrArg Loading.io hloading
      refine .inr ⟨_, _, _, _, hpooled, fun j => ?_, fun _ => ?_⟩
      · rw [hio, Pool.mem_jobs_openBatch]
      · rw [hio, Pool.tag?_openBatch, if_pos rfl]

section Pooled
variable {ids : List Nat} {p p' : ExpertPool} {offsets : List Nat} {tasks : List (List Region)}

theorem Pooled.takes (hpooled : Pooled rt m l ids p offsets p' tasks m')
    (h : PoolKept rt slotSize numSlots m) (hs : Sliced rt.config slotSize numSlots) :
    p.Takes l (rt.config.expertLayouts l).length offsets p' ∧ p.Partitioned ∧
      p.slotSize = slotSize ∧ p.numSlots = numSlots := by
  obtain ⟨q, hq, hpart, rfl, hnum⟩ := h.pool
  obtain rfl : p = q := Option.some.inj (hpooled.before.symm.trans hq)
  have hpos := List.length_pos_iff.mpr hpooled.nonempty
  exact ⟨hpart.takes hs.pos hpos (hnum ▸ hs.few l) hpooled.taken, hpart, rfl, hnum⟩

theorem Pooled.slotsOf_before (hpooled : Pooled rt m l ids p offsets p' tasks m') (k : Nat) :
    m.slotsOf k = p.slotsOf k := by
  rw [slotsOf, hpooled.before]
  rfl

theorem Pooled.slotsOf_after (hpooled : Pooled rt m l ids p offsets p' tasks m') (k : Nat) :
    m'.slotsOf k = p'.slotsOf k := by
  rw [slotsOf, hpooled.pool]
  rfl

/-- The layer has a slot for each of its tensors, and its pointers are there. -/
theorem Pooled.granted (hpooled : Pooled rt m l ids p offsets p' tasks m')
    (h : PoolKept rt slotSize numSlots m) (hs : Sliced rt.config slotSize numSlots) :
    ∃ slots, m'.slotsOf l = some slots ∧ slots.length = (rt.config.expertLayouts l).length ∧
      offsets = slots.map (· * slotSize) := by
  obtain ⟨htakes, -, rfl, -⟩ := hpooled.takes h hs
  obtain ⟨slots, hslots, hoffsets, hfresh⟩ := htakes.granted
  refine ⟨slots, (hpooled.slotsOf_after l).trans hslots, ?_, hoffsets⟩
  by_cases hnone : p.slotsOf l = none
  · exact hfresh hnone
  · rw [htakes.resident hnone] at hslots
    exact h.length l slots ((hpooled.slotsOf_before l).trans hslots)

/-- With the slots of its layer a slice is left its bytes, unless the entries of its layer were
dropped. -/
theorem Pooled.undisturbed (hpooled : Pooled rt m l ids p offsets p' tasks m')
    (h : PoolKept rt slotSize numSlots m) (hs : Sliced rt.config slotSize numSlots) {k : Nat}
    {slots : List Nat} (hk : m.slotsOf k = some slots)
    (hkept : k ∉ evictedLayers p l (rt.config.expertLayouts l).length) :
    m'.slotsOf k = some slots ∧ m'.memory = m.memory := by
  obtain ⟨htakes, hpart, -, -⟩ := hpooled.takes h hs
  rw [hpooled.slotsOf_before] at hk
  -- no layer loses its slots
  have hall : ∀ k', p.slotsOf k' ≠ none → p'.slotsOf k' = p.slotsOf k' := by
    intro k' hk'
    by_cases hl : p.slotsOf l = none
    · have hkl : k ≠ l := by
        rintro rfl
        rw [hl] at hk
        cases hk
      have hkey : k ∈ p.layerSlots.map (·.1) := List.mem_map_of_mem (ExpertPool.mem_of_lookup hk)
      have hfree : ¬ p.freeSlots.length < (rt.config.expertLayouts l).length := fun hlt =>
        hkept (List.mem_filter.mpr ⟨hkey, by simp [hkl, hlt]⟩)
      exact htakes.spared k' (fun heq => hk' (heq ▸ hl)) (.inr (by omega))
    · rw [htakes.resident hl]
  have hlost : lostSlots p p' = [] := by
    have hnil : p.layerSlots.filter (fun entry => p'.slotsOf entry.1 = none) = [] := by
      refine List.filter_eq_nil_iff.mpr fun entry hentry => ?_
      have hslots := hpart.slotsOf_of_mem hentry
      rw [decide_eq_true_eq, hall entry.1 (by rw [hslots]; exact Option.some_ne_none _), hslots]
      exact Option.some_ne_none _
    rw [lostSlots, hnil, List.flatMap_nil]
  have hkeeps := hall k (by rw [hk]; exact Option.some_ne_none _)
  refine ⟨(hpooled.slotsOf_after k).trans (hkeeps.trans hk), hpooled.memory.trans ?_⟩
  show Function.update m.memory .pool ((lostSlots p p').foldl _ _) = m.memory
  rw [hlost]
  exact Function.update_eq_self ..

theorem Pooled.poolKept (hpooled : Pooled rt m l ids p offsets p' tasks m')
    (h : PoolKept rt slotSize numSlots m) (hs : Sliced rt.config slotSize numSlots)
    (hawait : m.await = none) (hsub : SubmitsSlices m l tasks m') (hawaited : m'.Awaited) :
    PoolKept rt slotSize numSlots m' := by
  obtain ⟨htakes, -, rfl, hnum⟩ := hpooled.takes h hs
  obtain ⟨slots, hslots, hlen, hoffsets⟩ := hpooled.granted h hs
  have hpool := And.intro htakes.slotSize (htakes.numSlots.trans hnum)
  refine ⟨hawaited, ⟨p', hpooled.pool, htakes.partitioned, hpool⟩,
    fun k slots' hk => ?_, fun j hj hbase => ?_⟩
  · by_cases hkl : k = l
    · subst hkl
      obtain rfl : slots = slots' := Option.some.inj (hslots.symm.trans hk)
      exact hlen
    · rw [hpooled.slotsOf_after] at hk
      rcases htakes.others k hkl with hsame | hnone
      · exact h.length k slots' ((hpooled.slotsOf_before k).trans (hsame.symm.trans hk))
      · rw [hnone] at hk
        cases hk
  · rcases (hsub.jobs j).mp hj with ⟨regions, hregions, rfl⟩ | hold
    · refine ⟨l, slots, hsub.tag (List.ne_nil_of_mem hregions), hslots, fun r hr => ?_⟩
      obtain ⟨q, hq, e, -, he, rfl⟩ := hpooled.only r (List.mem_flatten.mpr ⟨regions, hregions, hr⟩)
      rw [hoffsets] at hq
      obtain ⟨s, hs, hoffset⟩ := mem_zip_offsets.mp hq
      rw [hoffset]
      exact mem_sliceRegions.mpr ⟨_, hs, e, he, rfl⟩
    · exact absurd hbase (h.no_task hawait j hold)

end Pooled

/-- **One step**, and the slots. -/
theorem PoolKept.step (h : PoolKept rt slotSize numSlots m)
    (hs : Sliced rt.config slotSize numSlots) {lab : Label} (hfull : m.fullRead lab = true)
    (hstep : ExpertStep rt m lab m') : PoolKept rt slotSize numSlots m' := by
  have hawaited := h.awaited.step hstep
  rcases h.keepsPlaces hs hfull hstep with ⟨k, ids, hensuring, hensured⟩ | hkeeps
  · rcases hensured.found_or_pooled with ⟨-, -, hpool, -, -, hio⟩ |
      ⟨p, offsets, p', tasks, hpooled, hsub⟩
    · have hslots : ∀ k, m'.slotsOf k = m.slotsOf k := fun k => by rw [slotsOf, slotsOf, hpool]
      refine ⟨hawaited, hpool ▸ h.pool,
        fun k slots hk => h.length k slots ((hslots k).symm.trans hk), fun j hj hbase => ?_⟩
      exact absurd hbase (h.no_task hensuring.await j (hio ▸ hj))
    · exact hpooled.poolKept h hs hensuring.await hsub hawaited
  · exact h.carried hkeeps hawaited

end Slots

end Machine

end Hypura
