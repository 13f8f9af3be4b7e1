import Hypura.Compute.ExpertSlots
import Hypura.Compute.RouterChoice

/-!
# Hypura.Compute.ExpertReads

Expert streaming: do the slots of a layer hold the slices that the neuron cache has, and
those of the selected experts once an `ask` callback has returned?

The cache is also told of slices that speculation reads to the buffer, and a layer of which
nothing is selected is read there as a whole. `marksNone` is the condition that no slice of
the layer is marked by speculation. In a run of such steps what the cache has of the layer
is in its slots, or about to be; and the layer asked for is resident exactly if its selection
is known.
-/

namespace Hypura

open Hypura.Core Hypura.Core.Countdown

namespace Machine

/-! ### The slices of a layer -/

/-- **The condition**: no slice of layer `l` is requested that the cache does not have. The
slices that are requested are marked, and read to the buffer. -/
def marksNone (rt : Runtime) (l : Nat) (m : Machine) : Label → Bool
  | .thread =>
    match m.pending.head? with
    | some (.requestExperts k ids) => decide (k = l → ∀ layout ∈ rt.config.expertLayouts l,
        ∀ e ∈ ids, e < layout.numExperts → (l, e, layout.tensorType) ∈ m.neuronCache.entries)
    | _ => true
  | _ => true

/-- The tensors of layer `l` point to its slots, where the slices of `ids` are, or are coming. -/
def Serves (rt : Runtime) (slotSize : Nat) (m : Machine) (l : Nat) (ids : List Nat) : Prop :=
  ∃ slots, m.slotsOf l = some slots ∧
    (rt.config.expertNames l).map m.tensorData = slots.map (fun s => (Base.pool, s * slotSize)) ∧
    ∀ q ∈ (rt.config.expertLayouts l).zip slots, ∀ e ∈ ids, e < q.1.numExperts →
      m.Coming rt (q.1.pooledRegion (q.2 * slotSize) e)

/-- What is known of layer `l`. -/
structure SlicesKept (rt : Runtime) (slotSize l : Nat) (m : Machine) : Prop where
  /-- What the cache has is in the slots of the layer, or coming. -/
  marked : ∀ e t, (l, e, t) ∈ m.neuronCache.entries → ∃ slots, m.slotsOf l = some slots ∧
    ∃ q ∈ (rt.config.expertLayouts l).zip slots, q.1.tensorType = t ∧ e < q.1.numExperts ∧
      m.Coming rt (q.1.pooledRegion (q.2 * slotSize) e)
  /-- Slots are for a selection. -/
  unknown : m.selectedExperts l = none → m.slotsOf l = none
  served : ∀ ids, m.asked = some l → m.selectedExperts l = some ids →
    rt.config.expertLayouts l ≠ [] → ids ≠ [] →
      m.pending = [.ensureExperts l ids] ∨ m.Serves rt slotSize l ids

section SlicesKept
variable {rt : Runtime} {m m' : Machine} {l k slotSize numSlots : Nat} {ids : List Nat}

/-- A slice that the cache has is where its tensor's slot is. -/
theorem SlicesKept.coming (h : SlicesKept rt slotSize l m)
    (hs : Sliced rt.config slotSize numSlots) (hd : DistinctTypes (rt.config.expertLayouts l))
    {slots : List Nat} (hslots : m.slotsOf l = some slots) {q : ExpertLayout × Nat}
    (hq : q ∈ (rt.config.expertLayouts l).zip slots) {e : Nat}
    (hcached : (l, e, q.1.tensorType) ∈ m.neuronCache.entries) :
    m.Coming rt (q.1.pooledRegion (q.2 * slotSize) e) := by
  obtain ⟨slots', hslots', q', hq', htype, -, hcoming⟩ := h.marked e _ hcached
  obtain rfl : slots = slots' := Option.some.inj (hslots.symm.trans hslots')
  have hlayout := hd.eq_of_tensorType (List.of_mem_zip hq').1 (List.of_mem_zip hq).1 htype
  rwa [eq_of_zip_fst hs hq' hq hlayout] at hcoming

theorem coming_of_task {tasks : List (List Region)} (hsub : SubmitsSlices m k tasks m')
    {r : Region} (hr : r ∈ tasks.flatten) : m'.Coming rt r := by
  obtain ⟨regions, hregions, hr⟩ := List.mem_flatten.mp hr
  exact .inr ⟨_, (hsub.jobs _).mpr (.inl ⟨regions, hregions, rfl⟩), rfl, hr⟩

theorem coming_of_submits {tasks : List (List Region)} (hsub : SubmitsSlices m k tasks m')
    (hmemory : m'.memory = m.memory) {r : Region} (h : m.Coming rt r) : m'.Coming rt r := by
  unfold Coming
  rw [hmemory]
  exact h.imp_right fun ⟨j, hj, hjob⟩ => ⟨j, (hsub.jobs j).mpr (.inr hj), hjob⟩

theorem coming_of_eq (hio : m'.io = m.io) (hmemory : m'.memory = m.memory) {r : Region}
    (h : m.Coming rt r) : m'.Coming rt r := by
  unfold Coming
  rw [hmemory, hio]
  exact h

/-- The pointers, once they are rewritten. -/
theorem map_rewritten (hs : Sliced rt.config slotSize numSlots) {slots : List Nat}
    (hlen : slots.length = (rt.config.expertLayouts l).length)
    (hdata : m'.tensorData =
      (m.rewritePtrs (rt.config.expertNames l) (slots.map (· * slotSize))).tensorData) :
    (rt.config.expertNames l).map m'.tensorData = slots.map fun s => (Base.pool, s * slotSize) := by
  rw [hdata, rewritePtrs_names (hs.nodup l), List.map_map]
  · rfl
  · rw [List.length_map, hlen, PrefetchConfig.expertNames, List.length_map]

/-- The experts that a layer was made sure of are served. -/
theorem SlicesKept.serves (h : SlicesKept rt slotSize l m) (hkept : PoolKept rt slotSize numSlots m)
    (hs : Sliced rt.config slotSize numSlots) (hd : DistinctTypes (rt.config.expertLayouts l))
    (hne : rt.config.expertLayouts l ≠ []) (hids : ids ≠ []) (hensured : Ensured rt m l ids m') :
    m'.Serves rt slotSize l ids := by
  rcases hensured.found_or_pooled with ⟨hcached, hdata, hpool, hmemory, -, hio⟩ |
    ⟨p, offsets, p', tasks, hpooled, hsub⟩
  · obtain ⟨p, hp, -, rfl, -⟩ := hkept.pool
    obtain ⟨e, he⟩ := List.exists_mem_of_ne_nil _ hids
    obtain ⟨layout, hlayout⟩ := List.exists_mem_of_ne_nil _ hne
    obtain ⟨slots, hslots, -⟩ := h.marked e _ (hcached e he layout hlayout)
    have hp' : p.slotsOf l = some slots := by
      rw [slotsOf, hp] at hslots
      exact hslots
    refine ⟨slots, by rw [slotsOf, hpool]; exact hslots,
      map_rewritten hs (hkept.length l slots hslots) (hdata p slots hp hp'), fun q hq e he _ => ?_⟩
    exact coming_of_eq hio hmemory
      (h.coming hs hd hslots hq (hcached e he q.1 (List.of_mem_zip hq).1))
  · obtain ⟨slots, hslots, hlen, hoffsets⟩ := hpooled.granted hkept hs
    refine ⟨slots, hslots, map_rewritten hs hlen (hoffsets ▸ hpooled.data), fun q hq e he hlt => ?_⟩
    have hplace : (q.1, q.2 * slotSize) ∈ (rt.config.expertLayouts l).zip offsets := by
      rw [hoffsets]
      exact mem_zip_offsets.mpr ⟨q.2, hq, rfl⟩
    rcases hpooled.complete hd _ hplace e he hlt with hr | hcached
    · exact coming_of_task hsub hr
    · -- the layer had its slots before
      obtain ⟨slots', hslots', -⟩ := h.marked e _ hcached
      have hl : l ∉ evictedLayers p l (rt.config.expertLayouts l).length := by
        simp [evictedLayers]
      obtain ⟨hsame, hmemory⟩ := hpooled.undisturbed hkept hs hslots' hl
      obtain rfl : slots = slots' := Option.some.inj (hslots.symm.trans hsame)
      exact coming_of_submits hsub hmemory (h.coming hs hd hslots' hq hcached)

/-- What the cache has is kept by a check of the experts of any layer. -/
theorem SlicesKept.marked_ensured (h : SlicesKept rt slotSize l m)
    (hkept : PoolKept rt slotSize numSlots m) (hs : Sliced rt.config slotSize numSlots)
    (hensured : Ensured rt m k ids m') {e : Nat} {t : ExpertTensorType}
    (hcached : (l, e, t) ∈ m'.neuronCache.entries) : ∃ slots, m'.slotsOf l = some slots ∧
      ∃ q ∈ (rt.config.expertLayouts l).zip slots, q.1.tensorType = t ∧ e < q.1.numExperts ∧
        m'.Coming rt (q.1.pooledRegion (q.2 * slotSize) e) := by
  rcases hensured.found_or_pooled with ⟨-, -, hpool, hmemory, hcache, hio⟩ |
    ⟨p, offsets, p', tasks, hpooled, hsub⟩
  · rw [hcache] at hcached
    obtain ⟨slots, hslots, q, hq, htype, he, hcoming⟩ := h.marked e t hcached
    exact ⟨slots, by rw [slotsOf, hpool]; exact hslots, q, hq, htype, he,
      coming_of_eq hio hmemory hcoming⟩
  · rcases hpooled.cache _ hcached with ⟨hold, hl⟩ | ⟨q, hq, e', -, he, heq, hr⟩
    · obtain ⟨slots, hslots, q, hq, htype, he, hcoming⟩ := h.marked e t hold
      obtain ⟨hsame, hmemory⟩ := hpooled.undisturbed hkept hs hslots hl
      exact ⟨slots, hsame, q, hq, htype, he, coming_of_submits hsub hmemory hcoming⟩
    · simp only [Prod.mk.injEq] at heq
      obtain ⟨rfl, rfl, rfl⟩ := heq
      obtain ⟨slots, hslots, -, rfl⟩ := hpooled.granted hkept hs
      obtain ⟨s, hmem, hoffset⟩ := mem_zip_offsets.mp hq
      exact ⟨slots, hslots, (q.1, s), hmem, rfl, he, hoffset ▸ coming_of_task hsub hr⟩

/-- Under the condition a request marks nothing of the layer. -/
theorem mem_of_request (hok : m.marksNone rt l .thread = true) {ops : List Op}
    (hpending : m.pending = .requestExperts k ids :: ops) {e : Nat} {t : ExpertTensorType}
    (h : (l, e, t) ∈ (planSlices rt.config m.neuronCache k ids).cache.entries) :
    (l, e, t) ∈ m.neuronCache.entries := by
  rcases mem_expertTasks_entries h with hold | ⟨x, hx, e', he', hlt, heq, -⟩
  · exact hold
  · obtain ⟨layout, hlayout, rfl⟩ := List.mem_map.mp hx
    simp only [Prod.mk.injEq] at heq
    obtain ⟨rfl, rfl, rfl⟩ := heq
    simp only [marksNone, hpending, List.head?_cons, decide_eq_true_eq] at hok
    exact hok trivial layout hlayout e he' hlt

/-- A step that makes sure of nothing marks nothing of the layer. -/
theorem mem_of_step {lab : Label} (hstep : ExpertStep rt m lab m')
    (hok : m.marksNone rt l lab = true) {e : Nat} {t : ExpertTensorType}
    (h : (l, e, t) ∈ m'.neuronCache.entries) : (l, e, t) ∈ m.neuronCache.entries ∨
      ∃ k ids, m.Ensuring k ids ∧ Ensured rt m k ids m' := by
  cases hstep with
  | ensured hensuring hensured => exact .inr ⟨_, _, hensuring, hensured⟩
  | request hpending _ hcache _ _ => exact .inl (mem_of_request hok hpending (hcache ▸ h))
  | rest _ hcache _ _ => exact .inl (hcache ▸ h)
  | reset _ hcache _ _ _ _ => exact .inl (hcache ▸ h)
  | announce _ hcache _ _ _ _ _ => exact .inl (hcache ▸ h)
  | cold _ hcache _ _ _ _ _ => exact .inl (hcache ▸ h)
  | nothing _ hcache _ _ _ => exact .inl (hcache ▸ h)
  | arrived _ hcache _ _ _ _ => exact .inl (hcache ▸ h)
  | send hio => exact .inl h
  | recv hio => exact .inl h
  | pread hpread =>
      obtain ⟨j, r, rs, k, io, -, -, -, -, rfl⟩ := preadStep_spec hpread
      exact .inl h
  | finish hfinish =>
      obtain ⟨j, io, -, -, -, rfl⟩ := finishStep_spec hfinish
      exact .inl h
  | fire hfire =>
      obtain ⟨b, tag, io, -, -, -, rfl⟩ := fireStep_spec hfire
      split at h
      · exact .inl h
      · exact .inl h

theorem Serves.carried (h : m.Serves rt slotSize l ids) (hc : KeepsPlaces rt slotSize m m') :
    m'.Serves rt slotSize l ids := by
  obtain ⟨slots, hslots, hdata, hall⟩ := h
  refine ⟨slots, by rw [slotsOf, hc.pool]; exact hslots, hc.data ▸ hdata, fun q hq e he hlt => ?_⟩
  exact hc.coming l slots hslots _ (mem_sliceRegions.mpr ⟨q, hq, e, hlt, rfl⟩) (hall q hq e he hlt)

theorem SlicesKept.marked_carried (h : SlicesKept rt slotSize l m)
    (hc : KeepsPlaces rt slotSize m m') {e : Nat} {t : ExpertTensorType}
    (hcached : (l, e, t) ∈ m.neuronCache.entries) : ∃ slots, m'.slotsOf l = some slots ∧
      ∃ q ∈ (rt.config.expertLayouts l).zip slots, q.1.tensorType = t ∧ e < q.1.numExperts ∧
        m'.Coming rt (q.1.pooledRegion (q.2 * slotSize) e) := by
  obtain ⟨slots, hslots, q, hq, htype, he, hcoming⟩ := h.marked e t hcached
  refine ⟨slots, by rw [slotsOf, hc.pool]; exact hslots, q, hq, htype, he, ?_⟩
  exact hc.coming l slots hslots _ (mem_sliceRegions.mpr ⟨q, hq, e, he, rfl⟩) hcoming

/-- A layer without a selection is given no slots. -/
theorem SlicesKept.unknown_ensured (h : SlicesKept rt slotSize l m)
    (hkept : PoolKept rt slotSize numSlots m) (hs : Sliced rt.config slotSize numSlots)
    (hensuring : m.Ensuring k ids) (hensured : Ensured rt m k ids m')
    (hsel : m.selectedExperts l = none) : m'.slotsOf l = none := by
  rcases hensured.found_or_pooled with ⟨-, -, hpool, -, -, -⟩ | ⟨p, offsets, p', tasks, hpooled, -⟩
  · rw [slotsOf, hpool]
    exact h.unknown hsel
  · obtain ⟨htakes, -, -, -⟩ := hpooled.takes hkept hs
    have hlk : l ≠ k := by
      rintro rfl
      rw [hensuring.selected] at hsel
      cases hsel
    rw [hpooled.slotsOf_after]
    rcases htakes.others l hlk with hsame | hnone
    · exact hsame.trans ((hpooled.slotsOf_before l).symm.trans (h.unknown hsel))
    · exact hnone

/-- **One step** that marks nothing of layer `l` without a slot. -/
theorem SlicesKept.step (h : SlicesKept rt slotSize l m) (hkept : PoolKept rt slotSize numSlots m)
    (hs : Sliced rt.config slotSize numSlots) (hd : DistinctTypes (rt.config.expertLayouts l))
    {lab : Label} (hfull : m.fullRead lab = true) (hok : m.marksNone rt l lab = true)
    (hturn : ExpertTurn rt m lab m') : SlicesKept rt slotSize l m' := by
  have hserved : ∀ {ids}, m'.asked = some l → m'.selectedExperts l = some ids →
      rt.config.expertLayouts l ≠ [] → ids ≠ [] → m'.pending = [.ensureExperts l ids] ∨
        Ensured rt m l ids m' ∨ m.Serves rt slotSize l ids ∧ m.pending ≠ [.ensureExperts l ids] ∧
          m.asked = some l ∧ m.selectedExperts l = some ids := by
    intro ids hasked hsel hne hids
    rcases hturn.serves l ids hasked hsel with hnil | hnil | hpending | ⟨hasked, hsel, hensured⟩
    · exact absurd hnil hne
    · exact absurd hnil hids
    · exact .inl hpending
    · by_cases hp : m.pending = [.ensureExperts l ids]
      · exact .inr (.inl (hensured hp))
      · have hserves := (h.served ids hasked hsel hne hids).resolve_left hp
        exact .inr (.inr ⟨hserves, hp, hasked, hsel⟩)
  rcases hkept.keepsPlaces hs hfull hturn.effect with ⟨k, ids', hensuring, hensured⟩ | hkeeps
  · refine ⟨fun e t hcached => h.marked_ensured hkept hs hensured hcached,
      fun hsel => h.unknown_ensured hkept hs hensuring hensured (hturn.known l hsel),
      fun ids hasked hsel hne hids => (hserved hasked hsel hne hids).imp_right fun hor => ?_⟩
    rcases hor with hensured | ⟨-, hp, hasked, hsel⟩
    · exact h.serves hkept hs hd hne hids hensured
    · -- the experts made sure of are those selected of the layer asked for
      obtain rfl : k = l := Option.some.inj (hensuring.asked.symm.trans hasked)
      obtain rfl : ids' = ids := Option.some.inj (hensuring.selected.symm.trans hsel)
      exact absurd hensuring.pending hp
  · refine ⟨fun e t hcached => ?_, fun hsel => ?_,
      fun ids hasked hsel hne hids => (hserved hasked hsel hne hids).imp_right fun hor => ?_⟩
    · rcases mem_of_step hturn.effect hok hcached with hold | ⟨k, ids, -, hensured⟩
      · exact h.marked_carried hkeeps hold
      · exact h.marked_ensured hkept hs hensured hcached
    · rw [slotsOf, hkeeps.pool]
      exact h.unknown (hturn.known l hsel)
    · rcases hor with hensured | ⟨hserves, -⟩
      · exact h.serves hkept hs hd hne hids hensured
      · exact hserves.carried hkeeps

end SlicesKept

/-! ### Every run -/

/-- The slot at `offset` is one that the pool assigns to `layout`, a tensor of layer `l`, and the
stride of expert `e` in it holds the bytes of the expert. -/
def HoldsSlice (rt : Runtime) (m : Machine) (l : Nat) (layout : ExpertLayout) (e offset : Nat) :
    Prop :=
  ∃ p slots s, m.expertPool = some p ∧ p.slotsOf l = some slots ∧
    (layout, s) ∈ (rt.config.expertLayouts l).zip slots ∧ offset = s * p.slotSize ∧
    Region.HoldsIn rt.file ⟨offset + e * layout.expertStride, layout.expertStride,
      layout.fileOffset + e * layout.expertStride⟩ (m.memory .pool)

/-- The tensors of layer `l` point to slots of its own, which hold the experts selected, or all
if nothing is selected. -/
def Resident (rt : Runtime) (m : Machine) (l : Nat) : Prop :=
  ∀ layout ∈ rt.config.expertLayouts l, ∀ e < layout.numExperts,
    (∀ ids, m.selectedExperts l = some ids → e ∈ ids) →
      ∃ offset, m.tensorData layout.tensorName = (.pool, offset) ∧
        m.HoldsSlice rt l layout e offset

section Run
variable {rt : Runtime} {m : Machine} {l slotSize numSlots : Nat}

theorem holdsSlice_of_coming (hkept : PoolKept rt slotSize numSlots m)
    (hs : Sliced rt.config slotSize numSlots) (hawait : m.await = none) {slots : List Nat}
    (hslots : m.slotsOf l = some slots) {q : ExpertLayout × Nat}
    (hq : q ∈ (rt.config.expertLayouts l).zip slots) {e : Nat}
    (hcoming : m.Coming rt (q.1.pooledRegion (q.2 * slotSize) e)) :
    m.HoldsSlice rt l q.1 e (q.2 * slotSize) := by
  have hheld := hkept.holdsIn hawait hcoming
  rw [pooledRegion_plain (hs.plain l _ (List.of_mem_zip hq).1)] at hheld
  obtain ⟨p, hp, -, rfl, -⟩ := hkept.pool
  rw [slotsOf, hp] at hslots
  exact ⟨p, slots, q.2, hp, hslots, hq, rfl, hheld⟩

/-- Of a layer that is served the tensors point to its slots. -/
theorem Serves.resident {ids : List Nat} (h : m.Serves rt slotSize l ids)
    (hkept : PoolKept rt slotSize numSlots m) (hs : Sliced rt.config slotSize numSlots)
    (hawait : m.await = none) (hsel : m.selectedExperts l = some ids) : m.Resident rt l := by
  obtain ⟨slots, hslots, hdata, hall⟩ := h
  intro layout hlayout e he hforce
  obtain ⟨i, hi, rfl⟩ := List.mem_iff_getElem.mp hlayout
  have hlen := hkept.length l slots hslots
  have his : i < slots.length := by omega
  have hmem : ((rt.config.expertLayouts l)[i], slots[i]) ∈
      (rt.config.expertLayouts l).zip slots := by
    refine List.mem_iff_getElem.mpr ⟨i, by rw [List.length_zip]; omega, ?_⟩
    rw [List.getElem_zip]
  have hpointed : m.tensorData (rt.config.expertLayouts l)[i].tensorName =
      (.pool, slots[i] * slotSize) := by
    have hat := congrArg (·[i]?) hdata
    simpa [PrefetchConfig.expertNames, hi, his] using hat
  exact ⟨_, hpointed, holdsSlice_of_coming hkept hs hawait hslots hmem
    (hall _ hmem e (hforce ids hsel) he)⟩

end Run

end Machine

/-! ### Two layers of two experts, and one slot -/

end Hypura
