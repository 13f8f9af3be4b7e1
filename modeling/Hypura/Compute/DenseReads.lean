import Hypura.Compute.DenseSlots
import Hypura.Compute.StandardCoverage

/-!
# Hypura.Compute.DenseReads

Dense FFN streaming: where the tasks of a layer read to, and what its slots hold.

As long as no layer loses its slots while it is in use (`slotsHeld`), the tasks of a layer
are for slots of its own. So nothing but the bytes of its tensors is ever written there,
and once a batch has fired, all of them were. They stay as long as the slots that are taken
from other layers share no page with them (`pagesHeld`): pages are freed whole, and nothing
makes the size of a slot a multiple of theirs.
-/

namespace Hypura

open Hypura.Core Hypura.Core.Countdown

/-! ### Bytes -/

/-- The buffer holds the bytes of the region, as far as the file has them. -/
def Region.HoldsIn (file : List UInt8) (r : Region) (buf : Buffer) : Prop :=
  ∀ a < r.size, ∀ b, file[r.fileOffset + a]? = some b → buf (r.dst + a) = some b

section Bytes
variable {file : List UInt8} {r r' : Region} {buf : Buffer} {count dst size slotSize pageSize : Nat}

theorem holdsIn_fill (h : r.size ≤ count) :
    r.HoldsIn file (r.fill file (min count r.size) buf) := by
  intro a ha b hb
  have hin : r.dst ≤ r.dst + a ∧ r.dst + a < r.dst + min count r.size := by omega
  rw [Region.fill, if_pos hin, Nat.add_sub_cancel_left, hb]

theorem Region.HoldsIn.fill (h : r.HoldsIn file buf)
    (hapart : DisjointRanges r.dst r.size r'.dst r'.size) (hcount : count ≤ r'.size) :
    r.HoldsIn file (r'.fill file count buf) := by
  intro a ha b hb
  have hout : ¬ (r'.dst ≤ r.dst + a ∧ r.dst + a < r'.dst + count) := by
    unfold DisjointRanges at hapart
    omega
  rw [Region.fill, if_neg hout]
  exact h a ha b hb

/-- No page with a byte of `[dst, dst + size)` has a byte of the region. -/
def Region.OffPages (pageSize : Nat) (r : Region) (dst size : Nat) : Prop :=
  r.dst + r.size ≤ pageFloor pageSize dst ∨ pageCeil pageSize (dst + size) ≤ r.dst

instance : Decidable (r.OffPages pageSize dst size) := inferInstanceAs (Decidable (_ ∨ _))

@[simp] theorem pageFloor_of_dvd {a : Nat} (h : pageSize ∣ a) : pageFloor pageSize a = a :=
  Nat.div_mul_cancel h

@[simp] theorem pageCeil_of_dvd {a : Nat} (h : pageSize ∣ a) : pageCeil pageSize a = a := by
  obtain ⟨k, rfl⟩ := h
  rcases Nat.eq_zero_or_pos pageSize with rfl | hpos
  · simp [pageCeil]
  · have hpages : (pageSize * k + (pageSize - 1)) / pageSize = k := by
      rw [Nat.mul_add_div hpos, Nat.div_eq_of_lt (by omega), Nat.add_zero]
    rw [pageCeil, hpages, Nat.mul_comm]

theorem Region.HoldsIn.freeRange (h : r.HoldsIn file buf) (hoff : r.OffPages pageSize dst size) :
    r.HoldsIn file (freeRange pageSize dst size buf) := by
  intro a ha b hb
  have hout : ¬ OnPages pageSize dst size (r.dst + a) := by
    unfold OnPages Region.OffPages at *
    omega
  rw [Hypura.freeRange, if_neg hout]
  exact h a ha b hb

theorem Region.HoldsIn.freeSlots {lost : List Nat} (h : r.HoldsIn file buf)
    (hoff : ∀ s ∈ lost, r.OffPages pageSize (s * slotSize) slotSize) :
    r.HoldsIn file
      (lost.foldl (fun buf s => Hypura.freeRange pageSize (s * slotSize) slotSize buf) buf) := by
  induction lost generalizing buf with
  | nil => exact h
  | cons s lost ih =>
      obtain ⟨hs, hrest⟩ := List.forall_mem_cons.mp hoff
      exact ih (h.freeRange hs) hrest

end Bytes

/-! ### The regions of a layer -/

/-- Where the tensor of a layout is read to, in a slot. -/
def DenseFfnLayout.region (slotSize : Nat) (layout : DenseFfnLayout) (slot : Nat) : Region :=
  ⟨slot * slotSize, layout.size, layout.fileOffset⟩

def ffnRegions (slotSize : Nat) (layouts : List DenseFfnLayout) (slots : List Nat) : List Region :=
  (layouts.zip slots).map fun q => q.1.region slotSize q.2

section Regions
variable {slotSize : Nat} {layouts : List DenseFfnLayout} {slots : List Nat} {r r' : Region}

theorem denseTasks_eq : Machine.denseTasks layouts (slots.map (· * slotSize)) =
    (ffnRegions slotSize layouts slots).map ([·]) := by
  rw [Machine.denseTasks, ffnRegions, List.zip_map_right, List.map_map, List.map_map]
  rfl

theorem mem_ffnRegions (h : r ∈ ffnRegions slotSize layouts slots) :
    ∃ layout ∈ layouts, ∃ s ∈ slots, r = layout.region slotSize s := by
  obtain ⟨q, hq, rfl⟩ := List.mem_map.mp h
  exact ⟨q.1, (List.of_mem_zip hq).1, q.2, (List.of_mem_zip hq).2, rfl⟩

theorem layouts_ne_nil (h : r ∈ ffnRegions slotSize layouts slots) : layouts ≠ [] := by
  obtain ⟨layout, hlayout, -⟩ := mem_ffnRegions h
  exact List.ne_nil_of_mem hlayout

theorem slots_apart {s s' size size' : Nat} (hne : s ≠ s') (h : size ≤ slotSize)
    (h' : size' ≤ slotSize) : DisjointRanges (s * slotSize) size (s' * slotSize) size' := by
  simpa only [Nat.zero_add] using DisjointRanges.of_strides 0 hne h h'

/-- Slots of whole pages share none. -/
theorem slots_offPages {pageSize s s' size fileOffset : Nat} (hdvd : pageSize ∣ slotSize)
    (hne : s ≠ s') (h : size ≤ slotSize) :
    (⟨s * slotSize, size, fileOffset⟩ : Region).OffPages pageSize (s' * slotSize) slotSize := by
  have hstart : pageSize ∣ s' * slotSize := hdvd.mul_left s'
  rw [Region.OffPages, pageFloor_of_dvd hstart, pageCeil_of_dvd (hstart.add hdvd)]
  exact slots_apart hne h le_rfl

/-- Two tensors of a layer are in different slots. -/
theorem eq_or_apart (hnodup : slots.Nodup) (hfits : ∀ layout ∈ layouts, layout.size ≤ slotSize)
    (h : r ∈ ffnRegions slotSize layouts slots) (h' : r' ∈ ffnRegions slotSize layouts slots) :
    r = r' ∨ DisjointRanges r.dst r.size r'.dst r'.size := by
  obtain ⟨i, hi, rfl⟩ := List.mem_iff_getElem.mp h
  obtain ⟨k, hk, rfl⟩ := List.mem_iff_getElem.mp h'
  by_cases hik : i = k
  · subst hik
    exact .inl rfl
  · right
    simp only [ffnRegions, List.getElem_map, List.getElem_zip]
    refine slots_apart (fun heq => hik ((hnodup.getElem_inj_iff).mp heq)) ?_ ?_
    · exact hfits _ (List.getElem_mem _)
    · exact hfits _ (List.getElem_mem _)

end Regions

theorem ExpertPool.Partitioned.slotsOf_of_mem {p : ExpertPool} (h : p.Partitioned)
    {entry : Nat × List Nat} (hentry : entry ∈ p.layerSlots) : p.slotsOf entry.1 = some entry.2 := by
  obtain ⟨slots, hslots⟩ := ExpertPool.exists_lookup (List.mem_map_of_mem (f := (·.1)) hentry)
  have heq := List.inj_on_of_nodup_map h.keys (ExpertPool.mem_of_lookup hslots) hentry rfl
  rw [slotsOf, hslots, ← heq]

theorem ExpertPool.Partitioned.nodup_slots {p : ExpertPool} (h : p.Partitioned) {l : Nat}
    {slots : List Nat} (hslots : p.slotsOf l = some slots) : slots.Nodup := by
  have hnodup : (p.layerSlots.flatMap (·.2)).Nodup :=
    (List.nodup_append.mp (h.partition.nodup_iff.mpr List.nodup_range).of_append_right).2.1
  exact (List.nodup_flatMap.mp hnodup).1 _ (ExpertPool.mem_of_lookup hslots)

namespace Machine

/-! ### What the slots hold -/

/-- The slots of layer `l`, if it has some, hold the bytes of its tensors. -/
def HoldsFfn (rt : Runtime) (slotSize : Nat) (m : Machine) (l : Nat) : Prop :=
  ∀ slots, m.slotsOf l = some slots →
    ∀ r ∈ ffnRegions slotSize (rt.config.denseFfnLayouts l) slots, r.HoldsIn rt.file (m.memory .pool)

/-- In the step layer `k` is about to lose its slots. -/
def loses (rt : Runtime) (m : Machine) (p : ExpertPool) : Label → Nat → Bool
  | .thread, k =>
    match m.pending.head?.bind Op.allocating with
    | some l => decide (k ≠ l ∧ ¬ p.spares l (rt.config.denseFfnLayouts l).length k)
    | none => false
  | .event (.done _), k => decide (m.givenUp rt = some k)
  | _, _ => false

/-- **The condition on the pages**: those of the slots that are about to be lost have no byte
of a tensor whose layer keeps its slots. -/
def pagesHeld (rt : Runtime) (m : Machine) (lab : Label) : Bool :=
  m.expertPool.all fun p => p.layerSlots.all fun kept => m.loses rt p lab kept.1 ||
    (ffnRegions p.slotSize (rt.config.denseFfnLayouts kept.1) kept.2).all fun r =>
      p.layerSlots.all fun lost => !m.loses rt p lab lost.1 ||
        lost.2.all fun s => decide (r.OffPages rt.pageSize (s * p.slotSize) p.slotSize)

/-- What is known of the tasks and the bytes. -/
structure Reading (rt : Runtime) (slotSize : Nat) (m : Machine) : Prop where
  /-- The tasks of a layer are for its slots. -/
  targets : ∀ j ∈ m.io.jobs, ∀ l, layerOf m.io j.batch = some l →
    rt.config.denseFfnLayouts l ≠ [] → j.payload.base = .pool ∧
      ∃ slots, m.slotsOf l = some slots ∧ ∀ r, r ∈ j.payload.regions ∨ r ∈ j.payload.done →
        r ∈ ffnRegions slotSize (rt.config.denseFfnLayouts l) slots
  elsewhere : ∀ j ∈ m.io.jobs, ∀ l, layerOf m.io j.batch = some l →
    rt.config.denseFfnLayouts l = [] → j.payload.base = .resident
  loaded : ∀ l, m.layerStatus l = .loaded → m.HoldsFfn rt slotSize l
  /-- What a batch has not read is in its tasks. -/
  arriving : ∀ l b, b ∉ m.io.fired → layerOf m.io b = some l → ∀ slots, m.slotsOf l = some slots →
    ∀ r ∈ ffnRegions slotSize (rt.config.denseFfnLayouts l) slots,
      r.HoldsIn rt.file (m.memory .pool) ∨ ∃ j ∈ m.io.jobs, j.batch = b ∧ r ∈ j.payload.regions

/-- A layer that is left slots is left its own, and the bytes in them. -/
def KeepsBytes (rt : Runtime) (slotSize : Nat) (m m' : Machine) : Prop :=
  ∀ l slots, m.slotsOf l = some slots → m'.slotsOf l ≠ none → m'.slotsOf l = some slots ∧
    ∀ r ∈ ffnRegions slotSize (rt.config.denseFfnLayouts l) slots,
      r.HoldsIn rt.file (m.memory .pool) → r.HoldsIn rt.file (m'.memory .pool)

section Reading
variable {rt : Runtime} {m m' : Machine} {l slotSize numSlots : Nat}

theorem keepsBytes_of_eq (hpool : m'.expertPool = m.expertPool)
    (hmemory : m'.memory .pool = m.memory .pool) : KeepsBytes rt slotSize m m' := by
  intro l slots hslots _
  rw [slotsOf, hpool, hmemory]
  exact ⟨hslots, fun _ _ => id⟩

/-- Slots of whole pages are enough. -/
theorem pagesHeld_of_dvd {p : ExpertPool} (hpart : p.Partitioned) (hpool : m.expertPool = some p)
    (hfits : ∀ l, ∀ layout ∈ rt.config.denseFfnLayouts l, layout.size ≤ p.slotSize)
    (hdvd : rt.pageSize ∣ p.slotSize) (lab : Label) : m.pagesHeld rt lab = true := by
  simp only [pagesHeld, hpool, Option.all_some, List.all_eq_true, Bool.or_eq_true,
    Bool.not_eq_true', decide_eq_true_eq, or_iff_not_imp_left, Bool.not_eq_true, Bool.not_eq_false]
  intro kept hkept hstays r hr lost hlost hloses s hs
  obtain ⟨layout, hlayout, s', hs', rfl⟩ := mem_ffnRegions hr
  have hne : lost.1 ≠ kept.1 := fun heq => by
    rw [heq, hstays] at hloses
    cases hloses
  refine slots_offPages hdvd (fun heq => ?_) (hfits kept.1 layout hlayout)
  exact hpart.disjoint hne (hpart.slotsOf_of_mem hkept) (hpart.slotsOf_of_mem hlost) hs' (heq ▸ hs)

/-- The pages of the slots that are lost have no byte of a layer that keeps its own. -/
theorem keepsBytes_of_setPool {p p' : ExpertPool} {lab : Label} (hpart : p.Partitioned)
    (hheld : m.pagesHeld rt lab = true)
    (hpool : m.expertPool = some p) (hpool' : m'.expertPool = some p')
    (hmemory : m'.memory = (m.setPool rt p p').memory)
    (hkept : ∀ l slots, p.slotsOf l = some slots → p'.slotsOf l ≠ none →
      p'.slotsOf l = some slots)
    (hloses : ∀ l, p.slotsOf l ≠ none → (m.loses rt p lab l = true ↔ p'.slotsOf l = none)) :
    KeepsBytes rt p.slotSize m m' := by
  intro l slots hslots hleft
  simp only [slotsOf, hpool, hpool', Option.bind_some] at hslots hleft ⊢
  refine ⟨hkept l slots hslots hleft, fun r hr hbytes => ?_⟩
  rw [hmemory]
  show Region.HoldsIn rt.file _ (Function.update m.memory .pool _ .pool)
  rw [Function.update_self]
  refine hbytes.freeSlots fun s hs => ?_
  obtain ⟨entry, hentry, hs⟩ := List.mem_flatMap.mp hs
  obtain ⟨hentry, hlost⟩ := List.mem_filter.mp hentry
  simp only [pagesHeld, hpool, Option.all_some, List.all_eq_true, Bool.or_eq_true,
    Bool.not_eq_true', decide_eq_true_eq] at hheld
  have hstays : ¬ m.loses rt p lab l = true := fun hl =>
    hleft ((hloses l (by rw [hslots]; exact Option.some_ne_none _)).mp hl)
  have hgoes : ¬ m.loses rt p lab entry.1 = false := by
    rw [Bool.not_eq_false, hloses entry.1 (by
      rw [hpart.slotsOf_of_mem hentry]
      exact Option.some_ne_none _)]
    exact of_decide_eq_true hlost
  have hentry' := (hheld _ (ExpertPool.mem_of_lookup hslots)).resolve_left hstays r hr entry hentry
  exact hentry'.resolve_left hgoes s hs

/-- The slots after the step were the layer's before. -/
theorem KeepsBytes.back (h : KeepsBytes rt slotSize m m') (hbefore : m.slotsOf l ≠ none)
    {slots : List Nat} (hslots : m'.slotsOf l = some slots) : m.slotsOf l = some slots ∧
      ∀ r ∈ ffnRegions slotSize (rt.config.denseFfnLayouts l) slots,
        r.HoldsIn rt.file (m.memory .pool) → r.HoldsIn rt.file (m'.memory .pool) := by
  obtain ⟨slots', hslots'⟩ := Option.ne_none_iff_exists'.mp hbefore
  obtain ⟨hsame, hkept⟩ := h l slots' hslots' (by rw [hslots]; exact Option.some_ne_none _)
  obtain rfl : slots' = slots := Option.some.inj (hsame.symm.trans hslots)
  exact ⟨hslots', hkept⟩

theorem HoldsFfn.keep (h : m.HoldsFfn rt slotSize l) (hbefore : m.slotsOf l ≠ none)
    (hbytes : KeepsBytes rt slotSize m m') : m'.HoldsFfn rt slotSize l := by
  intro slots hslots r hr
  obtain ⟨hsame, hkept⟩ := hbytes.back hbefore hslots
  exact hkept r hr (h slots hsame r hr)

theorem underWay_of_job (hb : m.io.Balanced) {j : Job IoPoolTask} (hj : j ∈ m.io.jobs)
    (hl : layerOf m.io j.batch = some l) : m.underWay l = true :=
  underWay_iff.mpr ⟨j.batch, (hb.live_iff.mpr (.inl ⟨j, hj, rfl⟩)).2, hl⟩

/-! ### The steps -/

/-- A step that leaves the tasks alone. -/
theorem Reading.same (h : Reading rt slotSize m) (hhoused : Housed rt slotSize numSlots m)
    (hio : m'.io = m.io)
    (howned : ∀ l, rt.config.denseFfnLayouts l ≠ [] → m.underWay l = true → m'.slotsOf l ≠ none)
    (hstatus : ∀ l, m'.layerStatus l = .loaded → m.layerStatus l = .loaded)
    (hbytes : KeepsBytes rt slotSize m m') : Reading rt slotSize m' := by
  refine ⟨fun j hj l hl hne => ?_, fun j hj l hl => ?_, fun l hl => ?_,
    fun l b hb hl slots hslots r hr => ?_⟩
  · rw [hio] at hj hl
    obtain ⟨hbase, slots, hslots, hregions⟩ := h.targets j hj l hl hne
    have hleft := howned l hne (underWay_of_job hhoused.balanced hj hl)
    exact ⟨hbase, slots, (hbytes l slots hslots hleft).1, hregions⟩
  · rw [hio] at hj hl
    exact h.elsewhere j hj l hl
  · intro slots hslots r hr
    have hbefore := hhoused.owned l (layouts_ne_nil hr) (inUse_iff.mpr (.inl (hstatus l hl)))
    exact (h.loaded l (hstatus l hl)).keep hbefore hbytes slots hslots r hr
  · rw [hio] at hb hl ⊢
    have hway : m.underWay l = true := underWay_iff.mpr ⟨b, hb, hl⟩
    have hbefore := hhoused.owned l (layouts_ne_nil hr) (inUse_iff.mpr (.inr hway))
    obtain ⟨hsame, hkept⟩ := hbytes.back hbefore hslots
    exact (h.arriving l b hb hl slots hsame r hr).imp_left (hkept r hr)

/-- A step that moves tasks. -/
theorem Reading.moved (h : Reading rt slotSize m) (hpool : m'.expertPool = m.expertPool)
    (hmemory : m'.memory = m.memory) (hstatus : m'.layerStatus = m.layerStatus)
    (hq : Pool.Quiet m.io m'.io) (hjobs : m'.io.jobs.Perm m.io.jobs) : Reading rt slotSize m' := by
  have hslots : ∀ l, m'.slotsOf l = m.slotsOf l := fun l => by rw [slotsOf, slotsOf, hpool]
  have hlayer : ∀ b, layerOf m'.io b = layerOf m.io b := fun b => by
    rw [layerOf, layerOf, hq.tag?_eq]
  refine ⟨fun j hj l hl hne => ?_, fun j hj l hl => ?_, fun l hl => ?_,
    fun l b hb hl slots hs r hr => ?_⟩
  · obtain ⟨hbase, slots, hs, hregions⟩ :=
      h.targets j (hjobs.mem_iff.mp hj) l (hlayer j.batch ▸ hl) hne
    exact ⟨hbase, slots, (hslots l).trans hs, hregions⟩
  · exact h.elsewhere j (hjobs.mem_iff.mp hj) l (hlayer j.batch ▸ hl)
  · intro slots hs
    rw [hmemory]
    exact h.loaded l (hstatus ▸ hl) slots ((hslots l).symm.trans hs)
  · rw [hq.fired_eq] at hb
    rw [hmemory]
    refine (h.arriving l b hb (hlayer b ▸ hl) slots ((hslots l).symm.trans hs) r hr).imp_right ?_
    rintro ⟨j, hj, hjob⟩
    exact ⟨j, hjobs.mem_iff.mpr hj, hjob⟩

/-- A batch is opened: for the slots of a streamed layer, or for the resident ones. -/
theorem Reading.opened (h : Reading rt slotSize m) (hb : m.io.Balanced) {c : IoCompletion}
    {base : Base} {tasks : List (List Region)} (hpool : m'.expertPool = m.expertPool)
    (hmemory : m'.memory = m.memory)
    (hstatus : ∀ l, m'.layerStatus l = .loaded → m.layerStatus l = .loaded)
    (hio : m'.io = m.io.openBatch c (tasks.map (⟨·, base, []⟩)))
    (hnew : rt.config.denseFfnLayouts c.layerIdx = [] ∧ base = .resident ∨
      rt.config.denseFfnLayouts c.layerIdx ≠ [] ∧ base = .pool ∧ ∃ slots,
        m.slotsOf c.layerIdx = some slots ∧
          tasks = (ffnRegions slotSize (rt.config.denseFfnLayouts c.layerIdx) slots).map ([·])) :
    Reading rt slotSize m' := by
  have hslots : ∀ l, m'.slotsOf l = m.slotsOf l := fun l => by rw [slotsOf, slotsOf, hpool]
  have hlayer : ∀ b, layerOf m'.io b =
      if b = m.io.batches.length then some c.layerIdx else layerOf m.io b := fun b => by
    rw [layerOf, layerOf, hio, Pool.tag?_openBatch]
    split <;> rfl
  have hjobs : ∀ j, j ∈ m'.io.jobs ↔
      (∃ regions ∈ tasks, j = ⟨m.io.batches.length, ⟨regions, base, []⟩⟩) ∨ j ∈ m.io.jobs := by
    intro j
    rw [hio, Pool.mem_jobs_openBatch]
  have hold : ∀ j ∈ m.io.jobs, layerOf m'.io j.batch = layerOf m.io j.batch := fun j hj => by
    rw [hlayer, if_neg (hb.batch_lt j hj).ne]
  refine ⟨fun j hj l hl hne => ?_, fun j hj l hl hnil => ?_, fun l hl => ?_,
    fun l b hfired hl slots hs r hr => ?_⟩
  · rcases (hjobs j).mp hj with ⟨regions, hregions, rfl⟩ | hj
    · rw [hlayer, if_pos rfl] at hl
      cases hl
      obtain ⟨-, hbase, slots, hs, rfl⟩ := hnew.resolve_left fun hnil => hne hnil.1
      obtain ⟨r, hr, rfl⟩ := List.mem_map.mp hregions
      refine ⟨hbase, slots, (hslots _).trans hs, fun r' hr' => ?_⟩
      rcases hr' with hr' | hr'
      · exact List.mem_singleton.mp hr' ▸ hr
      · cases hr'
    · obtain ⟨hbase, slots, hs, hregions⟩ := h.targets j hj l (hold j hj ▸ hl) hne
      exact ⟨hbase, slots, (hslots l).trans hs, hregions⟩
  · rcases (hjobs j).mp hj with ⟨regions, hregions, rfl⟩ | hj
    · rw [hlayer, if_pos rfl] at hl
      cases hl
      exact (hnew.resolve_right fun hpool => hpool.1 hnil).2
    · exact h.elsewhere j hj l (hold j hj ▸ hl) hnil
  · intro slots hs
    rw [hmemory]
    exact h.loaded l (hstatus l hl) slots ((hslots l).symm.trans hs)
  · rw [hmemory]
    rw [hslots] at hs
    rw [hlayer] at hl
    split at hl
    · next hbatch =>
        cases hl
        obtain ⟨-, -, slots', hs', rfl⟩ := hnew.resolve_left fun hnil =>
          layouts_ne_nil hr hnil.1
        obtain rfl : slots' = slots := Option.some.inj (hs'.symm.trans hs)
        refine .inr ⟨_, (hjobs _).mpr (.inl ⟨[r], List.mem_map_of_mem hr, rfl⟩), hbatch.symm, ?_⟩
        exact List.mem_singleton_self r
    · rw [hio] at hfired
      refine (h.arriving l b hfired hl slots hs r hr).imp_right ?_
      rintro ⟨j, hj, hjob⟩
      exact ⟨j, (hjobs j).mpr (.inr hj), hjob⟩

/-- A task has read its regions. -/
theorem Reading.finish (h : Reading rt slotSize m) {w : Nat} (hfinish : m.finishStep w = some m') :
    Reading rt slotSize m' := by
  obtain ⟨j, io, hw, hnil, hio, rfl⟩ := finishStep_spec hfinish
  obtain ⟨j', x, hw', -, hjobs, -, -, hfired, -, -⟩ := Pool.finish_spec hio
  obtain rfl : j = j' := Worker.busy.inj (Option.some.inj (hw.symm.trans hw'))
  have hlayer : ∀ b, layerOf io b = layerOf m.io b := fun b => by
    rw [layerOf, layerOf, Pool.tag?_finish hio]
  refine ⟨fun k hk l hl hne => ?_, fun k hk l hl => ?_, h.loaded, fun l b hb hl slots hs r hr => ?_⟩
  · exact h.targets k (hjobs.mem_iff.mpr (List.mem_cons_of_mem _ hk)) l (hlayer k.batch ▸ hl) hne
  · exact h.elsewhere k (hjobs.mem_iff.mpr (List.mem_cons_of_mem _ hk)) l (hlayer k.batch ▸ hl)
  · change b ∉ io.fired at hb
    rw [hfired] at hb
    refine (h.arriving l b hb (hlayer b ▸ hl) slots hs r hr).imp_right ?_
    rintro ⟨k, hk, hbatch, hrk⟩
    rcases List.mem_cons.mp (hjobs.mem_iff.mp hk) with rfl | hk
    · rw [hnil] at hrk
      cases hrk
    · exact ⟨k, hk, hbatch, hrk⟩

/-- A batch fires: all its regions were read. -/
theorem Reading.fire (h : Reading rt slotSize m) (hhoused : Housed rt slotSize numSlots m) {w : Nat}
    (hfire : m.fireStep w = some m') : Reading rt slotSize m' := by
  obtain ⟨b, tag, io, hw, htag, hio, rfl⟩ := fireStep_spec hfire
  rw [if_pos (hhoused.updates b tag htag)]
  obtain ⟨b', hw', hjobs, hbatches, -, hfired, -, -⟩ := Pool.fire_spec hio
  obtain rfl : b = b' := Worker.firing.inj (Option.some.inj (hw.symm.trans hw'))
  have hfiring : b ∈ m.io.firing := List.mem_filterMap.mpr ⟨_, List.mem_of_getElem? hw, rfl⟩
  obtain ⟨hlive, hnone⟩ := hhoused.balanced.firing_live hfiring
  have hlayer : ∀ b, layerOf io b = layerOf m.io b := fun b => by
    rw [layerOf, layerOf, Pool.tag?_of_batches hbatches]
  refine ⟨fun k hk l hl hne => ?_, fun k hk l hl => ?_, fun l hl => ?_,
    fun l b' hb hl slots hs r hr => ?_⟩
  · exact h.targets k (hjobs.mem_iff.mp hk) l (hlayer k.batch ▸ hl) hne
  · exact h.elsewhere k (hjobs.mem_iff.mp hk) l (hlayer k.batch ▸ hl)
  · by_cases hll : l = tag.layerIdx
    · subst hll
      intro slots hs r hr
      have hof : layerOf m.io b = some tag.layerIdx := by
        rw [layerOf, htag]
        rfl
      refine (h.arriving _ b hlive.2 hof slots hs r hr).resolve_right ?_
      rintro ⟨j, hj, hbatch, -⟩
      have hmem : j ∈ m.io.jobsOf b := List.mem_filter.mpr ⟨hj, decide_eq_true hbatch⟩
      rw [hnone] at hmem
      cases hmem
    · change Function.update m.layerStatus tag.layerIdx .loaded l = .loaded at hl
      rw [Function.update_of_ne hll] at hl
      exact h.loaded l hl
  · change b' ∉ io.fired at hb
    rw [hfired, List.mem_cons, not_or] at hb
    refine (h.arriving l b' hb.2 (hlayer b' ▸ hl) slots hs r hr).imp_right ?_
    rintro ⟨j, hj, hjob⟩
    exact ⟨j, hjobs.mem_iff.mpr hj, hjob⟩

/-- Different regions of the slots of two layers, or of one, lie apart. -/
theorem Housed.eq_or_apart (hhoused : Housed rt slotSize numSlots m)
    (hfits : ∀ l, ∀ layout ∈ rt.config.denseFfnLayouts l, layout.size ≤ slotSize) {k : Nat}
    {slots slots' : List Nat} (hl : m.slotsOf l = some slots) (hk : m.slotsOf k = some slots')
    {r r' : Region} (hr : r ∈ ffnRegions slotSize (rt.config.denseFfnLayouts l) slots)
    (hr' : r' ∈ ffnRegions slotSize (rt.config.denseFfnLayouts k) slots') :
    r = r' ∨ DisjointRanges r.dst r.size r'.dst r'.size := by
  obtain ⟨p, hp, hpart, -, -⟩ := hhoused.pool
  simp only [slotsOf, hp, Option.bind_some] at hl hk
  by_cases hkl : k = l
  · subst hkl
    obtain rfl : slots = slots' := Option.some.inj (hl.symm.trans hk)
    exact Hypura.eq_or_apart (hpart.nodup_slots hl) (hfits k) hr hr'
  · obtain ⟨layout, hlayout, s, hs, rfl⟩ := mem_ffnRegions hr
    obtain ⟨layout', hlayout', s', hs', rfl⟩ := mem_ffnRegions hr'
    exact .inr (slots_apart (fun heq => hpart.disjoint hkl hl hk hs (heq ▸ hs'))
      (hfits l layout hlayout) (hfits k layout' hlayout'))

/-- What one task reads in full is then in its slot, and no other region is written. -/
theorem Reading.pread (h : Reading rt slotSize m) (hhoused : Housed rt slotSize numSlots m)
    (hfits : ∀ l, ∀ layout ∈ rt.config.denseFfnLayouts l, layout.size ≤ slotSize) {w count : Nat}
    (hfull : m.fullRead (.pread w count) = true) (hpread : m.preadStep rt w count = some m') :
    Reading rt slotSize m' ∧ KeepsBytes rt slotSize m m' := by
  obtain ⟨j, r, rs, k, io, hw, hregions, hk, hio, rfl⟩ := preadStep_spec hpread
  have hcount : r.size ≤ count := size_le_of_fullRead hfull hw hregions
  obtain ⟨j', rest, hw', hjobs, hjobs', hbatches, -, hfired, -, -⟩ := Pool.work_spec hio
  obtain rfl : j = j' := Worker.busy.inj (Option.some.inj (hw.symm.trans hw'))
  have hj : j ∈ m.io.jobs := hjobs.mem_iff.mpr List.mem_cons_self
  have hlayer : ∀ b, layerOf io b = layerOf m.io b := fun b => by
    rw [layerOf, layerOf, Pool.tag?_of_batches hbatches]
  have hread : rt.config.denseFfnLayouts k ≠ [] → r.HoldsIn rt.file
      (Function.update m.memory j.payload.base
        (r.fill rt.file (min count r.size) (m.memory j.payload.base)) .pool) := fun hne => by
    rw [(h.targets j hj k hk hne).1, Function.update_self]
    exact holdsIn_fill hcount
  have hkept : ∀ l slots, m.slotsOf l = some slots →
      ∀ r' ∈ ffnRegions slotSize (rt.config.denseFfnLayouts l) slots,
        r'.HoldsIn rt.file (m.memory .pool) → r'.HoldsIn rt.file
          (Function.update m.memory j.payload.base
            (r.fill rt.file (min count r.size) (m.memory j.payload.base)) .pool) := by
    intro l slots hslots r' hr' hheld
    by_cases hnil : rt.config.denseFfnLayouts k = []
    · rw [h.elsewhere j hj k hk hnil, Function.update_of_ne (by decide)]
      exact hheld
    · obtain ⟨hbase, slots', hslots', hall⟩ := h.targets j hj k hk hnil
      have hr := hall r (.inl (hregions ▸ List.mem_cons_self))
      rcases hhoused.eq_or_apart hfits hslots hslots' hr' hr with rfl | hapart
      · exact hread hnil
      · rw [hbase, Function.update_self]
        exact hheld.fill hapart (Nat.min_le_right _ _)
  refine ⟨⟨fun i hi l hl hne => ?_, fun i hi l hl hnil => ?_, fun l hl slots hs r' hr' =>
    hkept l slots hs r' hr' (h.loaded l hl slots hs r' hr'), fun l b hb hl slots hs r' hr' => ?_⟩,
    fun l slots hs _ => ⟨hs, hkept l slots hs⟩⟩
  · rcases List.mem_cons.mp (hjobs'.mem_iff.mp hi) with rfl | hi
    · obtain ⟨hbase, slots, hslots, hall⟩ := h.targets j hj l (hlayer j.batch ▸ hl) hne
      refine ⟨hbase, slots, hslots, fun r' hr' => hall r' ?_⟩
      rcases hr' with hr' | hr'
      · exact .inl (hregions ▸ List.mem_cons_of_mem _ hr')
      · rcases List.mem_cons.mp hr' with rfl | hr'
        · exact .inl (hregions ▸ List.mem_cons_self)
        · exact .inr hr'
    · exact h.targets i (hjobs.mem_iff.mpr (List.mem_cons_of_mem _ hi)) l (hlayer i.batch ▸ hl) hne
  · rcases List.mem_cons.mp (hjobs'.mem_iff.mp hi) with rfl | hi
    · exact h.elsewhere j hj l (hlayer j.batch ▸ hl) hnil
    · exact h.elsewhere i (hjobs.mem_iff.mpr (List.mem_cons_of_mem _ hi)) l (hlayer i.batch ▸ hl) hnil
  · change b ∉ io.fired at hb
    rw [hfired] at hb
    rcases h.arriving l b hb (hlayer b ▸ hl) slots hs r' hr' with hheld | ⟨i, hi, hbatch, hri⟩
    · exact .inl (hkept l slots hs r' hr' hheld)
    · rcases List.mem_cons.mp (hjobs.mem_iff.mp hi) with rfl | hi
      · rw [hregions] at hri
        rcases List.mem_cons.mp hri with rfl | hri
        · have hkl : k = l := Option.some.inj (hk.symm.trans (hbatch ▸ hlayer b ▸ hl))
          exact .inl (hread (hkl ▸ layouts_ne_nil hr'))
        · exact .inr ⟨_, hjobs'.mem_iff.mpr List.mem_cons_self, hbatch, hri⟩
      · exact .inr ⟨i, hjobs'.mem_iff.mpr (List.mem_cons_of_mem _ hi), hbatch, hri⟩

theorem Reading.still (h : Reading rt slotSize m) (hhoused : Housed rt slotSize numSlots m)
    (hpool : m'.expertPool = m.expertPool) (hio : m'.io = m.io) (hmemory : m'.memory = m.memory)
    (hstatus : ∀ l, m'.layerStatus l = .loaded → m.layerStatus l = .loaded) :
    Reading rt slotSize m' ∧ KeepsBytes rt slotSize m m' := by
  have hbytes : KeepsBytes rt slotSize m m' := keepsBytes_of_eq hpool (congrFun hmemory .pool)
  refine ⟨h.same hhoused hio (fun l hne hway => ?_) hstatus hbytes, hbytes⟩
  rw [slotsOf, hpool]
  exact hhoused.owned l hne (inUse_iff.mpr (.inr hway))

theorem loaded_of_update_loading {k : Nat} {status : LayerStatus} (hne : status ≠ .loaded)
    (h : Function.update m.layerStatus l status k = .loaded) : m.layerStatus k = .loaded := by
  by_cases hkl : k = l
  · rw [hkl, Function.update_self] at h
    exact absurd h hne
  · rwa [Function.update_of_ne hkl] at h

/-- Layer `l` takes slots, and its tasks are submitted. -/
theorem Reading.allocate (h : Reading rt slotSize m) (hhoused : Housed rt slotSize numSlots m)
    (hs : Slotted rt.config slotSize numSlots)
    (hne : rt.config.denseFfnLayouts l ≠ []) {p p' : ExpertPool} {offsets : List Nat}
    (halloc : m.Allocated rt l p offsets p' m') (hhoused' : Housed rt slotSize numSlots m')
    (hop : m.Allocates l) (hpages : m.pagesHeld rt .thread = true) :
    Reading rt slotSize m' ∧ KeepsBytes rt slotSize m m' := by
  obtain ⟨q, hq, hpart, rfl, hnum⟩ := hhoused.pool
  obtain rfl : q = p := Option.some.inj (hq.symm.trans halloc.before)
  have htakes := hpart.takes hs.pos (List.length_pos_iff.mpr hne) (hnum ▸ hs.few l) halloc.taken
  obtain ⟨slots, hslots, hoffsets, -⟩ := htakes.granted
  have hafter : ∀ k, m'.slotsOf k = p'.slotsOf k := fun k => by rw [slotsOf, halloc.pool]; rfl
  have hbytes : KeepsBytes rt q.slotSize m m' := by
    refine keepsBytes_of_setPool hpart hpages hq halloc.pool halloc.memory
      (fun k slots' hk hleft => ?_) fun k hk => ?_
    · by_cases hkl : k = l
      · subst hkl
        rw [htakes.resident (by rw [hk]; exact Option.some_ne_none _)]
        exact hk
      · exact ((htakes.others k hkl).resolve_right hleft).trans hk
    · rw [loses, hop.allocating, decide_eq_true_eq]
      constructor
      · rintro ⟨hkl, hgoes⟩
        by_contra hleft
        exact hgoes (htakes.kept k hkl hleft)
      · intro hnone
        have hkl : k ≠ l := by
          rintro rfl
          rw [hslots] at hnone
          cases hnone
        exact ⟨hkl, fun hspares => hk ((htakes.spared k hkl hspares).symm.trans hnone)⟩
  -- the slots are taken first, and then the tasks submitted
  have htaken : Reading rt q.slotSize { m' with io := m.io } := by
    refine h.same hhoused rfl (fun k hlayouts hway => ?_) (fun k hk => ?_) hbytes
    · refine hhoused'.owned k hlayouts (inUse_iff.mpr (.inr ?_))
      exact (underWay_open hhoused.balanced halloc.io k).mpr (.inr hway)
    · change m'.layerStatus k = .loaded at hk
      rw [halloc.status] at hk
      exact loaded_of_update_loading (by decide) hk
  refine ⟨htaken.opened hhoused.balanced rfl rfl (fun _ => id) halloc.io
    (.inr ⟨hne, rfl, slots, (hafter l).trans hslots, ?_⟩), hbytes⟩
  rw [hoffsets, denseTasks_eq]

/-- Layer `l`, for which no load is under way, is given up. -/
theorem Reading.release (h : Reading rt slotSize m) (hhoused : Housed rt slotSize numSlots m)
    (hsame : ((m.releaseSlots rt l).setStatus l .notLoaded).SameSlots m')
    (hway : m.underWay l = false) (hgiven : m.givenUp rt = some l) {lookaheadMax : Nat}
    (hpages : m.pagesHeld rt (.event (.done lookaheadMax)) = true) :
    Reading rt slotSize m' ∧ KeepsBytes rt slotSize m m' := by
  obtain ⟨p, hp, hpart, rfl, -⟩ := hhoused.pool
  have hreleased : m.releaseSlots rt l = m.setPool rt p (p.releaseLayer l) := by
    rw [releaseSlots, hp]
  rw [hreleased] at hsame
  have hslots : ∀ k, m'.slotsOf k = if k = l then none else m.slotsOf k := fun k => by
    rw [← slotsOf_releaseSlots, hreleased]
    exact hsame.slotsOf k
  have hbytes : KeepsBytes rt p.slotSize m m' := by
    refine keepsBytes_of_setPool hpart hpages hp hsame.pool hsame.memory
      (fun k slots hk hleft => ?_) fun k hk => ?_
    · rw [ExpertPool.slotsOf_releaseLayer] at hleft ⊢
      split
      · next hkl => exact absurd (if_pos hkl) hleft
      · exact hk
    · rw [loses, decide_eq_true_eq, hgiven, Option.some_inj, ExpertPool.slotsOf_releaseLayer]
      exact ⟨fun hlk => if_pos hlk.symm, fun hnone => by_contra fun hlk =>
        hk ((if_neg (Ne.symm hlk)).symm.trans hnone)⟩
  refine ⟨h.same hhoused hsame.io (fun k hne hk => ?_) (fun k hk => ?_) hbytes, hbytes⟩
  · have hkl : k ≠ l := by
      rintro rfl
      rw [hway] at hk
      cases hk
    rw [hslots, if_neg hkl]
    exact hhoused.owned k hne (inUse_iff.mpr (.inr hk))
  · rw [hsame.status] at hk
    exact loaded_of_update_loading (by decide) hk

/-- **One step** that takes no slots from a layer in use, and reads in full. -/
theorem Reading.step (h : Reading rt slotSize m) (hhoused : Housed rt slotSize numSlots m)
    (hs : Slotted rt.config slotSize numSlots)
    (hfits : ∀ l, ∀ layout ∈ rt.config.denseFfnLayouts l, layout.size ≤ slotSize) {lab : Label}
    (hheld : m.slotsHeld rt lab = true) (hpages : m.pagesHeld rt lab = true)
    (hfull : m.fullRead lab = true) (hstep : DenseStep rt m lab m') :
    Reading rt slotSize m' ∧ KeepsBytes rt slotSize m m' := by
  have hhoused' := (hhoused.step hs hheld hstep).1
  cases hstep with
  | rest hsame =>
      exact h.still hhoused hsame.pool hsame.io hsame.memory fun l hl => hsame.status ▸ hl
  | point _ _ hsame =>
      exact h.still hhoused hsame.pool hsame.io hsame.memory fun l hl => hsame.status ▸ hl
  | pointResident _ hsame =>
      exact h.still hhoused hsame.pool hsame.io hsame.memory fun l hl => hsame.status ▸ hl
  | allocate hop hne halloc => exact h.allocate hhoused hs hne halloc hhoused' hop hpages
  | @release l lookaheadMax m' hl hsame _ =>
      have hway : m.underWay l = false := by
        simp only [slotsHeld, hl, Option.all_some, Bool.not_eq_true'] at hheld
        exact hheld
      exact h.release hhoused hsame hway hl hpages
  | activate _ _ hsame =>
      have hsentinel : rt.config.denseFfnLayouts (sentinelLayer rt.config) = [] := by
        simpa [slotsHeld] using hheld
      refine ⟨h.opened hhoused.balanced hsame.pool hsame.memory (fun l hl => ?_) hsame.io
        (.inl ⟨hsentinel, rfl⟩), keepsBytes_of_eq hsame.pool (congrFun hsame.memory .pool)⟩
      rw [hsame.status] at hl
      exact loaded_of_update_loading (by decide) hl
  | residentLoaded _ hsame =>
      refine h.still hhoused hsame.pool hsame.io hsame.memory fun l hl => ?_
      rw [hsame.status] at hl
      exact loaded_of_update_loading (by decide) hl
  | send hio =>
      exact ⟨h.moved rfl rfl rfl (Pool.send_quiet hio) (Pool.send_spec hio).1,
        keepsBytes_of_eq rfl rfl⟩
  | recv hio =>
      exact ⟨h.moved rfl rfl rfl (Pool.recv_quiet hio) (Pool.recv_spec hio).1,
        keepsBytes_of_eq rfl rfl⟩
  | pread hpread => exact h.pread hhoused hfits hfull hpread
  | finish hfinish =>
      refine ⟨h.finish hfinish, ?_⟩
      obtain ⟨j, io, -, -, -, rfl⟩ := finishStep_spec hfinish
      exact keepsBytes_of_eq rfl rfl
  | fire hfire =>
      refine ⟨h.fire hhoused hfire, ?_⟩
      obtain ⟨b, tag, io, -, htag, -, rfl⟩ := fireStep_spec hfire
      rw [if_pos (hhoused.updates b tag htag)]
      exact keepsBytes_of_eq rfl rfl

/-! ### Runs -/

/-- The task of layer `l` is for slots that the pool assigns to `l`, to no other layer, and
that are not free. -/
def InOwnSlots (m : Machine) (l : Nat) (j : Job IoPoolTask) : Prop :=
  ∃ p slots, m.expertPool = some p ∧ p.slotsOf l = some slots ∧ j.payload.base = .pool ∧
    (∀ r, r ∈ j.payload.regions ∨ r ∈ j.payload.done →
      ∃ s ∈ slots, r.dst = s * p.slotSize ∧ r.size ≤ p.slotSize) ∧
    slots.Disjoint p.freeSlots ∧
    ∀ l' ≠ l, ∀ slots', p.slotsOf l' = some slots' → slots.Disjoint slots'

/-- Layer `l` has a slot for each of its FFN tensors, and the bytes of the tensor are there. -/
def HasBytes (rt : Runtime) (m : Machine) (l : Nat) : Prop :=
  ∃ p slots, m.expertPool = some p ∧ p.slotsOf l = some slots ∧
    slots.length = (rt.config.denseFfnLayouts l).length ∧
    ∀ r ∈ ffnRegions p.slotSize (rt.config.denseFfnLayouts l) slots,
      r.HoldsIn rt.file (m.memory .pool)

/-- The step does not take the slots of layer `l` away. -/
def LeavesSlots (rt : Runtime) (l : Nat) (m : Machine) (lab : Label) : Prop :=
  ∀ m', m.step rt lab = some m' → m'.slotsOf l ≠ none

/-- The slots of the layer asked for, once it was made sure of, hold its bytes. -/
def Ready (rt : Runtime) (slotSize : Nat) (m : Machine) : Prop :=
  ∀ l, rt.Streamed l → m.asked = some l → m.Settled → m.HoldsFfn rt slotSize l

theorem Ready.step {lab : Label} (h : m.Ready rt slotSize) (hread : Reading rt slotSize m)
    (hsound : DenseSound rt slotSize numSlots m) (hturn : DenseTurn rt m lab m')
    (hbytes : KeepsBytes rt slotSize m m') : m'.Ready rt slotSize := by
  intro l hl hasked hsettled
  obtain ⟨hbefore, hor⟩ := hturn.settles l hl hasked hsettled
  have hheld : m.HoldsFfn rt slotSize l ∧ m.inUse l = true := by
    rcases hor with hset | hloaded
    · exact ⟨h l hl hbefore hset, hsound.served l hl hbefore hset⟩
    · exact ⟨hread.loaded l hloaded, inUse_iff.mpr (.inl hloaded)⟩
  exact hheld.1.keep (hsound.housed.owned l hl.2 hheld.2) hbytes

theorem reading_start (coActivation : CoActivationMatrix) (pool : ExpertPool) (workers : Nat) :
    Reading rt slotSize (start rt coActivation (some pool) workers) := by
  have hjobs : ∀ j, j ∉ (start rt coActivation (some pool) workers).io.jobs := by
    simp [start, Pool.start, Pool.jobs, Worker.job?]
  refine ⟨fun j hj => absurd hj (hjobs j), fun j hj => absurd hj (hjobs j), fun l hl => ?_,
    fun l b _ hl => ?_⟩
  · cases hl
  · simp [start, Pool.start, layerOf, Pool.tag?] at hl

theorem Housed.inOwnSlots (hhoused : Housed rt slotSize numSlots m) (h : Reading rt slotSize m)
    (hfits : ∀ l, ∀ layout ∈ rt.config.denseFfnLayouts l, layout.size ≤ slotSize)
    {j : Job IoPoolTask} (hj : j ∈ m.io.jobs) (hl : layerOf m.io j.batch = some l)
    (hne : rt.config.denseFfnLayouts l ≠ []) : m.InOwnSlots l j := by
  obtain ⟨p, hp, hpart, rfl, -⟩ := hhoused.pool
  obtain ⟨hbase, slots, hslots, hregions⟩ := h.targets j hj l hl hne
  have hslots' : p.slotsOf l = some slots := by
    rw [slotsOf, hp] at hslots
    exact hslots
  refine ⟨p, slots, hp, hslots', hbase, fun r hr => ?_, fun s hs hfree => ?_,
    fun l' hl' slots' => hpart.disjoint hl' hslots'⟩
  · obtain ⟨layout, hlayout, s, hs, rfl⟩ := mem_ffnRegions (hregions r hr)
    exact ⟨s, hs, rfl, hfits l layout hlayout⟩
  · have hnodup := (hpart.partition.nodup_iff.mpr List.nodup_range).of_append_right
    exact (List.nodup_append.mp hnodup).2.2 s hfree s
      (List.mem_flatMap.mpr ⟨_, ExpertPool.mem_of_lookup hslots', hs⟩) rfl

theorem Housed.hasBytes (hhoused : Housed rt slotSize numSlots m) (hslots : m.slotsOf l ≠ none)
    (h : m.HoldsFfn rt slotSize l) : m.HasBytes rt l := by
  obtain ⟨p, hp, -, rfl, -⟩ := hhoused.pool
  obtain ⟨slots, hs⟩ := Option.ne_none_iff_exists'.mp hslots
  have hs' : p.slotsOf l = some slots := by
    rw [slotsOf, hp] at hs
    exact hs
  exact ⟨p, slots, hp, hs', hhoused.length l slots hs, h slots hs⟩

/-- **A run that takes no slots from a layer in use, and reads in full**: in every state that it
reaches, the tasks of a layer are for slots of its own; and where an `ask` callback has
returned, the slots of the layer asked for hold its bytes, for as long as it has them. -/
theorem dense_reads {gguf : GgufFile} {map : TensorMap} {sidecar : Option Sidecar}
    {numLayers s : Nat} {nvmeLayers : Finset Nat} {pool : ExpertPool}
    {coActivation : CoActivationMatrix} {workers : Nat} (hrt : rt.StreamsFfn)
    (hconfig : rt.config = buildPrefetchState gguf map sidecar numLayers nvmeLayers)
    (hnames : (gguf.tensors.map (·.name)).Nodup) (hmap : Captured map)
    (hsize : ∀ t ∈ gguf.tensors, ∀ loc, map.lookup t.name = some loc → loc.size ≤ t.sizeBytes)
    (hpool : activateDenseFfnPool gguf s = some pool)
    (hfew : ∀ l, (rt.config.denseFfnLayouts l).length ≤ s)
    (h : Reaches (Machine.step rt)
      (fun m lab => m.slotsHeld rt lab && m.pagesHeld rt lab && m.fullRead lab)
      (start rt coActivation (some pool) workers) m) :
    (∀ j ∈ m.io.jobs, ∀ l, layerOf m.io j.batch = some l → rt.config.denseFfnLayouts l ≠ [] →
      m.InOwnSlots l j) ∧
    ∀ l, rt.Streamed l → m.asked = some l → m.Idle → ∀ m',
      Reaches (Machine.step rt)
        (fun m lab => (m.slotsHeld rt lab && m.pagesHeld rt lab && m.fullRead lab) ∧
          LeavesSlots rt l m lab) m m' →
      m'.HasBytes rt l := by
  have hs : Slotted rt.config pool.slotSize pool.numSlots :=
    hconfig ▸ slotted_build hnames hmap hpool (hconfig ▸ hfew)
  have hfits : ∀ l, ∀ layout ∈ rt.config.denseFfnLayouts l, layout.size ≤ pool.slotSize :=
    hconfig ▸ fits_build hnames hsize hpool
  have hstep : ∀ m lab m', DenseSound rt pool.slotSize pool.numSlots m →
      Reading rt pool.slotSize m →
      (m.slotsHeld rt lab && m.pagesHeld rt lab && m.fullRead lab) = true →
      m.step rt lab = some m' → DenseSound rt pool.slotSize pool.numSlots m' ∧
        Reading rt pool.slotSize m' ∧ DenseTurn rt m lab m' ∧ KeepsBytes rt pool.slotSize m m' := by
    intro m lab m' hsound hread hok hstep
    obtain ⟨hok, hfull⟩ := Bool.and_eq_true_iff.mp hok
    obtain ⟨hheld, hpages⟩ := Bool.and_eq_true_iff.mp hok
    obtain ⟨hsound', hturn⟩ := hsound.step hrt hs hheld hstep
    obtain ⟨hread', hbytes⟩ := hread.step hsound.housed hs hfits hheld hpages hfull hturn.effect
    exact ⟨hsound', hread', hturn, hbytes⟩
  have hinv : DenseSound rt pool.slotSize pool.numSlots m ∧ Reading rt pool.slotSize m ∧
      m.Ready rt pool.slotSize := by
    refine h.invariant (P := fun m => DenseSound rt pool.slotSize pool.numSlots m ∧
      Reading rt pool.slotSize m ∧ m.Ready rt pool.slotSize)
      ⟨denseSound_start hpool coActivation workers, reading_start coActivation pool workers,
        fun l _ hasked => by cases hasked⟩ ?_
    rintro m lab m' ⟨hsound, hread, hready⟩ hok hst
    obtain ⟨hsound', hread', hturn, hbytes⟩ := hstep m lab m' hsound hread hok hst
    exact ⟨hsound', hread', hready.step hread hsound hturn hbytes⟩
  obtain ⟨hsound, hread, hready⟩ := hinv
  refine ⟨fun j hj l hl hne => hsound.housed.inOwnSlots hread hfits hj hl hne,
    fun l hl hasked hidle m' hreaches => ?_⟩
  have hsettled := settled_of_idle hidle
  -- the bytes stay for as long as the slots do
  have hlater : DenseSound rt pool.slotSize pool.numSlots m' ∧ Reading rt pool.slotSize m' ∧
      m'.slotsOf l ≠ none ∧ m'.HoldsFfn rt pool.slotSize l := by
    refine hreaches.invariant (P := fun m => DenseSound rt pool.slotSize pool.numSlots m ∧
      Reading rt pool.slotSize m ∧ m.slotsOf l ≠ none ∧ m.HoldsFfn rt pool.slotSize l)
      ⟨hsound, hread, hsound.housed.owned l hl.2 (hsound.served l hl hasked hsettled),
        hready l hl hasked hsettled⟩ ?_
    rintro m lab m' ⟨hsound, hread, hslots, hheld⟩ ⟨hok, hleaves⟩ hst
    obtain ⟨hsound', hread', -, hbytes⟩ := hstep m lab m' hsound hread hok hst
    exact ⟨hsound', hread', hleaves m' hst, hheld.keep hslots hbytes⟩
  exact hlater.1.housed.hasBytes hlater.2.2.1 hlater.2.2.2

end Reading

end Machine

/-! ### Six slots -/

/-- The layers are computed one after the other, each loaded while the one before is computed, up
to the second: the third takes the slots of the first. -/
def oneAhead : List Label :=
  .event (.ask 0) :: List.replicate 6 .thread ++ readFfn ++ [.thread, .event (.done 0)] ++
    List.replicate 6 .thread ++ readFfn ++ [.event (.ask 1), .thread, .event (.done 0)] ++
    List.replicate 6 .thread ++ [.event .token, .event (.ask 1), .thread]

theorem ffnRuntime_few (l : Nat) : ((ffnRuntime 3).config.denseFfnLayouts l).length ≤ 6 := by
  by_cases hl : l < 3
  · have hall : ∀ l < 3, ((ffnRuntime 3).config.denseFfnLayouts l).length ≤ 6 := by decide +kernel
    exact hall l hl
  · have hlayers : ∀ t ∈ (ffnGguf 3).tensors, t.layerIndex.all (· < 3) = true := by decide +kernel
    have hnil : (ffnRuntime 3).config.denseFfnLayouts l = [] := by
      refine List.eq_nil_iff_forall_not_mem.mpr fun layout hm => ?_
      obtain ⟨t, ht, hlayer, -⟩ := mem_denseFfnLayouts (by decide) hm
      have hlt := hlayers t ht
      rw [hlayer] at hlt
      exact hl (by simpa using hlt)
    rw [hnil]
    exact Nat.zero_le _

/-- A page is a slot here, so the second keeps its bytes. -/
theorem threeLayers_reads : ∃ m, exec (Machine.step (ffnRuntime 3))
    (fun m lab => m.slotsHeld (ffnRuntime 3) lab && m.pagesHeld (ffnRuntime 3) lab &&
      m.fullRead lab) (ffnStart 3) oneAhead = some m ∧
    (m.io.jobs.length = 3 ∧ m.slotsOf 0 = none ∧ m.slotsOf 2 = some [2, 1, 0] ∧
      m.asked = some 1) ∧
    ((∀ j ∈ m.io.jobs, ∀ l, Machine.layerOf m.io j.batch = some l →
      (ffnRuntime 3).config.denseFfnLayouts l ≠ [] → m.InOwnSlots l j) ∧
    ∀ l, (ffnRuntime 3).Streamed l → m.asked = some l → m.Idle → ∀ m',
      Reaches (Machine.step (ffnRuntime 3))
        (fun m lab => (m.slotsHeld (ffnRuntime 3) lab && m.pagesHeld (ffnRuntime 3) lab &&
          m.fullRead lab) ∧ Machine.LeavesSlots (ffnRuntime 3) l m lab) m m' →
      m'.HasBytes (ffnRuntime 3) l) := by
  have hrun : (exec (Machine.step (ffnRuntime 3))
      (fun m lab => m.slotsHeld (ffnRuntime 3) lab && m.pagesHeld (ffnRuntime 3) lab &&
        m.fullRead lab) (ffnStart 3) oneAhead).map
      (fun m => (m.io.jobs.length, m.slotsOf 0, m.slotsOf 2, m.asked)) =
        some (3, none, some [2, 1, 0], some 1) := by decide +kernel
  obtain ⟨m, hm, heq⟩ := Option.map_eq_some_iff.mp hrun
  simp only [Prod.mk.injEq] at heq
  exact ⟨m, hm, heq, Machine.dense_reads ⟨rfl, rfl, rfl, rfl⟩ rfl (by decide)
    ⟨by decide, by decide, by simp only [DisjointRanges]; decide⟩ (by decide +kernel)
    (by decide +kernel) ffnRuntime_few (Reaches.exec (fun _ _ => id) .refl hm)⟩

/-- Of four layers the third takes the slots of the first, for which three tasks are queued. -/
theorem fourLayers_strayTask : ∃ m, exec (Machine.step (ffnRuntime 4)) (fun _ _ => true) (ffnStart 4)
    (.event .initialDenseFfn :: List.replicate 11 .thread) = some m ∧
      (ffnRuntime 4).Streamed 0 ∧
      ∃ j ∈ m.io.queue, Machine.layerOf m.io j.batch = some 0 ∧ ¬ m.InOwnSlots 0 j := by
  have hrun : (exec (Machine.step (ffnRuntime 4)) (fun _ _ => true) (ffnStart 4)
      (.event .initialDenseFfn :: List.replicate 11 .thread)).map
      (fun m => (m.slotsOf 0, m.io.queue.any fun j =>
        decide (Machine.layerOf m.io j.batch = some 0))) = some (none, true) := by decide +kernel
  obtain ⟨m, hm, heq⟩ := Option.map_eq_some_iff.mp hrun
  obtain ⟨hslots, hqueued⟩ := Prod.mk.inj heq
  obtain ⟨j, hj, hl⟩ := List.any_eq_true.mp hqueued
  refine ⟨m, hm, by decide +kernel, j, hj, of_decide_eq_true hl, fun hown => ?_⟩
  obtain ⟨p, slots, hp, hs, -⟩ := hown
  rw [Machine.slotsOf, hp, Option.bind_some, hs] at hslots
  cases hslots

end Hypura
