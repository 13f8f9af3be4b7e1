import Hypura.Compute.CallbackReturns
import Hypura.Compute.LoadedBytes
import Hypura.Compute.PoolActivation

/-!
# Hypura.Compute.MemoryBounds

No read and no pointer leaves the memory it is meant for, in any of the modes.

There are three areas: the buffer that the model was loaded into, the pool of slots, and
the buffer of the resident layers. `Contained` is what every step keeps: the regions of
every task lie in the area of its base, every pointer that was rewritten leaves room for
its tensor, and every slot held lies in the pool.
-/

namespace Hypura

open Hypura.Core Hypura.Core.Countdown

/-! ### Areas -/

/-- What the mode reads into. -/
def Runtime.Uses (rt : Runtime) : Base → Prop
  | .buffer => rt.denseFfnStreaming = false
  | .pool => ¬ rt.Standard
  | .resident => rt.denseFfnStreaming = true

/-- The region lies in memory of `size` bytes. -/
def Region.Inside (r : Region) (size : Nat) : Prop := r.dst + r.size ≤ size

/-- Everything that is loaded fits where it goes: `area` gives the sizes of the areas, and
`n` layers are resident. -/
structure Runtime.Fits (rt : Runtime) (area : Base → Nat) (slotSize n : Nat) : Prop where
  separated : Separated rt.config
  buffer : ∀ l, ∀ r ∈ rt.config.layerRegions l, r.Inside (area .buffer)
  /-- A slice fits in a slot. -/
  pooled : rt.expertStreaming = true → ∀ l, ∀ layout ∈ rt.config.expertLayouts l,
    ∀ e < layout.numExperts, (layout.pooledRegion 0 e).Inside slotSize
  dense : rt.expertStreaming = false ∧ rt.denseFfnStreaming = true →
    ∀ l, ∀ layout ∈ rt.config.denseFfnLayouts l, layout.size ≤ slotSize
  resident : ∀ layout ∈ Machine.residentLayouts rt.config n, ∀ offset,
    (layout.tensorName, offset) ∈ Machine.residentPlaces (Machine.residentLayouts rt.config n) 0 →
      offset + layout.size ≤ area .resident
  offsets : ∀ name offset, rt.residentFfnOffsets name = some offset →
    (name, offset) ∈ Machine.residentPlaces (Machine.residentLayouts rt.config n) 0

/-- A pointer to the tensor `name` leaves room for it. -/
def Runtime.Points (rt : Runtime) (area : Base → Nat) (slotSize n : Nat) (name : String) :
    Base × Nat → Prop
  | (.buffer, _) => False
  | (.pool, offset) => offset + slotSize ≤ area .pool
  | (.resident, offset) =>
    (name, offset) ∈ Machine.residentPlaces (Machine.residentLayouts rt.config n) 0

/-- The slots of the pool lie in the memory that it was made for. -/
structure ExpertPool.Lies (rt : Runtime) (area : Base → Nat) (slotSize : Nat) (p : ExpertPool) :
    Prop where
  serves : p.Serves rt
  size : p.slotSize = slotSize
  fits : p.numSlots * slotSize ≤ area .pool

/-- An operation at whose end something is read into the buffer. -/
def Op.ReadsBuffer : Op → Prop
  | .ensureLayer _ => True
  | .requestLayer _ => True
  | .submitLayer _ => True
  | .requestExperts _ _ => True
  | .speculate _ => True
  | _ => False

/-- An operation of the mode. -/
structure Op.Suits (rt : Runtime) (n : Nat) (op : Op) : Prop where
  mode : op.OfMode rt
  grounded : op.Grounded rt
  buffer : op.ReadsBuffer → rt.denseFfnStreaming = false
  resident : ∀ k, op = .awaitResident k → k = n ∧ rt.denseFfnStreaming = true

/-- `activate_resident_ffn` is called for `n` layers only. -/
def Label.activates (n : Nat) : Label → Bool
  | .event (.residentFfn k) => k = n
  | _ => true

namespace ExpertPool.Lies
variable {rt : Runtime} {area : Base → Nat} {slotSize : Nat} {p : ExpertPool} {l : Nat}

/-- A slot that is held leaves room for a tensor. -/
theorem slot_le (h : p.Lies rt area slotSize) {slots : List Nat} (hslots : p.slotsOf l = some slots)
    {s : Nat} (hs : s ∈ slots) : s * p.slotSize + slotSize ≤ area .pool := by
  have hmem : s ∈ List.range p.numSlots := by
    refine h.serves.partitioned.partition.mem_iff.mp ?_
    rw [List.nil_append]
    exact List.mem_append_right _ (List.mem_flatMap.mpr ⟨_, mem_of_lookup hslots, hs⟩)
  have hlt : (s + 1) * slotSize ≤ p.numSlots * slotSize :=
    Nat.mul_le_mul_right slotSize (List.mem_range.mp hmem)
  have hfits := h.fits
  rw [h.size]
  rw [Nat.add_mul, Nat.one_mul] at hlt
  omega

theorem allocate (h : p.Lies rt area slotSize) (hpos : 0 < rt.streamedTensors l)
    {offsets : List Nat} {p' : ExpertPool}
    (halloc : p.allocateLayer l (rt.streamedTensors l) = some (offsets, p')) :
    p'.Lies rt area slotSize ∧ ∀ o ∈ offsets, o + slotSize ≤ area .pool := by
  have htakes := h.serves.partitioned.takes h.serves.size hpos (h.serves.few l) halloc
  obtain ⟨offsets', q, halloc', -, hserves⟩ := h.serves.allocate hpos
  rw [halloc, Option.some.injEq, Prod.mk.injEq] at halloc'
  obtain ⟨rfl, rfl⟩ := halloc'
  have hlies : p'.Lies rt area slotSize :=
    ⟨hserves, htakes.slotSize.trans h.size, htakes.numSlots.symm ▸ h.fits⟩
  refine ⟨hlies, fun o ho => ?_⟩
  obtain ⟨slots, hslots, rfl, -⟩ := htakes.granted
  obtain ⟨s, hs, rfl⟩ := List.mem_map.mp ho
  rw [← htakes.slotSize]
  exact hlies.slot_le hslots hs

theorem release (h : p.Lies rt area slotSize) (l : Nat) : (p.releaseLayer l).Lies rt area slotSize :=
  ⟨h.serves.release l, by simpa using h.size, by simpa using h.fits⟩

end ExpertPool.Lies

namespace Machine

/-! ### The invariant -/

structure Contained (rt : Runtime) (area : Base → Nat) (slotSize n : Nat) (m : Machine) : Prop where
  ops : ∀ op ∈ m.pending, op.Suits rt n
  tasks : ∀ j ∈ m.io.jobs, rt.Uses j.payload.base ∧
    ∀ r ∈ j.payload.regions, r.Inside (area j.payload.base)
  pointers : ¬ rt.Standard → ∀ name, rt.Points area slotSize n name (m.tensorData name)
  pool : ¬ rt.Standard → ∃ p, m.expertPool = some p ∧ p.Lies rt area slotSize

section Contained
variable {rt : Runtime} {area : Base → Nat} {slotSize n : Nat} {m m' : Machine} {l : Nat} {op : Op}
  {ops : List Op}

namespace Contained

theorem keep (h : m.Contained rt area slotSize n) (hio : m'.io = m.io)
    (hdata : m'.tensorData = m.tensorData) (hpool : m'.expertPool = m.expertPool)
    (hops : ∀ op ∈ m'.pending, op ∈ m.pending ∨ op.Suits rt n) :
    m'.Contained rt area slotSize n where
  ops op hop := (hops op hop).elim (h.ops op) id
  tasks := hio.symm ▸ h.tasks
  pointers := hdata.symm ▸ h.pointers
  pool := hpool.symm ▸ h.pool

/-- Tasks are moved, worked on or finished. -/
theorem of_jobs (h : m.Contained rt area slotSize n)
    (hjobs : ∀ j ∈ m'.io.jobs, ∃ j₀ ∈ m.io.jobs, j.payload.base = j₀.payload.base ∧
      ∀ r ∈ j.payload.regions, r ∈ j₀.payload.regions)
    (hdata : m'.tensorData = m.tensorData) (hpool : m'.expertPool = m.expertPool)
    (hops : ∀ op ∈ m'.pending, op ∈ m.pending) : m'.Contained rt area slotSize n where
  ops op hop := h.ops op (hops op hop)
  tasks j hj := by
    obtain ⟨j₀, hj₀, hbase, hregions⟩ := hjobs j hj
    rw [hbase]
    exact ⟨(h.tasks j₀ hj₀).1, fun r hr => (h.tasks j₀ hj₀).2 r (hregions r hr)⟩
  pointers := hdata.symm ▸ h.pointers
  pool := hpool.symm ▸ h.pool

theorem of_perm (h : m.Contained rt area slotSize n) (hjobs : m'.io.jobs.Perm m.io.jobs)
    (hdata : m'.tensorData = m.tensorData) (hpool : m'.expertPool = m.expertPool)
    (hops : ∀ op ∈ m'.pending, op ∈ m.pending) : m'.Contained rt area slotSize n :=
  h.of_jobs (fun j hj => ⟨j, hjobs.mem_iff.mp hj, rfl, fun _ => id⟩) hdata hpool hops

theorem submitTasks (h : m.Contained rt area slotSize n) (c : IoCompletion) {base : Base}
    {tasks : List (List Region)} (huses : rt.Uses base)
    (hinside : ∀ r ∈ tasks.flatten, r.Inside (area base)) :
    (m.submitTasks rt c base tasks).Contained rt area slotSize n := by
  unfold Machine.submitTasks
  split
  · refine ⟨fun op hop => ?_, fun j hj => ?_, h.pointers, h.pool⟩
    · rcases List.mem_cons.mp hop with rfl | hop
      · exact ⟨trivial, trivial, fun hreads => absurd hreads id, fun k hk => by cases hk⟩
      · exact h.ops op hop
    · rcases (Pool.mem_jobs_openBatch ..).mp hj with ⟨rs, hrs, rfl⟩ | hj
      · exact ⟨huses, fun r hr => hinside r (List.mem_flatten.mpr ⟨rs, hrs, hr⟩)⟩
      · exact h.tasks j hj
  · exact h

/-- What is read for a layer lies in the buffer. -/
theorem ofLayer_inside (hfits : rt.Fits area slotSize n) {r : Region}
    (h : OfLayer rt.config l r) : r.Inside (area .buffer) := by
  obtain ⟨whole, hm, ⟨-, hwithin⟩, -⟩ := h.partOf hfits.separated
  exact hwithin.trans (hfits.buffer l whole hm)

theorem submitLayerLoad (h : m.Contained rt area slotSize n) (hfits : rt.Fits area slotSize n)
    (hmode : rt.denseFfnStreaming = false) (l : Nat) :
    (m.submitLayerLoad rt l).Contained rt area slotSize n := by
  unfold Machine.submitLayerLoad
  split
  · exact h
  · dsimp only
    split
    · exact h.keep rfl rfl rfl fun _ => .inl
    · split
      · refine submitTasks ?_ _ (show rt.Uses .buffer from hmode) fun r hr => ?_
        · exact h.keep rfl rfl rfl fun _ => .inl
        · exact ofLayer_inside hfits (ofLayer_of_planLayer hfits.separated hr)
      · exact h.keep rfl rfl rfl fun _ => .inl

theorem submitExpertLoad (h : m.Contained rt area slotSize n) (hfits : rt.Fits area slotSize n)
    (hmode : rt.denseFfnStreaming = false) (l : Nat) (ids : List Nat) :
    (m.submitExpertLoad rt l ids).Contained rt area slotSize n := by
  unfold Machine.submitExpertLoad
  split
  · exact h
  · dsimp only
    split
    · exact h.keep rfl rfl rfl fun _ => .inl
    · refine submitTasks ?_ _ (show rt.Uses .buffer from hmode) fun r hr => ?_
      · exact h.keep rfl rfl rfl fun _ => .inl
      · refine ofLayer_inside (l := l) hfits ?_
        rcases mem_planSlices hr with hr | ⟨layout, hm, e, -, he, hre⟩
        · exact .inl (hfits.separated.nonExpert l r hr)
        · exact .inr ⟨layout, hm, e, he, hre⟩

/-! ### Slots and pointers -/

theorem allocate (h : m.Contained rt area slotSize n) (hmode : ¬ rt.Standard)
    (hpos : 0 < rt.streamedTensors l) {offsets : List Nat}
    (halloc : m.allocate rt l (rt.streamedTensors l) = some (offsets, m')) :
    m'.Contained rt area slotSize n ∧ (∀ o ∈ offsets, o + slotSize ≤ area .pool) ∧
      ∃ pool memory, m' = { m with expertPool := pool, memory := memory } := by
  obtain ⟨p, hp, hlies⟩ := h.pool hmode
  unfold Machine.allocate at halloc
  simp only [hp, Option.bind_eq_bind, Option.bind_some] at halloc
  obtain ⟨⟨offsets', p'⟩, htake, hrest⟩ := Option.bind_eq_some_iff.mp halloc
  dsimp only at hrest
  split at hrest
  · cases hrest
  · cases hrest
    obtain ⟨hlies', hoffsets⟩ := hlies.allocate hpos htake
    exact ⟨⟨h.ops, h.tasks, h.pointers, fun _ => ⟨p', rfl, hlies'⟩⟩, hoffsets, _, _, rfl⟩

/-- Pointers are rewritten one after the other. -/
theorem point (h : m.Contained rt area slotSize n) {α : Type} {entries : List α}
    {f : (String → Base × Nat) → α → String → Base × Nat}
    (hf : ∀ data, (∀ name, rt.Points area slotSize n name (data name)) → ∀ entry ∈ entries,
      ∀ name, rt.Points area slotSize n name (f data entry name)) :
    Contained rt area slotSize n { m with tensorData := entries.foldl f m.tensorData } :=
  ⟨h.ops, h.tasks, fun hmode => List.foldlRecOn entries f (h.pointers hmode) hf, h.pool⟩

theorem points_update {data : String → Base × Nat} {name : String} {place : Base × Nat}
    (hdata : ∀ name, rt.Points area slotSize n name (data name))
    (hplace : rt.Points area slotSize n name place) (name' : String) :
    rt.Points area slotSize n name' (Function.update data name place name') := by
  by_cases heq : name' = name
  · subst heq
    simpa using hplace
  · rw [Function.update_of_ne heq]
    exact hdata name'

theorem rewritePtrs (h : m.Contained rt area slotSize n) (names : List String) {offsets : List Nat}
    (hoffsets : ∀ o ∈ offsets, o + slotSize ≤ area .pool) :
    (m.rewritePtrs names offsets).Contained rt area slotSize n := by
  refine h.point fun data hdata entry hentry => points_update hdata ?_
  exact hoffsets _ (List.of_mem_zip (a := entry.1) (b := entry.2) hentry).2

theorem rewriteToSlots (h : m.Contained rt area slotSize n) (hmode : ¬ rt.Standard) (l : Nat)
    (names : List String) : (m.rewriteToSlots l names).Contained rt area slotSize n := by
  obtain ⟨p, hp, hlies⟩ := h.pool hmode
  simp only [Machine.rewriteToSlots, hp]
  split
  · exact h
  · next slots hslots =>
      refine h.rewritePtrs names fun o ho => ?_
      obtain ⟨s, hs, rfl⟩ := List.mem_map.mp ho
      exact hlies.slot_le hslots hs

theorem rewriteResidentPtrs (h : m.Contained rt area slotSize n) (hfits : rt.Fits area slotSize n)
    (l : Nat) : (m.rewriteResidentPtrs rt l).Contained rt area slotSize n := by
  refine h.point fun data hdata layout _ => ?_
  cases hoffset : rt.residentFfnOffsets layout.tensorName with
  | some offset => exact points_update hdata (hfits.offsets _ _ hoffset)
  | none => exact hdata

theorem releaseSlots (h : m.Contained rt area slotSize n) (l : Nat) :
    (m.releaseSlots rt l).Contained rt area slotSize n := by
  unfold Machine.releaseSlots
  split
  · exact h
  · next p hp =>
      refine ⟨h.ops, h.tasks, h.pointers, fun hmode => ?_⟩
      obtain ⟨q, hq, hlies⟩ := h.pool hmode
      obtain rfl : q = p := Option.some.inj (hq.symm.trans hp)
      exact ⟨_, rfl, hlies.release l⟩

/-! ### Loads into slots -/

/-- A slice goes to its place in the slot. -/
theorem inside_pooledRegion {layout : ExpertLayout} {offset e size : Nat}
    (h : (layout.pooledRegion 0 e).Inside slotSize) (hslot : offset + slotSize ≤ size) :
    (layout.pooledRegion offset e).Inside size := by
  unfold Region.Inside ExpertLayout.pooledRegion at *
  dsimp only at h ⊢
  omega

theorem loadExpertsPooled (h : m.Contained rt area slotSize n) (hfits : rt.Fits area slotSize n)
    (hmode : rt.expertStreaming = true) (hne : rt.config.expertLayouts l ≠ []) {ids : List Nat}
    (hload : m.loadExpertsPooled rt l ids = some m') : m'.Contained rt area slotSize n := by
  have hstreaming : ¬ rt.Standard := by simp [Runtime.Standard, hmode]
  have htensors : rt.streamedTensors l = (rt.config.expertLayouts l).length := if_pos hmode
  unfold Machine.loadExpertsPooled at hload
  obtain ⟨p, -, hload⟩ := Option.bind_eq_some_iff.mp hload
  obtain ⟨⟨offsets, m₁⟩, halloc, hload⟩ := Option.bind_eq_some_iff.mp hload
  have hdropped : Contained rt area slotSize n { m with
      neuronCache := List.foldl NeuronCache.evictLayer m.neuronCache
        (evictedLayers p l (rt.config.expertLayouts l).length) } := h.keep rfl rfl rfl fun _ => .inl
  obtain ⟨h₁, hoffsets, -⟩ := hdropped.allocate hstreaming
    (htensors ▸ List.length_pos_of_ne_nil hne) (by rw [htensors]; exact halloc)
  have h₂ := h₁.rewritePtrs ((rt.config.expertLayouts l).map (·.tensorName)) hoffsets
  dsimp only at hload
  split at hload
  · cases hload
    exact h₂.keep rfl rfl rfl fun _ => .inl
  · cases hload
    refine keep (submitTasks ?_ _ (show rt.Uses .pool from hstreaming) fun r hr => ?_) rfl rfl rfl
      fun _ => .inl
    · exact h₂.keep rfl rfl rfl fun _ => .inl
    obtain ⟨place, hplace, e, -, he, rfl⟩ := mem_flatten_expertTasks hr
    obtain ⟨⟨layout, offset⟩, hmem, rfl⟩ := List.mem_map.mp hplace
    obtain ⟨hlayout, hoffset⟩ := List.of_mem_zip hmem
    exact inside_pooledRegion (hfits.pooled hmode l layout hlayout e he) (hoffsets offset hoffset)

theorem ensureExpertsLoaded (h : m.Contained rt area slotSize n) (hfits : rt.Fits area slotSize n)
    (hmode : rt.expertStreaming = true) {ids : List Nat}
    (hload : m.ensureExpertsLoaded rt l ids = some m') : m'.Contained rt area slotSize n := by
  unfold Machine.ensureExpertsLoaded at hload
  dsimp only at hload
  split at hload
  · cases hload
    exact h
  · next hne =>
      rw [not_or] at hne
      have hprobed : Contained rt area slotSize n { m with
          neuronCache := (probeExperts l (rt.config.expertLayouts l) ids m.neuronCache).2 } :=
        h.keep rfl rfl rfl fun _ => .inl
      split at hload
      · exact hprobed.loadExpertsPooled hfits hmode hne.2 hload
      · cases hload
        exact hprobed.rewriteToSlots (by simp [Runtime.Standard, hmode]) l _

theorem submitDenseFfn (h : m.Contained rt area slotSize n) (hfits : rt.Fits area slotSize n)
    (hmode : rt.expertStreaming = false ∧ rt.denseFfnStreaming = true)
    (hne : rt.config.denseFfnLayouts l ≠ []) (hload : m.submitDenseFfn rt l = some m') :
    m'.Contained rt area slotSize n := by
  have hstreaming : ¬ rt.Standard := by simp [Runtime.Standard, hmode]
  have htensors : rt.streamedTensors l = (rt.config.denseFfnLayouts l).length := by
    simp [Runtime.streamedTensors, hmode.1]
  unfold Machine.submitDenseFfn at hload
  obtain ⟨⟨offsets, m₁⟩, halloc, hload⟩ := Option.bind_eq_some_iff.mp hload
  dsimp only at hload
  cases hload
  rw [← htensors] at halloc
  obtain ⟨h₁, hoffsets, -⟩ :=
    h.allocate hstreaming (htensors ▸ List.length_pos_of_ne_nil hne) halloc
  have h₂ := h₁.rewritePtrs ((rt.config.denseFfnLayouts l).map (·.tensorName)) hoffsets
  refine submitTasks ?_ _ (show rt.Uses .pool from hstreaming) fun r hr => ?_
  · exact h₂.keep rfl rfl rfl fun _ => .inl
  obtain ⟨rs, hrs, hr⟩ := List.mem_flatten.mp hr
  obtain ⟨⟨layout, offset⟩, hmem, rfl⟩ := List.mem_map.mp hrs
  rw [List.mem_singleton.mp hr]
  obtain ⟨hlayout, hoffset⟩ := List.of_mem_zip hmem
  have hsize := hfits.dense hmode l layout hlayout
  have hslot := hoffsets offset hoffset
  show offset + layout.size ≤ area .pool
  omega

/-! ### Operations and events -/

theorem speculate (h : m.Contained rt area slotSize n) (hmode : rt.denseFfnStreaming = false)
    {eligible : Nat → Bool} (hspeculate : m.speculate rt l eligible = some m') :
    m'.Contained rt area slotSize n := by
  unfold Machine.speculate at hspeculate
  split at hspeculate
  · cases hspeculate
    exact h
  · split at hspeculate
    · cases hspeculate
      exact h
    · obtain ⟨coAct, -, hspeculate⟩ := Option.bind_eq_some_iff.mp hspeculate
      obtain ⟨predicted, -, hspeculate⟩ := Option.bind_eq_some_iff.mp hspeculate
      cases hspeculate
      refine h.keep rfl rfl rfl fun op hop => ?_
      rcases List.mem_append.mp hop with hop | hop
      · right
        unfold requestNext at hop
        split at hop
        · cases hop
        · rw [List.mem_singleton.mp hop]
          exact ⟨trivial, trivial, fun _ => hmode, fun k hk => by cases hk⟩
      · exact .inl hop

/-- The tensors of the resident layers are at their places. -/
theorem finishResidentFfn (h : m.Contained rt area slotSize n) :
    (m.finishResidentFfn rt n).Contained rt area slotSize n := by
  have hstatus : (m.setStatus (sentinelLayer rt.config) .notLoaded).Contained rt area slotSize n :=
    h.keep rfl rfl rfl fun _ => .inl
  exact hstatus.point fun data hdata entry hentry => points_update hdata hentry

theorem residentTasks_inside (hfits : rt.Fits area slotSize n) {r : Region}
    (h : r ∈ (residentTasks rt.config n).flatten) : r.Inside (area .resident) := by
  obtain ⟨rs, hrs, hr⟩ := List.mem_flatten.mp h
  obtain ⟨layout, hlayout, htask⟩ := List.mem_filterMap.mp hrs
  obtain ⟨offset, hoffset, rfl⟩ := Option.map_eq_some_iff.mp htask
  rw [List.mem_singleton.mp hr]
  refine hfits.resident layout hlayout offset ?_
  exact List.mem_reverse.mp (Hypura.mem_of_lookup_eq_some hoffset)

/-- One operation is put before those pending. -/
theorem push (h : m.Contained rt area slotSize n) (hop : op.Suits rt n)
    (hpending : m'.pending = op :: m.pending) (hio : m'.io = m.io)
    (hdata : m'.tensorData = m.tensorData) (hpool : m'.expertPool = m.expertPool) :
    m'.Contained rt area slotSize n := by
  refine h.keep hio hdata hpool fun o ho => ?_
  rw [hpending] at ho
  exact (List.mem_cons.mp ho).elim (fun heq => .inr (heq ▸ hop)) .inl

theorem suits_submitLayer (hmode : rt.denseFfnStreaming = false) : (Op.submitLayer l).Suits rt n :=
  ⟨trivial, trivial, fun _ => hmode, fun k hk => by cases hk⟩

theorem ensureLayer (h : m.Contained rt area slotSize n) (hop : (Op.ensureLayer l).Suits rt n)
    (hstep : Machine.exec rt m (.ensureLayer l) = some m') : m'.Contained rt area slotSize n := by
  simp only [Machine.exec] at hstep
  split at hstep
  · cases hstep
    exact h
  · cases hstep
    exact h.push hop rfl rfl rfl rfl
  · cases hstep
    exact h.push (suits_submitLayer (hop.buffer trivial) : (Op.submitLayer l).Suits rt n)
      rfl rfl rfl rfl

theorem requestLayer (h : m.Contained rt area slotSize n) (hop : (Op.requestLayer l).Suits rt n)
    (hstep : Machine.exec rt m (.requestLayer l) = some m') : m'.Contained rt area slotSize n := by
  simp only [Machine.exec] at hstep
  split at hstep
  · cases hstep
    exact h.push (suits_submitLayer (hop.buffer trivial) : (Op.submitLayer l).Suits rt n)
      rfl rfl rfl rfl
  · cases hstep
    exact h

/-- A task changes its place, and more may be left to send. -/
theorem send (h : m.Contained rt area slotSize n) (hop : Op.send.Suits rt n)
    (hstep : Machine.exec rt m .send = some m') : m'.Contained rt area slotSize n := by
  simp only [Machine.exec] at hstep
  split at hstep
  · next io hio =>
      cases hstep
      have hsent : Contained rt area slotSize n { m with io := io } :=
        h.of_perm (Pool.send_spec hio).1 rfl rfl fun _ => id
      exact hsent.push hop rfl rfl rfl rfl
  · cases hstep
    exact h

theorem ensureDenseFfnLoaded (h : m.Contained rt area slotSize n)
    (hmode : rt.expertStreaming = false ∧ rt.denseFfnStreaming = true) (l : Nat) :
    (m.ensureDenseFfnLoaded rt l).Contained rt area slotSize n := by
  unfold Machine.ensureDenseFfnLoaded
  dsimp only
  split
  · exact h
  · next hne =>
      split
      · exact h.rewriteToSlots (by simp [Runtime.Standard, hmode]) l _
      · have hop : (Op.loadDenseFfn l).Suits rt n :=
          ⟨hmode, hne, fun hreads => absurd hreads id, fun k hk => by cases hk⟩
        exact h.push hop rfl rfl rfl rfl

theorem planDenseFfn (h : m.Contained rt area slotSize n)
    (hmode : rt.expertStreaming = false ∧ rt.denseFfnStreaming = true) (l : Nat) :
    (m.planDenseFfn rt l).Contained rt area slotSize n := by
  refine h.keep rfl rfl rfl fun o ho => ?_
  rcases List.mem_append.mp ho with ho | ho
  · obtain ⟨t, -, rfl⟩ := List.mem_map.mp ho
    exact .inr ⟨hmode, trivial, fun hreads => absurd hreads id, fun k hk => by cases hk⟩
  · exact .inl ho

theorem prefetchDenseFfn (h : m.Contained rt area slotSize n) (hfits : rt.Fits area slotSize n)
    (hmode : rt.expertStreaming = false ∧ rt.denseFfnStreaming = true)
    (hload : m.prefetchDenseFfn rt l = some m') : m'.Contained rt area slotSize n := by
  unfold Machine.prefetchDenseFfn at hload
  split at hload
  · cases hload
    exact h
  · next hne => exact h.submitDenseFfn hfits hmode hne hload

theorem exec (h : m.Contained rt area slotSize n) (hfits : rt.Fits area slotSize n)
    (hpending : m.pending = op :: ops)
    (hstep : Machine.exec rt { m with pending := ops } op = some m') :
    m'.Contained rt area slotSize n := by
  have hop : op.Suits rt n := h.ops op (by simp [hpending])
  have hrest : Contained rt area slotSize n { m with pending := ops } :=
    h.keep rfl rfl rfl fun o ho => .inl (hpending ▸ List.mem_cons_of_mem _ ho)
  cases op with
  | ensureLayer l => exact hrest.ensureLayer hop hstep
  | requestLayer l => exact hrest.requestLayer hop hstep
  | submitLayer l =>
      cases hstep
      exact hrest.submitLayerLoad hfits (hop.buffer trivial) l
  | send => exact hrest.send hop hstep
  | requestExperts l ids =>
      cases hstep
      exact hrest.submitExpertLoad hfits (hop.buffer trivial) l ids
  | speculate l =>
      simp only [Machine.exec] at hstep
      split at hstep
      · exact hrest.speculate (hop.buffer trivial) hstep
      · exact hrest.speculate (hop.buffer trivial) hstep
  | ensureExperts l ids => exact hrest.ensureExpertsLoaded hfits hop.mode hstep
  | resetStatus l =>
      cases hstep
      exact hrest.keep rfl rfl rfl fun _ => .inl
  | ensureDenseFfn l =>
      cases hstep
      exact hrest.ensureDenseFfnLoaded hop.mode l
  | loadDenseFfn l =>
      obtain ⟨m₁, hm₁, rfl⟩ := Option.map_eq_some_iff.mp hstep
      exact (hrest.submitDenseFfn hfits hop.mode hop.grounded hm₁).keep rfl rfl rfl fun _ => .inl
  | planDenseFfn l =>
      cases hstep
      exact hrest.planDenseFfn hop.mode l
  | prefetchDenseFfn l => exact hrest.prefetchDenseFfn hfits hop.mode hstep
  | awaitResident k =>
      obtain ⟨rfl, -⟩ := hop.resident k rfl
      simp only [Machine.exec] at hstep
      split at hstep
      · cases hstep
        exact hrest.finishResidentFfn
      · cases hstep
        exact hrest.push hop rfl rfl rfl rfl

theorem askCallback (h : m.Contained rt area slotSize n) (hfits : rt.Fits area slotSize n)
    (hmodes : rt.denseFfnStreaming = true → rt.expertStreaming = false)
    (hask : m.askCallback rt l = some m') : m'.Contained rt area slotSize n := by
  have hone : ∀ {o : Op}, o.Suits rt n → Contained rt area slotSize n { m with pending := [o] } :=
    fun ho => h.keep rfl rfl rfl fun o' ho' => .inr (by rwa [List.mem_singleton.mp ho'])
  unfold Machine.askCallback at hask
  split at hask
  · cases hask
    exact h
  · split at hask
    · next hmode =>
        have hbuffer : rt.denseFfnStreaming = false := by
          by_contra hdense
          simp [hmodes (by simpa using hdense)] at hmode
        have hchosen : ∀ {ids : List Nat}, (Op.ensureExperts l ids).Suits rt n := fun {_} =>
          ⟨hmode, trivial, fun hreads => absurd hreads id, fun k hk => by cases hk⟩
        unfold Machine.askExperts at hask
        split at hask
        · cases hask
          exact h
        · split at hask
          · cases hask
            exact hone hchosen
          · -- a prediction from nothing observed, or a cold start
            have hchoose : ∀ predicted : List Nat,
                (if predicted = [] then some { m with pending := [.ensureLayer l] }
                  else some { m with pending := [.ensureExperts l predicted] }) = some m' →
                m'.Contained rt area slotSize n := by
              intro predicted heq
              split at heq
              · cases heq
                exact hone (o := .ensureLayer l) ⟨trivial, trivial, fun _ => hbuffer,
                  fun k hk => by cases hk⟩
              · cases heq
                exact hone hchosen
            dsimp only at hask
            split at hask
            · obtain ⟨predicted, -, hask⟩ := Option.bind_eq_some_iff.mp hask
              exact hchoose predicted hask
            · exact hchoose [] hask
    · next hexpert =>
        split at hask
        · next hdense =>
            cases hask
            unfold Machine.askDense
            split
            · exact h.rewriteResidentPtrs hfits l
            · exact hone (o := .ensureDenseFfn l) ⟨⟨by simpa using hexpert, hdense⟩, trivial,
                fun hreads => absurd hreads id, fun k hk => by cases hk⟩
        · next hdense =>
            cases hask
            exact hone (o := .ensureLayer l) ⟨trivial, trivial, fun _ => by simpa using hdense,
              fun k hk => by cases hk⟩

theorem releaseLayer (h : m.Contained rt area slotSize n) (l : Nat) :
    (m.releaseLayer rt l).Contained rt area slotSize n := by
  unfold Machine.releaseLayer
  split
  · exact h
  · exact h.keep rfl rfl rfl fun _ => .inl

theorem doneCallback (h : m.Contained rt area slotSize n)
    (hmodes : rt.denseFfnStreaming = true → rt.expertStreaming = false) (l lookaheadMax : Nat) :
    (m.doneCallback rt l lookaheadMax).Contained rt area slotSize n := by
  have hswap : (m.swapLayer l).Contained rt area slotSize n := h.keep rfl rfl rfl fun _ => .inl
  unfold Machine.doneCallback
  split
  · exact h
  · split
    · next hmode =>
        have hbuffer : rt.denseFfnStreaming = false := by
          by_contra hdense
          simp [hmodes (by simpa using hdense)] at hmode
        refine hswap.keep rfl rfl rfl fun o ho => .inr ?_
        rcases List.mem_cons.mp ho with rfl | ho
        · exact ⟨trivial, trivial, fun _ => hbuffer, fun k hk => by cases hk⟩
        · split at ho
          · split at ho
            · rw [List.mem_singleton.mp ho]
              exact ⟨trivial, trivial, fun hreads => absurd hreads id, fun k hk => by cases hk⟩
            · cases ho
          · cases ho
    · next hexpert =>
        split
        · next hdense =>
            have hplan : ∀ {m₁ : Machine}, m₁.Contained rt area slotSize n →
                Contained rt area slotSize n { m₁ with pending := [.planDenseFfn l] } := fun h₁ =>
              h₁.keep rfl rfl rfl fun o ho => .inr (by
                rw [List.mem_singleton.mp ho]
                exact ⟨⟨by simpa using hexpert, hdense⟩, trivial, fun hreads => absurd hreads id,
                  fun k hk => by cases hk⟩)
            unfold Machine.doneDense
            dsimp only
            split
            · exact hplan hswap
            · split
              · refine hplan ?_
                exact (hswap.releaseSlots _).keep rfl rfl rfl fun _ => .inl
              · exact hplan hswap
        · next hdense =>
            have hbuffer : rt.denseFfnStreaming = false := by simpa using hdense
            unfold Machine.doneStandard
            dsimp only
            split
            · exact hswap
            · next prev _ =>
                split
                · exact hswap
                · have hreleased : (if prev ∈ rt.config.nvmeLayers then
                      (m.swapLayer l).releaseLayer rt prev else m.swapLayer l).Contained rt area
                        slotSize n := by
                    split
                    · exact hswap.releaseLayer prev
                    · exact hswap
                  refine hreleased.keep rfl rfl rfl fun o ho => .inr ?_
                  rcases List.mem_append.mp ho with ho | ho
                  · obtain ⟨t, -, rfl⟩ := List.mem_map.mp ho
                    exact ⟨trivial, trivial, fun _ => hbuffer, fun k hk => by cases hk⟩
                  · rw [List.mem_singleton.mp ho]
                    exact ⟨trivial, trivial, fun _ => hbuffer, fun k hk => by cases hk⟩

theorem activateResidentFfn (h : m.Contained rt area slotSize n) (hfits : rt.Fits area slotSize n)
    (hmode : rt.denseFfnStreaming = true) :
    (m.activateResidentFfn rt n).Contained rt area slotSize n := by
  unfold Machine.activateResidentFfn
  dsimp only
  split
  · exact h
  · refine submitTasks ?_ _ (show rt.Uses .resident from hmode) fun r hr =>
      residentTasks_inside hfits hr
    refine h.keep rfl rfl rfl fun o ho => .inr ?_
    rw [List.mem_singleton.mp ho]
    exact ⟨trivial, trivial, fun hreads => absurd hreads id, fun k hk => by
      cases hk
      exact ⟨rfl, hmode⟩⟩

end Contained

namespace Contained

theorem handle (h : m.Contained rt area slotSize n) (hfits : rt.Fits area slotSize n)
    (hmodes : rt.denseFfnStreaming = true → rt.expertStreaming = false) {e : Event}
    (hn : Label.activates n (.event e)) (hstep : m.handle rt e = some m') :
    m'.Contained rt area slotSize n := by
  have hall : ∀ {os : List Op}, (∀ o ∈ os, o.Suits rt n) →
      Contained rt area slotSize n { m with pending := os } := fun hos =>
    h.keep rfl rfl rfl fun o ho => .inr (hos o ho)
  have hdenseOp : rt.denseFfnStreaming = true → ∀ {ls : List Nat},
      ∀ o ∈ ls.map Op.prefetchDenseFfn, o.Suits rt n := by
    intro hdense ls o ho
    obtain ⟨l, -, rfl⟩ := List.mem_map.mp ho
    exact ⟨⟨hmodes hdense, hdense⟩, trivial, fun hreads => absurd hreads id, fun k hk => by cases hk⟩
  cases e with
  | ask l =>
      simp only [Machine.handle] at hstep
      split at hstep
      · obtain ⟨m₁, hask, rfl⟩ := Option.map_eq_some_iff.mp hstep
        exact (h.askCallback hfits hmodes hask).keep rfl rfl rfl fun _ => .inl
      · cases hstep
  | done lookaheadMax =>
      obtain ⟨l, -, rfl⟩ := Option.map_eq_some_iff.mp hstep
      exact (h.doneCallback hmodes l lookaheadMax).keep rfl rfl rfl fun _ => .inl
  | doneRouter t =>
      obtain ⟨l, -, rfl⟩ := Option.map_eq_some_iff.mp hstep
      split
      · obtain ⟨selected, heq⟩ := interceptRouterOutput_spec rt m l t
        rw [heq]
        exact h.keep rfl rfl rfl fun _ => .inl
      · exact h.keep rfl rfl rfl fun _ => .inl
  | prefetchAllNvme =>
      simp only [Machine.handle] at hstep
      split at hstep
      · next hstandard =>
          cases hstep
          refine hall fun o ho => ?_
          obtain ⟨l, -, rfl⟩ := List.mem_map.mp ho
          exact ⟨trivial, trivial, fun _ => hstandard.2, fun k hk => by cases hk⟩
      · cases hstep
  | request l =>
      simp only [Machine.handle] at hstep
      split at hstep
      · next hstandard =>
          cases hstep
          refine hall fun o ho => ?_
          rw [List.mem_singleton.mp ho]
          exact ⟨trivial, trivial, fun _ => hstandard.2, fun k hk => by cases hk⟩
      · cases hstep
  | requestSlices l ids =>
      simp only [Machine.handle] at hstep
      split at hstep
      · next hstandard =>
          cases hstep
          refine hall fun o ho => ?_
          rw [List.mem_singleton.mp ho]
          exact ⟨trivial, trivial, fun _ => hstandard.2, fun k hk => by cases hk⟩
      · cases hstep
  | residentFfn k =>
      obtain rfl : k = n := of_decide_eq_true hn
      simp only [Machine.handle] at hstep
      split at hstep
      · next hdense =>
          cases hstep
          exact h.activateResidentFfn hfits hdense.1
      · cases hstep
  | initialDenseFfn =>
      simp only [Machine.handle] at hstep
      split at hstep
      · next hdense =>
          cases hstep
          exact hall (hdenseOp hdense)
      · cases hstep
  | boundaryDenseFfn =>
      simp only [Machine.handle] at hstep
      split at hstep
      · next hdense =>
          cases hstep
          exact hall (hdenseOp hdense)
      · cases hstep
  | token =>
      simp only [Machine.handle] at hstep
      split at hstep
      · cases hstep
        exact h.keep rfl rfl rfl fun _ => .inl
      · cases hstep

theorem step (h : m.Contained rt area slotSize n) (hfits : rt.Fits area slotSize n)
    (hmodes : rt.denseFfnStreaming = true → rt.expertStreaming = false) {lab : Label}
    (hn : Label.activates n lab) (hstep : m.step rt lab = some m') :
    m'.Contained rt area slotSize n := by
  cases lab with
  | event e =>
      simp only [Machine.step] at hstep
      split at hstep
      · exact h.handle hfits hmodes hn hstep
      · cases hstep
  | thread =>
      obtain ⟨-, ⟨op, ops, hpending, hexec⟩ | ⟨-, l, -, ⟨-, rfl⟩ | ⟨-, rfl⟩⟩⟩ := threadStep_cases hstep
      · exact h.exec hfits hpending hexec
      · exact h.keep rfl rfl rfl fun _ => .inl
      · exact h.keep rfl rfl rfl fun _ => .inl
  | wake =>
      simp only [Machine.step] at hstep
      split at hstep
      · cases hstep
        exact h.keep rfl rfl rfl fun _ => .inl
      · cases hstep
  | recv w =>
      obtain ⟨io, hio, rfl⟩ := Option.map_eq_some_iff.mp hstep
      exact h.of_perm (Pool.recv_spec hio).1 rfl rfl fun _ => id
  | pread w count =>
      obtain ⟨j, r, rs, _, io, hw, hregions, -, hio, rfl⟩ := preadStep_spec hstep
      obtain ⟨j', rest, hw', hjobs, hjobs', -⟩ := Pool.work_spec hio
      obtain rfl : j = j' := Worker.busy.inj (Option.some.inj (hw.symm.trans hw'))
      refine h.of_jobs (fun k hk => ?_) rfl rfl fun _ => id
      rcases List.mem_cons.mp (hjobs'.mem_iff.mp hk) with rfl | hk
      · -- the task with one region less
        refine ⟨j, hjobs.mem_iff.mpr List.mem_cons_self, rfl, fun x hx => ?_⟩
        rw [hregions]
        exact List.mem_cons_of_mem _ hx
      · exact ⟨k, hjobs.mem_iff.mpr (List.mem_cons_of_mem _ hk), rfl, fun _ => id⟩
  | finish w =>
      obtain ⟨j, io, -, -, hio, rfl⟩ := finishStep_spec hstep
      obtain ⟨j', x, -, -, hjobs, -⟩ := Pool.finish_spec hio
      refine h.of_jobs (fun k hk => ?_) rfl rfl fun _ => id
      exact ⟨k, hjobs.mem_iff.mpr (List.mem_cons_of_mem _ hk), rfl, fun _ => id⟩
  | fire w =>
      obtain ⟨b, tag, io, -, -, hio, rfl⟩ := fireStep_spec hstep
      obtain ⟨-, -, hjobs, -⟩ := Pool.fire_spec hio
      split
      · exact h.of_perm hjobs rfl rfl fun _ => id
      · exact h.of_perm hjobs rfl rfl fun _ => id

/-- Nothing is in the pool yet, and every pointer leads to its start. -/
theorem start {coActivation : CoActivationMatrix} {expertPool : Option ExpertPool}
    (workers : Nat) (hpool : ¬ rt.Standard → slotSize ≤ area .pool ∧
      ∃ p, expertPool = some p ∧ p.Lies rt area slotSize) :
    (start rt coActivation expertPool workers).Contained rt area slotSize n where
  ops _ hop := by cases hop
  tasks j hj := by simp [Machine.start, Pool.jobs, Pool.start, Worker.job?] at hj
  pointers hmode _ := by
    show 0 + slotSize ≤ area .pool
    rw [Nat.zero_add]
    exact (hpool hmode).1
  pool hmode := (hpool hmode).2

end Contained

end Contained

end Machine

/-! ### How a model is loaded -/

/-- The role that the mode streams into slots. -/
def Runtime.streamedRole (rt : Runtime) : TensorRole → Bool :=
  if rt.expertStreaming then TensorRole.isFusedExperts else TensorRole.isDenseFfn

/-- Where the next FFN tensor would go in the resident buffer. -/
def residentEnd : List DenseFfnLayout → Nat → Nat
  | [], total => total
  | layout :: rest, total => residentEnd rest ((total + layout.size + 4095) / 4096 * 4096)

/-- The sizes of the areas: the buffer that `bufferSize` bytes were loaded into, `numSlots`
slots, and the buffer of the first `n` layers. -/
def Runtime.area (rt : Runtime) (gguf : GgufFile) (bufferSize numSlots n : Nat) : Base → Nat
  | .buffer => bufferSize
  | .pool => numSlots * (largestTensor rt.streamedRole gguf).getD 0
  | .resident => residentEnd (Machine.residentLayouts rt.config n) 0

/-- What a model has to do with its file, with what the loader captured, and with the pool
of the streaming modes. -/
structure Runtime.Built (rt : Runtime) (gguf : GgufFile) (map : TensorMap)
    (expertPool : Option ExpertPool) (bufferSize numSlots n : Nat) : Prop where
  modes : rt.denseFfnStreaming = true → rt.expertStreaming = false
  config : ∃ sidecar numLayers nvmeLayers,
    rt.config = buildPrefetchState gguf map sidecar numLayers nvmeLayers
  names : (gguf.tensors.map (·.name)).Nodup
  captured : Captured map
  inBuffer : ∀ entry ∈ map, entry.2.offsetInBuffer + entry.2.size ≤ bufferSize
  sizes : ∀ t ∈ gguf.tensors, ∀ loc, map.lookup t.name = some loc → loc.size ≤ t.sizeBytes
  /-- No sidecar sends an expert out of its tensor. -/
  places : ∀ l, ∀ layout ∈ rt.config.expertLayouts l, layout.PlacesInside
  pool : ¬ rt.Standard → ∃ p, expertPool = some p ∧
    activatePool rt.streamedRole gguf numSlots = some p
  slots : 0 < numSlots
  few : ∀ l, rt.streamedTensors l ≤ numSlots
  offsets : ∀ name offset, rt.residentFfnOffsets name = some offset →
    Machine.residentOffset rt.config n name = some offset

section Built
variable {rt : Runtime} {gguf : GgufFile} {map : TensorMap} {expertPool : Option ExpertPool}
  {bufferSize numSlots n : Nat}

theorem le_residentEnd (layouts : List DenseFfnLayout) (total : Nat) :
    total ≤ residentEnd layouts total := by
  induction layouts generalizing total with
  | nil => exact le_rfl
  | cons layout rest ih =>
      have hnext : total ≤ (total + layout.size + 4095) / 4096 * 4096 := by omega
      exact hnext.trans (ih _)

/-- A place in the resident buffer is that of a tensor, which ends before the next one. -/
theorem mem_residentPlaces {layouts : List DenseFfnLayout} {total : Nat} {name : String}
    {offset : Nat} (h : (name, offset) ∈ Machine.residentPlaces layouts total) :
    ∃ layout ∈ layouts, layout.tensorName = name ∧
      offset + layout.size ≤ residentEnd layouts total := by
  induction layouts generalizing total with
  | nil => cases h
  | cons layout rest ih =>
      rcases List.mem_cons.mp h with heq | h
      · obtain ⟨rfl, rfl⟩ := Prod.mk.inj heq
        have hnext : offset + layout.size ≤ (offset + layout.size + 4095) / 4096 * 4096 := by omega
        exact ⟨layout, List.mem_cons_self, rfl, hnext.trans (le_residentEnd rest _)⟩
      · obtain ⟨layout', hm, hname, hle⟩ := ih h
        exact ⟨layout', List.mem_cons_of_mem _ hm, hname, hle⟩

namespace Runtime.Built

/-- The layout of a resident layer has the size that the loader captured. -/
theorem resident_size (h : rt.Built gguf map expertPool bufferSize numSlots n)
    {layout : DenseFfnLayout} (hm : layout ∈ Machine.residentLayouts rt.config n) :
    ∃ loc, map.lookup layout.tensorName = some loc ∧ layout.size = loc.size := by
  obtain ⟨l, -, hm⟩ := List.mem_flatMap.mp hm
  obtain ⟨sidecar, numLayers, nvmeLayers, hconfig⟩ := h.config
  rw [hconfig] at hm
  obtain ⟨t, -, -, -, hname, loc, hloc, hsize⟩ := mem_denseFfnLayouts h.names hm
  exact ⟨loc, hname ▸ hloc, hsize⟩

/-- A tensor fits at its place in the resident buffer. -/
theorem resident_inside (h : rt.Built gguf map expertPool bufferSize numSlots n) {name : String}
    {offset : Nat} {loc : TensorLocation}
    (hmem : (name, offset) ∈ Machine.residentPlaces (Machine.residentLayouts rt.config n) 0)
    (hloc : map.lookup name = some loc) :
    offset + loc.size ≤ rt.area gguf bufferSize numSlots n .resident := by
  obtain ⟨layout, hm, rfl, hle⟩ := mem_residentPlaces hmem
  obtain ⟨loc', hloc', hsize⟩ := h.resident_size hm
  obtain rfl : loc = loc' := Option.some.inj (hloc.symm.trans hloc')
  rwa [hsize] at hle

/-- A tensor that is streamed fits in a slot. -/
theorem size_le_slot (h : rt.Built gguf map expertPool bufferSize numSlots n) {t : TensorInfo}
    (ht : t ∈ gguf.tensors) (hrole : rt.streamedRole (.fromName t.name)) {loc : TensorLocation}
    (hloc : map.lookup t.name = some loc) :
    loc.size ≤ (largestTensor rt.streamedRole gguf).getD 0 :=
  (h.sizes t ht loc hloc).trans (le_largestTensor ht hrole)

theorem separated (h : rt.Built gguf map expertPool bufferSize numSlots n) :
    Separated rt.config := by
  obtain ⟨sidecar, numLayers, nvmeLayers, hconfig⟩ := h.config
  have hplaces := h.places
  rw [hconfig] at hplaces ⊢
  exact separated_build h.names h.captured hplaces

/-- Everything fits where it goes. -/
theorem fits (h : rt.Built gguf map expertPool bufferSize numSlots n) :
    rt.Fits (rt.area gguf bufferSize numSlots n) ((largestTensor rt.streamedRole gguf).getD 0) n := by
  obtain ⟨sidecar, numLayers, nvmeLayers, hconfig⟩ := h.config
  refine ⟨h.separated, ?_, ?_, ?_, ?_, ?_⟩
  · -- the buffer
    intro l r hr
    rw [hconfig] at hr
    obtain ⟨t, -, -, hregion⟩ := (mem_layerRegions h.names h.captured).mp hr
    obtain ⟨loc, hloc, rfl⟩ := Option.map_eq_some_iff.mp hregion
    exact h.inBuffer _ (mem_of_lookup_eq_some hloc)
  · -- the slices of fused tensors
    intro hmode l layout hm e he
    have hplace := h.places l layout hm e he
    rw [hconfig] at hm
    obtain ⟨-, t, ht, -, hrole, r, hregion, rfl⟩ := (mem_expertLayouts_iff h.names).mp hm
    obtain ⟨loc, hloc, rfl⟩ := Option.map_eq_some_iff.mp hregion
    have hslot := h.size_le_slot ht
      (by simp [streamedRole, hmode, TensorRole.isFusedExperts, hrole]) hloc
    refine le_trans ?_ hslot
    generalize hfused : fusedLayout gguf sidecar l t _ = layout at hplace
    have hstride : layout.numExperts * layout.expertStride ≤ loc.size := by
      rw [← hfused]
      exact Nat.mul_div_le _ _
    have hmul : (layout.mapExpertId e + 1) * layout.expertStride ≤
        layout.numExperts * layout.expertStride := Nat.mul_le_mul_right _ hplace
    rw [Nat.add_mul, Nat.one_mul] at hmul
    show 0 + layout.mapExpertId e * layout.expertStride + layout.expertStride ≤ loc.size
    omega
  · -- the tensors of a dense FFN
    intro hmode l layout hm
    rw [hconfig] at hm
    obtain ⟨t, ht, -, hrole, -, loc, hloc, hsize⟩ := mem_denseFfnLayouts h.names hm
    rw [hsize]
    exact h.size_le_slot ht (by simp [streamedRole, hmode.1, hrole]) hloc
  · -- and those of the resident layers
    intro layout hm offset hmem
    obtain ⟨loc, hloc, hsize⟩ := h.resident_size hm
    rw [hsize]
    exact h.resident_inside hmem hloc
  · intro name offset hoffset
    exact List.mem_reverse.mp (mem_of_lookup_eq_some (h.offsets name offset hoffset))

/-- The pool has a slot, and lies in its area. -/
theorem lies (h : rt.Built gguf map expertPool bufferSize numSlots n) (hmode : ¬ rt.Standard) :
    (largestTensor rt.streamedRole gguf).getD 0 ≤ rt.area gguf bufferSize numSlots n .pool ∧
      ∃ p, expertPool = some p ∧ p.Lies rt (rt.area gguf bufferSize numSlots n)
        ((largestTensor rt.streamedRole gguf).getD 0) := by
  obtain ⟨p, hp, hactive⟩ := h.pool hmode
  simp only [activatePool, Option.ite_none_right_eq_some, Option.some.injEq] at hactive
  obtain ⟨hpos, rfl⟩ := hactive
  refine ⟨Nat.le_mul_of_pos_left _ h.slots, _, hp, ?_, rfl, Nat.div_mul_le_self _ _⟩
  refine .new hpos fun l => ?_
  rw [Nat.mul_div_cancel _ hpos]
  exact h.few l

end Runtime.Built

end Built

/-! ### In every run -/

namespace Machine
variable {rt : Runtime} {gguf : GgufFile} {map : TensorMap} {expertPool : Option ExpertPool}
  {bufferSize numSlots n workers : Nat} {coActivation : CoActivationMatrix} {m : Machine}

theorem contained_of_reaches (hbuilt : rt.Built gguf map expertPool bufferSize numSlots n)
    (h : Reaches (Machine.step rt) (fun _ lab => Label.activates n lab)
      (start rt coActivation expertPool workers) m) :
    m.Contained rt (rt.area gguf bufferSize numSlots n)
      ((largestTensor rt.streamedRole gguf).getD 0) n :=
  h.invariant (.start workers hbuilt.lies) fun _ _ _ hm hn hstep =>
    hm.step hbuilt.fits hbuilt.modes hn hstep

/-- **A streamed tensor always has memory of its own size**: whatever node is computed, and
whatever was loaded, released or made resident before it, the data pointer of a tensor that
the mode streams leads into the pool or into the resident buffer, never into the buffer that
was given back, and the whole tensor ends before that memory does. -/
theorem streamed_pointers_inside (hbuilt : rt.Built gguf map expertPool bufferSize numSlots n)
    (hmode : ¬ rt.Standard)
    (h : Reaches (Machine.step rt) (fun _ lab => Label.activates n lab)
      (start rt coActivation expertPool workers) m) :
    ∀ t ∈ gguf.tensors, rt.streamedRole (.fromName t.name) →
      ∀ loc, map.lookup t.name = some loc →
        (m.tensorData t.name).1 ≠ .buffer ∧
        (m.tensorData t.name).2 + loc.size ≤
          rt.area gguf bufferSize numSlots n (m.tensorData t.name).1 := by
  intro t ht hrole loc hloc
  have hpoints := (contained_of_reaches hbuilt h).pointers hmode t.name
  generalize m.tensorData t.name = place at hpoints ⊢
  obtain ⟨base, offset⟩ := place
  cases base with
  | buffer => exact absurd hpoints id
  | pool =>
      have hslot := hbuilt.size_le_slot ht hrole hloc
      exact ⟨by simp, (Nat.add_le_add_left hslot offset).trans hpoints⟩
  | resident => exact ⟨by simp, hbuilt.resident_inside hpoints hloc⟩

end Machine

/-! ### A resident layer -/

/-- Of the two layers of `ffnRuntime` the first is resident. -/
def residentRuntime : Runtime :=
  { ffnRuntime 2 with
    residentFfnLayers := {0}
    residentFfnOffsets := Machine.residentOffset (ffnRuntime 2).config 1 }

def residentStart : Machine := .start residentRuntime (.new 0 0) (some (.new 6 1)) 1

/-- The first layer is read into the resident buffer, and the second prefetched. -/
def residentFirst : List Label :=
  .event (.residentFfn 1) :: List.replicate 4 .thread ++ readFfn ++
    [.thread, .event .initialDenseFfn, .thread]

theorem residentRuntime_built :
    residentRuntime.Built (ffnGguf 2) (ffnMap 2) (some (.new 6 1)) 6 6 1 where
  modes _ := rfl
  config := ⟨none, 2, ∅, rfl⟩
  names := by decide
  captured := ⟨by decide, by decide, by simp only [DisjointRanges]; decide⟩
  inBuffer := by decide
  sizes := by
    have hmap : ∀ entry ∈ ffnMap 2, entry.2.size = 1 := by decide
    have htensors : ∀ t ∈ (ffnGguf 2).tensors, t.sizeBytes = 1 := by decide
    intro t ht loc hloc
    rw [hmap _ (mem_of_lookup_eq_some hloc), htensors t ht]
  places l layout hm := by
    have hpos := ((mem_expertLayouts_iff (by decide)).mp hm).1
    exact absurd hpos (by decide)
  pool _ := ⟨_, rfl, by decide +kernel⟩
  slots := by decide
  few l := (List.length_filterMap_le ..).trans (by decide)
  offsets _ _ := id

/-- The last tensor of the first layer has its page of the resident buffer, and that of the
second a slot. -/
theorem residentFirst_inside : ∃ m, exec (Machine.step residentRuntime)
    (fun _ lab => Label.activates 1 lab) residentStart residentFirst = some m ∧
      (m.tensorData "blk.0.ffn_down.weight" = (.resident, 8192) ∧
        m.tensorData "blk.1.ffn_down.weight" = (.pool, 2)) ∧
      ∀ t ∈ (ffnGguf 2).tensors, residentRuntime.streamedRole (.fromName t.name) →
        ∀ loc, (ffnMap 2).lookup t.name = some loc →
          (m.tensorData t.name).1 ≠ .buffer ∧
          (m.tensorData t.name).2 + loc.size ≤
            residentRuntime.area (ffnGguf 2) 6 6 1 (m.tensorData t.name).1 := by
  have hrun : (exec (Machine.step residentRuntime) (fun _ lab => Label.activates 1 lab)
      residentStart residentFirst).map (fun m => (m.tensorData "blk.0.ffn_down.weight",
        m.tensorData "blk.1.ffn_down.weight")) =
      some ((.resident, 8192), (.pool, 2)) := by decide +kernel
  obtain ⟨m, hm, heq⟩ := Option.map_eq_some_iff.mp hrun
  exact ⟨m, hm, Prod.mk.inj heq, Machine.streamed_pointers_inside residentRuntime_built
    (by decide) (Reaches.exec (fun _ _ => id) .refl hm)⟩

end Hypura
