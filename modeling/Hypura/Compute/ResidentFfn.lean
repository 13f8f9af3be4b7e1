import Hypura.Compute.DenseReads
import Hypura.Compute.MemoryBounds

/-!
# Hypura.Compute.ResidentFfn

Dense FFN streaming: the layers whose FFN data stays in memory.

`activate_resident_ffn` reads the FFN tensors of the first layers into a buffer of their own
and waits for them. Nothing else is ever read to there (`ResidentHeld`), so the bytes stay,
whatever becomes of the slots of the other layers; and every `ask` for such a layer points its
tensors at them (`ResidentAsked`).
-/

namespace Hypura

open Hypura.Core Hypura.Core.Countdown

/-! ### The places of the resident tensors -/

/-- The tensors with their places: `residentPlaces`, but not by name. -/
def residentLaid : List DenseFfnLayout → Nat → List (DenseFfnLayout × Nat)
  | [], _ => []
  | layout :: rest, total => (layout, total) ::
      residentLaid rest ((total + layout.size + 4095) / 4096 * 4096)

/-- Where a resident tensor is read to. -/
def residentRegion (q : DenseFfnLayout × Nat) : Region := ⟨q.2, q.1.size, q.1.fileOffset⟩

/-- What `activate_resident_ffn` reads. -/
def residentRegions (cfg : PrefetchConfig) (n : Nat) : List Region :=
  (Machine.residentTasks cfg n).flatten

section Places
variable {layouts : List DenseFfnLayout} {total n : Nat} {cfg : PrefetchConfig}
  {q : DenseFfnLayout × Nat} {r r' : Region}

theorem residentLaid_fst (layouts : List DenseFfnLayout) (total : Nat) :
    (residentLaid layouts total).map (·.1) = layouts := by
  induction layouts generalizing total with
  | nil => rfl
  | cons layout rest ih => rw [residentLaid, List.map_cons, ih]

theorem residentPlaces_eq (layouts : List DenseFfnLayout) (total : Nat) :
    Machine.residentPlaces layouts total =
      (residentLaid layouts total).map fun q => (q.1.tensorName, q.2) := by
  induction layouts generalizing total with
  | nil => rfl
  | cons layout rest ih => rw [Machine.residentPlaces, residentLaid, List.map_cons, ih]

theorem le_of_mem_residentLaid (h : q ∈ residentLaid layouts total) : total ≤ q.2 := by
  induction layouts generalizing total with
  | nil => cases h
  | cons layout rest ih =>
      rcases List.mem_cons.mp h with rfl | h
      · exact le_rfl
      · have hnext : total ≤ (total + layout.size + 4095) / 4096 * 4096 := by omega
        exact hnext.trans (ih h)

/-- One tensor ends before the next one starts. -/
theorem residentLaid_pairwise (layouts : List DenseFfnLayout) (total : Nat) :
    (residentLaid layouts total).Pairwise fun q q' => q.2 + q.1.size ≤ q'.2 := by
  induction layouts generalizing total with
  | nil => exact .nil
  | cons layout rest ih =>
      refine List.pairwise_cons.mpr ⟨fun q hq => ?_, ih _⟩
      have hnext : total + layout.size ≤ (total + layout.size + 4095) / 4096 * 4096 := by omega
      exact hnext.trans (le_of_mem_residentLaid hq)

/-- With names of their own, the tensors are found at their places. -/
theorem residentOffset_eq
    (hnames : ((Machine.residentLayouts cfg n).map (·.tensorName)).Nodup)
    (h : q ∈ residentLaid (Machine.residentLayouts cfg n) 0) :
    Machine.residentOffset cfg n q.1.tensorName = some q.2 := by
  unfold Machine.residentOffset
  rw [residentPlaces_eq]
  refine lookup_eq_some_of_mem ?_ (List.mem_reverse.mpr (List.mem_map_of_mem h))
  rw [List.map_reverse, List.map_map, List.nodup_reverse]
  rwa [← residentLaid_fst (Machine.residentLayouts cfg n) 0, List.map_map] at hnames

theorem mem_residentRegions
    (hnames : ((Machine.residentLayouts cfg n).map (·.tensorName)).Nodup) :
    r ∈ residentRegions cfg n ↔
      ∃ q ∈ residentLaid (Machine.residentLayouts cfg n) 0, residentRegion q = r := by
  unfold residentRegions Machine.residentTasks
  rw [List.mem_flatten]
  constructor
  · intro h
    obtain ⟨rs, hrs, hr⟩ := h
    obtain ⟨layout, hlayout, htask⟩ := List.mem_filterMap.mp hrs
    rw [← residentLaid_fst (Machine.residentLayouts cfg n) 0] at hlayout
    obtain ⟨q, hq, rfl⟩ := List.mem_map.mp hlayout
    rw [residentOffset_eq hnames hq, Option.map_some, Option.some.injEq] at htask
    rw [← htask, List.mem_singleton] at hr
    exact ⟨q, hq, hr.symm⟩
  · intro h
    obtain ⟨q, hq, rfl⟩ := h
    refine ⟨[residentRegion q], List.mem_filterMap.mpr ⟨q.1, ?_, ?_⟩, List.mem_singleton_self _⟩
    · rw [← residentLaid_fst (Machine.residentLayouts cfg n) 0]
      exact List.mem_map_of_mem hq
    · rw [residentOffset_eq hnames hq]
      rfl

/-- Two of the regions are the same or lie apart. -/
theorem residentRegions_apart
    (hnames : ((Machine.residentLayouts cfg n).map (·.tensorName)).Nodup)
    (h : r ∈ residentRegions cfg n) (h' : r' ∈ residentRegions cfg n) :
    r = r' ∨ DisjointRanges r.dst r.size r'.dst r'.size := by
  obtain ⟨q, hq, rfl⟩ := (mem_residentRegions hnames).mp h
  obtain ⟨q', hq', rfl⟩ := (mem_residentRegions hnames).mp h'
  have hsymm : Std.Symm fun q q' : DenseFfnLayout × Nat =>
      DisjointRanges q.2 q.1.size q'.2 q'.1.size := ⟨fun _ _ hqq => hqq.symm⟩
  have hapart : (residentLaid (Machine.residentLayouts cfg n) 0).Pairwise fun q q' =>
      DisjointRanges q.2 q.1.size q'.2 q'.1.size :=
    (residentLaid_pairwise _ _).imp fun hle => .inl hle
  by_cases heq : q = q'
  · exact .inl (congrArg residentRegion heq)
  · exact .inr (hapart.forall hq hq' heq)

/-- A tensor of the first `n` layers is read to its place. -/
theorem exists_residentRegion {layout : DenseFfnLayout}
    (h : layout ∈ Machine.residentLayouts cfg n) :
    ∃ offset, Machine.residentOffset cfg n layout.tensorName = some offset ∧
      (⟨offset, layout.size, layout.fileOffset⟩ : Region) ∈ residentRegions cfg n := by
  obtain ⟨offset, hoffset⟩ := Machine.exists_residentOffset h
  refine ⟨offset, hoffset, List.mem_flatten.mpr ⟨_, List.mem_filterMap.mpr ⟨layout, h, ?_⟩,
    List.mem_singleton_self _⟩⟩
  rw [hoffset]
  rfl

/-- The names of different layers' tensors differ, as do those of one. -/
theorem residentLayouts_nodup (hnodup : ∀ l, (cfg.ffnNames l).Nodup)
    (howner : ∀ l l' name, name ∈ cfg.ffnNames l → name ∈ cfg.ffnNames l' → l = l') (n : Nat) :
    ((Machine.residentLayouts cfg n).map (·.tensorName)).Nodup := by
  rw [Machine.residentLayouts, List.map_flatMap, List.nodup_flatMap]
  refine ⟨fun l _ => hnodup l, List.nodup_range.imp fun hne => ?_⟩
  intro name h h'
  exact hne (howner _ _ name h h')

end Places

/-- The layers that `activate_resident_ffn` keeps in memory, as it returns them. -/
structure Runtime.KeepsFfn (rt : Runtime) (n : Nat) : Prop where
  layers : ∀ l, l ∈ rt.residentFfnLayers ↔ l < n ∧ rt.config.denseFfnLayouts l ≠ []
  offsets : rt.residentFfnOffsets = Machine.residentOffset rt.config n
  size : ((Machine.residentLayouts rt.config n).map (·.size)).sum ≠ 0

/-- An operation of this mode. -/
def Op.IsDense : Op → Prop
  | .send => True
  | .ensureDenseFfn _ => True
  | .loadDenseFfn _ => True
  | .planDenseFfn _ => True
  | .prefetchDenseFfn _ => True
  | .awaitResident _ => True
  | _ => False

namespace Machine

/-! ### The bytes -/

/-- The tasks that are for the resident buffer, and what is in it. -/
structure ResidentHeld (rt : Runtime) (n : Nat) (m : Machine) : Prop where
  balanced : m.io.Balanced
  opened : 0 < m.io.batches.length
  /-- Nothing but the resident tensors is read to there. -/
  tasks : ∀ j ∈ m.io.jobs, j.payload.base = .resident →
    ∀ r ∈ j.payload.regions, r ∈ residentRegions rt.config n
  /-- What is not there yet is in a task of the first batch. -/
  held : ∀ r ∈ residentRegions rt.config n, r.HoldsIn rt.file (m.memory .resident) ∨
    ∃ j ∈ m.io.jobs, j.batch = 0 ∧ j.payload.base = .resident ∧ r ∈ j.payload.regions

section Held
variable {rt : Runtime} {m m' : Machine} {l n : Nat}

/-- A step that moves tasks. -/
theorem ResidentHeld.moved (h : ResidentHeld rt n m) (hbalanced : m'.io.Balanced)
    (hbatches : m'.io.batches = m.io.batches) (hjobs : m'.io.jobs.Perm m.io.jobs)
    (hmemory : m'.memory .resident = m.memory .resident) : ResidentHeld rt n m' := by
  refine ⟨hbalanced, hbatches ▸ h.opened, fun j hj => h.tasks j (hjobs.mem_iff.mp hj),
    fun r hr => ?_⟩
  rw [hmemory]
  refine (h.held r hr).imp_right ?_
  rintro ⟨j, hj, hjob⟩
  exact ⟨j, hjobs.mem_iff.mpr hj, hjob⟩

theorem ResidentHeld.still (h : ResidentHeld rt n m) (hio : m'.io = m.io)
    (hmemory : m'.memory .resident = m.memory .resident) : ResidentHeld rt n m' :=
  h.moved (hio ▸ h.balanced) (congrArg _ hio) (.of_eq (congrArg _ hio)) hmemory

/-- A batch is opened for slots. -/
theorem ResidentHeld.opens (h : ResidentHeld rt n m) {c : IoCompletion} {tasks : List (List Region)}
    (hne : tasks ≠ []) (hio : m'.io = m.io.openBatch c (tasks.map (⟨·, .pool, []⟩)))
    (hmemory : m'.memory .resident = m.memory .resident) : ResidentHeld rt n m' := by
  have hjobs : ∀ j, j ∈ m'.io.jobs ↔
      (∃ regions ∈ tasks, j = ⟨m.io.batches.length, ⟨regions, .pool, []⟩⟩) ∨ j ∈ m.io.jobs := by
    intro j
    rw [hio, Pool.mem_jobs_openBatch]
  refine ⟨hio ▸ h.balanced.openBatch _ (by simpa using hne), ?_, fun j hj hbase => ?_,
    fun r hr => ?_⟩
  · rw [hio]
    simp [Pool.openBatch]
  · rcases (hjobs j).mp hj with ⟨regions, -, rfl⟩ | hj
    · cases hbase
    · exact h.tasks j hj hbase
  · rw [hmemory]
    refine (h.held r hr).imp_right ?_
    rintro ⟨j, hj, hjob⟩
    exact ⟨j, (hjobs j).mpr (.inr hj), hjob⟩

/-- What one task reads in full is then there, and no other region is written. -/
theorem ResidentHeld.pread (h : ResidentHeld rt n m)
    (hnames : ((residentLayouts rt.config n).map (·.tensorName)).Nodup) {w count : Nat}
    (hfull : m.fullRead (.pread w count) = true) (hpread : m.preadStep rt w count = some m') :
    ResidentHeld rt n m' := by
  obtain ⟨j, r, rs, k, io, hw, hregions, -, hio, rfl⟩ := preadStep_spec hpread
  have hcount : r.size ≤ count := size_le_of_fullRead hfull hw hregions
  obtain ⟨j', rest, hw', hjobs, hjobs', hbatches, -⟩ := Pool.work_spec hio
  obtain rfl : j = j' := Worker.busy.inj (Option.some.inj (hw.symm.trans hw'))
  have hj : j ∈ m.io.jobs := hjobs.mem_iff.mpr List.mem_cons_self
  have hr : r ∈ j.payload.regions := hregions ▸ List.mem_cons_self
  have hread : j.payload.base = .resident → r.HoldsIn rt.file
      (Function.update m.memory j.payload.base
        (r.fill rt.file (min count r.size) (m.memory j.payload.base)) .resident) := fun hbase => by
    rw [hbase, Function.update_self]
    exact holdsIn_fill hcount
  have hkept : ∀ r' ∈ residentRegions rt.config n, r'.HoldsIn rt.file (m.memory .resident) →
      r'.HoldsIn rt.file (Function.update m.memory j.payload.base
        (r.fill rt.file (min count r.size) (m.memory j.payload.base)) .resident) := by
    intro r' hr' hheld
    by_cases hbase : j.payload.base = .resident
    · rcases residentRegions_apart hnames hr' (h.tasks j hj hbase r hr) with rfl | hapart
      · exact hread hbase
      · rw [hbase, Function.update_self]
        exact hheld.fill hapart (Nat.min_le_right _ _)
    · rw [Function.update_of_ne (Ne.symm hbase)]
      exact hheld
  refine ⟨h.balanced.work hio, hbatches ▸ h.opened, fun i hi hbase r' hr' => ?_, fun r' hr' => ?_⟩
  · rcases List.mem_cons.mp (hjobs'.mem_iff.mp hi) with rfl | hi
    · exact h.tasks j hj hbase r' (hregions ▸ List.mem_cons_of_mem _ hr')
    · exact h.tasks i (hjobs.mem_iff.mpr (List.mem_cons_of_mem _ hi)) hbase r' hr'
  · rcases h.held r' hr' with hheld | ⟨i, hi, hbatch, hbase, hri⟩
    · exact .inl (hkept r' hr' hheld)
    · rcases List.mem_cons.mp (hjobs.mem_iff.mp hi) with rfl | hi
      · rcases List.mem_cons.mp (hregions ▸ hri) with rfl | hri
        · exact .inl (hread hbase)
        · exact .inr ⟨_, hjobs'.mem_iff.mpr List.mem_cons_self, hbatch, hbase, hri⟩
      · exact .inr ⟨i, hjobs'.mem_iff.mpr (List.mem_cons_of_mem _ hi), hbatch, hbase, hri⟩

/-- A task has read its regions. -/
theorem ResidentHeld.finish (h : ResidentHeld rt n m) {w : Nat}
    (hfinish : m.finishStep w = some m') : ResidentHeld rt n m' := by
  obtain ⟨j, io, hw, hnil, hio, rfl⟩ := finishStep_spec hfinish
  obtain ⟨j', x, hw', -, hjobs, hbatches, -⟩ := Pool.finish_spec hio
  obtain rfl : j = j' := Worker.busy.inj (Option.some.inj (hw.symm.trans hw'))
  refine ⟨h.balanced.finish hio, ?_, fun k hk =>
    h.tasks k (hjobs.mem_iff.mpr (List.mem_cons_of_mem _ hk)), fun r hr => ?_⟩
  · show 0 < io.batches.length
    rw [hbatches, List.length_set]
    exact h.opened
  · refine (h.held r hr).imp_right ?_
    rintro ⟨k, hk, hbatch, hbase, hrk⟩
    rcases List.mem_cons.mp (hjobs.mem_iff.mp hk) with rfl | hk
    · rw [hnil] at hrk
      cases hrk
    · exact ⟨k, hk, hbatch, hbase, hrk⟩

/-- Slots that are freed are not in the resident buffer. -/
theorem memory_setPool_resident (m : Machine) (p p' : ExpertPool) :
    (m.setPool rt p p').memory .resident = m.memory .resident := by
  simp [setPool]

/-- A layer takes slots, and its tasks are submitted. -/
theorem ResidentHeld.allocate (h : ResidentHeld rt n m) (hne : rt.config.denseFfnLayouts l ≠ [])
    {p p' : ExpertPool} {offsets : List Nat} (halloc : m.Allocated rt l p offsets p' m') :
    ResidentHeld rt n m' := by
  refine h.opens (fun hnil => ?_) halloc.io ?_
  · have hlength := congrArg List.length hnil
    rw [denseTasks, List.length_map, List.length_zip, List.length_nil] at hlength
    have hpos := List.length_pos_of_ne_nil hne
    have henough := halloc.enough
    omega
  · rw [halloc.memory]
    exact memory_setPool_resident m p p'

/-- A layer's slots are given back. -/
theorem ResidentHeld.release (h : ResidentHeld rt n m)
    (hsame : ((m.releaseSlots rt l).setStatus l .notLoaded).SameSlots m') :
    ResidentHeld rt n m' := by
  refine h.still ?_ ?_
  · obtain ⟨pool, memory, hreleased⟩ := releaseSlots_spec m l
    rw [hsame.io, hreleased]
    rfl
  · rw [hsame.memory]
    show (m.releaseSlots rt l).memory .resident = _
    rw [releaseSlots]
    split
    · rfl
    · exact memory_setPool_resident m _ _

/-- **One step** that reads in full, once something was submitted. -/
theorem ResidentHeld.step (h : ResidentHeld rt n m)
    (hnames : ((residentLayouts rt.config n).map (·.tensorName)).Nodup) {lab : Label}
    (hfresh : ∀ k, lab ≠ .event (.residentFfn k)) (hfull : m.fullRead lab = true)
    (hstep : DenseStep rt m lab m') : ResidentHeld rt n m' := by
  cases hstep with
  | rest hsame => exact h.still hsame.io (congrFun hsame.memory .resident)
  | point _ _ hsame => exact h.still hsame.io (congrFun hsame.memory .resident)
  | pointResident _ hsame => exact h.still hsame.io (congrFun hsame.memory .resident)
  | allocate _ hne halloc => exact h.allocate hne halloc
  | release _ hsame _ => exact h.release hsame
  | activate => exact absurd rfl (hfresh _)
  | residentLoaded _ hsame => exact h.still hsame.io (congrFun hsame.memory .resident)
  | send hio =>
      obtain ⟨hjobs, hbatches, -, -⟩ := Pool.send_spec hio
      exact h.moved (h.balanced.send hio) hbatches hjobs rfl
  | recv hio =>
      obtain ⟨hjobs, hbatches, -⟩ := Pool.recv_spec hio
      exact h.moved (h.balanced.recv hio) hbatches hjobs rfl
  | pread hpread => exact h.pread hnames hfull hpread
  | finish hfinish => exact h.finish hfinish
  | fire hfire =>
      obtain ⟨b, tag, io, -, -, hio, rfl⟩ := fireStep_spec hfire
      obtain ⟨-, -, hjobs, hbatches, -⟩ := Pool.fire_spec hio
      split
      · exact h.moved (h.balanced.fire hio) hbatches hjobs rfl
      · exact h.moved (h.balanced.fire hio) hbatches hjobs rfl

/-! ### The wait -/

/-- `activate_resident_ffn` waits for the first batch, and nothing else was submitted. -/
structure AwaitsResident (rt : Runtime) (n : Nat) (m : Machine) : Prop where
  pending : .awaitResident n ∈ m.pending
  ops : ∀ op ∈ m.pending, op = .send ∨ op = .awaitResident n
  batches : m.io.batches.length = 1
  unloaded : m.layerStatus (sentinelLayer rt.config) ≠ .loaded

/-- It waits until the batch has fired. -/
theorem AwaitsResident.thread (h : m.AwaitsResident rt n) (hstep : m.threadStep rt = some m') :
    m'.AwaitsResident rt n := by
  obtain ⟨-, ⟨op, ops, hcons, hexec⟩ | ⟨hnil, -⟩⟩ := threadStep_cases hstep
  · have hops : ∀ op ∈ ops, op = .send ∨ op = .awaitResident n := fun op hop =>
      h.ops op (hcons ▸ List.mem_cons_of_mem _ hop)
    rcases h.ops op (hcons ▸ List.mem_cons_self) with rfl | rfl
    · have hwait : .awaitResident n ∈ ops := by simpa [hcons] using h.pending
      simp only [exec] at hexec
      split at hexec
      · next io hio =>
          cases hexec
          obtain ⟨-, hbatches, -, -⟩ := Pool.send_spec hio
          refine ⟨List.mem_cons_of_mem _ hwait, fun op hop => ?_, ?_, h.unloaded⟩
          · exact (List.mem_cons.mp hop).elim .inl (hops op)
          · show io.batches.length = 1
            rw [hbatches]
            exact h.batches
      · cases hexec
        exact ⟨hwait, hops, h.batches, h.unloaded⟩
    · simp only [exec, if_neg h.unloaded] at hexec
      cases hexec
      refine ⟨List.mem_cons_self, fun op hop => ?_, h.batches, h.unloaded⟩
      exact (List.mem_cons.mp hop).elim .inr (hops op)
  · have hwait := h.pending
    rw [hnil] at hwait
    cases hwait

theorem AwaitsResident.step (h : m.AwaitsResident rt n) {lab : Label}
    (hstep : m.step rt lab = some m') : 0 ∈ m'.io.fired ∨ m'.AwaitsResident rt n := by
  cases lab with
  | event e =>
      simp only [Machine.step] at hstep
      split at hstep
      · next hidle =>
          have hwait := h.pending
          rw [hidle.1] at hwait
          cases hwait
      · cases hstep
  | thread => exact .inr (h.thread hstep)
  | wake =>
      simp only [Machine.step] at hstep
      split at hstep
      · cases hstep
        exact .inr ⟨h.pending, h.ops, h.batches, h.unloaded⟩
      · cases hstep
  | recv w =>
      obtain ⟨io, hio, rfl⟩ := Option.map_eq_some_iff.mp hstep
      obtain ⟨-, hbatches, -⟩ := Pool.recv_spec hio
      exact .inr ⟨h.pending, h.ops, (congrArg _ hbatches).trans h.batches, h.unloaded⟩
  | pread w count =>
      obtain ⟨j, r, rs, l, io, -, -, -, hio, rfl⟩ := preadStep_spec hstep
      obtain ⟨-, -, -, -, -, hbatches, -⟩ := Pool.work_spec hio
      exact .inr ⟨h.pending, h.ops, (congrArg _ hbatches).trans h.batches, h.unloaded⟩
  | finish w =>
      obtain ⟨j, io, -, -, hio, rfl⟩ := finishStep_spec hstep
      obtain ⟨j', x, -, -, -, hbatches, -⟩ := Pool.finish_spec hio
      refine .inr ⟨h.pending, h.ops, ?_, h.unloaded⟩
      show io.batches.length = 1
      rw [hbatches, List.length_set]
      exact h.batches
  | fire w =>
      obtain ⟨b, tag, io, hw, htag, hio, rfl⟩ := fireStep_spec hstep
      obtain ⟨b', hw', -, -, -, hfired, -⟩ := Pool.fire_spec hio
      obtain rfl : b = b' := Worker.firing.inj (Option.some.inj (hw.symm.trans hw'))
      -- there is only the one batch
      have hlt := Pool.lt_of_tag? htag
      rw [h.batches, Nat.lt_one_iff] at hlt
      subst hlt
      left
      split
      · exact hfired ▸ List.mem_cons_self
      · exact hfired ▸ List.mem_cons_self

/-- A batch that has fired stays so. -/
theorem DenseStep.fired {lab : Label} (h : DenseStep rt m lab m') {b : Nat}
    (hb : b ∈ m.io.fired) : b ∈ m'.io.fired := by
  cases h with
  | rest hsame => exact hsame.io ▸ hb
  | point _ _ hsame => exact hsame.io ▸ hb
  | pointResident _ hsame => exact hsame.io ▸ hb
  | allocate _ _ halloc => exact halloc.io ▸ hb
  | @release l _ m' _ hsame _ =>
      obtain ⟨pool, memory, hreleased⟩ := releaseSlots_spec m l
      rw [hsame.io, hreleased]
      exact hb
  | activate _ _ hsame => exact hsame.io ▸ hb
  | residentLoaded _ hsame => exact hsame.io ▸ hb
  | send hio => exact (Pool.send_quiet hio).fired_eq ▸ hb
  | recv hio => exact (Pool.recv_quiet hio).fired_eq ▸ hb
  | pread hpread => exact (preadStep_quiet hpread).1.fired_eq ▸ hb
  | finish hfinish => exact (finishStep_quiet hfinish).1.fired_eq ▸ hb
  | fire hfire =>
      obtain ⟨b', tag, io, -, -, hio, rfl⟩ := fireStep_spec hfire
      obtain ⟨b', -, -, -, -, hfired, -⟩ := Pool.fire_spec hio
      have hmem : b ∈ io.fired := hfired ▸ List.mem_cons_of_mem _ hb
      split
      · exact hmem
      · exact hmem

/-! ### The pointers -/

theorem DensePhase.isDense (h : m.DensePhase rt) {op : Op} (hop : op ∈ m.pending) : op.IsDense := by
  cases h with
  | requests hops _ =>
      have hprefetch := hops op hop
      cases op with
      | send => trivial
      | planDenseFfn => trivial
      | prefetchDenseFfn => trivial
      | _ => exact absurd hprefetch id
  | ensure l hpending _ _ =>
      rw [hpending, List.mem_singleton] at hop
      exact hop ▸ trivial
  | load l hpending _ _ _ =>
      rw [hpending, List.mem_singleton] at hop
      exact hop ▸ trivial
  | wait l hops _ _ => exact hops op hop ▸ trivial
  | resident n hops _ _ =>
      rcases hops op hop with rfl | rfl
      · trivial
      · trivial

theorem ensureDenseFfnLoaded_asked (m : Machine) (l : Nat) :
    (m.ensureDenseFfnLoaded rt l).asked = m.asked := by
  unfold ensureDenseFfnLoaded
  dsimp only
  split
  · rfl
  · split
    · rcases rewriteToSlots_cases m l _ with heq | ⟨p, slots, -, -, heq⟩
      · rw [heq]
      · rw [heq]
        rfl
    · rfl

/-- The thread's operations leave the layer asked for. -/
theorem exec_asked (hrt : rt.StreamsFfn) {op : Op} (hop : op.IsDense)
    (h : exec rt m op = some m') : m'.asked = m.asked := by
  cases op with
  | send =>
      simp only [exec] at h
      split at h
      · cases h
        rfl
      · cases h
        rfl
  | ensureDenseFfn l =>
      cases h
      exact ensureDenseFfnLoaded_asked m l
  | loadDenseFfn l =>
      obtain ⟨m₁, hm₁, rfl⟩ := Option.map_eq_some_iff.mp h
      obtain ⟨-, -, -, -, -, -, hasked, -⟩ := submitDenseFfn_allocated hrt hm₁
      exact hasked
  | planDenseFfn l =>
      cases h
      rfl
  | prefetchDenseFfn l =>
      simp only [exec, prefetchDenseFfn] at h
      split at h
      · cases h
        rfl
      · obtain ⟨-, -, -, -, -, -, hasked, -⟩ := submitDenseFfn_allocated hrt h
        exact hasked
  | awaitResident n =>
      simp only [exec] at h
      split at h
      · cases h
        rfl
      · cases h
        rfl
  | _ => exact absurd hop id

theorem threadStep_asked (hrt : rt.StreamsFfn) (hphase : m.DensePhase rt)
    (h : m.threadStep rt = some m') : m'.asked = m.asked := by
  obtain ⟨-, ⟨op, ops, hcons, hexec⟩ | ⟨-, l, -, ⟨-, rfl⟩ | ⟨-, rfl⟩⟩⟩ := threadStep_cases h
  · have hop : op.IsDense := hphase.isDense (hcons ▸ List.mem_cons_self)
    exact (exec_asked hrt hop hexec).trans rfl
  · rfl
  · rfl

/-- The FFN tensors of layer `l` point at their places in the resident buffer. -/
def PointsResident (rt : Runtime) (m : Machine) (l : Nat) : Prop :=
  ∀ layout ∈ rt.config.denseFfnLayouts l, ∀ offset,
    rt.residentFfnOffsets layout.tensorName = some offset →
      m.tensorData layout.tensorName = (.resident, offset)

/-- A tensor is pointed at its place, and stays there. -/
theorem foldl_resident {name : String} {offset : Nat}
    (hoffset : rt.residentFfnOffsets name = some offset) (layouts : List DenseFfnLayout)
    (data : String → Base × Nat)
    (h : (∃ layout ∈ layouts, layout.tensorName = name) ∨ data name = (.resident, offset)) :
    (layouts.foldl (fun data layout =>
      match rt.residentFfnOffsets layout.tensorName with
      | some offset => Function.update data layout.tensorName (.resident, offset)
      | none => data) data) name = (.resident, offset) := by
  induction layouts generalizing data with
  | nil => exact h.resolve_left fun ⟨_, hmem, _⟩ => nomatch hmem
  | cons first layouts ih =>
      rw [List.foldl_cons]
      by_cases hname : first.tensorName = name
      · refine ih _ (.inr ?_)
        simp [hname, hoffset]
      · rcases h with ⟨layout, hmem, heq⟩ | heq
        · have hlater : layout ∈ layouts := (List.mem_cons.mp hmem).resolve_left fun hfirst =>
            hname (hfirst ▸ heq)
          exact ih _ (.inl ⟨layout, hlater, heq⟩)
        · refine ih _ (.inr ?_)
          cases rt.residentFfnOffsets first.tensorName with
          | none => exact heq
          | some _ => simpa [Function.update_of_ne (Ne.symm hname)] using heq

theorem rewriteResidentPtrs_points (m : Machine) (l : Nat) :
    (m.rewriteResidentPtrs rt l).PointsResident rt l :=
  fun layout hlayout _ hoffset => foldl_resident hoffset _ _ (.inl ⟨layout, hlayout, rfl⟩)

/-- While a node of a resident layer is computed, the thread has nothing to do, and the tensors
point at their places. -/
def ResidentAsked (rt : Runtime) (m : Machine) : Prop :=
  ∀ l ∈ rt.residentFfnLayers, m.asked = some l → m.Idle ∧ m.PointsResident rt l

/-- The prefetches at the start of a pass come between nodes. -/
def betweenNodes (m : Machine) : Label → Bool
  | .event .initialDenseFfn => m.asked.isNone
  | .event .boundaryDenseFfn => m.asked.isNone
  | _ => true

theorem residentAsked_of_none (h : m.asked = none) : m.ResidentAsked rt := by
  intro l _ hasked
  rw [h] at hasked
  cases hasked

/-- A step of a worker leaves the thread and the pointers alone. -/
theorem ResidentAsked.worker (h : m.ResidentAsked rt) (hpending : m'.pending = m.pending)
    (hawait : m'.await = m.await) (hasked : m'.asked = m.asked)
    (hdata : m'.tensorData = m.tensorData) : m'.ResidentAsked rt := by
  intro l hl hnode
  obtain ⟨hidle, hpoints⟩ := h l hl (hasked ▸ hnode)
  refine ⟨⟨hpending.trans hidle.1, hawait.trans hidle.2⟩, fun layout hlayout offset hoffset => ?_⟩
  rw [hdata]
  exact hpoints layout hlayout offset hoffset

theorem ResidentAsked.handle (hrt : rt.StreamsFfn)
    (hregions : ∀ l ∈ rt.residentFfnLayers, rt.config.layerRegions l ≠ [])
    (hsubmitted : m.submitted ≠ []) (hidle : m.Idle) {e : Event}
    (hbetween : m.betweenNodes (.event e) = true) (h : m.handle rt e = some m') :
    m'.ResidentAsked rt := by
  have hnot : ¬ rt.Standard := fun hstandard => by
    have hdense := hstandard.2
    rw [hrt.dense] at hdense
    cases hdense
  cases e with
  | ask l =>
      simp only [Machine.handle] at h
      split at h
      · rw [askCallback_dense hrt] at h
        cases h
        intro l' hl' hasked
        cases hasked
        rw [if_neg (hregions l hl'), if_pos hl']
        exact ⟨hidle, rewriteResidentPtrs_points m l⟩
      · cases h
  | done lookaheadMax =>
      obtain ⟨l, -, rfl⟩ := Option.map_eq_some_iff.mp h
      exact residentAsked_of_none rfl
  | doneRouter t =>
      obtain ⟨l, -, rfl⟩ := Option.map_eq_some_iff.mp h
      exact residentAsked_of_none rfl
  | residentFfn k =>
      simp only [Machine.handle] at h
      split at h
      · next hnil => exact absurd hnil.2 hsubmitted
      · cases h
  | initialDenseFfn =>
      simp only [Machine.handle, if_pos hrt.dense] at h
      cases h
      exact residentAsked_of_none (Option.isNone_iff_eq_none.mp hbetween)
  | boundaryDenseFfn =>
      simp only [Machine.handle, if_pos hrt.dense] at h
      cases h
      exact residentAsked_of_none (Option.isNone_iff_eq_none.mp hbetween)
  | token =>
      simp only [Machine.handle] at h
      split at h
      · next hasked =>
          cases h
          exact residentAsked_of_none hasked
      · cases h
  | prefetchAllNvme =>
      simp only [Machine.handle, if_neg hnot] at h
      cases h
  | request l =>
      simp only [Machine.handle, if_neg hnot] at h
      cases h
  | requestSlices l ids =>
      simp only [Machine.handle, if_neg hnot] at h
      cases h

theorem ResidentAsked.step (h : m.ResidentAsked rt) (hrt : rt.StreamsFfn)
    (hregions : ∀ l ∈ rt.residentFfnLayers, rt.config.layerRegions l ≠ [])
    (hsubmitted : m.submitted ≠ []) (hphase : m.DensePhase rt) {lab : Label}
    (hbetween : m.betweenNodes lab = true) (hstep : m.step rt lab = some m') :
    m'.ResidentAsked rt := by
  cases lab with
  | event e =>
      simp only [Machine.step] at hstep
      split at hstep
      · next hidle => exact .handle hrt hregions hsubmitted hidle hbetween hstep
      · cases hstep
  | thread =>
      intro l hl hasked
      rw [threadStep_asked hrt hphase hstep] at hasked
      -- an idle thread has no step
      obtain ⟨hidle, -⟩ := h l hl hasked
      obtain ⟨-, ⟨op, ops, hcons, -⟩ | ⟨-, l', hawait, -⟩⟩ := threadStep_cases hstep
      · rw [hidle.1] at hcons
        cases hcons
      · rw [hidle.2] at hawait
        cases hawait
  | wake =>
      simp only [Machine.step] at hstep
      split at hstep
      · cases hstep
        exact h.worker rfl rfl rfl rfl
      · cases hstep
  | recv w =>
      obtain ⟨io, -, rfl⟩ := Option.map_eq_some_iff.mp hstep
      exact h.worker rfl rfl rfl rfl
  | pread w count =>
      obtain ⟨j, r, rs, l, io, -, -, -, -, rfl⟩ := preadStep_spec hstep
      exact h.worker rfl rfl rfl rfl
  | finish w =>
      obtain ⟨j, io, -, -, -, rfl⟩ := finishStep_spec hstep
      exact h.worker rfl rfl rfl rfl
  | fire w =>
      obtain ⟨b, tag, io, -, -, -, rfl⟩ := fireStep_spec hstep
      refine h.worker ?_ ?_ ?_ ?_
      all_goals split <;> rfl

/-! ### Runs -/

/-- The FFN tensors of layer `l` point at places of the resident buffer that hold their
bytes. -/
def ServedResident (rt : Runtime) (m : Machine) (l : Nat) : Prop :=
  ∀ layout ∈ rt.config.denseFfnLayouts l, ∃ offset,
    m.tensorData layout.tensorName = (.resident, offset) ∧
      (⟨offset, layout.size, layout.fileOffset⟩ : Region).HoldsIn rt.file (m.memory .resident)

/-- What every step of such a run keeps. -/
structure ResidentSound (rt : Runtime) (n : Nat) (m : Machine) : Prop where
  orderly : m.DenseOrderly rt
  submitted : m.submitted ≠ []
  held : ResidentHeld rt n m
  waits : 0 ∈ m.io.fired ∨ m.AwaitsResident rt n
  pointed : m.ResidentAsked rt

theorem ResidentSound.step (h : ResidentSound rt n m) (hrt : rt.StreamsFfn)
    (hregions : ∀ l, rt.config.denseFfnLayouts l ≠ [] → rt.config.layerRegions l ≠ [])
    (hlayers : ∀ l ∈ rt.residentFfnLayers, rt.config.denseFfnLayouts l ≠ [])
    (hnames : ((residentLayouts rt.config n).map (·.tensorName)).Nodup) {lab : Label}
    (hfull : m.fullRead lab = true) (hbetween : m.betweenNodes lab = true)
    (hstep : m.step rt lab = some m') : ResidentSound rt n m' := by
  have hturn := denseTurn hrt hregions h.orderly hstep
  have hfresh : ∀ k, lab ≠ .event (.residentFfn k) := by
    rintro k rfl
    simp only [Machine.step, Machine.handle] at hstep
    split at hstep
    · split at hstep
      · next hnil => exact h.submitted hnil.2
      · cases hstep
    · cases hstep
  exact ⟨hturn.orderly h.orderly, fun hnil => h.submitted (hturn.submits hnil).1,
    h.held.step hnames hfresh hfull hturn.effect,
    h.waits.elim (fun hfired => .inl (hturn.effect.fired hfired)) fun hwait => hwait.step hstep,
    h.pointed.step hrt (fun l hl => hregions l (hlayers l hl)) h.submitted h.orderly.phase hbetween
      hstep⟩

/-- A node of a resident layer is computed with its bytes. -/
theorem ResidentSound.served (h : ResidentSound rt n m) (hkeeps : rt.KeepsFfn n)
    (hl : l ∈ rt.residentFfnLayers) (hasked : m.asked = some l) : m.ServedResident rt l := by
  obtain ⟨hidle, hpoints⟩ := h.pointed l hl hasked
  have hfired : 0 ∈ m.io.fired := h.waits.resolve_right fun hwait => by
    have hpending := hwait.pending
    rw [hidle.1] at hpending
    cases hpending
  intro layout hlayout
  have hmem : layout ∈ residentLayouts rt.config n :=
    List.mem_flatMap.mpr ⟨l, List.mem_range.mpr ((hkeeps.layers l).mp hl).1, hlayout⟩
  obtain ⟨offset, hoffset, hregion⟩ := exists_residentRegion hmem
  refine ⟨offset, hpoints layout hlayout offset (hkeeps.offsets ▸ hoffset), ?_⟩
  -- the first batch has fired, so it has no tasks left
  refine (h.held.held _ hregion).resolve_right ?_
  rintro ⟨j, hj, hbatch, -, -⟩
  have hlive := h.held.balanced.live_iff.mpr (.inl ⟨j, hj, hbatch⟩)
  exact hlive.2 hfired

/-- The load of the resident layers is the first. -/
theorem residentSound_activate (hrt : rt.StreamsFfn)
    (hregions : ∀ l, rt.config.denseFfnLayouts l ≠ [] → rt.config.layerRegions l ≠ [])
    (hkeeps : rt.KeepsFfn n) {coActivation : CoActivationMatrix} {pool : ExpertPool}
    (hempty : pool.layerSlots = []) {workers : Nat}
    (h : (start rt coActivation (some pool) workers).step rt (.event (.residentFfn n)) = some m) :
    ResidentSound rt n m := by
  have horderly : (start rt coActivation (some pool) workers).DenseOrderly rt :=
    denseOrderly_start coActivation hempty workers
  have hne : residentTasks rt.config n ≠ [] := residentTasks_ne_nil fun hnil =>
    hkeeps.size (by rw [hnil]; rfl)
  have hturn := denseTurn hrt hregions horderly h
  have hm : m = (start rt coActivation (some pool) workers).activateResidentFfn rt n := by
    simp only [Machine.step, Machine.handle] at h
    split at h
    · split at h
      · exact (Option.some.inj h).symm
      · cases h
    · cases h
  unfold activateResidentFfn at hm
  rw [if_neg hkeeps.size, submitTasks_of_started hrt.started] at hm
  have hjobs : ∀ j, j ∈ m.io.jobs ↔
      ∃ regions ∈ residentTasks rt.config n, j = ⟨0, ⟨regions, .resident, []⟩⟩ := by
    intro j
    have hnone : j ∉ (start rt coActivation (some pool) workers).io.jobs := by
      simp [start, Pool.start, Pool.jobs, Worker.job?]
    rw [hm]
    exact (Pool.mem_jobs_openBatch ..).trans (or_iff_left hnone)
  refine ⟨hturn.orderly horderly, by rw [hm]; simp, ⟨?_, by rw [hm]; simp [Pool.openBatch],
    fun j hj _ r hr => ?_, fun r hr => .inr ?_⟩, .inr ?_, residentAsked_of_none (by rw [hm]; rfl)⟩
  · rw [hm]
    exact (Pool.balanced_start workers).openBatch _ (by simpa using hne)
  · obtain ⟨regions, hregions, rfl⟩ := (hjobs j).mp hj
    exact List.mem_flatten.mpr ⟨regions, hregions, hr⟩
  · obtain ⟨regions, hregions, hr⟩ := List.mem_flatten.mp hr
    exact ⟨_, (hjobs _).mpr ⟨regions, hregions, rfl⟩, rfl, rfl, hr⟩
  · rw [hm]
    exact ⟨by simp [setStatus], by simp [setStatus],
      by simp [setStatus, start, Pool.openBatch, Pool.start], by simp [setStatus]⟩

/-- **The layers that stay in memory**: after their load, in every state in which a node of such
a layer is computed, its FFN tensors point at places that hold their bytes. -/
theorem resident_served {gguf : GgufFile} {map : TensorMap} {sidecar : Option Sidecar}
    {numLayers s : Nat} {nvmeLayers : Finset Nat} {pool : ExpertPool}
    {coActivation : CoActivationMatrix} {workers : Nat} {m₁ : Machine} (hrt : rt.StreamsFfn)
    (hconfig : rt.config = buildPrefetchState gguf map sidecar numLayers nvmeLayers)
    (hnames : (gguf.tensors.map (·.name)).Nodup) (hmap : Captured map)
    (hpool : activateDenseFfnPool gguf s = some pool) (hkeeps : rt.KeepsFfn n)
    (hactivate : (start rt coActivation (some pool) workers).step rt (.event (.residentFfn n)) =
      some m₁)
    (h : Reaches (Machine.step rt) (fun m lab => m.fullRead lab && m.betweenNodes lab) m₁ m)
    (hl : l ∈ rt.residentFfnLayers) (hasked : m.asked = some l) : m.ServedResident rt l := by
  have hregions : ∀ l, rt.config.denseFfnLayouts l ≠ [] → rt.config.layerRegions l ≠ [] :=
    hconfig ▸ fun l => layerRegions_of_layouts hnames hmap
  have hnodup : ((residentLayouts rt.config n).map (·.tensorName)).Nodup :=
    hconfig ▸ residentLayouts_nodup (ffnNames_nodup hnames)
      (fun _ _ _ => ffnNames_owner hnames) n
  obtain ⟨-, hempty, -⟩ := activatePool_fresh hpool
  have hsound : ResidentSound rt n m := by
    refine h.invariant (residentSound_activate hrt hregions hkeeps hempty hactivate) ?_
    intro m lab m' hm hok hstep
    obtain ⟨hfull, hbetween⟩ := Bool.and_eq_true_iff.mp hok
    exact hm.step hrt hregions (fun l hl => ((hkeeps.layers l).mp hl).2) hnodup hfull hbetween hstep
  exact hsound.served hkeeps hl hasked

end Held

end Machine

/-! ### A resident layer -/

theorem residentRuntime_keeps : residentRuntime.KeepsFfn 1 where
  layers l := by
    have hfirst : residentRuntime.config.denseFfnLayouts 0 ≠ [] := by decide +kernel
    refine ⟨fun hl => ?_, fun hl => ?_⟩
    · rw [Finset.mem_singleton.mp hl]
      exact ⟨Nat.one_pos, hfirst⟩
    · exact Finset.mem_singleton.mpr (Nat.lt_one_iff.mp hl.1)
  offsets := rfl
  size := by decide +kernel

/-- The second layer is prefetched, and a node of the first is asked for. -/
def askResident : List Label :=
  List.replicate 4 .thread ++ readFfn ++ [.thread, .event .initialDenseFfn] ++
    List.replicate 5 .thread ++ [.event (.ask 0)]

theorem residentFirst_served : ∃ m₁ m, Machine.step residentRuntime residentStart
    (.event (.residentFfn 1)) = some m₁ ∧
    exec (Machine.step residentRuntime) (fun m lab => m.fullRead lab && m.betweenNodes lab) m₁
      askResident = some m ∧
    (m.asked = some 0 ∧ m.tensorData "blk.1.ffn_up.weight" = (.pool, 1)) ∧
    m.ServedResident residentRuntime 0 := by
  have hrun : ((Machine.step residentRuntime residentStart (.event (.residentFfn 1))).bind fun m₁ =>
      (exec (Machine.step residentRuntime) (fun m lab => m.fullRead lab && m.betweenNodes lab) m₁
        askResident).map fun m => (m.asked, m.tensorData "blk.1.ffn_up.weight")) =
      some (some 0, (.pool, 1)) := by decide +kernel
  obtain ⟨m₁, hm₁, hrun⟩ := Option.bind_eq_some_iff.mp hrun
  obtain ⟨m, hm, heq⟩ := Option.map_eq_some_iff.mp hrun
  obtain ⟨hasked, hpool⟩ := Prod.mk.inj heq
  have hactive : activateDenseFfnPool (ffnGguf 2) 6 = some (.new 6 1) := by decide +kernel
  exact ⟨m₁, m, hm₁, hm, ⟨hasked, hpool⟩, Machine.resident_served ⟨rfl, rfl, rfl, rfl⟩ rfl
    (by decide) ⟨by decide, by decide, by simp only [DisjointRanges]; decide⟩ hactive
    residentRuntime_keeps hm₁ (Reaches.exec (fun _ _ => id) .refl hm)
    (Finset.mem_singleton_self 0) hasked⟩

end Hypura
