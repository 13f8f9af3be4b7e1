import Hypura.Compute.DenseReads
import Hypura.Compute.RouterChoice

/-!
# Hypura.Compute.LoadedBytes

Standard mode: the buffer holds the bytes of the file.

Everything that is ever read for a layer is `PartOf` one of its regions: it lies in it, and
comes from the corresponding part of the file, an expert's slice wherever the sidecar puts
it. So two reads that write to one address write the same byte, even if they overlap in
time, and what was read for a layer stays as it is until the layer is released.

Its neighbours are the exception. The tensors lie one behind the other, and the release of a
layer frees every page that has a byte of it, so that the last bytes of one layer and the
first of the next go together. What is certain is that the bytes stay whose page no other
layer that is ever released has a part of (`OwnPage`).
-/

namespace Hypura

open Hypura.Core Hypura.Core.Countdown

/-! ### Parts of a region -/

namespace Region
variable {r r' whole : Region} {file : List UInt8} {buf : Buffer} {count pageSize : Nat}
  {P : Nat → Prop}

/-- Where both regions are written to, it is the same byte of the file. -/
def Consistent (r r' : Region) : Prop :=
  ∀ a, r.dst ≤ a → a < r.dst + r.size → r'.dst ≤ a → a < r'.dst + r'.size →
    r.fileOffset + (a - r.dst) = r'.fileOffset + (a - r'.dst)

theorem PartOf.consistent (h : r.PartOf whole) (h' : r'.PartOf whole) : r.Consistent r' := by
  intro a hlo hhi hlo' hhi'
  unfold PartOf Within at h h'
  omega

theorem Apart.consistent (h : r.Apart r') : r.Consistent r' := by
  intro a hlo hhi hlo' hhi'
  unfold Apart DisjointRanges at h
  omega

/-- The buffer holds those bytes of the region that are where `P` says, as far as the file
has them. -/
def HoldsWhere (P : Nat → Prop) (file : List UInt8) (r : Region) (buf : Buffer) : Prop :=
  ∀ a < r.size, P (r.dst + a) → ∀ b, file[r.fileOffset + a]? = some b → buf (r.dst + a) = some b

theorem HoldsIn.holdsWhere (h : r.HoldsIn file buf) : r.HoldsWhere P file buf :=
  fun a ha _ => h a ha

/-- A read that brings the same bytes leaves what is there. -/
theorem HoldsWhere.read (h : r.HoldsWhere P file buf) (hsame : r.Consistent r')
    (hcount : count ≤ r'.size) : r.HoldsWhere P file (r'.fill file count buf) := by
  intro a ha hP b hb
  unfold Region.fill
  split
  · next hin =>
      have hbyte := hsame (r.dst + a) (by omega) (by omega) hin.1 (by omega)
      rw [Nat.add_sub_cancel_left] at hbyte
      rw [← hbyte, hb]
  · exact h a ha hP b hb

/-- Pages are freed that have none of those bytes. -/
theorem HoldsWhere.freeRegions {rs : List Region} (h : r.HoldsWhere P file buf)
    (hoff : ∀ x ∈ rs, ∀ a, P a → ¬ OnPages pageSize x.dst x.size a) :
    r.HoldsWhere P file (rs.foldl (fun buf x => freeRange pageSize x.dst x.size buf) buf) := by
  induction rs generalizing buf with
  | nil => exact h
  | cons x rs ih =>
      obtain ⟨hx, hrest⟩ := List.forall_mem_cons.mp hoff
      refine ih (fun a ha hP b hb => ?_) hrest
      show freeRange pageSize x.dst x.size buf (r.dst + a) = some b
      rw [freeRange, if_neg (hx _ hP)]
      exact h a ha hP b hb

end Region

namespace Machine

section LoadedBytes
variable {rt : Runtime} {cfg : PrefetchConfig} {m m' : Machine} {l l' : Nat} {r r' : Region}

/-- A slice is a part of its tensor: the sidecar moves both of its places alike. -/
theorem OfLayer.partOf (hsep : Separated cfg) (h : OfLayer cfg l r) :
    ∃ whole ∈ cfg.layerRegions l, r.PartOf whole := by
  rcases h with hr | ⟨layout, hm, e, he, rfl⟩
  · exact ⟨r, hr, .refl r⟩
  · refine ⟨layout.whole, hsep.whole l layout hm, hsep.slice l layout hm e he, ?_⟩
    simp only [ExpertLayout.bufferRegion, ExpertLayout.expertFileOffset,
      ExpertLayout.expertBufferOffset, ExpertLayout.whole]
    omega

/-- The load of a layer reads its own. -/
theorem ofLayer_of_planLayer (hsep : Separated rt.config)
    (h : r ∈ (planLayer rt m l).tasks.flatten) : OfLayer rt.config l r := by
  rcases planLayer_cases rt m l with ⟨ids, -, hplan⟩ | ⟨-, hplan⟩
  · rw [hplan] at h
    rcases mem_planSlices h with hr | ⟨layout, hm, e, -, he, hre⟩
    · exact .inl (hsep.nonExpert l r hr)
    · exact .inr ⟨layout, hm, e, he, hre⟩
  · rw [hplan, flatten_planFull] at h
    exact .inl h

/-- All that is read for the layers is consistent. -/
theorem OfLayer.consistent (hsep : Separated cfg) (h : OfLayer cfg l r) (h' : OfLayer cfg l' r') :
    r.Consistent r' := by
  obtain ⟨whole, hm, hr⟩ := h.partOf hsep
  obtain ⟨whole', hm', hr'⟩ := h'.partOf hsep
  by_cases hl : l = l'
  · subst hl
    by_cases hwhole : whole = whole'
    · exact hr.consistent (hwhole ▸ hr')
    · exact ((regions_apart hsep hm hm' hwhole).within hr.1 hr'.1).consistent
  · exact ((hsep.layers l l' hl whole hm whole' hm').within hr.1 hr'.1).consistent

/-! ### The invariant -/

/-- The page of `a` has no byte of another layer that is ever released. -/
def OwnPage (rt : Runtime) (l a : Nat) : Prop :=
  ∀ l' ≠ l, rt.Releases l' → ∀ x ∈ rt.config.layerRegions l',
    ¬ OnPages rt.pageSize x.dst x.size a

structure Faithful (rt : Runtime) (m : Machine) : Prop where
  /-- A task reads parts of its layer's regions into the buffer. -/
  tasks : ∀ j ∈ m.io.jobs, j.payload.base = .buffer ∧ ∃ l, layerOf m.io j.batch = some l ∧
    ∀ r ∈ j.payload.regions, OfLayer rt.config l r
  /-- What was read for a layer is there, on the pages that are its own. -/
  read : ∀ l, ∀ r ∈ m.readSince l,
    OfLayer rt.config l r ∧ r.HoldsWhere (OwnPage rt l) rt.file (m.memory .buffer)

namespace Faithful

/-- Tasks are moved about. -/
theorem of_perm (h : m.Faithful rt) (hjobs : m'.io.jobs.Perm m.io.jobs)
    (hlayer : ∀ b, layerOf m'.io b = layerOf m.io b) (hmemory : m'.memory = m.memory)
    (hread : m'.readSince = m.readSince) : m'.Faithful rt where
  tasks j hj := by
    rw [hlayer]
    exact h.tasks j (hjobs.mem_iff.mp hj)
  read l r hr := by
    rw [hread] at hr
    rw [hmemory]
    exact h.read l r hr

theorem of_io (h : m.Faithful rt) (hio : m'.io = m.io) (hmemory : m'.memory = m.memory)
    (hread : m'.readSince = m.readSince) : m'.Faithful rt :=
  h.of_perm (.of_eq (by rw [hio])) (fun b => by rw [hio]) hmemory hread

/-- Tasks are submitted. -/
theorem opened (h : m.Faithful rt) {c : IoCompletion} {tasks : List (List Region)}
    (hio : m'.io = m.io.openBatch c (tasks.map (⟨·, .buffer, []⟩)))
    (hlayer : ∀ r ∈ tasks.flatten, OfLayer rt.config c.layerIdx r)
    (hmemory : m'.memory = m.memory) (hread : m'.readSince = m.readSince) : m'.Faithful rt where
  tasks j hj := by
    rw [hio, Pool.mem_jobs_openBatch] at hj
    rcases hj with ⟨rs, hrs, rfl⟩ | hj
    · refine ⟨rfl, c.layerIdx, ?_, fun r hr => hlayer r (List.mem_flatten.mpr ⟨rs, hrs, hr⟩)⟩
      simp [layerOf, hio, Pool.tag?_openBatch]
    · obtain ⟨hbase, l, hl, hall⟩ := h.tasks j hj
      obtain ⟨tag, htag, -⟩ := Option.map_eq_some_iff.mp hl
      -- the batch of an old task is not the new one
      have hlt := Pool.lt_of_tag? htag
      refine ⟨hbase, l, ?_, hall⟩
      rw [layerOf, hio, Pool.tag?_openBatch, if_neg (by omega)]
      exact hl
  read l r hr := by
    rw [hread] at hr
    rw [hmemory]
    exact h.read l r hr

/-- The load of a layer is submitted: all of its regions, or by expert. -/
theorem submit (h : m.Faithful rt) (hrt : rt.Streams) (hsep : Separated rt.config) {ops : List Op} :
    ({ m with pending := ops }.submitLayerLoad rt l).Faithful rt := by
  rcases submitLayerLoad_cases (m := { m with pending := ops }) hrt l with ⟨-, heq⟩ | ⟨-, heq⟩
  · rw [heq]
    exact h.of_io rfl rfl rfl
  · rw [heq]
    exact h.opened rfl (fun r hr => ofLayer_of_planLayer hsep hr) rfl rfl

/-- Slices are requested ahead of the load. -/
theorem request (h : m.Faithful rt) (hrt : rt.Streams) (hsep : Separated rt.config)
    {ids : List Nat} {ops : List Op} :
    ({ m with pending := ops }.submitExpertLoad rt l ids).Faithful rt := by
  rcases submitExpertLoad_cases (m := { m with pending := ops }) hrt l ids with
    ⟨-, heq⟩ | ⟨-, heq⟩ | ⟨-, -, heq⟩
  · rw [heq]
    exact h.of_io rfl rfl rfl
  · rw [heq]
    exact h.of_io rfl rfl rfl
  · rw [heq]
    refine h.opened rfl (fun r hr => ?_) rfl rfl
    rcases mem_planSlices hr with hr | ⟨layout, hm, e, -, he, hre⟩
    · exact .inl (hsep.nonExpert l r hr)
    · exact .inr ⟨layout, hm, e, he, hre⟩

/-- A region is read, in full or in part: what was there stays, since whatever else is read
to the same place is the same. -/
theorem pread (h : m.Faithful rt) (hsep : Separated rt.config) {w count : Nat}
    (hpread : m.preadStep rt w count = some m') : m'.Faithful rt := by
  obtain ⟨j, r₀, rs, l₀, io, hw, hregions, hlayer, hio, rfl⟩ := preadStep_spec hpread
  obtain ⟨j', rest, hw', hjobs, hjobs', -⟩ := Pool.work_spec hio
  obtain rfl : j' = j := by
    rw [hw] at hw'
    exact (Worker.busy.inj (Option.some.inj hw')).symm
  have hlayers : ∀ b, layerOf io b = layerOf m.io b := fun b =>
    layerOf_of_tag?_eq ((Pool.work_quiet hio).tag?_eq b)
  obtain ⟨hbase, l, hl, hall⟩ := h.tasks j' (hjobs.mem_iff.mpr List.mem_cons_self)
  obtain rfl : l = l₀ := Option.some.inj (hl.symm.trans hlayer)
  have hr₀ : OfLayer rt.config l r₀ := hall r₀ (by simp [hregions])
  constructor
  · intro j₁ hj₁
    show j₁.payload.base = .buffer ∧ ∃ l, layerOf io j₁.batch = some l ∧ _
    rw [hlayers]
    rcases List.mem_cons.mp (hjobs'.mem_iff.mp hj₁) with rfl | hin
    · exact ⟨hbase, l, hl, fun r hr => hall r (by simp [hregions, hr])⟩
    · exact h.tasks j₁ (hjobs.mem_iff.mpr (List.mem_cons_of_mem _ hin))
  · intro k r hr
    show _ ∧ r.HoldsWhere (OwnPage rt k) rt.file (Function.update m.memory j'.payload.base
      (r₀.fill rt.file (min count r₀.size) (m.memory j'.payload.base)) .buffer)
    rw [hbase, Function.update_self]
    have hold : ∀ {r}, r ∈ m.readSince k → OfLayer rt.config k r ∧
        r.HoldsWhere (OwnPage rt k) rt.file
          (r₀.fill rt.file (min count r₀.size) (m.memory .buffer)) := by
      intro r hr
      obtain ⟨hof, hholds⟩ := h.read k r hr
      exact ⟨hof, hholds.read (hof.consistent hsep hr₀) (min_le_right _ _)⟩
    change r ∈ (if r₀.size ≤ count then
      Function.update m.readSince l (r₀ :: m.readSince l) else m.readSince) k at hr
    split at hr
    · next hfull =>
        by_cases hk : k = l
        · subst hk
          rw [Function.update_self] at hr
          rcases List.mem_cons.mp hr with rfl | hr
          · exact ⟨hr₀, (holdsIn_fill hfull).holdsWhere⟩
          · exact hold hr
        · rw [Function.update_of_ne hk] at hr
          exact hold hr
    · exact hold hr

/-- A layer's pages are freed: they are no other layer's own. -/
theorem release (h : m.Faithful rt) (hrt : rt.Streams) (hreleases : rt.Releases l) :
    (m.releaseLayer rt l).Faithful rt := by
  rcases releaseLayer_cases (m := m) hrt l with ⟨-, heq⟩ | ⟨-, heq⟩
  · rw [heq]
    exact h
  · rw [heq]
    refine ⟨h.tasks, fun k r hr => ?_⟩
    change r ∈ Function.update m.readSince l [] k at hr
    by_cases hk : k = l
    · simp [hk] at hr
    · rw [Function.update_of_ne hk] at hr
      obtain ⟨hof, hholds⟩ := h.read k r hr
      refine ⟨hof, ?_⟩
      show r.HoldsWhere (OwnPage rt k) rt.file (Function.update m.memory .buffer _ .buffer)
      rw [Function.update_self]
      exact hholds.freeRegions fun x hx a hown => hown l (Ne.symm hk) hreleases x hx

/-! ### Steps -/

/-- An event at an idle thread: at most a layer is released. -/
theorem handled (h : m.Faithful rt) (hrt : rt.Streams) (hevent : Handled rt m m') :
    m'.Faithful rt := by
  cases hevent with
  | ask => exact h.of_io rfl rfl rfl
  | done => exact h.of_io rfl rfl rfl
  | release _ _ _ _ _ hreleases => exact (h.release hrt hreleases).of_io rfl rfl rfl
  | router => exact h.of_io rfl rfl rfl
  | requests => exact h.of_io rfl rfl rfl
  | token => exact h.of_io rfl rfl rfl

theorem thread_request (h : m.Faithful rt) (hrt : rt.Streams) (hsep : Separated rt.config)
    {op : Op} {ops : List Op} (hop : op.IsRequest) (hops : ∀ op ∈ ops, op.IsRequest)
    (hexec : exec rt { m with pending := ops } op = some m') : m'.Faithful rt := by
  rcases exec_request hop hops hexec with
    ⟨coAct, prev, ops', -, rfl⟩ | ⟨l, -, rfl⟩ | ⟨l, ids, -, rfl⟩
  · exact h.of_io rfl rfl rfl
  · exact h.of_io rfl rfl rfl
  · exact h.request hrt hsep

/-- A step of the inference thread, which itself neither reads nor frees. -/
theorem thread (h : m.Faithful rt) (hrt : rt.Streams) (hsep : Separated rt.config)
    (ho : m.Orderly rt) (hthread : m.threadStep rt = some m') : m'.Faithful rt := by
  obtain ⟨-, ⟨op, ops, hcons, hexec⟩ | ⟨-, l, -, ⟨-, rfl⟩ | ⟨-, rfl⟩⟩⟩ := threadStep_cases hthread
  · cases ho.phase with
    | requests hops =>
        rw [hcons] at hops
        obtain ⟨hop, hops⟩ := List.forall_mem_cons.mp hops
        exact h.thread_request hrt hsep hop hops hexec
    | ensure l hpending =>
        rw [hpending] at hcons
        cases hcons
        simp only [exec] at hexec
        split at hexec
        · cases hexec
          exact h.of_io rfl rfl rfl
        · cases hexec
          exact h.of_io rfl rfl rfl
        · cases hexec
          exact h.of_io rfl rfl rfl
    | submit l ops' hpending =>
        rw [hpending] at hcons
        cases hcons
        cases hexec
        exact h.submit hrt hsep
    | send ops' hpending =>
        rw [hpending] at hcons
        cases hcons
        simp only [exec] at hexec
        split at hexec
        · next io hio =>
            cases hexec
            refine h.of_perm (Pool.send_spec hio).1 (fun b => ?_) rfl rfl
            exact layerOf_of_tag?_eq ((Pool.send_quiet hio).tag?_eq b)
        · cases hexec
          exact h.of_io rfl rfl rfl
    | wait l hpending =>
        rw [hpending] at hcons
        cases hcons
  · exact h.of_io rfl rfl rfl
  · exact h.of_io rfl rfl rfl

theorem finish (h : m.Faithful rt) {w : Nat} (hfinish : m.finishStep w = some m') :
    m'.Faithful rt := by
  obtain ⟨j, io, -, -, hio, rfl⟩ := finishStep_spec hfinish
  obtain ⟨j', x, -, -, hjobs, -⟩ := Pool.finish_spec hio
  refine ⟨fun j₁ hj₁ => ?_, h.read⟩
  show j₁.payload.base = .buffer ∧ ∃ l, layerOf io j₁.batch = some l ∧ _
  rw [layerOf_of_tag?_eq ((Pool.finish_quiet hio).tag?_eq j₁.batch)]
  exact h.tasks j₁ (hjobs.mem_iff.mpr (List.mem_cons_of_mem _ hj₁))

theorem fire (h : m.Faithful rt) {w : Nat} (hfire : m.fireStep w = some m') : m'.Faithful rt := by
  obtain ⟨b, tag, io, -, -, hio, rfl⟩ := fireStep_spec hfire
  obtain ⟨-, -, hjobs, hbatches, -⟩ := Pool.fire_spec hio
  have hlayer : ∀ b, layerOf io b = layerOf m.io b := fun b =>
    layerOf_of_tag?_eq (Pool.tag?_of_batches hbatches b)
  split
  · exact h.of_perm hjobs hlayer rfl rfl
  · exact h.of_perm hjobs hlayer rfl rfl

/-- **Every step keeps what was read**, whatever the reads return. -/
theorem step (h : m.Faithful rt) (hrt : rt.Streams) (hsep : Separated rt.config)
    (ho : m.Orderly rt) {lab : Label} (hstep : m.step rt lab = some m') : m'.Faithful rt := by
  cases lab with
  | event e =>
      simp only [Machine.step] at hstep
      split at hstep
      · next hidle => exact h.handled hrt (handle_handled hrt hidle hstep)
      · cases hstep
  | thread => exact h.thread hrt hsep ho hstep
  | wake =>
      simp only [Machine.step] at hstep
      split at hstep
      · cases hstep
        exact h.of_io rfl rfl rfl
      · cases hstep
  | recv w =>
      obtain ⟨io, hio, rfl⟩ := Option.map_eq_some_iff.mp hstep
      refine h.of_perm (Pool.recv_spec hio).1 (fun b => ?_) rfl rfl
      exact layerOf_of_tag?_eq ((Pool.recv_quiet hio).tag?_eq b)
  | pread w count => exact h.pread hsep hstep
  | finish w => exact h.finish hstep
  | fire w => exact h.fire hstep

end Faithful

theorem faithful_start (coActivation : CoActivationMatrix) (expertPool : Option ExpertPool)
    (workers : Nat) : (start rt coActivation expertPool workers).Faithful rt where
  tasks j hj := by simp [start, Pool.jobs, Pool.start, Worker.job?] at hj
  read l r hr := by cases hr

theorem faithful_of_reaches {ok : Machine → Label → Prop} {coActivation : CoActivationMatrix}
    {expertPool : Option ExpertPool} {workers : Nat} (hrt : rt.Streams)
    (hsep : Separated rt.config) (hworkers : 0 < workers)
    (h : Reaches (Machine.step rt) ok (start rt coActivation expertPool workers) m) :
    m.Faithful rt := by
  refine (h.invariant (P := fun m => m.Orderly rt ∧ m.Faithful rt) ?_ ?_).2
  · exact ⟨orderly_start coActivation expertPool hworkers,
      faithful_start coActivation expertPool workers⟩
  · intro m lab m' ⟨ho, hf⟩ _ hstep
    exact ⟨ho.step hrt hstep, hf.step hrt hsep ho hstep⟩

/-! ### In every run -/

variable {gguf : GgufFile} {map : TensorMap} {sidecar : Option Sidecar} {numLayers workers : Nat}
  {nvmeLayers : Finset Nat} {coActivation : CoActivationMatrix} {expertPool : Option ExpertPool}

/-- **What was read for a layer since it was last released is in the buffer**, on the pages
that are its own: in every run and whatever the reads return, also while other tasks write to
the same places. -/
theorem read_bytes_kept (hrt : rt.Streams) (hworkers : 0 < workers)
    (hconfig : rt.config = buildPrefetchState gguf map sidecar numLayers nvmeLayers)
    (hnames : (gguf.tensors.map (·.name)).Nodup) (hmap : Captured map)
    (hplaces : ∀ l, ∀ layout ∈ rt.config.expertLayouts l, layout.PlacesInside)
    (h : Reaches (Machine.step rt) (fun _ _ => true)
      (start rt coActivation expertPool workers) m) :
    ∀ l, ∀ r ∈ m.readSince l, r.HoldsWhere (OwnPage rt l) rt.file (m.memory .buffer) := by
  have hsep : Separated rt.config := by
    rw [hconfig] at hplaces ⊢
    exact separated_build hnames hmap hplaces
  intro l r hr
  exact ((faithful_of_reaches hrt hsep hworkers h).read l r hr).2

/-- A layer without fused tensors is loaded in full. -/
theorem fullLoads_of_reaches {ok : Machine → Label → Prop} (hrt : rt.Streams)
    (hworkers : 0 < workers) (hl : rt.config.expertLayouts l = [])
    (h : Reaches (Machine.step rt) ok (start rt coActivation expertPool workers) m) :
    m.FullLoads l := by
  refine (h.invariant (P := fun m => m.Orderly rt ∧ m.FullLoads l) ?_ ?_).2
  · exact ⟨orderly_start coActivation expertPool hworkers, rfl, fun b c hb => by cases hb⟩
  · intro m lab m' ⟨ho, hf⟩ _ hstep
    exact ⟨ho.step hrt hstep, hf.step hrt hl (standardStep hrt ho hstep)⟩

/-- **A node is computed on the bytes of the file**: once the `ask` callback of a node has
returned, the buffer holds every tensor of the layer asked for, and of the fused ones the
slices of the experts that the load was built from, on the pages that are the layer's own. -/
theorem evaluated_tensors_hold (hrt : rt.Streams) (hworkers : 0 < workers)
    (hconfig : rt.config = buildPrefetchState gguf map sidecar numLayers nvmeLayers)
    (hnames : (gguf.tensors.map (·.name)).Nodup) (hmap : Captured map)
    (hplaces : ∀ l, ∀ layout ∈ rt.config.expertLayouts l, layout.PlacesInside)
    (hd : DistinctTypes (rt.config.expertLayouts l))
    (h : Reaches (Machine.step rt) (fun m lab => m.fullRead lab && m.slicesLanded rt l lab)
      (start rt coActivation expertPool workers) m)
    (hasked : m.asked = some l) (hidle : m.Idle) :
    (∀ t ∈ gguf.tensors, t.layerIndex = some l → ∀ r, tensorRegion gguf map t = some r →
      (TensorRole.fromName t.name = .moeFusedExperts → m.basis l = none) →
      r.HoldsWhere (OwnPage rt l) rt.file (m.memory .buffer)) ∧
    ∀ ids, m.basis l = some ids → ∀ layout ∈ rt.config.expertLayouts l, ∀ e ∈ ids,
      e < layout.numExperts →
        (layout.bufferRegion e).HoldsWhere (OwnPage rt l) rt.file (m.memory .buffer) := by
  have hsep : Separated rt.config := by
    rw [hconfig] at hplaces ⊢
    exact separated_build hnames hmap hplaces
  have hfaithful := faithful_of_reaches hrt hsep hworkers h
  obtain ⟨ho, -, hcov⟩ := covered_of_reaches hrt hworkers hd
    (fun m lab hok => (Bool.and_eq_true_iff.mp hok).1)
    (fun m lab hok => (Bool.and_eq_true_iff.mp hok).2) h
  have hholds : rt.config.layerRegions l ≠ [] → ∀ r, Needed rt.config l (m.basis l) r →
      r.HoldsWhere (OwnPage rt l) rt.file (m.memory .buffer) := fun hregions r hneeded =>
    (hfaithful.read l r (hcov.loaded (ho.loaded_of_idle hidle hasked hregions) r hneeded)).2
  constructor
  · intro t ht hlayer r hr hfull
    have hregion : r ∈ rt.config.layerRegions l := by
      rw [hconfig]
      exact (mem_layerRegions hnames hmap).mpr ⟨t, ht, hlayer, hr⟩
    refine hholds (List.ne_nil_of_mem hregion) r ?_
    cases hbasis : m.basis l with
    | none => exact hregion
    | some ids =>
        -- the load was built from a selection: the layer has fused tensors, and `t` is none
        have hlayouts : rt.config.expertLayouts l ≠ [] := by
          intro hnil
          have hnone := (fullLoads_of_reaches hrt hworkers hnil h).basis
          rw [hbasis] at hnone
          cases hnone
        refine .inl ?_
        rw [hconfig] at hlayouts ⊢
        refine (mem_nonExpertRegions hnames hlayouts).mpr ⟨t, ht, hlayer, fun hrole => ?_, hr⟩
        have hnone := hfull hrole
        rw [hbasis] at hnone
        cases hnone
  · intro ids hbasis layout hm e he hlt
    refine hholds (List.ne_nil_of_mem (hsep.whole l layout hm)) _ ?_
    rw [hbasis]
    exact .inr ⟨layout, hm, e, he, hlt, rfl⟩

end LoadedBytes

end Machine

/-! ### A file with bytes -/

/-- The two layers of `gateRuntime` on pages of `pageSize` bytes, and a file whose bytes are
their own offsets. -/
def pagedRuntime (pageSize : Nat) : Runtime :=
  { gateRuntime with file := (List.range 164).map .ofNat, pageSize := pageSize }

/-- Each of the two layers has a page of its own. -/
def bytesRuntime : Runtime := pagedRuntime 16

def bytesStart : Machine := .start bytesRuntime (.new 2 2) none 1

theorem bytes_places : ∀ l, ∀ layout ∈ bytesRuntime.config.expertLayouts l,
    layout.PlacesInside := by
  intro l layout hm
  have hnames : (gateGguf.tensors.map (·.name)).Nodup := by decide
  obtain ⟨-, t, -, -, -, r, -, rfl⟩ := (mem_expertLayouts_iff hnames).mp hm
  exact fun e he => he

/-- On one page: the release of layer 0 takes the bytes of layer 1, which stays loaded. -/
example : ((exec (Machine.step (pagedRuntime 64)) (fun _ _ => true)
    (.start (pagedRuntime 64) (.new 2 2) none 1) releaseFirst).map fun m =>
      (m.layerStatus 1, m.readSince 1, m.memory .buffer 33)) =
    some (.loaded, [⟨32, 4, 160⟩], none) := by decide +kernel

/-- The second read of expert 0 returns one byte of two, while it holds them from the first. -/
theorem bytes_kept : ∃ m, exec (Machine.step bytesRuntime) (fun _ _ => true) bytesStart
    (loadLayer 0 4 ++ [.event (.requestSlices 0 [0]), .thread, .thread, .thread, .recv 0,
      .pread 0 1]) = some m ∧
      (m.preads.length = 2 ∧ m.readSince 0 = [⟨0, 4, 128⟩] ∧ m.memory .buffer 3 = some 131) ∧
      ∀ l, ∀ r ∈ m.readSince l,
        r.HoldsWhere (Machine.OwnPage bytesRuntime l) bytesRuntime.file (m.memory .buffer) := by
  have hrun : (exec (Machine.step bytesRuntime) (fun _ _ => true) bytesStart
      (loadLayer 0 4 ++ [.event (.requestSlices 0 [0]), .thread, .thread, .thread, .recv 0,
        .pread 0 1])).map
      (fun m => (m.preads.length, m.readSince 0, m.memory .buffer 3)) =
        some (2, [⟨0, 4, 128⟩], some 131) := by decide +kernel
  obtain ⟨m, hm, heq⟩ := Option.map_eq_some_iff.mp hrun
  simp only [Prod.mk.injEq] at heq
  exact ⟨m, hm, heq, Machine.read_bytes_kept ⟨⟨rfl, rfl⟩, rfl, rfl, rfl⟩ (by decide) rfl
    (by decide) gateMap_captured bytes_places (Reaches.exec (fun _ _ => id) .refl hm)⟩

/-- Layer 0 is released and loaded again, this time from its selection, expert 0. -/
theorem bytes_evaluated : ∃ m, exec (Machine.step bytesRuntime)
    (fun m lab => m.fullRead lab && m.slicesLanded bytesRuntime 0 lab) bytesStart
    (releaseFirst ++ loadLayer 0 2) = some m ∧
      (m.basis 0 = some [0] ∧ m.memory .buffer 1 = some 129 ∧ m.memory .buffer 2 = none) ∧
      ((∀ t ∈ gateGguf.tensors, t.layerIndex = some 0 →
        ∀ r, tensorRegion gateGguf gateMap t = some r →
        (TensorRole.fromName t.name = .moeFusedExperts → m.basis 0 = none) →
        r.HoldsWhere (Machine.OwnPage bytesRuntime 0) bytesRuntime.file (m.memory .buffer)) ∧
      ∀ ids, m.basis 0 = some ids → ∀ layout ∈ bytesRuntime.config.expertLayouts 0, ∀ e ∈ ids,
        e < layout.numExperts → (layout.bufferRegion e).HoldsWhere
          (Machine.OwnPage bytesRuntime 0) bytesRuntime.file (m.memory .buffer)) := by
  have hrun : (exec (Machine.step bytesRuntime)
      (fun m lab => m.fullRead lab && m.slicesLanded bytesRuntime 0 lab) bytesStart
      (releaseFirst ++ loadLayer 0 2)).map
      (fun m => ((m.asked, decide m.Idle), m.basis 0, m.memory .buffer 1, m.memory .buffer 2)) =
        some ((some 0, true), some [0], some 129, none) := by decide +kernel
  obtain ⟨m, hm, heq⟩ := Option.map_eq_some_iff.mp hrun
  simp only [Prod.mk.injEq, decide_eq_true_eq] at heq
  obtain ⟨⟨hasked, hidle⟩, hrest⟩ := heq
  have htypes : DistinctTypes (bytesRuntime.config.expertLayouts 0) := by decide +kernel
  exact ⟨m, hm, hrest, Machine.evaluated_tensors_hold ⟨⟨rfl, rfl⟩, rfl, rfl, rfl⟩ (by decide) rfl
    (by decide) gateMap_captured bytes_places htypes (Reaches.exec (fun _ _ => id) .refl hm)
    hasked hidle⟩

end Hypura
