import Hypura.Compute.StandardCoverage

/-!
# Hypura.Compute.StandardMode

Standard mode: what a layer's status promises.

For a layer without fused expert tensors the status is right whatever the workers do:
`Loaded` means read, `Loading` means that one load is under way, and the inference thread
sleeps only while a worker has something to do for it. For a layer with fused tensors the
same holds of what its load was built from, as long as the slices that the load skips
have landed; a run in which one has not is at the end.
-/

namespace Hypura

open Hypura.Core Hypura.Core.Countdown

namespace Machine

section Status
variable {rt : Runtime} {m m' : Machine} {l : Nat}

/-! ### Batches of a layer -/

/-- A batch that no step of `m` opened is a load, or slices of a layer with fused tensors. -/
theorem StandardStep.tag (hrt : rt.Streams) {lab : Label} (h : StandardStep rt m lab m') {b : Nat}
    {c : IoCompletion} (htag : m'.io.tag? b = some c) :
    m.io.tag? b = some c ∨ c.updateStatus = true ∨ rt.config.expertLayouts c.layerIdx ≠ [] := by
  have hopen : ∀ {io : IoPool} {c' : IoCompletion} {tasks : List IoPoolTask},
      (io.openBatch c' tasks).tag? b = some c → io.tag? b = some c ∨ c' = c := by
    intro io c' tasks h
    rw [Pool.tag?_openBatch] at h
    split at h
    · exact .inr (Option.some.inj h)
    · exact .inl h
  cases h with
  | rest ha =>
      rw [ha.io] at htag
      exact .inl htag
  | announce _ _ ha =>
      rw [ha.io] at htag
      exact .inl htag
  | @submit l ops _ _ =>
      rcases submitLayerLoad_cases (m := { m with pending := ops }) hrt l with
        ⟨-, heq⟩ | ⟨-, heq⟩
      · rw [heq] at htag
        exact .inl htag
      · rw [heq] at htag
        rcases hopen htag with hold | rfl
        · exact .inl hold
        · exact .inr (.inl rfl)
  | @request l ids ops _ _ =>
      rcases submitExpertLoad_cases (m := { m with pending := ops }) hrt l ids with
        ⟨-, heq⟩ | ⟨-, heq⟩ | ⟨hlayouts, -, heq⟩
      · rw [heq] at htag
        exact .inl htag
      · rw [heq] at htag
        exact .inl htag
      · rw [heq] at htag
        rcases hopen htag with hold | rfl
        · exact .inl hold
        · exact .inr (.inr hlayouts)
  | send hio => exact .inl ((Pool.send_quiet hio).tag?_eq b ▸ htag)
  | @release e l m' _ ha =>
      rw [ha.io] at htag
      rcases releaseLayer_cases (m := m) hrt l with ⟨-, heq⟩ | ⟨-, heq⟩
      · rw [heq] at htag
        exact .inl htag
      · rw [heq] at htag
        exact .inl htag
  | recv hio => exact .inl ((Pool.recv_quiet hio).tag?_eq b ▸ htag)
  | pread hpread =>
      obtain ⟨j, r, rs, _, io, -, -, -, hio, rfl⟩ := preadStep_spec hpread
      exact .inl ((Pool.work_quiet hio).tag?_eq b ▸ htag)
  | finish hfinish =>
      obtain ⟨j, io, -, -, hio, rfl⟩ := finishStep_spec hfinish
      exact .inl ((Pool.finish_quiet hio).tag?_eq b ▸ htag)
  | fire hfire =>
      obtain ⟨b', tag, io, -, -, hio, rfl⟩ := fireStep_spec hfire
      obtain ⟨-, -, -, hbatches, -, -, -, -⟩ := Pool.fire_spec hio
      have hsame : ∀ m'' : Machine, m''.io = io → m''.io.tag? b = some c → m.io.tag? b = some c := by
        intro m'' hio'' h
        rw [hio'', Pool.tag?_of_batches hbatches] at h
        exact h
      split at htag
      · exact .inl (hsame _ rfl htag)
      · exact .inl (hsame _ rfl htag)

/-- An unfinished task of a layer without fused tensors belongs to a load in the pool. -/
theorem liveLoad_of_job (hs : Loading.Sound m.loading)
    (hloads : ∀ b c, m.io.tag? b = some c → c.layerIdx = l → c.updateStatus = true)
    {j : Job IoPoolTask} (hj : j ∈ m.io.jobs) (hl : layerOf m.io j.batch = some l) :
    Loading.LiveLoad m.io l j.batch := by
  have hbalanced : m.io.Balanced := hs.balanced
  have hlive : m.io.Live j.batch := hbalanced.live_iff.mpr (.inl ⟨j, hj, rfl⟩)
  obtain ⟨⟨layer, update⟩, htag, hlayer⟩ := Option.map_eq_some_iff.mp hl
  have hupdate : update = true := hloads _ _ htag hlayer
  subst hupdate
  exact ⟨by rw [htag, ← hlayer], hlive.2⟩

/-! ### The workers can go on -/

/-- A step of a worker. -/
def Label.OfWorker : Label → Prop
  | .recv _ => True
  | .pread _ _ => True
  | .finish _ => True
  | .fire _ => True
  | _ => False

/-- While the pool is not at rest some worker has a step, with a full read if it reads. -/
theorem step_of_canStep (hbalanced : m.io.Balanced) (h : m.io.CanStep) :
    ∃ lab m', Label.OfWorker lab ∧ m.fullRead lab ∧ m.step rt lab = some m' := by
  rcases h with ⟨w, j, hw⟩ | ⟨w, b, hw⟩ | ⟨hqueue, w, hw⟩
  · have hj : j ∈ m.io.jobs := List.mem_append_right _ (List.mem_append_right _
      (List.mem_filterMap.mpr ⟨_, List.mem_of_getElem? hw, rfl⟩))
    have hlt := hbalanced.batch_lt j hj
    cases hregions : j.payload.regions with
    | nil =>
        have hfinish : ∃ io, m.io.finish w = some io := by
          rw [Pool.finish, hw]
          simp only [List.getElem?_eq_getElem hlt]
          exact ⟨_, rfl⟩
        obtain ⟨io, hio⟩ := hfinish
        refine ⟨.finish w, { m with io := io }, trivial, rfl, ?_⟩
        simp only [Machine.step, finishStep, hw, hregions, if_pos, hio, Option.map_some]
    | cons r rs =>
        obtain ⟨tag, htag⟩ := Pool.exists_tag? hlt
        have hlayer : layerOf m.io j.batch = some tag.layerIdx := by
          rw [layerOf, htag]
          rfl
        have hwork : ∀ payload, ∃ io, m.io.work w payload = some io := by
          intro payload
          rw [Pool.work, hw]
          exact ⟨_, rfl⟩
        obtain ⟨io, hio⟩ := hwork { j.payload with regions := rs, done := r :: j.payload.done }
        have hread : (m.preadStep rt w r.size).isSome := by
          simp [preadStep, hw, hregions, hlayer, hio]
        obtain ⟨m', hm'⟩ := Option.isSome_iff_exists.mp hread
        exact ⟨.pread w r.size, m', trivial, by simp [fullRead, hw, hregions], hm'⟩
  · have hfiring : b ∈ m.io.firing := List.mem_filterMap.mpr ⟨_, List.mem_of_getElem? hw, rfl⟩
    obtain ⟨tag, htag⟩ := Pool.exists_tag? (hbalanced.firing_live hfiring).1.1
    have hfire : (m.fireStep w).isSome := by
      simp [fireStep, hw, htag, Pool.fire]
    obtain ⟨m', hm'⟩ := Option.isSome_iff_exists.mp hfire
    exact ⟨.fire w, m', trivial, rfl, hm'⟩
  · obtain ⟨j, js, hcons⟩ := List.exists_cons_of_ne_nil hqueue
    have hrecv : (m.step rt (.recv w)).isSome := by
      simp [Machine.step, Pool.recv, hw, hcons]
    obtain ⟨m', hm'⟩ := Option.isSome_iff_exists.mp hrecv
    exact ⟨.recv w, m', trivial, rfl, hm'⟩

theorem worker_step (hs : Loading.Sound m.loading) (h : m.io.CanStep) :
    ∃ lab m', Label.OfWorker lab ∧ m.fullRead lab ∧ m.step rt lab = some m' :=
  step_of_canStep hs.balanced h

/-- While the thread sleeps all tasks are sent, and a load of the layer it sleeps for is in
the pool, which is not at rest. -/
theorem canStep_of_asleep (ho : m.Orderly rt) (hs : Loading.Sound m.loading)
    (hasleep : m.asleep = true) : ∃ l b,
      (m.pending = [.ensureLayer l] ∨ m.pending = [] ∧ m.await = some l) ∧
        Loading.LiveLoad m.io l b ∧ m.io.unsent = [] ∧ m.io.CanStep := by
  have hbalanced : m.io.Balanced := hs.balanced
  obtain ⟨l, hl, hwhere⟩ := ho.asleep hasleep
  have hsent : m.io.unsent = [] ∧ m.submitting = none := by
    rcases hwhere with hpending | ⟨hpending, -⟩
    · refine ⟨?_, by rw [submitting, hpending]⟩
      cases ho.phase with
      | requests _ _ hsent => exact hsent
      | ensure _ _ _ hsent => exact hsent
      | submit _ _ _ _ _ hsent => exact hsent
      | send _ hsend => rw [hpending] at hsend; cases hsend
      | wait _ _ _ hsent => exact hsent
    · exact ⟨ho.phase.sent_of_nil hpending, submitting_of_nil hpending⟩
  rcases hs.loading l hl with hsub | ⟨b, hb⟩
  · exact absurd (hsent.2.symm.trans hsub) (Option.some_ne_none l).symm
  · exact ⟨l, b, hwhere, hb, hsent.1, hbalanced.canStep hsent.1 ho.workers hb.live⟩

/-! ### Leaving `Loading` -/

/-- A layer stops loading only to be loaded: when its load fires, or when there was nothing
to read. -/
theorem StandardStep.leaves_loading (hrt : rt.Streams) (hs : Loading.Sound m.loading)
    {lab : Label} (h : StandardStep rt m lab m') (hl : m.layerStatus l = .loading)
    (hl' : m'.layerStatus l ≠ .loading) :
    m'.layerStatus l = .loaded ∧
      ((∃ w b, lab = .fire w ∧ m.io.workers[w]? = some (.firing b) ∧
          Loading.LiveLoad m.io l b) ∨
        lab = .thread ∧ m.submitting = some l ∧ (planLayer rt m l).tasks = []) := by
  cases h with
  | rest ha => exact absurd (ha.status ▸ hl) hl'
  | @announce l₁ _ hsub hl₁ ha =>
      rw [ha.status] at hl'
      refine absurd ?_ hl'
      show Function.update m.layerStatus l₁ .loading l = .loading
      rw [Function.update_apply]
      split
      · rfl
      · exact hl
  | @submit l₁ ops hpending _ =>
      rcases submitLayerLoad_cases (m := { m with pending := ops }) hrt l₁ with
        ⟨hnil, heq⟩ | ⟨-, heq⟩
      · rw [heq] at hl' ⊢
        change Function.update m.layerStatus l₁ .loaded l ≠ .loading at hl'
        show Function.update m.layerStatus l₁ .loaded l = .loaded ∧ _
        by_cases hll : l = l₁
        · subst hll
          exact ⟨Function.update_self .., .inr ⟨rfl, submitting_eq_some hpending, hnil⟩⟩
        · rw [Function.update_of_ne hll] at hl'
          exact absurd hl hl'
      · rw [heq] at hl'
        exact absurd hl hl'
  | @request l₁ ids ops _ _ =>
      rcases submitExpertLoad_cases (m := { m with pending := ops }) hrt l₁ ids with
        ⟨-, heq⟩ | ⟨-, heq⟩ | ⟨-, -, heq⟩
      · rw [heq] at hl'
        exact absurd hl hl'
      · rw [heq] at hl'
        exact absurd hl hl'
      · rw [heq] at hl'
        exact absurd hl hl'
  | send _ => exact absurd hl hl'
  | @release e l₁ _ hl₁ ha =>
      rw [ha.status] at hl'
      rcases releaseLayer_cases (m := m) hrt l₁ with ⟨-, heq⟩ | ⟨-, heq⟩
      · rw [heq] at hl'
        exact absurd hl hl'
      · rw [heq] at hl'
        have hne : l ≠ l₁ := by
          intro hll
          rw [hll, hl₁] at hl
          cases hl
        exact absurd ((Function.update_of_ne hne ..).trans hl) hl'
  | recv _ => exact absurd hl hl'
  | pread hpread =>
      obtain ⟨j, r, rs, _, io, -, -, -, -, rfl⟩ := preadStep_spec hpread
      exact absurd hl hl'
  | finish hfinish =>
      obtain ⟨j, io, -, -, -, rfl⟩ := finishStep_spec hfinish
      exact absurd hl hl'
  | @fire w _ hfire =>
      obtain ⟨b, tag, io, hw, htag, -, rfl⟩ := fireStep_spec hfire
      have hbalanced : m.io.Balanced := hs.balanced
      have hfiring : b ∈ m.io.firing := List.mem_filterMap.mpr ⟨_, List.mem_of_getElem? hw, rfl⟩
      by_cases hupdate : tag.updateStatus = true
      · rw [if_pos hupdate] at hl' ⊢
        change Function.update m.layerStatus tag.layerIdx .loaded l ≠ .loading at hl'
        show Function.update m.layerStatus tag.layerIdx .loaded l = .loaded ∧ _
        by_cases hll : l = tag.layerIdx
        · subst hll
          refine ⟨Function.update_self .., .inl ⟨w, b, rfl, hw, ?_, ?_⟩⟩
          · rw [htag, ← hupdate]
          · exact (hbalanced.firing_live hfiring).1.2
        · rw [Function.update_of_ne hll] at hl'
          exact absurd hl hl'
      · rw [if_neg hupdate] at hl'
        exact absurd hl hl'

/-! ### A layer without fused tensors -/

/-- What the status of layer `l` promises. -/
structure StatusKept (rt : Runtime) (l : Nat) (m : Machine) : Prop where
  /-- A loaded layer was read since it was last released, and has no task. -/
  loaded : m.layerStatus l = .loaded →
    (∀ r ∈ rt.config.layerRegions l, r ∈ m.readSince l) ∧
      ∀ j ∈ m.io.jobs, layerOf m.io j.batch ≠ some l
  /-- A loading layer is being submitted, or has one live completion. Its counter is the
  number of its unfinished tasks, and is zero only while a worker stores the status. -/
  loading : m.layerStatus l = .loading → m.submitting = some l ∨
    ∃ b x, (∀ b', Loading.LiveLoad m.io l b' ↔ b' = b) ∧ m.io.batches[b]? = some x ∧
      x.remaining = (m.io.jobsOf b).length ∧ (x.remaining = 0 → m.io.firing.count b = 1)
  /-- A completion stores the status at most once, with no task of it left. -/
  once : ∀ b, m.io.tag? b = some ⟨l, true⟩ → (m.io.firing ++ m.io.fired).count b ≤ 1 ∧
    (b ∈ m.io.firing ++ m.io.fired → m.io.jobsOf b = [])
  /-- What it stores is `Loaded`. -/
  stores : ∀ w b m', m.io.workers[w]? = some (.firing b) → m.io.tag? b = some ⟨l, true⟩ →
    m.step rt (.fire w) = some m' → m'.layerStatus l = .loaded
  /-- Nothing else ends `Loading`, but for a layer with nothing to read. -/
  leaves : ∀ lab m', m.layerStatus l = .loading → m.step rt lab = some m' →
    m'.layerStatus l ≠ .loading → m'.layerStatus l = .loaded ∧
      ((∃ w b, lab = .fire w ∧ m.io.workers[w]? = some (.firing b) ∧
          Loading.LiveLoad m.io l b) ∨
        lab = .thread ∧ m.submitting = some l ∧ rt.config.layerRegions l = [])
  /-- When the `ask` callback of a node of the layer has returned, the layer was read. -/
  returned : m.asked = some l → m.Idle → ∀ r ∈ rt.config.layerRegions l, r ∈ m.readSince l
  /-- The thread sleeps only while a load of the layer it sleeps for is in the pool, all of
  its tasks sent, and a worker has a step to take. -/
  asleep : m.asleep = true → ∃ l' b,
    (m.pending = [.ensureLayer l'] ∨ m.pending = [] ∧ m.await = some l') ∧
      Loading.LiveLoad m.io l' b ∧ m.io.unsent = [] ∧
      ∃ lab m', Label.OfWorker lab ∧ m.fullRead lab ∧ m.step rt lab = some m'

/-- A layer's basis changes only when its load is submitted. -/
theorem StandardStep.basis (hrt : rt.Streams) {lab : Label} (h : StandardStep rt m lab m')
    (l : Nat) : m'.basis l = m.basis l ∨
      m.submitting = some l ∧ m'.basis l = (planLayer rt m l).basis := by
  cases h with
  | rest ha => exact .inl (by rw [ha.basis])
  | announce _ _ ha => exact .inl (by rw [ha.basis]; rfl)
  | @submit l₁ ops hpending _ =>
      have hupdate : ∀ basis : Option (List Nat), basis = (planLayer rt m l₁).basis →
          Function.update m.basis l₁ basis l = m.basis l ∨
            m.submitting = some l ∧
              Function.update m.basis l₁ basis l = (planLayer rt m l).basis := by
        intro basis hbasis
        by_cases hll : l = l₁
        · subst hll
          exact .inr ⟨submitting_eq_some hpending, by rw [Function.update_self, hbasis]⟩
        · exact .inl (Function.update_of_ne hll ..)
      rcases submitLayerLoad_cases (m := { m with pending := ops }) hrt l₁ with
        ⟨-, heq⟩ | ⟨-, heq⟩
      · rw [heq]
        exact hupdate _ rfl
      · rw [heq]
        exact hupdate _ rfl
  | @request l₁ ids ops _ _ =>
      rcases submitExpertLoad_cases (m := { m with pending := ops }) hrt l₁ ids with
        ⟨-, heq⟩ | ⟨-, heq⟩ | ⟨-, -, heq⟩
      · rw [heq]; exact .inl rfl
      · rw [heq]; exact .inl rfl
      · rw [heq]; exact .inl rfl
  | send _ => exact .inl rfl
  | @release e l₁ _ _ ha =>
      rw [ha.basis]
      rcases releaseLayer_cases (m := m) hrt l₁ with ⟨-, heq⟩ | ⟨-, heq⟩
      · rw [heq]; exact .inl rfl
      · rw [heq]; exact .inl rfl
  | recv _ => exact .inl rfl
  | pread hpread =>
      obtain ⟨j, r, rs, _, io, -, -, -, -, rfl⟩ := preadStep_spec hpread
      exact .inl rfl
  | finish hfinish =>
      obtain ⟨j, io, -, -, -, rfl⟩ := finishStep_spec hfinish
      exact .inl rfl
  | fire hfire =>
      obtain ⟨b, tag, io, -, -, -, rfl⟩ := fireStep_spec hfire
      split
      · exact .inl rfl
      · exact .inl rfl

theorem planLayer_of_noLayouts (hl : rt.config.expertLayouts l = []) :
    planLayer rt m l = planFull rt m l := by
  rcases planLayer_cases rt m l with ⟨ids, hsel, -⟩ | ⟨-, hplan⟩
  · rw [planLayer, hsel]
    exact if_pos hl
  · exact hplan

/-- Of a layer without fused tensors there are only full loads. -/
structure FullLoads (l : Nat) (m : Machine) : Prop where
  basis : m.basis l = none
  updates : ∀ b c, m.io.tag? b = some c → c.layerIdx = l → c.updateStatus = true

theorem FullLoads.step (h : m.FullLoads l) (hrt : rt.Streams)
    (hl : rt.config.expertLayouts l = []) {lab : Label} (hstep : StandardStep rt m lab m') :
    m'.FullLoads l where
  basis := by
    rcases hstep.basis hrt l with hsame | ⟨-, hplan⟩
    · rw [hsame, h.basis]
    · rw [hplan, planLayer_of_noLayouts hl]
      rfl
  updates b c htag hc := by
    rcases hstep.tag hrt htag with hold | hload | hlayouts
    · exact h.updates b c hold hc
    · exact hload
    · rw [hc] at hlayouts
      exact absurd hl hlayouts

/-- **The status of a layer without fused tensors keeps its promises in every run**: all
that is assumed is that reads succeed. -/
theorem statusKept {coActivation : CoActivationMatrix} {expertPool : Option ExpertPool}
    {workers : Nat} (hrt : rt.Streams) (hworkers : 0 < workers)
    (hl : rt.config.expertLayouts l = [])
    (h : Reaches (Machine.step rt) (fun m lab => m.fullRead lab)
      (start rt coActivation expertPool workers) m) : m.StatusKept rt l := by
  have hd : DistinctTypes (rt.config.expertLayouts l) := by
    rw [hl]
    exact List.Pairwise.nil
  obtain ⟨ho, hs, hcov⟩ := covered_of_reaches hrt hworkers hd (fun _ _ => id)
    (fun m lab _ => slicesLanded_of_noLayouts hl m lab) h
  have hfull : m.FullLoads l := by
    refine (h.invariant (P := fun m => m.Orderly rt ∧ m.FullLoads l) ?_ ?_).2
    · exact ⟨orderly_start coActivation expertPool hworkers, rfl, fun b c hb => by cases hb⟩
    · intro m lab m' ⟨ho, hf⟩ _ hstep
      exact ⟨ho.step hrt hstep, hf.step hrt hl (standardStep hrt ho hstep)⟩
  have hbalanced : m.io.Balanced := hs.balanced
  have hread : m.layerStatus l = .loaded → ∀ r ∈ rt.config.layerRegions l, r ∈ m.readSince l := by
    intro hst r hr
    refine hcov.loaded hst r ?_
    rw [hfull.basis]
    exact hr
  constructor
  · intro hst
    refine ⟨hread hst, fun j hj hlayer => ?_⟩
    have hlive := liveLoad_of_job hs hfull.updates hj hlayer
    have hloading : m.layerStatus l = .loading := (hs.live l _ hlive).1
    rw [hst] at hloading
    cases hloading
  · intro hst
    refine (hs.loading l hst).imp_right fun ⟨b, hlive⟩ => ?_
    have hnotfired : b ∉ m.io.fired := hlive.2
    have hx := List.getElem?_eq_getElem hlive.live.1
    refine ⟨b, _, fun b' => ⟨fun hb' => hs.unique l b' b hb' hlive, fun hb => hb ▸ hlive⟩, hx,
      hbalanced.remaining b _ hx, fun hzero => ?_⟩
    have honce := hbalanced.once b _ hx
    rw [if_pos hzero, List.count_append, List.count_eq_zero.mpr hnotfired] at honce
    exact honce
  · intro b htag
    have hx := List.getElem?_eq_getElem (Pool.lt_of_tag? htag)
    have honce := hbalanced.once b _ hx
    refine ⟨by rw [honce]; split <;> omega, fun hmem => ?_⟩
    rcases List.mem_append.mp hmem with hfiring | hfired
    · exact (hbalanced.firing_live hfiring).2
    · exact (hbalanced.fired_once hfired).2.1
  · intro w b m' hw htag hstep
    obtain ⟨b', tag, io, hw', htag', -, rfl⟩ := fireStep_spec hstep
    have hbb : b = b' := by
      rw [hw] at hw'
      exact Worker.firing.inj (Option.some.inj hw')
    subst hbb
    rw [htag] at htag'
    cases htag'
    exact Function.update_self ..
  · intro lab m' hst hstep hst'
    obtain ⟨hloaded, hhow⟩ := (standardStep hrt ho hstep).leaves_loading hrt hs hst hst'
    refine ⟨hloaded, hhow.imp_right fun ⟨hlab, hsub, hnil⟩ => ⟨hlab, hsub, ?_⟩⟩
    rw [planLayer_of_noLayouts hl] at hnil
    rw [← flatten_planFull rt m l, hnil, List.flatten_nil]
  · intro hasked hidle r hr
    exact hread (ho.loaded_of_idle hidle hasked (List.ne_nil_of_mem hr)) r hr
  · intro hasleep
    obtain ⟨l', b, hwhere, hlive, hsent, hcan⟩ := canStep_of_asleep ho hs hasleep
    exact ⟨l', b, hwhere, hlive, hsent, worker_step hs hcan⟩

/-! ### A layer with fused tensors -/

/-- **What a load was built from is read when the layer is loaded**, and when the `ask`
callback returns: the fused tensors have different cache types, and no slice that a load
skips is still to be read. -/
theorem selection_read {coActivation : CoActivationMatrix} {expertPool : Option ExpertPool}
    {workers : Nat} (hrt : rt.Streams) (hworkers : 0 < workers)
    (hd : DistinctTypes (rt.config.expertLayouts l))
    (h : Reaches (Machine.step rt) (fun m lab => m.fullRead lab && m.slicesLanded rt l lab)
      (start rt coActivation expertPool workers) m) :
    (m.layerStatus l = .loaded → ∀ r, Needed rt.config l (m.basis l) r → r ∈ m.readSince l) ∧
      (m.asked = some l → m.Idle → rt.config.layerRegions l ≠ [] →
        ∀ r, Needed rt.config l (m.basis l) r → r ∈ m.readSince l) := by
  obtain ⟨ho, -, hcov⟩ := covered_of_reaches hrt hworkers hd
    (fun m lab hok => (Bool.and_eq_true_iff.mp hok).1)
    (fun m lab hok => (Bool.and_eq_true_iff.mp hok).2) h
  exact ⟨hcov.loaded, fun hasked hidle hregions =>
    hcov.loaded (ho.loaded_of_idle hidle hasked hregions)⟩

end Status

end Machine

/-! ### Two layers: a fused expert tensor, and a norm -/

/-- Two experts of two bytes in layer 0, four bytes in layer 1. -/
def gateGguf : GgufFile where
  version := 3
  metadata := fun key =>
    if key = "general.architecture" then some (.string "llama")
    else if key = "llama.expert_count" then some (.uint32 2)
    else if key = "llama.expert_used_count" then some (.uint32 1)
    else none
  tensors :=
    [⟨"blk.0.ffn_gate_exps.weight", [4], .i8, 0, 4, some 0⟩,
      ⟨"blk.1.attn_norm.weight", [4], .i8, 32, 4, some 1⟩]
  dataOffset := 128

def gateMap : TensorMap :=
  [("blk.0.ffn_gate_exps.weight", ⟨0, 4, 0, none⟩), ("blk.1.attn_norm.weight", ⟨32, 4, 0, none⟩)]

/-- Layer 0 streams from NVMe. -/
def gateRuntime : Runtime where
  config := buildPrefetchState gateGguf gateMap none 2 {0}
  file := []
  pageSize := 16384
  bufferBaseNull := false
  ioPoolStarted := true
  prefetchEnabled := true
  keepNvmeResident := false
  expertStreaming := false
  denseFfnStreaming := false
  denseFfnLookahead := 1
  residentFfnLayers := ∅
  residentFfnOffsets := fun _ => none

theorem gateRuntime_streams : gateRuntime.Streams := ⟨⟨rfl, rfl⟩, rfl, rfl, rfl⟩

def gateStart : Machine := .start gateRuntime (.new 2 2) none 1

/-- A node of layer `l`, which is not loaded and has one region of `size` bytes: the load is
sent, and the worker does it. -/
def loadLayer (l size : Nat) : List Label :=
  [.event (.ask l), .thread, .thread, .thread, .thread, .recv 0, .pread 0 size, .finish 0,
    .fire 0, .thread]

/-- Layer 1 is loaded, and what its status promises holds. -/
theorem gate_statusKept : ∃ m, exec (Machine.step gateRuntime) Machine.fullRead gateStart
    (loadLayer 1 4) = some m ∧ m.layerStatus 1 = .loaded ∧ m.StatusKept gateRuntime 1 := by
  have hrun : (exec (Machine.step gateRuntime) Machine.fullRead gateStart (loadLayer 1 4)).map
      (fun m => m.layerStatus 1) = some .loaded := by decide +kernel
  obtain ⟨m, hm, hst⟩ := Option.map_eq_some_iff.mp hrun
  have hlayouts : gateRuntime.config.expertLayouts 1 = [] := by decide +kernel
  exact ⟨m, hm, hst, Machine.statusKept gateRuntime_streams (by decide) hlayouts
    (Reaches.exec (fun _ _ => id) .refl hm)⟩

/-- The router of layer 0 selects expert 0. -/
def selectFirst : Event := .doneRouter ⟨2, 1, some [0, 1]⟩

/-- Layer 0 is loaded in full and computed, its router selects expert 0, and layer 1 is
computed: layer 0 is released, and its selection is known. -/
def releaseFirst : List Label :=
  loadLayer 0 4 ++ [.event selectFirst, .event (.ask 0), .thread, .event (.done 0)] ++
    loadLayer 1 4 ++ [.event (.done 0), .thread]

/-- The slice of expert 0 is requested, and then the layer. -/
def requestBoth : List Label :=
  [.event (.requestSlices 0 [0]), .thread, .thread, .thread, .event (.request 0), .thread, .thread]

/-- Layer 0 loaded again from its selection, once the slice requested has been read. -/
theorem gate_selection_read : ∃ m, exec (Machine.step gateRuntime)
    (fun m lab => m.fullRead lab && m.slicesLanded gateRuntime 0 lab) gateStart
    (releaseFirst ++ [.event (.requestSlices 0 [0]), .thread, .thread, .thread, .recv 0,
      .pread 0 2, .finish 0, .fire 0, .event (.request 0), .thread, .thread]) = some m ∧
      m.basis 0 = some [0] ∧
      ((m.layerStatus 0 = .loaded →
        ∀ r, Needed gateRuntime.config 0 (m.basis 0) r → r ∈ m.readSince 0) ∧
      (m.asked = some 0 → m.Idle → gateRuntime.config.layerRegions 0 ≠ [] →
        ∀ r, Needed gateRuntime.config 0 (m.basis 0) r → r ∈ m.readSince 0)) := by
  have hrun : (exec (Machine.step gateRuntime)
      (fun m lab => m.fullRead lab && m.slicesLanded gateRuntime 0 lab) gateStart
      (releaseFirst ++ [.event (.requestSlices 0 [0]), .thread, .thread, .thread, .recv 0,
        .pread 0 2, .finish 0, .fire 0, .event (.request 0), .thread, .thread])).map
      (fun m => m.basis 0) = some (some [0]) := by decide +kernel
  obtain ⟨m, hm, hbasis⟩ := Option.map_eq_some_iff.mp hrun
  have htypes : DistinctTypes (gateRuntime.config.expertLayouts 0) := by decide +kernel
  exact ⟨m, hm, hbasis, Machine.selection_read gateRuntime_streams (by decide) htypes
    (Reaches.exec (fun _ _ => id) .refl hm)⟩

/-- With the slice still in the queue the layer is loaded at once, and nothing was read. -/
theorem gate_selection_unread : ∃ m, Reaches (Machine.step gateRuntime)
    (fun m lab => m.fullRead lab) gateStart m ∧ m.layerStatus 0 = .loaded ∧
      ∃ r, Needed gateRuntime.config 0 (m.basis 0) r ∧ r ∉ m.readSince 0 := by
  have hrun : (exec (Machine.step gateRuntime) Machine.fullRead gateStart
      (releaseFirst ++ requestBoth)).map (fun m => (m.layerStatus 0, m.basis 0, m.readSince 0)) =
        some (.loaded, some [0], []) := by decide +kernel
  obtain ⟨m, hm, heq⟩ := Option.map_eq_some_iff.mp hrun
  simp only [Prod.mk.injEq] at heq
  obtain ⟨hst, hbasis, hread⟩ := heq
  refine ⟨m, Reaches.exec (fun _ _ => id) .refl hm, hst, ⟨0, 2, 128⟩, ?_, by simp [hread]⟩
  rw [hbasis]
  have hlayout : ∃ layout ∈ gateRuntime.config.expertLayouts 0, 0 < layout.numExperts ∧
      layout.bufferRegion 0 = ⟨0, 2, 128⟩ := by decide +kernel
  obtain ⟨layout, hm, hlt, hregion⟩ := hlayout
  exact .inr ⟨layout, hm, 0, List.mem_singleton_self _, hlt, hregion.symm⟩

end Hypura
