import Hypura.Compute.PoolStep

/-!
# Hypura.Compute.ThreadTurn

What one operation of the inference thread does, in any mode, to the layer statuses, the
channel, and what is left of the callback.

* `Turn` — the effects of an operation, said once: the thread starts a load, hands its
  tasks over, looks at a status and goes on or goes to sleep,
* `Op.weight` — how much an operation can lead to; what it leaves weighs less.
-/

namespace Hypura

open Hypura.Core Hypura.Core.Countdown

/-- The workers are there, and a buffer to read into. -/
structure Runtime.Loads (rt : Runtime) : Prop where
  base : rt.bufferBaseNull = false
  started : rt.ioPoolStarted = true

/-- An operation that waits for nothing, and leaves nothing to wait for. -/
def Op.Runs : Op → Prop
  | .requestLayer _ => True
  | .requestExperts _ _ => True
  | .speculate _ => True
  | .resetStatus _ => True
  | .planDenseFfn _ => True
  | .prefetchDenseFfn _ => True
  | _ => False

/-- An operation that makes sure of a layer, the last of its callback. -/
def Op.Ensures : Op → Prop
  | .ensureLayer _ => True
  | .ensureExperts _ _ => True
  | .ensureDenseFfn _ => True
  | .loadDenseFfn _ => True
  | _ => False

/-- More than what the operation leaves to be done; a wait at the end counts as one. -/
def Op.weight (rt : Runtime) : Op → Nat
  | .ensureLayer _ => 4
  | .requestLayer _ => 3
  | .submitLayer _ => 2
  | .send => 1
  | .requestExperts _ _ => 2
  | .speculate _ => 3
  | .ensureExperts _ _ => 3
  | .resetStatus _ => 1
  | .ensureDenseFfn _ => 4
  | .loadDenseFfn _ => 3
  | .planDenseFfn _ => 2 * rt.denseFfnLookahead + 1
  | .prefetchDenseFfn _ => 2
  | .awaitResident _ => 1

def opsWeight (rt : Runtime) (ops : List Op) : Nat := (ops.map (Op.weight rt)).sum

theorem Op.weight_pos (rt : Runtime) (op : Op) : 0 < op.weight rt := by
  cases op <;> simp [Op.weight]

@[simp] theorem opsWeight_nil (rt : Runtime) : opsWeight rt [] = 0 := rfl

@[simp] theorem opsWeight_cons (rt : Runtime) (op : Op) (ops : List Op) :
    opsWeight rt (op :: ops) = op.weight rt + opsWeight rt ops := by
  simp [opsWeight]

@[simp] theorem opsWeight_append (rt : Runtime) (ops ops' : List Op) :
    opsWeight rt (ops ++ ops') = opsWeight rt ops + opsWeight rt ops' := by
  simp [opsWeight]

theorem opsWeight_map {α : Type} (rt : Runtime) {f : α → Op} {n : Nat}
    (hf : ∀ x, (f x).weight rt = n) (xs : List α) : opsWeight rt (xs.map f) = xs.length * n := by
  simp [opsWeight, Function.comp_def, hf]

namespace Machine

/-! ### Effects -/

/-- Neither the loads nor what the thread waits for differ. -/
structure SameLoads (m m' : Machine) : Prop where
  status : m'.layerStatus = m.layerStatus
  io : m'.io = m.io
  await : m'.await = m.await
  asleep : m'.asleep = m.asleep

/-- A batch is submitted, and sending its tasks comes next. -/
structure Opens (m : Machine) (c : IoCompletion) (status : Nat → LayerStatus)
    (await : Option Nat) (m' : Machine) : Prop where
  io : ∃ tasks ≠ [], m'.io = m.io.openBatch c tasks
  pending : m'.pending = .send :: m.pending
  status : m'.layerStatus = status
  await : m'.await = await
  asleep : m'.asleep = m.asleep

/-- Whose load it is that an operation submits, and whether the callback waits for it. -/
inductive Submission (m : Machine) : Op → IoCompletion → (Nat → LayerStatus) → Option Nat → Prop
  /-- The load announced before. -/
  | announced (l : Nat) : Submission m (.submitLayer l) ⟨l, true⟩ m.layerStatus m.await
  /-- Slices of a layer; its status stays. -/
  | slices (l : Nat) (ids : List Nat) :
      Submission m (.requestExperts l ids) ⟨l, false⟩ m.layerStatus m.await
  | ahead (l : Nat) : Submission m (.prefetchDenseFfn l) ⟨l, true⟩
      (Function.update m.layerStatus l .loading) m.await
  | experts (l : Nat) (ids : List Nat) : Submission m (.ensureExperts l ids) ⟨l, true⟩
      (Function.update m.layerStatus l .loading) (some l)
  | dense (l : Nat) : Submission m (.loadDenseFfn l) ⟨l, true⟩
      (Function.update m.layerStatus l .loading) (some l)

/-- What the operation `op` does when `ops` come after it. -/
inductive Turn (rt : Runtime) (m : Machine) (op : Op) (ops : List Op) : Machine → Prop
  /-- Nothing is loaded; other operations may come of it. -/
  | rest {new : List Op} {m' : Machine} (hop : op.Runs ∨ op.Ensures) (h : m.SameLoads m')
      (hpending : m'.pending = new ++ ops) (hnew : ∀ o ∈ new, o.Runs)
      (hless : opsWeight rt new < op.weight rt) : Turn rt m op ops m'
  | check {l : Nat} (hop : op = .ensureDenseFfn l) :
      Turn rt m op ops { m with pending := .loadDenseFfn l :: ops }
  | reset {l : Nat} {m' : Machine}
      (hop : op = .resetStatus l ∨ ∃ n, op = .awaitResident n)
      (h : (m.setStatus l .notLoaded).SameLoads m') (hpending : m'.pending = ops) :
      Turn rt m op ops m'
  /-- A layer that is not loaded is set to `Loading`; its load comes next. -/
  | announce {l : Nat} {await : Option Nat} (hl : m.layerStatus l = .notLoaded)
      (hop : op = .requestLayer l ∧ await = m.await ∨ op = .ensureLayer l ∧ await = some l) :
      Turn rt m op ops
        { m.setStatus l .loading with pending := .submitLayer l :: ops, await := await }
  /-- There is nothing to load. -/
  | nothing {l : Nat} {m' : Machine} (hop : op = .submitLayer l)
      (h : (m.storeLoaded l).SameLoads m') (hpending : m'.pending = ops) : Turn rt m op ops m'
  | submit {c : IoCompletion} {status : Nat → LayerStatus} {await : Option Nat} {m' : Machine}
      (hop : Submission m op c status await)
      (h : { m with pending := ops }.Opens c status await m') : Turn rt m op ops m'
  | send {io : IoPool} (hop : op = .send) (h : m.io.send = some io) :
      Turn rt m op ops { m with io := io }
  | sent (hop : op = .send) (h : m.io.unsent = []) : Turn rt m op ops { m with pending := ops }
  /-- The layer looked at is loading. -/
  | sleep {l : Nat} (hop : op = .ensureLayer l) (hl : m.layerStatus l = .loading) :
      Turn rt m op ops { m with asleep := true }
  /-- The resident layers are not loaded. -/
  | sleepResident {n : Nat} (hop : op = .awaitResident n)
      (hl : m.layerStatus (sentinelLayer rt.config) ≠ .loaded) :
      Turn rt m op ops { m with asleep := true }

section Turn
variable {rt : Runtime} {m m' : Machine} {l : Nat} {op : Op} {ops : List Op}

/-- Nothing comes of the operation. -/
theorem Turn.ended (hop : op.Runs ∨ op.Ensures) (h : m.SameLoads m') (hpending : m'.pending = ops) :
    Turn rt m op ops m' :=
  @Turn.rest rt m op ops [] m' hop h hpending (by simp) (Op.weight_pos rt op)

/-! ### Loads into the buffer -/

theorem submitTasks_opens (hrt : rt.Loads) (m : Machine) (c : IoCompletion) (base : Base)
    {tasks : List (List Region)} (hne : tasks ≠ []) :
    m.Opens c m.layerStatus m.await (m.submitTasks rt c base tasks) := by
  rw [submitTasks_of_started hrt.started]
  exact ⟨⟨_, by simpa using hne, rfl⟩, rfl, rfl, rfl, rfl⟩

theorem turn_submitLayer (hrt : rt.Loads) :
    Turn rt m (.submitLayer l) ops ({ m with pending := ops }.submitLayerLoad rt l) := by
  unfold submitLayerLoad
  rw [if_neg (by simp [hrt.base])]
  dsimp only
  split
  · exact .nothing rfl ⟨rfl, rfl, rfl, rfl⟩ rfl
  · next hne =>
      rw [if_pos hrt.started]
      obtain ⟨hio, hp, hst, haw, hs⟩ := submitTasks_opens hrt _ ⟨l, true⟩ .buffer hne
      exact .submit (.announced l) ⟨hio, hp, hst, haw, hs⟩

theorem turn_requestExperts (hrt : rt.Loads) (ids : List Nat) :
    Turn rt m (.requestExperts l ids) ops
      ({ m with pending := ops }.submitExpertLoad rt l ids) := by
  have hrest : ∀ {m₁ : Machine}, m.SameLoads m₁ → m₁.pending = ops →
      Turn rt m (.requestExperts l ids) ops m₁ := .ended (.inl trivial)
  unfold submitExpertLoad
  split
  · exact hrest ⟨rfl, rfl, rfl, rfl⟩ rfl
  · dsimp only
    split
    · exact hrest ⟨rfl, rfl, rfl, rfl⟩ rfl
    · next hne =>
        obtain ⟨hio, hp, hst, haw, hs⟩ := submitTasks_opens hrt _ ⟨l, false⟩ .buffer hne
        exact .submit (.slices l ids) ⟨hio, hp, hst, haw, hs⟩

/-! ### Loads into slots -/

/-- `load_experts_pooled`: a batch is submitted and waited for, or nothing is missing. -/
theorem loadExpertsPooled_opens (hrt : rt.Loads) {ids : List Nat}
    (h : m.loadExpertsPooled rt l ids = some m') :
    m.SameLoads m' ∧ m'.pending = m.pending ∨
      m.Opens ⟨l, true⟩ (Function.update m.layerStatus l .loading) (some l) m' := by
  unfold loadExpertsPooled at h
  obtain ⟨p, -, h⟩ := Option.bind_eq_some_iff.mp h
  obtain ⟨⟨offsets, m₁⟩, halloc, h⟩ := Option.bind_eq_some_iff.mp h
  obtain ⟨-, pool, memory, rfl⟩ := allocate_spec halloc
  dsimp only [rewritePtrs] at h
  split at h
  · cases h
    exact .inl ⟨⟨rfl, rfl, rfl, rfl⟩, rfl⟩
  · next hne =>
      cases h
      refine .inr ?_
      rw [submitTasks_of_started hrt.started]
      exact ⟨⟨_, by simpa using hne, rfl⟩, rfl, rfl, rfl, rfl⟩

theorem rewriteToSlots_sameLoads (m : Machine) (l : Nat) (names : List String) :
    m.SameLoads (m.rewriteToSlots l names) ∧ (m.rewriteToSlots l names).pending = m.pending := by
  unfold rewriteToSlots
  split
  · exact ⟨⟨rfl, rfl, rfl, rfl⟩, rfl⟩
  · split
    · exact ⟨⟨rfl, rfl, rfl, rfl⟩, rfl⟩
    · exact ⟨⟨rfl, rfl, rfl, rfl⟩, rfl⟩

theorem turn_ensureExperts (hrt : rt.Loads) {ids : List Nat}
    (h : { m with pending := ops }.ensureExpertsLoaded rt l ids = some m') :
    Turn rt m (.ensureExperts l ids) ops m' := by
  have hrest : m.SameLoads m' → m'.pending = ops → Turn rt m (.ensureExperts l ids) ops m' :=
    .ended (.inr trivial)
  unfold ensureExpertsLoaded at h
  dsimp only at h
  split at h
  · cases h
    exact hrest ⟨rfl, rfl, rfl, rfl⟩ rfl
  · split at h
    · rcases loadExpertsPooled_opens hrt h with ⟨hsame, hpending⟩ | hopens
      · exact hrest ⟨hsame.status, hsame.io, hsame.await, hsame.asleep⟩ hpending
      · exact .submit (.experts l ids)
          ⟨hopens.io, hopens.pending, hopens.status, hopens.await, hopens.asleep⟩
    · cases h
      -- the slices are there, and the pointers go to the slots
      obtain ⟨hsame, hpending⟩ := rewriteToSlots_sameLoads
        { m with
          pending := ops
          neuronCache := (probeExperts l (rt.config.expertLayouts l) ids m.neuronCache).2 }
        l ((rt.config.expertLayouts l).map (·.tensorName))
      exact hrest ⟨hsame.status, hsame.io, hsame.await, hsame.asleep⟩ hpending

theorem submitDenseFfn_opens (hrt : rt.Loads) (hne : rt.config.denseFfnLayouts l ≠ [])
    (h : m.submitDenseFfn rt l = some m') :
    m.Opens ⟨l, true⟩ (Function.update m.layerStatus l .loading) m.await m' := by
  obtain ⟨tasks, hs⟩ := submitDenseFfn_spec hrt.started hne h
  unfold submitDenseFfn at h
  obtain ⟨⟨offsets, m₁⟩, halloc, h⟩ := Option.bind_eq_some_iff.mp h
  obtain ⟨-, pool, memory, rfl⟩ := allocate_spec halloc
  cases h
  constructor
  · exact ⟨_, by simpa using hs.nonempty, hs.io⟩
  · rw [submitTasks_of_started hrt.started]
    rfl
  · rw [submitTasks_of_started hrt.started]
    rfl
  · rw [submitTasks_of_started hrt.started]
    rfl
  · rw [submitTasks_of_started hrt.started]
    rfl

/-! ### Every operation has one of the effects -/

theorem speculate_turn {eligible : Nat → Bool}
    (h : { m with pending := ops }.speculate rt l eligible = some m') :
    ∃ new, m.SameLoads m' ∧ m'.pending = new ++ ops ∧ (∀ o ∈ new, o.Runs) ∧
      opsWeight rt new < (Op.speculate l).weight rt := by
  unfold speculate at h
  split at h
  · cases h
    exact ⟨[], ⟨rfl, rfl, rfl, rfl⟩, rfl, by simp, Op.weight_pos rt _⟩
  · split at h
    · cases h
      exact ⟨[], ⟨rfl, rfl, rfl, rfl⟩, rfl, by simp, Op.weight_pos rt _⟩
    · next experts _ =>
        obtain ⟨coAct, -, h⟩ := Option.bind_eq_some_iff.mp h
        obtain ⟨predicted, -, h⟩ := Option.bind_eq_some_iff.mp h
        cases h
        refine ⟨requestNext rt l experts predicted eligible, ⟨rfl, rfl, rfl, rfl⟩, rfl, ?_, ?_⟩
        · intro o ho
          unfold requestNext at ho
          split at ho
          · cases ho
          · rw [List.mem_singleton.mp ho]
            trivial
        · unfold requestNext
          split <;> simp [Op.weight]

/-- At most `lookahead` layers are prefetched. -/
theorem planDenseFfn_weight (rt : Runtime) (m : Machine) (l : Nat) (f : Nat → Bool) :
    opsWeight rt ((m.toPrefetch rt
      (((List.range rt.denseFfnLookahead).map fun k => ahead l (k + 1)).takeWhile f)).map
        .prefetchDenseFfn) < (Op.planDenseFfn l).weight rt := by
  rw [opsWeight_map rt (f := .prefetchDenseFfn) (n := 2) fun _ => rfl]
  have hlen := (List.length_filter_le (fun t => decide (t ∉ rt.residentFfnLayers) &&
    (decide (rt.config.denseFfnLayouts t ≠ []) && decide (m.layerStatus t = .notLoaded)))
    (((List.range rt.denseFfnLookahead).map fun k => ahead l (k + 1)).takeWhile f)).trans
    (List.takeWhile_sublist f).length_le
  simp only [List.length_map, List.length_range] at hlen
  simp only [toPrefetch, Op.weight]
  omega

theorem turn_ensureLayer (hpending : m.pending = .ensureLayer l :: ops)
    (h : exec rt { m with pending := ops } (.ensureLayer l) = some m') :
    Turn rt m (.ensureLayer l) ops m' := by
  simp only [exec] at h
  split at h
  · cases h
    exact .ended (.inr trivial) ⟨rfl, rfl, rfl, rfl⟩ rfl
  · next hl =>
      cases h
      -- it looks again when it is woken
      have hsame : { m with pending := .ensureLayer l :: ops, asleep := true } =
          { m with asleep := true } := by
        rw [← hpending]
      rw [hsame]
      exact .sleep rfl hl
  · next hl =>
      cases h
      exact .announce hl (.inr ⟨rfl, rfl⟩)

theorem turn_requestLayer (h : exec rt { m with pending := ops } (.requestLayer l) = some m') :
    Turn rt m (.requestLayer l) ops m' := by
  simp only [exec] at h
  split at h
  · next hl =>
      cases h
      exact .announce hl (.inl ⟨rfl, rfl⟩)
  · cases h
    exact .ended (.inl trivial) ⟨rfl, rfl, rfl, rfl⟩ rfl

theorem turn_send (hpending : m.pending = .send :: ops)
    (h : exec rt { m with pending := ops } .send = some m') : Turn rt m .send ops m' := by
  simp only [exec] at h
  split at h
  · next io hio =>
      cases h
      have hsame : { m with io := io, pending := .send :: ops } = { m with io := io } := by
        rw [← hpending]
      rw [hsame]
      exact .send rfl hio
  · next hnone =>
      cases h
      exact .sent rfl (unsent_of_send hnone)

theorem turn_speculate (h : exec rt { m with pending := ops } (.speculate l) = some m') :
    Turn rt m (.speculate l) ops m' := by
  have hspec : ∃ eligible, { m with pending := ops }.speculate rt l eligible = some m' := by
    simp only [exec] at h
    split at h
    · exact ⟨_, h⟩
    · exact ⟨_, h⟩
  obtain ⟨eligible, hspec⟩ := hspec
  obtain ⟨new, hsame, hp, hnew, hless⟩ := speculate_turn hspec
  exact .rest (.inl trivial) hsame hp hnew hless

theorem turn_ensureDenseFfn :
    Turn rt m (.ensureDenseFfn l) ops ({ m with pending := ops }.ensureDenseFfnLoaded rt l) := by
  unfold ensureDenseFfnLoaded
  dsimp only
  split
  · exact .ended (.inr trivial) ⟨rfl, rfl, rfl, rfl⟩ rfl
  · split
    · obtain ⟨hsame, hp⟩ := rewriteToSlots_sameLoads { m with pending := ops } l
        ((rt.config.denseFfnLayouts l).map (·.tensorName))
      exact .ended (.inr trivial) ⟨hsame.status, hsame.io, hsame.await, hsame.asleep⟩ hp
    · exact .check rfl

theorem turn_prefetchDenseFfn (hrt : rt.Loads)
    (h : { m with pending := ops }.prefetchDenseFfn rt l = some m') :
    Turn rt m (.prefetchDenseFfn l) ops m' := by
  unfold prefetchDenseFfn at h
  split at h
  · cases h
    exact .ended (.inl trivial) ⟨rfl, rfl, rfl, rfl⟩ rfl
  · next hne =>
      obtain ⟨hio, hp, hst, haw, hs⟩ := submitDenseFfn_opens hrt hne h
      exact .submit (.ahead l) ⟨hio, hp, hst, haw, hs⟩

theorem turn_awaitResident {n : Nat} (hpending : m.pending = .awaitResident n :: ops)
    (h : exec rt { m with pending := ops } (.awaitResident n) = some m') :
    Turn rt m (.awaitResident n) ops m' := by
  simp only [exec] at h
  split at h
  · cases h
    exact .reset (.inr ⟨n, rfl⟩) ⟨rfl, rfl, rfl, rfl⟩ rfl
  · next hl =>
      cases h
      have hsame : { m with pending := .awaitResident n :: ops, asleep := true } =
          { m with asleep := true } := by
        rw [← hpending]
      rw [hsame]
      exact .sleepResident rfl hl

theorem turn_exec (hrt : rt.Loads) (hground : op.Grounded rt) (hpending : m.pending = op :: ops)
    (h : exec rt { m with pending := ops } op = some m') : Turn rt m op ops m' := by
  cases op with
  | ensureLayer l => exact turn_ensureLayer hpending h
  | requestLayer l => exact turn_requestLayer h
  | submitLayer l =>
      cases h
      exact turn_submitLayer hrt
  | send => exact turn_send hpending h
  | requestExperts l ids =>
      cases h
      exact turn_requestExperts hrt ids
  | speculate l => exact turn_speculate h
  | ensureExperts l ids => exact turn_ensureExperts hrt h
  | resetStatus l =>
      cases h
      exact .reset (.inl rfl) ⟨rfl, rfl, rfl, rfl⟩ rfl
  | ensureDenseFfn l =>
      cases h
      exact turn_ensureDenseFfn
  | loadDenseFfn l =>
      obtain ⟨m₁, hm₁, rfl⟩ := Option.map_eq_some_iff.mp h
      obtain ⟨hio, hp, hst, -, hs⟩ := submitDenseFfn_opens hrt hground hm₁
      exact .submit (.dense l) ⟨hio, hp, hst, rfl, hs⟩
  | planDenseFfn l =>
      cases h
      refine .rest (.inl trivial) ⟨rfl, rfl, rfl, rfl⟩ rfl (fun o ho => ?_)
        (planDenseFfn_weight rt { m with pending := ops } l _)
      obtain ⟨t, -, rfl⟩ := List.mem_map.mp ho
      trivial
  | prefetchDenseFfn l => exact turn_prefetchDenseFfn hrt h
  | awaitResident n => exact turn_awaitResident hpending h

end Turn

end Machine

end Hypura
