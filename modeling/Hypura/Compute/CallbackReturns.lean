import Hypura.Compute.RouterRecords
import Hypura.Compute.Waits
import Hypura.Core.Terminate

/-!
# Hypura.Compute.CallbackReturns

Every callback returns, in every mode: whatever the workers do and whatever their reads
give, the inference thread comes to the end of its operations.

* `Provided` — what keeps the thread from panicking: the slots suffice for every layer,
  each layer holds as many as it has streamed tensors, and the co-activation matrix has
  the shape that `new` gives it,
* every step of the thread or a worker takes a measure down (`Op.weight`, then the work
  left in the pool, then whether the thread is awake), and `Prompt` says that with no such
  step left the callback is over.
-/

namespace Hypura

open Hypura.Core Hypura.Core.Countdown

/-- How many tensors of a layer are streamed through the slots. -/
def Runtime.streamedTensors (rt : Runtime) (l : Nat) : Nat :=
  if rt.expertStreaming then (rt.config.expertLayouts l).length
  else (rt.config.denseFfnLayouts l).length

/-- The operations that take slots are those of the mode. -/
def Op.OfMode (rt : Runtime) : Op → Prop
  | .ensureExperts _ _ => rt.expertStreaming = true
  | .ensureDenseFfn _ => rt.expertStreaming = false ∧ rt.denseFfnStreaming = true
  | .loadDenseFfn _ => rt.expertStreaming = false ∧ rt.denseFfnStreaming = true
  | .planDenseFfn _ => rt.expertStreaming = false ∧ rt.denseFfnStreaming = true
  | .prefetchDenseFfn _ => rt.expertStreaming = false ∧ rt.denseFfnStreaming = true
  | _ => True

/-- The pool has slots for every layer, and what a layer holds is one for each tensor. -/
structure ExpertPool.Serves (rt : Runtime) (p : ExpertPool) : Prop where
  partitioned : p.Partitioned
  size : 0 < p.slotSize
  few : ∀ l, rt.streamedTensors l ≤ p.numSlots
  length : ∀ l slots, p.slotsOf l = some slots → slots.length = rt.streamedTensors l

namespace ExpertPool.Serves
variable {rt : Runtime} {p p' : ExpertPool} {l : Nat}

theorem new {poolSize slotSize : Nat} (hsize : 0 < slotSize)
    (hfew : ∀ l, rt.streamedTensors l ≤ poolSize / slotSize) :
    (ExpertPool.new poolSize slotSize).Serves rt :=
  ⟨partitioned_new poolSize slotSize, hsize, hfew, fun l slots h => by simp [slotsOf, ExpertPool.new] at h⟩

theorem allocate (h : p.Serves rt) (hpos : 0 < rt.streamedTensors l) :
    ∃ offsets p', p.allocateLayer l (rt.streamedTensors l) = some (offsets, p') ∧
      offsets.length = rt.streamedTensors l ∧ p'.Serves rt := by
  obtain ⟨offsets, p', halloc, -⟩ := h.partitioned.allocateLayer h.size hpos (h.few l) l
  have htakes := h.partitioned.takes h.size hpos (h.few l) halloc
  obtain ⟨slots, hslots, hoffsets, hfresh⟩ := htakes.granted
  have hlen : slots.length = rt.streamedTensors l := by
    by_cases hnone : p.slotsOf l = none
    · exact hfresh hnone
    · rw [htakes.resident hnone] at hslots
      exact h.length l slots hslots
  refine ⟨offsets, p', halloc, by simp [hoffsets, hlen], htakes.partitioned,
    htakes.slotSize.symm ▸ h.size, fun k => htakes.numSlots.symm ▸ h.few k, fun k held hheld => ?_⟩
  by_cases hk : k = l
  · subst hk
    obtain rfl : slots = held := Option.some.inj (hslots.symm.trans hheld)
    exact hlen
  · rcases htakes.others k hk with heq | hnone
    · exact h.length k held (heq ▸ hheld)
    · simp [hnone] at hheld

theorem release (h : p.Serves rt) (l : Nat) : (p.releaseLayer l).Serves rt := by
  refine ⟨h.partitioned.releaseLayer l, ?_, fun k => ?_, fun k slots hk => ?_⟩
  · simpa using h.size
  · simpa using h.few k
  · rw [slotsOf_releaseLayer] at hk
    split at hk
    · cases hk
    · exact h.length k slots hk

end ExpertPool.Serves

namespace Machine

/-! ### Nothing panics -/

structure Provided (rt : Runtime) (m : Machine) : Prop where
  ops : ∀ op ∈ m.pending, op.OfMode rt
  pool : ¬ rt.Standard → ∃ p, m.expertPool = some p ∧ p.Serves rt
  matrix : ∃ nl ne, m.coActivation.WellShaped nl ne

section Provided
variable {rt : Runtime} {m m' : Machine} {l : Nat} {op : Op} {ops : List Op}

namespace Provided

/-- Slots and matrix stay. -/
theorem keep (h : m.Provided rt) (hpool : m'.expertPool = m.expertPool)
    (hmatrix : m'.coActivation = m.coActivation)
    (hops : ∀ op ∈ m'.pending, op ∈ m.pending ∨ op.OfMode rt) : m'.Provided rt where
  ops op hop := (hops op hop).elim (h.ops op) id
  pool hs := hpool.symm ▸ h.pool hs
  matrix := hmatrix.symm ▸ h.matrix

/-- The layer takes its slots. -/
theorem allocate (h : m.Provided rt) (hmode : ¬ rt.Standard) (hpos : 0 < rt.streamedTensors l) :
    ∃ offsets p p' memory, m.expertPool = some p ∧ p'.Serves rt ∧
      m.allocate rt l (rt.streamedTensors l) =
        some (offsets, { m with expertPool := some p', memory := memory }) := by
  obtain ⟨p, hp, hserves⟩ := h.pool hmode
  obtain ⟨offsets, p', halloc, hlen, hserves'⟩ := hserves.allocate hpos
  refine ⟨offsets, p, p', (m.setPool rt p p').memory, hp, hserves', ?_⟩
  simp only [Machine.allocate, hp, Option.bind_eq_bind, Option.bind_some, halloc, hlen, lt_irrefl,
    if_false]
  rfl

theorem submitTasks (h : m.Provided rt) (c : IoCompletion) (base : Base)
    (tasks : List (List Region)) : (m.submitTasks rt c base tasks).Provided rt := by
  unfold Machine.submitTasks
  split
  · refine h.keep rfl rfl fun op hop => ?_
    rcases List.mem_cons.mp hop with rfl | hop
    · exact .inr trivial
    · exact .inl hop
  · exact h

theorem submitLayerLoad (h : m.Provided rt) (l : Nat) : (m.submitLayerLoad rt l).Provided rt := by
  unfold Machine.submitLayerLoad
  split
  · exact h
  · dsimp only
    split
    · exact h.keep rfl rfl fun _ => .inl
    · split
      · refine submitTasks ?_ _ _ _
        exact h.keep rfl rfl fun _ => .inl
      · exact h.keep rfl rfl fun _ => .inl

theorem submitExpertLoad (h : m.Provided rt) (l : Nat) (ids : List Nat) :
    (m.submitExpertLoad rt l ids).Provided rt := by
  unfold Machine.submitExpertLoad
  split
  · exact h
  · dsimp only
    split
    · exact h.keep rfl rfl fun _ => .inl
    · refine submitTasks ?_ _ _ _
      exact h.keep rfl rfl fun _ => .inl

/-- Recording and predicting never leave the matrix. -/
theorem speculate (h : m.Provided rt) (l : Nat) (eligible : Nat → Bool) :
    ∃ m', m.speculate rt l eligible = some m' ∧ m'.Provided rt := by
  unfold Machine.speculate
  split
  · exact ⟨m, rfl, h⟩
  · split
    · exact ⟨m, rfl, h⟩
    · next experts _ =>
        obtain ⟨nl, ne, hshape⟩ := h.matrix
        obtain ⟨coAct, hrecord, hshape'⟩ : ∃ coAct, m.recordExperts l experts = some coAct ∧
            coAct.WellShaped nl ne := by
          obtain ⟨c₁, hc₁, hs₁⟩ := hshape.record l experts
          unfold recordExperts
          simp only [hc₁, Option.bind_eq_bind, Option.bind_some]
          cases m.prevLayerExperts with
          | none => exact ⟨c₁, rfl, hs₁⟩
          | some prev => exact hs₁.recordCrossLayer prev.1 prev.2 experts
        obtain ⟨predicted, hpredict⟩ : ∃ predicted, predictExperts coAct l experts = some predicted := by
          unfold predictExperts
          split
          · exact hshape'.predictNextLayer l experts 3
          · exact ⟨experts, rfl⟩
        simp only [hrecord, hpredict, Option.bind_eq_bind, Option.bind_some]
        refine ⟨_, rfl, ?_, h.pool, nl, ne, hshape'⟩
        intro op hop
        rcases List.mem_append.mp hop with hop | hop
        · unfold requestNext at hop
          split at hop
          · cases hop
          · rw [List.mem_singleton.mp hop]
            trivial
        · exact h.ops op hop

/-! ### Operations -/

theorem rewriteToSlots (h : m.Provided rt) (l : Nat) (names : List String) :
    (m.rewriteToSlots l names).Provided rt := by
  unfold Machine.rewriteToSlots
  split
  · exact h
  · split
    · exact h
    · exact h.keep rfl rfl fun _ => .inl

/-- `load_experts_pooled`: the layer has slots for all of its tensors. -/
theorem loadExpertsPooled (h : m.Provided rt) (hmode : rt.expertStreaming = true)
    (hne : rt.config.expertLayouts l ≠ []) (ids : List Nat) :
    ∃ m', m.loadExpertsPooled rt l ids = some m' ∧ m'.Provided rt := by
  have hstreaming : ¬ rt.Standard := by simp [Runtime.Standard, hmode]
  have htensors : rt.streamedTensors l = (rt.config.expertLayouts l).length := if_pos hmode
  obtain ⟨p, hp, -⟩ := h.pool hstreaming
  -- the cache entries of the layers that lose their slots are dropped first
  have hdropped : Provided rt { m with
      neuronCache := List.foldl NeuronCache.evictLayer m.neuronCache
        (evictedLayers p l (rt.config.expertLayouts l).length)
      expertPool := some p } := h.keep hp.symm rfl fun _ => .inl
  obtain ⟨offsets, q, q', memory, -, hserves, halloc⟩ :=
    hdropped.allocate hstreaming (htensors ▸ List.length_pos_of_ne_nil hne)
  rw [htensors] at halloc
  unfold Machine.loadExpertsPooled
  simp only [hp, Option.bind_eq_bind, Option.bind_some, halloc]
  have htaken : Provided rt { m with
      neuronCache := List.foldl NeuronCache.evictLayer m.neuronCache
        (evictedLayers p l (rt.config.expertLayouts l).length)
      expertPool := some q'
      memory := memory } := ⟨h.ops, fun _ => ⟨q', rfl, hserves⟩, h.matrix⟩
  split
  · exact ⟨_, rfl, htaken.keep rfl rfl fun _ => .inl⟩
  · refine ⟨_, rfl, keep (submitTasks ?_ _ _ _) rfl rfl fun _ => .inl⟩
    exact htaken.keep rfl rfl fun _ => .inl

theorem ensureExpertsLoaded (h : m.Provided rt) (hmode : rt.expertStreaming = true) (l : Nat)
    (ids : List Nat) : ∃ m', m.ensureExpertsLoaded rt l ids = some m' ∧ m'.Provided rt := by
  unfold Machine.ensureExpertsLoaded
  dsimp only
  split
  · exact ⟨m, rfl, h⟩
  · next hne =>
      rw [not_or] at hne
      have hprobed : Provided rt { m with
          neuronCache := (probeExperts l (rt.config.expertLayouts l) ids m.neuronCache).2 } :=
        h.keep rfl rfl fun _ => .inl
      split
      · exact hprobed.loadExpertsPooled hmode hne.2 ids
      · exact ⟨_, rfl, hprobed.rewriteToSlots l _⟩

theorem submitDenseFfn (h : m.Provided rt)
    (hmode : rt.expertStreaming = false ∧ rt.denseFfnStreaming = true)
    (hne : rt.config.denseFfnLayouts l ≠ []) :
    ∃ m', m.submitDenseFfn rt l = some m' ∧ m'.Provided rt := by
  have htensors : rt.streamedTensors l = (rt.config.denseFfnLayouts l).length := by
    simp [Runtime.streamedTensors, hmode.1]
  obtain ⟨offsets, q, q', memory, -, hserves, halloc⟩ := h.allocate (l := l)
    (by simp [Runtime.Standard, hmode]) (htensors ▸ List.length_pos_of_ne_nil hne)
  rw [htensors] at halloc
  unfold Machine.submitDenseFfn
  simp only [halloc, Option.bind_eq_bind, Option.bind_some]
  have h₁ : Provided rt { m with expertPool := some q', memory := memory } :=
    ⟨h.ops, fun _ => ⟨q', rfl, hserves⟩, h.matrix⟩
  refine ⟨_, rfl, submitTasks ?_ _ _ _⟩
  exact h₁.keep rfl rfl fun _ => .inl

/-- No operation panics. -/
theorem exec (h : m.Provided rt) (hground : op.Grounded rt) (hpending : m.pending = op :: ops) :
    ∃ m', Machine.exec rt { m with pending := ops } op = some m' ∧ m'.Provided rt := by
  have hop : op.OfMode rt := h.ops op (by simp [hpending])
  have hrest : Provided rt { m with pending := ops } :=
    h.keep rfl rfl fun o ho => .inl (hpending ▸ List.mem_cons_of_mem _ ho)
  have hcons : ∀ {o : Op} {m₁ : Machine}, o.OfMode rt → m₁.pending = o :: ops →
      m₁.expertPool = m.expertPool → m₁.coActivation = m.coActivation → m₁.Provided rt := by
    intro o m₁ ho hp hpool hmatrix
    refine hrest.keep hpool hmatrix fun o' ho' => ?_
    rw [hp] at ho'
    exact (List.mem_cons.mp ho').elim (fun heq => .inr (heq ▸ ho)) .inl
  cases op with
  | ensureLayer l =>
      simp only [Machine.exec]
      split
      · exact ⟨_, rfl, hrest⟩
      · exact ⟨_, rfl, hcons (o := .ensureLayer l) trivial rfl rfl rfl⟩
      · exact ⟨_, rfl, hcons (o := .submitLayer l) trivial rfl rfl rfl⟩
  | requestLayer l =>
      simp only [Machine.exec]
      split
      · exact ⟨_, rfl, hcons (o := .submitLayer l) trivial rfl rfl rfl⟩
      · exact ⟨_, rfl, hrest⟩
  | submitLayer l => exact ⟨_, rfl, hrest.submitLayerLoad l⟩
  | send =>
      simp only [Machine.exec]
      split
      · exact ⟨_, rfl, hcons (o := .send) trivial rfl rfl rfl⟩
      · exact ⟨_, rfl, hrest⟩
  | requestExperts l ids => exact ⟨_, rfl, hrest.submitExpertLoad l ids⟩
  | speculate l =>
      simp only [Machine.exec]
      split
      · exact hrest.speculate l _
      · exact hrest.speculate l _
  | ensureExperts l ids => exact hrest.ensureExpertsLoaded hop l ids
  | resetStatus l => exact ⟨_, rfl, hrest.keep rfl rfl fun _ => .inl⟩
  | ensureDenseFfn l =>
      refine ⟨_, rfl, ?_⟩
      unfold Machine.ensureDenseFfnLoaded
      dsimp only
      split
      · exact hrest
      · split
        · exact hrest.rewriteToSlots l _
        · exact hcons (o := .loadDenseFfn l) hop rfl rfl rfl
  | loadDenseFfn l =>
      obtain ⟨m₁, hm₁, h₁⟩ := hrest.submitDenseFfn hop hground
      refine ⟨{ m₁ with await := some l }, ?_, h₁.keep rfl rfl fun _ => .inl⟩
      simp only [Machine.exec, hm₁, Option.map_some]
  | planDenseFfn l =>
      refine ⟨_, rfl, hrest.keep rfl rfl fun o ho => ?_⟩
      rcases List.mem_append.mp ho with ho | ho
      · obtain ⟨t, -, rfl⟩ := List.mem_map.mp ho
        exact .inr hop
      · exact .inl ho
  | prefetchDenseFfn l =>
      simp only [Machine.exec, Machine.prefetchDenseFfn]
      split
      · exact ⟨_, rfl, hrest⟩
      · next hne => exact hrest.submitDenseFfn hop hne
  | awaitResident n =>
      simp only [Machine.exec]
      split
      · exact ⟨_, rfl, hrest.keep rfl rfl fun _ => .inl⟩
      · exact ⟨_, rfl, hcons (o := .awaitResident n) trivial rfl rfl rfl⟩

/-! ### Events -/

theorem askExperts (h : m.Provided rt) (hmode : rt.expertStreaming = true) (l : Nat) :
    ∃ m', m.askExperts rt l = some m' ∧ m'.Provided rt := by
  have hone : ∀ {o : Op}, o.OfMode rt → Provided rt { m with pending := [o] } := fun ho =>
    h.keep rfl rfl fun o' ho' => .inr (by rwa [List.mem_singleton.mp ho'])
  obtain ⟨nl, ne, hshape⟩ := h.matrix
  unfold Machine.askExperts
  split
  · exact ⟨m, rfl, h⟩
  · split
    · exact ⟨_, rfl, hone (o := .ensureExperts l _) hmode⟩
    · -- a prediction from nothing observed, or a cold start
      have hchoose : ∀ predicted : List Nat, ∃ m',
          (if predicted = [] then some { m with pending := [.ensureLayer l] }
            else some { m with pending := [.ensureExperts l predicted] }) = some m' ∧
          m'.Provided rt := by
        intro predicted
        split
        · exact ⟨_, rfl, hone (o := .ensureLayer l) trivial⟩
        · exact ⟨_, rfl, hone (o := .ensureExperts l predicted) hmode⟩
      dsimp only
      split
      · obtain ⟨predicted, hpredicted⟩ := hshape.predictNextLayer l [] rt.config.numExpertsUsed
        rw [hpredicted]
        exact hchoose predicted
      · exact hchoose []

/-- The `ask` callback never panics. -/
theorem askCallback (h : m.Provided rt) (l : Nat) :
    ∃ m', m.askCallback rt l = some m' ∧ m'.Provided rt := by
  unfold Machine.askCallback
  split
  · exact ⟨m, rfl, h⟩
  · split
    · next hmode => exact h.askExperts hmode l
    · next hmode =>
        split
        · next hdense =>
            refine ⟨_, rfl, ?_⟩
            unfold askDense
            split
            · exact h.keep rfl rfl fun _ => .inl
            · refine h.keep rfl rfl fun o ho => .inr ?_
              rw [List.mem_singleton.mp ho]
              exact ⟨by simpa using hmode, hdense⟩
        · refine ⟨_, rfl, h.keep rfl rfl fun o ho => .inr ?_⟩
          rw [List.mem_singleton.mp ho]
          trivial

theorem releaseSlots (h : m.Provided rt) (l : Nat) : (m.releaseSlots rt l).Provided rt := by
  unfold Machine.releaseSlots
  split
  · exact h
  · next p hp =>
      refine ⟨h.ops, fun hmode => ?_, h.matrix⟩
      obtain ⟨q, hq, hserves⟩ := h.pool hmode
      obtain rfl : q = p := Option.some.inj (hq.symm.trans hp)
      exact ⟨_, rfl, hserves.release l⟩

theorem releaseLayer (h : m.Provided rt) (l : Nat) : (m.releaseLayer rt l).Provided rt := by
  unfold Machine.releaseLayer
  split
  · exact h
  · exact h.keep rfl rfl fun _ => .inl

theorem doneCallback (h : m.Provided rt) (l lookaheadMax : Nat) :
    (m.doneCallback rt l lookaheadMax).Provided rt := by
  have hswap : (m.swapLayer l).Provided rt := h.keep rfl rfl fun _ => .inl
  unfold Machine.doneCallback
  split
  · exact h
  · split
    · refine hswap.keep rfl rfl fun o ho => .inr ?_
      rcases List.mem_cons.mp ho with rfl | ho
      · trivial
      · split at ho
        · split at ho
          · rw [List.mem_singleton.mp ho]
            trivial
          · cases ho
        · cases ho
    · next hmode =>
        split
        · next hdense =>
            have hplan : ∀ {m₁ : Machine}, m₁.Provided rt →
                Provided rt { m₁ with pending := [.planDenseFfn l] } := fun h₁ =>
              h₁.keep rfl rfl fun o ho => .inr (by
                rw [List.mem_singleton.mp ho]
                exact ⟨by simpa using hmode, hdense⟩)
            unfold doneDense
            dsimp only
            split
            · exact hplan hswap
            · split
              · refine hplan ?_
                exact (hswap.releaseSlots _).keep rfl rfl fun _ => .inl
              · exact hplan hswap
        · unfold doneStandard
          dsimp only
          split
          · exact hswap
          · next prev _ =>
              split
              · exact hswap
              · have hreleased : Provided rt (if prev ∈ rt.config.nvmeLayers then
                    (m.swapLayer l).releaseLayer rt prev else m.swapLayer l) := by
                  split
                  · exact hswap.releaseLayer prev
                  · exact hswap
                refine hreleased.keep rfl rfl fun o ho => .inr ?_
                rcases List.mem_append.mp ho with ho | ho
                · obtain ⟨t, -, rfl⟩ := List.mem_map.mp ho
                  trivial
                · rw [List.mem_singleton.mp ho]
                  trivial

theorem activateResidentFfn (h : m.Provided rt) (n : Nat) :
    (m.activateResidentFfn rt n).Provided rt := by
  unfold Machine.activateResidentFfn
  dsimp only
  split
  · exact h
  · refine submitTasks ?_ _ _ _
    refine h.keep rfl rfl fun o ho => .inr ?_
    rw [List.mem_singleton.mp ho]
    trivial

theorem handle (h : m.Provided rt)
    (hmodes : rt.denseFfnStreaming = true → rt.expertStreaming = false) {e : Event}
    (hstep : m.handle rt e = some m') : m'.Provided rt := by
  have hmap : ∀ {ls : List Nat} {f : Nat → Op}, (∀ l, (f l).OfMode rt) →
      Provided rt { m with pending := ls.map f } := by
    intro ls f hf
    refine h.keep rfl rfl fun o ho => .inr ?_
    obtain ⟨l, -, rfl⟩ := List.mem_map.mp ho
    exact hf l
  have hone : ∀ {o : Op}, o.OfMode rt → Provided rt { m with pending := [o] } := fun ho =>
    h.keep rfl rfl fun o' ho' => .inr (by rwa [List.mem_singleton.mp ho'])
  cases e with
  | ask l =>
      simp only [Machine.handle] at hstep
      split at hstep
      · obtain ⟨m₁, hask, rfl⟩ := Option.map_eq_some_iff.mp hstep
        obtain ⟨m₂, hask', h₂⟩ := h.askCallback l
        obtain rfl : m₂ = m₁ := Option.some.inj (hask'.symm.trans hask)
        exact h₂.keep rfl rfl fun _ => .inl
      · cases hstep
  | done lookaheadMax =>
      obtain ⟨l, -, rfl⟩ := Option.map_eq_some_iff.mp hstep
      exact (h.doneCallback l lookaheadMax).keep rfl rfl fun _ => .inl
  | doneRouter t =>
      obtain ⟨l, -, rfl⟩ := Option.map_eq_some_iff.mp hstep
      split
      · obtain ⟨selected, heq⟩ := interceptRouterOutput_spec rt m l t
        rw [heq]
        exact h.keep rfl rfl fun _ => .inl
      · exact h.keep rfl rfl fun _ => .inl
  | prefetchAllNvme =>
      simp only [Machine.handle] at hstep
      split at hstep
      · cases hstep
        exact hmap (f := .requestLayer) fun _ => trivial
      · cases hstep
  | request l =>
      simp only [Machine.handle] at hstep
      split at hstep
      · cases hstep
        exact hone (o := .requestLayer l) trivial
      · cases hstep
  | requestSlices l ids =>
      simp only [Machine.handle] at hstep
      split at hstep
      · cases hstep
        exact hone (o := .requestExperts l ids) trivial
      · cases hstep
  | residentFfn n =>
      simp only [Machine.handle] at hstep
      split at hstep
      · cases hstep
        exact h.activateResidentFfn n
      · cases hstep
  | initialDenseFfn =>
      simp only [Machine.handle] at hstep
      split at hstep
      · next hdense =>
          cases hstep
          exact hmap (f := .prefetchDenseFfn) fun _ => ⟨hmodes hdense, hdense⟩
      · cases hstep
  | boundaryDenseFfn =>
      simp only [Machine.handle] at hstep
      split at hstep
      · next hdense =>
          cases hstep
          exact hmap (f := .prefetchDenseFfn) fun _ => ⟨hmodes hdense, hdense⟩
      · cases hstep
  | token =>
      simp only [Machine.handle] at hstep
      split at hstep
      · cases hstep
        exact h.keep rfl rfl fun _ => .inl
      · cases hstep

/-! ### Every step -/

theorem step (h : m.Provided rt)
    (hmodes : rt.denseFfnStreaming = true → rt.expertStreaming = false)
    (hground : ∀ op ∈ m.pending, op.Grounded rt) {lab : Label} (hstep : m.step rt lab = some m') :
    m'.Provided rt := by
  cases lab with
  | event e =>
      simp only [Machine.step] at hstep
      split at hstep
      · exact h.handle hmodes hstep
      · cases hstep
  | thread =>
      obtain ⟨-, ⟨op, ops, hpending, hexec⟩ | ⟨-, l, -, ⟨-, rfl⟩ | ⟨-, rfl⟩⟩⟩ := threadStep_cases hstep
      · obtain ⟨m₁, hm₁, h₁⟩ := h.exec (hground op (by simp [hpending])) hpending
        obtain rfl : m₁ = m' := Option.some.inj (hm₁.symm.trans hexec)
        exact h₁
      · exact h.keep rfl rfl fun _ => .inl
      · exact h.keep rfl rfl fun _ => .inl
  | wake =>
      simp only [Machine.step] at hstep
      split at hstep
      · cases hstep
        exact h.keep rfl rfl fun _ => .inl
      · cases hstep
  | recv w =>
      obtain ⟨io, -, rfl⟩ := Option.map_eq_some_iff.mp hstep
      exact h.keep rfl rfl fun _ => .inl
  | pread w count =>
      obtain ⟨j, r, rs, _, io, -, -, -, -, rfl⟩ := preadStep_spec hstep
      exact h.keep rfl rfl fun _ => .inl
  | finish w =>
      obtain ⟨j, io, -, -, -, rfl⟩ := finishStep_spec hstep
      exact h.keep rfl rfl fun _ => .inl
  | fire w =>
      obtain ⟨b, tag, io, -, -, -, rfl⟩ := fireStep_spec hstep
      split
      · exact h.keep rfl rfl fun _ => .inl
      · exact h.keep rfl rfl fun _ => .inl

end Provided

end Provided

end Machine

/-! ### The measure -/

namespace Label

/-- A step of the inference thread or of a worker; not an event, and not a wakeup without a
notification. -/
def Internal : Label → Prop
  | .event _ => False
  | .wake => False
  | _ => True

end Label

namespace Machine

/-- The thread or a worker takes a step. -/
def Advances (rt : Runtime) (m m' : Machine) : Prop :=
  ∃ lab : Label, lab.Internal ∧ m.step rt lab = some m'

/-- The regions a task still has to read. -/
def taskSize (task : IoPoolTask) : Nat := task.regions.length

/-- What is left of the callback, then of the tasks in the pool, and then whether the thread
has yet to look at what it waits for. -/
def left (rt : Runtime) (m : Machine) : Nat × Nat × Nat :=
  (opsWeight rt m.pending + if m.await = none then 0 else 1, m.io.load taskSize,
    if m.asleep then 0 else 1)

/-- One after the other. -/
def Less : Nat × Nat × Nat → Nat × Nat × Nat → Prop :=
  Prod.Lex (· < ·) (Prod.Lex (· < ·) (· < ·))

theorem less_wellFounded : WellFounded Less :=
  WellFounded.prod_lex Nat.lt_wfRel.wf (WellFounded.prod_lex Nat.lt_wfRel.wf Nat.lt_wfRel.wf)

section Measure
variable {rt : Runtime} {m m' : Machine} {op : Op} {ops : List Op}

theorem less_of_ops (h : opsWeight rt m'.pending + (if m'.await = none then 0 else 1) <
    opsWeight rt m.pending + if m.await = none then 0 else 1) : Less (m'.left rt) (m.left rt) :=
  .left _ _ h

theorem less_of_load (hpending : m'.pending = m.pending) (hawait : m'.await = m.await)
    (h : m'.io.load taskSize < m.io.load taskSize) : Less (m'.left rt) (m.left rt) := by
  unfold left
  rw [hpending, hawait]
  exact .right _ (.left _ _ h)

/-- Going to sleep is a step, too. -/
theorem less_of_sleep (hawake : m.asleep = false) :
    Less ({ m with asleep := true }.left rt) (m.left rt) := by
  unfold left
  simp only [hawake, if_true, Bool.false_eq_true, if_false]
  exact .right _ (.right _ Nat.zero_lt_one)

/-- A submission is sent at once, and perhaps waited for. -/
theorem Submission.weight_lt {c : IoCompletion} {status : Nat → LayerStatus} {await : Option Nat}
    (h : Submission m op c status await) :
    1 + (if await = none then 0 else 1) < op.weight rt + if m.await = none then 0 else 1 := by
  cases h with
  | announced l => simp only [Op.weight]; omega
  | slices l ids => simp only [Op.weight]; omega
  | ahead l => simp only [Op.weight]; omega
  | experts l ids => simp [Op.weight]; omega
  | dense l => simp [Op.weight]; omega

theorem Turn.less (hawake : m.asleep = false) (hpending : m.pending = op :: ops)
    (h : Turn rt m op ops m') : Less (m'.left rt) (m.left rt) := by
  have hpos := op.weight_pos rt
  cases h with
  | rest _ hsame hpending' _ hless =>
      refine less_of_ops ?_
      simp only [hpending, hpending', hsame.await, opsWeight_append, opsWeight_cons]
      omega
  | check hop =>
      subst hop
      refine less_of_ops ?_
      simp only [hpending, opsWeight_cons, Op.weight]
      omega
  | reset _ hsame hpending' =>
      refine less_of_ops ?_
      have hawait : m'.await = m.await := hsame.await
      simp only [hpending, hpending', hawait, opsWeight_cons]
      omega
  | announce _ hop =>
      refine less_of_ops ?_
      rcases hop with ⟨rfl, rfl⟩ | ⟨rfl, rfl⟩
      · simp only [hpending, opsWeight_cons, Op.weight]
        omega
      · simp only [hpending, opsWeight_cons, Op.weight, reduceCtorEq, if_false]
        omega
  | nothing hop hsame hpending' =>
      refine less_of_ops ?_
      have hawait : m'.await = m.await := hsame.await
      simp only [hpending, hpending', hawait, opsWeight_cons]
      omega
  | submit hop hopens =>
      refine less_of_ops ?_
      have hless := @Submission.weight_lt rt m op _ _ _ hop
      have hsend : Op.weight rt .send = 1 := rfl
      simp only [hpending, hopens.pending, hopens.await, opsWeight_cons, hsend]
      omega
  | send _ hio => exact less_of_load rfl rfl (Pool.load_send _ hio)
  | sent =>
      refine less_of_ops ?_
      simp only [hpending, opsWeight_cons]
      omega
  | sleep => exact less_of_sleep hawake
  | sleepResident => exact less_of_sleep hawake

/-- Every step of the thread or a worker gets nearer to the end. -/
theorem less_of_advances (hrt : rt.Loads) (hground : ∀ op ∈ m.pending, op.Grounded rt)
    (h : Advances rt m m') : Less (m'.left rt) (m.left rt) := by
  obtain ⟨lab, hlab, hstep⟩ := h
  cases lab with
  | event e => exact absurd hlab id
  | wake => exact absurd hlab id
  | thread =>
      obtain ⟨hawake, ⟨op, ops, hpending, hexec⟩ | ⟨-, l, hawait, ⟨-, rfl⟩ | ⟨-, rfl⟩⟩⟩ :=
        threadStep_cases hstep
      · exact (turn_exec hrt (hground op (by simp [hpending])) hpending hexec).less hawake hpending
      · refine less_of_ops ?_
        simp [hawait]
      · exact less_of_sleep hawake
  | recv w =>
      obtain ⟨io, hio, rfl⟩ := Option.map_eq_some_iff.mp hstep
      exact less_of_load rfl rfl (Pool.load_recv _ hio)
  | pread w count =>
      obtain ⟨j, r, rs, _, io, hw, hregions, -, hio, rfl⟩ := preadStep_spec hstep
      refine less_of_load rfl rfl (Pool.load_work _ hw ?_ hio)
      simp [taskSize, hregions]
  | finish w =>
      obtain ⟨j, io, -, -, hio, rfl⟩ := finishStep_spec hstep
      exact less_of_load rfl rfl (Pool.load_finish _ hio)
  | fire w =>
      obtain ⟨b, tag, io, -, -, hio, rfl⟩ := fireStep_spec hstep
      have hless := Pool.load_fire taskSize hio
      split
      · exact less_of_load rfl rfl hless
      · exact less_of_load rfl rfl hless

/-! ### The callback is over -/

/-- Where neither the thread nor a worker has a step, the thread is between callbacks. -/
theorem idle_of_stuck (hprompt : m.Prompt rt) (hprovided : m.Provided rt)
    (hstuck : ∀ m', ¬ Advances rt m m') : m.Idle := by
  have hnone : ∀ lab : Label, lab.Internal → ∀ m', m.step rt lab ≠ some m' := fun lab hlab m' hs =>
    hstuck m' ⟨lab, hlab, hs⟩
  have hawake : m.asleep = false := by
    by_contra hs
    obtain ⟨lab, m', hworker, hstep⟩ := hprompt.worker_of_asleep (by simpa using hs)
    refine hnone lab ?_ m' hstep
    cases lab <;> first | exact trivial | exact absurd hworker id
  have hthread : m.threadStep rt = none := by
    by_contra hsome
    obtain ⟨m', hm'⟩ := Option.ne_none_iff_exists'.mp hsome
    exact hnone .thread trivial m' hm'
  cases hpending : m.pending with
  | cons op ops =>
      obtain ⟨m', hm', -⟩ := hprovided.exec (hprompt.grounded op (by simp [hpending])) hpending
      unfold threadStep at hthread
      rw [if_neg (by simp [hawake]), hpending] at hthread
      exact absurd (hm'.symm.trans hthread) (by simp)
  | nil =>
      cases hawait : m.await with
      | none => exact ⟨hpending, hawait⟩
      | some l =>
          simp only [threadStep, hawake, hpending, hawait, Bool.false_eq_true, if_false] at hthread
          split at hthread
          · cases hthread
          · cases hthread

/-- **Every callback returns**, in every mode. Whatever was done before and whatever the
reads give, the steps of the thread and the workers come to an end, in whichever order they
are taken, and leave the thread between callbacks; and the next callback never panics. -/
theorem callback_returns {coActivation : CoActivationMatrix} {expertPool : Option ExpertPool}
    {workers : Nat} (hrt : rt.Loads) (hworkers : 0 < workers)
    (hmodes : rt.denseFfnStreaming = true → rt.expertStreaming = false)
    (hpool : ¬ rt.Standard → ∃ poolSize slotSize, expertPool = some (.new poolSize slotSize) ∧
      0 < slotSize ∧ ∀ l, rt.streamedTensors l ≤ poolSize / slotSize)
    (hmatrix : ∃ nl ne, coActivation.WellShaped nl ne)
    (h : Reaches (Machine.step rt) (fun _ _ => True) (start rt coActivation expertPool workers) m) :
    EndsIn (Advances rt) Idle m ∧
      (m.Idle → m.asked = none → ∀ l < 2 ^ 32, ∃ m', m.step rt (.event (.ask l)) = some m') := by
  have hinv : m.Prompt rt ∧ m.Provided rt := by
    refine h.invariant (P := fun m => m.Prompt rt ∧ m.Provided rt) ?_ ?_
    · refine ⟨prompt_start coActivation expertPool hworkers, ?_, fun hmode => ?_, hmatrix⟩
      · simp [start]
      · obtain ⟨poolSize, slotSize, hnew, hsize, hfew⟩ := hpool hmode
        exact ⟨_, hnew, .new hsize hfew⟩
    · intro m lab m' hinv _ hstep
      exact ⟨hinv.1.step hrt hstep, hinv.2.step hmodes hinv.1.grounded hstep⟩
  refine ⟨EndsIn.of_measure less_wellFounded (left rt)
    (fun m => m.Prompt rt ∧ m.Provided rt) ?_ ?_ ?_ hinv, ?_⟩
  · intro m m' hinv hadvances
    obtain ⟨lab, -, hstep⟩ := hadvances
    exact ⟨hinv.1.step hrt hstep, hinv.2.step hmodes hinv.1.grounded hstep⟩
  · exact fun m m' hinv hadvances => less_of_advances hrt hinv.1.grounded hadvances
  · exact fun m hinv hstuck => idle_of_stuck hinv.1 hinv.2 hstuck
  · intro hidle hasked l hl
    obtain ⟨m', hm', -⟩ := hinv.2.askCallback l
    refine ⟨{ m' with asked := some l }, ?_⟩
    simp only [Machine.step, if_pos hidle, Machine.handle, hasked, true_and, if_pos hl, hm',
      Option.map_some]

end Measure

end Machine

/-- A node of an expert-streaming run whose router has chosen: its callback sleeps until the
slice has been read into a slot. -/
theorem expert_callback_returns : ∃ m, exec (Machine.step expertRuntime) (fun _ _ => true)
    expertStart (firstChoice ++ [.event (.ask 0), .thread, .thread, .thread, .thread]) = some m ∧
      m.asleep = true ∧ EndsIn (Machine.Advances expertRuntime) Machine.Idle m := by
  have hrun : (exec (Machine.step expertRuntime) (fun _ _ => true) expertStart
      (firstChoice ++ [.event (.ask 0), .thread, .thread, .thread, .thread])).map
        (fun m => m.asleep) = some true := by decide +kernel
  obtain ⟨m, hm, hasleep⟩ := Option.map_eq_some_iff.mp hrun
  have hfew : ∀ l, expertRuntime.streamedTensors l ≤ 8 / 4 := by
    intro l
    show (List.filterMap _ gateGguf.tensors).length ≤ 2
    exact List.length_filterMap_le _ _
  exact ⟨m, hm, hasleep, (Machine.callback_returns ⟨rfl, rfl⟩ (by decide) (by decide)
    (fun _ => ⟨8, 4, rfl, by decide, hfew⟩) ⟨2, 2, CoActivationMatrix.wellShaped_new 2 2⟩
    (Reaches.exec (fun _ _ _ => trivial) .refl hm)).1⟩

end Hypura
