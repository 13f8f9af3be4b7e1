import Hypura.Compute.CallbackReturns
import Hypura.Compute.MemoryBounds

/-!
# Hypura.Compute.Shutdown

The end of the I/O pool, and who still has a reference to what.

The state is shared by the caller, the callback and the workers, and owns the pool, which
has the sender of the channel the workers receive from. So the workers end only if the
pool is stopped; `generate_with_nvme_scheduling` stops it when a generation has succeeded,
`LoadedModel::drop` in any case. The references are counted: the last one to go drops the
state, which saves its co-activation data and frees the resident layers.

The callers release their handles in different orders, so any order is allowed here.
-/

namespace Hypura

open Hypura.Core Hypura.Core.Countdown

/-! ### The model -/

/-- The worker that takes the step. -/
def Label.worker? : Label → Option Nat
  | .recv w => some w
  | .pread w _ => some w
  | .finish w => some w
  | .fire w => some w
  | _ => none

/-- Where the owner of the model is. -/
inductive Owner
  | running
  /-- In `IoPool::drop`: the channel is closed, and the workers are joined. -/
  | joining
  /-- The pool is gone. -/
  | stopped
  /-- It has returned an error, past `stop_io_pool`. -/
  | failed
  deriving DecidableEq, Repr

structure Lifetime where
  machine : Machine
  owner : Owner
  /-- The pool has the sender. -/
  tx : Bool
  /-- The workers that have returned. -/
  returned : Finset Nat
  /-- The `worker_fds` are open. -/
  fdsOpen : Bool
  /-- The owner's reference to the state. -/
  handle : Bool
  /-- The reference that went to the callback, to be taken back at the end. -/
  callbackRef : Bool
  /-- References that went to the callback of a context that could not be made. -/
  leaked : Nat
  /-- The model, and with it the buffer of its tensors and the slot pool. -/
  model : Bool
  /-- `PrefetchState::drop` has run. -/
  dropped : Bool
  /-- The co-activation data in the file. -/
  saved : Option CoActivationMatrix

inductive Act
  /-- A step of the running model; of a worker also later. -/
  | machine (lab : Label)
  /-- A request whose context could not be made; only with a callback for each request. -/
  | contextFailed
  /-- `stop_io_pool` is called. -/
  | close
  /-- An idle worker finds the channel closed and empty. -/
  | workerReturns (w : Nat)
  /-- All workers are joined, and the descriptors closed. -/
  | joined
  /-- `Arc::from_raw` of the callback's reference. -/
  | takeBack
  | dropHandle
  | dropModel
  /-- An error of `decode`, say, is returned. -/
  | fail

/-- `activate_resident_ffn` is called for `n` layers only. -/
def Act.activates (n : Nat) : Act → Bool
  | .machine lab => Label.activates n lab
  | _ => true

namespace Lifetime
variable (rt : Runtime) (s : Lifetime)

/-- The workers that have not returned; each has a reference to the state. -/
def alive : Finset Nat := Finset.range s.machine.io.workers.length \ s.returned

/-- The strong count of the state. -/
def refs : Nat := s.handle.toNat + s.callbackRef.toNat + s.leaked + s.alive.card

/-- The area is mapped: the buffer until the pool of a streaming mode replaces it, or the
model is freed, the pool until the model is, and the resident layers until the state is. -/
def Mapped : Base → Prop
  | .buffer => rt.Standard ∧ s.model = true
  | .pool => ¬ rt.Standard ∧ s.model = true
  | .resident => rt.denseFfnStreaming = true ∧ s.dropped = false

/-- What `PrefetchState::drop` saves. -/
def toSave : Option CoActivationMatrix :=
  if s.machine.coActivation.hasData then some s.machine.coActivation else none

/-- A reference was dropped: the last one drops the state. -/
def release : Lifetime :=
  if s.refs = 0 then { s with dropped := true, saved := s.toSave } else s

/-- The owner has left the model: its handles go. -/
def left : Bool := s.owner = .stopped || s.owner = .failed

def step : Act → Option Lifetime
  | .machine lab =>
    match lab.worker? with
    | some w =>
      if w ∈ s.returned then none
      else (s.machine.step rt lab).map fun m => { s with machine := m }
    | none =>
      if s.owner = .running then (s.machine.step rt lab).map fun m => { s with machine := m }
      else none
  | .contextFailed =>
    if s.owner = .running ∧ s.machine.Idle ∧ s.callbackRef = false then
      some { s with leaked := s.leaked + 1 }
    else none
  | .close =>
    if s.owner = .running ∧ s.machine.Idle then
      some { s with owner := .joining, tx := false }
    else none
  | .workerReturns w =>
    if s.tx = false ∧ w ∈ s.alive ∧ s.machine.io.workers[w]? = some .idle ∧
        s.machine.io.queue = [] then
      some { s with returned := insert w s.returned }.release
    else none
  | .joined =>
    if s.owner = .joining ∧ s.alive = ∅ then
      some { s with owner := .stopped, fdsOpen := false }
    else none
  | .takeBack =>
    if s.owner = .stopped ∧ s.callbackRef = true then
      some { s with callbackRef := false }.release
    else none
  | .dropHandle =>
    if s.left = true ∧ s.handle = true then some { s with handle := false }.release else none
  | .dropModel =>
    if s.left = true ∧ s.model = true then some { s with model := false } else none
  | .fail =>
    -- a server keeps its model, whatever happens to a request
    if s.owner = .running ∧ s.machine.Idle ∧ s.callbackRef = true then
      some { s with owner := .failed }
    else none

/-- The workers are started. With `forRun` the callback gets its reference now, else a new
one for every request, which is taken back at once. -/
def start (coActivation : CoActivationMatrix) (expertPool : Option ExpertPool) (workers : Nat)
    (forRun : Bool) : Lifetime where
  machine := .start rt coActivation expertPool workers
  owner := .running
  tx := true
  returned := ∅
  fdsOpen := true
  handle := true
  callbackRef := forRun
  leaked := 0
  model := true
  dropped := false
  saved := none

/-! ### Invariants -/

structure Orderly (rt : Runtime) (s : Lifetime) : Prop where
  prompt : s.machine.Prompt rt
  idle : s.owner ≠ .running → s.machine.Idle
  tx : s.tx = true ↔ s.owner = .running ∨ s.owner = .failed
  returned : ∀ w ∈ s.returned, s.machine.io.workers[w]? = some .idle
  drained : s.returned ≠ ∅ → s.tx = false ∧ s.machine.io.queue = []
  joined : s.owner = .stopped → s.alive = ∅
  fds : s.fdsOpen = true ↔ s.owner ≠ .stopped
  model : s.left = false → s.model = true
  handle : s.left = false → s.handle = true
  callbackRef : s.owner = .failed → s.callbackRef = true

/-- The state is dropped with its last reference, and saved then. -/
structure Counted (s : Lifetime) : Prop where
  dropped : s.dropped = true ↔ s.refs = 0
  saved : s.saved = if s.dropped then s.toSave else none

section Steps
variable {rt : Runtime} {s s' : Lifetime} {lab : Label} {w : Nat}

theorem step_machine (h : s.step rt (.machine lab) = some s') :
    ∃ m, s.machine.step rt lab = some m ∧ s' = { s with machine := m } ∧
      (∀ w, lab.worker? = some w → w ∉ s.returned) ∧
      (lab.worker? = none → s.owner = .running) := by
  simp only [step] at h
  split at h
  · next w hw =>
      split at h
      · cases h
      · next hnot =>
          obtain ⟨m, hm, rfl⟩ := Option.map_eq_some_iff.mp h
          refine ⟨m, hm, rfl, fun v hv => ?_, by simp [hw]⟩
          rwa [← Option.some.inj (hw.symm.trans hv)]
  · next hnone =>
      split at h
      · next hrun =>
          obtain ⟨m, hm, rfl⟩ := Option.map_eq_some_iff.mp h
          exact ⟨m, hm, rfl, by simp [hnone], fun _ => hrun⟩
      · cases h

/-- A step of a worker, and what it leaves of the machine. -/
theorem worker_step_spec {m m' : Machine} (hw : lab.worker? = some w)
    (h : m.step rt lab = some m') : Pool.StepOf w m.io m'.io ∧ m'.pending = m.pending ∧
      m'.await = m.await ∧ m'.coActivation = m.coActivation := by
  cases lab with
  | event e => cases hw
  | thread => cases hw
  | wake => cases hw
  | recv v =>
      cases hw
      obtain ⟨io, hio, rfl⟩ := Option.map_eq_some_iff.mp h
      exact ⟨Pool.recv_stepOf hio, rfl, rfl, rfl⟩
  | pread v count =>
      cases hw
      obtain ⟨j, r, rs, _, io, -, -, -, hio, rfl⟩ := Machine.preadStep_spec h
      exact ⟨Pool.work_stepOf hio, rfl, rfl, rfl⟩
  | finish v =>
      cases hw
      obtain ⟨j, io, -, -, hio, rfl⟩ := Machine.finishStep_spec h
      exact ⟨Pool.finish_stepOf hio, rfl, rfl, rfl⟩
  | fire v =>
      cases hw
      obtain ⟨b, tag, io, -, -, hio, rfl⟩ := Machine.fireStep_spec h
      split
      · exact ⟨Pool.fire_stepOf hio, rfl, rfl, rfl⟩
      · exact ⟨Pool.fire_stepOf hio, rfl, rfl, rfl⟩

theorem internal_of_worker (hw : lab.worker? = some w) : lab.Internal := by
  cases lab with
  | event e => cases hw
  | wake => cases hw
  | _ => trivial

@[simp] theorem mem_alive : w ∈ s.alive ↔ w < s.machine.io.workers.length ∧ w ∉ s.returned := by
  simp [alive]

/-- The rest does not depend on whether the state was dropped. -/
theorem Orderly.release (h : s.Orderly rt) : s.release.Orderly rt := by
  unfold Lifetime.release
  split
  · exact ⟨h.prompt, h.idle, h.tx, h.returned, h.drained, h.joined, h.fds, h.model, h.handle,
      h.callbackRef⟩
  · exact h

theorem Orderly.none_returned (h : s.Orderly rt) (htx : s.tx = true) : s.returned = ∅ := by
  by_contra hne
  simpa [htx] using (h.drained hne).1

theorem Orderly.machine (h : s.Orderly rt) (hrt : rt.Loads)
    (hstep : s.step rt (.machine lab) = some s') : s'.Orderly rt ∧ s.owner ≠ .stopped := by
  obtain ⟨m, hm, rfl, hreturned, hrun⟩ := step_machine hstep
  have hprompt := h.prompt.step hrt hm
  cases hw : lab.worker? with
  | none =>
      have howner := hrun hw
      have hnone := h.none_returned (h.tx.mpr (.inl howner))
      exact ⟨⟨hprompt, fun hne => absurd howner hne, h.tx, by simp [hnone], by simp [hnone],
        by simp [howner], h.fds, h.model, h.handle, h.callbackRef⟩, by simp [howner]⟩
  | some w =>
      have hnot := hreturned w hw
      obtain ⟨hof, hpending, hawait, -⟩ := worker_step_spec hw hm
      have hstopped : s.owner ≠ .stopped := fun heq => by
        -- all workers have returned
        have hmem : w ∈ s.alive := by simp [hnot, hof.lt_length]
        simp [h.joined heq] at hmem
      refine ⟨⟨hprompt, fun hne => ?_, h.tx, fun v hv => ?_, fun hne => ?_, by simp [hstopped],
        h.fds, h.model, h.handle, h.callbackRef⟩, hstopped⟩
      · exact ⟨hpending.trans (h.idle hne).1, hawait.trans (h.idle hne).2⟩
      · have hne : v ≠ w := fun heq => hnot (heq ▸ hv)
        exact (hof.others v hne).trans (h.returned v hv)
      · exact ⟨(h.drained hne).1, hof.queue_nil (h.drained hne).2⟩

theorem Orderly.step (h : s.Orderly rt) (hrt : rt.Loads) {act : Act}
    (hstep : s.step rt act = some s') : s'.Orderly rt := by
  cases act with
  | machine lab => exact (h.machine hrt hstep).1
  | contextFailed =>
      obtain ⟨-, rfl⟩ := eq_of_guarded hstep
      exact ⟨h.prompt, h.idle, h.tx, h.returned, h.drained, h.joined, h.fds, h.model, h.handle,
        h.callbackRef⟩
  | close =>
      obtain ⟨⟨howner, hidle⟩, rfl⟩ := eq_of_guarded hstep
      have hnone := h.none_returned (h.tx.mpr (.inl howner))
      have hleft : s.left = false := by simp [left, howner]
      exact ⟨h.prompt, fun _ => hidle, by simp, h.returned, by simp [hnone], by simp,
        by simpa [howner] using h.fds, fun _ => h.model hleft, fun _ => h.handle hleft, by simp⟩
  | workerReturns w =>
      obtain ⟨⟨htx, hw, hidle, hqueue⟩, rfl⟩ := eq_of_guarded hstep
      refine Orderly.release ⟨h.prompt, h.idle, h.tx, fun v hv => ?_, fun _ => ⟨htx, hqueue⟩,
        fun hstopped => ?_, h.fds, h.model, h.handle, h.callbackRef⟩
      · rcases Finset.mem_insert.mp hv with rfl | hv
        · exact hidle
        · exact h.returned v hv
      · simp [h.joined hstopped] at hw
  | joined =>
      obtain ⟨⟨howner, hall⟩, rfl⟩ := eq_of_guarded hstep
      have htx : s.tx = false := by simpa [howner] using h.tx
      exact ⟨h.prompt, fun _ => h.idle (by simp [howner]), by simp [htx], h.returned, h.drained,
        fun _ => hall, by simp, by simp [left], by simp [left], by simp⟩
  | takeBack =>
      obtain ⟨⟨howner, -⟩, rfl⟩ := eq_of_guarded hstep
      exact Orderly.release ⟨h.prompt, h.idle, h.tx, h.returned, h.drained, h.joined, h.fds,
        h.model, h.handle, by simp [howner]⟩
  | dropHandle =>
      obtain ⟨⟨hleft, -⟩, rfl⟩ := eq_of_guarded hstep
      refine Orderly.release ⟨h.prompt, h.idle, h.tx, h.returned, h.drained, h.joined, h.fds,
        h.model, fun hnot => ?_, h.callbackRef⟩
      exact absurd (hleft.symm.trans hnot) (by simp)
  | dropModel =>
      obtain ⟨⟨hleft, -⟩, rfl⟩ := eq_of_guarded hstep
      refine ⟨h.prompt, h.idle, h.tx, h.returned, h.drained, h.joined, h.fds, fun hnot => ?_,
        h.handle, h.callbackRef⟩
      exact absurd (hleft.symm.trans hnot) (by simp)
  | fail =>
      obtain ⟨⟨howner, hidle, href⟩, rfl⟩ := eq_of_guarded hstep
      exact ⟨h.prompt, fun _ => hidle, by simp [h.tx.mpr (.inl howner)], h.returned, h.drained,
        by simp, by simpa [howner] using h.fds, by simp [left], by simp [left], fun _ => href⟩

/-- While the owner has not stopped the pool there is a reference. -/
theorem Orderly.refs_pos (h : s.Orderly rt) (howner : s.owner ≠ .stopped) : s.refs ≠ 0 := by
  cases hs : s.owner with
  | running =>
      have := h.handle (by simp [left, hs])
      simp [refs, this]
  | joining =>
      have := h.handle (by simp [left, hs])
      simp [refs, this]
  | stopped => exact absurd hs howner
  | failed =>
      have := h.callbackRef hs
      simp [refs, this]

theorem Counted.kept (h : s.Counted) (hrefs : s.refs ≠ 0) : s.dropped = false ∧ s.saved = none := by
  have hdropped : s.dropped = false := by simpa [hrefs] using h.dropped
  refine ⟨hdropped, ?_⟩
  simpa [hdropped] using h.saved

/-- Still in use, before and after. -/
theorem Counted.keep (h : s.Counted) (hrefs : s.refs ≠ 0) (hrefs' : s'.refs ≠ 0)
    (hdropped : s'.dropped = s.dropped) (hsaved : s'.saved = s.saved) : s'.Counted := by
  obtain ⟨hd, hv⟩ := h.kept hrefs
  exact ⟨by simp [hdropped, hd, hrefs'], by simp [hdropped, hsaved, hd, hv]⟩

/-- A reference goes. -/
theorem Counted.release (h : s.Counted) (hrefs : s.refs ≠ 0) (hdropped : s'.dropped = s.dropped)
    (hsaved : s'.saved = s.saved) : s'.release.Counted := by
  obtain ⟨hd, hv⟩ := h.kept hrefs
  unfold Lifetime.release
  split
  · next hzero => exact ⟨iff_of_true rfl hzero, by simp [toSave]⟩
  · next hzero => exact ⟨by simp [hdropped, hd, hzero], by simp [hdropped, hsaved, hd, hv]⟩

theorem Counted.step (h : s.Counted) (ho : s.Orderly rt) (hrt : rt.Loads) {act : Act}
    (hstep : s.step rt act = some s') : s'.Counted := by
  have ho' := ho.step hrt hstep
  cases act with
  | machine lab =>
      have hstopped := (ho.machine hrt hstep).2
      obtain ⟨m, -, rfl, -, -⟩ := step_machine hstep
      exact h.keep (ho.refs_pos hstopped) (ho'.refs_pos hstopped) rfl rfl
  | contextFailed =>
      obtain ⟨⟨howner, -⟩, rfl⟩ := eq_of_guarded hstep
      have hstopped : s.owner ≠ .stopped := by simp [howner]
      exact h.keep (ho.refs_pos hstopped) (ho'.refs_pos hstopped) rfl rfl
  | close =>
      obtain ⟨⟨howner, -⟩, rfl⟩ := eq_of_guarded hstep
      exact h.keep (ho.refs_pos (by simp [howner])) (ho'.refs_pos (by simp)) rfl rfl
  | workerReturns w =>
      obtain ⟨⟨-, hw, -⟩, rfl⟩ := eq_of_guarded hstep
      have hpos := Finset.card_pos.mpr ⟨w, hw⟩
      exact h.release (by unfold refs; omega) rfl rfl
  | joined =>
      obtain ⟨⟨howner, -⟩, rfl⟩ := eq_of_guarded hstep
      have hrefs := ho.refs_pos (s := s) (by simp [howner])
      exact h.keep hrefs hrefs rfl rfl
  | takeBack =>
      obtain ⟨⟨-, href⟩, rfl⟩ := eq_of_guarded hstep
      exact h.release (by simp [refs, href]) rfl rfl
  | dropHandle =>
      obtain ⟨⟨-, hhandle⟩, rfl⟩ := eq_of_guarded hstep
      exact h.release (by simp [refs, hhandle]) rfl rfl
  | dropModel =>
      obtain ⟨-, rfl⟩ := eq_of_guarded hstep
      exact ⟨h.dropped, h.saved⟩
  | fail =>
      obtain ⟨⟨howner, -, href⟩, rfl⟩ := eq_of_guarded hstep
      have hrefs := ho.refs_pos (s := s) (by simp [howner])
      exact h.keep hrefs hrefs rfl rfl

theorem orderly_start {coActivation : CoActivationMatrix} {expertPool : Option ExpertPool}
    {workers : Nat} {forRun : Bool} (hworkers : 0 < workers) :
    (start rt coActivation expertPool workers forRun).Orderly rt where
  prompt := Machine.prompt_start coActivation expertPool hworkers
  idle hne := absurd rfl hne
  tx := by simp [start]
  returned := by simp [start]
  drained := by simp [start]
  joined := by simp [start]
  fds := by simp [start]
  model := by simp [start]
  handle := by simp [start]
  callbackRef := by simp [start]

theorem counted_start {coActivation : CoActivationMatrix} {expertPool : Option ExpertPool}
    {workers : Nat} {forRun : Bool} :
    (start rt coActivation expertPool workers forRun).Counted :=
  ⟨by simp [start, refs], by simp [start]⟩

theorem sound_of_reaches {ok : Lifetime → Act → Prop} {coActivation : CoActivationMatrix}
    {expertPool : Option ExpertPool} {workers : Nat} {forRun : Bool} (hrt : rt.Loads)
    (hworkers : 0 < workers)
    (h : Reaches (step rt) ok (start rt coActivation expertPool workers forRun) s) :
    s.Orderly rt ∧ s.Counted := by
  refine h.invariant (P := fun s => s.Orderly rt ∧ s.Counted)
    ⟨orderly_start hworkers, counted_start⟩ ?_
  intro s act s' hinv _ hstep
  exact ⟨hinv.1.step hrt hstep, hinv.2.step hinv.1 hrt hstep⟩

/-! ### Memory -/

/-- What a worker needs is kept until the last of them has returned. -/
theorem kept_of_busy (ho : s.Orderly rt) (hc : s.Counted) (hok : s.owner ≠ .failed)
    {j : Job IoPoolTask} (hw : s.machine.io.workers[w]? = some (.busy j)) :
    s.fdsOpen = true ∧ s.model = true ∧ s.dropped = false := by
  have hstopped : s.owner ≠ .stopped := fun heq => by
    -- all workers have returned, and a worker that has returned is idle
    have hlt := (List.getElem?_eq_some_iff.mp hw).1
    by_cases hmem : w ∈ s.returned
    · simp [ho.returned w hmem] at hw
    · have halive : w ∈ s.alive := by simp [hlt, hmem]
      simp [ho.joined heq] at halive
  have hleft : s.left = false := by simp [left, hstopped, hok]
  exact ⟨ho.fds.mpr hstopped, ho.model hleft, (hc.kept (ho.refs_pos hstopped)).1⟩

@[simp] theorem release_machine (s : Lifetime) : s.release.machine = s.machine := by
  unfold Lifetime.release
  split <;> rfl

/-- Only a step of the machine changes it. -/
theorem machine_of_step {act : Act} (h : s.step rt act = some s') :
    (∃ lab, act = .machine lab ∧ s.machine.step rt lab = some s'.machine) ∨
      s'.machine = s.machine := by
  cases act with
  | machine lab =>
      obtain ⟨m, hm, rfl, -⟩ := step_machine h
      exact .inl ⟨lab, rfl, hm⟩
  | contextFailed =>
      obtain ⟨-, rfl⟩ := eq_of_guarded h
      exact .inr rfl
  | close =>
      obtain ⟨-, rfl⟩ := eq_of_guarded h
      exact .inr rfl
  | workerReturns w =>
      obtain ⟨-, rfl⟩ := eq_of_guarded h
      exact .inr (release_machine _)
  | joined =>
      obtain ⟨-, rfl⟩ := eq_of_guarded h
      exact .inr rfl
  | takeBack =>
      obtain ⟨-, rfl⟩ := eq_of_guarded h
      exact .inr (release_machine _)
  | dropHandle =>
      obtain ⟨-, rfl⟩ := eq_of_guarded h
      exact .inr (release_machine _)
  | dropModel =>
      obtain ⟨-, rfl⟩ := eq_of_guarded h
      exact .inr rfl
  | fail =>
      obtain ⟨-, rfl⟩ := eq_of_guarded h
      exact .inr rfl

/-- **A worker never reads into memory that is gone**, past the end of it, or from a closed
descriptor, as long as no error was returned. Where experts are streamed this is about the
reads into slots: the others go to the buffer, which the pool has replaced. -/
theorem reads_safe {coActivation : CoActivationMatrix} {expertPool : Option ExpertPool}
    {workers bufferSize numSlots n : Nat} {forRun : Bool} {gguf : GgufFile} {map : TensorMap}
    (hrt : rt.Loads) (hworkers : 0 < workers)
    (hbuilt : rt.Built gguf map expertPool bufferSize numSlots n)
    (h : Reaches (step rt) (fun _ act => Act.activates n act)
      (start rt coActivation expertPool workers forRun) s)
    (hok : s.owner ≠ .failed) {j : Job IoPoolTask}
    (hw : s.machine.io.workers[w]? = some (.busy j))
    (hbase : rt.expertStreaming = true → j.payload.base ≠ .buffer) :
    s.fdsOpen = true ∧ s.Mapped rt j.payload.base ∧
      ∀ r ∈ j.payload.regions, r.Inside (rt.area gguf bufferSize numSlots n j.payload.base) := by
  obtain ⟨ho, hc⟩ := sound_of_reaches hrt hworkers h
  obtain ⟨hfds, hmodel, hdropped⟩ := kept_of_busy ho hc hok hw
  have hcontained : s.machine.Contained rt (rt.area gguf bufferSize numSlots n)
      ((largestTensor rt.streamedRole gguf).getD 0) n := by
    refine h.invariant (P := fun s => s.machine.Contained rt (rt.area gguf bufferSize numSlots n)
      ((largestTensor rt.streamedRole gguf).getD 0) n) ?_ ?_
    · exact .start workers hbuilt.lies
    · intro s act s' hm hn hstep
      rcases machine_of_step hstep with ⟨lab, rfl, hm'⟩ | heq
      · exact hm.step hbuilt.fits hbuilt.modes hn hm'
      · exact heq ▸ hm
  have hmem : j ∈ s.machine.io.jobs :=
    List.mem_append_right _ (List.mem_append_right _
      (List.mem_filterMap.mpr ⟨_, List.mem_of_getElem? hw, rfl⟩))
  obtain ⟨huses, hinside⟩ := hcontained.tasks j hmem
  refine ⟨hfds, ?_, hinside⟩
  generalize j.payload.base = base at huses hbase
  cases base with
  | buffer => exact ⟨⟨by simpa using hbase, huses⟩, hmodel⟩
  | pool => exact ⟨huses, hmodel⟩
  | resident => exact ⟨huses, hdropped⟩

/-! ### The end -/

/-- Any step. -/
def Goes (rt : Runtime) (s s' : Lifetime) : Prop := ∃ act, s.step rt act = some s'

/-- What the owner and the workers still have to do when the pool is at rest. -/
def toGo (s : Lifetime) : Nat :=
  s.alive.card + (if s.owner = .joining then 1 else 0) + s.callbackRef.toNat + s.handle.toNat +
    s.model.toNat

def measure (rt : Runtime) (s : Lifetime) : (Nat × Nat × Nat) × Nat := (s.machine.left rt, s.toGo)

def Nearer : (Nat × Nat × Nat) × Nat → (Nat × Nat × Nat) × Nat → Prop :=
  Prod.Lex Machine.Less (· < ·)

theorem nearer_wellFounded : WellFounded Nearer :=
  WellFounded.prod_lex Machine.less_wellFounded Nat.lt_wfRel.wf

theorem release_fields (s : Lifetime) : s.release.machine = s.machine ∧ s.release.toGo = s.toGo ∧
    s.release.owner = s.owner ∧ s.release.leaked = s.leaked ∧ s.release.toSave = s.toSave := by
  unfold Lifetime.release
  split
  · exact ⟨rfl, rfl, rfl, rfl, rfl⟩
  · exact ⟨rfl, rfl, rfl, rfl, rfl⟩

/-- What a step after the use of the model does: it gets nearer to the end, and leaves what is
to be saved. -/
structure Ends (rt : Runtime) (s s' : Lifetime) : Prop where
  nearer : Nearer (s'.measure rt) (s.measure rt)
  owner : s'.owner ≠ .running
  failed : s'.owner = .failed ↔ s.owner = .failed
  leaked : s'.leaked = s.leaked
  toSave : s'.toSave = s.toSave

/-- The pool is left as it is. -/
theorem ends_of_toGo {s₁ : Lifetime} (hmachine : s₁.machine = s.machine) (hless : s₁.toGo < s.toGo)
    (howner : s₁.owner ≠ .running) (hfailed : s₁.owner = .failed ↔ s.owner = .failed)
    (hleaked : s₁.leaked = s.leaked) : Ends rt s s₁ := by
  refine ⟨?_, howner, hfailed, hleaked, by simp [toSave, hmachine]⟩
  unfold measure
  rw [hmachine]
  exact .right _ hless

theorem ends_of_release {s₁ : Lifetime} (h : Ends rt s s₁) : Ends rt s s₁.release := by
  obtain ⟨hmachine, htoGo, howner, hleaked, hsave⟩ := s₁.release_fields
  refine ⟨?_, howner ▸ h.owner, howner ▸ h.failed, hleaked.trans h.leaked, hsave.trans h.toSave⟩
  have hnearer := h.nearer
  unfold measure at hnearer ⊢
  rwa [hmachine, htoGo]

theorem ends_of_goes (hrt : rt.Loads) (ho : s.Orderly rt) (howner : s.owner ≠ .running)
    (h : Goes rt s s') : Ends rt s s' := by
  obtain ⟨act, hstep⟩ := h
  cases act with
  | machine lab =>
      obtain ⟨m, hm, rfl, -, hrun⟩ := step_machine hstep
      cases hw : lab.worker? with
      | none => exact absurd (hrun hw) howner
      | some w =>
          have hadvances : Machine.Advances rt s.machine m :=
            ⟨lab, internal_of_worker hw, hm⟩
          have hsave := (worker_step_spec hw hm).2.2.2
          exact ⟨.left _ _ (Machine.less_of_advances hrt ho.prompt.grounded hadvances), howner, .rfl,
            rfl, by simp [toSave, hsave]⟩
  | contextFailed => exact absurd (eq_of_guarded hstep).1.1 howner
  | close => exact absurd (eq_of_guarded hstep).1.1 howner
  | workerReturns w =>
      obtain ⟨⟨-, hw, -⟩, rfl⟩ := eq_of_guarded hstep
      have halive : { s with returned := insert w s.returned }.alive = s.alive.erase w := by
        simp [alive, Finset.sdiff_insert]
      have hcard := Finset.card_erase_lt_of_mem hw
      refine ends_of_release (ends_of_toGo rfl ?_ howner .rfl rfl)
      unfold toGo
      rw [halive]
      simpa using hcard
  | joined =>
      obtain ⟨⟨hjoining, -⟩, rfl⟩ := eq_of_guarded hstep
      refine ends_of_toGo rfl ?_ (by simp) (by simp [hjoining]) rfl
      simp [toGo, hjoining, alive]
  | takeBack =>
      obtain ⟨⟨-, href⟩, rfl⟩ := eq_of_guarded hstep
      refine ends_of_release (ends_of_toGo rfl ?_ howner .rfl rfl)
      simp [toGo, href, alive]
  | dropHandle =>
      obtain ⟨⟨-, hhandle⟩, rfl⟩ := eq_of_guarded hstep
      refine ends_of_release (ends_of_toGo rfl ?_ howner .rfl rfl)
      simp [toGo, hhandle, alive]
  | dropModel =>
      obtain ⟨⟨-, hmodel⟩, rfl⟩ := eq_of_guarded hstep
      refine ends_of_toGo rfl ?_ howner .rfl rfl
      simp [toGo, hmodel, alive]
  | fail => exact absurd (eq_of_guarded hstep).1.1 howner

/-! ### At the end -/

/-- A worker at rest with nothing in the queue has no step. -/
theorem step_of_rest {m m' : Machine} (hlab : lab.worker? = some w)
    (hw : m.io.workers[w]? = some .idle) (hqueue : m.io.queue = []) : m.step rt lab ≠ some m' := by
  cases lab with
  | event e => cases hlab
  | thread => cases hlab
  | wake => cases hlab
  | recv v =>
      cases hlab
      simp [Machine.step, Pool.recv, hw, hqueue]
  | pread v count =>
      cases hlab
      simp [Machine.step, Machine.preadStep, hw]
  | finish v =>
      cases hlab
      simp [Machine.step, Machine.finishStep, hw]
  | fire v =>
      cases hlab
      simp [Machine.step, Machine.fireStep, hw]

/-- All tasks are done and reported. -/
structure AtRest (s : Lifetime) : Prop where
  jobs : s.machine.io.jobs = []
  workers : ∀ w < s.machine.io.workers.length, s.machine.io.workers[w]? = some .idle
  settled : ∀ l, s.machine.layerStatus l ≠ .loading

theorem atRest_of_stuck (ho : s.Orderly rt) (howner : s.owner ≠ .running)
    (hstuck : ∀ s', ¬ Goes rt s s') : s.AtRest := by
  have hidle := ho.idle howner
  have hbalanced := ho.prompt.balanced
  have hlive : ∀ b, ¬ s.machine.io.Live b := by
    intro b hb
    have hcan := hbalanced.canStep (ho.prompt.sent_of_nil hidle.1) ho.prompt.workers hb
    obtain ⟨lab, m, hworker, -, hm⟩ : ∃ lab m, Machine.Label.OfWorker lab ∧ s.machine.fullRead lab ∧
      s.machine.step rt lab = some m := Machine.step_of_canStep hbalanced hcan
    obtain ⟨w, hw⟩ : ∃ w, lab.worker? = some w := by
      cases lab <;> first | exact ⟨_, rfl⟩ | exact absurd hworker id
    have hnot : w ∉ s.returned := fun hmem => by
      have hqueue := (ho.drained (Finset.ne_empty_of_mem hmem)).2
      exact step_of_rest hw (ho.returned w hmem) hqueue hm
    exact hstuck { s with machine := m } ⟨.machine lab, by simp [step, hw, hnot, hm]⟩
  have hjobs : s.machine.io.jobs = [] :=
    List.eq_nil_iff_forall_not_mem.mpr fun j hj => hlive _ (hbalanced.live_iff.mpr (.inl ⟨j, hj, rfl⟩))
  refine ⟨hjobs, fun w hw => ?_, fun l hl => ?_⟩
  · have hget := List.getElem?_eq_getElem hw
    rw [hget]
    cases hstate : s.machine.io.workers[w] with
    | idle => rfl
    | busy j =>
        rw [hstate] at hget
        have hj : j ∈ s.machine.io.jobs := List.mem_append_right _ (List.mem_append_right _
          (List.mem_filterMap.mpr ⟨_, List.mem_of_getElem? hget, rfl⟩))
        simp [hjobs] at hj
    | firing b =>
        rw [hstate] at hget
        have hb : b ∈ s.machine.io.firing :=
          List.mem_filterMap.mpr ⟨_, List.mem_of_getElem? hget, rfl⟩
        exact absurd (hbalanced.firing_live hb).1 (hlive b)
  · rcases ho.prompt.promised.loading l hl with hsub | ⟨b, hb⟩
    · have hnone : s.machine.submitting = none := Machine.submitting_of_nil hidle.1
      exact absurd (hsub.symm.trans hnone) (by simp)
    · exact hlive b hb.live

/-- Every run from a state in which the model is out of use ends, with the pool at rest. -/
theorem endsIn_of_stuck {goal : Lifetime → Prop} (hrt : rt.Loads) (ho : s.Orderly rt)
    (hc : s.Counted) (howner : s.owner ≠ .running)
    (hgoal : ∀ s₁ : Lifetime, s₁.Orderly rt → s₁.Counted → s₁.AtRest → s₁.owner ≠ .running →
      (s₁.owner = .failed ↔ s.owner = .failed) → s₁.leaked = s.leaked → s₁.toSave = s.toSave →
      (∀ s', ¬ Goes rt s₁ s') → goal s₁) : EndsIn (Goes rt) goal s := by
  refine .of_measure nearer_wellFounded (measure rt) (fun s₁ => s₁.Orderly rt ∧ s₁.Counted ∧
    s₁.owner ≠ .running ∧ (s₁.owner = .failed ↔ s.owner = .failed) ∧ s₁.leaked = s.leaked ∧
    s₁.toSave = s.toSave) ?_ ?_ ?_ ⟨ho, hc, howner, .rfl, rfl, rfl⟩
  · intro s₁ s₂ ⟨ho, hc, howner, hfailed, hleaked, hsave⟩ hgoes
    have hends := ends_of_goes hrt ho howner hgoes
    obtain ⟨act, hstep⟩ := hgoes
    exact ⟨ho.step hrt hstep, hc.step ho hrt hstep, hends.owner, hends.failed.trans hfailed,
      hends.leaked.trans hleaked, hends.toSave.trans hsave⟩
  · exact fun s₁ s₂ ⟨ho, _, howner, _⟩ hgoes => (ends_of_goes hrt ho howner hgoes).nearer
  · intro s₁ ⟨ho, hc, howner, hfailed, hleaked, hsave⟩ hstuck
    exact hgoal s₁ ho hc (atRest_of_stuck ho howner hstuck) howner hfailed hleaked hsave hstuck

theorem not_guard {p : Prop} [Decidable p] {a : Act} {s₁ : Lifetime}
    (hstuck : ∀ s', ¬ Goes rt s s') (h : s.step rt a = if p then some s₁ else none) : ¬ p :=
  fun hp => hstuck s₁ ⟨a, by rw [h, if_pos hp]⟩

/-- What the owner and the workers have let go of in the end. -/
structure Over (s : Lifetime) : Prop where
  atRest : s.AtRest
  returned : s.alive = ∅
  fds : s.fdsOpen = false
  model : s.model = false
  dropped : s.dropped = true ↔ s.leaked = 0

/-- **The pool can always be stopped.** From the call of `stop_io_pool` on, wherever the
workers are, every run comes to an end, with every task done and reported, the workers
joined and the model gone; the co-activation data is saved as it was at the call, unless a
failed context has left a reference. -/
theorem shutdown_ends {coActivation : CoActivationMatrix} {expertPool : Option ExpertPool}
    {workers : Nat} {forRun : Bool} (hrt : rt.Loads) (hworkers : 0 < workers)
    (h : Reaches (step rt) (fun _ _ => True) (start rt coActivation expertPool workers forRun) s)
    (howner : s.owner = .joining ∨ s.owner = .stopped) :
    EndsIn (Goes rt) (fun s' => s'.Over ∧ s'.saved = if s.leaked = 0 then s.toSave else none) s := by
  obtain ⟨ho, hc⟩ := sound_of_reaches hrt hworkers h
  have hrunning : s.owner ≠ .running := by rcases howner with h | h <;> simp [h]
  have hfailed : s.owner ≠ .failed := by rcases howner with h | h <;> simp [h]
  refine endsIn_of_stuck hrt ho hc hrunning ?_
  intro s₁ ho hc hrest hrunning hfail hleaked hsave hstuck
  have htx : s₁.tx = false := by simpa [hrunning, hfail, hfailed] using ho.tx
  -- all workers have returned, as there is nothing left to receive
  have halive : s₁.alive = ∅ := by
    by_contra hne
    obtain ⟨w, hw⟩ := Finset.nonempty_iff_ne_empty.mpr hne
    have hqueue : s₁.machine.io.queue = [] := by
      have hjobs := hrest.jobs
      simp only [Pool.jobs, List.append_eq_nil_iff] at hjobs
      exact hjobs.2.1
    exact not_guard (a := .workerReturns w) hstuck rfl
      ⟨htx, hw, hrest.workers w (mem_alive.mp hw).1, hqueue⟩
  have hstopped : s₁.owner = .stopped := by
    cases hs : s₁.owner with
    | running => exact absurd hs hrunning
    | joining => exact absurd ⟨hs, halive⟩ (not_guard (a := .joined) hstuck rfl)
    | stopped => rfl
    | failed => exact absurd (hfail.mp hs) hfailed
  have hleft : s₁.left = true := by simp [left, hstopped]
  have hmodel : s₁.model = false := by
    have := not_guard (a := .dropModel) hstuck rfl
    simpa [hleft] using this
  have hhandle : s₁.handle = false := by
    have := not_guard (a := .dropHandle) hstuck rfl
    simpa [hleft] using this
  have href : s₁.callbackRef = false := by
    have := not_guard (a := .takeBack) hstuck rfl
    simpa [hstopped] using this
  have hrefs : s₁.refs = s.leaked := by simp [refs, hhandle, href, halive, hleaked]
  refine ⟨⟨hrest, halive, ?_, hmodel, ?_⟩, ?_⟩
  · simpa [hstopped] using ho.fds
  · rw [hc.dropped, hrefs, hleaked]
  · rw [hc.saved, ← hsave, if_congr (hc.dropped.trans (by rw [hrefs])) rfl rfl]

/-! ### After an error -/

/-- **An error leaves the workers behind.** They never return, and the state they share is
never dropped and its co-activation data never saved, whatever happens; and while the model
is dropped they go on with all the tasks there are. -/
theorem failed_left {coActivation : CoActivationMatrix} {expertPool : Option ExpertPool}
    {workers : Nat} {forRun : Bool} (hrt : rt.Loads) (hworkers : 0 < workers)
    (h : Reaches (step rt) (fun _ _ => True) (start rt coActivation expertPool workers forRun) s)
    (howner : s.owner = .failed) :
    (s.returned = ∅ ∧ s.dropped = false ∧ s.saved = none) ∧
      EndsIn (Goes rt) (fun s' => s'.AtRest ∧ s'.returned = ∅ ∧ s'.dropped = false ∧
        s'.handle = false ∧ s'.model = false) s := by
  have hkept : ∀ s₁ : Lifetime, s₁.Orderly rt → s₁.Counted → s₁.owner = .failed →
      s₁.returned = ∅ ∧ s₁.dropped = false ∧ s₁.saved = none := by
    intro s₁ ho hc hs
    exact ⟨ho.none_returned (ho.tx.mpr (.inr hs)), hc.kept (ho.refs_pos (by simp [hs]))⟩
  obtain ⟨ho, hc⟩ := sound_of_reaches hrt hworkers h
  refine ⟨hkept s ho hc howner, endsIn_of_stuck hrt ho hc (by simp [howner]) ?_⟩
  intro s₁ ho hc hrest _ hfail _ _ hstuck
  have hs := hfail.mpr howner
  have hleft : s₁.left = true := by simp [left, hs]
  obtain ⟨hreturned, hdropped, -⟩ := hkept s₁ ho hc hs
  refine ⟨hrest, hreturned, hdropped, ?_, ?_⟩
  · have := not_guard (a := .dropHandle) hstuck rfl
    simpa [hleft] using this
  · have := not_guard (a := .dropModel) hstuck rfl
    simpa [hleft] using this

end Steps

end Lifetime

/-! ### One task in the pool -/

/-- A run in which layer 0 is requested, while both workers are idle. -/
def requestFirst : List Act :=
  [.event (.request 0), .thread, .thread, .thread, .thread].map .machine

def runStart : Lifetime := .start gateRuntime (.new 2 2) none 2 true

theorem gateRuntime_built : gateRuntime.Built gateGguf gateMap none 36 2 0 where
  modes := by decide
  config := ⟨none, 2, {0}, rfl⟩
  names := by decide
  captured := gateMap_captured
  inBuffer := by decide
  sizes := by
    have hmap : ∀ entry ∈ gateMap, entry.2.size = 4 := by decide
    have htensors : ∀ t ∈ gateGguf.tensors, t.sizeBytes = 4 := by decide
    intro t ht loc hloc
    rw [hmap _ (mem_of_lookup_eq_some hloc), htensors t ht]
  places := bytes_places
  pool hmode := absurd ⟨rfl, rfl⟩ hmode
  slots := by decide
  few l := (List.length_filterMap_le ..).trans (by decide)
  offsets := by simp [gateRuntime]

/-- A worker reads, and its owner waits for it. -/
theorem requestFirst_mapped : ∃ s, exec (Lifetime.step gateRuntime)
    (fun _ act => Act.activates 0 act) runStart
    (requestFirst ++ [.machine (.recv 1), .close]) = some s ∧
      s.owner = .joining ∧ s.fdsOpen = true ∧ s.Mapped gateRuntime .buffer ∧
      ∀ r ∈ [(⟨0, 4, 128⟩ : Region)], r.Inside (gateRuntime.area gateGguf 36 2 0 .buffer) := by
  have hrun : (exec (Lifetime.step gateRuntime) (fun _ act => Act.activates 0 act) runStart
      (requestFirst ++ [.machine (.recv 1), .close])).map
      (fun s => (s.owner, s.machine.io.workers[1]?)) =
        some (.joining, some (.busy ⟨0, [⟨0, 4, 128⟩], .buffer, []⟩)) := by decide +kernel
  obtain ⟨s, hs, heq⟩ := Option.map_eq_some_iff.mp hrun
  simp only [Prod.mk.injEq] at heq
  exact ⟨s, hs, heq.1, Lifetime.reads_safe ⟨rfl, rfl⟩ (by decide) gateRuntime_built
    (Reaches.exec (fun _ _ => id) .refl hs) (by simp [heq.1]) heq.2 (by decide)⟩

/-- Where experts are streamed, the first node of a layer is loaded into the buffer, although
that is unmapped. -/
theorem coldStart_unmapped : ∃ s j, exec (Lifetime.step expertRuntime)
    (fun _ act => Act.activates 0 act) (.start expertRuntime (.new 2 2) (some (.new 8 4)) 1 true)
    ([.event (.ask 0), .thread, .thread, .thread, .recv 0].map .machine) = some s ∧
      s.machine.io.workers[0]? = some (.busy j) ∧ j.payload.regions ≠ [] ∧
      ¬ s.Mapped expertRuntime j.payload.base := by
  have hrun : (exec (Lifetime.step expertRuntime) (fun _ act => Act.activates 0 act)
      (.start expertRuntime (.new 2 2) (some (.new 8 4)) 1 true)
      ([.event (.ask 0), .thread, .thread, .thread, .recv 0].map .machine)).map
      (fun s => s.machine.io.workers[0]?) =
        some (some (.busy ⟨0, [⟨0, 4, 128⟩], .buffer, []⟩)) := by decide +kernel
  obtain ⟨s, hs, heq⟩ := Option.map_eq_some_iff.mp hrun
  refine ⟨s, _, hs, heq, by simp, fun hmapped => ?_⟩
  exact absurd hmapped.1.1 (by decide)

/-- The pool is closed while the task is still in the queue. -/
theorem requestFirst_ends : ∃ s, exec (Lifetime.step gateRuntime) (fun _ _ => true) runStart
    (requestFirst ++ [.close]) = some s ∧ s.machine.io.queue.length = 1 ∧
      EndsIn (Lifetime.Goes gateRuntime) (fun s' => s'.Over ∧
        s'.saved = if s.leaked = 0 then s.toSave else none) s := by
  have hrun : (exec (Lifetime.step gateRuntime) (fun _ _ => true) runStart
      (requestFirst ++ [.close])).map
      (fun s => (s.owner, s.machine.io.queue.length)) = some (.joining, 1) := by decide +kernel
  obtain ⟨s, hs, heq⟩ := Option.map_eq_some_iff.mp hrun
  simp only [Prod.mk.injEq] at heq
  exact ⟨s, hs, heq.2, Lifetime.shutdown_ends ⟨rfl, rfl⟩ (by decide)
    (Reaches.exec (fun _ _ _ => trivial) .refl hs) (.inl heq.1)⟩

/-- An error is returned, the model is dropped, and then a worker reads into its buffer. -/
theorem requestFirst_left : ∃ s, exec (Lifetime.step gateRuntime) (fun _ _ => true) runStart
    (requestFirst ++ [.fail, .dropHandle, .dropModel, .machine (.recv 0), .machine (.pread 0 4)]) =
      some s ∧ (s.model = false ∧ s.machine.preads = [(0, ⟨0, 4, 128⟩, 4)]) ∧
      (s.returned = ∅ ∧ s.dropped = false ∧ s.saved = none) ∧
      EndsIn (Lifetime.Goes gateRuntime) (fun s' => s'.AtRest ∧ s'.returned = ∅ ∧
        s'.dropped = false ∧ s'.handle = false ∧ s'.model = false) s := by
  have hrun : (exec (Lifetime.step gateRuntime) (fun _ _ => true) runStart
      (requestFirst ++ [.fail, .dropHandle, .dropModel, .machine (.recv 0),
        .machine (.pread 0 4)])).map
      (fun s => (s.owner, s.model, s.machine.preads)) =
        some (.failed, false, [(0, ⟨0, 4, 128⟩, 4)]) := by decide +kernel
  obtain ⟨s, hs, heq⟩ := Option.map_eq_some_iff.mp hrun
  simp only [Prod.mk.injEq] at heq
  exact ⟨s, hs, heq.2, Lifetime.failed_left ⟨rfl, rfl⟩ (by decide)
    (Reaches.exec (fun _ _ _ => trivial) .refl hs) heq.1⟩

end Hypura
