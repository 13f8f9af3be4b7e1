import Hypura.Compute.DenseStep
import Hypura.Compute.RouterChoice
import Hypura.Compute.StandardMode
import Hypura.Compute.ThreadTurn

/-!
# Hypura.Compute.Waits

What the inference thread waits for, in any mode.

* `Loading.Promised` — a layer whose status is `Loading` has a load to come: one that was
  announced, or one in the pool. Streaming modes reset the status of a layer whose load is
  still in the pool and load it again, so there may be several,
* `Stage` — where the thread is inside a callback,
* `Prompt` — the thread sleeps only while a layer is loading, with all of its tasks sent;
  so a worker has something to do, and wakes it in the end.
-/

namespace Hypura

open Hypura.Core Hypura.Core.Countdown

namespace Machine

/-- A load of dense FFN tensors stays one that has some tensor to read. -/
theorem PoolStep.grounded {rt : Runtime} {m m' : Machine} {lab : Label} (h : PoolStep rt m lab m')
    (hm : ∀ op ∈ m.pending, op.Grounded rt) : ∀ op ∈ m'.pending, op.Grounded rt := by
  intro op hop
  cases h with
  | still h => exact (h.ops op hop).elim (hm op) id
  | submit h => exact (h.ops op hop).elim (hm op) id
  | nothing _ _ h _ => exact (h.ops op hop).elim (hm op) id
  | send _ => exact hm op hop
  | recv _ => exact hm op hop
  | pread h =>
      obtain ⟨j, r, rs, _, io, -, -, -, -, rfl⟩ := preadStep_spec h
      exact hm op hop
  | finish h =>
      obtain ⟨j, io, -, -, -, rfl⟩ := finishStep_spec h
      exact hm op hop
  | fire h =>
      obtain ⟨b, tag, io, -, -, -, rfl⟩ := fireStep_spec h
      refine hm op ?_
      split at hop
      · exact hop
      · exact hop

end Machine

/-! ### Promises of a load -/

namespace Loading
variable {τ : Type} {s s' : Loading τ} {l : Nat}

structure Promised (s : Loading τ) : Prop where
  balanced : s.io.Balanced
  loading : ∀ l, s.status l = .loading → s.submitting = some l ∨ ∃ b, LiveLoad s.io l b

namespace Promised

/-- No layer begins to load. -/
theorem keep (h : s.Promised) (hio : s'.io = s.io)
    (hst : ∀ l, s'.status l = .loading → s.status l = .loading)
    (hsub : ∀ l, s.submitting = some l → s'.status l = .loading → s'.submitting = some l) :
    s'.Promised where
  balanced := hio ▸ h.balanced
  loading l hl := by
    rw [hio]
    exact (h.loading l (hst l hl)).imp_left fun hs => hsub l hs hl

/-- Jobs are sent, received, worked on or finished. -/
theorem quiet (h : s.Promised) (hio : Pool.Quiet s.io s'.io) (hst : s'.status = s.status)
    (hsub : s'.submitting = s.submitting) : s'.Promised where
  balanced := hio.balanced h.balanced
  loading l hl := by
    rw [hst] at hl
    rw [hsub]
    exact (h.loading l hl).imp_right fun ⟨b, hb⟩ => ⟨b, (liveLoad_quiet hio).mpr hb⟩

theorem announce (h : s.Promised) (hnone : s.submitting = none) (hio : s'.io = s.io)
    (hst : s'.status = Function.update s.status l .loading) (hsub : s'.submitting = some l) :
    s'.Promised where
  balanced := hio ▸ h.balanced
  loading k hk := by
    rw [hst] at hk
    by_cases hkl : k = l
    · exact .inl (hkl ▸ hsub)
    · rw [Function.update_of_ne hkl] at hk
      rw [hio]
      exact .inr ((h.loading k hk).resolve_left (by simp [hnone]))

/-- A batch is opened; what began to load, or was announced, is loaded by it. -/
theorem opens (h : s.Promised) {c : IoCompletion} {tasks : List τ} (hne : tasks ≠ [])
    (hio : s'.io = s.io.openBatch c tasks)
    (hst : ∀ l, s'.status l = .loading →
      s.status l = .loading ∧ s.submitting ≠ some l ∨ c = ⟨l, true⟩) : s'.Promised where
  balanced := hio ▸ h.balanced.openBatch c hne
  loading k hk := by
    rw [hio]
    rcases hst k hk with ⟨hold, hsub⟩ | hnew
    · obtain ⟨b, hb⟩ := (h.loading k hold).resolve_left hsub
      exact .inr ⟨b, (liveLoad_openBatch h.balanced).mpr (.inr hb)⟩
    · exact .inr ⟨_, (liveLoad_openBatch h.balanced).mpr (.inl ⟨rfl, hnew⟩)⟩

/-- A completion fires: its layer is loading no more. -/
theorem fire (h : s.Promised) {w b : Nat} {c : IoCompletion}
    (hw : s.io.workers[w]? = some (.firing b)) (htag : s.io.tag? b = some c)
    (hf : s.io.fire w = some s'.io) (hsub : s'.submitting = s.submitting)
    (hst : s'.status = if c.updateStatus then Function.update s.status c.layerIdx .loaded
      else s.status) : s'.Promised where
  balanced := h.balanced.fire hf
  loading k hk := by
    rw [hst] at hk
    -- a live load of another layer, or of a layer that the batch does not report
    have hother : c ≠ ⟨k, true⟩ ∧ s.status k = .loading := by
      obtain ⟨l, u⟩ := c
      cases u with
      | false => exact ⟨by simp, hk⟩
      | true =>
          have hne : k ≠ l := fun heq => by
            rw [heq] at hk
            simp at hk
          rw [if_pos rfl, Function.update_of_ne hne] at hk
          exact ⟨by simpa using Ne.symm hne, hk⟩
    rw [hsub]
    refine (h.loading k hother.2).imp_right fun ⟨b', hb'⟩ => ⟨b', ?_⟩
    refine (liveLoad_fire hf hw).mpr ⟨hb', fun heq => hother.1 ?_⟩
    rw [heq] at hb'
    exact Option.some.inj (htag.symm.trans hb'.1)

end Promised

end Loading

namespace Machine

/-! ### The thread inside a callback -/

/-- Where the inference thread is, by the operations left. -/
inductive Stage (m : Machine) : List Op → Prop
  | last (hsent : m.io.unsent = []) : Stage m []
  | runs {op : Op} {ops : List Op} (hop : op.Runs) (hops : ∀ o ∈ ops, o.Runs)
      (hawait : m.await = none) (hsent : m.io.unsent = []) : Stage m (op :: ops)
  | ensures {op : Op} (hop : op.Ensures) (hawait : m.await = none) (hsent : m.io.unsent = []) :
      Stage m [op]
  | submit {l : Nat} {ops : List Op} (hops : ∀ o ∈ ops, o.Runs)
      (hawait : m.await ≠ none → ops = []) (hsent : m.io.unsent = []) :
      Stage m (.submitLayer l :: ops)
  | send {ops : List Op} (hops : ∀ o ∈ ops, o.Runs) (hawait : m.await ≠ none → ops = []) :
      Stage m (.send :: ops)
  | sendResident {n : Nat} (hawait : m.await = none) : Stage m [.send, .awaitResident n]
  | resident {n : Nat} (hawait : m.await = none) (hsent : m.io.unsent = []) :
      Stage m [.awaitResident n]

/-- The layer that the thread looks at next. -/
def LooksAt (rt : Runtime) (m : Machine) (l : Nat) : Prop :=
  m.pending = [.ensureLayer l] ∨
    (∃ n, m.pending = [.awaitResident n]) ∧ l = sentinelLayer rt.config ∨
      m.pending = [] ∧ m.await = some l

structure Prompt (rt : Runtime) (m : Machine) : Prop where
  stage : m.Stage m.pending
  grounded : ∀ op ∈ m.pending, op.Grounded rt
  promised : m.loading.Promised
  /-- The load waited for at the end of the callback is under way, or done. -/
  awaited : ∀ l, m.await = some l → m.layerStatus l ≠ .notLoaded
  /-- So is that of the resident layers. -/
  resident : ∀ n, .awaitResident n ∈ m.pending →
    m.layerStatus (sentinelLayer rt.config) ≠ .notLoaded
  asleep : m.asleep = true → ∃ l, m.layerStatus l = .loading ∧ m.LooksAt rt l
  workers : 0 < m.io.workers.length

section Prompt
variable {rt : Runtime} {m m' : Machine} {l : Nat} {op : Op} {ops : List Op}

/-- With nothing left to send, requests or the wait are left. -/
theorem Stage.of_sent (hops : ∀ o ∈ ops, o.Runs) (hawait : m.await ≠ none → ops = [])
    (hsent : m.io.unsent = []) : m.Stage ops := by
  cases ops with
  | nil => exact .last hsent
  | cons op ops =>
      obtain ⟨hop, hops⟩ := List.forall_mem_cons.mp hops
      refine .runs hop hops ?_ hsent
      by_contra hne
      cases hawait hne

theorem Stage.of_same (h : m.Stage ops) (hawait : m'.await = m.await)
    (hunsent : m'.io.unsent = m.io.unsent) : m'.Stage ops := by
  cases h with
  | last hsent => exact .last (hunsent ▸ hsent)
  | runs hop hops ha hsent => exact .runs hop hops (hawait ▸ ha) (hunsent ▸ hsent)
  | ensures hop ha hsent => exact .ensures hop (hawait ▸ ha) (hunsent ▸ hsent)
  | submit hops ha hsent => exact .submit hops (hawait ▸ ha) (hunsent ▸ hsent)
  | send hops ha => exact .send hops (hawait ▸ ha)
  | sendResident ha => exact .sendResident (hawait ▸ ha)
  | resident ha hsent => exact .resident (hawait ▸ ha) (hunsent ▸ hsent)

/-- Before an operation that makes a request or makes sure of a layer, the thread waits for
nothing and has nothing to send. -/
theorem Stage.settled (h : m.Stage (op :: ops)) (hop : op.Runs ∨ op.Ensures) :
    (∀ o ∈ ops, o.Runs) ∧ m.await = none ∧ m.io.unsent = [] ∧ (op.Ensures → ops = []) := by
  cases h with
  | runs hruns hops hawait hsent =>
      refine ⟨hops, hawait, hsent, fun hensures => ?_⟩
      cases op <;> first | exact absurd hruns id | exact absurd hensures id
  | ensures _ hawait hsent => exact ⟨by simp, hawait, hsent, fun _ => rfl⟩
  | submit => exact absurd hop (by simp [Op.Runs, Op.Ensures])
  | send => exact absurd hop (by simp [Op.Runs, Op.Ensures])
  | sendResident => exact absurd hop (by simp [Op.Runs, Op.Ensures])
  | resident => exact absurd hop (by simp [Op.Runs, Op.Ensures])

theorem submitting_of_settled (hpending : m.pending = op :: ops) (hop : op.Runs ∨ op.Ensures) :
    m.submitting = none := by
  rw [submitting, hpending]
  cases op with
  | submitLayer => exact absurd hop (by simp [Op.Runs, Op.Ensures])
  | _ => rfl

namespace Prompt

theorem balanced (h : m.Prompt rt) : m.io.Balanced := h.promised.balanced

/-! ### Operations -/

/-- Where what is left of the callback waits for nothing. -/
theorem of_runs (h : m.Prompt rt) (hpromised : m'.loading.Promised)
    (hpending : ∀ o ∈ m'.pending, o.Runs) (hground : ∀ o ∈ m'.pending, o.Grounded rt)
    (hawait : m'.await = none) (hsent : m'.io.unsent = []) (hasleep : m'.asleep = false)
    (hworkers : m'.io.workers.length = m.io.workers.length) : m'.Prompt rt where
  stage := .of_sent hpending (by simp [hawait]) hsent
  grounded := hground
  promised := hpromised
  awaited l hl := by simp [hawait] at hl
  resident n hn := absurd (hpending _ hn) id
  asleep hs := by simp [hasleep] at hs
  workers := hworkers ▸ h.workers

/-- A request, or a check that ends the callback. -/
theorem settle (h : m.Prompt rt) (hawake : m.asleep = false) (hpending : m.pending = op :: ops)
    (hop : op.Runs ∨ op.Ensures) {new : List Op} (hground : ∀ o ∈ m'.pending, o.Grounded rt)
    (hio : m'.io = m.io) (hawait : m'.await = m.await) (hasleep : m'.asleep = m.asleep)
    (hst : ∀ l, m'.layerStatus l = .loading → m.layerStatus l = .loading)
    (hpending' : m'.pending = new ++ ops) (hnew : ∀ o ∈ new, o.Runs) : m'.Prompt rt := by
  obtain ⟨hops, hnone, hsent, -⟩ := (hpending ▸ h.stage).settled hop
  refine h.of_runs (h.promised.keep hio hst fun l hl => ?_) ?_ hground (hawait.trans hnone)
    (hio ▸ hsent) (hasleep.trans hawake) (by rw [hio])
  · change m.submitting = some l at hl
    simp [submitting_of_settled hpending hop] at hl
  · rw [hpending']
    intro o ho
    exact (List.mem_append.mp ho).elim (hnew o) (hops o)

/-- A load is announced. -/
theorem announce (h : m.Prompt rt) (hawake : m.asleep = false) (hpending : m.pending = op :: ops)
    {await : Option Nat}
    (hop : op = .requestLayer l ∧ await = m.await ∨ op = .ensureLayer l ∧ await = some l)
    (hground : ∀ o ∈ .submitLayer l :: ops, o.Grounded rt) :
    { m.setStatus l .loading with
      pending := .submitLayer l :: ops, await := await }.Prompt rt := by
  have hclass : op.Runs ∨ op.Ensures := by
    rcases hop with ⟨rfl, -⟩ | ⟨rfl, -⟩
    · exact .inl trivial
    · exact .inr trivial
  obtain ⟨hops, hnone, hsent, hlast⟩ := (hpending ▸ h.stage).settled hclass
  have hawait : await = none ∨ await = some l ∧ ops = [] := by
    rcases hop with ⟨-, rfl⟩ | ⟨rfl, rfl⟩
    · exact .inl hnone
    · exact .inr ⟨rfl, hlast trivial⟩
  constructor
  · refine .submit hops (fun hne => ?_) hsent
    exact (hawait.resolve_left hne).2
  · exact hground
  · exact h.promised.announce (submitting_of_settled hpending hclass) rfl rfl rfl
  · intro k hk
    obtain ⟨hsome, -⟩ := hawait.resolve_left (by simp at hk; simp [hk])
    obtain rfl : l = k := Option.some.inj (hsome.symm.trans hk)
    simp [setStatus]
  · intro n hn
    exact absurd (hops _ ((List.mem_cons.mp hn).resolve_left (by simp))) id
  · intro hs
    exact absurd (hawake.symm.trans hs) (by simp)
  · exact h.workers

/-- The load announced turns out to have nothing to read. -/
theorem nothing (h : m.Prompt rt) (hpending : m.pending = .submitLayer l :: ops)
    (hsame : (m.storeLoaded l).SameLoads m') (hpending' : m'.pending = ops)
    (hground : ∀ o ∈ m'.pending, o.Grounded rt) : m'.Prompt rt := by
  have hstage : m.Stage (.submitLayer l :: ops) := hpending ▸ h.stage
  obtain ⟨hops, hawait, hsent⟩ : (∀ o ∈ ops, o.Runs) ∧ (m.await ≠ none → ops = []) ∧
      m.io.unsent = [] := by
    cases hstage with
    | runs hop => exact absurd hop id
    | ensures hop => exact absurd hop id
    | submit hops hawait hsent => exact ⟨hops, hawait, hsent⟩
  have hstatus : m'.layerStatus = Function.update m.layerStatus l .loaded := hsame.status
  have hio : m'.io = m.io := hsame.io
  have haw : m'.await = m.await := hsame.await
  constructor
  · rw [hpending']
    exact .of_sent hops (haw ▸ hawait) (hio ▸ hsent)
  · exact hground
  · refine h.promised.keep hio (fun k hk => ?_) (fun k hk hk' => ?_)
    · change m'.layerStatus k = .loading at hk
      show m.layerStatus k = .loading
      by_cases hkl : k = l
      · simp [hstatus, hkl] at hk
      · simpa [hstatus, hkl] using hk
    · -- what was announced is the layer that is now loaded
      change m.submitting = some k at hk
      obtain rfl : l = k := by simpa [submitting, hpending] using hk
      change m'.layerStatus l = .loading at hk'
      simp [hstatus] at hk'
  · intro k hk
    rw [haw] at hk
    by_cases hkl : k = l
    · simp [hstatus, hkl]
    · simpa [hstatus, hkl] using h.awaited k hk
  · intro n hn
    rw [hpending'] at hn
    exact absurd (hops _ hn) id
  · intro hs
    rw [hsame.asleep] at hs
    cases hs
  · rw [hio]
    exact h.workers

/-- A batch is submitted: whose it is says where the thread is after it. -/
theorem submit (h : m.Prompt rt) (hawake : m.asleep = false) (hpending : m.pending = op :: ops)
    {c : IoCompletion} {status : Nat → LayerStatus} {await : Option Nat}
    (hop : Submission m op c status await) (hopens : { m with pending := ops }.Opens c status await m')
    (hground : ∀ o ∈ m'.pending, o.Grounded rt) : m'.Prompt rt := by
  obtain ⟨⟨tasks, hne, hio⟩, hpending', hstatus, hawait', hasleep⟩ := hopens
  have hstage : m.Stage (op :: ops) := hpending ▸ h.stage
  obtain ⟨hops, hawait⟩ : (∀ o ∈ ops, o.Runs) ∧ (await ≠ none → ops = []) := by
    cases hop with
    | announced l =>
        cases hstage with
        | runs hop => exact absurd hop id
        | ensures hop => exact absurd hop id
        | submit hops hawait _ => exact ⟨hops, hawait⟩
    | slices l ids =>
        obtain ⟨hops, hnone, -⟩ := hstage.settled (.inl trivial)
        exact ⟨hops, fun hne => absurd hnone hne⟩
    | ahead l =>
        obtain ⟨hops, hnone, -⟩ := hstage.settled (.inl trivial)
        exact ⟨hops, fun hne => absurd hnone hne⟩
    | experts l ids =>
        obtain ⟨hops, -, -, hlast⟩ := hstage.settled (.inr trivial)
        exact ⟨hops, fun _ => hlast trivial⟩
    | dense l =>
        obtain ⟨hops, -, -, hlast⟩ := hstage.settled (.inr trivial)
        exact ⟨hops, fun _ => hlast trivial⟩
  -- a layer that is loading now was loading before, or is the one submitted
  have hloading : ∀ k, status k = .loading →
      m.layerStatus k = .loading ∧ m.submitting ≠ some k ∨ c = ⟨k, true⟩ := by
    have hupdate : ∀ l k, m.submitting = none →
        Function.update m.layerStatus l .loading k = .loading →
        m.layerStatus k = .loading ∧ m.submitting ≠ some k ∨
          (⟨l, true⟩ : IoCompletion) = ⟨k, true⟩ := by
      intro l k hnone hk
      by_cases hkl : k = l
      · simp [hkl]
      · rw [Function.update_of_ne hkl] at hk
        exact .inl ⟨hk, by simp [hnone]⟩
    intro k hk
    cases hop with
    | announced l =>
        by_cases hkl : l = k
        · simp [hkl]
        · exact .inl ⟨hk, by simpa [submitting, hpending] using hkl⟩
    | slices l ids =>
        exact .inl ⟨hk, by simp [submitting_of_settled hpending (.inl trivial)]⟩
    | ahead l => exact hupdate l k (submitting_of_settled hpending (.inl trivial)) hk
    | experts l ids => exact hupdate l k (submitting_of_settled hpending (.inr trivial)) hk
    | dense l => exact hupdate l k (submitting_of_settled hpending (.inr trivial)) hk
  constructor
  · rw [hpending']
    exact .send hops (hawait' ▸ hawait)
  · exact hground
  · exact h.promised.opens hne hio fun k hk => hloading k (hstatus ▸ hk)
  · intro k hk
    rw [hawait'] at hk
    rw [hstatus]
    cases hop with
    | announced l => exact h.awaited k hk
    | slices l ids => exact h.awaited k hk
    | ahead l =>
        by_cases hkl : k = l
        · simp [hkl]
        · simpa [hkl] using h.awaited k hk
    | experts l ids =>
        obtain rfl : l = k := Option.some.inj hk
        simp
    | dense l =>
        obtain rfl : l = k := Option.some.inj hk
        simp
  · intro n hn
    rw [hpending'] at hn
    exact absurd (hops _ ((List.mem_cons.mp hn).resolve_left (by simp))) id
  · intro hs
    rw [hasleep] at hs
    exact absurd (hawake.symm.trans hs) (by simp)
  · rw [hio]
    exact h.workers

theorem send (h : m.Prompt rt) (hawake : m.asleep = false) (hpending : m.pending = .send :: ops)
    {io : IoPool} (hio : m.io.send = some io) : { m with io := io }.Prompt rt := by
  have hquiet := Pool.send_quiet hio
  constructor
  · show Stage { m with io := io } m.pending
    have hstage : m.Stage (.send :: ops) := hpending ▸ h.stage
    rw [hpending]
    cases hstage with
    | runs hop => exact absurd hop id
    | ensures hop => exact absurd hop id
    | send hops hawait => exact .send hops hawait
    | sendResident hawait => exact .sendResident hawait
  · exact h.grounded
  · exact h.promised.quiet hquiet rfl rfl
  · exact h.awaited
  · exact h.resident
  · exact fun hs => absurd (hawake.symm.trans hs) (by simp)
  · exact hquiet.length_workers ▸ h.workers

theorem sent (h : m.Prompt rt) (hawake : m.asleep = false) (hpending : m.pending = .send :: ops)
    (hsent : m.io.unsent = []) : { m with pending := ops }.Prompt rt := by
  constructor
  · show Stage { m with pending := ops } ops
    have hstage : m.Stage (.send :: ops) := hpending ▸ h.stage
    cases hstage with
    | runs hop => exact absurd hop id
    | ensures hop => exact absurd hop id
    | send hops hawait => exact .of_sent hops hawait hsent
    | sendResident hawait => exact .resident hawait hsent
  · exact fun o ho => h.grounded o (hpending ▸ List.mem_cons_of_mem _ ho)
  · refine h.promised.keep rfl (fun _ => id) fun k hk => ?_
    change m.submitting = some k at hk
    simp [submitting, hpending] at hk
  · exact h.awaited
  · exact fun n hn => h.resident n (hpending ▸ List.mem_cons_of_mem _ hn)
  · exact fun hs => absurd (hawake.symm.trans hs) (by simp)
  · exact h.workers

/-- The thread goes to sleep, looking at a layer that is loading. -/
theorem sleep (h : m.Prompt rt) (hl : m.layerStatus l = .loading) (hlooks : m.LooksAt rt l) :
    { m with asleep := true }.Prompt rt where
  stage := h.stage.of_same rfl rfl
  grounded := h.grounded
  promised := h.promised
  awaited := h.awaited
  resident := h.resident
  asleep _ := ⟨l, hl, hlooks⟩
  workers := h.workers

/-- The resident layers are loaded, or one status is reset. -/
theorem reset (h : m.Prompt rt) (hawake : m.asleep = false) (hpending : m.pending = op :: ops)
    (hop : op = .resetStatus l ∨ ∃ n, op = .awaitResident n)
    (hsame : (m.setStatus l .notLoaded).SameLoads m') (hpending' : m'.pending = ops)
    (hground : ∀ o ∈ m'.pending, o.Grounded rt) : m'.Prompt rt := by
  have hstage : m.Stage (op :: ops) := hpending ▸ h.stage
  obtain ⟨hops, hnone, hsent⟩ : (∀ o ∈ ops, o.Runs) ∧ m.await = none ∧ m.io.unsent = [] := by
    rcases hop with rfl | ⟨n, rfl⟩
    · obtain ⟨hops, hnone, hsent, -⟩ := hstage.settled (.inl trivial)
      exact ⟨hops, hnone, hsent⟩
    · cases hstage with
      | runs hop => exact absurd hop id
      | ensures hop => exact absurd hop id
      | resident hawait hsent => exact ⟨by simp, hawait, hsent⟩
  have hsub : m.submitting = none := by
    rcases hop with rfl | ⟨n, rfl⟩ <;> simp [submitting, hpending]
  have hio : m'.io = m.io := hsame.io
  refine h.of_runs (h.promised.keep hio (fun k hk => ?_) fun k hk => ?_) (hpending' ▸ hops) hground
    (hsame.await.trans hnone) (hio ▸ hsent) (hsame.asleep.trans hawake) (by rw [hio])
  · change m'.layerStatus k = .loading at hk
    show m.layerStatus k = .loading
    by_cases hkl : k = l
    · simp [hsame.status, setStatus, hkl] at hk
    · simpa [hsame.status, setStatus, hkl] using hk
  · change m.submitting = some k at hk
    simp [hsub] at hk

/-! ### Steps of the thread -/

theorem turn (h : m.Prompt rt) (hawake : m.asleep = false) (hpending : m.pending = op :: ops)
    (ht : Turn rt m op ops m') (hground : ∀ o ∈ m'.pending, o.Grounded rt) : m'.Prompt rt := by
  cases ht with
  | rest hop hsame hpending' hnew _ =>
      exact h.settle hawake hpending hop hground hsame.io hsame.await hsame.asleep
        (fun l hl => hsame.status ▸ hl) hpending' hnew
  | @check l hop =>
      subst hop
      obtain ⟨-, hnone, hsent, hlast⟩ := (hpending ▸ h.stage).settled (.inr trivial)
      obtain rfl := hlast trivial
      have hrest : { m with pending := [.loadDenseFfn l] }.loading.Promised :=
        h.promised.keep rfl (fun _ => id) fun k hk => by
          change m.submitting = some k at hk
          simp [submitting, hpending] at hk
      exact ⟨.ensures trivial hnone hsent, hground, hrest, h.awaited, by simp,
        fun hs => absurd (hawake.symm.trans hs) (by simp), h.workers⟩
  | reset hop hsame hpending' => exact h.reset hawake hpending hop hsame hpending' hground
  | announce _ hop => exact h.announce hawake hpending hop hground
  | nothing hop hsame hpending' => exact h.nothing (hop ▸ hpending) hsame hpending' hground
  | submit hop hopens => exact h.submit hawake hpending hop hopens hground
  | send hop hio => exact h.send hawake (hop ▸ hpending) hio
  | sent hop hsent => exact h.sent hawake (hop ▸ hpending) hsent
  | @sleep l hop hl =>
      subst hop
      obtain ⟨-, -, -, hlast⟩ := (hpending ▸ h.stage).settled (.inr trivial)
      exact h.sleep hl (.inl (by rw [hpending, hlast trivial]))
  | @sleepResident n hop hl =>
      subst hop
      have hlast : ops = [] := by
        have hstage : m.Stage (.awaitResident n :: ops) := hpending ▸ h.stage
        cases hstage with
        | runs hop => exact absurd hop id
        | ensures hop => exact absurd hop id
        | resident => rfl
      -- its load was submitted when the callback began
      have hnot := h.resident n (by simp [hpending])
      have hloading : m.layerStatus (sentinelLayer rt.config) = .loading := by
        cases hst : m.layerStatus (sentinelLayer rt.config) with
        | loaded => exact absurd hst hl
        | notLoaded => exact absurd hst hnot
        | loading => rfl
      exact h.sleep hloading (.inr (.inl ⟨⟨n, by rw [hpending, hlast]⟩, rfl⟩))

/-- At the wait: the load has come, or the thread goes to sleep. -/
theorem wait (h : m.Prompt rt) (hawake : m.asleep = false) (hpending : m.pending = [])
    (hawait : m.await = some l) (hlook : m.layerStatus l = .loaded ∧ m' = { m with await := none } ∨
      m.layerStatus l ≠ .loaded ∧ m' = { m with asleep := true }) : m'.Prompt rt := by
  have hsent : m.io.unsent = [] := by
    have hstage : m.Stage [] := hpending ▸ h.stage
    cases hstage with
    | last hsent => exact hsent
  rcases hlook with ⟨-, rfl⟩ | ⟨hl, rfl⟩
  · exact h.of_runs h.promised (by simp [hpending]) (by simp [hpending]) rfl hsent hawake rfl
  · have hnot := h.awaited l hawait
    refine h.sleep (l := l) ?_ (.inr (.inr ⟨hpending, hawait⟩))
    cases hst : m.layerStatus l with
    | loaded => exact absurd hst hl
    | notLoaded => exact absurd hst hnot
    | loading => rfl

theorem threadStep (h : m.Prompt rt) (hrt : rt.Loads) (hstep : m.threadStep rt = some m')
    (hground : ∀ o ∈ m'.pending, o.Grounded rt) : m'.Prompt rt := by
  obtain ⟨hawake, ⟨op, ops, hpending, hexec⟩ | ⟨hpending, l, hawait, hlook⟩⟩ := threadStep_cases hstep
  · have hop := h.grounded op (by simp [hpending])
    exact h.turn hawake hpending (turn_exec hrt hop hpending hexec) hground
  · exact h.wait hawake hpending hawait hlook

/-! ### Steps of the workers -/

/-- A step that at most stores `Loaded` somewhere and notifies. -/
theorem worker (h : m.Prompt rt) (hpromised : m'.loading.Promised) (hpending : m'.pending = m.pending)
    (hawait : m'.await = m.await) (hunsent : m'.io.unsent = m.io.unsent)
    (hst : ∀ l, m'.layerStatus l = m.layerStatus l ∨ m'.layerStatus l = .loaded)
    (hasleep : m'.asleep = true → m.asleep = true ∧ m'.layerStatus = m.layerStatus)
    (hworkers : m'.io.workers.length = m.io.workers.length) : m'.Prompt rt := by
  have hkept : ∀ {l}, m.layerStatus l ≠ .notLoaded → m'.layerStatus l ≠ .notLoaded := by
    intro l hl
    rcases hst l with hs | hs
    · rwa [hs]
    · simp [hs]
  constructor
  · exact hpending ▸ h.stage.of_same hawait hunsent
  · exact fun o ho => h.grounded o (hpending ▸ ho)
  · exact hpromised
  · exact fun l hl => hkept (h.awaited l (hawait ▸ hl))
  · exact fun n hn => hkept (h.resident n (hpending ▸ hn))
  · intro hs
    obtain ⟨hslept, hsame⟩ := hasleep hs
    obtain ⟨l, hl, hlooks⟩ := h.asleep hslept
    refine ⟨l, hsame ▸ hl, ?_⟩
    unfold LooksAt
    rwa [hpending, hawait]
  · exact hworkers ▸ h.workers

theorem quiet (h : m.Prompt rt) (hio : Pool.Quiet m.io m'.io) (hpending : m'.pending = m.pending)
    (hawait : m'.await = m.await) (hunsent : m'.io.unsent = m.io.unsent)
    (hst : m'.layerStatus = m.layerStatus) (hasleep : m'.asleep = m.asleep) : m'.Prompt rt :=
  h.worker (h.promised.quiet hio hst (by simp [loading, submitting, hpending])) hpending hawait
    hunsent (fun l => .inl (congrFun hst l)) (fun hs => ⟨hasleep ▸ hs, hst⟩) hio.length_workers

theorem fireStep (h : m.Prompt rt) {w : Nat} (hstep : m.fireStep w = some m') : m'.Prompt rt := by
  obtain ⟨b, tag, io, hw, htag, hio, rfl⟩ := fireStep_spec hstep
  obtain ⟨-, -, -, -, -, -, hunsent, hworkers⟩ := Pool.fire_spec hio
  have hpromised : ∀ {m₁ : Machine}, m₁.io = io → m₁.pending = m.pending →
      m₁.layerStatus = (if tag.updateStatus then
        Function.update m.layerStatus tag.layerIdx .loaded else m.layerStatus) →
      m₁.loading.Promised := by
    intro m₁ hio₁ hpending hst
    exact Loading.Promised.fire h.promised hw htag (by rw [← hio₁] at hio; exact hio)
      (by simp [loading, submitting, hpending]) hst
  cases hupdate : tag.updateStatus with
  | true =>
      rw [if_pos rfl]
      refine h.worker (hpromised rfl rfl (by rw [hupdate]; rfl)) rfl rfl hunsent (fun l => ?_)
        (fun hs => by cases hs) hworkers
      show Function.update m.layerStatus tag.layerIdx .loaded l = _ ∨ _
      by_cases hl : l = tag.layerIdx
      · subst hl
        exact .inr (Function.update_self ..)
      · exact .inl (Function.update_of_ne hl ..)
  | false =>
      rw [if_neg (by simp)]
      exact h.worker (hpromised rfl rfl (by rw [hupdate]; rfl)) rfl rfl hunsent (fun _ => .inl rfl)
        (fun hs => ⟨hs, rfl⟩) hworkers

end Prompt

/-! ### Events -/

/-- An event leaves requests to make, or a layer to make sure of; none begins to load. -/
structure Begins (m m' : Machine) : Prop where
  io : m'.io = m.io
  await : m'.await = m.await
  asleep : m'.asleep = m.asleep
  loading : ∀ l, m'.layerStatus l = .loading → m.layerStatus l = .loading
  pending : (∀ o ∈ m'.pending, o.Runs) ∨ ∃ o : Op, o.Ensures ∧ m'.pending = [o]

theorem loading_of_reset {status : Nat → LayerStatus} {k : Nat}
    (h : Function.update status l .notLoaded k = .loading) : status k = .loading := by
  by_cases hk : k = l
  · simp [hk] at h
  · simpa [hk] using h

theorem releaseLayer_begins (hpending : ∀ o ∈ m.pending, o.Runs) :
    Begins m (m.releaseLayer rt l) := by
  unfold releaseLayer
  split
  · exact ⟨rfl, rfl, rfl, fun _ => id, .inl hpending⟩
  · exact ⟨rfl, rfl, rfl, fun _ => loading_of_reset, .inl hpending⟩

/-- The event comes to nothing but what is asked for and what is to be done. -/
theorem Begins.of_pending {m₁ : Machine} (h : Begins m m₁) (hio : m'.io = m₁.io)
    (hawait : m'.await = m₁.await) (hasleep : m'.asleep = m₁.asleep)
    (hst : m'.layerStatus = m₁.layerStatus)
    (hpending : (∀ o ∈ m'.pending, o.Runs) ∨ ∃ o : Op, o.Ensures ∧ m'.pending = [o]) :
    Begins m m' :=
  ⟨hio.trans h.io, hawait.trans h.await, hasleep.trans h.asleep, fun l hl => h.loading l (hst ▸ hl),
    hpending⟩

theorem askCallback_begins (hnil : m.pending = []) (h : m.askCallback rt l = some m') :
    Begins m m' := by
  have hrefl : Begins m m := ⟨rfl, rfl, rfl, fun _ => id, .inl (by simp [hnil])⟩
  have hensure : ∀ {o : Op}, o.Ensures → Begins m { m with pending := [o] } := fun ho =>
    hrefl.of_pending rfl rfl rfl rfl (.inr ⟨_, ho, rfl⟩)
  unfold askCallback at h
  split at h
  · cases h
    exact hrefl
  · split at h
    · rcases askExperts_cases h with rfl | ⟨op, hop | ⟨ids, hop⟩, rfl⟩
      · exact hrefl
      · exact hensure (hop ▸ trivial)
      · exact hensure (hop ▸ trivial)
    · split at h
      · cases h
        unfold askDense
        split
        · exact hrefl.of_pending rfl rfl rfl rfl (.inl (by simp [rewriteResidentPtrs, hnil]))
        · exact hensure trivial
      · cases h
        exact hensure trivial

theorem doneCallback_begins (hnil : m.pending = []) (lookaheadMax : Nat) :
    Begins m (m.doneCallback rt l lookaheadMax) := by
  have hrefl : Begins m m := ⟨rfl, rfl, rfl, fun _ => id, .inl (by simp [hnil])⟩
  have hswap : Begins m (m.swapLayer l) :=
    hrefl.of_pending rfl rfl rfl rfl (.inl (by simp [swapLayer, hnil]))
  unfold doneCallback
  split
  · exact hrefl
  · split
    · refine hrefl.of_pending rfl rfl rfl rfl (.inl fun o ho => ?_)
      rcases List.mem_cons.mp ho with rfl | ho
      · trivial
      · split at ho
        · split at ho
          · rw [List.mem_singleton.mp ho]
            trivial
          · cases ho
        · cases ho
    · split
      · have hplan : ∀ o ∈ [Op.planDenseFfn l], o.Runs := by simp [Op.Runs]
        unfold doneDense
        dsimp only
        split
        · exact hswap.of_pending rfl rfl rfl rfl (.inl hplan)
        · next prev _ =>
            split
            · obtain ⟨pool, memory, heq⟩ := releaseSlots_spec (m.swapLayer l) prev
              rw [heq]
              exact ⟨rfl, rfl, rfl, fun _ => loading_of_reset, .inl hplan⟩
            · exact hswap.of_pending rfl rfl rfl rfl (.inl hplan)
      · unfold doneStandard
        dsimp only
        split
        · exact hswap
        · next prev _ =>
            split
            · exact hswap
            · have hreleased : Begins m (if prev ∈ rt.config.nvmeLayers then
                  (m.swapLayer l).releaseLayer rt prev else m.swapLayer l) := by
                split
                · have hrel : Begins (m.swapLayer l) ((m.swapLayer l).releaseLayer rt prev) :=
                    releaseLayer_begins (by simp [swapLayer, hnil])
                  exact ⟨hrel.io, hrel.await, hrel.asleep, hrel.loading, hrel.pending⟩
                · exact hswap
              refine hreleased.of_pending rfl rfl rfl rfl (.inl fun o ho => ?_)
              rcases List.mem_append.mp ho with ho | ho
              · obtain ⟨t, -, rfl⟩ := List.mem_map.mp ho
                trivial
              · rw [List.mem_singleton.mp ho]
                trivial

/-- An event begins a callback, or submits the load of the resident layers. -/
theorem handle_begins (hrt : rt.Loads) (hidle : m.Idle) {e : Event} (h : m.handle rt e = some m') :
    Begins m m' ∨ ∃ n tasks, tasks ≠ [] ∧
      m'.io = m.io.openBatch ⟨sentinelLayer rt.config, true⟩ tasks ∧
      m'.pending = [.send, .awaitResident n] ∧ m'.await = m.await ∧ m'.asleep = m.asleep ∧
      m'.layerStatus = Function.update m.layerStatus (sentinelLayer rt.config) .loading := by
  have hnil := hidle.1
  have hrefl : Begins m m := ⟨rfl, rfl, rfl, fun _ => id, .inl (by simp [hnil])⟩
  have hrequests : ∀ {ops : List Op}, (∀ o ∈ ops, o.Runs) → Begins m { m with pending := ops } :=
    fun hops => hrefl.of_pending rfl rfl rfl rfl (.inl hops)
  have hmap : ∀ {ls : List Nat} {f : Nat → Op}, (∀ l, (f l).Runs) → ∀ o ∈ ls.map f, o.Runs := by
    intro ls f hf o ho
    obtain ⟨l, -, rfl⟩ := List.mem_map.mp ho
    exact hf l
  cases e with
  | ask l =>
      simp only [handle] at h
      split at h
      · obtain ⟨m₁, hask, rfl⟩ := Option.map_eq_some_iff.mp h
        have hbegins := askCallback_begins hnil hask
        exact .inl (hbegins.of_pending rfl rfl rfl rfl hbegins.pending)
      · cases h
  | done lookaheadMax =>
      obtain ⟨l, -, rfl⟩ := Option.map_eq_some_iff.mp h
      have hbegins : Begins m (m.doneCallback rt l lookaheadMax) :=
        doneCallback_begins hnil lookaheadMax
      exact .inl (hbegins.of_pending rfl rfl rfl rfl hbegins.pending)
  | doneRouter t =>
      obtain ⟨l, -, rfl⟩ := Option.map_eq_some_iff.mp h
      refine .inl ?_
      split
      · obtain ⟨selected, heq⟩ := interceptRouterOutput_spec rt m l t
        rw [heq]
        exact hrefl.of_pending rfl rfl rfl rfl (.inl (by simp [hnil]))
      · exact hrefl.of_pending rfl rfl rfl rfl (.inl (by simp [hnil]))
  | prefetchAllNvme =>
      simp only [handle] at h
      split at h
      · cases h
        exact .inl (hrequests (hmap (f := .requestLayer) fun _ => trivial))
      · cases h
  | request l =>
      simp only [handle] at h
      split at h
      · cases h
        exact .inl (hrequests (by simp [Op.Runs]))
      · cases h
  | requestSlices l ids =>
      simp only [handle] at h
      split at h
      · cases h
        exact .inl (hrequests (by simp [Op.Runs]))
      · cases h
  | residentFfn n =>
      simp only [handle] at h
      split at h
      · cases h
        unfold activateResidentFfn
        dsimp only
        split
        · exact .inl hrefl
        · next hsum =>
            -- some tensor has bytes, so there is one
            have hne : residentTasks rt.config n ≠ [] := residentTasks_ne_nil fun hnil =>
              hsum (by simp [hnil])
            rw [submitTasks_of_started hrt.started]
            exact .inr ⟨n, _, by simpa using hne, rfl, rfl, rfl, rfl, rfl⟩
      · cases h
  | initialDenseFfn =>
      simp only [handle] at h
      split at h
      · cases h
        exact .inl (hrequests (hmap (f := .prefetchDenseFfn) fun _ => trivial))
      · cases h
  | boundaryDenseFfn =>
      simp only [handle] at h
      split at h
      · cases h
        exact .inl (hrequests (hmap (f := .prefetchDenseFfn) fun _ => trivial))
      · cases h
  | token =>
      simp only [handle] at h
      split at h
      · cases h
        exact .inl (hrefl.of_pending rfl rfl rfl rfl (.inl (by simp [hnil])))
      · cases h

namespace Prompt

theorem sent_of_nil (h : m.Prompt rt) (hnil : m.pending = []) : m.io.unsent = [] := by
  have hstage : m.Stage [] := hnil ▸ h.stage
  cases hstage with
  | last hsent => exact hsent

theorem awake_of_idle (h : m.Prompt rt) (hidle : m.Idle) : m.asleep = false := by
  by_contra hs
  obtain ⟨l, -, hlooks⟩ := h.asleep (by simpa using hs)
  simp [LooksAt, hidle.1, hidle.2] at hlooks

theorem handle (h : m.Prompt rt) (hrt : rt.Loads) (hidle : m.Idle) {e : Event}
    (hstep : m.handle rt e = some m') (hground : ∀ o ∈ m'.pending, o.Grounded rt) : m'.Prompt rt := by
  have hsent := h.sent_of_nil hidle.1
  have hawake := h.awake_of_idle hidle
  have hsub : m.submitting = none := submitting_of_nil hidle.1
  rcases handle_begins hrt hidle hstep with hbegins | ⟨n, tasks, hne, hio, hpending, haw, hs, hst⟩
  · have hpromised : m'.loading.Promised := h.promised.keep hbegins.io hbegins.loading fun l hl => by
      change m.submitting = some l at hl
      simp [hsub] at hl
    have hawait : m'.await = none := hbegins.await.trans hidle.2
    rcases hbegins.pending with hops | ⟨o, ho, hpending⟩
    · exact h.of_runs hpromised hops hground hawait (hbegins.io ▸ hsent)
        (hbegins.asleep.trans hawake) (by rw [hbegins.io])
    · constructor
      · rw [hpending]
        exact .ensures ho hawait (hbegins.io ▸ hsent)
      · exact hground
      · exact hpromised
      · simp [hawait]
      · intro n hn
        rw [hpending, List.mem_singleton] at hn
        exact absurd ho (hn ▸ id)
      · simp [hbegins.asleep, hawake]
      · rw [hbegins.io]
        exact h.workers
  · constructor
    · rw [hpending]
      exact .sendResident (haw.trans hidle.2)
    · exact hground
    · refine h.promised.opens hne hio fun l hl => ?_
      change m'.layerStatus l = .loading at hl
      by_cases hls : l = sentinelLayer rt.config
      · simp [hls]
      · rw [hst, Function.update_of_ne hls] at hl
        refine .inl ⟨hl, ?_⟩
        show m.submitting ≠ some l
        simp [hsub]
    · simp [haw, hidle.2]
    · simp [hst]
    · simp [hs, hawake]
    · rw [hio]
      exact h.workers

/-! ### Every step -/

theorem step (h : m.Prompt rt) (hrt : rt.Loads) {lab : Label} (hstep : m.step rt lab = some m') :
    m'.Prompt rt := by
  have hground := (poolStep hrt.started h.grounded hstep).grounded h.grounded
  cases lab with
  | event e =>
      simp only [Machine.step] at hstep
      split at hstep
      · next hidle => exact h.handle hrt hidle hstep hground
      · cases hstep
  | thread => exact h.threadStep hrt hstep hground
  | wake =>
      simp only [Machine.step] at hstep
      split at hstep
      · cases hstep
        exact ⟨h.stage.of_same rfl rfl, h.grounded, h.promised, h.awaited, h.resident,
          by simp, h.workers⟩
      · cases hstep
  | recv w =>
      obtain ⟨io, hio, rfl⟩ := Option.map_eq_some_iff.mp hstep
      obtain ⟨-, -, -, -, hunsent, -⟩ := Pool.recv_spec hio
      exact h.quiet (Pool.recv_quiet hio) rfl rfl hunsent rfl rfl
  | pread w count =>
      obtain ⟨j, r, rs, _, io, -, -, -, hio, rfl⟩ := preadStep_spec hstep
      obtain ⟨-, -, -, -, -, -, -, -, hunsent, -⟩ := Pool.work_spec hio
      exact h.quiet (Pool.work_quiet hio) rfl rfl hunsent rfl rfl
  | finish w =>
      obtain ⟨j, io, -, -, hio, rfl⟩ := finishStep_spec hstep
      obtain ⟨-, -, -, -, -, -, -, -, hunsent, -⟩ := Pool.finish_spec hio
      exact h.quiet (Pool.finish_quiet hio) rfl rfl hunsent rfl rfl
  | fire w => exact h.fireStep hstep

/-- While the thread sleeps a worker has something to do. -/
theorem worker_of_asleep (h : m.Prompt rt) (hasleep : m.asleep = true) :
    ∃ lab m', Label.OfWorker lab ∧ m.step rt lab = some m' := by
  obtain ⟨l, hl, hlooks⟩ := h.asleep hasleep
  have hsent : m.io.unsent = [] ∧ m.submitting = none := by
    have hstage := h.stage
    rcases hlooks with hp | ⟨⟨n, hp⟩, -⟩ | ⟨hp, -⟩
    · rw [hp] at hstage
      exact ⟨(hstage.settled (.inr trivial)).2.2.1, submitting_of_settled hp (.inr trivial)⟩
    · rw [hp] at hstage
      refine ⟨?_, by simp [submitting, hp]⟩
      cases hstage with
      | runs hop => exact absurd hop id
      | ensures hop => exact absurd hop id
      | resident _ hsent => exact hsent
    · exact ⟨h.sent_of_nil hp, submitting_of_nil hp⟩
  obtain ⟨b, hb⟩ := (h.promised.loading l hl).resolve_left fun hs => by
    change m.submitting = some l at hs
    simp [hsent.2] at hs
  have hcan := h.balanced.canStep hsent.1 h.workers hb.live
  obtain ⟨lab, m', hworker, -, hstep⟩ := step_of_canStep h.balanced hcan
  exact ⟨lab, m', hworker, hstep⟩

end Prompt

theorem prompt_start (coActivation : CoActivationMatrix) (expertPool : Option ExpertPool)
    {workers : Nat} (hworkers : 0 < workers) :
    (start rt coActivation expertPool workers).Prompt rt where
  stage := .last rfl
  grounded op hop := by cases hop
  promised := ⟨Pool.balanced_start workers, fun l hl => by cases hl⟩
  awaited l hl := by cases hl
  resident n hn := by cases hn
  asleep hs := by cases hs
  workers := by simpa [start, Pool.start] using hworkers

end Prompt

end Machine

end Hypura
