import Hypura.Core.Terminate
import Mathlib.Tactic
import Mathlib.Data.List.Perm.Basic

/-!
# Hypura.Core.Countdown

Work handed to a pool of workers in **batches**, each with a counter of its unfinished
jobs.

A batch is opened with its jobs, which are sent to a queue one by one; an idle worker
receives the job at the front, works on it, and finishes it by decrementing the batch's
counter. The worker that takes the counter to zero then *fires* the batch, in a step of
its own. The steps of different workers and of the sender may interleave in any way.

`Balanced` is the invariant: every counter is the number of unfinished jobs of its
batch — unsent, queued or being worked on — and every batch whose counter is zero is
about to fire or has fired, exactly once. Jobs carry a payload `τ`, batches a tag `β`;
neither matters here.
-/

namespace Hypura.Core.Countdown

/-- A unit of work of some batch. -/
structure Job (τ : Type) where
  batch : Nat
  payload : τ
  deriving DecidableEq, Repr

/-- What a worker is doing. -/
inductive Worker (τ : Type)
  | idle
  | busy (job : Job τ)
  /-- It has taken the batch's counter to zero. -/
  | firing (batch : Nat)
  deriving DecidableEq, Repr

structure Batch (β : Type) where
  remaining : Nat
  tag : β
  deriving DecidableEq, Repr

structure Pool (τ β : Type) where
  batches : List (Batch β)
  /-- Jobs of opened batches that the sender still holds. -/
  unsent : List (Job τ)
  queue : List (Job τ)
  workers : List (Worker τ)
  /-- The batches that have fired. -/
  fired : List Nat
  deriving DecidableEq, Repr

section Pool
variable {τ β : Type}

def Worker.job? : Worker τ → Option (Job τ)
  | busy j => some j
  | _ => none

def Worker.firing? : Worker τ → Option Nat
  | firing b => some b
  | _ => none

/-- What a worker still has to do before it is idle; a payload is `size` steps of work. -/
def Worker.load (size : τ → Nat) : Worker τ → Nat
  | idle => 0
  | busy j => size j.payload + 2
  | firing _ => 1

namespace Pool

/-- The unfinished jobs. -/
def jobs (p : Pool τ β) : List (Job τ) :=
  p.unsent ++ (p.queue ++ p.workers.filterMap Worker.job?)

/-- The batches about to fire. -/
def firing (p : Pool τ β) : List Nat :=
  p.workers.filterMap Worker.firing?

/-- The tag of batch `b`. -/
def tag? (p : Pool τ β) (b : Nat) : Option β :=
  p.batches[b]?.map Batch.tag

/-- A pool of `n` idle workers. -/
def start (n : Nat) : Pool τ β :=
  ⟨[], [], [], List.replicate n .idle, []⟩

/-! ### Steps -/

/-- Open a batch: its counter is the number of its jobs. -/
def openBatch (p : Pool τ β) (tag : β) (payloads : List τ) : Pool τ β :=
  { p with
    batches := p.batches ++ [⟨payloads.length, tag⟩]
    unsent := p.unsent ++ payloads.map (⟨p.batches.length, ·⟩) }

/-- The sender puts its next job in the queue. -/
def send (p : Pool τ β) : Option (Pool τ β) :=
  match p.unsent with
  | [] => none
  | j :: js => some { p with unsent := js, queue := p.queue ++ [j] }

/-- Worker `w`, idle, takes the job at the front. -/
def recv (p : Pool τ β) (w : Nat) : Option (Pool τ β) :=
  match p.workers[w]?, p.queue with
  | some .idle, j :: js => some { p with queue := js, workers := p.workers.set w (.busy j) }
  | _, _ => none

/-- Worker `w` has got its job to `payload`. -/
def work (p : Pool τ β) (w : Nat) (payload : τ) : Option (Pool τ β) :=
  match p.workers[w]? with
  | some (.busy j) => some { p with workers := p.workers.set w (.busy ⟨j.batch, payload⟩) }
  | _ => none

/-- Worker `w` is done with its job: it decrements the counter and looks at the value the
counter had. -/
def finish (p : Pool τ β) (w : Nat) : Option (Pool τ β) :=
  match p.workers[w]? with
  | some (.busy j) =>
    match p.batches[j.batch]? with
    | some b => some { p with
        batches := p.batches.set j.batch { b with remaining := b.remaining - 1 }
        workers := p.workers.set w (if b.remaining = 1 then .firing j.batch else .idle) }
    | none => none
  | _ => none

/-- Worker `w` fires the batch it completed. -/
def fire (p : Pool τ β) (w : Nat) : Option (Pool τ β) :=
  match p.workers[w]? with
  | some (.firing b) => some { p with workers := p.workers.set w .idle, fired := b :: p.fired }
  | _ => none

/-! ### What each step does to the jobs -/

/-- Replacing one element of a list changes what a `filterMap` picks there, and nothing
else. -/
theorem filterMap_set_split {α γ : Type} (f : α → Option γ) {l : List α} {w : Nat} {x : α}
    (h : l[w]? = some x) :
    ∃ rest, (l.filterMap f).Perm ((f x).toList ++ rest) ∧
      ∀ y, ((l.set w y).filterMap f).Perm ((f y).toList ++ rest) := by
  obtain ⟨hlt, hx⟩ := List.getElem?_eq_some_iff.mp h
  have hat : ∀ y, ((l.take w ++ y :: l.drop (w + 1)).filterMap f).Perm
      ((f y).toList ++ ((l.take w).filterMap f ++ (l.drop (w + 1)).filterMap f)) := by
    intro y
    rw [List.filterMap_append, List.filterMap_cons]
    cases f y with
    | none => exact List.Perm.refl _
    | some z => exact List.perm_middle
  refine ⟨(l.take w).filterMap f ++ (l.drop (w + 1)).filterMap f, ?_, fun y => ?_⟩
  · have hl : l = l.take w ++ x :: l.drop (w + 1) := by
      rw [← hx, List.getElem_cons_drop, List.take_append_drop]
    exact (List.Perm.of_eq (congrArg (List.filterMap f) hl)).trans (hat x)
  · rw [List.set_eq_take_append_cons_drop, if_pos hlt]
    exact hat y

theorem jobs_openBatch (p : Pool τ β) (tag : β) (payloads : List τ) :
    (p.openBatch tag payloads).jobs.Perm
      (payloads.map (⟨p.batches.length, ·⟩) ++ p.jobs) := by
  simp only [jobs, openBatch, List.append_assoc]
  exact List.perm_append_comm_assoc _ _ _

theorem mem_jobs_openBatch {α : Type} (p : Pool τ β) (tag : β) (f : α → τ) (tasks : List α)
    (j : Job τ) : j ∈ (p.openBatch tag (tasks.map f)).jobs ↔
      (∃ a ∈ tasks, j = ⟨p.batches.length, f a⟩) ∨ j ∈ p.jobs := by
  simp [(jobs_openBatch ..).mem_iff, eq_comm]

/-- Sending moves a job. -/
theorem send_spec {p p' : Pool τ β} (h : p.send = some p') :
    p'.jobs.Perm p.jobs ∧ p'.batches = p.batches ∧ p'.workers = p.workers ∧
      p'.fired = p.fired := by
  unfold send at h
  split at h
  · cases h
  · next j js hun =>
      cases h
      refine ⟨?_, rfl, rfl, rfl⟩
      simp only [jobs, hun, List.append_assoc, List.cons_append, List.nil_append]
      exact (List.perm_middle.append_left js).trans List.perm_middle

/-- Receiving moves a job. -/
theorem recv_spec {p p' : Pool τ β} {w : Nat} (h : p.recv w = some p') :
    p'.jobs.Perm p.jobs ∧ p'.batches = p.batches ∧ p'.firing.Perm p.firing ∧
      p'.fired = p.fired ∧ p'.unsent = p.unsent ∧ p'.workers.length = p.workers.length := by
  unfold recv at h
  split at h
  · next j js hw hq =>
      cases h
      obtain ⟨rest, hrest, hset⟩ := filterMap_set_split Worker.job? hw
      obtain ⟨others, hothers, hset'⟩ := filterMap_set_split Worker.firing? hw
      refine ⟨?_, rfl, ?_, rfl, rfl, List.length_set⟩
      · show (p.unsent ++ (js ++ (p.workers.set w (.busy j)).filterMap Worker.job?)).Perm
          (p.unsent ++ (p.queue ++ p.workers.filterMap Worker.job?))
        rw [hq]
        refine List.Perm.append_left _ ?_
        exact ((hset _).append_left js).trans (List.perm_middle.trans ((hrest.symm.append_left js).cons j))
      · exact (hset' _).trans hothers.symm
  · cases h

/-- Working changes one job's payload. -/
theorem work_spec {p p' : Pool τ β} {w : Nat} {payload : τ} (h : p.work w payload = some p') :
    ∃ j rest, p.workers[w]? = some (.busy j) ∧ p.jobs.Perm (j :: rest) ∧
      p'.jobs.Perm (⟨j.batch, payload⟩ :: rest) ∧ p'.batches = p.batches ∧
      p'.firing.Perm p.firing ∧ p'.fired = p.fired ∧ p'.unsent = p.unsent ∧
      p'.workers.length = p.workers.length := by
  unfold work at h
  split at h
  · next j hw =>
      cases h
      obtain ⟨rest, hrest, hset⟩ := filterMap_set_split Worker.job? hw
      obtain ⟨others, hothers, hset'⟩ := filterMap_set_split Worker.firing? hw
      refine ⟨j, p.unsent ++ (p.queue ++ rest), hw, ?_, ?_, rfl, ?_, rfl, rfl, List.length_set⟩
      · exact ((hrest.append_left p.queue).append_left p.unsent).trans
          ((List.perm_middle.append_left _).trans List.perm_middle)
      · exact (((hset _).append_left p.queue).append_left p.unsent).trans
          ((List.perm_middle.append_left _).trans List.perm_middle)
      · exact (hset' _).trans hothers.symm
  · cases h

/-- Finishing removes a job and decrements its batch's counter. -/
theorem finish_spec {p p' : Pool τ β} {w : Nat} (h : p.finish w = some p') :
    ∃ j x, p.workers[w]? = some (.busy j) ∧ p.batches[j.batch]? = some x ∧
      p.jobs.Perm (j :: p'.jobs) ∧
      p'.batches = p.batches.set j.batch { x with remaining := x.remaining - 1 } ∧
      p'.firing.Perm (if x.remaining = 1 then j.batch :: p.firing else p.firing) ∧
      p'.fired = p.fired ∧ p'.unsent = p.unsent ∧ p'.workers.length = p.workers.length := by
  unfold finish at h
  split at h
  · next j hw =>
      split at h
      · next x hx =>
          cases h
          obtain ⟨rest, hrest, hset⟩ := filterMap_set_split Worker.job? hw
          obtain ⟨others, hothers, hset'⟩ := filterMap_set_split Worker.firing? hw
          refine ⟨j, x, hw, hx, ?_, rfl, ?_, rfl, rfl, List.length_set⟩
          · have hset := hset (if x.remaining = 1 then .firing j.batch else .idle)
            have hjob : (if x.remaining = 1 then Worker.firing j.batch else .idle : Worker τ).job? =
                none := by
              split <;> rfl
            rw [hjob] at hset
            refine ((hrest.append_left p.queue).append_left p.unsent).trans ?_
            refine ((List.perm_middle.append_left _).trans List.perm_middle).trans ?_
            exact (((hset.symm.append_left p.queue).append_left p.unsent)).cons j
          · refine (hset' _).trans ?_
            split
            · exact hothers.symm.cons j.batch
            · exact hothers.symm
      · cases h
  · cases h

/-- Firing moves a batch from the workers to the history. -/
theorem fire_spec {p p' : Pool τ β} {w : Nat} (h : p.fire w = some p') :
    ∃ b, p.workers[w]? = some (.firing b) ∧ p'.jobs.Perm p.jobs ∧ p'.batches = p.batches ∧
      p.firing.Perm (b :: p'.firing) ∧ p'.fired = b :: p.fired ∧ p'.unsent = p.unsent ∧
      p'.workers.length = p.workers.length := by
  unfold fire at h
  split at h
  · next b hw =>
      cases h
      obtain ⟨rest, hrest, hset⟩ := filterMap_set_split Worker.job? hw
      obtain ⟨others, hothers, hset'⟩ := filterMap_set_split Worker.firing? hw
      refine ⟨b, hw, ?_, rfl, ?_, rfl, rfl, List.length_set⟩
      · exact (((hset .idle).trans hrest.symm).append_left p.queue).append_left p.unsent
      · exact hothers.trans ((hset' .idle).symm.cons b)
  · cases h

/-! ### Tags -/

theorem lt_of_tag? {p : Pool τ β} {b : Nat} {tag : β} (h : p.tag? b = some tag) :
    b < p.batches.length := by
  obtain ⟨x, hx, -⟩ := Option.map_eq_some_iff.mp h
  exact (List.getElem?_eq_some_iff.mp hx).1

theorem exists_tag? {p : Pool τ β} {b : Nat} (h : b < p.batches.length) :
    ∃ tag, p.tag? b = some tag :=
  ⟨_, by rw [tag?, List.getElem?_eq_getElem h]; rfl⟩

theorem tag?_of_batches {p p' : Pool τ β} (h : p'.batches = p.batches) (b : Nat) :
    p'.tag? b = p.tag? b := by
  rw [tag?, tag?, h]

/-- Finishing a job changes no tag. -/
theorem tag?_finish {p p' : Pool τ β} {w : Nat} (h : p.finish w = some p') (b : Nat) :
    p'.tag? b = p.tag? b := by
  obtain ⟨j, x, -, hx, -, hb, -, -, -, -⟩ := finish_spec h
  rw [tag?, tag?, hb, List.getElem?_set]
  by_cases hjb : j.batch = b
  · subst hjb
    rw [if_pos rfl, if_pos (List.getElem?_eq_some_iff.mp hx).1, hx]
    rfl
  · rw [if_neg hjb]

theorem tag?_openBatch (p : Pool τ β) (tag : β) (payloads : List τ) (b : Nat) :
    (p.openBatch tag payloads).tag? b =
      if b = p.batches.length then some tag else p.tag? b := by
  simp only [tag?, openBatch, List.getElem?_append]
  by_cases hlt : b < p.batches.length
  · rw [if_pos hlt, if_neg (by omega)]
  · rw [if_neg hlt]
    by_cases hb : b = p.batches.length
    · subst hb
      simp
    · rw [if_neg hb, List.getElem?_eq_none (by simp; omega), List.getElem?_eq_none (by omega)]

/-! ### The invariant -/

/-- The unfinished jobs of batch `b`. -/
def jobsOf (p : Pool τ β) (b : Nat) : List (Job τ) :=
  p.jobs.filter fun j => j.batch = b

structure Balanced (p : Pool τ β) : Prop where
  /-- Every job belongs to a batch that was opened. -/
  batch_lt : ∀ j ∈ p.jobs, j.batch < p.batches.length
  /-- Every counter is the number of its batch's unfinished jobs. -/
  remaining : ∀ b x, p.batches[b]? = some x → x.remaining = (p.jobsOf b).length
  /-- A batch whose counter is zero is about to fire or has fired, once; no other is. -/
  once : ∀ b x, p.batches[b]? = some x →
    (p.firing ++ p.fired).count b = if x.remaining = 0 then 1 else 0
  fired_lt : ∀ b ∈ p.firing ++ p.fired, b < p.batches.length

/-- A batch that was opened and has not fired. -/
def Live (p : Pool τ β) (b : Nat) : Prop := b < p.batches.length ∧ b ∉ p.fired

theorem balanced_start (n : Nat) : (start n : Pool τ β).Balanced := by
  have hjobs : (start n : Pool τ β).jobs = [] := by
    simp [jobs, start, Worker.job?]
  have hfiring : (start n : Pool τ β).firing = [] := by
    simp [firing, start, Worker.firing?]
  constructor
  · intro j hj
    rw [hjobs] at hj
    cases hj
  · intro b x hb
    cases hb
  · intro b x hb
    cases hb
  · intro b hb
    rw [hfiring] at hb
    cases hb

theorem jobsOf_length (p : Pool τ β) (b : Nat) :
    (p.jobsOf b).length = p.jobs.countP fun j => decide (j.batch = b) :=
  (List.countP_eq_length_filter).symm

namespace Balanced
variable {p p' : Pool τ β} {w b : Nat}

/-- A step that only moves jobs about keeps the balance. -/
theorem of_perm (h : p.Balanced) (hjobs : p'.jobs.Perm p.jobs) (hb : p'.batches = p.batches)
    (hfiring : p'.firing.Perm p.firing) (hfired : p'.fired = p.fired) : p'.Balanced where
  batch_lt j hj := by
    rw [hb]
    exact h.batch_lt j (hjobs.mem_iff.mp hj)
  remaining b x hx := by
    rw [hb] at hx
    rw [h.remaining b x hx, jobsOf_length, jobsOf_length, hjobs.countP_eq]
  once b x hx := by
    rw [hb] at hx
    rw [hfired, (hfiring.append_right p.fired).count_eq, h.once b x hx]
  fired_lt b hb' := by
    rw [hfired] at hb'
    rw [hb]
    exact h.fired_lt b ((hfiring.append_right p.fired).mem_iff.mp hb')

theorem send (h : p.Balanced) (hs : p.send = some p') : p'.Balanced := by
  obtain ⟨hjobs, hb, hw, hf⟩ := send_spec hs
  exact h.of_perm hjobs hb (List.Perm.of_eq (by rw [firing, firing, hw])) hf

theorem recv (h : p.Balanced) (hs : p.recv w = some p') : p'.Balanced := by
  obtain ⟨hjobs, hb, hfi, hf, -, -⟩ := recv_spec hs
  exact h.of_perm hjobs hb hfi hf

/-- Working keeps the batch of the job, and so every count. -/
theorem work (h : p.Balanced) {payload : τ} (hs : p.work w payload = some p') : p'.Balanced := by
  obtain ⟨j, rest, -, hjobs, hjobs', hb, hfi, hf, -, -⟩ := work_spec hs
  have hcount : ∀ b, (p'.jobsOf b).length = (p.jobsOf b).length := by
    intro b
    rw [jobsOf_length, jobsOf_length, hjobs.countP_eq, hjobs'.countP_eq, List.countP_cons,
      List.countP_cons]
  constructor
  · intro j' hj'
    rw [hb]
    rcases List.mem_cons.mp (hjobs'.mem_iff.mp hj') with rfl | hrest
    · exact h.batch_lt j (hjobs.mem_iff.mpr List.mem_cons_self)
    · exact h.batch_lt j' (hjobs.mem_iff.mpr (List.mem_cons_of_mem _ hrest))
  · intro b x hx
    rw [hb] at hx
    rw [hcount, h.remaining b x hx]
  · intro b x hx
    rw [hb] at hx
    rw [hf, (hfi.append_right p.fired).count_eq, h.once b x hx]
  · intro b hb'
    rw [hf] at hb'
    rw [hb]
    exact h.fired_lt b ((hfi.append_right p.fired).mem_iff.mp hb')

theorem openBatch (h : p.Balanced) (tag : β) {payloads : List τ} (hne : payloads ≠ []) :
    (p.openBatch tag payloads).Balanced := by
  have hlen : (p.openBatch tag payloads).batches.length = p.batches.length + 1 := by
    simp [Pool.openBatch]
  have hbatch : ∀ b x, (p.openBatch tag payloads).batches[b]? = some x →
      p.batches[b]? = some x ∧ b < p.batches.length ∨
        b = p.batches.length ∧ x = ⟨payloads.length, tag⟩ := by
    intro b x hx
    simp only [Pool.openBatch, List.getElem?_append] at hx
    split at hx
    · next hlt => exact .inl ⟨hx, hlt⟩
    · next hge =>
        obtain ⟨hlt, hx⟩ := List.getElem?_eq_some_iff.mp hx
        have hb : b = p.batches.length := by
          simp only [List.length_singleton] at hlt
          omega
        exact .inr ⟨hb, by simpa using hx.symm⟩
  have hcount : ∀ b, ((p.openBatch tag payloads).jobsOf b).length =
      (if b = p.batches.length then payloads.length else 0) + (p.jobsOf b).length := by
    intro b
    rw [jobsOf_length, jobsOf_length, (jobs_openBatch p tag payloads).countP_eq,
      List.countP_append, List.countP_map]
    by_cases hb : b = p.batches.length
    · subst hb
      rw [if_pos rfl]
      congr 1
      exact List.countP_eq_length.mpr fun x _ => by simp
    · rw [if_neg hb]
      congr 1
      exact List.countP_eq_zero.mpr fun x _ => by
        simp only [Function.comp_apply, decide_eq_true_eq]
        exact Ne.symm hb
  -- nothing of the new batch is there yet
  have hnew : (p.jobsOf p.batches.length).length = 0 := by
    rw [jobsOf_length]
    exact List.countP_eq_zero.mpr fun j hj => by
      have := h.batch_lt j hj
      simp only [decide_eq_true_eq]
      omega
  have hnotfired : (p.firing ++ p.fired).count p.batches.length = 0 :=
    List.count_eq_zero.mpr fun hmem => absurd (h.fired_lt _ hmem) (Nat.lt_irrefl _)
  constructor
  · intro j hj
    rw [hlen]
    rcases List.mem_append.mp ((jobs_openBatch p tag payloads).mem_iff.mp hj) with hj | hj
    · obtain ⟨x, -, rfl⟩ := List.mem_map.mp hj
      exact Nat.lt_succ_self _
    · exact Nat.lt_succ_of_lt (h.batch_lt j hj)
  · intro b x hx
    rw [hcount]
    rcases hbatch b x hx with ⟨hx, hlt⟩ | ⟨rfl, rfl⟩
    · rw [if_neg (by omega), h.remaining b x hx, Nat.zero_add]
    · rw [if_pos rfl, hnew, Nat.add_zero]
  · intro b x hx
    change (p.firing ++ p.fired).count b = _
    rcases hbatch b x hx with ⟨hx, -⟩ | ⟨rfl, rfl⟩
    · exact h.once b x hx
    · have hpos : payloads.length ≠ 0 := fun h0 => hne (List.length_eq_zero_iff.mp h0)
      rw [hnotfired, if_neg hpos]
  · intro b hb
    rw [hlen]
    exact Nat.lt_succ_of_lt (h.fired_lt b hb)

theorem finish (h : p.Balanced) (hs : p.finish w = some p') : p'.Balanced := by
  obtain ⟨j, x, -, hx, hjobs, hb, hfi, hf, -, -⟩ := finish_spec hs
  have hlen : p'.batches.length = p.batches.length := by rw [hb, List.length_set]
  have hcount : ∀ b, (p.jobsOf b).length =
      (p'.jobsOf b).length + if j.batch = b then 1 else 0 := by
    intro b
    rw [jobsOf_length, jobsOf_length, hjobs.countP_eq, List.countP_cons]
    by_cases hjb : j.batch = b <;> simp [hjb]
  have hlive : x.remaining ≠ 0 := by
    rw [h.remaining _ _ hx, hcount, if_pos rfl]
    omega
  constructor
  · intro j' hj'
    rw [hlen]
    exact h.batch_lt j' (hjobs.mem_iff.mpr (List.mem_cons_of_mem _ hj'))
  · intro b y hy
    have hc := hcount b
    rw [hb] at hy
    by_cases hjb : j.batch = b
    · subst hjb
      rw [List.getElem?_set_self (List.getElem?_eq_some_iff.mp hx).1, Option.some.injEq] at hy
      subst hy
      rw [← h.remaining _ _ hx, if_pos rfl] at hc
      show x.remaining - 1 = _
      omega
    · rw [List.getElem?_set_ne hjb] at hy
      rw [h.remaining b y hy, hc, if_neg hjb, Nat.add_zero]
  · intro b y hy
    have hfi' : (p'.firing ++ p'.fired).count b =
        (p.firing ++ p.fired).count b + if x.remaining = 1 ∧ j.batch = b then 1 else 0 := by
      rw [List.count_append, List.count_append, hf, hfi.count_eq]
      by_cases hone : x.remaining = 1
      · rw [if_pos hone, List.count_cons]
        by_cases hjb : j.batch = b
        · simp [hone, hjb]
          omega
        · simp [hjb]
      · simp [hone]
    rw [hfi']
    rw [hb] at hy
    by_cases hjb : j.batch = b
    · subst hjb
      rw [List.getElem?_set_self (List.getElem?_eq_some_iff.mp hx).1, Option.some.injEq] at hy
      subst hy
      rw [h.once _ x hx, if_neg hlive]
      by_cases hone : x.remaining = 1
      · simp [hone]
      · have h2 : ¬ x.remaining - 1 = 0 := by omega
        simp [hone, h2]
    · rw [List.getElem?_set_ne hjb] at hy
      rw [h.once b y hy]
      simp [hjb]
  · intro b hb'
    rw [hlen]
    rw [hf] at hb'
    rcases List.mem_append.mp hb' with hb' | hb'
    · have hmem := hfi.mem_iff.mp hb'
      split at hmem
      · rcases List.mem_cons.mp hmem with rfl | hmem
        · exact (List.getElem?_eq_some_iff.mp hx).1
        · exact h.fired_lt b (List.mem_append_left _ hmem)
      · exact h.fired_lt b (List.mem_append_left _ hmem)
    · exact h.fired_lt b (List.mem_append_right _ hb')

theorem fire (h : p.Balanced) (hs : p.fire w = some p') : p'.Balanced := by
  obtain ⟨b₀, -, hjobs, hb, hfi, hf, -, -⟩ := fire_spec hs
  have hperm : (p'.firing ++ p'.fired).Perm (p.firing ++ p.fired) := by
    rw [hf]
    exact List.perm_middle.trans (hfi.symm.append_right p.fired)
  constructor
  · intro j hj
    rw [hb]
    exact h.batch_lt j (hjobs.mem_iff.mp hj)
  · intro b x hx
    rw [hb] at hx
    rw [h.remaining b x hx, jobsOf_length, jobsOf_length, hjobs.countP_eq]
  · intro b x hx
    rw [hb] at hx
    rw [hperm.count_eq, h.once b x hx]
  · intro b hb'
    rw [hb]
    exact h.fired_lt b (hperm.mem_iff.mp hb')

/-! ### What the balance gives -/

theorem firing_live (h : p.Balanced) (hb : b ∈ p.firing) : p.Live b ∧ p.jobsOf b = [] := by
  have hlt := h.fired_lt b (List.mem_append_left _ hb)
  have hx := List.getElem?_eq_getElem hlt
  have honce := h.once b _ hx
  rw [List.count_append] at honce
  have hpos : 0 < p.firing.count b := List.count_pos_iff.mpr hb
  have hzero : (p.batches[b]).remaining = 0 := by
    by_contra hne
    rw [if_neg hne] at honce
    omega
  rw [if_pos hzero] at honce
  refine ⟨⟨hlt, fun hf => ?_⟩, ?_⟩
  · have := List.count_pos_iff.mpr hf
    omega
  · have := h.remaining b _ hx
    exact List.length_eq_zero_iff.mp (by omega)

/-- A live batch has an unfinished job or is about to fire. -/
theorem live_iff (h : p.Balanced) :
    p.Live b ↔ (∃ j ∈ p.jobs, j.batch = b) ∨ b ∈ p.firing := by
  constructor
  · rintro ⟨hlt, hnf⟩
    have hx := List.getElem?_eq_getElem hlt
    by_cases hzero : (p.batches[b]).remaining = 0
    · right
      have honce := h.once b _ hx
      rw [if_pos hzero, List.count_append, List.count_eq_zero.mpr hnf] at honce
      exact List.count_pos_iff.mp (by omega)
    · left
      have hpos : 0 < (p.jobsOf b).length := by
        rw [← h.remaining b _ hx]
        omega
      obtain ⟨j, hj⟩ := List.exists_mem_of_length_pos hpos
      have hmem := List.mem_filter.mp hj
      exact ⟨j, hmem.1, by simpa using hmem.2⟩
  · intro hor
    rcases hor with ⟨j, hj, rfl⟩ | hb
    · have hlt := h.batch_lt j hj
      have hx := List.getElem?_eq_getElem hlt
      refine ⟨hlt, fun hf => ?_⟩
      have honce := h.once _ _ hx
      have hpos : 0 < (p.jobsOf j.batch).length :=
        List.length_pos_of_mem (List.mem_filter.mpr ⟨hj, by simp⟩)
      rw [← h.remaining _ _ hx] at hpos
      rw [if_neg (by omega), List.count_eq_zero] at honce
      exact honce (List.mem_append_right _ hf)
    · exact (h.firing_live hb).1

/-- A batch fires at most once, and only after its last job. -/
theorem fired_once (h : p.Balanced) (hb : b ∈ p.fired) :
    p.fired.count b = 1 ∧ p.jobsOf b = [] ∧ b ∉ p.firing := by
  have hlt := h.fired_lt b (List.mem_append_right _ hb)
  have hx := List.getElem?_eq_getElem hlt
  have honce := h.once b _ hx
  rw [List.count_append] at honce
  have hpos : 0 < p.fired.count b := List.count_pos_iff.mpr hb
  by_cases hzero : (p.batches[b]).remaining = 0
  · rw [if_pos hzero] at honce
    refine ⟨by omega, ?_, fun hfi => ?_⟩
    · have := h.remaining b _ hx
      exact List.length_eq_zero_iff.mp (by omega)
    · have := List.count_pos_iff.mpr hfi
      omega
  · rw [if_neg hzero] at honce
    omega

end Balanced

/-! ### Steps that open and fire nothing -/

/-- What sending, receiving, working and finishing have in common. -/
structure Quiet (p p' : Pool τ β) : Prop where
  balanced : p.Balanced → p'.Balanced
  tag?_eq : ∀ b, p'.tag? b = p.tag? b
  fired_eq : p'.fired = p.fired
  length_workers : p'.workers.length = p.workers.length

theorem send_quiet {p p' : Pool τ β} (h : p.send = some p') : Quiet p p' := by
  obtain ⟨-, hb, hw, hf⟩ := send_spec h
  exact ⟨fun hp => hp.send h, tag?_of_batches hb, hf, congrArg List.length hw⟩

theorem recv_quiet {p p' : Pool τ β} {w : Nat} (h : p.recv w = some p') : Quiet p p' := by
  obtain ⟨-, hb, -, hf, -, hlen⟩ := recv_spec h
  exact ⟨fun hp => hp.recv h, tag?_of_batches hb, hf, hlen⟩

theorem work_quiet {p p' : Pool τ β} {w : Nat} {payload : τ} (h : p.work w payload = some p') :
    Quiet p p' := by
  obtain ⟨-, -, -, -, -, hb, -, hf, -, hlen⟩ := work_spec h
  exact ⟨fun hp => hp.work h, tag?_of_batches hb, hf, hlen⟩

theorem finish_quiet {p p' : Pool τ β} {w : Nat} (h : p.finish w = some p') : Quiet p p' := by
  obtain ⟨-, -, -, -, -, -, -, hf, -, hlen⟩ := finish_spec h
  exact ⟨fun hp => hp.finish h, tag?_finish h, hf, hlen⟩

/-! ### Progress -/

/-- Some worker has a step to take. -/
def CanStep (p : Pool τ β) : Prop :=
  (∃ (w : Nat) (j : Job τ), p.workers[w]? = some (Worker.busy j)) ∨
    (∃ (w b : Nat), p.workers[w]? = some (Worker.firing b)) ∨
      p.queue ≠ [] ∧ ∃ w : Nat, p.workers[w]? = some Worker.idle

/-- With all jobs sent and a worker at hand, a live batch leaves no pool at rest. -/
theorem Balanced.canStep {p : Pool τ β} {b : Nat} (h : p.Balanced) (hsent : p.unsent = [])
    (hworkers : 0 < p.workers.length) (hlive : p.Live b) : p.CanStep := by
  have hfirst := List.getElem?_eq_getElem hworkers
  rcases h.live_iff.mp hlive with ⟨j, hj, -⟩ | hfi
  · rw [jobs, hsent, List.nil_append] at hj
    rcases List.mem_append.mp hj with hq | hbusy
    · -- a queued job: the first worker takes it, unless it has something to do already
      cases hw : p.workers[0] with
      | idle => exact .inr (.inr ⟨List.ne_nil_of_mem hq, 0, by rw [hfirst, hw]⟩)
      | busy j' => exact .inl ⟨0, j', by rw [hfirst, hw]⟩
      | firing b' => exact .inr (.inl ⟨0, b', by rw [hfirst, hw]⟩)
    · obtain ⟨x, hx, hjob⟩ := List.mem_filterMap.mp hbusy
      obtain ⟨w, hw⟩ := List.mem_iff_getElem?.mp hx
      cases x with
      | idle => cases hjob
      | busy j' => exact .inl ⟨w, j', hw⟩
      | firing b' => cases hjob
  · obtain ⟨x, hx, hfire⟩ := List.mem_filterMap.mp hfi
    obtain ⟨w, hw⟩ := List.mem_iff_getElem?.mp hx
    cases x with
    | idle => cases hfire
    | busy j' => cases hfire
    | firing b' => exact .inr (.inl ⟨w, b', hw⟩)

/-! ### One worker -/

/-- What a step of worker `w` leaves as it is. -/
structure StepOf (w : Nat) (p p' : Pool τ β) : Prop where
  lt_length : w < p.workers.length
  others : ∀ v, v ≠ w → p'.workers[v]? = p.workers[v]?
  queue_nil : p.queue = [] → p'.queue = []

section StepOf
variable {p p' : Pool τ β} {w : Nat}

theorem recv_stepOf (h : p.recv w = some p') : StepOf w p p' := by
  unfold recv at h
  split at h
  · next j js hw hq =>
      cases h
      refine ⟨(List.getElem?_eq_some_iff.mp hw).1, fun v hv => ?_, by simp [hq]⟩
      exact List.getElem?_set_ne (Ne.symm hv)
  · cases h

theorem work_stepOf {payload : τ} (h : p.work w payload = some p') : StepOf w p p' := by
  unfold work at h
  split at h
  · next j hw =>
      cases h
      refine ⟨(List.getElem?_eq_some_iff.mp hw).1, fun v hv => ?_, id⟩
      exact List.getElem?_set_ne (Ne.symm hv)
  · cases h

theorem finish_stepOf (h : p.finish w = some p') : StepOf w p p' := by
  unfold finish at h
  split at h
  · next j hw =>
      split at h
      · cases h
        refine ⟨(List.getElem?_eq_some_iff.mp hw).1, fun v hv => ?_, id⟩
        exact List.getElem?_set_ne (Ne.symm hv)
      · cases h
  · cases h

theorem fire_stepOf (h : p.fire w = some p') : StepOf w p p' := by
  unfold fire at h
  split at h
  · next b hw =>
      cases h
      refine ⟨(List.getElem?_eq_some_iff.mp hw).1, fun v hv => ?_, id⟩
      exact List.getElem?_set_ne (Ne.symm hv)
  · cases h

end StepOf

/-! ### The work left -/

/-- How many steps the jobs in the pool can be worked on, at most. -/
def load (size : τ → Nat) (p : Pool τ β) : Nat :=
  (p.unsent.map fun j => size j.payload + 4).sum + (p.queue.map fun j => size j.payload + 3).sum +
    (p.workers.map (Worker.load size)).sum

section Load
variable {p p' : Pool τ β} {w : Nat} (size : τ → Nat)

theorem load_send (h : p.send = some p') : p'.load size < p.load size := by
  unfold send at h
  split at h
  · cases h
  · next j js hun =>
      cases h
      simp only [load, hun, List.map_append, List.map_cons, List.map_nil, List.sum_append,
        List.sum_cons, List.sum_nil]
      omega

theorem load_recv (h : p.recv w = some p') : p'.load size < p.load size := by
  unfold recv at h
  split at h
  · next j js hw hq =>
      cases h
      have hset := sum_map_set (Worker.load size) hw (.busy j)
      simp only [load, hq, List.map_cons, List.sum_cons, Worker.load] at hset ⊢
      omega
  · cases h

/-- Work on a job gets it smaller. -/
theorem load_work {payload : τ} {j : Job τ} (hw : p.workers[w]? = some (.busy j))
    (hless : size payload < size j.payload) (h : p.work w payload = some p') :
    p'.load size < p.load size := by
  simp only [work, hw, Option.some.injEq] at h
  subst h
  have hset := sum_map_set (Worker.load size) hw (.busy ⟨j.batch, payload⟩)
  simp only [load, Worker.load] at hset ⊢
  omega

theorem load_finish (h : p.finish w = some p') : p'.load size < p.load size := by
  unfold finish at h
  split at h
  · next j hw =>
      split at h
      · next x hx =>
          cases h
          have hset := sum_map_set (Worker.load size) hw
            (if x.remaining = 1 then .firing j.batch else .idle)
          have hleft : (if x.remaining = 1 then Worker.firing j.batch else .idle : Worker τ).load size ≤
              1 := by
            split <;> simp [Worker.load]
          simp only [load, Worker.load] at hset hleft ⊢
          omega
      · cases h
  · cases h

theorem load_fire (h : p.fire w = some p') : p'.load size < p.load size := by
  unfold fire at h
  split at h
  · next b hw =>
      cases h
      have hset := sum_map_set (Worker.load size) hw .idle
      simp only [load, Worker.load] at hset ⊢
      omega
  · cases h

end Load

end Pool

end Pool

end Hypura.Core.Countdown
