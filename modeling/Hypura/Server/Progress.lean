import Hypura.Core.Terminate
import Hypura.Server.Delivery

/-!
# Hypura.Server.Progress

The server gets done with its requests.

The lock is held by the one task that generates, and what that task does never waits: the
channel of its tokens has room for all of them. So a client that does not read holds up
the lines of its own body and nothing else, and one that leaves ends its generation at the
next token. A token is worth more than the steps it leads to (`Request.load`), so every run
in which no further request comes in is finite.
-/

namespace Hypura.Server

open Hypura.Core

/-! ### Who has the lock -/

/-- The task has the model locked. -/
def Generator.Holds : Generator → Prop
  | .waiting => False
  | .ended => False
  | _ => True

namespace State
variable {app : AppState} {m m' : State} {i j : Nat} {r r' : Request}

/-- The lock is that of the task that is past it. -/
structure Exclusive (m : State) : Prop where
  holds : ∀ i r, m.requests[i]? = some r → (r.generator.Holds ↔ m.lock = some i)
  held : ∀ i, m.lock = some i → i < m.requests.length

/-- A step of one request after which its task has the lock as before. -/
theorem Exclusive.of_set (h : m.Exclusive) (hr : m.requests[i]? = some r)
    (hsame : r'.generator.Holds ↔ r.generator.Holds) :
    Exclusive { m with requests := m.requests.set i r' } where
  holds j x hx := by
    rw [List.getElem?_set] at hx
    split at hx
    · next heq =>
        subst heq
        split at hx
        · cases hx
          exact hsame.trans (h.holds i r hr)
        · cases hx
    · exact h.holds j x hx
  held j hj := by
    rw [List.length_set]
    exact h.held j hj

/-- The lock is taken, or dropped. -/
theorem Exclusive.of_lock (h : m.Exclusive) (hr : m.requests[i]? = some r) {lock : Option Nat}
    (hi : r'.generator.Holds ↔ lock = some i) (hothers : ∀ j ≠ i, m.lock ≠ some j)
    (hlock : ∀ j, lock = some j → j = i) :
    Exclusive ⟨m.requests.set i r', lock⟩ where
  holds j x hx := by
    change (m.requests.set i r')[j]? = some x at hx
    rw [List.getElem?_set] at hx
    split at hx
    · next heq =>
        subst heq
        split at hx
        · cases hx
          exact hi
        · cases hx
    · next hne =>
        have hfree := (h.holds j x hx).not.mpr (hothers j (Ne.symm hne))
        exact iff_of_false hfree fun heq => hne (hlock j heq).symm
  held j hj := by
    rw [List.length_set, hlock j hj]
    exact (List.getElem?_eq_some_iff.mp hr).1

end State

namespace Request
variable {app : AppState} {r r' : Request} {clock : Clock}

/-- A task that generates has the lock before and after. -/
theorem holds_generate (h : r.generate app = some r') :
    r.generator.Holds ∧ r'.generator.Holds := by
  unfold Request.generate at h
  split at h
  · next hphase =>
      rw [hphase]
      split at h
      · cases h
        exact ⟨trivial, trivial⟩
      · cases h
        exact ⟨trivial, trivial⟩
  · next text n hphase =>
      rw [hphase]
      refine ⟨trivial, ?_⟩
      split at h
      · cases h
        unfold Request.turn
        dsimp only
        split
        · split
          · trivial
          · split
            · trivial
            · trivial
        · trivial
      · cases h
        trivial
  · next result hphase =>
      cases h
      rw [hphase]
      exact ⟨trivial, trivial⟩
  · next result hphase =>
      cases h
      rw [hphase]
      exact ⟨trivial, trivial⟩
  · next hphase =>
      cases h
      rw [hphase]
      exact ⟨trivial, trivial⟩
  · cases h

/-- A task that has the lock can go on. -/
theorem exists_generate (app : AppState) (h : r.generator.Holds) (hlock : r.generator ≠ .unlocking) :
    ∃ r', r.generate app = some r' := by
  unfold Request.generate
  cases hphase : r.generator with
  | waiting => simp [hphase, Generator.Holds] at h
  | locked =>
      dsimp only
      split
      · exact ⟨_, rfl⟩
      · exact ⟨_, rfl⟩
  | generating text n =>
      dsimp only
      split
      · exact ⟨_, rfl⟩
      · exact ⟨_, rfl⟩
  | returning result => exact ⟨_, rfl⟩
  | returned result => cases result <;> exact ⟨_, rfl⟩
  | unlocking => exact absurd hphase hlock
  | ended => simp [hphase, Generator.Holds] at h

end Request

namespace State
variable {app : AppState} {m m' : State} {i j : Nat} {r r' : Request}

theorem Exclusive.generateStep (h : m.Exclusive) (hr : m.requests[i]? = some r)
    (hstep : m.generateStep app i r = some m') : m'.Exclusive := by
  unfold State.generateStep at hstep
  split at hstep
  · split at hstep
    · next hfree =>
        cases hstep
        refine h.of_lock hr (iff_of_true trivial rfl) (fun j _ => ?_) fun j hj => ?_
        · simp [hfree]
        · exact (Option.some.inj hj).symm
    · cases hstep
  · next hphase =>
      cases hstep
      have hlock : m.lock = some i := (h.holds i r hr).mp (by simp [hphase, Generator.Holds])
      refine h.of_lock hr (iff_of_false id (by simp)) (fun j hj heq => hj ?_) fun j hj => ?_
      · exact Option.some.inj (heq.symm.trans hlock)
      · cases hj
  · obtain ⟨r', hg, rfl⟩ := Option.map_eq_some_iff.mp hstep
    obtain ⟨hbefore, hafter⟩ := Request.holds_generate hg
    exact h.of_set hr (iff_of_true hafter hbefore)

theorem Exclusive.step (h : m.Exclusive) {lab : Label} (hstep : m.step app lab = some m') :
    m'.Exclusive := by
  have hdrained : ∀ {i r r'}, m.requests[i]? = some r → r.Drains r' →
      Exclusive { m with requests := m.requests.set i r' } := fun hr hd =>
    h.of_set hr (by rw [hd.generator])
  cases lab with
  | arrive endpoint g stream =>
      cases hstep
      constructor
      · intro i r hr
        change (m.requests ++ [endpoint.handler g stream])[i]? = some r at hr
        rw [Endpoint.handler_eq, List.getElem?_append] at hr
        split at hr
        · exact h.holds i r hr
        · next hnew =>
            obtain rfl := List.mem_singleton.mp (List.mem_of_getElem? hr)
            exact iff_of_false id fun heq => hnew (h.held i heq)
      · intro i hi
        rw [List.length_append]
        exact (h.held i hi).trans_le (Nat.le_add_right ..)
  | generate i =>
      obtain ⟨r, hr, hstep⟩ := Option.bind_eq_some_iff.mp hstep
      exact h.generateStep hr hstep
  | respond i clock =>
      obtain ⟨r, hr, hstep⟩ := Option.bind_eq_some_iff.mp hstep
      obtain ⟨r', hr', rfl⟩ := Option.map_eq_some_iff.mp hstep
      exact hdrained hr (Request.drains_respond hr')
  | read i =>
      obtain ⟨r, hr, hstep⟩ := Option.bind_eq_some_iff.mp hstep
      obtain ⟨r', hr', rfl⟩ := Option.map_eq_some_iff.mp hstep
      exact hdrained hr (Request.drains_read hr')
  | disconnect i =>
      obtain ⟨r, hr, hstep⟩ := Option.bind_eq_some_iff.mp hstep
      obtain ⟨r', hr', rfl⟩ := Option.map_eq_some_iff.mp hstep
      exact hdrained hr (Request.drains_disconnect hr')

theorem exclusive_of_reaches (h : Reaches (State.step app) (fun _ _ => True) .start m) :
    m.Exclusive := by
  refine h.invariant (P := Exclusive) ⟨fun i r hr => by simp [start] at hr, fun i hi => ?_⟩ ?_
  · cases hi
  · exact fun m lab m' hm _ hstep => hm.step hstep

end State

/-! ### The work left -/

/-- More than what the task can still do; a token counts for the steps that it leads to. -/
def Generator.load (maxTokens : Nat) : Generator → Nat
  | .waiting => 4 * maxTokens + 6
  | .locked => 4 * maxTokens + 5
  | .generating _ n => 4 * (maxTokens - n) + 4
  | .returning _ => 3
  | .returned _ => 2
  | .unlocking => 1
  | .ended => 0

def Responder.load : Responder → Nat
  | .receiving => 5
  | .sending _ => 7
  | .awaiting => 4
  | .sendingLast _ => 3
  | .ended => 0
  | .collecting _ => 2
  | .awaitingFull _ => 1
  | .responded _ => 0
  | .cancelled => 0

namespace Request
variable {app : AppState} {r r' : Request} {endpoint : Endpoint} {clock : Clock}

/-- A token not received yet, a line not read yet, and a client that may leave, all count. -/
def load (r : Request) : Nat :=
  r.generator.load r.generation.maxTokens + 3 * r.tokens.unread + r.responder.load +
    r.body.unread + r.body.rx.toNat

theorem load_turn {text : String} {n : Nat} (hphase : r.generator = .generating text n)
    (hn : n < r.generation.maxTokens) : (r.turn app text n).load < r.load := by
  unfold Request.turn
  dsimp only
  split
  · split
    · simp only [load, hphase, Generator.load, Pipe.unread_send]
      omega
    · split
      · simp only [load, hphase, Generator.load, Pipe.unread_send]
        omega
      · simp only [load, hphase, Generator.load, Pipe.unread_send]
        omega
  · simp only [load, hphase, Generator.load]
    omega

theorem load_generate (h : r.generate app = some r') : r'.load < r.load := by
  unfold Request.generate at h
  split at h
  · next hphase =>
      split at h
      · cases h
        simp only [load, hphase, Generator.load]
        omega
      · cases h
        simp only [load, hphase, Generator.load]
        omega
  · next text n hphase =>
      split at h
      · next hn =>
          cases h
          exact load_turn hphase hn
      · cases h
        simp only [load, hphase, Generator.load]
        omega
  · next result hphase =>
      cases h
      simp only [load, hphase, Generator.load, Pipe.unread_dropTx]
      omega
  · next result hphase =>
      cases h
      simp only [load, hphase, Generator.load]
      omega
  · next hphase =>
      cases h
      simp only [load, hphase, Generator.load]
      omega
  · cases h

theorem load_ndjsonStream (h : r.ndjsonStream app endpoint clock = some r') :
    r'.load < r.load := by
  unfold Request.ndjsonStream at h
  split at h
  · next hphase =>
      split at h
      · next hlt =>
          cases h
          have hunread := Pipe.unread_recv hlt
          simp only [load, hphase, Responder.load]
          omega
      · split at h
        · cases h
          simp only [load, hphase, Responder.load]
          omega
        · cases h
  · next chunk hphase =>
      split at h
      · next hleft =>
          cases h
          simp only [load, hphase, Responder.load, Pipe.unread_dropRx, Pipe.unread_dropTx,
            Pipe.rx_dropTx]
          omega
      · split at h
        · cases h
        · cases h
          simp only [load, hphase, Responder.load, Pipe.unread_send, Pipe.rx_send]
          omega
  · next hphase =>
      obtain ⟨result, -, rfl⟩ := Option.map_eq_some_iff.mp h
      simp only [load, hphase, Responder.load]
      omega
  · next chunk hphase =>
      split at h
      · cases h
        simp only [load, hphase, Responder.load, Pipe.unread_dropTx, Pipe.rx_dropTx]
        omega
      · split at h
        · cases h
        · cases h
          simp only [load, hphase, Responder.load, Pipe.unread_dropTx, Pipe.rx_dropTx,
            Pipe.unread_send, Pipe.rx_send]
          omega
  · cases h

theorem load_collect (h : r.collect app endpoint clock = some r') : r'.load < r.load := by
  unfold Request.collect at h
  split at h
  · next fullResponse hphase =>
      split at h
      · next hlt =>
          cases h
          have hunread := Pipe.unread_recv hlt
          simp only [load, hphase, Responder.load]
          omega
      · split at h
        · cases h
          simp only [load, hphase, Responder.load]
          omega
        · cases h
  · next fullResponse hphase =>
      obtain ⟨result, -, rfl⟩ := Option.map_eq_some_iff.mp h
      simp only [load, hphase, Responder.load]
      omega
  · cases h

theorem load_respond (h : r.respond app clock = some r') : r'.load < r.load := by
  rw [respond_eq, Option.or_eq_some_iff] at h
  rcases h with hstream | ⟨-, hcollect⟩
  · exact load_ndjsonStream hstream
  · exact load_collect hcollect

theorem load_read (h : r.read = some r') : r'.load < r.load := by
  unfold Request.read at h
  split at h
  · split at h
    · next hlt =>
        cases h
        have hunread := Pipe.unread_recv hlt
        simp only [load, Pipe.rx_recv]
        omega
    · cases h
  · cases h

theorem load_disconnect (h : r.disconnect = some r') : r'.load < r.load := by
  unfold Request.disconnect at h
  split at h
  · next fullResponse hphase =>
      cases h
      simp only [load, hphase, Responder.load, Pipe.unread_dropRx]
      omega
  · next fullResponse hphase =>
      cases h
      simp only [load, hphase, Responder.load, Pipe.unread_dropRx]
      omega
  · cases h
  · cases h
  · split at h
    · next hrx =>
        cases h
        simp only [load, Pipe.unread_dropRx, Pipe.rx_dropRx, hrx, Bool.toNat_true, Bool.toNat_false]
        omega
    · cases h

/-- The answer is out: the body has been written to its end, or nobody waits for it. -/
def Answered (r : Request) : Prop :=
  match r.responder with
  | .ended => True
  | .responded _ => True
  | .cancelled => True
  | _ => False

/-- A client that does not read holds up its own body. -/
def HeldUp (r : Request) : Prop := r.body.rx = true ∧ r.body.Full

/-- With its generation ended, an answering task that cannot go on is done, or held up. -/
theorem answered_of_stuck (hgen : r.Generates app) (hended : r.generator = .ended)
    (hstuck : ∀ clock, r.respond app clock = none) : r.Answered ∨ r.HeldUp := by
  simp only [Generates, hended] at hgen
  obtain ⟨result, -, htx, hresult⟩ := hgen
  have hclock := hstuck ⟨"", 0, 0, 0⟩
  rw [respond_eq, Option.or_eq_none_iff] at hclock
  obtain ⟨hstream, hcollect⟩ := hclock
  unfold Answered
  cases hphase : r.responder with
  | receiving =>
      -- the sender is gone: there is a token, or the end
      simp only [ndjsonStream, hphase, htx] at hstream
      split at hstream
      · cases hstream
      · cases hstream
  | sending chunk =>
      simp only [ndjsonStream, hphase] at hstream
      split at hstream
      · cases hstream
      · next hstays =>
          split at hstream
          · next hfull => exact .inr ⟨by simpa using hstays, hfull⟩
          · cases hstream
  | awaiting => simp [ndjsonStream, hphase, hresult] at hstream
  | sendingLast chunk =>
      simp only [ndjsonStream, hphase] at hstream
      split at hstream
      · cases hstream
      · next hstays =>
          split at hstream
          · next hfull => exact .inr ⟨by simpa using hstays, hfull⟩
          · cases hstream
  | collecting fullResponse =>
      simp only [collect, hphase, htx] at hcollect
      split at hcollect
      · cases hcollect
      · cases hcollect
  | awaitingFull fullResponse => simp [collect, hphase, hresult] at hcollect
  | ended | responded chunk | cancelled => exact .inl trivial

/-- A body that its client has no line of to read is not full. -/
theorem not_heldUp (h : r.read = none) : ¬ r.HeldUp := by
  rintro ⟨hrx, hfull⟩
  unfold Request.read at h
  rw [if_pos hrx] at h
  split at h
  · cases h
  · next hnone =>
      have hunread := Pipe.unread_eq_zero.mpr (Pipe.drained_of_not_lt hnone)
      rw [Pipe.Full, hunread] at hfull
      cases hfull

end Request

/-! ### Runs without further requests -/

/-- A step of the server itself. -/
def Label.Own : Label → Prop
  | .generate _ => True
  | .respond _ _ => True
  | _ => False

/-- A step of the server, or of a client that is there. -/
def Label.Serves : Label → Prop
  | .arrive _ _ _ => False
  | _ => True

theorem Label.Own.serves : ∀ {lab : Label}, lab.Own → lab.Serves
  | .generate _, _ => trivial
  | .respond _ _, _ => trivial

namespace State
variable {app : AppState} {m m' : State} {i j : Nat} {r r' : Request}

/-- The server makes a step. -/
def Advances (app : AppState) (m m' : State) : Prop :=
  ∃ lab : Label, lab.Own ∧ m.step app lab = some m'

/-- The server makes a step, or a client reads or leaves. -/
def Proceeds (app : AppState) (m m' : State) : Prop :=
  ∃ lab : Label, lab.Serves ∧ m.step app lab = some m'

/-- The model is free, every generation has ended, and every answer is out, but for those
held up by their own clients. -/
def Free (m : State) : Prop :=
  m.lock = none ∧ ∀ r ∈ m.requests, r.generator = .ended ∧ (r.Answered ∨ r.HeldUp)

/-- Every answer is out, and was read by the client that has stayed. -/
def Served (m : State) : Prop :=
  m.lock = none ∧ ∀ r ∈ m.requests, r.generator = .ended ∧ r.Answered ∧
    (r.body.rx = true → r.body.received = r.body.log)

def load (m : State) : Nat := (m.requests.map Request.load).sum

theorem load_generateStep (hr : m.requests[i]? = some r)
    (hstep : m.generateStep app i r = some m') : m'.load < m.load := by
  unfold State.generateStep at hstep
  split at hstep
  · next hphase =>
      split at hstep
      · cases hstep
        refine sum_map_set_lt _ hr ?_
        simp only [Request.load, hphase, Generator.load]
        omega
      · cases hstep
  · next hphase =>
      cases hstep
      refine sum_map_set_lt _ hr ?_
      simp only [Request.load, Request.unlocked, hphase, Generator.load]
      omega
  · obtain ⟨r', hg, rfl⟩ := Option.map_eq_some_iff.mp hstep
    exact sum_map_set_lt _ hr (Request.load_generate hg)

/-- Every step leaves less to do. -/
theorem load_step {lab : Label} (hlab : lab.Serves) (hstep : m.step app lab = some m') :
    m'.load < m.load := by
  cases lab with
  | arrive endpoint g stream => exact absurd hlab id
  | generate i =>
      obtain ⟨r, hr, hstep⟩ := Option.bind_eq_some_iff.mp hstep
      exact load_generateStep hr hstep
  | respond i clock =>
      obtain ⟨r, hr, hstep⟩ := Option.bind_eq_some_iff.mp hstep
      obtain ⟨r', hr', rfl⟩ := Option.map_eq_some_iff.mp hstep
      exact sum_map_set_lt _ hr (Request.load_respond hr')
  | read i =>
      obtain ⟨r, hr, hstep⟩ := Option.bind_eq_some_iff.mp hstep
      obtain ⟨r', hr', rfl⟩ := Option.map_eq_some_iff.mp hstep
      exact sum_map_set_lt _ hr (Request.load_read hr')
  | disconnect i =>
      obtain ⟨r, hr, hstep⟩ := Option.bind_eq_some_iff.mp hstep
      obtain ⟨r', hr', rfl⟩ := Option.map_eq_some_iff.mp hstep
      exact sum_map_set_lt _ hr (Request.load_disconnect hr')

/-- A task that has the lock can make a step, whatever the clients do. -/
theorem exists_step_of_lock (app : AppState) (h : m.Exclusive) (hlock : m.lock = some i) :
    ∃ m', m.step app (.generate i) = some m' := by
  have hr := List.getElem?_eq_getElem (h.held i hlock)
  have hholds := (h.holds i _ hr).mpr hlock
  simp only [State.step, hr, Option.bind_some]
  unfold State.generateStep
  split
  · next hphase =>
      rw [hphase] at hholds
      exact absurd hholds id
  · exact ⟨_, rfl⟩
  · next hunlocking =>
      obtain ⟨r', hr'⟩ := Request.exists_generate app hholds hunlocking
      rw [hr']
      exact ⟨_, rfl⟩

/-- Where the server cannot make a step, it is done but for the clients. -/
theorem free_of_stuck (h : m.Exclusive) (hsound : m.Sound app)
    (hstuck : ∀ lab : Label, lab.Own → m.step app lab = none) : m.Free := by
  have hfree : m.lock = none := by
    cases hlock : m.lock with
    | none => rfl
    | some i =>
        obtain ⟨m', hm'⟩ := exists_step_of_lock app h hlock
        simp [hstuck (.generate i) trivial] at hm'
  refine ⟨hfree, fun r hr => ?_⟩
  obtain ⟨i, hi⟩ := List.mem_iff_getElem?.mp hr
  have hended : r.generator = .ended := by
    have hnot : ¬ r.generator.Holds := fun hholds => by
      simp [(h.holds i r hi).mp hholds] at hfree
    have hgenerate := hstuck (.generate i) trivial
    cases hphase : r.generator with
    | ended => rfl
    | waiting => simp [State.step, hi, State.generateStep, hphase, hfree] at hgenerate
    | locked | generating text n | returning result | returned result | unlocking =>
        simp [hphase, Generator.Holds] at hnot
  refine ⟨hended, Request.answered_of_stuck (hsound r hr).1 hended fun clock => ?_⟩
  simpa [State.step, hi] using hstuck (.respond i clock) trivial

theorem served_of_stuck (h : m.Exclusive) (hsound : m.Sound app)
    (hstuck : ∀ lab : Label, lab.Serves → m.step app lab = none) : m.Served := by
  obtain ⟨hfree, hall⟩ := free_of_stuck h hsound fun lab hlab => hstuck lab hlab.serves
  refine ⟨hfree, fun r hr => ?_⟩
  obtain ⟨hended, hanswered⟩ := hall r hr
  obtain ⟨i, hi⟩ := List.mem_iff_getElem?.mp hr
  have hread : r.read = none := by simpa [State.step, hi] using hstuck (.read i) trivial
  refine ⟨hended, hanswered.resolve_right (Request.not_heldUp hread), fun hrx => ?_⟩
  unfold Request.read at hread
  rw [if_pos hrx] at hread
  split at hread
  · cases hread
  · next hnone => exact Pipe.received_of_drained (Pipe.drained_of_not_lt hnone)

/-- **The server gets done, whatever the schedule.** From every state that it can reach: if no
client reads or leaves any more, every run comes to an end with the model free and every
generation ended, and at most the bodies of the clients that do not read are held up; and if
the clients go on, every run ends with every answer out, and read by those that stay. -/
theorem requests_served (h : Reaches (State.step app) (fun _ _ => True) .start m) :
    EndsIn (Advances app) Free m ∧ EndsIn (Proceeds app) Served m := by
  have hinv : m.Exclusive ∧ m.Sound app := ⟨exclusive_of_reaches h, sound_of_reaches h⟩
  have hstep : ∀ (m : State) lab (m' : State), m.Exclusive ∧ m.Sound app →
      m.step app lab = some m' → m'.Exclusive ∧ m'.Sound app :=
    fun m lab m' hm hst => ⟨hm.1.step hst, hm.2.step hst⟩
  constructor
  · refine .of_measure wellFounded_lt load (fun m => m.Exclusive ∧ m.Sound app) ?_ ?_ ?_ hinv
    · intro m m' hm ⟨lab, _, hst⟩
      exact hstep m lab m' hm hst
    · intro m m' _ ⟨lab, hlab, hst⟩
      exact load_step hlab.serves hst
    · intro m hm hstuck
      refine free_of_stuck hm.1 hm.2 fun lab hlab => Option.eq_none_iff_forall_ne_some.mpr ?_
      exact fun m' hst => hstuck m' ⟨lab, hlab, hst⟩
  · refine .of_measure wellFounded_lt load (fun m => m.Exclusive ∧ m.Sound app) ?_ ?_ ?_ hinv
    · intro m m' hm ⟨lab, _, hst⟩
      exact hstep m lab m' hm hst
    · intro m m' _ ⟨lab, hlab, hst⟩
      exact load_step hlab hst
    · intro m hm hstuck
      refine served_of_stuck hm.1 hm.2 fun lab hlab => Option.eq_none_iff_forall_ne_some.mpr ?_
      exact fun m' hst => hstuck m' ⟨lab, hlab, hst⟩

/-! ### A receiver that is gone -/

/-- At most one task has the model locked, whatever the schedule. -/
theorem one_generation (h : Reaches (State.step app) (fun _ _ => True) .start m)
    (hi : m.requests[i]? = some r) (hj : m.requests[j]? = some r') (hr : r.generator.Holds)
    (hr' : r'.generator.Holds) : i = j := by
  have hex := exclusive_of_reaches h
  have hlock := (hex.holds i r hi).mp hr
  rw [(hex.holds j r' hj).mp hr'] at hlock
  exact (Option.some.inj hlock).symm

end State

/-- How many steps a task can still make when nobody receives its tokens. -/
def Generator.stepsLeft : Generator → Nat
  | .waiting => 6
  | .locked => 5
  | .generating _ _ => 4
  | .returning _ => 3
  | .returned _ => 2
  | .unlocking => 1
  | .ended => 0

/-- The label is a step of the `i`-th blocking task. -/
def Label.isGenerate (i : Nat) : Label → Bool
  | .generate j => i = j
  | _ => false

theorem Request.stepsLeft_generate {app : AppState} {r r' : Request} (hrx : r.tokens.rx = false)
    (h : r.generate app = some r') :
    r'.generator.stepsLeft < r.generator.stepsLeft ∧ r'.tokens.rx = false := by
  unfold Request.generate at h
  split at h
  · next hphase =>
      split at h
      · cases h
        simp [hphase, hrx, Generator.stepsLeft]
      · cases h
        simp [hphase, hrx, Generator.stepsLeft]
  · next text n hphase =>
      rw [hphase]
      -- the token cannot be sent, and the loop ends
      split at h
      · cases h
        simp [Request.turn, hrx, Generator.stepsLeft]
      · cases h
        simp [hrx, Generator.stepsLeft]
  · next result hphase =>
      cases h
      simp [hphase, hrx, Generator.stepsLeft]
  · next result hphase =>
      cases h
      simp [hphase, hrx, Generator.stepsLeft]
  · next hphase =>
      cases h
      simp [hphase, hrx, Generator.stepsLeft]
  · cases h

namespace State
variable {app : AppState} {m m' : State} {i j : Nat} {r r' : Request}

/-- The `i`-th request, which was `r`, has lost its receiver and has `k` steps less to make. -/
def Left (i k : Nat) (r : Request) (m : State) : Prop :=
  ∃ r', m.requests[i]? = some r' ∧ r'.tokens.rx = false ∧
    r'.generator.stepsLeft + k ≤ r.generator.stepsLeft

section Left
variable {k : Nat} {x x' : Request} {lock : Option Nat} (hi : m.requests[i]? = some r)
  (hrx : r.tokens.rx = false) (hj : m.requests[j]? = some x)
include hi hrx hj

/-- A step of the `j`-th request. -/
theorem left_set (hown : j = i → x.tokens.rx = false →
      x'.tokens.rx = false ∧ x'.generator.stepsLeft + k ≤ x.generator.stepsLeft)
    (hother : j ≠ i → k = 0) : Left i k r ⟨m.requests.set j x', lock⟩ := by
  by_cases heq : j = i
  · subst heq
    obtain rfl := Option.some.inj (hi.symm.trans hj)
    refine ⟨x', ?_, hown rfl hrx⟩
    exact List.getElem?_set_self (List.getElem?_eq_some_iff.mp hi).1
  · refine ⟨r, ?_, hrx, by rw [hother heq]; rfl⟩
    exact (List.getElem?_set_ne heq).trans hi

/-- The other tasks do not give it a receiver. -/
theorem left_drained (hd : x.Drains x') : Left i 0 r ⟨m.requests.set j x', lock⟩ := by
  refine left_set hi hrx hj (fun _ hx => ⟨?_, by rw [hd.generator]; rfl⟩) fun _ => rfl
  by_contra hrx'
  simp [hd.rx (by simpa using hrx')] at hx

/-- The blocking task makes one step of those it has left. -/
theorem left_generateStep (hstep : m.generateStep app j x = some m') :
    Left i (Label.isGenerate i (.generate j)).toNat r m' := by
  have hother : j ≠ i → (Label.isGenerate i (.generate j)).toNat = 0 := fun hne => by
    simp [Label.isGenerate, Ne.symm hne]
  have hown : ∀ {x' : Request}, (x.tokens.rx = false →
      x'.generator.stepsLeft < x.generator.stepsLeft ∧ x'.tokens.rx = false) → j = i →
      x.tokens.rx = false → x'.tokens.rx = false ∧ x'.generator.stepsLeft +
        (Label.isGenerate i (.generate j)).toNat ≤ x.generator.stepsLeft := by
    intro x' hless heq hx
    obtain ⟨hlt, hrx'⟩ := hless hx
    refine ⟨hrx', ?_⟩
    simp only [Label.isGenerate, heq, decide_true, Bool.toNat_true]
    omega
  unfold State.generateStep at hstep
  split at hstep
  · next hphase =>
      split at hstep
      · cases hstep
        exact left_set hi hrx hj (hown fun hx => ⟨by simp [hphase, Generator.stepsLeft], hx⟩) hother
      · cases hstep
  · next hphase =>
      cases hstep
      refine left_set hi hrx hj (hown fun hx => ⟨?_, hx⟩) hother
      simp [Request.unlocked, hphase, Generator.stepsLeft]
  · obtain ⟨x', hg, rfl⟩ := Option.map_eq_some_iff.mp hstep
    exact left_set hi hrx hj (hown fun hx => Request.stepsLeft_generate hx hg) hother

end Left

/-- Where the `i`-th request is after a step: as before but for the step, if it was its own. -/
theorem stepsLeft_step (hi : m.requests[i]? = some r) (hrx : r.tokens.rx = false) {lab : Label}
    (hstep : m.step app lab = some m') : Left i (lab.isGenerate i).toNat r m' := by
  cases lab with
  | arrive endpoint g stream =>
      cases hstep
      refine ⟨r, ?_, hrx, le_rfl⟩
      exact (List.getElem?_append_left (List.getElem?_eq_some_iff.mp hi).1).trans hi
  | generate j =>
      obtain ⟨x, hj, hstep⟩ := Option.bind_eq_some_iff.mp hstep
      exact left_generateStep hi hrx hj hstep
  | respond j clock =>
      obtain ⟨x, hj, hstep⟩ := Option.bind_eq_some_iff.mp hstep
      obtain ⟨x', hx', rfl⟩ := Option.map_eq_some_iff.mp hstep
      exact left_drained hi hrx hj (Request.drains_respond hx')
  | read j =>
      obtain ⟨x, hj, hstep⟩ := Option.bind_eq_some_iff.mp hstep
      obtain ⟨x', hx', rfl⟩ := Option.map_eq_some_iff.mp hstep
      exact left_drained hi hrx hj (Request.drains_read hx')
  | disconnect j =>
      obtain ⟨x, hj, hstep⟩ := Option.bind_eq_some_iff.mp hstep
      obtain ⟨x', hx', rfl⟩ := Option.map_eq_some_iff.mp hstep
      exact left_drained hi hrx hj (Request.drains_disconnect hx')

/-- **A request whose tokens nobody receives comes to its end by itself**: in no run does its
task make more than six steps, and in no run of a task that is in the loop more than four. -/
theorem left_stops {labs : List Label} (hi : m.requests[i]? = some r)
    (hrx : r.tokens.rx = false) (h : exec (State.step app) (fun _ _ => true) m labs = some m') :
    labs.countP (Label.isGenerate i) ≤ r.generator.stepsLeft := by
  induction labs generalizing m r with
  | nil => simp
  | cons lab labs ih =>
      obtain ⟨m₁, hstep, hrest⟩ := Option.bind_eq_some_iff.mp h
      obtain ⟨r₁, hr₁, hrx₁, hless⟩ := stepsLeft_step hi hrx hstep
      have hlater := ih hr₁ hrx₁ hrest
      rw [List.countP_cons]
      cases hlab : lab.isGenerate i with
      | false =>
          rw [hlab] at hless
          simpa using hlater.trans hless
      | true =>
          rw [hlab, Bool.toNat_true] at hless
          simp only [if_true]
          omega

end State

/-! ### A client that does not read, and one that leaves -/

/-- Two streams; the first client has read nothing, and the second one leaves. -/
def slowAndGone : List Label :=
  [.arrive .generate abGeneration true, .arrive .chat abGeneration true, .generate 0, .generate 0, .generate 0,
    .respond 0 tick, .respond 0 tick, .disconnect 1]

theorem slowAndGone_served : ∃ m, exec (State.step abApp) (fun _ _ => true) .start slowAndGone =
    some m ∧ (m.lock = some 0 ∧ m.requests.map (fun r => r.body.unread) = [1, 0]) ∧
      EndsIn (State.Advances abApp) State.Free m ∧ EndsIn (State.Proceeds abApp) State.Served m := by
  have hrun : (exec (State.step abApp) (fun _ _ => true) .start slowAndGone).map
      (fun m => (m.lock, m.requests.map fun r => r.body.unread)) = some (some 0, [1, 0]) := by
    decide +kernel
  obtain ⟨m, hm, heq⟩ := Option.map_eq_some_iff.mp hrun
  exact ⟨m, hm, Prod.mk.inj heq, State.requests_served (Reaches.exec (fun _ _ _ => trivial) .refl hm)⟩

/-- The client of a request without a stream leaves after the first token; the task then
makes four steps. -/
theorem goneAfterFirst_stops : ∃ m r m', m.requests[0]? = some r ∧ r.tokens.rx = false ∧
    exec (State.step abApp) (fun _ _ => true) m (List.replicate 4 (.generate 0)) = some m' ∧
      (List.replicate 4 (Label.generate 0)).countP (Label.isGenerate 0) ≤ r.generator.stepsLeft := by
  have hrun : (exec (State.step abApp) (fun _ _ => true) .start
      [.arrive .generate abGeneration false, .generate 0, .generate 0, .generate 0, .disconnect 0]).map
      (fun m => ((m.requests[0]?).map fun r => r.tokens.rx, (exec (State.step abApp)
        (fun _ _ => true) m (List.replicate 4 (.generate 0))).isSome)) = some (some false, true) := by
    decide +kernel
  obtain ⟨m, -, heq⟩ := Option.map_eq_some_iff.mp hrun
  obtain ⟨hleft, hsome⟩ := Prod.mk.inj heq
  obtain ⟨r, hr, hrx⟩ := Option.map_eq_some_iff.mp hleft
  obtain ⟨m', hm'⟩ := Option.isSome_iff_exists.mp hsome
  exact ⟨m, r, m', hr, hrx, hm', State.left_stops hr hrx hm'⟩

end Hypura.Server
