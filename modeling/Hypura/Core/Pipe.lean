import Mathlib.Data.List.Infix

/-!
# Hypura.Core.Pipe

A channel between two tasks, with room for everything or for so many elements.

A `Pipe` is the history of what was sent and how much of it was received, with the two
ends, each of which its owner may drop. So nothing is lost, repeated or reordered by
construction, and what is in the channel is the part of the history not received yet.

This is what the channels of `tokio::sync::mpsc` are documented to do: elements are received in
the order in which they were sent; `recv` waits for the next one, and gives `None` once the
sender is dropped and nothing is left; `send` waits for room in a channel that is bounded, and
fails only when the receiver is dropped.
-/

namespace Hypura.Core

/-- A channel; `none` is an unbounded one. -/
structure Pipe (α : Type) (cap : Option Nat) where
  /-- Everything sent. -/
  log : List α
  /-- How much of it was received. -/
  taken : Nat
  /-- The sender is there. -/
  tx : Bool
  /-- The receiver is there. -/
  rx : Bool
  taken_le : taken ≤ log.length
  fits : ∀ c, cap = some c → log.length ≤ taken + c

namespace Pipe
variable {α : Type} {cap : Option Nat}

def new : Pipe α cap where
  log := []
  taken := 0
  tx := true
  rx := true
  taken_le := le_rfl
  fits _ _ := Nat.zero_le _

/-- What was received. -/
def received (p : Pipe α cap) : List α := p.log.take p.taken

/-- How many elements are in the channel. -/
def unread (p : Pipe α cap) : Nat := p.log.length - p.taken

/-- Nothing is left, and nothing will come. -/
def Closed (p : Pipe α cap) : Prop := p.tx = false ∧ p.taken = p.log.length

instance (p : Pipe α cap) : Decidable p.Closed := inferInstanceAs (Decidable (_ ∧ _))

/-- The channel has no room. -/
def Full (p : Pipe α cap) : Prop := cap = some p.unread

instance (p : Pipe α cap) : Decidable p.Full := inferInstanceAs (Decidable (cap = _))

theorem unread_lt {p : Pipe α cap} (h : ¬ p.Full) {c : Nat} (hc : cap = some c) : p.unread < c := by
  have hle := p.fits c hc
  have hne : p.unread ≠ c := fun heq => h (by rw [Full, heq, hc])
  unfold unread at hne ⊢
  omega

/-- Send, where there is room. -/
def send (p : Pipe α cap) (x : α) (h : ¬ p.Full) : Pipe α cap where
  log := p.log ++ [x]
  taken := p.taken
  tx := p.tx
  rx := p.rx
  taken_le := p.taken_le.trans (by simp)
  fits c hc := by
    have hlt := unread_lt h hc
    have hle := p.taken_le
    unfold unread at hlt
    simp only [List.length_append, List.length_singleton]
    omega

/-- Receive, where there is something. -/
def recv (p : Pipe α cap) (h : p.taken < p.log.length) : Pipe α cap where
  log := p.log
  taken := p.taken + 1
  tx := p.tx
  rx := p.rx
  taken_le := h
  fits c hc := (p.fits c hc).trans (by omega)

def dropTx (p : Pipe α cap) : Pipe α cap := { p with tx := false }

def dropRx (p : Pipe α cap) : Pipe α cap := { p with rx := false }

/-! ### What the operations leave -/

variable {p : Pipe α cap} {x : α}

@[simp] theorem log_new : (new : Pipe α cap).log = [] := rfl
@[simp] theorem tx_new : (new : Pipe α cap).tx = true := rfl
@[simp] theorem rx_new : (new : Pipe α cap).rx = true := rfl
@[simp] theorem received_new : (new : Pipe α cap).received = [] := rfl
@[simp] theorem unread_new : (new : Pipe α cap).unread = 0 := rfl

@[simp] theorem log_send (h : ¬ p.Full) : (p.send x h).log = p.log ++ [x] := rfl
@[simp] theorem tx_send (h : ¬ p.Full) : (p.send x h).tx = p.tx := rfl
@[simp] theorem rx_send (h : ¬ p.Full) : (p.send x h).rx = p.rx := rfl

@[simp] theorem received_send (h : ¬ p.Full) : (p.send x h).received = p.received :=
  List.take_append_of_le_length p.taken_le

@[simp] theorem unread_send (h : ¬ p.Full) : (p.send x h).unread = p.unread + 1 := by
  have hle := p.taken_le
  simp only [unread, send, List.length_append, List.length_singleton]
  omega

@[simp] theorem log_recv (h : p.taken < p.log.length) : (p.recv h).log = p.log := rfl
@[simp] theorem tx_recv (h : p.taken < p.log.length) : (p.recv h).tx = p.tx := rfl
@[simp] theorem rx_recv (h : p.taken < p.log.length) : (p.recv h).rx = p.rx := rfl

theorem unread_recv (h : p.taken < p.log.length) : (p.recv h).unread + 1 = p.unread := by
  simp only [unread, recv]
  omega

theorem received_recv (h : p.taken < p.log.length) :
    (p.recv h).received = p.received ++ [p.log[p.taken]] :=
  (List.take_append_getElem h).symm

@[simp] theorem log_dropTx : p.dropTx.log = p.log := rfl
@[simp] theorem tx_dropTx : p.dropTx.tx = false := rfl
@[simp] theorem rx_dropTx : p.dropTx.rx = p.rx := rfl
@[simp] theorem received_dropTx : p.dropTx.received = p.received := rfl
@[simp] theorem unread_dropTx : p.dropTx.unread = p.unread := rfl

@[simp] theorem log_dropRx : p.dropRx.log = p.log := rfl
@[simp] theorem tx_dropRx : p.dropRx.tx = p.tx := rfl
@[simp] theorem rx_dropRx : p.dropRx.rx = false := rfl
@[simp] theorem received_dropRx : p.dropRx.received = p.received := rfl
@[simp] theorem unread_dropRx : p.dropRx.unread = p.unread := rfl

/-! ### The two ends -/

/-- What was received is the first part of what was sent. -/
theorem received_prefix (p : Pipe α cap) : p.received <+: p.log := List.take_prefix ..

theorem received_of_drained (h : p.taken = p.log.length) : p.received = p.log := by
  rw [received, h, List.take_length]

theorem not_full (p : Pipe α none) : ¬ p.Full := by simp [Full]

/-- Without an element the channel is drained. -/
theorem drained_of_not_lt (h : ¬ p.taken < p.log.length) : p.taken = p.log.length :=
  le_antisymm p.taken_le (not_lt.mp h)

theorem unread_eq_zero : p.unread = 0 ↔ p.taken = p.log.length := by
  have hle := p.taken_le
  unfold unread
  omega

end Pipe

end Hypura.Core
