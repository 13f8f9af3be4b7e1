import Mathlib.Tactic
import Mathlib.Data.List.Basic

/-!
# Hypura.Core.Tally

Totals by key, kept in ascending order of the keys.

* `add` — count an amount under a key,
* `below` — what is counted under the keys below a bound.
-/

namespace Hypura.Core

/-- Totals by key. -/
abbrev Tally := List (Nat × Nat)

namespace Tally

/-- Count `n` under key `k`. -/
def add : Tally → Nat → Nat → Tally
  | [], k, n => [(k, n)]
  | (k', total) :: m, k, n =>
    if k < k' then (k, n) :: (k', total) :: m
    else if k = k' then (k', total + n) :: m
    else (k', total) :: add m k n

/-- Everything under keys below `b`. -/
def below (m : Tally) (b : Nat) : Nat := ((m.filter fun e => e.1 < b).map (·.2)).sum

/-- Every key once, in ascending order. -/
def Ascending (m : Tally) : Prop := m.Pairwise fun e e' => e.1 < e'.1

variable {m : Tally} {k n b : Nat} {e : Nat × Nat}

@[simp] theorem below_nil (b : Nat) : below [] b = 0 := rfl

theorem below_cons_of_lt (h : e.1 < b) : below (e :: m) b = e.2 + below m b := by
  rw [below, List.filter_cons_of_pos (by simpa using h), List.map_cons, List.sum_cons]
  rfl

theorem below_cons_of_le (h : b ≤ e.1) : below (e :: m) b = below m b := by
  rw [below, List.filter_cons_of_neg (by simpa using h)]
  rfl

theorem below_eq_zero (h : ∀ e ∈ m, b ≤ e.1) : below m b = 0 := by
  rw [below, List.filter_eq_nil_iff.mpr fun e he => by simpa using h e he]
  rfl

theorem mem_keys_add : (∃ e ∈ m.add k n, e.1 = b) ↔ b = k ∨ ∃ e ∈ m, e.1 = b := by
  induction m with
  | nil => simp [add, eq_comm]
  | cons e m ih =>
      obtain ⟨k', total⟩ := e
      rw [add]
      split
      · simp [eq_comm]
      · split
        · next hk => simp [hk, eq_comm]
        · simp only [List.exists_mem_cons_iff, ih]
          tauto

theorem below_add : (m.add k n).below b = m.below b + if k < b then n else 0 := by
  induction m with
  | nil =>
      rw [add]
      by_cases hk : k < b
      · rw [below_cons_of_lt hk, if_pos hk, Nat.add_comm]
      · rw [below_cons_of_le (by simpa using hk), if_neg hk, Nat.add_zero]
  | cons e m ih =>
      obtain ⟨k', total⟩ := e
      rw [add]
      split
      · by_cases hk : k < b
        · rw [below_cons_of_lt hk, if_pos hk, Nat.add_comm]
        · rw [below_cons_of_le (by simpa using hk), if_neg hk, Nat.add_zero]
      · split
        · next hk =>
            subst hk
            by_cases hb : k < b
            · rw [below_cons_of_lt hb, below_cons_of_lt hb, if_pos hb]
              omega
            · rw [below_cons_of_le (by simpa using hb), below_cons_of_le (by simpa using hb),
                if_neg hb, Nat.add_zero]
        · by_cases hb : k' < b
          · rw [below_cons_of_lt hb, below_cons_of_lt hb, ih, Nat.add_assoc]
          · rw [below_cons_of_le (by simpa using hb), below_cons_of_le (by simpa using hb), ih]

theorem Ascending.add (h : m.Ascending) (k n : Nat) : (m.add k n).Ascending := by
  induction m with
  | nil => exact List.pairwise_singleton _ _
  | cons e m ih =>
      obtain ⟨k', total⟩ := e
      obtain ⟨hlt, hm⟩ := List.pairwise_cons.mp h
      rw [Tally.add]
      split
      · next hk =>
          refine List.pairwise_cons.mpr ⟨fun e he => ?_, h⟩
          rcases List.mem_cons.mp he with rfl | he
          · exact hk
          · exact hk.trans (hlt e he)
      · split
        · exact List.pairwise_cons.mpr ⟨hlt, hm⟩
        · refine List.pairwise_cons.mpr ⟨fun e he => ?_, ih hm⟩
          rcases mem_keys_add.mp ⟨e, he, rfl⟩ with hek | ⟨e', he', heq⟩
          · rw [hek]
            omega
          · rw [← heq]
            exact hlt e' he'

end Tally

end Hypura.Core
