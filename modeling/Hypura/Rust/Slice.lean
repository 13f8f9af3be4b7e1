import Mathlib.Tactic
import Mathlib.Data.List.Basic

/-!
# Hypura.Rust.Slice

Slices and iterators of the standard library that the program leans on: a block
written over part of a byte vector (`overwrite`), `copy_from_slice` between two
ranges, and `Iterator::max_by_key`, which keeps the **last** of several maxima.
-/

namespace Hypura.Rust

/-! ### Writing over part of a byte string -/

/-- `dst` with the bytes from `pos` on replaced by `bs`. -/
def overwrite (dst : List UInt8) (pos : Nat) (bs : List UInt8) : List UInt8 :=
  dst.take pos ++ bs ++ dst.drop (pos + bs.length)

theorem overwrite_length {dst : List UInt8} {pos : Nat} {bs : List UInt8}
    (h : pos + bs.length ≤ dst.length) : (overwrite dst pos bs).length = dst.length := by
  simp only [overwrite, List.length_append, List.length_take, List.length_drop]
  omega

theorem getElem?_overwrite_of_lt {dst : List UInt8} {pos : Nat} {bs : List UInt8}
    (h : pos + bs.length ≤ dst.length) {i : Nat} (hi : i < pos ∨ pos + bs.length ≤ i) :
    (overwrite dst pos bs)[i]? = dst[i]? := by
  unfold overwrite
  rcases hi with hi | hi
  · rw [List.append_assoc, List.getElem?_append_left (by simp; omega), List.getElem?_take_of_lt hi]
  · rw [List.getElem?_append_right (by simp; omega), List.getElem?_drop]
    congr 1
    simp only [List.length_append, List.length_take]
    omega

theorem getElem?_overwrite_add {dst : List UInt8} {pos : Nat} {bs : List UInt8}
    (h : pos + bs.length ≤ dst.length) {k : Nat} (hk : k < bs.length) :
    (overwrite dst pos bs)[pos + k]? = bs[k]? := by
  have hlen : (dst.take pos).length = pos := by simp; omega
  unfold overwrite
  rw [List.getElem?_append_left (by rw [List.length_append]; omega),
    List.getElem?_append_right (by omega), hlen, Nat.add_sub_cancel_left]

/-- `dst[pos..pos + len].copy_from_slice(&src[start..start + len])`; `none` is the panic
of a range that leaves its vector. -/
def copySlice (dst : List UInt8) (pos : Nat) (src : List UInt8) (start len : Nat) :
    Option (List UInt8) :=
  if start + len ≤ src.length ∧ pos + len ≤ dst.length then
    some (overwrite dst pos ((src.drop start).take len))
  else none

/-- What a copy that does not panic leaves in the destination. -/
theorem copySlice_spec {dst src out : List UInt8} {pos start len : Nat}
    (h : copySlice dst pos src start len = some out) :
    out.length = dst.length ∧
      (∀ i, i < pos ∨ pos + len ≤ i → out[i]? = dst[i]?) ∧
      ∀ k < len, out[pos + k]? = src[start + k]? := by
  unfold copySlice at h
  split at h
  · next hb =>
      obtain ⟨hsrc, hdst⟩ := hb
      cases h
      have hlen : ((src.drop start).take len).length = len := by simp; omega
      refine ⟨overwrite_length (by omega), fun i hi => ?_, fun k hk => ?_⟩
      · exact getElem?_overwrite_of_lt (by omega) (by omega)
      · rw [getElem?_overwrite_add (by omega) (by omega), List.getElem?_take_of_lt hk,
          List.getElem?_drop]
  · cases h

/-! ### `chunks` -/

section Chunks
variable {α : Type}

/-- The first `k` chunks of `n` elements. -/
def chunksFrom (n : Nat) : Nat → List α → List (List α)
  | 0, _ => []
  | _, [] => []
  | k + 1, x :: xs => (x :: xs).take n :: chunksFrom n k ((x :: xs).drop n)

/-- `xs.chunks(n)`, for `n` at least 1. -/
def chunks (n : Nat) (xs : List α) : List (List α) :=
  chunksFrom n xs.length xs

theorem flatten_chunksFrom {n : Nat} (hn : 0 < n) :
    ∀ {k : Nat} {xs : List α}, xs.length ≤ k → (chunksFrom n k xs).flatten = xs
  | 0, xs, h => by
      rw [List.length_eq_zero_iff.mp (Nat.le_zero.mp h)]
      rfl
  | k + 1, [], _ => rfl
  | k + 1, x :: xs, h => by
      have hlen : ((x :: xs).drop n).length ≤ k := by
        rw [List.length_drop]
        simp only [List.length_cons] at h ⊢
        omega
      rw [chunksFrom, List.flatten_cons, flatten_chunksFrom hn hlen, List.take_append_drop]

/-- Chunking drops and repeats nothing. -/
theorem flatten_chunks {n : Nat} (hn : 0 < n) (xs : List α) : (chunks n xs).flatten = xs :=
  flatten_chunksFrom hn le_rfl

end Chunks

/-! ### `max_by_key` -/

section MaxBy
variable {α : Type}

/-- The last element with the greatest value. -/
def lastMaxBy (val : α → Nat) : List α → Option α
  | [] => none
  | x :: xs => some (xs.foldl (fun m y => if val y < val m then m else y) x)

/-- `xs.max_by_key(key)`: every key is computed, and `none` is the panic of a key that
cannot be. -/
def maxByKey (key : α → Option Nat) (xs : List α) : Option (Option α) :=
  if xs.all fun x => (key x).isSome then
    some (lastMaxBy (fun x => (key x).getD 0) xs)
  else none

/-- The winner is at least everything before it and above everything after it. -/
theorem foldl_lastMax_split (val : α → Nat) (xs : List α) (x : α) :
    ∃ pre m post, x :: xs = pre ++ m :: post ∧
      xs.foldl (fun m y => if val y < val m then m else y) x = m ∧
      (∀ y ∈ pre, val y ≤ val m) ∧ ∀ y ∈ post, val y < val m := by
  induction xs using List.reverseRecOn with
  | nil => exact ⟨[], x, [], rfl, rfl, by simp, by simp⟩
  | append_singleton xs z ih =>
      obtain ⟨pre, m, post, heq, hm, hpre, hpost⟩ := ih
      rw [List.foldl_append, hm, List.foldl_cons, List.foldl_nil]
      by_cases hz : val z < val m
      · refine ⟨pre, m, post ++ [z], ?_, if_pos hz, hpre, ?_⟩
        · rw [← List.cons_append, heq, List.append_assoc, List.cons_append]
        · intro y hy
          rcases List.mem_append.mp hy with hy | hy
          · exact hpost y hy
          · rwa [List.mem_singleton.mp hy]
      · refine ⟨pre ++ m :: post, z, [], ?_, if_neg hz, ?_, by simp⟩
        · rw [← List.cons_append, heq]
        · have hmz : val m ≤ val z := Nat.le_of_not_lt hz
          intro y hy
          rcases List.mem_append.mp hy with hy | hy
          · exact (hpre y hy).trans hmz
          · rcases List.mem_cons.mp hy with rfl | hy
            · exact hmz
            · exact (hpost y hy).le.trans hmz

theorem lastMaxBy_split {val : α → Nat} {xs : List α} {m : α} (h : lastMaxBy val xs = some m) :
    ∃ pre post, xs = pre ++ m :: post ∧
      (∀ y ∈ pre, val y ≤ val m) ∧ ∀ y ∈ post, val y < val m := by
  cases xs with
  | nil => cases h
  | cons x xs =>
      obtain ⟨pre, m', post, heq, hm, hpre, hpost⟩ := foldl_lastMax_split val xs x
      have hmm : m' = m := hm.symm.trans (Option.some.inj h)
      subst hmm
      exact ⟨pre, post, heq, hpre, hpost⟩

theorem lastMaxBy_isSome (val : α → Nat) {xs : List α} (h : xs ≠ []) :
    ∃ m, lastMaxBy val xs = some m := by
  cases xs with
  | nil => exact absurd rfl h
  | cons x xs => exact ⟨_, rfl⟩

theorem lastMaxBy_mem {val : α → Nat} {xs : List α} {m : α} (h : lastMaxBy val xs = some m) :
    m ∈ xs := by
  obtain ⟨pre, post, rfl, -, -⟩ := lastMaxBy_split h
  simp

theorem lastMaxBy_max {val : α → Nat} {xs : List α} {m : α} (h : lastMaxBy val xs = some m) :
    ∀ y ∈ xs, val y ≤ val m := by
  obtain ⟨pre, post, rfl, hpre, hpost⟩ := lastMaxBy_split h
  intro y hy
  rcases List.mem_append.mp hy with hy | hy
  · exact hpre y hy
  · rcases List.mem_cons.mp hy with rfl | hy
    · exact le_rfl
    · exact (hpost y hy).le

/-- The first element wins exactly when it beats all the others outright. -/
theorem lastMaxBy_cons_eq_head {val : α → Nat} {x : α} {xs : List α} (hx : x ∉ xs) :
    lastMaxBy val (x :: xs) = some x ↔ ∀ y ∈ xs, val y < val x := by
  constructor
  · intro h
    obtain ⟨pre, post, heq, -, hpost⟩ := lastMaxBy_split h
    cases pre with
    | nil =>
        obtain rfl : xs = post := (List.cons.inj heq).2
        exact hpost
    | cons y pre =>
        obtain ⟨-, rfl⟩ := List.cons.inj heq
        exact absurd (by simp) hx
  · intro h
    obtain ⟨pre, m, post, heq, hm, hpre, -⟩ := foldl_lastMax_split val xs x
    cases pre with
    | nil =>
        obtain ⟨rfl, -⟩ := List.cons.inj heq
        exact congrArg some hm
    | cons y pre =>
        obtain ⟨rfl, rfl⟩ := List.cons.inj heq
        have h₁ := hpre x List.mem_cons_self
        have h₂ := h m (by simp)
        omega

theorem maxByKey_eq_some {key : α → Option Nat} {xs : List α} {r : Option α}
    (h : maxByKey key xs = some r) :
    (∀ x ∈ xs, (key x).isSome) ∧ r = lastMaxBy (fun x => (key x).getD 0) xs := by
  unfold maxByKey at h
  split at h
  · next hall => exact ⟨by simpa using hall, (Option.some.inj h).symm⟩
  · cases h

theorem maxByKey_of_isSome {key : α → Option Nat} {xs : List α} (h : ∀ x ∈ xs, (key x).isSome) :
    maxByKey key xs = some (lastMaxBy (fun x => (key x).getD 0) xs) :=
  if_pos (List.all_eq_true.mpr h)

end MaxBy

end Hypura.Rust
