import Mathlib.Order.Interval.Finset.Nat
import Hypura.Rust.Int
import Hypura.Rust.Slice

/-!
# Hypura.Cache.KvCache

Windowing of the KV cache (`cache/kv_cache.rs`), and the generation loop that drives it
(`generate_with_nvme_scheduling`, `compute/inference.rs`).

* `LlamaMemory` — llama's memory for sequence 0, as the set of the positions it holds,
* `KvCacheManager` — a counter of positions, which every 256 calls evicts what is out of
  the hot window,
* `generation_windowed` — after every decode the window is there, and not much more.
-/

namespace Hypura

open Hypura.Rust

/-! ### llama's memory -/

/-- The positions held for sequence 0. -/
abbrev LlamaMemory := Finset Nat

namespace LlamaMemory

/-- The position after the greatest one held. -/
def nextPos (mem : LlamaMemory) : Nat := mem.sup (· + 1)

/-- `decode`: every token of the batch takes the next position. -/
def decode (mem : LlamaMemory) (tokens : List Int) : LlamaMemory :=
  tokens.foldl (fun mem _ => insert mem.nextPos mem) mem

/-- `llama_memory_seq_pos_min`: -1 if no position is held. -/
def seqPosMin (mem : LlamaMemory) : Int :=
  match mem.min with
  | some p => (p : Nat)
  | none => -1

/-- `llama_memory_seq_rm`, which succeeds: `[p0, p1)` is removed. -/
def seqRm (mem : LlamaMemory) (p0 p1 : Int) : LlamaMemory :=
  mem.filter fun p => ¬ (p0 ≤ (p : Int) ∧ (p : Int) < p1)

/-! #### A memory that holds a range -/

section Ico
variable {a b e : Nat}

theorem nextPos_Ico (h : a < b) : nextPos (Finset.Ico a b) = b := by
  refine le_antisymm (Finset.sup_le fun p hp => (Finset.mem_Ico.mp hp).2) ?_
  have hmem : b - 1 ∈ Finset.Ico a b := Finset.mem_Ico.mpr ⟨by omega, by omega⟩
  have hle := Finset.le_sup (f := (· + 1)) hmem
  rwa [Nat.sub_add_cancel (by omega)] at hle

theorem nextPos_range (n : Nat) : nextPos (Finset.Ico 0 n) = n := by
  rcases Nat.eq_zero_or_pos n with rfl | h
  · rfl
  · exact nextPos_Ico h

theorem insert_Ico (h : a ≤ b) : insert b (Finset.Ico a b) = Finset.Ico a (b + 1) := by
  ext p
  simp only [Finset.mem_insert, Finset.mem_Ico]
  omega

theorem decode_range (n : Nat) (tokens : List Int) :
    decode (Finset.Ico 0 n) tokens = Finset.Ico 0 (n + tokens.length) := by
  induction tokens generalizing n with
  | nil => rfl
  | cons t tokens ih =>
      rw [decode, List.foldl_cons, nextPos_range, insert_Ico (Nat.zero_le n), List.length_cons,
        Nat.add_comm tokens.length, ← Nat.add_assoc]
      exact ih (n + 1)

theorem decode_singleton (h : a < b) (token : Int) :
    decode (Finset.Ico a b) [token] = Finset.Ico a (b + 1) := by
  rw [decode, List.foldl_cons, List.foldl_nil, nextPos_Ico h, insert_Ico h.le]

theorem seqPosMin_Ico (h : a < b) : seqPosMin (Finset.Ico a b) = a := by
  have hmin : (Finset.Ico a b).min = (a : WithTop Nat) :=
    le_antisymm (Finset.min_le (Finset.left_mem_Ico.mpr h))
      (Finset.le_min fun p hp => WithTop.coe_le_coe.mpr (Finset.mem_Ico.mp hp).1)
  rw [seqPosMin, hmin]
  rfl

theorem seqRm_Ico (h : a ≤ e) : seqRm (Finset.Ico a b) a e = Finset.Ico e b := by
  ext p
  simp only [seqRm, Finset.mem_filter, Finset.mem_Ico]
  omega

end Ico

end LlamaMemory

/-! ### The manager -/

structure KvCacheManager where
  hotWindowTokens : Nat
  currentPos : Nat
  compactInterval : Nat
  tokensSinceCheck : Nat

namespace KvCacheManager

/-- `KvCacheManager::new`. -/
def new (hotWindowTokens : Nat) : KvCacheManager where
  hotWindowTokens := hotWindowTokens
  currentPos := 0
  compactInterval := 256
  tokensSinceCheck := 0

/-- `check_and_compact`: evict what is out of the hot window. -/
def checkAndCompact (mgr : KvCacheManager) (mem : LlamaMemory) : LlamaMemory × Bool :=
  if mgr.hotWindowTokens = 0 ∨ mgr.currentPos ≤ mgr.hotWindowTokens then (mem, false)
  else
    -- the context has a memory: `llama_get_memory` does not return null
    let evictBefore := asI32 (mgr.currentPos - mgr.hotWindowTokens)
    let posMin := mem.seqPosMin
    if evictBefore ≤ posMin then (mem, false) else (mem.seqRm posMin evictBefore, true)

/-- `advance`: one more token, and a check every `compact_interval` calls. -/
def advance (mgr : KvCacheManager) (mem : LlamaMemory) : KvCacheManager × LlamaMemory × Bool :=
  let mgr := { mgr with currentPos := (mgr.currentPos + 1) % 2 ^ 32
                        tokensSinceCheck := (mgr.tokensSinceCheck + 1) % 2 ^ 32 }
  if mgr.compactInterval ≤ mgr.tokensSinceCheck then
    let mgr := { mgr with tokensSinceCheck := 0 }
    (mgr, mgr.checkAndCompact mem)
  else (mgr, mem, false)

/-- `set_position`. -/
def setPosition (mgr : KvCacheManager) (pos : Nat) : KvCacheManager := { mgr with currentPos := pos }

end KvCacheManager

/-! ### The generation loop -/

/-- The manager and llama's memory while tokens are generated. -/
structure Generation where
  kvManager : KvCacheManager
  memory : LlamaMemory

namespace Generation

/-- The prompt, decoded in chunks of `batch` tokens. -/
def prompt (hotWindowTokens batch : Nat) (tokens : List Int) : Generation where
  kvManager := (KvCacheManager.new hotWindowTokens).setPosition tokens.length
  memory := (chunks batch tokens).foldl LlamaMemory.decode ∅

/-- One generated token that is decoded: `advance`, then `decode`. -/
def generate (s : Generation) (token : Int) : Generation :=
  let (kvManager, memory, _) := s.kvManager.advance s.memory
  { kvManager, memory := memory.decode [token] }

end Generation

/-- Of `total` positions decoded the memory holds a contiguous range with the last `w`, and
at most `max P w + 256` of them. -/
structure Windowed (w promptLen total : Nat) (mem : LlamaMemory) : Prop where
  range : ∃ a, mem = Finset.Ico a total
  window : ∀ p, total - min w total ≤ p → p < total → p ∈ mem
  card : mem.card ≤ max promptLen w + 256

/-- What the loop keeps: the counter is the number of positions decoded, the range held
begins before the window, and it has outgrown the bound by no more than the steps since
the last check. -/
structure Generation.Sound (w promptLen total : Nat) (s : Generation) : Prop where
  hotWindow : s.kvManager.hotWindowTokens = w
  position : s.kvManager.currentPos = total
  interval : s.kvManager.compactInterval = 256
  sinceCheck : s.kvManager.tokensSinceCheck < 256
  memory : ∃ a, s.memory = Finset.Ico a total ∧ a ≤ total - w ∧
    total - a ≤ max promptLen w + s.kvManager.tokensSinceCheck

namespace Generation

section Sound
variable {w promptLen total : Nat} {s : Generation}

theorem Sound.windowed (h : s.Sound w promptLen total) : Windowed w promptLen total s.memory := by
  obtain ⟨a, hmem, ha, hcard⟩ := h.memory
  have hcheck := h.sinceCheck
  refine ⟨⟨a, hmem⟩, fun p hp hlt => ?_, ?_⟩
  · rw [hmem, Finset.mem_Ico]
    omega
  · rw [hmem, Nat.card_Ico]
    omega

/-- What a check leaves: the window of the `total + 1` positions there will be after the
next decode, and no more. -/
theorem checkAndCompact_spec (mgr : KvCacheManager) {a : Nat} (hw : 2 ≤ w)
    (hwindow : mgr.hotWindowTokens = w) (hpos : mgr.currentPos = total + 1)
    (htotal : total + 1 < 2 ^ 31) (ha : a ≤ total - w) (hlt : a < total) :
    ∃ a', (mgr.checkAndCompact (Finset.Ico a total)).1 = Finset.Ico a' total ∧ a' < total ∧
      a' ≤ total + 1 - w ∧ total + 1 - a' ≤ w := by
  simp only [KvCacheManager.checkAndCompact, hwindow, hpos]
  split
  · next hcond =>
      -- the window is not full yet, so nothing was evicted
      exact ⟨a, rfl, hlt, by omega, by omega⟩
  · next hcond =>
      rw [asI32_eq (by omega), LlamaMemory.seqPosMin_Ico hlt]
      split
      · next hle => exact ⟨a, rfl, hlt, by omega, by omega⟩
      · next hle => exact ⟨total + 1 - w, LlamaMemory.seqRm_Ico (by omega), by omega, le_rfl, by omega⟩

/-- **One generated token.** Between checks the memory grows with the counter; at a check
it shrinks to the window. -/
theorem Sound.generate (h : s.Sound w promptLen total) (hw : 2 ≤ w) (hpos : 0 < total)
    (htotal : total + 1 < 2 ^ 31) (token : Int) :
    (s.generate token).Sound w promptLen (total + 1) := by
  obtain ⟨a, hmem, ha, hcard⟩ := h.memory
  have hlt : a < total := by omega
  have hcheck := h.sinceCheck
  have hnext : (s.kvManager.currentPos + 1) % 2 ^ 32 = total + 1 := by
    rw [h.position]
    exact Nat.mod_eq_of_lt (by omega)
  have hsince : (s.kvManager.tokensSinceCheck + 1) % 2 ^ 32 = s.kvManager.tokensSinceCheck + 1 :=
    Nat.mod_eq_of_lt (by omega)
  simp only [Generation.generate, KvCacheManager.advance, hnext, hsince, h.interval]
  split
  · obtain ⟨a', hmem', hlt', hwindow, hsize⟩ := checkAndCompact_spec
      ⟨s.kvManager.hotWindowTokens, total + 1, 256, 0⟩ hw h.hotWindow rfl htotal ha hlt
    rw [← hmem] at hmem'
    refine ⟨h.hotWindow, rfl, rfl, Nat.zero_lt_succ _, a', ?_, hwindow, ?_⟩
    · rw [hmem', LlamaMemory.decode_singleton hlt']
    · exact hsize.trans ((le_max_right _ _).trans (Nat.le_add_right _ _))
  · next hfew =>
      refine ⟨h.hotWindow, rfl, rfl, Nat.lt_of_not_le hfew, a, ?_, by omega, ?_⟩
      · rw [hmem, LlamaMemory.decode_singleton hlt]
      · change total + 1 - a ≤ max promptLen w + (s.kvManager.tokensSinceCheck + 1)
        omega

theorem foldl_decode_range (n : Nat) (cs : List (List Int)) :
    cs.foldl LlamaMemory.decode (Finset.Ico 0 n) = Finset.Ico 0 (n + cs.flatten.length) := by
  induction cs generalizing n with
  | nil => rfl
  | cons c cs ih =>
      rw [List.foldl_cons, LlamaMemory.decode_range, ih, List.flatten_cons, List.length_append,
        Nat.add_assoc]

theorem sound_prompt (w : Nat) {batch : Nat} (hbatch : 0 < batch) (tokens : List Int) :
    (prompt w batch tokens).Sound w tokens.length tokens.length where
  hotWindow := rfl
  position := rfl
  interval := rfl
  sinceCheck := Nat.zero_lt_succ _
  memory := by
    refine ⟨0, ?_, Nat.zero_le _, ?_⟩
    · have hfold := foldl_decode_range 0 (chunks batch tokens)
      rw [flatten_chunks hbatch, Nat.zero_add] at hfold
      exact hfold
    · exact (Nat.sub_le _ _).trans ((le_max_left _ _).trans (Nat.le_add_right _ _))

theorem Sound.run (h : s.Sound w promptLen total) (hw : 2 ≤ w) (hpos : 0 < total)
    (generated : List Int) (hlen : total + generated.length < 2 ^ 31) :
    (generated.foldl Generation.generate s).Sound w promptLen (total + generated.length) := by
  induction generated generalizing s total with
  | nil => exact h
  | cons token generated ih =>
      rw [List.length_cons] at hlen ⊢
      have hrest := ih (h.generate hw hpos (by omega) token) (by omega) (by omega)
      rwa [Nat.add_assoc, Nat.add_comm 1] at hrest

end Sound

/-- **Windowing keeps the hot window and bounds the cache**, after every decode: of a chunk
of the prompt, and of a generated token. -/
theorem generation_windowed {w batch : Nat} {tokens generated : List Int} (hw : 2 ≤ w)
    (hbatch : 0 < batch) (htokens : 1 ≤ tokens.length)
    (hlen : tokens.length + generated.length < 2 ^ 31) :
    (∀ decoded, decoded <+: chunks batch tokens →
      Windowed w tokens.length decoded.flatten.length (decoded.foldl LlamaMemory.decode ∅)) ∧
    (∀ decoded, decoded <+: generated →
      Windowed w tokens.length (tokens.length + decoded.length)
        (decoded.foldl Generation.generate (prompt w batch tokens)).memory) := by
  refine ⟨fun decoded hpre => ?_, fun decoded hpre => ?_⟩
  · have hfold := foldl_decode_range 0 decoded
    rw [Nat.zero_add] at hfold
    have hle : decoded.flatten.length ≤ tokens.length := by
      obtain ⟨rest, hrest⟩ := hpre
      rw [← flatten_chunks hbatch tokens, ← hrest, List.flatten_append, List.length_append]
      exact Nat.le_add_right _ _
    change decoded.foldl LlamaMemory.decode ∅ = _ at hfold
    rw [hfold]
    refine ⟨⟨0, rfl⟩, fun p _ hp => Finset.mem_Ico.mpr ⟨Nat.zero_le p, hp⟩, ?_⟩
    rw [Nat.card_Ico, Nat.sub_zero]
    omega
  · have hle := hpre.length_le
    exact ((sound_prompt w hbatch tokens).run hw htokens decoded (by omega)).windowed

/-- A window of 2, a prompt of 3 tokens in chunks of 2, and 300 generated tokens. -/
theorem generation_windowed_small :
    (∀ decoded, decoded <+: chunks 2 [1, 2, 3] →
      Windowed 2 3 decoded.flatten.length (decoded.foldl LlamaMemory.decode ∅)) ∧
    (∀ decoded, decoded <+: List.replicate 300 7 →
      Windowed 2 3 (3 + decoded.length)
        (decoded.foldl Generation.generate (prompt 2 2 [1, 2, 3])).memory) :=
  generation_windowed le_rfl (by decide) (by decide) (by rw [List.length_replicate]; decide)

end Generation

end Hypura
