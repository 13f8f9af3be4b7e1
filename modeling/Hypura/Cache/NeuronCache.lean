import Hypura.Core.Recency
import Hypura.Io.ExpertLayout

/-!
# Hypura.Cache.NeuronCache

The LRU cache of expert slices (`cache/neuron_cache.rs`). It holds no data: it records
which slices of the buffer are taken to be loaded.

Membership and order live in two structures that every operation updates separately.
`Refines c h` says that together they are what the history `h` of the calls makes them:
the order is the recency order of the slices marked since their last eviction, and the
entries are the same slices.
-/

namespace Hypura

open Hypura.Core.Recency

/-- Cache key: `(layer_index, expert_id, tensor_type)`. -/
abbrev CacheKey := Nat × Nat × ExpertTensorType

instance CacheKey.lawfulBEq : LawfulBEq CacheKey := inferInstance

/-- `NeuronCache`; `entries` stands for the hash map's key set. -/
structure NeuronCache where
  entries : List CacheKey
  /-- Front = least recently used, back = most recently used. -/
  lruOrder : List CacheKey
  capacity : Nat
  hits : Nat
  misses : Nat
  deriving DecidableEq, Repr

namespace NeuronCache

/-- `NeuronCache::new`. -/
def new (capacity : Nat) : NeuronCache := ⟨[], [], capacity, 0, 0⟩

/-- Promote to most recently used. -/
def promote (c : NeuronCache) (key : CacheKey) : NeuronCache :=
  { c with lruOrder := c.lruOrder.filter (· ≠ key) ++ [key] }

/-- `is_loaded`: the answer, and the cache with its statistics and order updated. -/
def isLoaded (c : NeuronCache) (key : CacheKey) : Bool × NeuronCache :=
  if key ∈ c.entries then (true, { c with hits := c.hits + 1 }.promote key)
  else (false, { c with misses := c.misses + 1 })

/-- `evict_lru`. -/
def evictLru (c : NeuronCache) : Option CacheKey × NeuronCache :=
  match c.lruOrder with
  | [] => (none, c)
  | key :: order => (some key, { c with entries := c.entries.filter (· ≠ key), lruOrder := order })

/-- Evict the LRU entry if at capacity. -/
def makeRoom (c : NeuronCache) : Option CacheKey × NeuronCache :=
  if c.capacity ≤ c.entries.length then c.evictLru else (none, c)

/-- `mark_loaded`: the evicted key, if one was, and the cache. -/
def markLoaded (c : NeuronCache) (key : CacheKey) : Option CacheKey × NeuronCache :=
  if key ∈ c.entries then (none, c.promote key)
  else
    let made := c.makeRoom
    (made.1, { made.2 with entries := key :: made.2.entries, lruOrder := made.2.lruOrder ++ [key] })

/-- `evict_layer`. -/
def evictLayer (c : NeuronCache) (layer : Nat) : NeuronCache :=
  { c with
    entries := c.entries.filter (·.1 ≠ layer)
    lruOrder := c.lruOrder.filter (·.1 ≠ layer) }

/-! ### Which slices each call leaves loaded -/

@[simp] theorem isLoaded_fst (c : NeuronCache) (key : CacheKey) :
    (c.isLoaded key).1 = decide (key ∈ c.entries) := by
  unfold isLoaded
  split <;> simp [*]

@[simp] theorem isLoaded_entries (c : NeuronCache) (key : CacheKey) :
    (c.isLoaded key).2.entries = c.entries := by
  unfold isLoaded
  split <;> rfl

theorem evictLru_entries_subset (c : NeuronCache) : c.evictLru.2.entries ⊆ c.entries := by
  unfold evictLru
  split
  · exact List.Subset.refl _
  · exact List.filter_subset_self _

theorem makeRoom_entries_subset (c : NeuronCache) : c.makeRoom.2.entries ⊆ c.entries := by
  unfold makeRoom
  split
  · exact c.evictLru_entries_subset
  · exact List.Subset.refl _

/-- Marking adds the key; others may be evicted for it. -/
theorem markLoaded_entries_subset (c : NeuronCache) (key : CacheKey) :
    (c.markLoaded key).2.entries ⊆ key :: c.entries := by
  unfold markLoaded
  split
  · exact List.subset_cons_self _ _
  · exact List.cons_subset_cons _ c.makeRoom_entries_subset

@[simp] theorem mem_evictLayer {c : NeuronCache} {layer : Nat} {key : CacheKey} :
    key ∈ (c.evictLayer layer).entries ↔ key ∈ c.entries ∧ key.1 ≠ layer := by
  simp [evictLayer]

/-! ### Least recently used -/

/-- A call on the cache. -/
inductive Call
  | isLoaded (key : CacheKey)
  | markLoaded (key : CacheKey)
  | evictLayer (layer : Nat)
  deriving DecidableEq, Repr

/-- What a call does, as an event of the history. -/
def event (c : NeuronCache) : Call → Event CacheKey
  | .isLoaded key => .look key (c.isLoaded key).1
  | .markLoaded key => .mark key (c.markLoaded key).1
  | .evictLayer layer => .drop fun key => key.1 = layer

/-- The cache after a call. -/
def call (c : NeuronCache) : Call → NeuronCache
  | .isLoaded key => (c.isLoaded key).2
  | .markLoaded key => (c.markLoaded key).2
  | .evictLayer layer => c.evictLayer layer

/-- The cache and its history after several calls. -/
def calls (capacity : Nat) (cs : List Call) : NeuronCache × History CacheKey :=
  cs.foldl (fun s cl => (s.1.call cl, s.1.event cl :: s.2)) (new capacity, [])

structure Refines (c : NeuronCache) (h : History CacheKey) : Prop where
  /-- The order is by last touch. -/
  ordered : Ordered h c.lruOrder
  /-- It has each entry once, and nothing else. -/
  perm : c.lruOrder.Perm c.entries
  length_le : c.entries.length ≤ c.capacity
  /-- Every lookup was a hit or a miss. -/
  counted : c.hits + c.misses = h.countP Event.isLook

theorem refines_new (capacity : Nat) : (new capacity).Refines [] where
  ordered := Ordered.nil
  perm := List.Perm.refl _
  length_le := Nat.zero_le _
  counted := rfl

namespace Refines
variable {c : NeuronCache} {h : History CacheKey}

/-- A slice tests as loaded iff it was marked since its last eviction. -/
theorem isLoaded_iff (hr : c.Refines h) (key : CacheKey) :
    (c.isLoaded key).1 = true ↔ Resident h key := by
  rw [isLoaded_fst, decide_eq_true_eq, ← hr.perm.mem_iff, hr.ordered.mem_iff]

/-- Moving a key to the back of the order keeps its members. -/
theorem perm_promote (hr : c.Refines h) {key : CacheKey} (hkey : key ∈ c.entries) :
    (c.lruOrder.filter (· ≠ key) ++ [key]).Perm c.entries := by
  refine ((List.perm_ext_iff_of_nodup ?_ hr.ordered.nodup).mpr fun k => ?_).trans hr.perm
  · obtain ⟨hnodup, hnot, -⟩ := hr.ordered.nodup_filter_ne key
    refine List.nodup_append.mpr ⟨hnodup, List.nodup_singleton _, fun a ha b hb heq => ?_⟩
    rw [List.mem_singleton.mp hb] at heq
    exact hnot (heq ▸ ha)
  · have hmem : key ∈ c.lruOrder := hr.perm.mem_iff.mpr hkey
    by_cases hk : k = key <;> simp [hk, hmem]

theorem isLoaded (hr : c.Refines h) (key : CacheKey) :
    (c.isLoaded key).2.Refines (.look key (c.isLoaded key).1 :: h) := by
  unfold NeuronCache.isLoaded
  split
  · next hkey =>
      refine ⟨hr.ordered.hit (hr.perm.mem_iff.mpr hkey), hr.perm_promote hkey, hr.length_le, ?_⟩
      rw [List.countP_cons_of_pos rfl, ← hr.counted]
      show c.hits + 1 + c.misses = _
      omega
  · refine ⟨hr.ordered.miss key, hr.perm, hr.length_le, ?_⟩
    rw [List.countP_cons_of_pos rfl, ← hr.counted]
    rfl

/-- A full cache that holds anything has an oldest slice. -/
theorem exists_oldest (hr : c.Refines h) (hcap : 1 ≤ c.capacity)
    (hfull : c.capacity ≤ c.entries.length) : ∃ old rest, c.lruOrder = old :: rest := by
  have hlen := hr.perm.length_eq
  exact List.exists_cons_of_ne_nil (List.ne_nil_of_length_pos (by omega))

theorem markLoaded (hr : c.Refines h) (hcap : 1 ≤ c.capacity) (key : CacheKey) :
    (c.markLoaded key).2.Refines (.mark key (c.markLoaded key).1 :: h) := by
  unfold NeuronCache.markLoaded
  split
  · next hkey => exact ⟨hr.ordered.mark key, hr.perm_promote hkey, hr.length_le, hr.counted⟩
  · next hkey =>
      have hnew : key ∉ c.lruOrder := fun hmem => hkey (hr.perm.mem_iff.mp hmem)
      by_cases hfull : c.capacity ≤ c.entries.length
      · -- the oldest slice makes room
        obtain ⟨old, rest, horder⟩ := hr.exists_oldest hcap hfull
        have hroom : c.makeRoom =
            (some old, { c with entries := c.entries.filter (· ≠ old), lruOrder := rest }) := by
          rw [makeRoom, if_pos hfull, evictLru, horder]
        have hord : Ordered h (old :: rest) := horder ▸ hr.ordered
        have hrest : rest.Perm (c.entries.filter (· ≠ old)) := by
          have hperm := hr.perm.filter (· ≠ old)
          have hkeep : rest.filter (· ≠ old) = rest :=
            List.filter_eq_self.mpr fun k hk => decide_eq_true fun heq =>
              (List.nodup_cons.mp hord.nodup).1 (heq ▸ hk)
          rwa [horder, List.filter_cons_of_neg (by simp), hkeep] at hperm
        rw [hroom]
        refine ⟨hord.replace (horder ▸ hnew), ?_, ?_, hr.counted⟩
        · exact (List.perm_append_singleton key rest).trans (hrest.cons key)
        · have hlen := hr.perm.length_eq
          rw [horder, List.length_cons] at hlen
          have := hrest.length_eq
          have := hr.length_le
          simp only [List.length_cons]
          omega
      · have hroom : c.makeRoom = (none, c) := if_neg hfull
        rw [hroom]
        refine ⟨hr.ordered.insert hnew, ?_, ?_, hr.counted⟩
        · exact (List.perm_append_singleton key _).trans (hr.perm.cons key)
        · simp only [List.length_cons]
          omega

theorem evictLayer (hr : c.Refines h) (layer : Nat) :
    (c.evictLayer layer).Refines (.drop (fun key => key.1 = layer) :: h) := by
  have hfilter : ∀ ks : List CacheKey, ks.filter (·.1 ≠ layer) =
      ks.filter fun key => !decide (key.1 = layer) := fun ks => by simp
  refine ⟨?_, hr.perm.filter _, ?_, hr.counted⟩
  · have hdrop := hr.ordered.drop fun key => decide (key.1 = layer)
    rwa [← hfilter] at hdrop
  · exact (List.length_filter_le ..).trans hr.length_le

/-- Every call keeps the two structures in step with the history. -/
theorem call (hr : c.Refines h) (hcap : 1 ≤ c.capacity) (cl : Call) :
    (c.call cl).Refines (c.event cl :: h) := by
  cases cl with
  | isLoaded key => exact hr.isLoaded key
  | markLoaded key => exact hr.markLoaded hcap key
  | evictLayer layer => exact hr.evictLayer layer

/-- `mark_loaded` evicts exactly when it inserts a new key into a full cache. -/
theorem markLoaded_evicts_iff (hr : c.Refines h) (hcap : 1 ≤ c.capacity) (key : CacheKey) :
    (c.markLoaded key).1.isSome ↔ key ∉ c.entries ∧ c.entries.length = c.capacity := by
  unfold NeuronCache.markLoaded
  split
  · next hkey => simp [hkey]
  · next hkey =>
      by_cases hfull : c.capacity ≤ c.entries.length
      · obtain ⟨old, rest, horder⟩ := hr.exists_oldest hcap hfull
        have := hr.length_le
        simp only [makeRoom, if_pos hfull, evictLru, horder, Option.isSome_some, true_iff]
        exact ⟨hkey, by omega⟩
      · simp only [makeRoom, if_neg hfull, Option.isSome_none, Bool.false_eq_true, false_iff]
        omega

/-- What it evicts is the entry touched longest ago. -/
theorem markLoaded_evicts_oldest (hr : c.Refines h) {key old : CacheKey}
    (hev : (c.markLoaded key).1 = some old) :
    old ∈ c.entries ∧ ∀ k ∈ c.entries, k ≠ old → lastTouch old h < lastTouch k h := by
  unfold NeuronCache.markLoaded makeRoom evictLru at hev
  split at hev
  · cases hev
  · split at hev
    · cases horder : c.lruOrder with
      | nil =>
          rw [horder] at hev
          cases hev
      | cons k rest =>
          rw [horder] at hev
          cases hev
          have hord : Ordered h (old :: rest) := horder ▸ hr.ordered
          refine ⟨hr.perm.mem_iff.mp (horder ▸ List.mem_cons_self), fun k hk hne => ?_⟩
          have hmem : k ∈ old :: rest := horder ▸ hr.perm.mem_iff.mpr hk
          exact hord.head_oldest ((List.mem_cons.mp hmem).resolve_left hne)
    · cases hev

end Refines

@[simp] theorem capacity_call (c : NeuronCache) (cl : Call) : (c.call cl).capacity = c.capacity := by
  cases cl with
  | isLoaded key =>
      show (c.isLoaded key).2.capacity = _
      unfold isLoaded
      split <;> rfl
  | markLoaded key =>
      show (c.markLoaded key).2.capacity = _
      unfold markLoaded makeRoom evictLru
      split
      · rfl
      · dsimp only
        split
        · split <;> rfl
        · rfl
  | evictLayer layer => rfl

theorem calls_append_singleton (capacity : Nat) (cs : List Call) (cl : Call) :
    calls capacity (cs ++ [cl]) =
      ((calls capacity cs).1.call cl, (calls capacity cs).1.event cl :: (calls capacity cs).2) := by
  rw [calls, List.foldl_append]
  rfl

/-- So does any sequence of calls on a new cache. -/
theorem refines_calls {capacity : Nat} (hcap : 1 ≤ capacity) (cs : List Call) :
    (calls capacity cs).1.Refines (calls capacity cs).2 ∧
      (calls capacity cs).1.capacity = capacity := by
  induction cs using List.reverseRecOn with
  | nil => exact ⟨refines_new capacity, rfl⟩
  | append_singleton cs cl ih =>
      obtain ⟨hr, hc⟩ := ih
      rw [calls_append_singleton]
      exact ⟨hr.call (by omega) cl, (capacity_call _ _).trans hc⟩

/-! ### What is still there -/

/-- `keys` are all slices touched so far, by last touch, and the cache holds the end of
them. -/
structure Windows (c : NeuronCache) (keys : List CacheKey) : Prop where
  window : IsWindow c.capacity keys c.lruOrder
  perm : c.lruOrder.Perm c.entries
  capacity_pos : 1 ≤ c.capacity

theorem Refines.windows {c : NeuronCache} {h : History CacheKey} (hr : c.Refines h)
    (hcap : 1 ≤ c.capacity) : c.Windows c.lruOrder where
  window := by
    have := hr.perm.length_eq
    have := hr.length_le
    exact ⟨hr.ordered.nodup, ⟨[], rfl⟩, by omega⟩
  perm := hr.perm
  capacity_pos := hcap

/-- What the loops over slices do to the cache: look the slice up, and mark it if it is
not there. -/
def lookOrMark (c : NeuronCache) (key : CacheKey) : NeuronCache :=
  if (c.isLoaded key).1 then (c.isLoaded key).2 else ((c.isLoaded key).2.markLoaded key).2

theorem capacity_lookOrMark (c : NeuronCache) (key : CacheKey) :
    (c.lookOrMark key).capacity = c.capacity := by
  unfold lookOrMark
  split
  · exact capacity_call c (.isLoaded key)
  · exact (capacity_call _ (.markLoaded key)).trans (capacity_call c (.isLoaded key))

/-- Either way the slice is now the last one touched. -/
theorem Windows.lookOrMark {c : NeuronCache} {keys : List CacheKey} (hw : c.Windows keys)
    (key : CacheKey) : (c.lookOrMark key).Windows (touch keys key) := by
  by_cases hkey : key ∈ c.entries
  · have hmem : key ∈ c.lruOrder := hw.perm.mem_iff.mpr hkey
    have hlook : c.lookOrMark key = { c with hits := c.hits + 1 }.promote key := by
      simp [NeuronCache.lookOrMark, isLoaded, hkey]
    rw [hlook]
    refine ⟨hw.window.hit hmem, ?_, hw.capacity_pos⟩
    have horder : c.lruOrder.Nodup := hw.window.nodup_order
    refine List.Perm.trans ?_ hw.perm
    refine (List.perm_ext_iff_of_nodup (nodup_touch horder key) horder).mpr fun k => ?_
    rw [mem_touch]
    exact or_iff_left_of_imp fun hk => hk ▸ hmem
  · have hmem : key ∉ c.lruOrder := fun hk => hkey (hw.perm.mem_iff.mp hk)
    have hlen := hw.perm.length_eq
    have hmark : c.lookOrMark key = (({ c with misses := c.misses + 1 } : NeuronCache).markLoaded key).2 := by
      simp [NeuronCache.lookOrMark, isLoaded, hkey]
    have hwindow := hw.window.miss hw.capacity_pos hmem
    rw [hmark, markLoaded, if_neg hkey]
    unfold makeRoom evictLru
    by_cases hfull : c.capacity ≤ c.entries.length
    · rw [if_pos (by omega)] at hwindow
      cases horder : c.lruOrder with
      | nil =>
          have hcap := hw.capacity_pos
          rw [horder, List.length_nil] at hlen
          omega
      | cons old rest =>
          rw [horder] at hwindow
          simp only [if_pos hfull]
          refine ⟨hwindow, ?_, hw.capacity_pos⟩
          have hperm := hw.perm.filter (· ≠ old)
          have hnodup : (old :: rest).Nodup := horder ▸ hw.window.nodup_order
          rw [horder, List.filter_cons_of_neg (by simp),
            filter_ne_of_not_mem (List.nodup_cons.mp hnodup).1] at hperm
          exact (List.perm_append_singleton key rest).trans (hperm.cons key)
    · rw [if_neg (by omega)] at hwindow
      simp only [if_neg hfull]
      refine ⟨hwindow, ?_, hw.capacity_pos⟩
      exact (List.perm_append_singleton key _).trans (hw.perm.cons key)

/-- What makes a cache with history `h` an LRU cache. -/
structure IsLru (capacity : Nat) (c : NeuronCache) (h : History CacheKey) : Prop where
  /-- The order has each entry once, and nothing else. -/
  once : c.lruOrder.Nodup ∧ c.lruOrder.Perm c.entries
  length_le : c.entries.length ≤ capacity
  /-- The order is that of the last touches. -/
  sorted : c.lruOrder.Pairwise fun k k' => lastTouch k h < lastTouch k' h
  /-- Marking evicts just when a new key comes into a full cache. -/
  evicts_iff : ∀ key, (c.markLoaded key).1.isSome ↔
    key ∉ c.entries ∧ c.entries.length = capacity
  /-- It evicts the entry touched longest ago. -/
  evicts_oldest : ∀ key old, (c.markLoaded key).1 = some old →
    old ∈ c.entries ∧ ∀ k ∈ c.entries, k ≠ old → lastTouch old h < lastTouch k h
  /-- A key tests as loaded iff it was marked since its last eviction. -/
  loaded_iff : ∀ key, (c.isLoaded key).1 = true ↔ Resident h key
  /-- Every lookup was counted. -/
  counted : c.hits + c.misses = h.countP Event.isLook

/-- **The cache is an LRU cache** after any calls on a new one. -/
theorem calls_isLru {capacity : Nat} (hcap : 1 ≤ capacity) (cs : List Call) :
    IsLru capacity (calls capacity cs).1 (calls capacity cs).2 := by
  obtain ⟨hr, hc⟩ := refines_calls hcap cs
  constructor
  · exact ⟨hr.ordered.nodup, hr.perm⟩
  · exact hr.length_le.trans_eq hc
  · exact hr.ordered.sorted
  · intro key
    have hiff := hr.markLoaded_evicts_iff (hcap.trans_eq hc.symm) key
    rwa [hc] at hiff
  · exact fun key old hev => hr.markLoaded_evicts_oldest hev
  · exact hr.isLoaded_iff
  · exact hr.counted

/-- Two slices, one of them looked up, and a third that takes the other's place. -/
theorem twoSlices_isLru :
    IsLru 2 (calls 2 [.markLoaded (0, 0, .gate), .markLoaded (0, 1, .gate),
        .isLoaded (0, 0, .gate), .markLoaded (0, 2, .gate)]).1
      (calls 2 [.markLoaded (0, 0, .gate), .markLoaded (0, 1, .gate),
        .isLoaded (0, 0, .gate), .markLoaded (0, 2, .gate)]).2 :=
  calls_isLru (by decide) _

end NeuronCache

end Hypura
