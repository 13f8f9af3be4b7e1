import Mathlib.Tactic
import Mathlib.Data.List.Nodup

/-!
# Hypura.Core.Recency

Least-recently-used order, as a property of a history.

A history is the list of what happened to a set of keys, most recent first: a key was
looked up, a key was marked (and perhaps another evicted for it), all keys of some kind
were dropped. A key is **resident** if it was marked since its last eviction, and the
recency order is the list of the resident keys, sorted by their last touch. `Ordered h
order` says that `order` is that list; there is one lemma for each way in which a cache
keeps it up to date.

A cache that drops nothing holds the end of the list of **all** keys in the order of
their last touch (`IsWindow`): whether a key is a hit depends only on how many other keys
were touched since.
-/

namespace Hypura.Core.Recency

section Recency
variable {κ : Type} [DecidableEq κ]

inductive Event (κ : Type)
  | look (key : κ) (hit : Bool)
  /-- `evicted` had to make room for `key`. -/
  | mark (key : κ) (evicted : Option κ)
  | drop (gone : κ → Bool)

/-- What happened so far, most recent first. -/
abbrev History (κ : Type) := List (Event κ)

/-! ### Touches, marks, evictions -/

def Event.touches : Event κ → κ → Bool
  | look key hit, k => hit && decide (key = k)
  | mark key _, k => decide (key = k)
  | drop _, _ => false

def Event.marks : Event κ → κ → Bool
  | mark key _, k => decide (key = k)
  | _, _ => false

def Event.evicts : Event κ → κ → Bool
  | look _ _, _ => false
  | mark _ evicted, k => decide (evicted = some k)
  | drop gone, k => gone k

def Event.isLook : Event κ → Bool
  | look _ _ => true
  | _ => false

/-- When the key was last touched, counting events from 1; 0 for never. -/
def lastTouch (k : κ) : History κ → Nat
  | [] => 0
  | e :: past => if e.touches k then past.length + 1 else lastTouch k past

/-- The key was marked, and not evicted since. -/
def Resident (h : History κ) (k : κ) : Prop :=
  ∃ later e earlier, h = later ++ e :: earlier ∧ e.marks k ∧ ∀ e' ∈ later, e'.evicts k = false

theorem lastTouch_le (k : κ) : ∀ h : History κ, lastTouch k h ≤ h.length
  | [] => le_rfl
  | e :: past => by
      rw [lastTouch, List.length_cons]
      split
      · exact le_rfl
      · exact (lastTouch_le k past).trans (Nat.le_succ _)

theorem lastTouch_of_touches {e : Event κ} {k : κ} (h : e.touches k) (past : History κ) :
    lastTouch k (e :: past) = past.length + 1 := by
  rw [lastTouch, if_pos h]

theorem lastTouch_of_not_touches {e : Event κ} {k : κ} (h : e.touches k = false)
    (past : History κ) : lastTouch k (e :: past) = lastTouch k past := by
  rw [lastTouch, h, if_neg (by decide)]

theorem not_resident_nil (k : κ) : ¬ Resident [] k := by
  intro h
  obtain ⟨later, e, earlier, heq, -⟩ := h
  simp at heq

/-- One more event: the key was marked just now, or it was resident and is not evicted. -/
theorem resident_cons {e : Event κ} {past : History κ} {k : κ} :
    Resident (e :: past) k ↔ e.marks k ∨ Resident past k ∧ e.evicts k = false := by
  constructor
  · intro ⟨later, e', earlier, heq, hmark, hlater⟩
    cases later with
    | nil =>
        cases heq
        exact .inl hmark
    | cons e'' later =>
        cases heq
        exact .inr ⟨⟨later, e', earlier, rfl, hmark,
          fun x hx => hlater x (List.mem_cons_of_mem _ hx)⟩, hlater e List.mem_cons_self⟩
  · intro h
    rcases h with hmark | ⟨⟨later, e', earlier, heq, hmark, hlater⟩, hkeep⟩
    · exact ⟨[], e, past, rfl, hmark, by simp⟩
    · refine ⟨e :: later, e', earlier, by rw [heq, List.cons_append], hmark, fun x hx => ?_⟩
      rcases List.mem_cons.mp hx with rfl | hx
      · exact hkeep
      · exact hlater x hx

/-! ### The recency order -/

structure Ordered (h : History κ) (order : List κ) : Prop where
  nodup : order.Nodup
  mem_iff : ∀ k, k ∈ order ↔ Resident h k
  sorted : order.Pairwise fun k k' => lastTouch k h < lastTouch k' h

namespace Ordered
variable {h : History κ} {order : List κ} {key : κ}

theorem nil : Ordered ([] : History κ) [] where
  nodup := List.nodup_nil
  mem_iff k := by simp [not_resident_nil]
  sorted := List.Pairwise.nil

/-- The key in front is the one touched longest ago. -/
theorem head_oldest {k k' : κ} {rest : List κ} (ho : Ordered h (k :: rest)) (hk : k' ∈ rest) :
    lastTouch k h < lastTouch k' h :=
  (List.pairwise_cons.mp ho.sorted).1 k' hk

/-- Moving a key to the back, where `e` touches it alone. -/
theorem touch {e : Event κ} {kept : List κ} (htouch : ∀ k, e.touches k = decide (key = k))
    (hnodup : kept.Nodup) (hkey : key ∉ kept)
    (hmem : ∀ k, k ∈ kept ∨ k = key ↔ Resident (e :: h) k)
    (hsorted : kept.Pairwise fun k k' => lastTouch k h < lastTouch k' h) :
    Ordered (e :: h) (kept ++ [key]) := by
  have hother : ∀ k ∈ kept, lastTouch k (e :: h) = lastTouch k h := fun k hk =>
    lastTouch_of_not_touches (by rw [htouch]; exact decide_eq_false fun heq => hkey (heq ▸ hk)) h
  have hself : lastTouch key (e :: h) = h.length + 1 :=
    lastTouch_of_touches (by rw [htouch]; exact decide_eq_true rfl) h
  constructor
  · refine List.nodup_append.mpr ⟨hnodup, List.nodup_singleton _, fun a ha b hb heq => ?_⟩
    rw [List.mem_singleton.mp hb] at heq
    exact hkey (heq ▸ ha)
  · intro k
    rw [List.mem_append, List.mem_singleton]
    exact hmem k
  · refine List.pairwise_append.mpr ⟨?_, List.pairwise_singleton _ _, fun k hk k' hk' => ?_⟩
    · refine hsorted.imp_of_mem fun {a b} ha hb hab => ?_
      rwa [hother a ha, hother b hb]
    · rw [List.mem_singleton.mp hk', hother k hk, hself]
      exact Nat.lt_succ_of_le (lastTouch_le k h)

/-- A lookup that misses touches nothing. -/
theorem miss (ho : Ordered h order) (key : κ) : Ordered (.look key false :: h) order := by
  have hsame : ∀ k, lastTouch k (.look key false :: h) = lastTouch k h := fun k =>
    lastTouch_of_not_touches rfl h
  constructor
  · exact ho.nodup
  · intro k
    rw [ho.mem_iff, resident_cons]
    simp [Event.marks, Event.evicts]
  · simpa only [hsame] using ho.sorted

theorem nodup_filter_ne (ho : Ordered h order) (key : κ) :
    (order.filter (· ≠ key)).Nodup ∧ key ∉ order.filter (· ≠ key) ∧
      (order.filter (· ≠ key)).Pairwise fun k k' => lastTouch k h < lastTouch k' h :=
  ⟨ho.nodup.filter _, by simp, ho.sorted.sublist List.filter_sublist⟩

/-- A lookup that hits moves the key to the back. -/
theorem hit (ho : Ordered h order) (hkey : key ∈ order) :
    Ordered (.look key true :: h) (order.filter (· ≠ key) ++ [key]) := by
  obtain ⟨hnodup, hnot, hsorted⟩ := ho.nodup_filter_ne key
  refine touch (fun k => by simp [Event.touches]) hnodup hnot (fun k => ?_) hsorted
  rw [resident_cons, ← ho.mem_iff]
  by_cases hk : k = key <;> simp [hk, hkey, Event.marks, Event.evicts]

/-- Marking a key puts it at the back, wherever it was. -/
theorem mark (ho : Ordered h order) (key : κ) :
    Ordered (.mark key none :: h) (order.filter (· ≠ key) ++ [key]) := by
  obtain ⟨hnodup, hnot, hsorted⟩ := ho.nodup_filter_ne key
  refine touch (fun k => by simp [Event.touches]) hnodup hnot (fun k => ?_) hsorted
  rw [resident_cons, ← ho.mem_iff]
  by_cases hk : key = k
  · simp [hk, Event.marks]
  · simp [hk, Ne.symm hk, Event.marks, Event.evicts]

/-- Marking a new key adds it at the back. -/
theorem insert (ho : Ordered h order) (hkey : key ∉ order) :
    Ordered (.mark key none :: h) (order ++ [key]) := by
  have hrest : order.filter (· ≠ key) = order :=
    List.filter_eq_self.mpr fun k hk => decide_eq_true fun heq => hkey (heq ▸ hk)
  have hmark := ho.mark key
  rwa [hrest] at hmark

/-- Marking a new key in place of the oldest. -/
theorem replace {old : κ} {rest : List κ} (ho : Ordered h (old :: rest))
    (hkey : key ∉ old :: rest) : Ordered (.mark key (some old) :: h) (rest ++ [key]) := by
  obtain ⟨hold, hnodup⟩ := List.nodup_cons.mp ho.nodup
  rw [List.mem_cons, not_or] at hkey
  refine touch (fun k => by simp [Event.touches]) hnodup hkey.2 (fun k => ?_)
    (List.pairwise_cons.mp ho.sorted).2
  rw [resident_cons, ← ho.mem_iff, List.mem_cons]
  simp only [Event.marks, Event.evicts, decide_eq_true_eq, decide_eq_false_iff_not,
    Option.some.injEq]
  constructor
  · intro hor
    rcases hor with hk | rfl
    · exact .inr ⟨.inr hk, fun heq => hold (heq ▸ hk)⟩
    · exact .inl rfl
  · intro hor
    rcases hor with rfl | ⟨rfl | hk, hne⟩
    · exact .inr rfl
    · exact absurd rfl hne
    · exact .inl hk

/-- Dropping keys takes them out. -/
theorem drop (ho : Ordered h order) (gone : κ → Bool) :
    Ordered (.drop gone :: h) (order.filter fun k => !gone k) := by
  have hsame : ∀ k, lastTouch k (.drop gone :: h) = lastTouch k h := fun k =>
    lastTouch_of_not_touches rfl h
  constructor
  · exact ho.nodup.filter _
  · intro k
    rw [List.mem_filter, resident_cons, ho.mem_iff]
    simp [Event.marks, Event.evicts]
  · simpa only [hsame] using ho.sorted.sublist List.filter_sublist

end Ordered

/-! ### The window of a bounded cache -/

/-- Put a key at the back of the list of all keys ever touched. -/
def touch (keys : List κ) (k : κ) : List κ := keys.filter (· ≠ k) ++ [k]

theorem mem_touch {keys : List κ} {k k' : κ} : k' ∈ touch keys k ↔ k' ∈ keys ∨ k' = k := by
  by_cases hk : k' = k <;> simp [touch, hk]

theorem nodup_touch {keys : List κ} (h : keys.Nodup) (k : κ) : (touch keys k).Nodup := by
  refine List.nodup_append.mpr ⟨h.filter _, List.nodup_singleton _, fun a ha b hb heq => ?_⟩
  rw [List.mem_singleton.mp hb] at heq
  simp [heq] at ha

theorem touch_append (xs ys : List κ) (k : κ) :
    touch (xs ++ ys) k = xs.filter (· ≠ k) ++ touch ys k := by
  rw [touch, touch, List.filter_append, List.append_assoc]

theorem filter_ne_of_not_mem {keys : List κ} {k : κ} (h : k ∉ keys) :
    keys.filter (· ≠ k) = keys :=
  List.filter_eq_self.mpr fun _ hk' => decide_eq_true fun heq => h (heq ▸ hk')

/-- The keys that are not among `ks`. -/
def without (keys ks : List κ) : List κ := keys.filter fun k => k ∉ ks

theorem without_append (xs ys ks : List κ) :
    without (xs ++ ys) ks = without xs ks ++ without ys ks :=
  List.filter_append ..

theorem without_eq_self {keys ks : List κ} (h : ∀ k ∈ keys, k ∉ ks) : without keys ks = keys :=
  List.filter_eq_self.mpr fun k hk => decide_eq_true (h k hk)

theorem without_eq_nil {keys ks : List κ} (h : ∀ k ∈ keys, k ∈ ks) : without keys ks = [] :=
  List.filter_eq_nil_iff.mpr fun k hk => by simpa using h k hk

theorem without_cons (keys : List κ) (k : κ) (ks : List κ) :
    without (keys.filter (· ≠ k)) ks = without keys (k :: ks) := by
  rw [without, without, List.filter_filter]
  refine List.filter_congr fun x _ => ?_
  by_cases hx : x = k <;> simp [hx]

/-- The keys touched since are behind those that were not. -/
theorem foldl_touch_append (xs ys ks : List κ) :
    ks.foldl touch (xs ++ ys) = without xs ks ++ ks.foldl touch ys := by
  induction ks generalizing xs ys with
  | nil => simp [without]
  | cons k ks ih => rw [List.foldl_cons, touch_append, ih, without_cons, List.foldl_cons]

theorem foldl_touch_nodup {ks : List κ} (h : ks.Nodup) (keys : List κ) :
    ks.foldl touch keys = without keys ks ++ ks := by
  induction ks generalizing keys with
  | nil => simp [without]
  | cons k ks ih =>
      obtain ⟨hk, hks⟩ := List.nodup_cons.mp h
      have hlast : without [k] ks = [k] := without_eq_self (by simpa using hk)
      rw [List.foldl_cons, ih hks, touch, without_append, hlast, without_cons, List.append_assoc,
        List.singleton_append]

theorem mem_foldl_touch {ks keys : List κ} {k : κ} :
    k ∈ ks.foldl touch keys ↔ k ∈ keys ∨ k ∈ ks := by
  induction ks generalizing keys with
  | nil => simp
  | cons k' ks ih => rw [List.foldl_cons, ih, mem_touch, List.mem_cons, or_assoc]

theorem nodup_foldl_touch {keys : List κ} (h : keys.Nodup) (ks : List κ) :
    (ks.foldl touch keys).Nodup := by
  induction ks generalizing keys with
  | nil => exact h
  | cons k ks ih => exact ih (nodup_touch h k)

/-- `order` is the end of `keys`, as much of it as fits. -/
structure IsWindow (capacity : Nat) (keys order : List κ) : Prop where
  nodup : keys.Nodup
  suffix : ∃ older, keys = older ++ order
  length_eq : order.length = min capacity keys.length

namespace IsWindow
variable {capacity : Nat} {keys order : List κ} {k : κ}

omit [DecidableEq κ] in
/-- A key is in the window when fewer than `capacity` others were touched since. -/
theorem mem_iff (h : IsWindow capacity keys order) {before after : List κ}
    (hk : keys = before ++ k :: after) : k ∈ order ↔ after.length < capacity := by
  obtain ⟨older, holder⟩ := h.suffix
  have hnodup := h.nodup
  have hlen := h.length_eq
  rw [hk] at holder hnodup hlen
  rw [List.length_append, List.length_cons] at hlen
  have hnot : k ∉ after := (List.nodup_cons.mp (List.nodup_append.mp hnodup).2.1).1
  rcases List.append_eq_append_iff.mp holder with ⟨mid, -, hmid⟩ | ⟨mid, -, hmid⟩
  · cases mid with
    | nil =>
        -- the window begins at `k`
        rw [List.nil_append] at hmid
        rw [← hmid, List.length_cons] at hlen
        rw [← hmid]
        exact iff_of_true List.mem_cons_self (by omega)
    | cons x mid =>
        -- it begins after `k`
        rw [List.cons_append, List.cons.injEq] at hmid
        rw [hmid.2, List.length_append] at hlen
        refine iff_of_false (fun hmem => hnot ?_) ?_
        · rw [hmid.2]
          exact List.mem_append_right _ hmem
        · rw [hmid.2, List.length_append]
          omega
  · -- it begins before `k`
    rw [hmid, List.length_append, List.length_cons] at hlen
    rw [hmid]
    exact iff_of_true (List.mem_append_right _ List.mem_cons_self) (by omega)

omit [DecidableEq κ] in
theorem mem_keys (h : IsWindow capacity keys order) (hk : k ∈ order) : k ∈ keys := by
  obtain ⟨older, rfl⟩ := h.suffix
  exact List.mem_append_right _ hk

omit [DecidableEq κ] in
theorem nodup_order (h : IsWindow capacity keys order) : order.Nodup := by
  obtain ⟨older, holder⟩ := h.suffix
  have hnodup := h.nodup
  rw [holder] at hnodup
  exact (List.nodup_append.mp hnodup).2.1

theorem length_touch (hnodup : keys.Nodup) (hk : k ∈ keys) :
    (touch keys k).length = keys.length := by
  have hperm : (touch keys k).Perm keys := by
    refine (List.perm_ext_iff_of_nodup (nodup_touch hnodup k) hnodup).mpr fun x => ?_
    rw [mem_touch]
    exact or_iff_left_of_imp fun hx => hx ▸ hk
  exact hperm.length_eq

/-- A hit moves the key to the back of the window. -/
theorem hit (h : IsWindow capacity keys order) (hk : k ∈ order) :
    IsWindow capacity (touch keys k) (touch order k) := by
  have hmem := h.mem_keys hk
  obtain ⟨older, holder⟩ := h.suffix
  refine ⟨nodup_touch h.nodup k, ⟨older.filter (· ≠ k), ?_⟩, ?_⟩
  · rw [holder, touch_append]
  · rw [length_touch h.nodup_order hk, length_touch h.nodup hmem]
    exact h.length_eq

/-- A miss drops the oldest key of a full window. -/
theorem miss (h : IsWindow capacity keys order) (hcap : 1 ≤ capacity) (hk : k ∉ order) :
    IsWindow capacity (touch keys k)
      ((if capacity ≤ order.length then order.tail else order) ++ [k]) := by
  obtain ⟨older, holder⟩ := h.suffix
  have hlen := h.length_eq
  have htouch : touch keys k = older.filter (· ≠ k) ++ order ++ [k] := by
    rw [holder, touch_append, touch, filter_ne_of_not_mem hk, List.append_assoc]
  refine ⟨nodup_touch h.nodup k, ?_, ?_⟩
  · rw [htouch]
    split
    · cases order with
      | nil => exact ⟨older.filter (· ≠ k), by simp⟩
      | cons x rest => exact ⟨older.filter (· ≠ k) ++ [x], by simp⟩
    · exact ⟨older.filter (· ≠ k), by rw [List.append_assoc]⟩
  · have hkeys : (touch keys k).length = (older.filter (· ≠ k)).length + order.length + 1 := by
      rw [htouch, List.length_append, List.length_append, List.length_singleton]
    split
    · next hfull =>
        rw [List.length_append, List.length_tail, List.length_singleton, hkeys]
        omega
    · next hroom =>
        -- the window holds every key there is
        have hall : order.length = keys.length := by omega
        have holder' : older = [] := by
          rw [holder, List.length_append] at hall
          exact List.length_eq_zero_iff.mp (by omega)
        rw [List.length_append, List.length_singleton, hkeys, holder']
        simp only [List.filter_nil, List.length_nil]
        omega

end IsWindow

end Recency

end Hypura.Core.Recency
