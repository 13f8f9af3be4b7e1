import Hypura.Compute.Eviction

/-!
# Hypura.Compute.EvictionOrder

Whether the layer that `allocate_layer` evicts is the oldest (`compute/nvme_backend.rs`).

The pool stores no ages: it evicts the resident layer of the smallest index. `AgedPool`
keeps the ages beside the pool, and with them the evicted layer can be compared with the
one that was allocated longest ago.
-/

namespace Hypura

namespace ExpertPool

/-! ### The evictions of one allocation -/

/-- The evictions in the loop of `allocate_layer`, each with the pool it is made in. -/
def evictions (layer : Nat) : Nat → ExpertPool → List (ExpertPool × Nat)
  | 0, _ => []
  | n + 1, p =>
    match p.freeSlots with
    | _ :: free => evictions layer n { p with freeSlots := free }
    | [] =>
      let q := p.releaseLayer (p.oldest layer)
      (p, p.oldest layer) ::
        match q.freeSlots with
        | _ :: free => evictions layer n { q with freeSlots := free }
        | [] => []

/-- Allocating `n` slots has to evict layer `e`: those that are free and those of the layers
before it are too few. A layer before it that holds no slot stops the loop. -/
structure MustEvict (p : ExpertPool) (n e : Nat) : Prop where
  resident : p.slotsOf e ≠ none
  short : p.freeSlots.length + p.slotsBefore e < n
  held : ∀ k < e, p.slotsOf k ≠ some []

section Evictions
variable {p p' q : ExpertPool} {layer e k : Nat}

theorem slotsBefore_eq_zero (hlast : ∀ k, p.slotsOf k ≠ none → e ≤ k) : p.slotsBefore e = 0 := by
  have hnil : p.layerSlots.filter (·.1 < e) = [] := by
    refine List.filter_eq_nil_iff.mpr fun entry hentry => ?_
    obtain ⟨slots, hslots⟩ := exists_lookup (List.mem_map_of_mem (f := (·.1)) hentry)
    have hle : e ≤ entry.1 := hlast entry.1 fun hnone => by
      rw [slotsOf, hslots] at hnone
      cases hnone
    simpa using hle
  rw [slotsBefore, hnil]
  rfl

/-- Releasing the oldest layer frees its slots, if it has any. -/
theorem exists_released {slot : Nat} {free : List Nat} (hfree : p.freeSlots = [])
    (hreleased : (p.releaseLayer k).freeSlots = slot :: free) :
    ∃ slots, p.slotsOf k = some slots ∧ slots ≠ [] := by
  unfold releaseLayer at hreleased
  split at hreleased
  · rw [hfree] at hreleased
    cases hreleased
  · next slots hslots =>
      refine ⟨slots, hslots, ?_⟩
      rintro rfl
      simp [hfree] at hreleased

theorem nodup_releaseLayer (hkeys : (p.layerSlots.map (·.1)).Nodup) (k : Nat) :
    ((p.releaseLayer k).layerSlots.map (·.1)).Nodup := by
  unfold releaseLayer
  split
  · exact hkeys
  · exact hkeys.sublist (List.filter_sublist.map _)

theorem slotsOf_releaseLayer_none (hlayer : p.slotsOf layer = none) (k : Nat) :
    (p.releaseLayer k).slotsOf layer = none := by
  rw [slotsOf_releaseLayer, hlayer, ite_self]

theorem freeSlots_releaseLayer {slots : List Nat} (hslots : p.slotsOf k = some slots) :
    (p.releaseLayer k).freeSlots = slots.reverse ++ p.freeSlots := by
  unfold releaseLayer
  rw [hslots]

/-- A free slot is taken: what has to go is the same. -/
theorem mustEvict_taken {n slot : Nat} {free : List Nat} (hfree : p.freeSlots = slot :: free) :
    MustEvict { p with freeSlots := free } n e ↔ p.MustEvict (n + 1) e := by
  have hshort : free.length + p.slotsBefore e < n ↔
      p.freeSlots.length + p.slotsBefore e < n + 1 := by
    rw [hfree, List.length_cons]
    omega
  exact ⟨fun h => ⟨h.resident, hshort.mp h.short, h.held⟩,
    fun h => ⟨h.resident, hshort.mpr h.short, h.held⟩⟩

/-- The oldest layer has gone, and a slot of it is taken: what else has to go is the same. -/
theorem mustEvict_released {n slot : Nat} {free : List Nat}
    (hkeys : (p.layerSlots.map (·.1)).Nodup) (hlayer : p.slotsOf layer = none)
    (hfree : p.freeSlots = [])
    (hreleased : (p.releaseLayer (p.oldest layer)).freeSlots = slot :: free)
    (hne : e ≠ p.oldest layer) :
    MustEvict { p.releaseLayer (p.oldest layer) with freeSlots := free } n e ↔
      p.MustEvict (n + 1) e := by
  obtain ⟨slots, hslots, hheld⟩ := exists_released hfree hreleased
  have hkeep : ∀ k ≠ p.oldest layer,
      (p.releaseLayer (p.oldest layer)).slotsOf k = p.slotsOf k := fun k hk => by
    rw [slotsOf_releaseLayer, if_neg hk]
  -- the slots of the oldest layer were those of a layer before `e`
  have hshort : p.slotsOf e ≠ none →
      (free.length + (p.releaseLayer (p.oldest layer)).slotsBefore e < n ↔
        p.freeSlots.length + p.slotsBefore e < n + 1) := fun he => by
    have hlt : p.oldest layer < e := lt_of_le_of_ne (oldest_le hlayer he).2 hne.symm
    rw [slotsBefore_releaseLayer hkeys hslots hlt, hreleased, List.length_cons]
    omega
  constructor
  · intro h
    have hresident : p.slotsOf e ≠ none := hkeep e hne ▸ h.resident
    refine ⟨hresident, (hshort hresident).mp h.short, fun k hk => ?_⟩
    by_cases hkold : k = p.oldest layer
    · rw [hkold, hslots]
      simpa using hheld
    · exact hkeep k hkold ▸ h.held k hk
  · intro h
    refine ⟨(hkeep e hne).symm ▸ h.resident, (hshort h.resident).mpr h.short, fun k hk => ?_⟩
    show (p.releaseLayer (p.oldest layer)).slotsOf k ≠ some []
    rw [slotsOf_releaseLayer]
    split
    · simp
    · exact h.held k hk

/-- The loop evicts after it has taken a free slot, or right away, or after it has evicted
the oldest layer. -/
theorem mem_evictions_succ {n : Nat} :
    (q, e) ∈ evictions layer (n + 1) p ↔
      (∃ slot free, p.freeSlots = slot :: free ∧
        (q, e) ∈ evictions layer n { p with freeSlots := free }) ∨
      (p.freeSlots = [] ∧ (q = p ∧ e = p.oldest layer ∨
        ∃ slot free, (p.releaseLayer (p.oldest layer)).freeSlots = slot :: free ∧
          (q, e) ∈ evictions layer n
            { p.releaseLayer (p.oldest layer) with freeSlots := free })) := by
  rw [evictions]
  cases hfree : p.freeSlots with
  | cons slot free => simp
  | nil => cases hreleased : (p.releaseLayer (p.oldest layer)).freeSlots <;> simp [hreleased]

/-- A layer is evicted only if it must be, and then those before it have gone. -/
theorem mem_evictions :
    ∀ {n : Nat} {p : ExpertPool}, (p.layerSlots.map (·.1)).Nodup → p.slotsOf layer = none →
      (q, e) ∈ evictions layer n p → q.slotsOf e ≠ none →
      p.MustEvict n e ∧ ∀ k, q.slotsOf k = if k < e then none else p.slotsOf k
  | 0, p, _, _, h, _ => by cases h
  | n + 1, p, hkeys, hlayer, h, hq => by
      rcases mem_evictions_succ.mp h with ⟨slot, free, hfree, h⟩ | ⟨hfree, h⟩
      · obtain ⟨hmust, hleft⟩ := mem_evictions (p := { p with freeSlots := free }) hkeys hlayer h hq
        exact ⟨(mustEvict_taken hfree).mp hmust, hleft⟩
      · have hbefore : ∀ k < p.oldest layer, p.slotsOf k = none := fun k hk =>
          by_contra fun hne => absurd (oldest_le hlayer hne).2 (Nat.not_le.mpr hk)
        rcases h with ⟨rfl, rfl⟩ | ⟨slot, free, hreleased, h⟩
        · -- nothing has gone yet, and no layer is before the oldest
          refine ⟨⟨hq, ?_, fun k hk => ?_⟩, fun k => ?_⟩
          · rw [hfree, slotsBefore_eq_zero fun k hk => (oldest_le hlayer hk).2]
            simp
          · rw [hbefore k hk]
            simp
          · split
            · next hk => exact hbefore k hk
            · rfl
        · obtain ⟨hmust, hleft⟩ := mem_evictions
            (p := { p.releaseLayer (p.oldest layer) with freeSlots := free })
            (nodup_releaseLayer hkeys _) (slotsOf_releaseLayer_none hlayer _) h hq
          have hresident : (p.releaseLayer (p.oldest layer)).slotsOf e ≠ none := hmust.resident
          rw [slotsOf_releaseLayer] at hresident
          have hne : e ≠ p.oldest layer := fun heq => hresident (if_pos heq)
          rw [if_neg hne] at hresident
          refine ⟨(mustEvict_released hkeys hlayer hfree hreleased hne).mp hmust, fun k => ?_⟩
          rw [hleft k]
          split
          · rfl
          · next hk =>
              have hlt : p.oldest layer < k :=
                (lt_of_le_of_ne (oldest_le hlayer hresident).2 hne.symm).trans_le (Nat.not_lt.mp hk)
              exact (slotsOf_releaseLayer ..).trans (if_neg hlt.ne')

/-- A layer that must be evicted is. -/
theorem exists_eviction :
    ∀ {n : Nat} {p : ExpertPool}, (p.layerSlots.map (·.1)).Nodup → p.slotsOf layer = none →
      p.MustEvict n e → ∃ q, (q, e) ∈ evictions layer n p ∧ q.slotsOf e ≠ none
  | 0, p, _, _, hmust => by cases hmust.short
  | n + 1, p, hkeys, hlayer, hmust => by
      cases hfree : p.freeSlots with
      | cons slot free =>
          obtain ⟨q, hq, he⟩ := exists_eviction (p := { p with freeSlots := free }) hkeys hlayer
            ((mustEvict_taken hfree).mpr hmust)
          exact ⟨q, mem_evictions_succ.mpr (.inl ⟨slot, free, hfree, hq⟩), he⟩
      | nil =>
          by_cases hne : e = p.oldest layer
          · exact ⟨p, mem_evictions_succ.mpr (.inr ⟨hfree, .inl ⟨rfl, hne⟩⟩), hmust.resident⟩
          · -- the oldest layer is before `e`, so it holds a slot
            obtain ⟨hold, hle⟩ := oldest_le hlayer hmust.resident
            obtain ⟨slots, hslots⟩ := Option.ne_none_iff_exists'.mp hold
            have hheld : slots ≠ [] := fun hnil =>
              hmust.held _ (lt_of_le_of_ne hle (Ne.symm hne)) (hnil ▸ hslots)
            obtain ⟨slot, free, hreleased⟩ :
                ∃ slot free, (p.releaseLayer (p.oldest layer)).freeSlots = slot :: free := by
              rw [freeSlots_releaseLayer hslots, hfree, List.append_nil]
              exact List.exists_cons_of_ne_nil (by simpa using hheld)
            obtain ⟨q, hq, he⟩ := exists_eviction
              (p := { p.releaseLayer (p.oldest layer) with freeSlots := free })
              (nodup_releaseLayer hkeys _) (slotsOf_releaseLayer_none hlayer _)
              ((mustEvict_released hkeys hlayer hfree hreleased hne).mpr hmust)
            exact ⟨q, mem_evictions_succ.mpr (.inr ⟨hfree, .inr ⟨slot, free, hreleased, hq⟩⟩), he⟩

/-- The layers evicted are those that lose their slots. -/
theorem takeSlots_evictions :
    ∀ {n : Nat} {p : ExpertPool} {taken slots : List Nat},
      takeSlots layer n p taken = some (slots, p') →
      p'.slotsOf k = if k ∈ (evictions layer n p).map (·.2) then none else p.slotsOf k
  | 0, p, taken, slots, h => by
      cases h
      rfl
  | n + 1, p, taken, slots, h => by
      rw [takeSlots] at h
      split at h
      · next slot free hfree =>
          rw [takeSlots_evictions (p := { p with freeSlots := free }) h, evictions, hfree]
          rfl
      · next hfree =>
          dsimp only at h
          split at h
          · next slot free hfree' =>
              rw [takeSlots_evictions (p := { p.releaseLayer (p.oldest layer) with
                freeSlots := free }) h, evictions]
              simp only [hfree, hfree', List.map_cons, List.mem_cons]
              have hreleased := slotsOf_releaseLayer p (p.oldest layer) k
              by_cases hk : k = p.oldest layer
              · rw [if_pos hk] at hreleased
                rw [if_pos (Or.inl hk)]
                exact ite_eq_left_iff.mpr fun _ => hreleased
              · rw [if_neg hk] at hreleased
                simp only [hk, false_or]
                exact if_congr Iff.rfl rfl hreleased
          · cases h

theorem nodup_takeSlots :
    ∀ {n : Nat} {p : ExpertPool} {taken slots : List Nat}, (p.layerSlots.map (·.1)).Nodup →
      takeSlots layer n p taken = some (slots, p') → (p'.layerSlots.map (·.1)).Nodup
  | 0, p, taken, slots, hkeys, h => by
      cases h
      exact hkeys
  | n + 1, p, taken, slots, hkeys, h => by
      rw [takeSlots] at h
      split at h
      · next slot free hfree => exact nodup_takeSlots (p := { p with freeSlots := free }) hkeys h
      · dsimp only at h
        split at h
        · next slot free hfree =>
            exact nodup_takeSlots (p := { p.releaseLayer (p.oldest layer) with freeSlots := free })
              (nodup_releaseLayer hkeys _) h
        · cases h

/-- A layer has one entry, after any call. -/
theorem nodup_call {c : Call} (hkeys : (p.layerSlots.map (·.1)).Nodup) (h : p.call c = some p') :
    (p'.layerSlots.map (·.1)).Nodup := by
  cases c with
  | release layer =>
      cases h
      exact nodup_releaseLayer hkeys layer
  | allocate layer n =>
      obtain ⟨⟨offsets, q⟩, halloc, rfl⟩ := Option.map_eq_some_iff.mp h
      rw [allocateLayer] at halloc
      split at halloc
      · cases halloc
        exact hkeys
      · next hlayer =>
          obtain ⟨⟨slots, q'⟩, htake, heq⟩ := Option.bind_eq_some_iff.mp halloc
          cases heq
          refine List.nodup_cons.mpr ⟨fun hmem => ?_, nodup_takeSlots hkeys htake⟩
          -- the loop enters no layer, and this one had no entry
          obtain ⟨held, hheld⟩ := exists_lookup hmem
          have hnone : q'.slotsOf layer = none := by
            rw [takeSlots_evictions htake, hlayer, ite_self]
          rw [slotsOf, hheld] at hnone
          cases hnone

end Evictions

/-- The evictions of a call. -/
def Call.evictions (p : ExpertPool) : Call → List (ExpertPool × Nat)
  | .allocate layer n => if p.slotsOf layer = none then p.evictions layer n else []
  | .release _ => []

end ExpertPool

/-! ### The ages of the slots -/

/-- A pool, the number of calls made on it, and for each layer the number of the call that
allocated its slots. -/
structure AgedPool where
  pool : ExpertPool
  now : Nat
  since : Nat → Nat

namespace AgedPool

def new (poolSize slotSize : Nat) : AgedPool := ⟨.new poolSize slotSize, 0, fun _ => 0⟩

/-- A layer without slots gets its slots now. -/
def sinceAfter (a : AgedPool) : ExpertPool.Call → Nat → Nat
  | .allocate layer _ =>
    if a.pool.slotsOf layer = none then Function.update a.since layer a.now else a.since
  | .release _ => a.since

/-- The pool after a call; `none` is a panic. -/
def call (a : AgedPool) (c : ExpertPool.Call) : Option AgedPool :=
  (a.pool.call c).map fun pool => ⟨pool, a.now + 1, a.sinceAfter c⟩

/-- The calls that are made, each with the pool it finds: a panic is the last. -/
def steps (a : AgedPool) : List ExpertPool.Call → List (AgedPool × ExpertPool.Call)
  | [] => []
  | c :: cs => (a, c) :: match a.call c with
    | some a' => a'.steps cs
    | none => []

/-- Each layer that the call evicts is the one, of those then resident, whose slots were
allocated longest ago. -/
def EvictsOldest (a : AgedPool) (c : ExpertPool.Call) : Prop :=
  ∀ q e, (q, e) ∈ c.evictions a.pool → q.slotsOf e ≠ none →
    ∀ k, q.slotsOf k ≠ none → k ≠ e → a.since e < a.since k

/-- As far as the call has to evict, the layers were allocated in the order of their
indices. -/
def InOrder (a : AgedPool) : ExpertPool.Call → Prop
  | .allocate layer n => a.pool.slotsOf layer = none →
    ∀ e k, a.pool.MustEvict n e → a.pool.slotsOf k ≠ none → e < k → a.since e < a.since k
  | .release _ => True

section Steps
variable {a a' : AgedPool} {c : ExpertPool.Call}

theorem evictsOldest_iff (hkeys : (a.pool.layerSlots.map (·.1)).Nodup) :
    a.EvictsOldest c ↔ a.InOrder c := by
  cases c with
  | release layer => exact iff_of_true (fun _ _ h => by cases h) trivial
  | allocate layer n =>
      by_cases hlayer : a.pool.slotsOf layer = none
      · simp only [EvictsOldest, InOrder, ExpertPool.Call.evictions, if_pos hlayer]
        constructor
        · intro h _ e k hmust hk hlt
          obtain ⟨q, hq, he⟩ := ExpertPool.exists_eviction hkeys hlayer hmust
          have hleft := (ExpertPool.mem_evictions hkeys hlayer hq he).2 k
          rw [if_neg (Nat.not_lt.mpr hlt.le)] at hleft
          exact h q e hq he k (hleft ▸ hk) hlt.ne'
        · intro h q e hmem he k hk hne
          obtain ⟨hmust, hleft⟩ := ExpertPool.mem_evictions hkeys hlayer hmem he
          rw [hleft k] at hk
          split at hk
          · exact absurd rfl hk
          · next hle => exact h hlayer e k hmust hk (lt_of_le_of_ne (Nat.not_lt.mp hle) hne.symm)
      · refine iff_of_true (fun q e h => ?_) (fun h => absurd h hlayer)
        rw [ExpertPool.Call.evictions, if_neg hlayer] at h
        cases h

theorem keys_call (hkeys : (a.pool.layerSlots.map (·.1)).Nodup) (h : a.call c = some a') :
    (a'.pool.layerSlots.map (·.1)).Nodup := by
  obtain ⟨p, hp, rfl⟩ := Option.map_eq_some_iff.mp h
  exact ExpertPool.nodup_call hkeys hp

/-- At every call of a run, the layers evicted are the oldest if and only if those that must
be were allocated in order. -/
theorem steps_evictsOldest_iff (cs : List ExpertPool.Call) :
    ∀ {a : AgedPool}, (a.pool.layerSlots.map (·.1)).Nodup →
      ((∀ s ∈ a.steps cs, s.1.EvictsOldest s.2) ↔ ∀ s ∈ a.steps cs, s.1.InOrder s.2) := by
  induction cs with
  | nil => exact fun _ => iff_of_true (fun _ h => by cases h) (fun _ h => by cases h)
  | cons c cs ih =>
      intro a hkeys
      rw [steps, List.forall_mem_cons, List.forall_mem_cons]
      refine and_congr (evictsOldest_iff hkeys) ?_
      split
      · next a' ha' => exact ih (keys_call hkeys ha')
      · exact iff_of_true (fun _ h => by cases h) (fun _ h => by cases h)

/-- **The oldest layer is evicted** at every call of a run on a new pool, if and only if at
each of them the layers that must be evicted were allocated in the order of their indices. -/
theorem new_evictsOldest_iff (poolSize slotSize : Nat) (cs : List ExpertPool.Call) :
    (∀ s ∈ (new poolSize slotSize).steps cs, s.1.EvictsOldest s.2) ↔
      ∀ s ∈ (new poolSize slotSize).steps cs, s.1.InOrder s.2 :=
  steps_evictsOldest_iff cs List.nodup_nil

end Steps

/-- Layers of three tensors, in six slots. After the last of three layers the first one is
allocated, and then it is evicted for the second while the last one stays. -/
theorem wrapped_evictsNewest :
    ¬ ∀ s ∈ (new 12 2).steps [.allocate 2 3, .allocate 0 3, .allocate 1 3],
      s.1.EvictsOldest s.2 := by
  intro h
  have hthird := h _ (List.mem_of_getElem? (i := 2) rfl)
  have hage := hthird _ 0 (List.mem_of_getElem? (i := 0) rfl) (by decide) 2 (by decide) (by decide)
  exact absurd hage (by decide)

end AgedPool

end Hypura
