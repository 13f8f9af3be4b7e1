import Mathlib.Tactic
import Mathlib.Data.List.Nodup
import Mathlib.Data.List.Perm.Basic

/-!
# Hypura.Compute.ExpertPool

The slot allocator of the streaming modes (`ExpertPool`, `compute/nvme_backend.rs`): a
pool of slots of one size, a stack of the free ones, and the slots each layer holds.

`Accounts p taken` is the accounting identity: the free slots, the slots of the layers,
and the slots `taken` out for a layer that is not entered yet are all the slots of the
pool, each once. It holds inside the loop of `allocate_layer` as well, where it shows
that an eviction always frees a slot.
-/

namespace Hypura

/-- `ExpertPool`. The head of `freeSlots` is the top of the stack; `layerSlots` stands
for the hash map. -/
structure ExpertPool where
  poolSize : Nat
  slotSize : Nat
  numSlots : Nat
  /-- Which slots each layer's tensors currently occupy. -/
  layerSlots : List (Nat × List Nat)
  freeSlots : List Nat
  deriving DecidableEq, Repr

namespace ExpertPool

/-- `ExpertPool::new`. -/
def new (poolSize slotSize : Nat) : ExpertPool where
  poolSize := poolSize
  slotSize := slotSize
  numSlots := poolSize / slotSize
  layerSlots := []
  freeSlots := List.range (poolSize / slotSize)

/-- `layer_slots.get(&layer_idx)`. -/
def slotsOf (p : ExpertPool) (layer : Nat) : Option (List Nat) :=
  p.layerSlots.lookup layer

/-- `release_layer`: the layer's slots go back to the free list, one by one. -/
def releaseLayer (p : ExpertPool) (layer : Nat) : ExpertPool :=
  match p.slotsOf layer with
  | none => p
  | some slots => { p with
      layerSlots := p.layerSlots.filter (·.1 ≠ layer)
      freeSlots := slots.reverse ++ p.freeSlots }

/-- Pool full — evict oldest layer: the smallest index among the others, 0 if none. -/
def oldest (p : ExpertPool) (layer : Nat) : Nat :=
  ((p.layerSlots.map (·.1)).filter (· ≠ layer)).min?.getD 0

/-- The loop of `allocate_layer`; `none` is its `expect`. -/
def takeSlots (layer : Nat) : Nat → ExpertPool → List Nat → Option (List Nat × ExpertPool)
  | 0, p, slots => some (slots, p)
  | n + 1, p, slots =>
    match p.freeSlots with
    | slot :: free => takeSlots layer n { p with freeSlots := free } (slots ++ [slot])
    | [] =>
      let p := p.releaseLayer (p.oldest layer)
      match p.freeSlots with
      | slot :: free => takeSlots layer n { p with freeSlots := free } (slots ++ [slot])
      | [] => none

/-- `allocate_layer`: the byte offset of each of the layer's slots. -/
def allocateLayer (p : ExpertPool) (layer numTensors : Nat) : Option (List Nat × ExpertPool) :=
  match p.slotsOf layer with
  | some existing => some (existing.map (· * p.slotSize), p)
  | none => do
    let (slots, p') ← takeSlots layer numTensors p []
    pure (slots.map (· * p.slotSize), { p' with layerSlots := (layer, slots) :: p'.layerSlots })

/-! ### The map from layers to slots -/

/-- Where a key occurs once, its entry can be put in front. -/
theorem perm_cons_of_lookup {entries : List (Nat × List Nat)} {layer : Nat} {slots : List Nat}
    (hkeys : (entries.map (·.1)).Nodup) (h : entries.lookup layer = some slots) :
    entries.Perm ((layer, slots) :: entries.filter (·.1 ≠ layer)) := by
  induction entries with
  | nil => cases h
  | cons entry entries ih =>
      obtain ⟨key, held⟩ := entry
      obtain ⟨hnot, hnodup⟩ := List.nodup_cons.mp hkeys
      rw [List.lookup_cons] at h
      by_cases hk : layer = key
      · subst hk
        have hrest : entries.filter (·.1 ≠ layer) = entries :=
          List.filter_eq_self.mpr fun e he => by
            simpa using fun heq => hnot (List.mem_map.mpr ⟨e, he, heq⟩)
        rw [beq_self_eq_true] at h
        cases h
        rw [List.filter_cons_of_neg (by simp), hrest]
      · rw [beq_false_of_ne hk] at h
        rw [List.filter_cons_of_pos (by simpa using Ne.symm hk)]
        exact ((ih hnodup h).cons _).trans (List.Perm.swap ..)

theorem mem_of_lookup {entries : List (Nat × List Nat)} {layer : Nat} {slots : List Nat}
    (h : entries.lookup layer = some slots) : (layer, slots) ∈ entries := by
  induction entries with
  | nil => cases h
  | cons entry entries ih =>
      obtain ⟨key, held⟩ := entry
      rw [List.lookup_cons] at h
      by_cases hk : layer = key
      · subst hk
        rw [beq_self_eq_true] at h
        cases h
        exact List.mem_cons_self
      · rw [beq_false_of_ne hk] at h
        exact List.mem_cons_of_mem _ (ih h)

theorem exists_lookup {entries : List (Nat × List Nat)} {layer : Nat}
    (h : layer ∈ entries.map (·.1)) : ∃ slots, entries.lookup layer = some slots := by
  induction entries with
  | nil => cases h
  | cons entry entries ih =>
      obtain ⟨key, held⟩ := entry
      rw [List.lookup_cons]
      by_cases hk : layer = key
      · subst hk
        exact ⟨held, by simp⟩
      · rw [beq_false_of_ne hk]
        rw [List.map_cons] at h
        exact ih ((List.mem_cons.mp h).resolve_left hk)

theorem lookup_filter_ne (entries : List (Nat × List Nat)) (layer layer' : Nat) :
    (entries.filter (·.1 ≠ layer)).lookup layer' =
      if layer' = layer then none else entries.lookup layer' := by
  induction entries with
  | nil => simp
  | cons entry entries ih =>
      obtain ⟨key, held⟩ := entry
      rw [List.lookup_cons]
      by_cases hk : key = layer
      · subst hk
        rw [List.filter_cons_of_neg (by simp), ih]
        by_cases hl : layer' = key
        · rw [if_pos hl, if_pos hl]
        · rw [if_neg hl, if_neg hl, beq_false_of_ne hl]
      · rw [List.filter_cons_of_pos (by simpa using hk), List.lookup_cons, ih]
        by_cases hl : layer' = key
        · subst hl
          simp [hk]
        · rw [beq_false_of_ne hl]

@[simp] theorem releaseLayer_slotSize (p : ExpertPool) (layer : Nat) :
    (p.releaseLayer layer).slotSize = p.slotSize := by
  unfold releaseLayer
  split <;> rfl

@[simp] theorem releaseLayer_numSlots (p : ExpertPool) (layer : Nat) :
    (p.releaseLayer layer).numSlots = p.numSlots := by
  unfold releaseLayer
  split <;> rfl

@[simp] theorem releaseLayer_poolSize (p : ExpertPool) (layer : Nat) :
    (p.releaseLayer layer).poolSize = p.poolSize := by
  unfold releaseLayer
  split <;> rfl

/-- Releasing a layer takes its slots away, and no other layer's. -/
theorem slotsOf_releaseLayer (p : ExpertPool) (layer layer' : Nat) :
    (p.releaseLayer layer).slotsOf layer' = if layer' = layer then none else p.slotsOf layer' := by
  unfold releaseLayer
  split
  · next hnone =>
      by_cases hl : layer' = layer
      · rw [if_pos hl, hl, hnone]
      · rw [if_neg hl]
  · exact lookup_filter_ne p.layerSlots layer layer'

/-! ### The accounting identity -/

structure Accounts (p : ExpertPool) (taken : List Nat) : Prop where
  /-- Every slot is free, held by a layer or taken out, and only once. -/
  partition : (taken ++ (p.freeSlots ++ p.layerSlots.flatMap (·.2))).Perm (List.range p.numSlots)
  /-- A layer has one entry. -/
  keys : (p.layerSlots.map (·.1)).Nodup
  /-- A layer with an entry holds a slot. -/
  held : ∀ entry ∈ p.layerSlots, entry.2 ≠ []
  fits : p.numSlots * p.slotSize ≤ p.poolSize

/-- Nothing is taken out between calls. -/
abbrev Partitioned (p : ExpertPool) : Prop := p.Accounts []

theorem partitioned_new (poolSize slotSize : Nat) : (new poolSize slotSize).Partitioned where
  partition := by simp [new]
  keys := List.nodup_nil
  held _ h := by cases h
  fits := Nat.div_mul_le_self poolSize slotSize

namespace Accounts
variable {p : ExpertPool} {taken : List Nat}

theorem releaseLayer (h : p.Accounts taken) (layer : Nat) :
    (p.releaseLayer layer).Accounts taken := by
  unfold ExpertPool.releaseLayer
  split
  · exact h
  · next slots hslots =>
      have hperm := perm_cons_of_lookup h.keys hslots
      have hflat : (p.layerSlots.flatMap (·.2)).Perm
          (slots ++ (p.layerSlots.filter (·.1 ≠ layer)).flatMap (·.2)) := by
        simpa using hperm.flatMap_right (·.2)
      constructor
      · refine List.Perm.trans ?_ h.partition
        refine List.Perm.append_left taken ?_
        show ((slots.reverse ++ p.freeSlots) ++ _).Perm _
        rw [List.append_assoc]
        refine (slots.reverse_perm.append_right _).trans ?_
        refine (List.perm_append_comm_assoc ..).trans ?_
        exact hflat.symm.append_left _
      · exact h.keys.sublist (List.filter_sublist.map _)
      · exact fun entry he => h.held entry (List.mem_of_mem_filter he)
      · exact h.fits

theorem length_eq (h : p.Accounts taken) :
    taken.length + (p.freeSlots.length + (p.layerSlots.flatMap (·.2)).length) = p.numSlots := by
  have := h.partition.length_eq
  rwa [List.length_append, List.length_append, List.length_range] at this

/-- With slots missing and none free, evicting frees one. -/
theorem exists_freed (h : p.Accounts taken) (hfree : p.freeSlots = [])
    (htaken : taken.length < p.numSlots) {layer : Nat} (hlayer : p.slotsOf layer = none) :
    ∃ slot free, (p.releaseLayer (p.oldest layer)).freeSlots = slot :: free := by
  have hlen := h.length_eq
  rw [hfree] at hlen
  have hne : p.layerSlots.flatMap (·.2) ≠ [] := by
    intro hnil
    rw [hnil] at hlen
    simp at hlen
    omega
  obtain ⟨slot, hslot⟩ := List.exists_mem_of_ne_nil _ hne
  obtain ⟨entry, hentry, -⟩ := List.mem_flatMap.mp hslot
  -- some layer holds a slot, so there is an oldest one
  have hother : entry.1 ∈ (p.layerSlots.map (·.1)).filter (· ≠ layer) := by
    refine List.mem_filter.mpr ⟨List.mem_map_of_mem hentry, ?_⟩
    have hkey : entry.1 ∈ p.layerSlots.map (·.1) := List.mem_map_of_mem hentry
    simp only [decide_eq_true_eq]
    rintro rfl
    obtain ⟨slots, hslots⟩ := exists_lookup hkey
    rw [slotsOf, hslots] at hlayer
    cases hlayer
  obtain ⟨k, hk⟩ : ∃ k, ((p.layerSlots.map (·.1)).filter (· ≠ layer)).min? = some k := by
    cases hmin : ((p.layerSlots.map (·.1)).filter (· ≠ layer)).min? with
    | none =>
        rw [List.min?_eq_none_iff] at hmin
        rw [hmin] at hother
        cases hother
    | some k => exact ⟨k, rfl⟩
  have hmem : k ∈ p.layerSlots.map (·.1) :=
    List.mem_of_mem_filter (List.min?_mem hk)
  obtain ⟨slots, hslots⟩ := exists_lookup hmem
  have hheld : slots ≠ [] := h.held _ (mem_of_lookup hslots)
  have hold : p.oldest layer = k := by rw [oldest, hk, Option.getD_some]
  rw [hold, ExpertPool.releaseLayer]
  split
  · next hnone =>
      rw [slotsOf, hslots] at hnone
      cases hnone
  · next slots' hslots' =>
      rw [slotsOf, hslots] at hslots'
      cases hslots'
      show ∃ slot free, slots.reverse ++ p.freeSlots = slot :: free
      rw [hfree, List.append_nil]
      exact List.exists_cons_of_ne_nil (by simpa using hheld)

/-- Taking a free slot out. -/
theorem take (h : p.Accounts taken) {slot : Nat} {free : List Nat}
    (hfree : p.freeSlots = slot :: free) :
    Accounts { p with freeSlots := free } (taken ++ [slot]) where
  partition := by
    refine List.Perm.trans ?_ h.partition
    rw [hfree, List.append_assoc, List.singleton_append, List.cons_append]
  keys := h.keys
  held := h.held
  fits := h.fits

end Accounts

/-- **The loop of `allocate_layer` finds its slots**, evicting others for them if need be. -/
theorem takeSlots_spec {layer : Nat} :
    ∀ {n : Nat} {p : ExpertPool} {taken : List Nat}, p.Accounts taken →
      taken.length + n ≤ p.numSlots → p.slotsOf layer = none →
      ∃ slots p', takeSlots layer n p taken = some (slots, p') ∧ p'.Accounts slots ∧
        slots.length = taken.length + n ∧ p'.slotsOf layer = none ∧
        p'.numSlots = p.numSlots ∧ p'.slotSize = p.slotSize ∧ p'.poolSize = p.poolSize
  | 0, p, taken, h, _, hlayer => ⟨taken, p, rfl, h, rfl, hlayer, rfl, rfl, rfl⟩
  | n + 1, p, taken, h, hn, hlayer => by
      have hstep : ∀ {q : ExpertPool} {slot : Nat} {free : List Nat}, q.Accounts taken →
          q.freeSlots = slot :: free → q.numSlots = p.numSlots → q.slotSize = p.slotSize →
          q.poolSize = p.poolSize → q.slotsOf layer = none →
          ∃ slots p', takeSlots layer n { q with freeSlots := free } (taken ++ [slot]) =
              some (slots, p') ∧ p'.Accounts slots ∧ slots.length = taken.length + (n + 1) ∧
            p'.slotsOf layer = none ∧ p'.numSlots = p.numSlots ∧ p'.slotSize = p.slotSize ∧
            p'.poolSize = p.poolSize := by
        intro q slot free hq hfree hnum hsize hpool hnone
        obtain ⟨slots, p', hrun, hp', hlen, hnone', hnum', hsize', hpool'⟩ :=
          takeSlots_spec (n := n) (hq.take hfree) (by simp [hnum]; omega) hnone
        refine ⟨slots, p', hrun, hp', ?_, hnone', hnum'.trans hnum, hsize'.trans hsize,
          hpool'.trans hpool⟩
        rw [hlen, List.length_append, List.length_singleton]
        omega
      rw [takeSlots]
      cases hfree : p.freeSlots with
      | cons slot free => exact hstep h hfree rfl rfl rfl hlayer
      | nil =>
          obtain ⟨slot, free, hfreed⟩ := h.exists_freed hfree (by omega) hlayer
          have hnone : (p.releaseLayer (p.oldest layer)).slotsOf layer = none := by
            rw [slotsOf_releaseLayer]
            split
            · rfl
            · exact hlayer
          simp only [hfreed]
          exact hstep (h.releaseLayer _) hfreed (by simp) (by simp) (by simp) hnone

/-! ### Whole runs -/

/-- A call on the pool. -/
inductive Call
  | allocate (layer numTensors : Nat)
  | release (layer : Nat)
  deriving DecidableEq, Repr

/-- An allocation asks for at least one slot, and for no more than there are. -/
def Call.Valid (numSlots : Nat) : Call → Prop
  | allocate _ n => 1 ≤ n ∧ n ≤ numSlots
  | release _ => True

instance (numSlots : Nat) : DecidablePred (Call.Valid numSlots)
  | .allocate _ n => inferInstanceAs (Decidable (1 ≤ n ∧ n ≤ numSlots))
  | .release _ => inferInstanceAs (Decidable True)

/-- The pool after a call; `none` is a panic. -/
def call (p : ExpertPool) : Call → Option ExpertPool
  | .allocate layer n => (p.allocateLayer layer n).map Prod.snd
  | .release layer => some (p.releaseLayer layer)

/-- The pool after several calls. -/
def calls (p : ExpertPool) (cs : List Call) : Option ExpertPool :=
  cs.foldlM call p

/-- What a call of `allocate_layer` returns, and what it leaves. -/
structure Allocates (p : ExpertPool) (layer n : Nat) (offsets : List Nat) (p' : ExpertPool) :
    Prop where
  /-- A new layer gets as many slots as it asked for, all different, which no other layer
  holds. -/
  fresh : p.slotsOf layer = none → offsets.length = n ∧ offsets.Nodup ∧
    ∃ slots, p'.slotsOf layer = some slots ∧ offsets = slots.map (· * p.slotSize) ∧
      ∀ layer' ≠ layer, ∀ slots', p'.slotsOf layer' = some slots' → slots.Disjoint slots'
  /-- A resident layer gets its slots again, and nothing changes. -/
  resident : ∀ slots, p.slotsOf layer = some slots →
    p' = p ∧ offsets = slots.map (· * p.slotSize)
  /-- Every slot lies in the pool. -/
  inside : ∀ o ∈ offsets, o + p.slotSize ≤ p.poolSize

theorem Partitioned.slot_inside {p : ExpertPool} (h : p.Partitioned) {layer s : Nat}
    {slots : List Nat} (hslots : p.slotsOf layer = some slots) (hs : s ∈ slots) :
    s * p.slotSize + p.slotSize ≤ p.poolSize := by
  have hmem : s ∈ List.range p.numSlots := by
    refine h.partition.mem_iff.mp (List.mem_append_right _ (List.mem_append_right _ ?_))
    exact List.mem_flatMap.mpr ⟨_, mem_of_lookup hslots, hs⟩
  have hlt := List.mem_range.mp hmem
  calc s * p.slotSize + p.slotSize = (s + 1) * p.slotSize := by ring
    _ ≤ p.numSlots * p.slotSize := Nat.mul_le_mul_right _ hlt
    _ ≤ p.poolSize := h.fits

/-- Two layers share no slot. -/
theorem Partitioned.disjoint {p : ExpertPool} (h : p.Partitioned) {layer layer' : Nat}
    (hne : layer' ≠ layer) {slots slots' : List Nat} (hs : p.slotsOf layer = some slots)
    (hs' : p.slotsOf layer' = some slots') : slots.Disjoint slots' := by
  have hnodup : (p.layerSlots.flatMap (·.2)).Nodup := by
    have := (h.partition.nodup_iff.mpr List.nodup_range)
    exact (List.nodup_append.mp this.of_append_right).2.1
  have hperm := (perm_cons_of_lookup h.keys hs).flatMap_right (·.2)
  have hrest : (layer', slots') ∈ p.layerSlots.filter (·.1 ≠ layer) :=
    List.mem_filter.mpr ⟨mem_of_lookup hs', by simpa using hne⟩
  intro s hmem hmem'
  have hdisj := (List.nodup_append.mp (hperm.nodup_iff.mp hnodup)).2.2
  exact hdisj s hmem s (List.mem_flatMap.mpr ⟨_, hrest, hmem'⟩) rfl

/-- **One allocation**: it does not panic, keeps the accounts, and returns what it should. -/
theorem Partitioned.allocateLayer {p : ExpertPool} (h : p.Partitioned) (hsize : 0 < p.slotSize)
    {n : Nat} (hpos : 1 ≤ n) (hn : n ≤ p.numSlots) (layer : Nat) :
    ∃ offsets p', p.allocateLayer layer n = some (offsets, p') ∧ p'.Partitioned ∧
      p'.numSlots = p.numSlots ∧ p'.slotSize = p.slotSize ∧ Allocates p layer n offsets p' := by
  rw [ExpertPool.allocateLayer]
  cases hslots : p.slotsOf layer with
  | some slots =>
      refine ⟨_, _, rfl, h, rfl, rfl, fun hnone => ?_, fun slots' hs' => ?_, fun o ho => ?_⟩
      · rw [hslots] at hnone
        cases hnone
      · rw [hslots] at hs'
        cases hs'
        exact ⟨rfl, rfl⟩
      · obtain ⟨s, hs, rfl⟩ := List.mem_map.mp ho
        exact h.slot_inside hslots hs
  | none =>
      obtain ⟨slots, q, hrun, hq, hlen, hnone, hnum, hsz, hpool⟩ :=
        takeSlots_spec h (by simpa using hn) hslots
      simp only [List.length_nil, Nat.zero_add] at hlen
      -- entering the layer gives the slots taken out to it
      have hself : ExpertPool.slotsOf { q with layerSlots := (layer, slots) :: q.layerSlots } layer =
          some slots := by
        simp [slotsOf]
      have hp' : Partitioned { q with layerSlots := (layer, slots) :: q.layerSlots } := by
        constructor
        · refine List.Perm.trans ?_ hq.partition
          simp only [List.flatMap_cons, List.nil_append]
          exact List.perm_append_comm_assoc ..
        · refine List.nodup_cons.mpr ⟨fun hmem => ?_, hq.keys⟩
          obtain ⟨slots', hs'⟩ := exists_lookup hmem
          rw [slotsOf, hs'] at hnone
          cases hnone
        · intro entry he
          rcases List.mem_cons.mp he with rfl | he
          · exact List.ne_nil_of_length_pos (by simp only; omega)
          · exact hq.held entry he
        · exact hq.fits
      refine ⟨_, _, by rw [hrun]; rfl, hp', hnum, hsz, fun _ => ⟨?_, ?_, slots, hself, rfl, ?_⟩,
        fun slots' hs' => ?_, fun o ho => ?_⟩
      · rw [List.length_map, hlen]
      · have hnodup : slots.Nodup := (hq.partition.nodup_iff.mpr List.nodup_range).of_append_left
        exact hnodup.map fun a b hab => Nat.eq_of_mul_eq_mul_right hsize hab
      · intro layer' hne slots' hs'
        exact hp'.disjoint hne hself hs'
      · rw [hslots] at hs'
        cases hs'
      · obtain ⟨s, hs, rfl⟩ := List.mem_map.mp ho
        have := hp'.slot_inside hself hs
        rwa [hsz, hpool] at this

/-- A valid call does not panic and keeps the accounts. -/
theorem Partitioned.call {p : ExpertPool} (h : p.Partitioned) (hsize : 0 < p.slotSize) {c : Call}
    (hc : c.Valid p.numSlots) :
    ∃ p', p.call c = some p' ∧ p'.Partitioned ∧ p'.numSlots = p.numSlots ∧
      p'.slotSize = p.slotSize := by
  cases c with
  | allocate layer n =>
      obtain ⟨offsets, p', hrun, hp', hnum, hsz, -⟩ := h.allocateLayer hsize hc.1 hc.2 layer
      exact ⟨p', by rw [ExpertPool.call, hrun]; rfl, hp', hnum, hsz⟩
  | release layer =>
      exact ⟨_, rfl, h.releaseLayer layer, by simp, by simp⟩

/-- Neither does a sequence of them. -/
theorem Partitioned.calls {cs : List Call} :
    ∀ {p : ExpertPool}, p.Partitioned → 0 < p.slotSize → (∀ c ∈ cs, c.Valid p.numSlots) →
      ∃ p', p.calls cs = some p' ∧ p'.Partitioned ∧ p'.numSlots = p.numSlots ∧
        p'.slotSize = p.slotSize := by
  induction cs with
  | nil => exact fun h _ _ => ⟨_, rfl, h, rfl, rfl⟩
  | cons c cs ih =>
      intro p h hsize hvalid
      obtain ⟨q, hq, hpart, hnum, hsz⟩ := h.call hsize (hvalid c List.mem_cons_self)
      obtain ⟨p', hp', hpart', hnum', hsz'⟩ := ih hpart (by omega)
        fun c' hc' => hnum ▸ hvalid c' (List.mem_cons_of_mem _ hc')
      refine ⟨p', ?_, hpart', hnum'.trans hnum, hsz'.trans hsz⟩
      show (c :: cs).foldlM ExpertPool.call p = some p'
      rw [List.foldlM_cons, hq]
      exact hp'

/-- **Slot accounting.** After any sequence of valid calls on a new pool the free slots
and the slots of the layers are all the slots of the pool, each once; and whatever is
allocated next is what `Allocates` says. -/
theorem calls_new_accounting {poolSize slotSize : Nat} (hsize : 0 < slotSize) {cs : List Call}
    (hvalid : ∀ c ∈ cs, c.Valid (poolSize / slotSize)) :
    ∃ p, (new poolSize slotSize).calls cs = some p ∧
      (p.freeSlots ++ p.layerSlots.flatMap (·.2)).Perm (List.range (poolSize / slotSize)) ∧
      ∀ layer n, 1 ≤ n → n ≤ poolSize / slotSize →
        ∃ offsets p', p.allocateLayer layer n = some (offsets, p') ∧
          Allocates p layer n offsets p' := by
  obtain ⟨p, hrun, hpart, hnum, hsz⟩ := (partitioned_new poolSize slotSize).calls hsize hvalid
  have hnum : p.numSlots = poolSize / slotSize := hnum
  have hsz : p.slotSize = slotSize := hsz
  refine ⟨p, hrun, hnum ▸ hpart.partition, fun layer n hpos hn => ?_⟩
  obtain ⟨offsets, p', halloc, -, -, -, hspec⟩ :=
    hpart.allocateLayer (by omega) hpos (by omega) layer
  exact ⟨offsets, p', halloc, hspec⟩

/-- Three layers of two tensors in five slots: the third evicts the first. -/
theorem fiveSlots_accounting :
    ∃ p, (new 10 2).calls [.allocate 0 2, .allocate 1 2, .allocate 2 2, .release 1] = some p ∧
      (p.freeSlots ++ p.layerSlots.flatMap (·.2)).Perm (List.range (10 / 2)) ∧
      ∀ layer n, 1 ≤ n → n ≤ 10 / 2 →
        ∃ offsets p', p.allocateLayer layer n = some (offsets, p') ∧
          Allocates p layer n offsets p' :=
  calls_new_accounting (by decide) (by decide)

end ExpertPool

end Hypura
