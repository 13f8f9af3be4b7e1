import Hypura.Compute.ExpertPool

/-!
# Hypura.Compute.Eviction

Which layers lose their slots when the pool allocates for another (`allocate_layer`,
`compute/nvme_backend.rs`).

Layers are evicted in the order of their indices, and only while no slot is free. So a
layer keeps its slots if the free ones and those of the layers before it are enough, and
nothing else can happen to it.
-/

namespace Hypura

namespace ExpertPool

/-- The number of slots held by the layers before `k`. -/
def slotsBefore (p : ExpertPool) (k : Nat) : Nat :=
  ((p.layerSlots.filter (·.1 < k)).flatMap (·.2)).length

/-- Allocating `n` slots for `layer` leaves layer `k` its own: it has slots already, or
there are enough before those of `k`. -/
def spares (p : ExpertPool) (layer n k : Nat) : Prop :=
  p.slotsOf layer ≠ none ∨ n ≤ p.freeSlots.length + p.slotsBefore k

instance (p : ExpertPool) (layer n k : Nat) : Decidable (p.spares layer n k) :=
  inferInstanceAs (Decidable (_ ∨ _))

section Eviction
variable {p p' : ExpertPool} {layer k : Nat}

/-- Releasing a layer before `k` moves its slots to the free ones. -/
theorem slotsBefore_releaseLayer (hkeys : (p.layerSlots.map (·.1)).Nodup) {first : Nat}
    {slots : List Nat} (hslots : p.slotsOf first = some slots) (hlt : first < k) :
    p.freeSlots.length + p.slotsBefore k =
      (p.releaseLayer first).freeSlots.length + (p.releaseLayer first).slotsBefore k := by
  have hperm := (perm_cons_of_lookup hkeys hslots).filter fun entry => decide (entry.1 < k)
  rw [List.filter_cons_of_pos (by simpa using hlt)] at hperm
  have hlen := (hperm.flatMap_right (·.2)).length_eq
  rw [List.flatMap_cons, List.length_append] at hlen
  have hreleased : p.releaseLayer first = { p with
      layerSlots := p.layerSlots.filter (·.1 ≠ first)
      freeSlots := slots.reverse ++ p.freeSlots } := by
    unfold releaseLayer
    rw [hslots]
  rw [hreleased]
  simp only [slotsBefore, List.length_append, List.length_reverse] at hlen ⊢
  omega

/-- The oldest layer is the resident one with the smallest index. -/
theorem oldest_le (hlayer : p.slotsOf layer = none) (hk : p.slotsOf k ≠ none) :
    p.slotsOf (p.oldest layer) ≠ none ∧ p.oldest layer ≤ k := by
  obtain ⟨held, hheld⟩ := Option.ne_none_iff_exists'.mp hk
  have hkey : k ∈ p.layerSlots.map (·.1) := List.mem_map_of_mem (mem_of_lookup hheld)
  have hother : k ∈ (p.layerSlots.map (·.1)).filter (· ≠ layer) :=
    List.mem_filter.mpr ⟨hkey, decide_eq_true fun heq => hk (heq ▸ hlayer)⟩
  cases hmin : ((p.layerSlots.map (·.1)).filter (· ≠ layer)).min? with
  | none =>
      rw [List.min?_eq_none_iff] at hmin
      rw [hmin] at hother
      cases hother
  | some first =>
      rw [oldest, hmin, Option.getD_some]
      obtain ⟨slots, hslots⟩ := exists_lookup (List.mem_of_mem_filter (List.min?_mem hmin))
      refine ⟨fun hnone => ?_, (List.min?_eq_some_iff.mp hmin).2 k hother⟩
      rw [slotsOf, hslots] at hnone
      cases hnone

/-- With slots before those of `k`, the oldest layer is one of them. -/
theorem oldest_spec (h : 0 < p.slotsBefore k) (hlayer : p.slotsOf layer = none) :
    ∃ slots, p.slotsOf (p.oldest layer) = some slots ∧ p.oldest layer < k := by
  obtain ⟨slot, hslot⟩ := List.exists_mem_of_length_pos h
  obtain ⟨entry, hentry, -⟩ := List.mem_flatMap.mp hslot
  obtain ⟨hmem, hlt⟩ := List.mem_filter.mp hentry
  obtain ⟨held, hheld⟩ := exists_lookup (List.mem_map_of_mem (f := (·.1)) hmem)
  have hresident : p.slotsOf entry.1 ≠ none := fun hnone => by
    rw [slotsOf, hheld] at hnone
    cases hnone
  obtain ⟨hold, hle⟩ := oldest_le hlayer hresident
  obtain ⟨slots, hslots⟩ := Option.ne_none_iff_exists'.mp hold
  exact ⟨slots, hslots, hle.trans_lt (by simpa using hlt)⟩

/-- The loop leaves a layer its slots while those before it last. -/
theorem takeSlots_spares :
    ∀ {n : Nat} {p : ExpertPool} {taken slots : List Nat}, p.Accounts taken →
      takeSlots layer n p taken = some (slots, p') → p.slotsOf layer = none →
      n ≤ p.freeSlots.length + p.slotsBefore k → p'.slotsOf k = p.slotsOf k
  | 0, p, taken, slots, _, h, _, _ => by
      cases h
      rfl
  | n + 1, p, taken, slots, hacc, h, hlayer, hn => by
      rw [takeSlots] at h
      split at h
      · next slot free hfree =>
          rw [hfree, List.length_cons] at hn
          have hroom : n ≤ free.length + p.slotsBefore k := by omega
          exact takeSlots_spares (p := { p with freeSlots := free }) (hacc.take hfree) h hlayer hroom
      · next hfree =>
          dsimp only at h
          split at h
          · next slot free hfree' =>
              rw [hfree, List.length_nil] at hn
              obtain ⟨held, hheld, hlt⟩ := oldest_spec (p := p) (k := k) (by omega) hlayer
              have hmoved := slotsBefore_releaseLayer hacc.keys hheld hlt
              rw [hfree, hfree', List.length_nil, List.length_cons] at hmoved
              have hkeep : ∀ l, l ≠ p.oldest layer →
                  (p.releaseLayer (p.oldest layer)).slotsOf l = p.slotsOf l := fun l hl => by
                rw [slotsOf_releaseLayer, if_neg hl]
              have hne : layer ≠ p.oldest layer := fun heq => by
                rw [← heq, hlayer] at hheld
                cases hheld
              have hroom : n ≤ free.length + (p.releaseLayer (p.oldest layer)).slotsBefore k := by
                omega
              have hrest := takeSlots_spares
                (p := { p.releaseLayer (p.oldest layer) with freeSlots := free })
                ((hacc.releaseLayer _).take hfree') h ((hkeep layer hne).trans hlayer) hroom
              exact hrest.trans (hkeep k hlt.ne')
          · cases h

/-- The loop gives another layer no slots: it keeps what it has, or loses it. -/
theorem takeSlots_slotsOf :
    ∀ {n : Nat} {p : ExpertPool} {taken slots : List Nat},
      takeSlots layer n p taken = some (slots, p') →
      p'.slotsOf k = p.slotsOf k ∨ p'.slotsOf k = none
  | 0, p, taken, slots, h => by
      cases h
      exact .inl rfl
  | n + 1, p, taken, slots, h => by
      rw [takeSlots] at h
      split at h
      · next slot free _ => exact takeSlots_slotsOf (p := { p with freeSlots := free }) h
      · dsimp only at h
        split at h
        · next slot free _ =>
            refine (takeSlots_slotsOf (p := { p.releaseLayer (p.oldest layer) with
              freeSlots := free }) h).elim (fun hrest => ?_) .inr
            have hreleased := slotsOf_releaseLayer p (p.oldest layer) k
            split at hreleased
            · exact .inr (hrest.trans hreleased)
            · exact .inl (hrest.trans hreleased)
        · cases h

/-- A layer is left its slots by the loop only if those before it last. -/
theorem takeSlots_kept :
    ∀ {n : Nat} {p : ExpertPool} {taken slots : List Nat}, p.Accounts taken →
      takeSlots layer n p taken = some (slots, p') → p.slotsOf layer = none →
      p'.slotsOf k ≠ none → n ≤ p.freeSlots.length + p.slotsBefore k
  | 0, _, _, _, _, _, _, _ => Nat.zero_le _
  | n + 1, p, taken, slots, hacc, h, hlayer, hk => by
      have hheld : p.slotsOf k ≠ none := by
        rcases takeSlots_slotsOf (k := k) h with hsame | hnone
        · rwa [← hsame]
        · exact absurd hnone hk
      rw [takeSlots] at h
      split at h
      · next slot free hfree =>
          have hrest := takeSlots_kept (p := { p with freeSlots := free }) (hacc.take hfree) h
            hlayer hk
          change n ≤ free.length + p.slotsBefore k at hrest
          rw [hfree, List.length_cons]
          omega
      · next hfree =>
          dsimp only at h
          split at h
          · next slot free hfree' =>
              obtain ⟨hold, hle⟩ := oldest_le hlayer hheld
              obtain ⟨held, hslots⟩ := Option.ne_none_iff_exists'.mp hold
              have hother : ∀ l, (p.releaseLayer (p.oldest layer)).slotsOf l =
                  if l = p.oldest layer then none else p.slotsOf l :=
                slotsOf_releaseLayer p (p.oldest layer)
              -- had `k` been the oldest, it would have none
              have hlt : p.oldest layer < k := by
                refine lt_of_le_of_ne hle fun heq => hk ?_
                have hgone := hother k
                rw [if_pos heq.symm] at hgone
                rcases takeSlots_slotsOf (k := k) h with hsame | hnone
                · exact hsame.trans hgone
                · exact hnone
              have hmoved := slotsBefore_releaseLayer hacc.keys hslots hlt
              have hnone : (p.releaseLayer (p.oldest layer)).slotsOf layer = none := by
                rw [hother, hlayer, ite_self]
              have hrest := takeSlots_kept
                (p := { p.releaseLayer (p.oldest layer) with freeSlots := free })
                ((hacc.releaseLayer _).take hfree') h hnone hk
              change n ≤ free.length + (p.releaseLayer (p.oldest layer)).slotsBefore k at hrest
              rw [hfree'] at hmoved
              rw [hmoved, List.length_cons]
              omega
          · cases h

/-- What one allocation does: the layer has its `n` slots, and every other layer keeps its
own or loses them. -/
structure Takes (p : ExpertPool) (layer n : Nat) (offsets : List Nat) (p' : ExpertPool) : Prop where
  partitioned : p'.Partitioned
  numSlots : p'.numSlots = p.numSlots
  slotSize : p'.slotSize = p.slotSize
  granted : ∃ slots, p'.slotsOf layer = some slots ∧ offsets = slots.map (· * p.slotSize) ∧
    (p.slotsOf layer = none → slots.length = n)
  resident : p.slotsOf layer ≠ none → p' = p
  others : ∀ k ≠ layer, p'.slotsOf k = p.slotsOf k ∨ p'.slotsOf k = none
  spared : ∀ k ≠ layer, p.spares layer n k → p'.slotsOf k = p.slotsOf k
  kept : ∀ k ≠ layer, p'.slotsOf k ≠ none → p.spares layer n k

theorem Partitioned.takes {n : Nat} {offsets : List Nat} (h : p.Partitioned) (hsize : 0 < p.slotSize)
    (hpos : 1 ≤ n) (hn : n ≤ p.numSlots)
    (halloc : p.allocateLayer layer n = some (offsets, p')) : p.Takes layer n offsets p' := by
  obtain ⟨offsets', q, hq, hpart, hnum, hsz, hspec⟩ := h.allocateLayer hsize hpos hn layer
  rw [halloc] at hq
  cases hq
  cases hslots : p.slotsOf layer with
  | some slots =>
      obtain ⟨rfl, hoffsets⟩ := hspec.resident slots hslots
      exact ⟨hpart, rfl, rfl, ⟨slots, hslots, hoffsets, fun hnone => by rw [hslots] at hnone; cases hnone⟩,
        fun _ => rfl, fun _ _ => .inl rfl, fun _ _ _ => rfl,
        fun _ _ _ => .inl (by rw [hslots]; exact Option.some_ne_none _)⟩
  | none =>
      obtain ⟨hlen, -, slots, hgranted, hoffsets, -⟩ := hspec.fresh hslots
      rw [ExpertPool.allocateLayer, hslots] at halloc
      obtain ⟨⟨taken, q⟩, htake, heq⟩ := Option.bind_eq_some_iff.mp halloc
      cases heq
      have hentered : ∀ k ≠ layer, slotsOf { q with layerSlots := (layer, taken) :: q.layerSlots } k =
          q.slotsOf k := fun k hk => by
        rw [slotsOf, List.lookup_cons, beq_false_of_ne hk]
        rfl
      refine ⟨hpart, hnum, hsz, ⟨slots, hgranted, hoffsets, fun _ => ?_⟩, fun hne => absurd hslots hne,
        fun k hk => ?_, fun k hk hroom => ?_, fun k hk hleft => ?_⟩
      · rw [← hlen, hoffsets, List.length_map]
      · rw [hentered k hk]
        exact takeSlots_slotsOf htake
      · rw [hentered k hk]
        exact takeSlots_spares h htake hslots (hroom.resolve_left fun hne => hne hslots)
      · rw [hentered k hk] at hleft
        exact .inr (takeSlots_kept h htake hslots hleft)

end Eviction

end ExpertPool

end Hypura
