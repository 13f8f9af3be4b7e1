import Hypura.Compute.StandardMode
import Mathlib.Data.List.Destutter

/-!
# Hypura.Compute.RouterOutput

What `intercept_router_output` stores for an argsort tensor (`compute/nvme_backend.rs`):
the ids in the first positions of its rows, in ascending order and each once. A tensor
that it gives up on leaves the selection of an earlier one in force.
-/

namespace Hypura

open Hypura.Core

/-! ### Sorting, and dropping what repeats -/

section SortDedup
variable {ids : List Nat} {e : Nat}

/-- What is dropped stands once more before it. -/
theorem mem_destutter'_ne {first : Nat} (ids : List Nat) :
    e ∈ ids.destutter' (· ≠ ·) first ↔ e ∈ first :: ids := by
  induction ids generalizing first with
  | nil => rfl
  | cons next ids ih =>
      by_cases h : first ≠ next
      · rw [List.destutter'_cons_pos _ h, List.mem_cons, ih, ← List.mem_cons]
      · rw [List.destutter'_cons_neg _ h, ih]
        rw [not_not] at h
        subst h
        simp

theorem mem_sortDedup : e ∈ sortDedup ids ↔ e ∈ ids := by
  rw [sortDedup, ← List.mem_insertionSort (· ≤ ·) (l := ids)]
  cases ids.insertionSort (· ≤ ·) with
  | nil => rfl
  | cons first rest => exact mem_destutter'_ne rest

/-- In an ascending list whose neighbours differ, all elements do. -/
theorem pairwise_lt_of_isChain (hsorted : ids.Pairwise (· ≤ ·)) (hdiffer : ids.IsChain (· ≠ ·)) :
    ids.Pairwise (· < ·) := by
  induction ids with
  | nil => exact .nil
  | cons first rest ih =>
      obtain ⟨hle, hsorted⟩ := List.pairwise_cons.mp hsorted
      obtain ⟨hne, hdiffer⟩ := List.isChain_cons.mp hdiffer
      have hrest := ih hsorted hdiffer
      refine List.pairwise_cons.mpr ⟨fun b hb => ?_, hrest⟩
      cases rest with
      | nil => cases hb
      | cons second rest =>
          have hfirst : first < second :=
            lt_of_le_of_ne (hle second List.mem_cons_self) (hne second rfl)
          rcases List.mem_cons.mp hb with rfl | hb
          · exact hfirst
          · exact hfirst.trans ((List.pairwise_cons.mp hrest).1 b hb)

theorem sortDedup_ascending (ids : List Nat) : (sortDedup ids).Pairwise (· < ·) :=
  pairwise_lt_of_isChain
    ((List.pairwise_insertionSort (· ≤ ·) ids).sublist (List.destutter_sublist _ _))
    (List.isChain_destutter _ _)

end SortDedup

/-! ### The ids of a tensor -/

/-- An argsort tensor as the router leaves it: rows of `ne[0]` ids, for at least one token
and one expert to use, and for no more experts than the model has. -/
structure ArgsortTensor.Routed (cfg : PrefetchConfig) (t : ArgsortTensor) (data : List Int) :
    Prop where
  stored : t.data = some data
  tokens : 1 ≤ t.nTokens
  length : data.length = t.nTokens * t.nExperts
  used : 1 ≤ cfg.numExpertsUsed
  used_le : cfg.numExpertsUsed ≤ t.nExperts
  experts_le : t.nExperts ≤ cfg.numExpertsTotal

/-- The id of an expert of the model stands in the first positions of some row. -/
def SelectedId (cfg : PrefetchConfig) (t : ArgsortTensor) (data : List Int) (e : Nat) : Prop :=
  ∃ row < t.nTokens, ∃ i < cfg.numExpertsUsed,
    data[row * t.nExperts + i]? = some (e : Int) ∧ e < cfg.numExpertsTotal

/-- The list of those ids, in strictly increasing order. -/
structure IsSelection (cfg : PrefetchConfig) (t : ArgsortTensor) (data : List Int)
    (selection : List Nat) : Prop where
  ascending : selection.Pairwise (· < ·)
  mem_iff : ∀ e, e ∈ selection ↔ SelectedId cfg t data e

section Selection
variable {rt : Runtime} {t : ArgsortTensor} {data : List Int} {e : Nat}

theorem mem_selectedIds_iff {total k : Nat} (htokens : 1 ≤ t.nTokens) :
    e ∈ selectedIds total k t data ↔ ∃ row < t.nTokens, ∃ i < k,
      data[row * t.nExperts + i]? = some (e : Int) ∧ e < total := by
  simp only [selectedIds, List.mem_flatMap, List.mem_range, List.mem_filterMap,
    Nat.max_eq_left htokens, Option.ite_none_right_eq_some, Option.some.injEq]
  refine exists_congr fun row => and_congr_right fun _ => ?_
  constructor
  · rintro ⟨id, hmem, ⟨hpos, hlt⟩, rfl⟩
    obtain ⟨i, hi⟩ := List.mem_iff_getElem?.mp hmem
    rw [List.getElem?_take, List.getElem?_drop] at hi
    split at hi
    · next hik => exact ⟨i, hik, by rw [hi, Int.toNat_of_nonneg hpos], hlt⟩
    · cases hi
  · rintro ⟨i, hik, hid, hlt⟩
    refine ⟨(e : Int), List.mem_iff_getElem?.mpr ⟨i, ?_⟩, ⟨Int.natCast_nonneg e, ?_⟩, ?_⟩
    · rw [List.getElem?_take, if_pos hik, List.getElem?_drop, hid]
    · rwa [Int.toNat_natCast]
    · exact Int.toNat_natCast e

theorem ArgsortTensor.Routed.mem_selectedIds (h : t.Routed rt.config data) :
    e ∈ selectedIds rt.config.numExpertsTotal (min rt.config.numExpertsUsed t.nExperts) t data ↔
      SelectedId rt.config t data e := by
  rw [Nat.min_eq_left h.used_le]
  exact mem_selectedIds_iff h.tokens

/-- A tensor of at most 64 experts with some id in range is captured. -/
theorem interceptRouterOutput_captured (h : t.Routed rt.config data) (hle : t.nExperts ≤ 64)
    (hsome : ∃ e, SelectedId rt.config t data e) (m : Machine) (l : Nat) :
    ∃ selection, (m.interceptRouterOutput rt l t).selectedExperts l = some selection ∧
      IsSelection rt.config t data selection := by
  obtain ⟨e, he⟩ := hsome
  have hne := List.ne_nil_of_mem (h.mem_selectedIds.mpr he)
  have hexperts : ¬ (t.nExperts = 0 ∨ 64 < t.nExperts) := by
    have := h.used
    have := h.used_le
    omega
  have hk : ¬ min rt.config.numExpertsUsed t.nExperts = 0 := by
    rw [Nat.min_eq_left h.used_le]
    exact Nat.one_le_iff_ne_zero.mp h.used
  refine ⟨_, ?_, sortDedup_ascending (selectedIds rt.config.numExpertsTotal
    (min rt.config.numExpertsUsed t.nExperts) t data), fun e => ?_⟩
  · simp only [Machine.interceptRouterOutput, h.stored, if_neg hexperts, if_neg hk, if_neg hne,
      Function.update_self]
  · rw [mem_sortDedup, h.mem_selectedIds]

/-- Any other leaves the stored selection in force. -/
theorem interceptRouterOutput_stale (h : t.Routed rt.config data)
    (hnot : ¬ (t.nExperts ≤ 64 ∧ ∃ e, SelectedId rt.config t data e)) (m : Machine) (l : Nat) :
    (m.interceptRouterOutput rt l t).selectedExperts l = m.selectedExperts l := by
  simp only [Machine.interceptRouterOutput, h.stored]
  split
  · rfl
  · next hexperts =>
      split
      · rfl
      · have hnil : selectedIds rt.config.numExpertsTotal
            (min rt.config.numExpertsUsed t.nExperts) t data = [] := by
          refine List.eq_nil_iff_forall_not_mem.mpr fun e he => hnot ⟨by omega, e, ?_⟩
          exact h.mem_selectedIds.mp he
        rw [if_pos hnil]

/-- **What is stored is the selection**, whatever was stored before, exactly for tensors of
at most 64 experts in which some id is in range. -/
theorem interceptRouterOutput_captures_iff (h : t.Routed rt.config data) (l : Nat) :
    (∀ m : Machine, ∃ selection,
      (m.interceptRouterOutput rt l t).selectedExperts l = some selection ∧
        IsSelection rt.config t data selection) ↔
      t.nExperts ≤ 64 ∧ ∃ e, SelectedId rt.config t data e := by
  constructor
  · intro hcaptures
    by_contra hnot
    obtain ⟨selection, hstored, -⟩ := hcaptures (.start rt (.new 0 0) none 0)
    rw [interceptRouterOutput_stale h hnot] at hstored
    cases hstored
  · intro ⟨hle, hsome⟩ m
    exact interceptRouterOutput_captured h hle hsome m l

end Selection

/-! ### Two experts, and 128 -/

/-- Two tokens, which select different experts. -/
def twoTokens : ArgsortTensor := ⟨2, 2, some [1, 0, 0, 1]⟩

theorem twoTokens_captured : ∃ selection,
    (gateStart.interceptRouterOutput gateRuntime 0 twoTokens).selectedExperts 0 = some selection ∧
      IsSelection gateRuntime.config twoTokens [1, 0, 0, 1] selection := by
  have hrouted : twoTokens.Routed gateRuntime.config [1, 0, 0, 1] :=
    ⟨rfl, by decide, by decide, by decide +kernel, by decide +kernel, by decide +kernel⟩
  refine (interceptRouterOutput_captures_iff hrouted 0).mpr ⟨by decide, 1, ?_⟩ gateStart
  exact ⟨0, by decide, 0, by decide +kernel, rfl, by decide +kernel⟩

/-- A model of 128 experts, of which eight are used. -/
def wideGguf : GgufFile where
  version := 3
  metadata := fun key =>
    if key = "general.architecture" then some (.string "llama")
    else if key = "llama.expert_count" then some (.uint32 128)
    else if key = "llama.expert_used_count" then some (.uint32 8)
    else none
  tensors := [⟨"blk.0.ffn_gate_exps.weight", [256], .i8, 0, 256, some 0⟩]
  dataOffset := 128

def wideRuntime : Runtime := { gateRuntime with
  config := buildPrefetchState wideGguf [("blk.0.ffn_gate_exps.weight", ⟨0, 256, 0, none⟩)] none 1
    {0} }

def wideData : List Int := (List.range 128).map Int.ofNat

/-- With 128 experts the selection of an earlier batch stays in force. -/
theorem wideTokens_stale : ArgsortTensor.Routed wideRuntime.config ⟨128, 1, some wideData⟩ wideData ∧
    ∃ m : Machine, (m.interceptRouterOutput wideRuntime 0 ⟨128, 1, some wideData⟩).selectedExperts 0 =
      some [0] ∧ ¬ IsSelection wideRuntime.config ⟨128, 1, some wideData⟩ wideData [0] := by
  refine ⟨⟨rfl, by decide, by decide +kernel, by decide +kernel, by decide +kernel,
    by decide +kernel⟩, { Machine.start wideRuntime (.new 1 128) none 1 with
      selectedExperts := fun _ => some [0] }, ?_, fun h => ?_⟩
  · simp [Machine.interceptRouterOutput]
  · have hsecond : SelectedId wideRuntime.config ⟨128, 1, some wideData⟩ wideData 1 :=
      ⟨0, by decide, 1, by decide +kernel, by decide +kernel, by decide +kernel⟩
    exact absurd ((h.mem_iff 1).mpr hsecond) (by decide)

end Hypura
