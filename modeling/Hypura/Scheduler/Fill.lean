import Mathlib.Data.List.Nodup
import Hypura.Scheduler.Placement

/-!
# Hypura.Scheduler.Fill

What the loops that fill the assignment map guarantee, for any step function:

* names the loop does not visit keep their tier (`lookup_assignAll_of_notMem`);
* every tensor visited ends with a tier the step can choose (`tier_assignAll`);
* a budget that every step pays from bounds the bytes charged to it
  (`budget_assignAll`).

The streaming placements and the greedy placement are sequences of such loops.
-/

namespace Hypura

open Hypura.Rust Assignments

variable {F σ : Type} {f : σ → ScoredTensor F → σ × StorageTier}

namespace ScoredTensor

/-- The name and size of a tensor, as the accounting sees it. -/
def entry (t : ScoredTensor F) : String × Nat := (t.name, t.sizeBytes)

@[simp] theorem entry_fst (t : ScoredTensor F) : t.entry.1 = t.name := rfl
@[simp] theorem entry_snd (t : ScoredTensor F) : t.entry.2 = t.sizeBytes := rfl

end ScoredTensor

open ScoredTensor

/-- The names of a list of tensors are distinct. -/
abbrev DistinctNames (ts : List (ScoredTensor F)) : Prop := (ts.map name).Nodup

theorem sumBytes_eq (ts : List (ScoredTensor F)) : ((ts.map entry).map Prod.snd).sum = sumBytes ts := by
  rw [List.map_map]
  rfl

/-! ### One loop -/

theorem assignAll_append (acc : σ × Assignments) (ts ts' : List (ScoredTensor F)) :
    assignAll f acc (ts ++ ts') = assignAll f (assignAll f acc ts) ts' := by
  induction ts generalizing acc with
  | nil => rfl
  | cons t ts ih => exact ih _

theorem lookup_assignAll_of_notMem {name : String} {ts : List (ScoredTensor F)}
    (h : name ∉ ts.map ScoredTensor.name) (acc : σ × Assignments) :
    (assignAll f acc ts).2.lookup name = acc.2.lookup name := by
  induction ts generalizing acc with
  | nil => rfl
  | cons t ts ih =>
      rw [List.map_cons, List.mem_cons, not_or] at h
      rw [assignAll, ih h.2]
      exact AList.lookup_insert_ne h.1

/-- The tier of the first tensor is the one its step chose. -/
theorem lookup_assignAll_cons {t : ScoredTensor F} {ts : List (ScoredTensor F)}
    (h : DistinctNames (t :: ts)) (acc : σ × Assignments) :
    (assignAll f acc (t :: ts)).2.lookup t.name = some (f acc.1 t).2 := by
  rw [assignAll, lookup_assignAll_of_notMem (List.nodup_cons.mp h).1]
  exact AList.lookup_insert _

theorem tier_assignAll {P : StorageTier → Prop} (hP : ∀ s t, P (f s t).2)
    {ts : List (ScoredTensor F)} (acc : σ × Assignments) {t : ScoredTensor F} (ht : t ∈ ts) :
    ∃ tier, (assignAll f acc ts).2.lookup t.name = some tier ∧ P tier := by
  induction ts generalizing acc t with
  | nil => cases ht
  | cons u ts ih =>
      by_cases hmem : t.name ∈ ts.map name
      · obtain ⟨v, hv, hname⟩ := List.mem_map.mp hmem
        rw [← hname]
        exact ih _ hv
      · rcases List.mem_cons.mp ht with rfl | ht
        · refine ⟨(f acc.1 t).2, ?_, hP _ _⟩
          rw [assignAll, lookup_assignAll_of_notMem hmem]
          exact AList.lookup_insert _
        · exact absurd (List.mem_map_of_mem ht) hmem

/-- **The budget rule.** If every step pays for the bytes it charges to `p`, the loop
pays for all of them. -/
theorem budget_assignAll {Q : σ → Nat} {p : StorageTier → Bool}
    (hQ : ∀ s t, Q (f s t).1 + (if p (f s t).2 then t.sizeBytes else 0) = Q s)
    {ts : List (ScoredTensor F)} (hts : DistinctNames ts) (acc : σ × Assignments) :
    (assignAll f acc ts).2.bytesWhere p (ts.map entry) + Q (assignAll f acc ts).1 = Q acc.1 := by
  induction ts generalizing acc with
  | nil => exact Nat.zero_add _
  | cons t ts ih =>
      have htail := ih (List.nodup_cons.mp hts).2 ((f acc.1 t).1, acc.2.insert t.name (f acc.1 t).2)
      simp only at htail
      have hstep := hQ acc.1 t
      rw [List.map_cons, bytesWhere_cons, entry_fst, entry_snd, lookup_assignAll_cons hts,
        Option.any_some]
      rw [assignAll]
      omega

/-- Bytes of tensors the loop does not visit. -/
theorem bytesWhere_assignAll {p : StorageTier → Bool} {l : List (String × Nat)}
    {ts : List (ScoredTensor F)} (h : ∀ e ∈ l, e.1 ∉ ts.map name) (acc : σ × Assignments) :
    (assignAll f acc ts).2.bytesWhere p l = acc.2.bytesWhere p l :=
  bytesWhere_congr fun e he => lookup_assignAll_of_notMem (h e he) acc

/-! ### The steps of the source -/

theorem gpuThenRam_tier (s : Nat) (t : ScoredTensor F) : (gpuThenRam s t).2 ≠ .nvme := by
  unfold gpuThenRam
  split <;> simp

theorem gpuThenRam_budget (s : Nat) (t : ScoredTensor F) :
    (gpuThenRam s t).1 + (if decide ((gpuThenRam s t).2 = .gpu) then t.sizeBytes else 0) = s := by
  unfold gpuThenRam
  split
  · next h => simp only [decide_true, if_true]; omega
  · simp

theorem gpuRamNvme_budget_gpu (s : Nat × Nat) (t : ScoredTensor F) :
    (gpuRamNvme s t).1.1 + (if decide ((gpuRamNvme s t).2 = .gpu) then t.sizeBytes else 0) = s.1 := by
  unfold gpuRamNvme
  split
  · next h => simp only [decide_true, if_true]; omega
  · split <;> simp

theorem gpuRamNvme_budget_unified (s : Nat × Nat) (t : ScoredTensor F) :
    (gpuRamNvme s t).1.2 + (if decide ((gpuRamNvme s t).2 ≠ .nvme) then t.sizeBytes else 0) = s.2 := by
  unfold gpuRamNvme
  split
  · next h => simp; omega
  · split
    · next h => simp; omega
    · simp

/-! ### Two lists with no name in common -/

theorem DistinctNames.of_perm {ts ts' : List (ScoredTensor F)} (h : ts.Perm ts')
    (hts : DistinctNames ts) : DistinctNames ts' :=
  (h.map name).nodup hts

theorem DistinctNames.notMem_of_mem_left {ts ts' : List (ScoredTensor F)}
    (h : DistinctNames (ts ++ ts')) {t : ScoredTensor F} (ht : t ∈ ts) : t.name ∉ ts'.map name := by
  rw [DistinctNames, List.map_append] at h
  exact fun hmem => (List.disjoint_of_nodup_append h) (List.mem_map_of_mem ht) hmem

theorem DistinctNames.notMem_right {ts ts' : List (ScoredTensor F)} (h : DistinctNames (ts ++ ts')) :
    ∀ e ∈ ts.map entry, e.1 ∉ ts'.map name := by
  intro e he
  obtain ⟨t, ht, rfl⟩ := List.mem_map.mp he
  exact h.notMem_of_mem_left ht

theorem DistinctNames.left {ts ts' : List (ScoredTensor F)} (h : DistinctNames (ts ++ ts')) :
    DistinctNames ts := by
  rw [DistinctNames, List.map_append] at h
  exact h.of_append_left

theorem DistinctNames.right {ts ts' : List (ScoredTensor F)} (h : DistinctNames (ts ++ ts')) :
    DistinctNames ts' := by
  rw [DistinctNames, List.map_append] at h
  exact h.of_append_right

theorem sortByScore_perm [F64 F] (ts : List (ScoredTensor F)) : (sortByScore ts).Perm ts :=
  List.mergeSort_perm _ _

theorem sumBytes_perm {ts ts' : List (ScoredTensor F)} (h : ts.Perm ts') :
    sumBytes ts = sumBytes ts' := (h.map sizeBytes).sum_eq

/-! ### Layers -/

theorem mem_layerIndices {ts : List (ScoredTensor F)} {l : Nat} :
    l ∈ layerIndices ts ↔ ∃ t ∈ ts, t.layerIndex = some l := by
  rw [layerIndices, List.mem_mergeSort, List.mem_dedup, List.mem_filterMap]

theorem layerIndices_pairwise (ts : List (ScoredTensor F)) :
    (layerIndices ts).Pairwise (· < ·) := by
  have hle : (layerIndices ts).Pairwise fun a b => decide (a ≤ b) = true :=
    List.pairwise_mergeSort (fun a b c hab hbc => by simp at hab hbc ⊢; omega)
      (fun a b => by simp; omega) _
  have hne : (layerIndices ts).Pairwise (· ≠ ·) :=
    (List.mergeSort_perm _ _).nodup_iff.mpr (List.nodup_dedup _)
  exact (hle.and hne).imp fun ⟨h, hn⟩ => lt_of_le_of_ne (of_decide_eq_true h) hn

theorem mem_layerTensors {ts : List (ScoredTensor F)} {l : Nat} {t : ScoredTensor F} :
    t ∈ layerTensors ts l ↔ t ∈ ts ∧ t.layerIndex = some l := by
  rw [layerTensors, List.mem_filter, decide_eq_true_iff]

/-- The tensors outside layers and the tensors layer by layer are all the tensors. -/
theorem layers_perm {ts : List (ScoredTensor F)} (hnames : DistinctNames ts) :
    ((ts.filter fun t => t.layerIndex.isNone) ++ (layerIndices ts).flatMap (layerTensors ts)).Perm
      ts := by
  have hnodup : ts.Nodup := List.Nodup.of_map _ hnames
  have hlayers : ((layerIndices ts).flatMap (layerTensors ts)).Nodup := by
    refine List.nodup_flatMap.mpr ⟨fun l _ => hnodup.filter _, ?_⟩
    refine (layerIndices_pairwise ts).imp fun {a b} hab => ?_
    intro t ha hb
    have ha := (mem_layerTensors.mp ha).2
    have hb := (mem_layerTensors.mp hb).2
    rw [ha] at hb
    exact absurd (Option.some.inj hb) (Nat.ne_of_lt hab)
  have hdisj : List.Disjoint (ts.filter fun t => t.layerIndex.isNone)
      ((layerIndices ts).flatMap (layerTensors ts)) := by
    intro t ht hl
    obtain ⟨l, -, hl⟩ := List.mem_flatMap.mp hl
    have hnone := (List.mem_filter.mp ht).2
    simp [(mem_layerTensors.mp hl).2] at hnone
  refine (List.perm_ext_iff_of_nodup ((hnodup.filter _).append hlayers hdisj) hnodup).mpr fun t => ?_
  rw [List.mem_append, List.mem_filter, List.mem_flatMap]
  constructor
  · rintro (⟨h, -⟩ | ⟨l, -, h⟩)
    · exact h
    · exact (mem_layerTensors.mp h).1
  · intro ht
    cases hl : t.layerIndex with
    | none => exact .inl ⟨ht, rfl⟩
    | some l => exact .inr ⟨l, mem_layerIndices.mpr ⟨t, ht, hl⟩, mem_layerTensors.mpr ⟨ht, hl⟩⟩

end Hypura
