import Hypura.Scheduler.Fill

/-!
# Hypura.Scheduler.Mip

What an exact solution of the placement MIP says about the assignment read off it.

Throughout, `σ` is a point that satisfies the program `lp_assign` builds, in the exact
sense of `Core.Program.Satisfies`. Its tier variables are the indicators of the tiers of
the extracted assignment (`gpu_indicator`, `ram_indicator`, `nvme_indicator`), so the
capacity constraints bound the bytes per tier and the layer switches make the NVMe
layers a suffix.
-/

namespace Hypura

open Hypura.Core Hypura.Rust Assignments ScoredTensor

variable {F : Type} {tensors : List (ScoredTensor F)} {caps : TierCapacities}
  {hw : HardwareProfile} {metadata : ModelMetadata}

/-! ### The extracted assignment -/

theorem lookup_assignAll_zipIdx {tier : Nat → StorageTier} {ts : List (ScoredTensor F)}
    (hts : DistinctNames ts) {k i : Nat} {m : Assignments} {t : ScoredTensor F}
    (h : (t, i) ∈ ts.zipIdx k) :
    (assignAll (fun i _ => (i + 1, tier i)) (k, m) ts).2.lookup t.name = some (tier i) := by
  induction ts generalizing k m with
  | nil => cases h
  | cons u ts ih =>
      rw [List.zipIdx_cons] at h
      rcases List.mem_cons.mp h with heq | hmem
      · cases heq
        exact lookup_assignAll_cons hts (_, m)
      · exact ih (List.nodup_cons.mp hts).2 hmem

theorem lookup_extractAssignments [F64 F] {σ : MipVar → F} (hnames : DistinctNames tensors) {t : ScoredTensor F} {i : Nat}
    (h : (t, i) ∈ tensors.zipIdx) :
    (extractAssignments tensors σ).lookup t.name = some (solutionTier σ i) :=
  lookup_assignAll_zipIdx hnames h

theorem exists_zipIdx {α : Type} {l : List α} {a : α} (h : a ∈ l) : ∃ i, (a, i) ∈ l.zipIdx := by
  obtain ⟨i, hi, rfl⟩ := List.getElem_of_mem h
  exact ⟨i, by simp [List.mem_zipIdx_iff_getElem?, hi]⟩

theorem lt_length_of_mem_zipIdx {α : Type} {l : List α} {a : α} {i : Nat}
    (h : (a, i) ∈ l.zipIdx) : i < l.length := by
  have := List.mem_zipIdx h
  omega

theorem mem_of_mem_zipIdx {α : Type} {l : List α} {a : α} {i : Nat} (h : (a, i) ∈ l.zipIdx) :
    a ∈ l := by
  obtain ⟨-, -, heq⟩ := List.mem_zipIdx h
  exact heq ▸ List.getElem_mem _

/-- The bytes of the tensors whose tier satisfies `p`, from the indicator of `p`. -/
theorem bytesWhere_zipIdx {m : Assignments} {p : StorageTier → Bool} {x : Nat → ℚ}
    (hx : ∀ t i, (t, i) ∈ tensors.zipIdx → (if (m.lookup t.name).any p then 1 else 0) = x i) :
    (m.bytesWhere p (tensors.map entry) : ℚ) =
      (tensors.zipIdx.map fun y => (y.1.sizeBytes : ℚ) * x y.2).sum := by
  have hentries : tensors.map entry = tensors.zipIdx.map fun y => y.1.entry := by
    conv_lhs => rw [← List.zipIdx_map_fst 0 tensors, List.map_map]
    rfl
  rw [bytesWhere, hentries, List.map_map, Nat.cast_list_sum, List.map_map]
  refine congrArg List.sum (List.map_congr_left fun y hmem => ?_)
  obtain ⟨t, i⟩ := y
  simp only [Function.comp_apply, entry_fst, entry_snd, ← hx t i hmem]
  by_cases hp : (m.lookup t.name).any p = true <;> simp [hp]

theorem bytesWhere_extract [F64 F] {σ : MipVar → F} (hnames : DistinctNames tensors)
    {p : StorageTier → Bool} {x : Nat → ℚ}
    (hx : ∀ i < tensors.length, (if p (solutionTier σ i) then 1 else 0) = x i) :
    ((extractAssignments tensors σ).bytesWhere p (tensors.map entry) : ℚ) =
      (tensors.zipIdx.map fun y => (y.1.sizeBytes : ℚ) * x y.2).sum :=
  bytesWhere_zipIdx fun t i hmem => by
    rw [← hx i (lt_length_of_mem_zipIdx hmem)]
    simp only [lookup_extractAssignments (σ := σ) hnames hmem, Option.any_some]

/-! ### The constraints, one by one -/

section Feasible
variable [F64 F] (tensors caps hw metadata)

/-- The bounds and constraints of the MIP, in the order the program adds them. -/
structure MipFeasible (σ : MipVar → F) : Prop where
  tierBinary : ∀ i < tensors.length, ∀ v ∈ [MipVar.xGpu i, .xRam i, .xNvme i],
    F64.toRat (σ v) = 0 ∨ F64.toRat (σ v) = 1
  layerBinary : ∀ j < (layerIndices tensors).length,
    F64.toRat (σ (.layerNvme j)) = 0 ∨ F64.toRat (σ (.layerNvme j)) = 1
  costNonneg : ∀ j < (layerIndices tensors).length, 0 ≤ F64.toRat (σ (.layerCost j))
  costCompute : ∀ j l, (layerIndices tensors)[j]? = some l →
    (computeExpr tensors hw l).eval F64.toRat σ ≤ F64.toRat (σ (.layerCost j))
  costIo : ∀ l, (layerIndices tensors)[0]? = some l →
    (ioExpr tensors caps metadata l).eval F64.toRat σ ≤ F64.toRat (σ (.layerCost 0))
  costOverlap : ∀ k l l', (layerIndices tensors)[k]? = some l →
    (layerIndices tensors)[k + 1]? = some l' →
    (ioExpr tensors caps metadata l').eval F64.toRat σ -
      (computeExpr tensors hw l).eval F64.toRat σ ≤ F64.toRat (σ (.layerCost (k + 1)))
  oneTier : ∀ i < tensors.length,
    F64.toRat (σ (.xGpu i)) + F64.toRat (σ (.xRam i)) + F64.toRat (σ (.xNvme i)) = 1
  gpu : (tensors.zipIdx.map fun x =>
    F64.toRat (x.1.sizeBytes : F) * F64.toRat (σ (.xGpu x.2))).sum ≤ F64.toRat (caps.gpuBytes : F)
  ram : (tensors.zipIdx.map fun x =>
    F64.toRat (x.1.sizeBytes : F) * F64.toRat (σ (.xRam x.2))).sum ≤ F64.toRat (caps.ramBytes : F)
  unified : (tensors.zipIdx.map fun x => F64.toRat (x.1.sizeBytes : F) *
    (F64.toRat (σ (.xGpu x.2)) + F64.toRat (σ (.xRam x.2)))).sum ≤ F64.toRat (caps.unifiedLimit : F)
  contiguous : ∀ k, k + 1 < (layerIndices tensors).length →
    F64.toRat (σ (.layerNvme k)) ≤ F64.toRat (σ (.layerNvme (k + 1)))
  link : ∀ t i l j, (t, i) ∈ tensors.zipIdx → t.layerIndex = some l →
    (layerIndices tensors).idxOf? l = some j → F64.toRat (σ (.xNvme i)) = F64.toRat (σ (.layerNvme j))

end Feasible

section Satisfies
variable [F64 F] {σ : MipVar → F}

theorem eval_one_term (v : MipVar) :
    (LinExpr.term (1.0 : F) v).eval F64.toRat σ = F64.toRat (σ v) := by
  rw [LinExpr.eval, F64.toRat_one, one_mul]

theorem sum_flatMap {α : Type} (l : List α) (f : α → List ℚ) :
    (l.flatMap f).sum = (l.map fun a => (f a).sum).sum := by
  induction l with
  | nil => rfl
  | cons a l ih => rw [List.flatMap_cons, List.sum_append, ih, List.map_cons, List.sum_cons]

theorem layerCostConstraints_iff :
    (∀ c ∈ layerCostConstraints tensors caps hw metadata, c.Holds F64.toRat σ) ↔
      (∀ j l, (layerIndices tensors)[j]? = some l →
        (computeExpr tensors hw l).eval F64.toRat σ ≤ F64.toRat (σ (.layerCost j))) ∧
      (∀ l, (layerIndices tensors)[0]? = some l →
        (ioExpr tensors caps metadata l).eval F64.toRat σ ≤ F64.toRat (σ (.layerCost 0))) := by
  simp only [layerCostConstraints, List.forall_mem_flatMap, List.forall_mem_cons, Prod.forall,
    List.mem_zipIdx_iff_getElem?, Constraint.Holds, eval_one_term]
  constructor
  · intro h
    refine ⟨fun j l hj => (h l j hj).1, fun l hl => ?_⟩
    simpa [Constraint.Holds, eval_one_term] using (h l 0 hl).2
  · rintro ⟨hcompute, hio⟩ l j hj
    refine ⟨hcompute j l hj, fun c hc => ?_⟩
    split at hc
    · next hzero =>
        subst hzero
        rw [List.mem_singleton.mp hc]
        simpa [Constraint.Holds, eval_one_term] using hio l hj
    · cases hc

theorem overlapConstraints_iff :
    (∀ c ∈ overlapConstraints tensors caps hw metadata, c.Holds F64.toRat σ) ↔
      ∀ k l l', (layerIndices tensors)[k]? = some l → (layerIndices tensors)[k + 1]? = some l' →
        (ioExpr tensors caps metadata l').eval F64.toRat σ -
          (computeExpr tensors hw l).eval F64.toRat σ ≤ F64.toRat (σ (.layerCost (k + 1))) := by
  simp only [overlapConstraints, List.forall_mem_map, Prod.forall, List.mem_zipIdx_iff_getElem?,
    Constraint.Holds, LinExpr.eval, F64.toRat_one, one_mul, List.getElem?_zip_eq_some,
    List.getElem?_tail]
  exact ⟨fun h k l l' hl hl' => h l l' k ⟨hl, hl'⟩, fun h l l' k hk => h k l l' hk.1 hk.2⟩

theorem oneTierConstraints_iff :
    (∀ c ∈ oneTierConstraints (F := F) tensors, c.Holds F64.toRat σ) ↔
      ∀ i < tensors.length, F64.toRat (σ (.xGpu i)) + F64.toRat (σ (.xRam i)) +
        F64.toRat (σ (.xNvme i)) = 1 := by
  simp only [oneTierConstraints, List.forall_mem_map, List.mem_range, Constraint.Holds,
    LinExpr.eval, F64.toRat_one, one_mul]

theorem capacity_iff :
    (∀ c ∈ [gpuCapacity tensors caps, ramCapacity tensors caps, unifiedCapacity tensors caps],
      c.Holds F64.toRat σ) ↔
      ((tensors.zipIdx.map fun x =>
        F64.toRat (x.1.sizeBytes : F) * F64.toRat (σ (.xGpu x.2))).sum ≤ F64.toRat (caps.gpuBytes : F)) ∧
      ((tensors.zipIdx.map fun x =>
        F64.toRat (x.1.sizeBytes : F) * F64.toRat (σ (.xRam x.2))).sum ≤ F64.toRat (caps.ramBytes : F)) ∧
      ((tensors.zipIdx.map fun x => F64.toRat (x.1.sizeBytes : F) *
        (F64.toRat (σ (.xGpu x.2)) + F64.toRat (σ (.xRam x.2)))).sum ≤
          F64.toRat (caps.unifiedLimit : F)) := by
  simp only [List.forall_mem_cons, gpuCapacity, ramCapacity, unifiedCapacity, Constraint.Holds,
    LinExpr.eval_sum F64.toRat_zero, List.map_map, List.map_flatMap, List.map_cons, List.map_nil,
    sum_flatMap, List.sum_cons, List.sum_nil, add_zero,
    LinExpr.eval, mul_add, List.not_mem_nil, false_implies, implies_true, and_true]
  rfl

theorem contiguityConstraints_iff :
    (∀ c ∈ contiguityConstraints (F := F) tensors, c.Holds F64.toRat σ) ↔
      ∀ k, k + 1 < (layerIndices tensors).length →
        F64.toRat (σ (.layerNvme k)) ≤ F64.toRat (σ (.layerNvme (k + 1))) := by
  simp only [contiguityConstraints, List.forall_mem_map, List.mem_range, Constraint.Holds,
    eval_one_term]
  exact ⟨fun h k hk => h k (by omega), fun h k hk => h k (by omega)⟩

theorem linkConstraints_iff :
    (∀ c ∈ linkConstraints (F := F) tensors, c.Holds F64.toRat σ) ↔
      ∀ t i l j, (t, i) ∈ tensors.zipIdx → t.layerIndex = some l →
        (layerIndices tensors).idxOf? l = some j →
          F64.toRat (σ (.xNvme i)) = F64.toRat (σ (.layerNvme j)) := by
  constructor
  · intro h t i l j ht hl hj
    have hc := h ⟨.term 1.0 (.xNvme i), .eq, .term 1.0 (.layerNvme j)⟩
      (List.mem_filterMap.mpr ⟨(t, i), ht, by simp [hl, hj]⟩)
    simpa only [Constraint.Holds, eval_one_term] using hc
  · intro h c hc
    obtain ⟨⟨t, i⟩, ht, hsome⟩ := List.mem_filterMap.mp hc
    simp only [Option.map_eq_some_iff, Option.bind_eq_some_iff] at hsome
    obtain ⟨j, ⟨l, hl, hj⟩, rfl⟩ := hsome
    simpa only [Constraint.Holds, eval_one_term] using h t i l j ht hl hj

/-- The program is satisfied exactly when every group of constraints holds. -/
theorem mipProgram_satisfies_iff :
    (mipProgram tensors caps hw metadata).Satisfies F64.toRat σ ↔
      MipFeasible tensors caps hw metadata σ := by
  constructor
  · rintro ⟨hbin, hnonneg, hcons⟩
    simp only [mipProgram, List.forall_mem_append, List.forall_mem_flatMap, List.forall_mem_map,
      List.mem_range, layerCostConstraints_iff, overlapConstraints_iff, oneTierConstraints_iff,
      capacity_iff, contiguityConstraints_iff, linkConstraints_iff] at hbin hnonneg hcons
    obtain ⟨⟨⟨⟨⟨⟨hcompute, hio⟩, hover⟩, hone⟩, hgpu, hram, huni⟩, hcont⟩, hlink⟩ := hcons
    exact ⟨hbin.1, hbin.2, hnonneg, hcompute, hio, hover, hone, hgpu, hram, huni, hcont, hlink⟩
  · intro h
    refine ⟨?_, ?_, ?_⟩ <;>
      simp only [mipProgram, List.forall_mem_append, List.forall_mem_flatMap, List.forall_mem_map,
        List.mem_range, layerCostConstraints_iff, overlapConstraints_iff, oneTierConstraints_iff,
        capacity_iff, contiguityConstraints_iff, linkConstraints_iff]
    · exact ⟨h.tierBinary, h.layerBinary⟩
    · exact h.costNonneg
    · exact ⟨⟨⟨⟨⟨⟨h.costCompute, h.costIo⟩, h.costOverlap⟩, h.oneTier⟩, h.gpu, h.ram, h.unified⟩,
        h.contiguous⟩, h.link⟩

/-! ### Indicators -/

namespace MipFeasible
variable (h : MipFeasible tensors caps hw metadata σ)
include h

theorem gpu_indicator {i : Nat} (hi : i < tensors.length) :
    (if solutionTier σ i = .gpu then 1 else 0) = F64.toRat (σ (.xGpu i)) := by
  unfold solutionTier
  rcases h.tierBinary i hi (.xGpu i) (by simp) with hg | hg
  · rw [if_neg (F64.not_half_lt_of_toRat_eq_zero _ hg), hg]
    split <;> simp
  · rw [if_pos (F64.half_lt_of_toRat_eq_one _ hg), if_pos rfl, hg]

theorem ram_indicator {i : Nat} (hi : i < tensors.length) :
    (if solutionTier σ i = .ram then 1 else 0) = F64.toRat (σ (.xRam i)) := by
  have hsum := h.oneTier i hi
  unfold solutionTier
  rcases h.tierBinary i hi (.xGpu i) (by simp) with hg | hg <;>
    rcases h.tierBinary i hi (.xRam i) (by simp) with hr | hr
  · rw [if_neg (F64.not_half_lt_of_toRat_eq_zero _ hg),
      if_neg (F64.not_half_lt_of_toRat_eq_zero _ hr), hr]
    simp
  · rw [if_neg (F64.not_half_lt_of_toRat_eq_zero _ hg),
      if_pos (F64.half_lt_of_toRat_eq_one _ hr), hr]
    simp
  · rw [if_pos (F64.half_lt_of_toRat_eq_one _ hg), hr]
    simp
  · -- a tensor cannot be on the GPU and in RAM at once
    rcases h.tierBinary i hi (.xNvme i) (by simp) with hn | hn <;> rw [hg, hr, hn] at hsum <;>
      norm_num at hsum

theorem nvme_indicator {i : Nat} (hi : i < tensors.length) :
    (if solutionTier σ i = .nvme then 1 else 0) = F64.toRat (σ (.xNvme i)) := by
  have hsum := h.oneTier i hi
  rw [← h.gpu_indicator hi, ← h.ram_indicator hi] at hsum
  cases ht : solutionTier σ i <;> simp [ht] at hsum ⊢ <;> linarith

/-- A tensor of layer `l` is on NVMe exactly when the switch of that layer is on. -/
theorem nvme_iff_layer {t : ScoredTensor F} {i l j : Nat} (ht : (t, i) ∈ tensors.zipIdx)
    (hl : t.layerIndex = some l) (hj : (layerIndices tensors).idxOf? l = some j) :
    solutionTier σ i = .nvme ↔ F64.toRat (σ (.layerNvme j)) = 1 := by
  rw [← h.link t i l j ht hl hj, ← h.nvme_indicator (lt_length_of_mem_zipIdx ht)]
  split <;> simp [*]

/-- Once a layer switch is on, the switches of all later layers are. -/
theorem layerNvme_mono {j k : Nat} (hjk : j ≤ k) (hk : k < (layerIndices tensors).length) :
    F64.toRat (σ (.layerNvme j)) ≤ F64.toRat (σ (.layerNvme k)) := by
  induction k, hjk using Nat.le_induction with
  | base => exact le_rfl
  | succ k hjk ih => exact (ih (by omega)).trans (h.contiguous k hk)

end MipFeasible

end Satisfies

/-! ### Positions of layers -/

theorem exists_idxOf? {t : ScoredTensor F} {l : Nat} (ht : t ∈ tensors) (hl : t.layerIndex = some l) :
    ∃ j, (layerIndices tensors).idxOf? l = some j := by
  have hmem : l ∈ layerIndices tensors := mem_layerIndices.mpr ⟨t, ht, hl⟩
  cases hj : (layerIndices tensors).idxOf? l with
  | some j => exact ⟨j, rfl⟩
  | none => exact absurd hmem (List.idxOf?_eq_none_iff.mp hj)

theorem getElem?_of_idxOf? {ls : List Nat} {l j : Nat} (h : ls.idxOf? l = some j) :
    ls[j]? = some l := by
  rw [List.idxOf?, List.findIdx?_eq_some_iff_getElem] at h
  obtain ⟨hj, heq, -⟩ := h
  rw [List.getElem?_eq_getElem hj, eq_of_beq heq]

/-- Positions in the ascending list of layers are ordered as the layers are. -/
theorem idx_le_of_le {j k l l' : Nat} (hj : (layerIndices tensors)[j]? = some l)
    (hk : (layerIndices tensors)[k]? = some l') (hle : l ≤ l') : j ≤ k := by
  obtain ⟨hj', rfl⟩ := List.getElem?_eq_some_iff.mp hj
  obtain ⟨hk', rfl⟩ := List.getElem?_eq_some_iff.mp hk
  by_contra hlt
  have := List.pairwise_iff_getElem.mp (layerIndices_pairwise tensors) k j hk' hj' (by omega)
  omega

end Hypura
