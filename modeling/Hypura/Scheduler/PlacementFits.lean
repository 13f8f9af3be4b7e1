import Mathlib.Data.List.Perm.Basic
import Hypura.Scheduler.Mip

/-!
# Hypura.Scheduler.PlacementFits

Every placement plan fits the machine, whichever of the four placements produced it.

* `assignStreaming_fits`, `greedyAssign_fits`, `extractAssignments_fits`: each
  placement gives every tensor a tier and stays within the GPU and unified capacities.
* `greedyAssign_suffix`, `extractAssignments_suffix`: the greedy placement and the MIP
  put whole layers on NVMe, the last ones.
* `computePlacement_fits`: with the capacities computed from the hardware, resident
  bytes, KV cache and reserves fit in memory and in the GPU working set.

The arithmetic on scores and costs is any `F64`: only byte counts matter here.
-/

namespace Hypura

open Hypura.Core Hypura.Rust Assignments ScoredTensor

variable {F : Type}

/-- Every tensor has a tier, and the GPU and unified capacities are kept. -/
structure Fits (m : Assignments) (caps : TierCapacities) (ts : List (ScoredTensor F)) : Prop where
  oneTier : ∀ t ∈ ts, (m.lookup t.name).isSome
  gpu : m.bytesWhere (· = .gpu) (ts.map entry) ≤ caps.gpuBytes
  unified : m.bytesWhere (· ≠ .nvme) (ts.map entry) ≤ caps.unifiedLimit

/-- If a layer has a tensor on NVMe, then all of it and of every later layer is. -/
def NvmeSuffix (m : Assignments) (ts : List (ScoredTensor F)) : Prop :=
  ∀ t ∈ ts, ∀ t' ∈ ts, ∀ l l', t.layerIndex = some l → t'.layerIndex = some l' → l ≤ l' →
    m.lookup t.name = some .nvme → m.lookup t'.name = some .nvme

theorem Fits.of_perm {m : Assignments} {caps : TierCapacities} {ts ts' : List (ScoredTensor F)}
    (h : ts.Perm ts') (hf : Fits m caps ts) : Fits m caps ts' where
  oneTier t ht := hf.oneTier t (h.mem_iff.mpr ht)
  gpu := by rw [← bytesWhere_perm (h.map entry)]; exact hf.gpu
  unified := by rw [← bytesWhere_perm (h.map entry)]; exact hf.unified

/-! ### A loop over a list that ends on NVMe -/

theorem allTo_tier {σ : Type} {tier : StorageTier} {acc : σ × Assignments}
    {ts : List (ScoredTensor F)} {t : ScoredTensor F} (ht : t ∈ ts) :
    (assignAll (allTo tier) acc ts).2.lookup t.name = some tier := by
  obtain ⟨tier', h, rfl⟩ := tier_assignAll (f := allTo tier) (P := (· = tier)) (fun _ _ => rfl) acc ht
  exact h

/-- Sending `ts'` to NVMe after `ts` was placed leaves the resident bytes of both at
those of `ts`. -/
theorem bytesWhere_allTo_nvme {σ : Type} {p : StorageTier → Bool} (hp : p .nvme = false)
    {ts ts' : List (ScoredTensor F)} (h : DistinctNames (ts ++ ts')) (acc : σ × Assignments) :
    (assignAll (allTo .nvme) acc ts').2.bytesWhere p ((ts ++ ts').map entry) =
      acc.2.bytesWhere p (ts.map entry) := by
  have hzero : (assignAll (allTo .nvme) acc ts').2.bytesWhere p (ts'.map entry) = 0 := by
    refine bytesWhere_eq_zero fun e he => ?_
    obtain ⟨t, ht, rfl⟩ := List.mem_map.mp he
    rw [entry_fst, allTo_tier ht, Option.any_some, hp]
  rw [List.map_append, bytesWhere_append, hzero, bytesWhere_assignAll h.notMem_right]
  rfl

/-! ### The streaming placements -/

section Streaming
variable [F64 F] {tensors : List (ScoredTensor F)} {caps : TierCapacities}

/-- If what is not streamed fits in unified memory, the streaming placement fits. -/
theorem assignStreaming_fits (hnames : DistinctNames tensors) (streamed : ScoredTensor F → Bool)
    (hfit : sumBytes (tensors.filter fun t => !streamed t) ≤ caps.unifiedLimit) :
    Fits (assignStreaming tensors caps streamed) caps tensors := by
  have hperm : (sortByScore (tensors.filter fun t => !streamed t) ++
      tensors.filter streamed).Perm tensors :=
    ((sortByScore_perm _).append_right _).trans
      (List.perm_append_comm.trans (List.filter_append_perm streamed tensors))
  have hdist := hnames.of_perm hperm.symm
  refine Fits.of_perm hperm ⟨?_, ?_, ?_⟩
  · intro t ht
    unfold assignStreaming
    by_cases hmem : t.name ∈ (tensors.filter streamed).map name
    · obtain ⟨u, hu, hname⟩ := List.mem_map.mp hmem
      rw [← hname, allTo_tier hu]
      rfl
    · rcases List.mem_append.mp ht with ht | ht
      · obtain ⟨tier, h, -⟩ := tier_assignAll (f := gpuThenRam) (P := fun _ => True)
          (fun _ _ => trivial) (caps.gpuBytes, ∅) ht
        rw [lookup_assignAll_of_notMem hmem, h]
        rfl
      · exact absurd (List.mem_map_of_mem ht) hmem
  · have hb := budget_assignAll (Q := id) (p := (· = .gpu)) gpuThenRam_budget hdist.left
      (caps.gpuBytes, ∅)
    rw [assignStreaming, bytesWhere_allTo_nvme (by decide) hdist]
    exact (Nat.le_add_right _ _).trans hb.le
  · rw [assignStreaming, bytesWhere_allTo_nvme (by decide) hdist]
    refine bytesWhere_le_sum.trans ?_
    rw [sumBytes_eq, sumBytes_perm (sortByScore_perm _)]
    exact hfit

theorem tryExpertStreamingAssign_fits {metadata : ModelMetadata} {m : Assignments}
    (hnames : DistinctNames tensors)
    (h : tryExpertStreamingAssign tensors caps metadata = some m) : Fits m caps tensors := by
  simp only [tryExpertStreamingAssign, Option.ite_none_left_eq_some, Option.some.injEq] at h
  obtain ⟨-, hsize, -, rfl⟩ := h
  exact assignStreaming_fits hnames _ (by omega)

theorem tryDenseFfnStreamingAssign_fits {metadata : ModelMetadata} {m : Assignments}
    (hnames : DistinctNames tensors)
    (h : tryDenseFfnStreamingAssign tensors caps metadata = some m) : Fits m caps tensors := by
  simp only [tryDenseFfnStreamingAssign, Option.ite_none_left_eq_some, Option.some.injEq] at h
  obtain ⟨-, hsize, -, -, rfl⟩ := h
  exact assignStreaming_fits hnames _ (by omega)

end Streaming

/-! ### The greedy placement -/

section Greedy
variable [F64 F]

/-- The cutoff found is one that fits, if the initial one does. -/
theorem searchCutoff_fits {p : Nat → Bool} {cost : Nat → F} {cutoffs : List Nat} {best : Nat × F}
    (h : p best.1) : p (searchCutoff p cost cutoffs best) := by
  induction cutoffs generalizing best with
  | nil => exact h
  | cons c cs ih =>
      unfold searchCutoff
      split
      · next hc =>
          refine ih ?_
          split
          · exact hc
          · exact h
      · exact h

/-- Applying a cutoff fills the resident layers, then sends the others to NVMe. -/
theorem applyCutoff_eq (cutoff : Nat) (acc : Nat × Assignments)
    (layers : List (List (ScoredTensor F))) :
    applyCutoff cutoff acc layers =
      assignAll (allTo .nvme)
        (assignAll gpuThenRam acc ((layers.take cutoff).map sortByScore).flatten)
        (layers.drop cutoff).flatten := by
  induction layers generalizing cutoff acc with
  | nil => simp [applyCutoff, assignAll]
  | cons ts layers ih =>
      cases cutoff with
      | zero =>
          rw [applyCutoff, ih, List.take_zero, List.take_zero, List.drop_zero, List.drop_zero,
            List.flatten_cons, assignAll_append]
          rfl
      | succ cutoff =>
          rw [applyCutoff, ih, List.take_succ_cons, List.drop_succ_cons, List.map_cons,
            List.flatten_cons, assignAll_append]

theorem flatten_map_sortByScore_perm (layers : List (List (ScoredTensor F))) :
    ((layers.map sortByScore).flatten).Perm layers.flatten := by
  induction layers with
  | nil => exact .nil
  | cons ts layers ih => exact (sortByScore_perm ts).append ih

theorem bestCutoff_fits (caps : TierCapacities) (hw : HardwareProfile) (metadata : ModelMetadata)
    (layers : List (List (ScoredTensor F))) (unifiedRemaining : Nat) :
    sumBytes (layers.take (bestCutoff caps hw metadata layers unifiedRemaining)).flatten ≤
      unifiedRemaining := by
  have hzero : decide (sumBytes (layers.take 0).flatten ≤ unifiedRemaining) = true :=
    decide_eq_true (Nat.zero_le _)
  exact of_decide_eq_true (searchCutoff_fits
    (p := fun cutoff => decide (sumBytes (layers.take cutoff).flatten ≤ unifiedRemaining)) hzero)

variable (tensors : List (ScoredTensor F)) (caps : TierCapacities) (hw : HardwareProfile)
  (metadata : ModelMetadata)

/-- The cutoff the greedy placement applies. -/
def greedyCutoff : Nat :=
  bestCutoff caps hw metadata (layerList tensors) (placeNonLayer tensors caps).1.2

/-- The tensors of the resident layers, in the order they are placed. -/
def residentTensors : List (ScoredTensor F) :=
  (((layerList tensors).take (greedyCutoff tensors caps hw metadata)).map sortByScore).flatten

/-- The tensors of the layers that go to NVMe. -/
def spilledTensors : List (ScoredTensor F) :=
  ((layerList tensors).drop (greedyCutoff tensors caps hw metadata)).flatten

/-- The greedy placement is three loops: the tensors outside layers, the resident layers
and the NVMe layers. -/
theorem greedyAssign_eq :
    greedyAssign tensors caps hw metadata =
      (assignAll (allTo .nvme)
        (assignAll gpuThenRam
          ((placeNonLayer tensors caps).1.1, (placeNonLayer tensors caps).2)
          (residentTensors tensors caps hw metadata))
        (spilledTensors tensors caps hw metadata)).2 := by
  rw [greedyAssign, applyCutoff_eq]
  rfl

variable {tensors}

theorem residentTensors_perm : (residentTensors tensors caps hw metadata).Perm
    ((layerList tensors).take (greedyCutoff tensors caps hw metadata)).flatten :=
  flatten_map_sortByScore_perm _

/-- The three loops visit every tensor once. -/
theorem greedy_perm (hnames : DistinctNames tensors) :
    ((sortByScore (tensors.filter fun t => t.layerIndex.isNone) ++
      residentTensors tensors caps hw metadata) ++ spilledTensors tensors caps hw metadata).Perm
      tensors := by
  have hlayers : (residentTensors tensors caps hw metadata ++
      spilledTensors tensors caps hw metadata).Perm
        ((layerIndices tensors).flatMap (layerTensors tensors)) := by
    refine ((residentTensors_perm caps hw metadata).append_right _).trans ?_
    rw [spilledTensors, ← List.flatten_append, List.take_append_drop]
    exact List.Perm.refl _
  rw [List.append_assoc]
  exact ((sortByScore_perm _).append hlayers).trans (layers_perm hnames)

theorem greedyAssign_fits (hnames : DistinctNames tensors) :
    Fits (greedyAssign tensors caps hw metadata) caps tensors := by
  have hperm := greedy_perm caps hw metadata hnames
  have hdist := hnames.of_perm hperm.symm
  have hfirst := budget_assignAll (Q := Prod.fst) (p := (· = .gpu)) gpuRamNvme_budget_gpu
    hdist.left.left ((caps.gpuBytes, caps.unifiedLimit), ∅)
  have hfirst' := budget_assignAll (Q := Prod.snd) (p := (· ≠ .nvme)) gpuRamNvme_budget_unified
    hdist.left.left ((caps.gpuBytes, caps.unifiedLimit), ∅)
  have hsecond := budget_assignAll (Q := id) (p := (· = .gpu)) gpuThenRam_budget
    hdist.left.right ((placeNonLayer tensors caps).1.1, (placeNonLayer tensors caps).2)
  have hresident : sumBytes (residentTensors tensors caps hw metadata) ≤
      (placeNonLayer tensors caps).1.2 := by
    rw [sumBytes_perm (residentTensors_perm caps hw metadata)]
    exact bestCutoff_fits caps hw metadata _ _
  rw [greedyAssign_eq]
  refine Fits.of_perm hperm ⟨?_, ?_, ?_⟩
  · intro t ht
    by_cases hspill : t.name ∈ (spilledTensors tensors caps hw metadata).map name
    · obtain ⟨u, hu, hname⟩ := List.mem_map.mp hspill
      rw [← hname, allTo_tier hu]
      rfl
    · rw [lookup_assignAll_of_notMem hspill]
      have ht := (List.mem_append.mp ht).resolve_right fun h => hspill (List.mem_map_of_mem h)
      by_cases hres : t.name ∈ (residentTensors tensors caps hw metadata).map name
      · obtain ⟨u, hu, hname⟩ := List.mem_map.mp hres
        obtain ⟨tier, h, -⟩ := tier_assignAll (P := fun _ => True) (f := gpuThenRam)
          (fun _ _ => trivial) ((placeNonLayer tensors caps).1.1, (placeNonLayer tensors caps).2) hu
        rw [← hname, h]
        rfl
      · have ht := (List.mem_append.mp ht).resolve_right fun h => hres (List.mem_map_of_mem h)
        obtain ⟨tier, h, -⟩ := tier_assignAll (P := fun _ => True) (f := gpuRamNvme)
          (fun _ _ => trivial) ((caps.gpuBytes, caps.unifiedLimit), ∅) ht
        rw [lookup_assignAll_of_notMem hres]
        exact h ▸ rfl
  · rw [bytesWhere_allTo_nvme (by decide) hdist, List.map_append, bytesWhere_append,
      bytesWhere_assignAll hdist.left.notMem_right]
    simp only [placeNonLayer, id] at hfirst hsecond ⊢
    omega
  · rw [bytesWhere_allTo_nvme (by decide) hdist, List.map_append, bytesWhere_append,
      bytesWhere_assignAll hdist.left.notMem_right]
    have hle := bytesWhere_le_sum (p := (· ≠ .nvme)) (l := (residentTensors tensors caps hw metadata).map entry)
      (m := (assignAll gpuThenRam ((placeNonLayer tensors caps).1.1, (placeNonLayer tensors caps).2)
        (residentTensors tensors caps hw metadata)).2)
    rw [sumBytes_eq] at hle
    simp only [placeNonLayer] at hfirst' hresident hle ⊢
    omega

/-- A list of layers in ascending order: what comes after a spilled layer is spilled. -/
theorem mem_drop_of_le {ls : List Nat} (h : ls.Pairwise (· < ·)) {n l l' : Nat}
    (hl : l ∈ ls.drop n) (hl' : l' ∈ ls) (hle : l ≤ l') : l' ∈ ls.drop n := by
  rw [← List.take_append_drop n ls] at h hl'
  rcases List.mem_append.mp hl' with htake | hdrop
  · have hlt := (List.pairwise_append.mp h).2.2 l' htake l hl
    omega
  · exact hdrop

theorem mem_spilledTensors {t : ScoredTensor F} :
    t ∈ spilledTensors tensors caps hw metadata ↔
      ∃ l ∈ (layerIndices tensors).drop (greedyCutoff tensors caps hw metadata),
        t ∈ tensors ∧ t.layerIndex = some l := by
  rw [spilledTensors, layerList, ← List.map_drop, List.mem_flatten]
  constructor
  · rintro ⟨ts, hts, ht⟩
    obtain ⟨l, hl, rfl⟩ := List.mem_map.mp hts
    exact ⟨l, hl, mem_layerTensors.mp ht⟩
  · rintro ⟨l, hl, ht⟩
    exact ⟨_, List.mem_map_of_mem hl, mem_layerTensors.mpr ht⟩

theorem greedyAssign_suffix (hnames : DistinctNames tensors) :
    NvmeSuffix (greedyAssign tensors caps hw metadata) tensors := by
  intro t ht t' ht' l l' hl hl' hle hnvme
  have hperm := greedy_perm caps hw metadata hnames
  have hdist := hnames.of_perm hperm.symm
  rw [greedyAssign_eq] at hnvme ⊢
  have hspilled : t ∈ spilledTensors tensors caps hw metadata := by
    rcases List.mem_append.mp (hperm.mem_iff.mpr ht) with hother | hspill
    · rw [lookup_assignAll_of_notMem (hdist.notMem_of_mem_left hother)] at hnvme
      rcases List.mem_append.mp hother with hnone | hres
      · have hnone := (List.mem_filter.mp ((sortByScore_perm _).mem_iff.mp hnone)).2
        simp [hl] at hnone
      · obtain ⟨tier, h, hne⟩ := tier_assignAll (P := (· ≠ .nvme)) (f := gpuThenRam) gpuThenRam_tier
          ((placeNonLayer tensors caps).1.1, (placeNonLayer tensors caps).2) hres
        rw [h] at hnvme
        exact absurd (Option.some.inj hnvme) hne
    · exact hspill
  obtain ⟨k, hk, -, htk⟩ := (mem_spilledTensors caps hw metadata).mp hspilled
  rw [hl] at htk
  obtain rfl := Option.some.inj htk
  have hk' := mem_drop_of_le (layerIndices_pairwise tensors) hk
    (mem_layerIndices.mpr ⟨t', ht', hl'⟩) hle
  exact allTo_tier ((mem_spilledTensors caps hw metadata).mpr ⟨l', hk', ht', hl'⟩)

end Greedy

/-! ### The MIP -/

/-- The byte counts of a model and of the capacities are represented exactly, so that
the capacity constraints of the MIP speak of the bytes themselves. -/
structure ExactBytes (F : Type) [F64 F] (tensors : List TensorInfo) (caps : TierCapacities) : Prop where
  size : ∀ t ∈ tensors, F64.toRat (t.sizeBytes : F) = t.sizeBytes
  gpu : F64.toRat (caps.gpuBytes : F) = caps.gpuBytes
  unified : F64.toRat (caps.unifiedLimit : F) = caps.unifiedLimit

section Mip
variable [F64 F] {tensors : List (ScoredTensor F)} {caps : TierCapacities} {hw : HardwareProfile}
  {metadata : ModelMetadata} {σ : MipVar → F}

theorem extractAssignments_fits (hnames : DistinctNames tensors)
    (hsize : ∀ t ∈ tensors, F64.toRat (t.sizeBytes : F) = t.sizeBytes)
    (hgpu : F64.toRat (caps.gpuBytes : F) = caps.gpuBytes)
    (hunified : F64.toRat (caps.unifiedLimit : F) = caps.unifiedLimit)
    (h : MipFeasible tensors caps hw metadata σ) :
    Fits (extractAssignments tensors σ) caps tensors := by
  have hexact : ∀ y ∈ tensors.zipIdx, F64.toRat (y.1.sizeBytes : F) = y.1.sizeBytes :=
    fun y hy => hsize _ (mem_of_mem_zipIdx hy)
  refine ⟨?_, ?_, ?_⟩
  · intro t ht
    obtain ⟨i, hi⟩ := exists_zipIdx ht
    rw [lookup_extractAssignments hnames hi]
    rfl
  · have hbytes := bytesWhere_extract (σ := σ) hnames (p := (· = .gpu))
      (x := fun i => F64.toRat (σ (.xGpu i)))
      (fun i hi => by simpa using h.gpu_indicator hi)
    have hle := h.gpu
    rw [hgpu, List.map_congr_left fun y hy => by rw [hexact y hy], ← hbytes] at hle
    exact_mod_cast hle
  · have hbytes := bytesWhere_extract (σ := σ) hnames (p := (· ≠ .nvme))
      (x := fun i => F64.toRat (σ (.xGpu i)) + F64.toRat (σ (.xRam i)))
      (fun i hi => by
        rw [← h.gpu_indicator hi, ← h.ram_indicator hi]
        cases solutionTier σ i <;> simp)
    have hle := h.unified
    rw [hunified, List.map_congr_left fun y hy => by rw [hexact y hy], ← hbytes] at hle
    exact_mod_cast hle

theorem extractAssignments_suffix (hnames : DistinctNames tensors)
    (h : MipFeasible tensors caps hw metadata σ) :
    NvmeSuffix (extractAssignments tensors σ) tensors := by
  intro t ht t' ht' l l' hl hl' hle hnvme
  obtain ⟨i, hi⟩ := exists_zipIdx ht
  obtain ⟨i', hi'⟩ := exists_zipIdx ht'
  obtain ⟨j, hj⟩ := exists_idxOf? ht hl
  obtain ⟨j', hj'⟩ := exists_idxOf? ht' hl'
  rw [lookup_extractAssignments hnames hi, Option.some.injEq, h.nvme_iff_layer hi hl hj] at hnvme
  rw [lookup_extractAssignments hnames hi', Option.some.injEq, h.nvme_iff_layer hi' hl' hj']
  have hpos := getElem?_of_idxOf? hj
  have hpos' := getElem?_of_idxOf? hj'
  obtain ⟨hlt', -⟩ := List.getElem?_eq_some_iff.mp hpos'
  have hmono := h.layerNvme_mono (idx_le_of_le hpos hpos' hle) hlt'
  rcases h.layerBinary j' hlt' with h0 | h1
  · rw [hnvme, h0] at hmono
    norm_num at hmono
  · exact h1

end Mip

/-! ### The capacities -/

theorem unifiedLimit_eq (hw : HardwareProfile) (metadata : ModelMetadata) (contextLength : Nat) :
    (computeTierCapacities hw metadata contextLength).unifiedLimit =
      hw.memory.totalBytes - osOverhead - estimateKvBytes metadata contextLength := rfl

theorem gpuBytes_eq (hw : HardwareProfile) (metadata : ModelMetadata) (contextLength : Nat) :
    (computeTierCapacities hw metadata contextLength).gpuBytes =
      min (hw.gpu.elim 0 GpuProfile.vramBytes) (hw.memory.totalBytes - osOverhead) -
        estimateKvBytes metadata contextLength - gpuRuntimeOverhead := rfl

/-! ### The KV cache -/

theorem estimateKvBytes_eq_mul (metadata : ModelMetadata) (contextLength : Nat) :
    estimateKvBytes metadata contextLength = estimateKvBytes metadata 1 * contextLength := by
  unfold estimateKvBytes
  split
  · exact (Nat.zero_mul _).symm
  · rw [Nat.mul_one]

/-- The hot KV window is never more than the F16 cache of the whole context. -/
theorem hotBytes_le (metadata : ModelMetadata) (contextLength : Nat) (caps : TierCapacities) :
    (computeKvCachePlan metadata contextLength caps).hotBytes ≤
      estimateKvBytes metadata contextLength := by
  rw [estimateKvBytes_eq_mul, computeKvCachePlan]
  by_cases hzero : estimateKvBytes metadata 1 = 0
  · rw [if_pos hzero]
    exact Nat.zero_le _
  · rw [if_neg hzero]
    refine (Nat.mul_le_mul (min_le_right _ _) ?_).trans (le_of_eq (Nat.mul_comm _ _))
    split
    · exact Nat.div_le_self _ _
    · exact le_rfl

/-! ### The plan -/

section Plan
variable [F64 F]

/-- What it means that a plan, made for `contextLength` tokens, fits the machine. -/
structure PlanFits (model : GgufFile) (hw : HardwareProfile) (contextLength : Nat)
    (plan : PlacementPlan F) : Prop where
  /-- Every tensor has exactly one tier. -/
  oneTier : ∀ t ∈ model.tensors, ∃! tier, plan.tierAssignments.lookup t.name = some tier
  gpu : plan.tierAssignments.bytesOn .gpu (model.tensors.map fun t => (t.name, t.sizeBytes)) ≤
    (computeTierCapacities hw (.fromGguf model) contextLength).gpuBytes
  unified : plan.tierAssignments.bytesOn .gpu (model.tensors.map fun t => (t.name, t.sizeBytes)) +
      plan.tierAssignments.bytesOn .ram (model.tensors.map fun t => (t.name, t.sizeBytes)) ≤
    (computeTierCapacities hw (.fromGguf model) contextLength).unifiedLimit
  /-- If a non-empty tensor is resident, then resident tensors, the F16 KV cache and the
  OS reserve fit in physical memory. -/
  physical : (∃ t ∈ model.tensors, 0 < t.sizeBytes ∧
      (plan.tierAssignments.lookup t.name = some .gpu ∨
        plan.tierAssignments.lookup t.name = some .ram)) →
    plan.tierAssignments.bytesOn .gpu (model.tensors.map fun t => (t.name, t.sizeBytes)) +
        plan.tierAssignments.bytesOn .ram (model.tensors.map fun t => (t.name, t.sizeBytes)) +
        estimateKvBytes (.fromGguf model) contextLength + osOverhead ≤ hw.memory.totalBytes
  /-- If a non-empty tensor is on the GPU, then the GPU tensors, the hot KV window and
  the runtime reserve fit in the GPU working set. -/
  workingSet : (∃ t ∈ model.tensors, 0 < t.sizeBytes ∧
      plan.tierAssignments.lookup t.name = some .gpu) →
    plan.tierAssignments.bytesOn .gpu (model.tensors.map fun t => (t.name, t.sizeBytes)) +
      plan.kvCachePlan.hotBytes + gpuRuntimeOverhead ≤ hw.gpu.elim 0 GpuProfile.vramBytes
  /-- The MIP and greedy placements put whole layers on NVMe, and the last ones. -/
  suffix : plan.inferenceMode = .fullResident ∨ plan.inferenceMode = .fullStreaming →
    ∀ t ∈ model.tensors, ∀ t' ∈ model.tensors, ∀ l l', t.layerIndex = some l →
      t'.layerIndex = some l' → l ≤ l' → plan.tierAssignments.lookup t.name = some .nvme →
        plan.tierAssignments.lookup t'.name = some .nvme

theorem scoreTensors_entries (tensors : List TensorInfo) (metadata : ModelMetadata) :
    (scoreTensors (F := F) tensors metadata).map entry =
      tensors.map fun t => (t.name, t.sizeBytes) := by
  rw [scoreTensors, List.map_map]
  rfl

theorem exists_scored {tensors : List TensorInfo} {m : ModelMetadata} {t : TensorInfo}
    (ht : t ∈ tensors) : ∃ s ∈ scoreTensors (F := F) tensors m,
      s.name = t.name ∧ s.sizeBytes = t.sizeBytes ∧ s.layerIndex = t.layerIndex :=
  ⟨_, List.mem_map_of_mem ht, rfl, rfl, rfl⟩

/-- Whatever placement is chosen, short of sparse mmap, it fits. -/
theorem chooseAssignments_fits {solve : Program MipVar F → Option (MipVar → F)}
    {scored : List (ScoredTensor F)} {caps : TierCapacities} {hw : HardwareProfile}
    {metadata : ModelMetadata} (hnames : DistinctNames scored)
    (hsize : ∀ t ∈ scored, F64.toRat (t.sizeBytes : F) = t.sizeBytes)
    (hgpu : F64.toRat (caps.gpuBytes : F) = caps.gpuBytes)
    (hunified : F64.toRat (caps.unifiedLimit : F) = caps.unifiedLimit)
    (hsolve : ∀ p σ, solve p = some σ → p.Satisfies F64.toRat σ)
    (hmode : (chooseAssignments solve scored caps hw metadata).2 ≠ .sparseMoeMmap) :
    Fits (chooseAssignments solve scored caps hw metadata).1 caps scored ∧
      ((chooseAssignments solve scored caps hw metadata).2 = .fullResident ∨
        (chooseAssignments solve scored caps hw metadata).2 = .fullStreaming →
          NvmeSuffix (chooseAssignments solve scored caps hw metadata).1 scored) := by
  unfold chooseAssignments at hmode ⊢
  split
  · next h => rw [h] at hmode; exact absurd rfl hmode
  · split
    · next h =>
        refine ⟨tryExpertStreamingAssign_fits hnames h, fun hm => ?_⟩
        rcases hm with hm | hm <;> cases hm
    · split
      · next h =>
          refine ⟨tryDenseFfnStreamingAssign_fits hnames h, fun hm => ?_⟩
          rcases hm with hm | hm <;> cases hm
      · cases hlp : lpAssign scored caps hw metadata solve with
        | none =>
            exact ⟨greedyAssign_fits caps hw metadata hnames,
              fun _ => greedyAssign_suffix caps hw metadata hnames⟩
        | some m =>
            unfold lpAssign at hlp
            split at hlp
            · next hempty =>
                cases hlp
                rw [List.isEmpty_iff.mp hempty]
                exact ⟨⟨by simp, Nat.zero_le _, Nat.zero_le _⟩, fun _ => by simp [NvmeSuffix]⟩
            · obtain ⟨σ, hσ, rfl⟩ := Option.map_eq_some_iff.mp hlp
              have hfeasible := mipProgram_satisfies_iff.mp (hsolve _ _ hσ)
              exact ⟨extractAssignments_fits hnames hsize hgpu hunified hfeasible,
                fun _ => extractAssignments_suffix hnames hfeasible⟩

/-- **Every placement plan fits the machine.** Sparse mmap apart, whichever placement is
chosen and however the scores and costs round: every tensor has one tier, the capacities
are kept, and resident tensors, KV cache and reserves fit in memory and in the GPU
working set. The solver only has to return points that satisfy its constraints. -/
theorem computePlacement_fits (solve : Program MipVar F → Option (MipVar → F))
    (model : GgufFile) (hw : HardwareProfile) (contextLength : Nat)
    (hnames : (model.tensors.map TensorInfo.name).Nodup)
    (hexact : ExactBytes F model.tensors (computeTierCapacities hw (.fromGguf model)
      (planContext (.fromGguf model) contextLength)))
    (hsolve : ∀ p σ, solve p = some σ → p.Satisfies F64.toRat σ)
    (hmode : (computePlacementWithContext solve model hw contextLength).inferenceMode ≠
      .sparseMoeMmap) :
    PlanFits model hw (planContext (.fromGguf model) contextLength)
      (computePlacementWithContext solve model hw contextLength) := by
  have hdist : DistinctNames (scoreTensors (F := F) model.tensors (.fromGguf model)) := by
    rw [DistinctNames, scoreTensors, List.map_map]
    exact hnames
  have hsize : ∀ t ∈ scoreTensors (F := F) model.tensors (.fromGguf model),
      F64.toRat (t.sizeBytes : F) = t.sizeBytes := by
    intro t ht
    obtain ⟨u, hu, rfl⟩ := List.mem_map.mp ht
    exact hexact.size u hu
  obtain ⟨hfits, hsuffix⟩ := chooseAssignments_fits hdist hsize hexact.gpu hexact.unified hsolve hmode
  have hgpu : (computePlacementWithContext solve model hw contextLength).tierAssignments.bytesOn .gpu
      (model.tensors.map fun t => (t.name, t.sizeBytes)) ≤ _ :=
    scoreTensors_entries (F := F) model.tensors (.fromGguf model) ▸ hfits.gpu
  have hunified :
      (computePlacementWithContext solve model hw contextLength).tierAssignments.bytesOn .gpu
        (model.tensors.map fun t => (t.name, t.sizeBytes)) +
      (computePlacementWithContext solve model hw contextLength).tierAssignments.bytesOn .ram
        (model.tensors.map fun t => (t.name, t.sizeBytes)) ≤ _ :=
    bytesWhere_resident.symm.trans_le
      (scoreTensors_entries (F := F) model.tensors (.fromGguf model) ▸ hfits.unified)
  refine ⟨?_, hgpu, hunified, ?_, ?_, ?_⟩
  · intro t ht
    obtain ⟨s, hs, hname, -⟩ := exists_scored (F := F) (m := .fromGguf model) ht
    obtain ⟨tier, htier⟩ := Option.isSome_iff_exists.mp (hname ▸ hfits.oneTier s hs)
    exact ⟨tier, htier, fun tier' h => Option.some.inj (h.symm.trans htier)⟩
  · rintro ⟨t, ht, hpos, htier⟩
    have hmem : (t.name, t.sizeBytes) ∈ model.tensors.map fun t => (t.name, t.sizeBytes) :=
      List.mem_map_of_mem ht
    have hresident := le_bytesWhere (p := (· ≠ .nvme)) (m := (computePlacementWithContext solve model
      hw contextLength).tierAssignments) hmem (by rcases htier with h | h <;> rw [h] <;> rfl)
    rw [bytesWhere_resident] at hresident
    rw [unifiedLimit_eq] at hunified
    omega
  · rintro ⟨t, ht, hpos, htier⟩
    have hmem : (t.name, t.sizeBytes) ∈ model.tensors.map fun t => (t.name, t.sizeBytes) :=
      List.mem_map_of_mem ht
    have hresident : t.sizeBytes ≤
        (computePlacementWithContext solve model hw contextLength).tierAssignments.bytesOn .gpu
          (model.tensors.map fun t => (t.name, t.sizeBytes)) :=
      le_bytesWhere hmem (by rw [htier]; rfl)
    have hhot : (computePlacementWithContext solve model hw contextLength).kvCachePlan.hotBytes ≤ _ :=
      hotBytes_le (.fromGguf model) (planContext (.fromGguf model) contextLength)
        (computeTierCapacities hw (.fromGguf model) (planContext (.fromGguf model) contextLength))
    rw [gpuBytes_eq] at hgpu
    omega
  · intro hm t ht t' ht' l l' hl hl' hle hnvme
    obtain ⟨s, hs, hname, -, hlayer⟩ := exists_scored (F := F) (m := .fromGguf model) ht
    obtain ⟨s', hs', hname', -, hlayer'⟩ := exists_scored (F := F) (m := .fromGguf model) ht'
    rw [← hname']
    exact hsuffix hm s hs s' hs' l l' (hlayer.trans hl) (hlayer'.trans hl') hle (hname ▸ hnvme)

/-- Sparse mmap is for MoE models. -/
theorem inferenceMode_ne_sparse {model : GgufFile} (h : (ModelMetadata.fromGguf model).isMoe = false)
    (solve : Program MipVar F → Option (MipVar → F)) (hw : HardwareProfile) (contextLength : Nat) :
    (computePlacementWithContext solve model hw contextLength).inferenceMode ≠ .sparseMoeMmap := by
  have hnone : ∀ (scored : List (ScoredTensor F)) caps,
      trySparseMoeMmap scored caps (.fromGguf model) = none := by
    intro scored caps
    simp [trySparseMoeMmap, h]
  simp only [computePlacementWithContext, chooseAssignments, hnone]
  split
  · simp
  · split
    · simp
    · simp only [ne_eq]
      split <;> simp

end Plan

/-! ### A model that does not fit -/

/-- 1 GiB outside layers, and two layers of 8 GiB. -/
def smallModel : GgufFile where
  version := 3
  metadata := fun key =>
    if key = "general.architecture" then some (.string "llama")
    else if key = "llama.context_length" then some (.uint32 8192)
    else if key = "llama.block_count" then some (.uint32 2)
    else if key = "llama.embedding_length" then some (.uint32 4096)
    else if key = "llama.attention.head_count" then some (.uint32 32)
    else none
  tensors :=
    [⟨"output.weight", [2 ^ 28], .f32, 0, 2 ^ 30, none⟩,
      ⟨"blk.0.attn_q.weight", [2 ^ 31], .f32, 2 ^ 30, 2 ^ 33, some 0⟩,
      ⟨"blk.1.attn_q.weight", [2 ^ 31], .f32, 9 * 2 ^ 30, 2 ^ 33, some 1⟩]
  dataOffset := 320

/-- A machine with 16 GiB of memory and a 12 GiB working set. -/
def smallMachine : HardwareProfile where
  memory := { totalBytes := 16 * 2 ^ 30, bandwidthBytesPerSec := 100 * 2 ^ 30 }
  gpu := some { vramBytes := 12 * 2 ^ 30, bandwidthBytesPerSec := 200 * 2 ^ 30 }
  storage := [{ peakSequential := 5 * 2 ^ 30 }]

/-- The second layer on NVMe, the rest on the GPU. -/
def secondOnNvme : MipVar → ℚ
  | .xGpu i => if i < 2 then 1 else 0
  | .xRam _ => 0
  | .xNvme i => if i = 2 then 1 else 0
  | .layerNvme j => if j = 1 then 1 else 0
  | .layerCost _ => 10

/-- A solver for programs that this point satisfies. -/
def splitSolver (p : Program MipVar ℚ) : Option (MipVar → ℚ) :=
  if p.Satisfies F64.toRat secondOnNvme then some secondOnNvme else none

theorem splitSolver_satisfies {p : Program MipVar ℚ} {σ : MipVar → ℚ}
    (h : splitSolver p = some σ) : p.Satisfies F64.toRat σ := by
  rw [splitSolver] at h
  split at h
  · next hs => cases h; exact hs
  · cases h

abbrev smallScored : List (ScoredTensor ℚ) :=
  scoreTensors smallModel.tensors (.fromGguf smallModel)

abbrev smallCaps : TierCapacities := computeTierCapacities smallMachine (.fromGguf smallModel) 4096

theorem smallModel_layers : layerIndices smallScored = [0, 1] :=
  List.mergeSort_of_pairwise (by decide +kernel)

theorem secondOnNvme_satisfies :
    (mipProgram smallScored smallCaps smallMachine (.fromGguf smallModel)).Satisfies F64.toRat
      secondOnNvme := by
  unfold mipProgram layerCostConstraints overlapConstraints contiguityConstraints linkConstraints
    mipObjective
  rw [smallModel_layers]
  decide +kernel

theorem smallModel_tiers :
    (computePlacementWithContext splitSolver smallModel smallMachine 4096).tierAssignments =
      extractAssignments smallScored secondOnNvme := by
  have hsolved : lpAssign smallScored smallCaps smallMachine (.fromGguf smallModel) splitSolver =
      some (extractAssignments smallScored secondOnNvme) := by
    rw [lpAssign, splitSolver, if_pos secondOnNvme_satisfies]
    rfl
  have hsparse : trySparseMoeMmap smallScored smallCaps (.fromGguf smallModel) = none := by
    decide +kernel
  have hexpert : tryExpertStreamingAssign smallScored smallCaps (.fromGguf smallModel) = none := by
    decide +kernel
  have hdense : tryDenseFfnStreamingAssign smallScored smallCaps (.fromGguf smallModel) = none := by
    decide +kernel
  have hcontext : planContext (.fromGguf smallModel) 4096 = 4096 := by decide
  simp only [computePlacementWithContext, hcontext, chooseAssignments, hsparse, hexpert, hdense,
    hsolved, Option.getD_some]

/-- The plan leaves 128 MiB for the KV cache, and the second layer on NVMe. -/
theorem smallModel_fits :
    (estimateKvBytes (.fromGguf smallModel) (planContext (.fromGguf smallModel) 4096) = 2 ^ 27 ∧
      smallModel.tensors.map (fun t => (computePlacementWithContext splitSolver smallModel
        smallMachine 4096).tierAssignments.lookup t.name) = [some .gpu, some .gpu, some .nvme]) ∧
      PlanFits smallModel smallMachine (planContext (.fromGguf smallModel) 4096)
        (computePlacementWithContext splitSolver smallModel smallMachine 4096) := by
  refine ⟨⟨by decide +kernel, ?_⟩, computePlacement_fits splitSolver smallModel smallMachine 4096
    (by simp [smallModel]) ⟨fun _ _ => rfl, rfl, rfl⟩ (fun _ _ => splitSolver_satisfies)
    (inferenceMode_ne_sparse rfl _ _ _)⟩
  rw [smallModel_tiers]
  decide +kernel

end Hypura
