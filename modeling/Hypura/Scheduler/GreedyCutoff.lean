import Hypura.Core.FirstLeast
import Hypura.Core.Overlap
import Hypura.Scheduler.EstimatorAgrees

/-!
# Hypura.Scheduler.GreedyCutoff

The cutoff of the greedy placement, ranked by its own scan and by `quick_estimate`, in
exact arithmetic.

Both rankings are the time of one pipeline whose first `cutoff` layers compute and whose
other layers load (`Core.Overlap`). They differ in what a resident layer costs:

* the scan charges every resident tensor at RAM bandwidth and the sync overhead to the
  NVMe layers only (`scanRank`, `cutoffCost_eq`);
* the estimate charges a tensor at the bandwidth of the tier that the fill gives it and
  the sync overhead to every layer (`planRank`, `estimateLatency_cutoffAssign`).

`greedyMinimises_iff_ranks_agree`: the placement has the least estimated latency exactly
when a cutoff is both the first of the scan's ranking and a least of the estimate's.
-/

namespace Hypura

open Hypura.Core Hypura.Rust Assignments ScoredTensor

/-! ### The placement of one cutoff -/

/-- A tensor of the given name lies in a layer from the cutoff on. -/
def spilled {F : Type} (scored : List (ScoredTensor F)) (cutoff : Nat) (name : String) : Bool :=
  scored.any fun u => decide (u.name = name) && u.layerIndex.any (cutoff ≤ ·)

theorem mem_drop_layerList {F : Type} {scored : List (ScoredTensor F)} {n : Nat}
    (hlayers : layerIndices scored = List.range n) {cutoff : Nat} {name : String} :
    name ∈ ((layerList scored).drop cutoff).flatten.map ScoredTensor.name ↔
      spilled scored cutoff name = true := by
  rw [layerList, ← List.map_drop, hlayers, List.range_eq_range', List.drop_range', spilled,
    List.any_eq_true]
  constructor
  · intro h
    obtain ⟨t, ht, rfl⟩ := List.mem_map.mp h
    obtain ⟨ts, hts, ht⟩ := List.mem_flatten.mp ht
    obtain ⟨l, hl, rfl⟩ := List.mem_map.mp hts
    obtain ⟨hmem, hlayer⟩ := mem_layerTensors.mp ht
    have hle := (List.mem_range'_1.mp hl).1
    exact ⟨t, hmem, by simp [hlayer]; omega⟩
  · rintro ⟨t, ht, h⟩
    obtain ⟨hname, l, hl, hle⟩ : t.name = name ∧ ∃ l, t.layerIndex = some l ∧ cutoff ≤ l := by
      simpa [Option.any_eq_true] using h
    have hlt : l ∈ List.range n := hlayers ▸ mem_layerIndices.mpr ⟨t, ht, hl⟩
    have hlt := List.mem_range.mp hlt
    refine List.mem_map.mpr ⟨t, List.mem_flatten.mpr ⟨_, List.mem_map_of_mem ?_,
      mem_layerTensors.mpr ⟨ht, hl⟩⟩, hname⟩
    exact List.mem_range'_1.mpr (by omega)

/-- Fewer layers have fewer bytes. -/
theorem sumBytes_take_le {F : Type} {layers : List (List (ScoredTensor F))} {c c' : Nat}
    (hle : c' ≤ c) : sumBytes (layers.take c').flatten ≤ sumBytes (layers.take c).flatten := by
  have hsub : (layers.take c').flatten.Sublist (layers.take c).flatten :=
    (List.take_sublist_take_left hle).flatten
  exact (hsub.map sizeBytes).sum_le_sum fun _ _ => Nat.zero_le _

section Cutoff
variable {F : Type} [F64 F] (scored : List (ScoredTensor F)) (caps : TierCapacities)

/-- The assignment the greedy placement makes of one cutoff. -/
def cutoffAssign (cutoff : Nat) : Assignments :=
  (applyCutoff cutoff ((placeNonLayer scored caps).1.1, (placeNonLayer scored caps).2)
    (layerList scored)).2

/-- The layers before the cutoff fit the unified memory that the tensors outside layers
leave. -/
structure CutoffFits (cutoff : Nat) : Prop where
  le : cutoff ≤ (layerList scored).length
  fits : sumBytes ((layerList scored).take cutoff).flatten ≤ (placeNonLayer scored caps).1.2

/-- The assignment with every layer resident: the fill of GPU and RAM. -/
def fillAssign : Assignments := cutoffAssign scored caps (layerList scored).length

variable {scored caps}

/-- A smaller cutoff keeps fewer layers, so what fits is closed downwards. -/
theorem CutoffFits.of_le {c c' : Nat} (h : CutoffFits scored caps c) (hle : c' ≤ c) :
    CutoffFits scored caps c' :=
  ⟨hle.trans h.le, (sumBytes_take_le hle).trans h.fits⟩

/-- The fill of the resident layers does not look at the cutoff: a name that no layer from
the cutoff on has keeps the tier of the fill. -/
theorem tierOf_cutoffAssign {n : Nat} (hlayers : layerIndices scored = List.range n) (cutoff : Nat)
    (name : String) :
    (cutoffAssign scored caps cutoff).tierOf name =
      if spilled scored cutoff name then .nvme else (fillAssign scored caps).tierOf name := by
  rw [fillAssign, cutoffAssign, cutoffAssign, applyCutoff_eq, applyCutoff_eq, List.take_length,
    List.drop_length]
  split
  · next h =>
      obtain ⟨t, ht, rfl⟩ := List.mem_map.mp ((mem_drop_layerList hlayers).mpr h)
      rw [tierOf, allTo_tier ht]
      rfl
  · next h =>
      have hnot : name ∉ ((layerList scored).drop cutoff).flatten.map ScoredTensor.name :=
        fun hmem => h ((mem_drop_layerList hlayers).mp hmem)
      have hnot' : name ∉ (((layerList scored).drop cutoff).map sortByScore).flatten.map
          ScoredTensor.name := by
        rwa [((flatten_map_sortByScore_perm _).map ScoredTensor.name).mem_iff]
      conv_rhs => rw [← List.take_append_drop cutoff (layerList scored), List.map_append,
        List.flatten_append, assignAll_append]
      rw [tierOf, lookup_assignAll_of_notMem hnot, tierOf]
      change _ = (AList.lookup name (assignAll gpuThenRam _ _).2).getD .nvme
      rw [lookup_assignAll_of_notMem hnot']

/-- The fill never sends a tensor of a layer to NVMe. -/
theorem fillAssign_ne_nvme {t : ScoredTensor F} {l : Nat} (ht : t ∈ layerTensors scored l) :
    (fillAssign scored caps).tierOf t.name ≠ .nvme := by
  obtain ⟨hmem, hlayer⟩ := mem_layerTensors.mp ht
  have hl : l ∈ layerIndices scored := mem_layerIndices.mpr ⟨t, hmem, hlayer⟩
  have hflat : t ∈ ((layerList scored).map sortByScore).flatten :=
    (flatten_map_sortByScore_perm _).mem_iff.mpr
      (List.mem_flatten.mpr ⟨_, List.mem_map_of_mem hl, ht⟩)
  rw [fillAssign, cutoffAssign, applyCutoff_eq, List.take_length, List.drop_length, tierOf]
  obtain ⟨tier, h, hne⟩ := tier_assignAll (P := (· ≠ .nvme)) (f := gpuThenRam) gpuThenRam_tier
    ((placeNonLayer scored caps).1.1, (placeNonLayer scored caps).2) hflat
  change (AList.lookup t.name (assignAll gpuThenRam _ _).2).getD .nvme ≠ .nvme
  rw [h]
  exact hne

end Cutoff

/-! ### The scan -/

section Scan
variable {p : Nat → Bool} {cost : Nat → ℚ}

/-- **The scan.** From a best cutoff among those seen, with its capped cost, the scan finds
the first cutoff of least capped cost among all that fit: the early break skips none, as
what fits is closed downwards. -/
theorem searchCutoff_firstLeast (hp : ∀ c c', c' ≤ c → p c → p c') {m k i : Nat} {v bound : ℚ}
    (h : FirstLeast (fun j => p j = true ∧ j < k) (fun j => min (cost j) bound) i)
    (hv : v = min (cost i) bound) :
    FirstLeast (fun j => p j = true ∧ j < k + m) (fun j => min (cost j) bound)
      (searchCutoff p cost (List.range' k m) (i, v)) := by
  induction m generalizing k i v with
  | zero => exact h
  | succ m ih =>
      rw [List.range'_succ, searchCutoff]
      split
      · next hk =>
          have hsucc : ∀ j, j ≤ k ↔ j < k + 1 := fun j => Nat.lt_succ_iff.symm
          have hbound : v ≤ bound := hv.trans_le (min_le_right _ _)
          rw [show k + (m + 1) = k + 1 + m by omega]
          split
          · next hlt =>
              have hcost : min (cost k) bound = cost k := min_eq_left (hlt.le.trans hbound)
              refine ih ?_ hcost.symm
              simp only [← hsucc]
              exact h.replace hk (by rwa [hcost, ← hv])
          · next hlt =>
              refine ih ?_ hv
              simp only [← hsucc]
              exact h.keep (hv ▸ le_min (not_lt.mp hlt) hbound)
      · next hk =>
          -- nothing from `k` on fits
          have hlt : ∀ j, p j = true → j < k := fun j hj =>
            lt_of_not_ge fun hle => hk (hp j k hle hj)
          refine h.congr (fun j => ⟨fun hj => ⟨hj.1, by omega⟩, fun hj => ⟨hj.1, hlt j hj.1⟩⟩)
            fun _ _ => rfl

/-- The scan of the source, from cutoff 0 and `f64::MAX`. -/
theorem searchCutoff_range_firstLeast (hp : ∀ c c', c' ≤ c → p c → p c') (hzero : p 0 = true) {n : Nat}
    {bound : ℚ} :
    FirstLeast (fun j => p j = true ∧ j < n + 1) (fun j => min (cost j) bound)
      (searchCutoff p cost (List.range (n + 1)) (0, bound)) := by
  have hstart : FirstLeast (fun j => p j = true ∧ j < 1) (fun j => min (cost j) bound) 0 :=
    ⟨⟨hzero, Nat.one_pos⟩, fun j hj => by rw [Nat.lt_one_iff.mp hj.2], fun j _ hlt => by omega⟩
  have hfirst : (if cost 0 < bound then (0, cost 0) else (0, bound)) = (0, min (cost 0) bound) := by
    split
    · next h => rw [min_eq_left h.le]
    · next h => rw [min_eq_right (not_lt.mp h)]
  rw [List.range_eq_range', List.range'_succ, searchCutoff, if_pos hzero, hfirst, Nat.add_comm n]
  exact searchCutoff_firstLeast hp hstart rfl

end Scan

section Chosen
variable {scored : List (ScoredTensor ℚ)} {caps : TierCapacities} {hw : HardwareProfile}
  {metadata : ModelMetadata}

/-- The chosen cutoff is the first of least cost among those that fit, costs being capped
at `f64::MAX`, from which the scan starts. -/
theorem greedyCutoff_firstLeast :
    FirstLeast (CutoffFits scored caps)
      (fun c => min (cutoffCost (hw.memory.bandwidthBytesPerSec : ℚ) (caps.nvmePeakBw : ℚ)
        metadata.isMoe (layerList scored) c) F64.maxValue)
      (greedyCutoff scored caps hw metadata) := by
  let p := fun c => decide (sumBytes ((layerList scored).take c).flatten ≤
    (placeNonLayer scored caps).1.2)
  have hp : ∀ c c', c' ≤ c → p c → p c' := by
    intro c c' hle h
    refine decide_eq_true ((sumBytes_take_le hle).trans (of_decide_eq_true h))
  refine (searchCutoff_range_firstLeast (p := p) hp (decide_eq_true (Nat.zero_le _))).congr
    (fun c => ⟨fun h => ⟨Nat.lt_succ_iff.mp h.2, of_decide_eq_true h.1⟩,
      fun h => ⟨decide_eq_true h.fits, Nat.lt_succ_iff.mpr h.le⟩⟩) fun _ _ => rfl

end Chosen

/-! ### The two rankings -/

section Rankings
variable (scored : List (ScoredTensor ℚ)) (caps : TierCapacities) (hw : HardwareProfile)
  (metadata : ModelMetadata)

/-- The time to read a resident tensor at RAM bandwidth. -/
def ramTime (t : ScoredTensor ℚ) : ℚ := t.sizeBytes * t.accessFreq / hw.memory.bandwidthBytesPerSec

/-- The time to stream a tensor of a layer from NVMe. -/
def streamTime (nvmeBw : ℚ) (t : ScoredTensor ℚ) : ℚ :=
  t.sizeBytes * effectiveIoFreq t.role t.accessFreq metadata.isMoe / nvmeBw

/-- A layer as the scan sees it: all of it at RAM bandwidth before the cutoff, streamed
from it on. -/
def scanStage (cutoff l : Nat) : ℚ × ℚ :=
  if l < cutoff then (((layerTensors scored l).map (ramTime hw)).sum, 0)
  else (0, ((layerTensors scored l).map (streamTime metadata caps.nvmePeakBw)).sum)

/-- **What the scan ranks a cutoff by**: the pipeline at RAM bandwidth and one sync
overhead for each NVMe layer, capped at `f64::MAX`. -/
def scanRank (cutoff : Nat) : ℚ :=
  min (overlapTime 0 ((List.range metadata.numLayers).map (scanStage scored caps hw metadata cutoff)) +
    (metadata.numLayers - cutoff : Nat) * syncOverheadPerLayer) F64.maxValue

/-- A layer as the estimate sees it: a tensor that is not spilled at the bandwidth of the
tier the fill gives it, the others streamed. -/
def planStage (cutoff l : Nat) : ℚ × ℚ :=
  (((layerTensors scored l).map fun t =>
      if spilled scored cutoff t.name then 0 else computeTime hw (fillAssign scored caps) t).sum,
    ((layerTensors scored l).map fun t =>
      if spilled scored cutoff t.name then streamTime metadata (nvmeBandwidth hw) t else 0).sum)

/-- The transfers of the tensors outside layers. Their tier depends on the cutoff only if
a layer has a tensor of the same name. -/
def outsideTime (cutoff : Nat) : ℚ :=
  ((scored.filter fun t => t.layerIndex.isNone).map fun t =>
    if spilled scored cutoff t.name then (t.sizeBytes * t.accessFreq / nvmeBandwidth hw : ℚ)
    else transferTime hw (fillAssign scored caps) t).sum

/-- **What the estimate ranks a cutoff by**: the pipeline at the bandwidths of the tiers,
and the tensors outside layers. -/
def planRank (cutoff : Nat) : ℚ :=
  overlapTime 0 ((List.range metadata.numLayers).map (planStage scored caps hw metadata cutoff)) +
    outsideTime scored caps hw cutoff

end Rankings

/-! ### The scan's cost -/

section ScanCost
variable {scored : List (ScoredTensor ℚ)} {caps : TierCapacities} {hw : HardwareProfile}
  {metadata : ModelMetadata}

theorem transferCost_eq (ts : List (ScoredTensor ℚ)) :
    transferCost (hw.memory.bandwidthBytesPerSec : ℚ) ts = (ts.map (ramTime hw)).sum := by
  rw [transferCost, sumFrom_eq, show (0.0 : ℚ) = 0 by norm_num, zero_add]
  rfl

theorem layerIoCost_eq (nvmeBw : ℚ) (ts : List (ScoredTensor ℚ)) :
    layerIoCost nvmeBw metadata.isMoe ts = (ts.map (streamTime metadata nvmeBw)).sum := by
  rw [layerIoCost, sumFrom_eq, show (0.0 : ℚ) = 0 by norm_num, zero_add]
  rfl

theorem sum_ramTime_nonneg (h : ∀ t ∈ scored, 0 ≤ t.accessFreq) (l : Nat) :
    0 ≤ ((layerTensors scored l).map (ramTime hw)).sum := by
  refine List.sum_nonneg fun x hx => ?_
  obtain ⟨t, ht, rfl⟩ := List.mem_map.mp hx
  exact div_nonneg (mul_nonneg (Nat.cast_nonneg _) (h t (mem_layerTensors.mp ht).1)) (Nat.cast_nonneg _)

/-- The fold over the NVMe layers is a pipeline that computes nothing. -/
theorem nvmeLayersCost_eq (nvmeBw acc prev : ℚ) (layers : List (List (ScoredTensor ℚ))) :
    nvmeLayersCost nvmeBw metadata.isMoe acc prev layers =
      acc + overlapTime prev (layers.map fun ts => (0, (ts.map (streamTime metadata nvmeBw)).sum)) +
        layers.length * syncOverheadPerLayer := by
  induction layers generalizing acc prev with
  | nil => simp [nvmeLayersCost]
  | cons ts layers ih =>
      rw [nvmeLayersCost, ih, List.map_cons, overlapTime_cons, layerIoCost_eq, List.length_cons,
        max_eq_right (le_max_right _ _)]
      norm_num
      ring

variable {n : Nat}

/-- The layers, split at a cutoff. -/
theorem layerList_split (hlayers : layerIndices scored = List.range n) {c : Nat} (hc : c ≤ n) :
    (layerList scored).take c = (List.range c).map (layerTensors scored) ∧
      (layerList scored).drop c = (List.range' c (n - c)).map (layerTensors scored) := by
  rw [layerList, hlayers, ← List.map_take, ← List.map_drop, List.take_range, Nat.min_eq_left hc,
    List.range_eq_range' (n := n), List.drop_range']
  simp

theorem scanStages_split (hlayers : layerIndices scored = List.range n) {c : Nat} (hc : c ≤ n) :
    (List.range n).map (scanStage scored caps hw metadata c) =
      ((List.range c).map fun l => ((layerTensors scored l).map (ramTime hw)).sum).map (fun x => (x, 0)) ++
        ((layerList scored).drop c).map fun ts =>
          (0, (ts.map (streamTime metadata caps.nvmePeakBw)).sum) := by
  have hsplit : List.range n = List.range c ++ List.range' c (n - c) := by
    simpa only [List.range_eq_range', Nat.zero_add, Nat.add_sub_of_le hc] using
      (List.range'_append_1 (s := 0) (m := c) (n := n - c)).symm
  rw [(layerList_split hlayers hc).2, hsplit, List.map_append, List.map_map, List.map_map]
  congr 1
  · refine List.map_congr_left fun l hl => ?_
    rw [scanStage, if_pos (List.mem_range.mp hl)]
    rfl
  · refine List.map_congr_left fun l hl => ?_
    rw [scanStage, if_neg (by have := (List.mem_range'_1.mp hl).1; omega)]
    rfl

/-- **The scan's cost is the time of a pipeline** at RAM bandwidth, plus one sync overhead
for each NVMe layer. -/
theorem cutoffCost_eq (hlayers : layerIndices scored = List.range n)
    (hfreq : ∀ t ∈ scored, 0 ≤ t.accessFreq) {c : Nat} (hc : c ≤ n) :
    cutoffCost (hw.memory.bandwidthBytesPerSec : ℚ) (caps.nvmePeakBw : ℚ) metadata.isMoe
        (layerList scored) c =
      overlapTime 0 ((List.range n).map (scanStage scored caps hw metadata c)) +
        (n - c : Nat) * syncOverheadPerLayer := by
  have hresident : transferCost (hw.memory.bandwidthBytesPerSec : ℚ)
      ((layerList scored).take c).flatten =
        ((List.range c).map fun l => ((layerTensors scored l).map (ramTime hw)).sum).sum := by
    rw [transferCost_eq, (layerList_split hlayers hc).1, List.map_flatten, List.sum_flatten,
      List.map_map, List.map_map]
    rfl
  have hnonneg : ∀ x ∈ (List.range c).map fun l => ((layerTensors scored l).map (ramTime hw)).sum,
      (0 : ℚ) ≤ x := by
    intro x hx
    obtain ⟨l, -, rfl⟩ := List.mem_map.mp hx
    exact sum_ramTime_nonneg hfreq l
  have hprev : (if 0 < c then transferCost (hw.memory.bandwidthBytesPerSec : ℚ)
        ((layerList scored).getD (c - 1) []) else 0.0) =
      lastCompute 0 (((List.range c).map fun l =>
        ((layerTensors scored l).map (ramTime hw)).sum).map fun x => (x, 0)) := by
    cases c with
    | zero => norm_num [lastCompute]
    | succ k =>
        have hk : (layerList scored).getD k [] = layerTensors scored k := by
          rw [layerList, hlayers, List.getD_eq_getElem?_getD, List.getElem?_map,
            List.getElem?_range (by omega)]
          rfl
        rw [if_pos (Nat.succ_pos k), Nat.add_sub_cancel, hk, transferCost_eq, List.range_succ,
          List.map_append, List.map_append, lastCompute_append]
        rfl
  have hlength : ((layerList scored).drop c).length = n - c := by
    rw [(layerList_split hlayers hc).2, List.length_map, List.length_range']
  rw [cutoffCost, hresident, hprev, nvmeLayersCost_eq, scanStages_split hlayers hc,
    overlapTime_append, overlapTime_compute le_rfl hnonneg, hlength]
  norm_num
  ring

end ScanCost

/-! ### The estimate of one cutoff -/

section Plan
variable {hw : HardwareProfile} {metadata : ModelMetadata} {a : Assignments}
  {scored : List (ScoredTensor ℚ)} {caps : TierCapacities}

/-- The layer times of the estimate are the time of a pipeline. -/
theorem sum_layerTime (n : Nat) :
    ((List.range n).map (layerTime hw metadata a scored)).sum =
        overlapTime 0 ((List.range n).map fun l =>
          (layerCompute hw a scored l, layerIo hw metadata a scored l)) ∧
      lastCompute 0 ((List.range n).map fun l =>
          (layerCompute hw a scored l, layerIo hw metadata a scored l)) =
        prevCompute hw a scored n := by
  induction n with
  | zero => exact ⟨rfl, rfl⟩
  | succ n ih =>
      rw [List.range_succ, List.map_append, List.map_append, List.sum_append, overlapTime_append,
        lastCompute_append, ih.1, ih.2]
      refine ⟨?_, rfl⟩
      rw [List.map_singleton, List.map_singleton, List.sum_singleton, overlapTime_cons,
        overlapTime_nil, add_zero]
      rfl

variable {n : Nat}

theorem layer_cutoffAssign (hlayers : layerIndices scored = List.range n) (c l : Nat) :
    (layerCompute hw (cutoffAssign scored caps c) scored l,
        layerIo hw metadata (cutoffAssign scored caps c) scored l) =
      planStage scored caps hw metadata c l := by
  refine Prod.ext (congrArg List.sum (List.map_congr_left fun t ht => ?_))
    (congrArg List.sum (List.map_congr_left fun t ht => ?_))
  · rw [computeTime, tierOf_cutoffAssign hlayers]
    by_cases h : spilled scored c t.name = true
    · rw [if_pos h, if_pos h]
    · rw [if_neg h, if_neg h]
      rfl
  · have hne : (fillAssign scored caps).tierOf t.name ≠ .nvme := fillAssign_ne_nvme ht
    rw [ioTime, tierOf_cutoffAssign hlayers]
    by_cases h : spilled scored c t.name = true
    · rw [if_pos h, if_pos h]
      rfl
    · rw [if_neg h, if_neg h]
      cases htier : (fillAssign scored caps).tierOf t.name with
      | gpu => rfl
      | ram => rfl
      | nvme => exact absurd htier hne

/-- With distinct names, what a layer computes and loads depends on its side of the
cutoff only, as in the scan; its tensors are charged by their tiers. -/
theorem planStage_of_distinct (hnames : DistinctNames scored) (c l : Nat) :
    planStage scored caps hw metadata c l =
      if l < c then (((layerTensors scored l).map (computeTime hw (fillAssign scored caps))).sum, 0)
      else (0, ((layerTensors scored l).map (streamTime metadata (nvmeBandwidth hw))).sum) := by
  have hspilled : ∀ t ∈ layerTensors scored l, (spilled scored c t.name = true ↔ c ≤ l) := by
    intro t ht
    obtain ⟨hmem, hl⟩ := mem_layerTensors.mp ht
    constructor
    · intro h
      obtain ⟨u, hu, h⟩ := List.any_eq_true.mp h
      obtain ⟨hname, hle⟩ := Bool.and_eq_true_iff.mp h
      obtain rfl := List.inj_on_of_nodup_map hnames hu hmem (of_decide_eq_true hname)
      simpa [hl] using hle
    · exact fun hle => List.any_eq_true.mpr ⟨t, hmem, by simp [hl, hle]⟩
  unfold planStage
  by_cases h : l < c
  · rw [if_pos h]
    refine Prod.ext (congrArg List.sum (List.map_congr_left fun t ht => ?_)) ?_
    · exact if_neg fun hs => absurd ((hspilled t ht).mp hs) (Nat.not_le.mpr h)
    · refine List.sum_eq_zero fun x hx => ?_
      obtain ⟨t, ht, rfl⟩ := List.mem_map.mp hx
      exact if_neg fun hs => absurd ((hspilled t ht).mp hs) (Nat.not_le.mpr h)
  · rw [if_neg h]
    have hs : ∀ t ∈ layerTensors scored l, spilled scored c t.name = true :=
      fun t ht => (hspilled t ht).mpr (Nat.not_lt.mp h)
    refine Prod.ext ?_ (congrArg List.sum (List.map_congr_left fun t ht => if_pos (hs t ht)))
    refine List.sum_eq_zero fun x hx => ?_
    obtain ⟨t, ht, rfl⟩ := List.mem_map.mp hx
    exact if_pos (hs t ht)

theorem nonLayerTime_cutoffAssign (hlayers : layerIndices scored = List.range n) (c : Nat) :
    nonLayerTime hw (cutoffAssign scored caps c) scored = outsideTime scored caps hw c := by
  refine congrArg List.sum (List.map_congr_left fun t _ => ?_)
  rw [transferTime, tierOf_cutoffAssign hlayers]
  by_cases h : spilled scored c t.name = true
  · rw [if_pos h, if_pos h]
  · rw [if_neg h, if_neg h]
    rfl

end Plan

/-- **The estimate of a cutoff** is its rank plus one sync overhead for each layer. -/
theorem estimateLatency_cutoffAssign {tensors : List TensorInfo} {metadata : ModelMetadata}
    (caps : TierCapacities) (hw : HardwareProfile)
    (hlayers : ∀ l, l < metadata.numLayers ↔ ∃ t ∈ tensors, t.layerIndex = some l) (c : Nat) :
    estimateLatency (cutoffAssign (scoreTensors (F := ℚ) tensors metadata) caps c) tensors metadata hw =
      planRank (scoreTensors tensors metadata) caps hw metadata c +
        metadata.numLayers * syncOverheadPerLayer := by
  have hrange := layerIndices_eq_range hlayers
  rw [estimateLatency_eq, (sum_layerTime _).1, nonLayerTime_cutoffAssign hrange, planRank]
  simp only [layer_cutoffAssign hrange]
  ring

/-! ### When the greedy cutoff is the best -/

section Minimises
variable (tensors : List TensorInfo) (metadata : ModelMetadata) (caps : TierCapacities)
  (hw : HardwareProfile)

/-- The greedy placement has the least estimated latency of all cutoffs that fit, and the
scan's early break skips none of these. -/
structure GreedyMinimises : Prop where
  fits : CutoffFits (scoreTensors (F := ℚ) tensors metadata) caps
    (greedyCutoff (scoreTensors (F := ℚ) tensors metadata) caps hw metadata)
  least : ∀ c, CutoffFits (scoreTensors (F := ℚ) tensors metadata) caps c →
    estimateLatency (F := ℚ) (greedyAssign (scoreTensors (F := ℚ) tensors metadata) caps hw metadata)
        tensors metadata hw ≤
      estimateLatency (cutoffAssign (scoreTensors (F := ℚ) tensors metadata) caps c) tensors metadata hw
  noneSkipped : ∀ c c', c ≤ c' →
    ¬ CutoffFits (scoreTensors (F := ℚ) tensors metadata) caps c →
      ¬ CutoffFits (scoreTensors (F := ℚ) tensors metadata) caps c'

/-- Some cutoff that fits is both the first of the scan's ranking and a least of the
estimate's. -/
def RanksAgree (scored : List (ScoredTensor ℚ)) : Prop :=
  ∃ c, FirstLeast (CutoffFits scored caps) (scanRank scored caps hw metadata) c ∧
    ∀ c', CutoffFits scored caps c' →
      planRank scored caps hw metadata c ≤ planRank scored caps hw metadata c'

variable {tensors metadata}

theorem greedyCutoff_firstLeast_rank
    (hlayers : ∀ l, l < metadata.numLayers ↔ ∃ t ∈ tensors, t.layerIndex = some l) :
    FirstLeast (CutoffFits (scoreTensors (F := ℚ) tensors metadata) caps)
      (scanRank (scoreTensors tensors metadata) caps hw metadata)
      (greedyCutoff (scoreTensors (F := ℚ) tensors metadata) caps hw metadata) := by
  have hrange := layerIndices_eq_range hlayers
  have hfreq : ∀ t ∈ scoreTensors (F := ℚ) tensors metadata, 0 ≤ t.accessFreq := by
    intro t ht
    obtain ⟨u, -, rfl⟩ := List.mem_map.mp ht
    exact estimateFreq_nonneg metadata u
  refine greedyCutoff_firstLeast.congr (fun _ => Iff.rfl) fun c hc => ?_
  have hle : c ≤ metadata.numLayers := by
    simpa [layerList, hrange] using hc.le
  rw [cutoffCost_eq hrange hfreq hle, scanRank]

/-- **When the greedy cutoff is the best.** For a model whose layers are
`0..num_layers-1`, the greedy placement has the least estimated latency of all cutoffs
that fit exactly when the first cutoff at RAM bandwidth, with the sync overhead of the
NVMe layers, is also a least one at the bandwidths of the tiers. -/
theorem greedyMinimises_iff_ranks_agree (tensors : List TensorInfo) (metadata : ModelMetadata)
    (caps : TierCapacities) (hw : HardwareProfile)
    (hlayers : ∀ l, l < metadata.numLayers ↔ ∃ t ∈ tensors, t.layerIndex = some l) :
    GreedyMinimises tensors metadata caps hw ↔
      RanksAgree metadata caps hw (scoreTensors tensors metadata) := by
  have hfirst := greedyCutoff_firstLeast_rank caps hw hlayers
  have hestimate := estimateLatency_cutoffAssign caps hw hlayers
  constructor
  · intro h
    refine ⟨_, hfirst, fun c' hc' => ?_⟩
    have hle := h.least c' hc'
    rw [hestimate] at hle
    exact le_of_add_le_add_right ((hestimate _).symm.le.trans hle)
  · rintro ⟨c, hc, hleast⟩
    obtain rfl := hc.unique hfirst
    refine ⟨hfirst.admitted, fun c' hc' => ?_, fun c c' hle hc hc' => hc (hc'.of_le hle)⟩
    rw [hestimate]
    exact (hestimate _).le.trans (add_le_add (hleast c' hc') le_rfl)

end Minimises

theorem twoLayer_layerList : layerList twoLayerScored =
    [layerTensors twoLayerScored 0, layerTensors twoLayerScored 1] := by
  rw [layerList, layerIndices_eq_range twoLayer_layers]
  rfl

theorem twoLayer_cutoffFits (c : Nat) :
    CutoffFits twoLayerScored twoLayerCaps c ↔ c = 0 ∨ c = 1 := by
  constructor
  · intro h
    have hle := h.le
    have hlength : (layerList twoLayerScored).length = 2 := by simp [twoLayer_layerList]
    have htwo : ¬ CutoffFits twoLayerScored twoLayerCaps 2 := by
      intro hfits
      have hsum := hfits.fits
      rw [twoLayer_layerList] at hsum
      exact absurd hsum (by decide +kernel)
    rcases (by omega : c = 0 ∨ c = 1 ∨ c = 2) with rfl | rfl | rfl
    · exact .inl rfl
    · exact .inr rfl
    · exact absurd h htwo
  · rintro (rfl | rfl)
    · exact ⟨by simp, by simp [sumBytes]⟩
    · exact ⟨by simp [twoLayer_layerList], by rw [twoLayer_layerList]; decide +kernel⟩

/-- On the model of two layers both rankings put the first alone in memory. -/
theorem twoLayer_greedyMinimises :
    GreedyMinimises twoLayerTensors twoLayerMetadata twoLayerCaps smallMachine := by
  have hscan : scanRank twoLayerScored twoLayerCaps smallMachine twoLayerMetadata 1 <
      scanRank twoLayerScored twoLayerCaps smallMachine twoLayerMetadata 0 := by
    decide +kernel
  have hplan : planRank twoLayerScored twoLayerCaps smallMachine twoLayerMetadata 1 <
      planRank twoLayerScored twoLayerCaps smallMachine twoLayerMetadata 0 := by
    unfold planRank outsideTime planStage fillAssign cutoffAssign
    rw [twoLayer_layerList]
    decide +kernel
  refine (greedyMinimises_iff_ranks_agree twoLayerTensors twoLayerMetadata twoLayerCaps smallMachine
    twoLayer_layers).mpr ⟨1, ⟨(twoLayer_cutoffFits 1).mpr (.inr rfl), fun c hc => ?_,
      fun c hc _ => ?_⟩, fun c hc => ?_⟩
  · rcases (twoLayer_cutoffFits c).mp hc with rfl | rfl
    · exact hscan.le
    · exact le_rfl
  · rcases (twoLayer_cutoffFits c).mp hc with rfl | rfl
    · exact hscan
    · omega
  · rcases (twoLayer_cutoffFits c).mp hc with rfl | rfl
    · exact hplan.le
    · exact le_rfl

/-! A model of one layer with one tensor of fused experts: the cache discount makes its
I/O cheaper than RAM, but dearer than the GPU. -/

def oneExpertTensors : List TensorInfo :=
  [{ name := "blk.0.ffn_gate_exps.weight", dimensions := [2 ^ 28], dtype := .f32, offset := 0,
     sizeBytes := 2 ^ 30, layerIndex := some 0 }]

def oneExpertMetadata : ModelMetadata :=
  { twoLayerMetadata with
    numLayers := 1, isMoe := true, numExperts := some 8, numExpertsUsed := some 2 }

abbrev oneExpertScored : List (ScoredTensor ℚ) := scoreTensors oneExpertTensors oneExpertMetadata

abbrev oneExpertCaps : TierCapacities := computeTierCapacities smallMachine oneExpertMetadata 4096

/-- The greedy placement sends the layer to NVMe, although it fits the GPU and would be
faster there. -/
theorem oneExpert_not_minimised :
    (∀ l, l < oneExpertMetadata.numLayers ↔ ∃ t ∈ oneExpertTensors, t.layerIndex = some l) ∧
      (greedyAssign oneExpertScored oneExpertCaps smallMachine oneExpertMetadata).tierOf
        "blk.0.ffn_gate_exps.weight" = .nvme ∧
      (cutoffAssign oneExpertScored oneExpertCaps 1).tierOf "blk.0.ffn_gate_exps.weight" = .gpu ∧
      ¬ GreedyMinimises oneExpertTensors oneExpertMetadata oneExpertCaps smallMachine := by
  refine ⟨?_, by decide +kernel, by decide +kernel, fun h => ?_⟩
  · simp [oneExpertMetadata, oneExpertTensors, eq_comm]
  · have hle := h.least 1 ⟨by decide +kernel, by decide +kernel⟩
    have hlt : estimateLatency (F := ℚ) (cutoffAssign oneExpertScored oneExpertCaps 1)
        oneExpertTensors oneExpertMetadata smallMachine <
      estimateLatency (F := ℚ) (greedyAssign oneExpertScored oneExpertCaps smallMachine
        oneExpertMetadata) oneExpertTensors oneExpertMetadata smallMachine := by decide +kernel
    exact absurd hle (not_le.mpr hlt)

end Hypura
