import Hypura.Scheduler.PlacementFits

/-!
# Hypura.Scheduler.MipOptimal

The MIP optimises exactly what `quick_estimate` measures, in exact arithmetic.

Both sides are sums over layers of `max(compute, io - prev_compute)`:

* `estimateLatency_eq` unfolds the estimate's stateful fold into that sum, plus the sync
  overheads and the transfers of the tensors outside layers;
* `computeExpr_eval`, `ioExpr_eval` and `objective_eval` evaluate the expressions of the
  MIP at any point whose tier variables are the indicators of an assignment;
* an admissible assignment lifts to a feasible point of the same cost (`lift_satisfies`),
  a feasible point projects to an admissible assignment of no greater cost
  (`extract_cost_le`), so the reformulation is exact.
-/

namespace Hypura

open Hypura.Core Hypura.Rust Assignments ScoredTensor

/-! ### Times of one tensor and of one layer -/

section Times
variable (hw : HardwareProfile) (metadata : ModelMetadata) (a : Assignments)

/-- What a tensor adds to the compute time of its layer. -/
def computeTime (t : ScoredTensor ℚ) : ℚ :=
  match a.tierOf t.name with
  | .gpu => t.sizeBytes * t.accessFreq / gpuBandwidth hw
  | .ram => t.sizeBytes * t.accessFreq / hw.memory.bandwidthBytesPerSec
  | .nvme => 0

/-- What a tensor adds to the I/O time of its layer. -/
def ioTime (t : ScoredTensor ℚ) : ℚ :=
  match a.tierOf t.name with
  | .gpu => 0
  | .ram => 0
  | .nvme => t.sizeBytes * effectiveIoFreq t.role t.accessFreq metadata.isMoe / nvmeBandwidth hw

/-- The transfer time of a tensor outside layers. -/
def transferTime (t : ScoredTensor ℚ) : ℚ :=
  match a.tierOf t.name with
  | .gpu => t.sizeBytes * t.accessFreq / gpuBandwidth hw
  | .ram => t.sizeBytes * t.accessFreq / hw.memory.bandwidthBytesPerSec
  | .nvme => t.sizeBytes * t.accessFreq / nvmeBandwidth hw

variable (scored : List (ScoredTensor ℚ))

def layerCompute (l : Nat) : ℚ := ((layerTensors scored l).map (computeTime hw a)).sum

def layerIo (l : Nat) : ℚ := ((layerTensors scored l).map (ioTime hw metadata a)).sum

/-- The compute time a layer's prefetch can hide behind. -/
def prevCompute : Nat → ℚ
  | 0 => 0
  | l + 1 => layerCompute hw a scored l

/-- The time of one layer in the overlap model. -/
def layerTime (l : Nat) : ℚ :=
  max (layerCompute hw a scored l)
    (max (layerIo hw metadata a scored l - prevCompute hw a scored l) 0)

/-- The time of the tensors outside layers. -/
def nonLayerTime : ℚ :=
  ((scored.filter fun t => t.layerIndex.isNone).map (transferTime hw a)).sum

end Times

/-! ### The estimate -/

theorem sumFrom_eq (acc : ℚ) (xs : List ℚ) : sumFrom acc xs = acc + xs.sum := by
  induction xs generalizing acc with
  | nil => simp [sumFrom]
  | cons x xs ih =>
      change sumFrom (acc + x) xs = _
      rw [ih, List.sum_cons, add_assoc]

section Estimate
variable {hw : HardwareProfile} {metadata : ModelMetadata} {a : Assignments}

theorem addTransfer_eq (acc : ℚ × ℚ) (t : TensorInfo) :
    addTransfer a metadata hw acc t =
      (acc.1 + computeTime hw a (scoreTensor metadata t),
        acc.2 + ioTime hw metadata a (scoreTensor metadata t)) := by
  unfold addTransfer computeTime ioTime
  cases htier : a.tierOf t.name <;> simp [scoreTensor, estimateFreq, htier]

theorem foldl_addTransfer (ts : List TensorInfo) (acc : ℚ × ℚ) :
    ts.foldl (addTransfer a metadata hw) acc =
      (acc.1 + ((ts.map (scoreTensor metadata)).map (computeTime hw a)).sum,
        acc.2 + ((ts.map (scoreTensor metadata)).map (ioTime hw metadata a)).sum) := by
  induction ts generalizing acc with
  | nil => simp
  | cons t ts ih =>
      rw [List.foldl_cons, ih, addTransfer_eq]
      simp only [List.map_cons, List.sum_cons, add_assoc]

variable {tensors : List TensorInfo}

theorem layerTensors_scoreTensors (l : Nat) :
    layerTensors (scoreTensors (F := ℚ) tensors metadata) l =
      (tensors.filter fun t => t.layerIndex = some l).map (scoreTensor metadata) := by
  rw [layerTensors, scoreTensors, List.filter_map]
  rfl

theorem layerTimes_eq (l : Nat) :
    layerTimes a tensors metadata hw l =
      (layerCompute hw a (scoreTensors tensors metadata) l,
        layerIo hw metadata a (scoreTensors tensors metadata) l) := by
  rw [layerTimes, foldl_addTransfer, layerCompute, layerIo, layerTensors_scoreTensors]
  norm_num

/-- The fold over layers accumulates the layer times and remembers the last compute time. -/
theorem foldl_addLayer (n : Nat) :
    (List.range n).foldl (addLayer a tensors metadata hw) (0.0, 0.0) =
      (((List.range n).map (layerTime hw metadata a (scoreTensors tensors metadata))).sum +
          n * syncOverheadPerLayer,
        prevCompute hw a (scoreTensors tensors metadata) n) := by
  induction n with
  | zero => norm_num [prevCompute]
  | succ n ih =>
      rw [List.range_succ, List.foldl_append, ih, List.map_append, List.sum_append]
      simp only [List.foldl_cons, List.foldl_nil, addLayer, layerTimes_eq, List.map_cons,
        List.map_nil, List.sum_cons, List.sum_nil, layerTime, prevCompute, Nat.cast_add,
        Nat.cast_one]
      norm_num
      ring

theorem nonLayerTime_eq :
    nonLayerTime hw a (scoreTensors tensors metadata) =
      ((tensors.filter fun t => t.layerIndex.isNone).map (nonLayerTransfer a metadata hw)).sum := by
  rw [nonLayerTime, scoreTensors, List.filter_map, List.map_map]
  rfl

/-- **The estimate is a sum over layers**, plus the sync overheads and the transfers of
the tensors outside layers. -/
theorem estimateLatency_eq :
    estimateLatency a tensors metadata hw =
      ((List.range metadata.numLayers).map
          (layerTime hw metadata a (scoreTensors tensors metadata))).sum +
        metadata.numLayers * syncOverheadPerLayer +
        nonLayerTime hw a (scoreTensors tensors metadata) := by
  rw [estimateLatency, foldl_addLayer, sumFrom_eq, nonLayerTime_eq]

end Estimate

/-! ### The expressions of the MIP -/

section Expressions
variable {hw : HardwareProfile} {metadata : ModelMetadata} {a : Assignments} {caps : TierCapacities}
  {scored : List (ScoredTensor ℚ)} {σ : MipVar → ℚ}

/-- The tier variables of a point are the indicators of an assignment's tiers. -/
def Represents (scored : List (ScoredTensor ℚ)) (σ : MipVar → ℚ) (a : Assignments) : Prop :=
  ∀ t i, (t, i) ∈ scored.zipIdx →
    σ (.xGpu i) = (if a.tierOf t.name = .gpu then 1 else 0) ∧
    σ (.xRam i) = (if a.tierOf t.name = .ram then 1 else 0) ∧
    σ (.xNvme i) = (if a.tierOf t.name = .nvme then 1 else 0)

/-- A sum over indexed tensors that does not depend on the index. -/
theorem sum_filter_zipIdx {p : ScoredTensor ℚ → Bool} {f : ScoredTensor ℚ × Nat → ℚ}
    {g : ScoredTensor ℚ → ℚ} (h : ∀ x ∈ scored.zipIdx, f x = g x.1) :
    ((scored.zipIdx.filter fun x => p x.1).map f).sum = ((scored.filter p).map g).sum := by
  have hfilter : scored.filter p = (scored.zipIdx.filter fun x => p x.1).map Prod.fst := by
    conv_lhs => rw [← List.zipIdx_map_fst 0 scored, List.filter_map]
    rfl
  rw [hfilter, List.map_map]
  refine congrArg List.sum (List.map_congr_left fun x hx => ?_)
  exact h x (List.mem_filter.mp hx).1

theorem computeExpr_eval (h : Represents scored σ a) (l : Nat) :
    (computeExpr scored hw l).eval F64.toRat σ = layerCompute hw a scored l := by
  rw [computeExpr, LinExpr.eval_sum F64.toRat_zero, List.map_flatMap]
  simp only [List.map_cons, List.map_nil, sum_flatMap, List.sum_cons, List.sum_nil, add_zero]
  refine sum_filter_zipIdx (p := fun t => t.layerIndex = some l) fun ⟨t, i⟩ hmem => ?_
  obtain ⟨hg, hr, -⟩ := h t i hmem
  change _ * σ (.xGpu i) + _ * σ (.xRam i) = _
  rw [hg, hr, computeTime]
  cases a.tierOf t.name <;> simp [F64.toRat]

theorem ioExpr_eval (hbw : (caps.nvmePeakBw : ℚ) = nvmeBandwidth hw) (h : Represents scored σ a)
    (l : Nat) : (ioExpr scored caps metadata l).eval F64.toRat σ = layerIo hw metadata a scored l := by
  rw [ioExpr, LinExpr.eval_sum F64.toRat_zero, List.map_map]
  refine sum_filter_zipIdx (p := fun t => t.layerIndex = some l) fun ⟨t, i⟩ hmem => ?_
  obtain ⟨-, -, hn⟩ := h t i hmem
  change _ / (caps.nvmePeakBw : ℚ) * σ (.xNvme i) = _
  rw [hn, ioTime, hbw]
  cases a.tierOf t.name <;> simp

theorem objective_eval (hbw : (caps.nvmePeakBw : ℚ) = nvmeBandwidth hw) (h : Represents scored σ a) :
    (mipObjective scored caps hw).eval F64.toRat σ =
      ((List.range (layerIndices scored).length).map fun j => σ (.layerCost j)).sum +
        nonLayerTime hw a scored := by
  rw [mipObjective, LinExpr.eval_sum F64.toRat_zero, List.map_append, List.sum_append,
    List.map_flatMap, List.map_map]
  simp only [List.map_cons, List.map_nil, sum_flatMap, List.sum_cons, List.sum_nil, add_zero]
  congr 1
  · refine congrArg List.sum (List.map_congr_left fun j _ => ?_)
    exact eval_one_term (.layerCost j)
  · refine sum_filter_zipIdx (p := fun t => t.layerIndex.isNone) fun ⟨t, i⟩ hmem => ?_
    obtain ⟨hg, hr, hn⟩ := h t i hmem
    change _ * σ (.xGpu i) + (_ * σ (.xRam i) + _ / (caps.nvmePeakBw : ℚ) * σ (.xNvme i)) = _
    rw [hg, hr, hn, transferTime, hbw]
    cases a.tierOf t.name <;> simp [F64.toRat]

end Expressions

/-! ### Admissible assignments -/

/-- An assignment of every tensor that keeps the capacities of the MIP and puts the last
layers, and only whole layers, on NVMe. -/
structure Admissible (scored : List (ScoredTensor ℚ)) (caps : TierCapacities) (a : Assignments) :
    Prop where
  assigned : ∀ t ∈ scored, (a.lookup t.name).isSome
  gpu : a.bytesOn .gpu (scored.map entry) ≤ caps.gpuBytes
  ram : a.bytesOn .ram (scored.map entry) ≤ caps.ramBytes
  unified : a.bytesOn .gpu (scored.map entry) + a.bytesOn .ram (scored.map entry) ≤
    caps.unifiedLimit
  suffix : NvmeSuffix a scored

section Lift
variable (hw : HardwareProfile) (metadata : ModelMetadata) (caps : TierCapacities)
  (scored : List (ScoredTensor ℚ))

/-- The point of the MIP that stands for an assignment: indicators of the tiers and of
the NVMe layers, and the layer times as costs. -/
def lift (a : Assignments) : MipVar → ℚ
  | .xGpu i => if (scored[i]?.map fun t => a.tierOf t.name) = some .gpu then 1 else 0
  | .xRam i => if (scored[i]?.map fun t => a.tierOf t.name) = some .ram then 1 else 0
  | .xNvme i => if (scored[i]?.map fun t => a.tierOf t.name) = some .nvme then 1 else 0
  | .layerNvme j => if ∃ t ∈ scored, t.layerIndex = some j ∧ a.tierOf t.name = .nvme then 1 else 0
  | .layerCost j => layerTime hw metadata a scored j

theorem lift_represents (a : Assignments) : Represents scored (lift hw metadata scored a) a := by
  intro t i hmem
  have ht : scored[i]? = some t := List.mem_zipIdx_iff_getElem?.mp hmem
  simp [lift, ht]

end Lift

section Reformulation
variable {hw : HardwareProfile} {metadata : ModelMetadata} {caps : TierCapacities}
  {scored : List (ScoredTensor ℚ)} {a : Assignments} {σ : MipVar → ℚ} {n : Nat}

theorem Admissible.lookup (h : Admissible scored caps a) {t : ScoredTensor ℚ} (ht : t ∈ scored) :
    a.lookup t.name = some (a.tierOf t.name) := by
  obtain ⟨tier, htier⟩ := Option.isSome_iff_exists.mp (h.assigned t ht)
  rw [tierOf, htier]
  rfl

/-- If the layers are `0..n-1`, a position in the list of layers is the layer itself. -/
theorem getElem?_layerIndices (hlayers : layerIndices scored = List.range n) {j l : Nat}
    (h : (layerIndices scored)[j]? = some l) : j = l ∧ l < n := by
  rw [hlayers] at h
  obtain ⟨hj, rfl⟩ := List.getElem?_eq_some_iff.mp h
  simpa using hj

/-- In an admissible assignment a layer is on NVMe as soon as one of its tensors is. -/
theorem lift_layerNvme (h : Admissible scored caps a) {t : ScoredTensor ℚ} {j : Nat}
    (ht : t ∈ scored) (hj : t.layerIndex = some j) :
    lift hw metadata scored a (.layerNvme j) = if a.tierOf t.name = .nvme then 1 else 0 := by
  rw [lift]
  by_cases htier : a.tierOf t.name = .nvme
  · rw [if_pos htier, if_pos ⟨t, ht, hj, htier⟩]
  · rw [if_neg htier, if_neg]
    rintro ⟨t', ht', hj', htier'⟩
    have hnvme := h.suffix t' ht' t ht j j hj' hj le_rfl (htier' ▸ h.lookup ht')
    rw [h.lookup ht] at hnvme
    exact htier (Option.some.inj hnvme)

/-- **Lifting.** An admissible assignment is a feasible point of the MIP. -/
theorem lift_feasible (hlayers : layerIndices scored = List.range n)
    (hbw : (caps.nvmePeakBw : ℚ) = nvmeBandwidth hw) (h : Admissible scored caps a) :
    MipFeasible scored caps hw metadata (lift hw metadata scored a) := by
  have hrep := lift_represents hw metadata scored a
  have hzero : prevCompute hw a scored 0 = 0 := rfl
  refine ⟨?_, ?_, ?_, ?_, ?_, ?_, ?_, ?_, ?_, ?_, ?_, ?_⟩
  · intro i hi v hv
    simp only [List.mem_cons, List.not_mem_nil, or_false] at hv
    change lift hw metadata scored a v = 0 ∨ lift hw metadata scored a v = 1
    rcases hv with rfl | rfl | rfl <;> rw [lift] <;> split <;> simp
  · intro j hj
    change lift hw metadata scored a _ = 0 ∨ lift hw metadata scored a _ = 1
    rw [lift]
    split <;> simp
  · intro j hj
    exact le_max_of_le_right (le_max_right _ _)
  · intro j l hj
    obtain ⟨rfl, -⟩ := getElem?_layerIndices hlayers hj
    rw [computeExpr_eval hrep]
    exact le_max_left _ _
  · intro l hl
    obtain ⟨rfl, -⟩ := getElem?_layerIndices hlayers hl
    rw [ioExpr_eval hbw hrep]
    refine le_max_of_le_right (le_max_of_le_left ?_)
    rw [hzero, sub_zero]
  · intro k l l' hk hk'
    obtain ⟨rfl, -⟩ := getElem?_layerIndices hlayers hk
    obtain ⟨rfl, -⟩ := getElem?_layerIndices hlayers hk'
    rw [ioExpr_eval hbw hrep, computeExpr_eval hrep]
    exact le_max_of_le_right (le_max_left _ _)
  · intro i hi
    obtain ⟨hg, hr, hn⟩ := hrep scored[i] i (by simp [List.mem_zipIdx_iff_getElem?, hi])
    change lift hw metadata scored a _ + lift hw metadata scored a _ + lift hw metadata scored a _ = 1
    rw [hg, hr, hn]
    cases a.tierOf scored[i].name <;> simp
  · have hbytes := bytesWhere_zipIdx (m := a) (p := (· = .gpu))
      (x := fun i => lift hw metadata scored a (.xGpu i)) fun t i hmem => by
        rw [(hrep t i hmem).1, h.lookup (mem_of_mem_zipIdx hmem), Option.any_some]
        simp
    exact hbytes.symm.le.trans (Nat.cast_le.mpr h.gpu)
  · have hbytes := bytesWhere_zipIdx (m := a) (p := (· = .ram))
      (x := fun i => lift hw metadata scored a (.xRam i)) fun t i hmem => by
        rw [(hrep t i hmem).2.1, h.lookup (mem_of_mem_zipIdx hmem), Option.any_some]
        simp
    exact hbytes.symm.le.trans (Nat.cast_le.mpr h.ram)
  · have hbytes := bytesWhere_zipIdx (m := a) (p := (· ≠ .nvme))
      (x := fun i => lift hw metadata scored a (.xGpu i) + lift hw metadata scored a (.xRam i))
      fun t i hmem => by
        rw [(hrep t i hmem).1, (hrep t i hmem).2.1, h.lookup (mem_of_mem_zipIdx hmem),
          Option.any_some]
        cases a.tierOf t.name <;> simp
    rw [bytesWhere_resident] at hbytes
    exact hbytes.symm.le.trans (Nat.cast_le.mpr h.unified)
  · intro k hk
    change lift hw metadata scored a _ ≤ lift hw metadata scored a _
    have hmem : ∀ j < (layerIndices scored).length, ∃ t ∈ scored, t.layerIndex = some j := by
      intro j hj
      refine mem_layerIndices.mp ?_
      rw [hlayers, List.length_range] at hj
      rw [hlayers]
      exact List.mem_range.mpr hj
    obtain ⟨t, ht, hl⟩ := hmem k (by omega)
    obtain ⟨t', ht', hl'⟩ := hmem (k + 1) hk
    rw [lift_layerNvme h ht hl, lift_layerNvme h ht' hl']
    by_cases htier : a.tierOf t.name = .nvme
    · have hnvme := h.suffix t ht t' ht' k (k + 1) hl hl' (by omega) (htier ▸ h.lookup ht)
      rw [h.lookup ht', Option.some.injEq] at hnvme
      rw [if_pos htier, if_pos hnvme]
    · rw [if_neg htier]
      split <;> simp
  · intro t i l j hmem hl hj
    obtain ⟨rfl, -⟩ := getElem?_layerIndices hlayers (getElem?_of_idxOf? hj)
    have ht := mem_of_mem_zipIdx hmem
    change lift hw metadata scored a _ = lift hw metadata scored a _
    rw [(hrep t i hmem).2.2, lift_layerNvme h ht hl]

theorem extract_represents (hnames : DistinctNames scored)
    (h : MipFeasible scored caps hw metadata σ) :
    Represents scored σ (extractAssignments scored σ) := by
  intro t i hmem
  have hi := lt_length_of_mem_zipIdx hmem
  have htier : (extractAssignments scored σ).tierOf t.name = solutionTier σ i := by
    rw [tierOf, lookup_extractAssignments hnames hmem]
    rfl
  rw [htier]
  exact ⟨(h.gpu_indicator hi).symm, (h.ram_indicator hi).symm, (h.nvme_indicator hi).symm⟩

/-- **Projection.** A feasible point is an admissible assignment. -/
theorem extract_admissible (hnames : DistinctNames scored)
    (h : MipFeasible scored caps hw metadata σ) :
    Admissible scored caps (extractAssignments scored σ) := by
  have hfits := extractAssignments_fits hnames (fun _ _ => rfl) rfl rfl h
  refine ⟨hfits.oneTier, hfits.gpu, ?_, ?_, extractAssignments_suffix hnames h⟩
  · have hbytes := bytesWhere_extract (σ := σ) hnames (p := (· = .ram)) (x := fun i => σ (.xRam i))
      fun i hi => by
        simp only [decide_eq_true_eq]
        exact h.ram_indicator hi
    have hle := hbytes.le.trans h.ram
    exact Nat.cast_le.mp hle
  · rw [← bytesWhere_resident]
    exact hfits.unified

/-- The costs of a feasible point are at least the layer times of its assignment. -/
theorem layerTime_le_cost (hlayers : layerIndices scored = List.range n)
    (hbw : (caps.nvmePeakBw : ℚ) = nvmeBandwidth hw) (hrep : Represents scored σ a)
    (h : MipFeasible scored caps hw metadata σ) {j : Nat} (hj : j < n) :
    layerTime hw metadata a scored j ≤ σ (.layerCost j) := by
  have hidx : ∀ {k}, k < n → (layerIndices scored)[k]? = some k := by
    intro k hk
    rw [hlayers]
    simp [hk]
  have hcompute := h.costCompute j j (hidx hj)
  rw [computeExpr_eval hrep] at hcompute
  refine max_le hcompute (max_le ?_ (h.costNonneg j (by simpa [hlayers] using hj)))
  cases j with
  | zero =>
      have hio := h.costIo 0 (hidx hj)
      rw [ioExpr_eval hbw hrep] at hio
      exact (sub_zero _).le.trans hio
  | succ k =>
      have hio := h.costOverlap k k (k + 1) (hidx (by omega)) (hidx hj)
      rw [ioExpr_eval hbw hrep, computeExpr_eval hrep] at hio
      exact hio

/-- The cost of an assignment: the estimated latency without the sync overheads. -/
def modelCost (hw : HardwareProfile) (metadata : ModelMetadata) (scored : List (ScoredTensor ℚ))
    (n : Nat) (a : Assignments) : ℚ :=
  ((List.range n).map (layerTime hw metadata a scored)).sum + nonLayerTime hw a scored

theorem lift_objective (hlayers : layerIndices scored = List.range n)
    (hbw : (caps.nvmePeakBw : ℚ) = nvmeBandwidth hw) :
    (mipObjective scored caps hw).eval F64.toRat (lift hw metadata scored a) =
      modelCost hw metadata scored n a := by
  rw [objective_eval hbw (lift_represents hw metadata scored a), hlayers, List.length_range]
  rfl

theorem extract_cost_le (hnames : DistinctNames scored) (hlayers : layerIndices scored = List.range n)
    (hbw : (caps.nvmePeakBw : ℚ) = nvmeBandwidth hw) (h : MipFeasible scored caps hw metadata σ) :
    modelCost hw metadata scored n (extractAssignments scored σ) ≤
      (mipObjective scored caps hw).eval F64.toRat σ := by
  have hrep := extract_represents hnames h
  rw [objective_eval hbw hrep, hlayers, List.length_range, modelCost]
  refine add_le_add ?_ le_rfl
  exact List.sum_le_sum fun j hj => layerTime_le_cost hlayers hbw hrep h (List.mem_range.mp hj)

/-- The assignment read off an optimal solution is a cheapest admissible one, and its
cost is the optimal objective. -/
theorem extract_isLeast (hnames : DistinctNames scored) (hlayers : layerIndices scored = List.range n)
    (hbw : (caps.nvmePeakBw : ℚ) = nvmeBandwidth hw)
    (h : (mipProgram scored caps hw metadata).IsOptimal F64.toRat σ) :
    IsLeast (modelCost hw metadata scored n '' {a | Admissible scored caps a})
        (modelCost hw metadata scored n (extractAssignments scored σ)) ∧
      modelCost hw metadata scored n (extractAssignments scored σ) =
        (mipObjective scored caps hw).eval F64.toRat σ := by
  refine isLeast_of_reformulation (l := lift hw metadata scored) (r := extractAssignments scored)
    (fun a ha => ⟨?_, ?_⟩) (fun σ hσ => ?_) h
  · exact mipProgram_satisfies_iff.mpr (lift_feasible hlayers hbw ha)
  · exact (lift_objective hlayers hbw).le
  · have hfeasible := mipProgram_satisfies_iff.mp hσ
    exact ⟨extract_admissible hnames hfeasible, extract_cost_le hnames hlayers hbw hfeasible⟩

end Reformulation

/-! ### The MIP and the estimate -/

section Minimises
variable {tensors : List TensorInfo} {metadata : ModelMetadata}

/-- With layers `0..num_layers-1`, each with a tensor, the list of layers is that range. -/
theorem layerIndices_eq_range
    (hlayers : ∀ l, l < metadata.numLayers ↔ ∃ t ∈ tensors, t.layerIndex = some l) :
    layerIndices (scoreTensors (F := ℚ) tensors metadata) = List.range metadata.numLayers := by
  refine (layerIndices_pairwise _).eq_of_mem_iff List.pairwise_lt_range fun l => ?_
  rw [mem_layerIndices, List.mem_range, hlayers]
  constructor
  · rintro ⟨s, hs, hl⟩
    obtain ⟨t, ht, rfl⟩ := List.mem_map.mp hs
    exact ⟨t, ht, hl⟩
  · rintro ⟨t, ht, hl⟩
    exact ⟨_, List.mem_map_of_mem ht, hl⟩

theorem nvmePeakBw_eq (hw : HardwareProfile) (metadata : ModelMetadata) (contextLength : Nat) :
    ((computeTierCapacities hw metadata contextLength).nvmePeakBw : ℚ) = nvmeBandwidth hw := by
  unfold computeTierCapacities nvmeBandwidth
  cases hw.storage.head? with
  | none => norm_num
  | some s => rfl

theorem estimateLatency_eq_modelCost (hw : HardwareProfile) (a : Assignments) :
    estimateLatency a tensors metadata hw =
      modelCost hw metadata (scoreTensors tensors metadata) metadata.numLayers a +
        metadata.numLayers * syncOverheadPerLayer := by
  rw [estimateLatency_eq, modelCost]
  ring

/-- **The MIP optimises exactly what `quick_estimate` measures.** For a model whose
layers are `0..num_layers-1`, the assignment that `lp_assign` reads off an optimal
solution has the least estimated latency of all admissible assignments, and that latency
is the optimal objective plus one sync overhead per layer. -/
theorem lpAssign_minimises_estimate (tensors : List TensorInfo) (metadata : ModelMetadata)
    (hw : HardwareProfile) (contextLength : Nat)
    (solve : Program MipVar ℚ → Option (MipVar → ℚ)) (σ : MipVar → ℚ)
    (hnames : (tensors.map TensorInfo.name).Nodup)
    (hlayers : ∀ l, l < metadata.numLayers ↔ ∃ t ∈ tensors, t.layerIndex = some l)
    (hsolve : solve (mipProgram (scoreTensors tensors metadata)
      (computeTierCapacities hw metadata contextLength) hw metadata) = some σ)
    (hopt : (mipProgram (scoreTensors tensors metadata)
      (computeTierCapacities hw metadata contextLength) hw metadata).IsOptimal F64.toRat σ) :
    ∃ m, lpAssign (scoreTensors (F := ℚ) tensors metadata)
        (computeTierCapacities hw metadata contextLength) hw metadata solve = some m ∧
      IsLeast ((fun a => estimateLatency (F := ℚ) a tensors metadata hw) ''
        {a | Admissible (scoreTensors tensors metadata)
          (computeTierCapacities hw metadata contextLength) a})
        (estimateLatency m tensors metadata hw) ∧
      (mipObjective (scoreTensors tensors metadata)
          (computeTierCapacities hw metadata contextLength) hw).eval F64.toRat σ +
        metadata.numLayers * syncOverheadPerLayer = estimateLatency m tensors metadata hw := by
  have hdist : DistinctNames (scoreTensors (F := ℚ) tensors metadata) := by
    rw [DistinctNames, scoreTensors, List.map_map]
    exact hnames
  obtain ⟨⟨hmem, hleast⟩, hobj⟩ := extract_isLeast hdist (layerIndices_eq_range hlayers)
    (nvmePeakBw_eq hw metadata contextLength) hopt
  refine ⟨extractAssignments (scoreTensors tensors metadata) σ, ?_, ⟨?_, ?_⟩, ?_⟩
  · rw [lpAssign, hsolve]
    split
    · next hempty =>
        rw [List.isEmpty_iff.mp hempty]
        rfl
    · rfl
  · obtain ⟨a, ha, heq⟩ := hmem
    refine ⟨a, ha, ?_⟩
    simp only [estimateLatency_eq_modelCost, heq]
  · rintro _ ⟨a, ha, rfl⟩
    simp only [estimateLatency_eq_modelCost]
    exact add_le_add (hleast ⟨a, ha, rfl⟩) le_rfl
  · rw [estimateLatency_eq_modelCost, ← hobj]

end Minimises

/-! ### Two layers, one of which fits -/

def twoLayerTensors : List TensorInfo :=
  [⟨"blk.0.attn_q.weight", [2 ^ 31], .f32, 0, 2 ^ 33, some 0⟩,
    ⟨"blk.1.attn_q.weight", [2 ^ 31], .f32, 2 ^ 33, 2 ^ 33, some 1⟩]

def twoLayerMetadata : ModelMetadata where
  architecture := "llama"
  contextLength := 4096
  embeddingDim := 4096
  numLayers := 2
  numHeads := 32
  numKvHeads := 32
  isMoe := false
  numExperts := none
  numExpertsUsed := none

abbrev twoLayerScored : List (ScoredTensor ℚ) := scoreTensors twoLayerTensors twoLayerMetadata

abbrev twoLayerCaps : TierCapacities := computeTierCapacities smallMachine twoLayerMetadata 4096

theorem twoLayer_layers (l : Nat) :
    l < twoLayerMetadata.numLayers ↔ ∃ t ∈ twoLayerTensors, t.layerIndex = some l := by
  simp [twoLayerMetadata, twoLayerTensors]
  omega

/-- The first layer on the GPU, the second on NVMe. -/
def firstOnGpu : Assignments :=
  AList.insert "blk.0.attn_q.weight" StorageTier.gpu
    (AList.insert "blk.1.attn_q.weight" StorageTier.nvme ∅)

theorem firstOnGpu_admissible : Admissible twoLayerScored twoLayerCaps firstOnGpu := by
  refine ⟨by decide +kernel, by decide +kernel, by decide +kernel, by decide +kernel, ?_⟩
  intro t ht t' ht' l l' hl hl' hle hnvme
  rcases List.mem_pair.mp ht' with rfl | rfl
  · rcases List.mem_pair.mp ht with rfl | rfl
    · cases hnvme
    · cases hl
      cases hl'
      omega
  · rfl

theorem twoLayer_cost (a : Assignments) :
    modelCost smallMachine twoLayerMetadata twoLayerScored 2 a =
      max (computeTime smallMachine a (scoreTensor twoLayerMetadata twoLayerTensors[0]))
        (max (ioTime smallMachine twoLayerMetadata a
          (scoreTensor twoLayerMetadata twoLayerTensors[0])) 0) +
      max (computeTime smallMachine a (scoreTensor twoLayerMetadata twoLayerTensors[1]))
        (max (ioTime smallMachine twoLayerMetadata a
            (scoreTensor twoLayerMetadata twoLayerTensors[1]) -
          computeTime smallMachine a (scoreTensor twoLayerMetadata twoLayerTensors[0])) 0) := by
  have hfirst : layerTensors twoLayerScored 0 =
      [scoreTensor twoLayerMetadata twoLayerTensors[0]] := rfl
  have hsecond : layerTensors twoLayerScored 1 =
      [scoreTensor twoLayerMetadata twoLayerTensors[1]] := rfl
  have hrest : twoLayerScored.filter (fun t => t.layerIndex.isNone) = [] := rfl
  simp [modelCost, nonLayerTime, hrest, layerTime, layerCompute, layerIo, hfirst, hsecond,
    prevCompute, List.range_succ]

/-- Of an admissible placement the second layer is on NVMe: memory has no room for both, and
layers on NVMe are the last. -/
theorem twoLayer_second {a : Assignments} (h : Admissible twoLayerScored twoLayerCaps a) :
    a.tierOf "blk.1.attn_q.weight" = .nvme := by
  obtain ⟨tier, htier⟩ := Option.isSome_iff_exists.mp (h.assigned _ List.mem_cons_self)
  obtain ⟨tier', htier'⟩ := Option.isSome_iff_exists.mp
    (h.assigned _ (List.mem_cons_of_mem _ List.mem_cons_self))
  have htier₀ : a.lookup "blk.0.attn_q.weight" = some tier := htier
  have htier₁ : a.lookup "blk.1.attn_q.weight" = some tier' := htier'
  by_contra hsecond
  have hne' : tier' ≠ .nvme := by
    rintro rfl
    exact hsecond (by simp [Assignments.tierOf, htier₁])
  have hne : tier ≠ .nvme := by
    rintro rfl
    have hnvme := h.suffix _ List.mem_cons_self _ (List.mem_cons_of_mem _ List.mem_cons_self) 0 1
      rfl rfl (by omega) htier
    exact hne' (Option.some.inj (htier₁.symm.trans hnvme))
  have hbytes : a.bytesWhere (· ≠ .nvme) (twoLayerScored.map entry) = 2 ^ 33 + 2 ^ 33 := by
    have hentries : twoLayerScored.map entry =
        [("blk.0.attn_q.weight", 2 ^ 33), ("blk.1.attn_q.weight", 2 ^ 33)] := rfl
    simp [hentries, Assignments.bytesWhere, htier₀, htier₁, hne, hne']
  have hroom : a.bytesWhere (· ≠ .nvme) (twoLayerScored.map entry) ≤ twoLayerCaps.unifiedLimit :=
    bytesWhere_resident.trans_le h.unified
  rw [hbytes] at hroom
  exact absurd hroom (by decide +kernel)

/-- The bandwidths are 200, 100 and 5 GiB/s; what the first layer computes hides as much of the
second's I/O. -/
theorem twoLayer_times {a : Assignments} (h : a.tierOf "blk.1.attn_q.weight" = .nvme) :
    modelCost smallMachine twoLayerMetadata twoLayerScored 2 a =
      if a.tierOf "blk.0.attn_q.weight" = .nvme then 16 / 5 else 8 / 5 := by
  have hrole : TensorRole.fromName "blk.0.attn_q.weight" = .attentionQuery := rfl
  have hrole' : TensorRole.fromName "blk.1.attn_q.weight" = .attentionQuery := rfl
  rw [twoLayer_cost]
  cases htier : a.tierOf "blk.0.attn_q.weight" <;>
    norm_num [computeTime, ioTime, scoreTensor, twoLayerTensors, h, htier, hrole, hrole',
      twoLayerMetadata, TensorRole.accessFrequency, TensorRole.isExpert, effectiveIoFreq,
      gpuBandwidth, nvmeBandwidth, smallMachine, -reduceCtorEq] <;> simp

theorem firstOnGpu_cost_le {a : Assignments} (h : Admissible twoLayerScored twoLayerCaps a) :
    modelCost smallMachine twoLayerMetadata twoLayerScored 2 firstOnGpu ≤
      modelCost smallMachine twoLayerMetadata twoLayerScored 2 a := by
  have hfirst : firstOnGpu.tierOf "blk.0.attn_q.weight" = .gpu := rfl
  rw [twoLayer_times (twoLayer_second firstOnGpu_admissible), twoLayer_times (twoLayer_second h),
    if_neg (by simp [hfirst])]
  split <;> norm_num

theorem firstOnGpu_optimal :
    (mipProgram twoLayerScored twoLayerCaps smallMachine twoLayerMetadata).IsOptimal F64.toRat
      (lift smallMachine twoLayerMetadata twoLayerScored firstOnGpu) := by
  have hlayers := layerIndices_eq_range twoLayer_layers
  have hbw := nvmePeakBw_eq smallMachine twoLayerMetadata 4096
  have hnames : DistinctNames twoLayerScored := by decide
  refine ⟨mipProgram_satisfies_iff.mpr (lift_feasible hlayers hbw firstOnGpu_admissible),
    fun τ hτ => ?_⟩
  have hfeasible := mipProgram_satisfies_iff.mp hτ
  have hcost := extract_cost_le hnames hlayers hbw hfeasible
  exact (lift_objective hlayers hbw).le.trans
    ((firstOnGpu_cost_le (extract_admissible hnames hfeasible)).trans hcost)

/-- The solver's answer, the first layer on the GPU, has the least estimated latency. -/
theorem twoLayer_minimises_estimate :
    ∃ m, lpAssign twoLayerScored twoLayerCaps smallMachine twoLayerMetadata
        (fun _ => some (lift smallMachine twoLayerMetadata twoLayerScored firstOnGpu)) = some m ∧
      IsLeast ((fun a => estimateLatency (F := ℚ) a twoLayerTensors twoLayerMetadata smallMachine) ''
        {a | Admissible twoLayerScored twoLayerCaps a})
        (estimateLatency m twoLayerTensors twoLayerMetadata smallMachine) ∧
      (mipObjective twoLayerScored twoLayerCaps smallMachine).eval F64.toRat
          (lift smallMachine twoLayerMetadata twoLayerScored firstOnGpu) +
        twoLayerMetadata.numLayers * syncOverheadPerLayer =
          estimateLatency m twoLayerTensors twoLayerMetadata smallMachine :=
  lpAssign_minimises_estimate twoLayerTensors twoLayerMetadata smallMachine 4096 _ _ (by decide)
    twoLayer_layers rfl firstOnGpu_optimal

end Hypura
