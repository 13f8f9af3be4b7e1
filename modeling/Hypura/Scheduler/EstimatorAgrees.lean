import Hypura.Model.GgufSound
import Hypura.Scheduler.Estimator
import Hypura.Scheduler.MipOptimal

/-!
# Hypura.Scheduler.EstimatorAgrees

`estimate_performance` against `quick_estimate`, in exact arithmetic.

Both are sums over layers of `max(compute, exposed I/O)`. `quick_estimate` takes the
previous layer's compute time off the I/O time of the layer; `estimate_performance` takes
it off the I/O time of each tensor, so that a window is used several times over.

* `exposed`: what is left of a list of I/O times when each is hidden on its own. It is at
  most what is left of their sum, and `max_exposed_eq_iff` says when the two give a layer
  the same time.
* `CountedOnce`: every tensor that a token touches is found by both groupings.
* `estimatePerformance_agrees_iff`: then the estimates agree exactly when no layer uses
  its window twice.
-/

namespace Hypura

open Hypura.Core Hypura.Rust Assignments

/-! ### One window, many reads -/

section Exposed
variable {p : ℚ} {xs : List ℚ}

/-- What is left of the I/O times `xs` if a window of length `p` hides each of them. -/
def exposed (p : ℚ) (xs : List ℚ) : ℚ := (xs.map fun x => max (x - p) 0).sum

@[simp] theorem exposed_nil : exposed p [] = 0 := rfl

@[simp] theorem exposed_cons (x : ℚ) : exposed p (x :: xs) = max (x - p) 0 + exposed p xs := by
  simp [exposed]

/-- Hiding each time is never worse than hiding their sum. -/
theorem exposed_le (hp : 0 ≤ p) (hxs : ∀ x ∈ xs, 0 ≤ x) : exposed p xs ≤ max (xs.sum - p) 0 := by
  induction xs with
  | nil => simp
  | cons x xs ih =>
      obtain ⟨hx, hnonneg⟩ := List.forall_mem_cons.mp hxs
      have hsum : 0 ≤ xs.sum := List.sum_nonneg hnonneg
      have hrest := ih hnonneg
      rw [exposed_cons, List.sum_cons]
      rcases le_total x p with hxp | hxp
      · rw [max_eq_right (by linarith : x - p ≤ 0), zero_add]
        exact hrest.trans (max_le_max_right 0 (by linarith))
      · rw [max_eq_left (by linarith : 0 ≤ x - p), max_eq_left (by linarith : 0 ≤ x + xs.sum - p)]
        rcases le_total xs.sum p with hs | hs
        · rw [max_eq_right (by linarith : xs.sum - p ≤ 0)] at hrest
          linarith
        · rw [max_eq_left (by linarith : 0 ≤ xs.sum - p)] at hrest
          linarith

theorem exposed_zero (hxs : ∀ x ∈ xs, 0 ≤ x) : exposed 0 xs = xs.sum := by
  induction xs with
  | nil => rfl
  | cons x xs ih =>
      obtain ⟨hx, hnonneg⟩ := List.forall_mem_cons.mp hxs
      rw [exposed_cons, ih hnonneg, sub_zero, max_eq_left hx, List.sum_cons]

/-- Times that are all zero are hidden. -/
theorem exposed_of_filter_nil (hp : 0 ≤ p) (hxs : ∀ x ∈ xs, 0 ≤ x)
    (h : xs.filter (0 < ·) = []) : exposed p xs = 0 ∧ xs.sum = 0 := by
  induction xs with
  | nil => exact ⟨rfl, rfl⟩
  | cons x xs ih =>
      obtain ⟨hx, hnonneg⟩ := List.forall_mem_cons.mp hxs
      have hall := List.filter_eq_nil_iff.mp h
      have hzero : x = 0 := by
        have hx' := hall x List.mem_cons_self
        rw [decide_eq_true_iff, not_lt] at hx'
        exact le_antisymm hx' hx
      have hrest := ih hnonneg (List.filter_eq_nil_iff.mpr fun y hy => hall y (List.mem_cons_of_mem _ hy))
      rw [exposed_cons, List.sum_cons, hrest.1, hrest.2, hzero]
      simpa using hp

/-- A single read is hidden the same way as the sum. -/
theorem exposed_of_one (hp : 0 ≤ p) (hxs : ∀ x ∈ xs, 0 ≤ x)
    (h : (xs.filter (0 < ·)).length ≤ 1) : exposed p xs = max (xs.sum - p) 0 := by
  induction xs with
  | nil => simpa using hp
  | cons x xs ih =>
      obtain ⟨hx, hnonneg⟩ := List.forall_mem_cons.mp hxs
      rw [exposed_cons, List.sum_cons]
      rcases hx.eq_or_lt with rfl | hpos
      · rw [List.filter_cons_of_neg (by simp)] at h
        rw [ih hnonneg h, max_eq_right (by linarith : 0 - p ≤ 0), zero_add, zero_add]
      · rw [List.filter_cons_of_pos (by simpa using hpos), List.length_cons] at h
        have hnil : xs.filter (0 < ·) = [] := List.eq_nil_of_length_eq_zero (by omega)
        obtain ⟨hexp, hsum⟩ := exposed_of_filter_nil hp hnonneg hnil
        rw [hexp, hsum, add_zero, add_zero]

/-- Two reads that do not fit the window together use it twice. -/
theorem exposed_lt (hp : 0 < p) (hxs : ∀ x ∈ xs, 0 ≤ x) (hsum : p < xs.sum)
    (h : 1 < (xs.filter (0 < ·)).length) : exposed p xs < xs.sum - p := by
  induction xs with
  | nil => simp at h
  | cons x xs ih =>
      obtain ⟨hx, hnonneg⟩ := List.forall_mem_cons.mp hxs
      rw [List.sum_cons] at hsum
      rw [exposed_cons, List.sum_cons]
      rcases hx.eq_or_lt with rfl | hpos
      · rw [List.filter_cons_of_neg (by simp)] at h
        rw [max_eq_right (by linarith : 0 - p ≤ 0), zero_add, zero_add]
        exact ih hnonneg (by linarith) h
      · rw [List.filter_cons_of_pos (by simpa using hpos), List.length_cons] at h
        have hrest : 0 < xs.sum := by
          obtain ⟨y, hy⟩ := List.exists_mem_of_length_pos (by omega : 0 < (xs.filter (0 < ·)).length)
          obtain ⟨hmem, hy⟩ := List.mem_filter.mp hy
          rw [decide_eq_true_iff] at hy
          exact lt_of_lt_of_le hy (List.single_le_sum hnonneg y hmem)
        have hle := exposed_le hp.le hnonneg
        rcases le_total x p with hxp | hxp
        · rw [max_eq_right (by linarith : x - p ≤ 0), zero_add]
          refine lt_of_le_of_lt hle (max_lt ?_ ?_) <;> linarith
        · rw [max_eq_left (by linarith : 0 ≤ x - p)]
          rcases le_total xs.sum p with hs | hs
          · rw [max_eq_right (by linarith : xs.sum - p ≤ 0)] at hle
            linarith
          · rw [max_eq_left (by linarith : 0 ≤ xs.sum - p)] at hle
            linarith

/-- A layer that computes for `c` after a window of length `p` takes the same time in both
models exactly when nothing computed before it, its reads fit the two compute times, or it
has a single read. -/
theorem max_exposed_eq_iff {c : ℚ} (hp : 0 ≤ p) (hc : 0 ≤ c) (hxs : ∀ x ∈ xs, 0 ≤ x) :
    max c (exposed p xs) = max c (max (xs.sum - p) 0) ↔
      p = 0 ∨ xs.sum ≤ p + c ∨ (xs.filter (0 < ·)).length ≤ 1 := by
  constructor
  · intro heq
    by_contra hnot
    rw [not_or, not_or, not_le, not_le] at hnot
    obtain ⟨hp0, hsum, hmany⟩ := hnot
    have hlt := exposed_lt (lt_of_le_of_ne hp (Ne.symm hp0)) hxs (by linarith) hmany
    rw [max_eq_left (by linarith : 0 ≤ xs.sum - p), max_eq_right (by linarith : c ≤ xs.sum - p)] at heq
    have hless : max c (exposed p xs) < xs.sum - p := max_lt (by linarith) hlt
    exact absurd heq hless.ne
  · intro h
    rcases h with rfl | hfit | hone
    · rw [exposed_zero hxs, sub_zero, max_eq_left (List.sum_nonneg hxs)]
    · have hsum : max (xs.sum - p) 0 ≤ c := max_le (by linarith) hc
      rw [max_eq_left ((exposed_le hp hxs).trans hsum), max_eq_left hsum]
    · rw [exposed_of_one hp hxs hone]

end Exposed

/-! ### Names and layers -/

section Names
variable {name : String} {l : Nat}

theorem parseLayerIndex_eq_some : parseLayerIndex name = some l ↔
    ∃ part num parts, split name '.' = part :: num :: parts ∧
      (part = "blk".toList ∨ part = "layers".toList) ∧ parseU32 num = some l := by
  unfold parseLayerIndex
  split
  · next p num ps hsplit =>
      rw [Option.ite_none_right_eq_some]
      constructor
      · intro ⟨hp, hnum⟩
        exact ⟨_, _, _, hsplit, hp, hnum⟩
      · rintro ⟨_, _, _, hsplit', hp, hnum⟩
        rw [hsplit] at hsplit'
        cases hsplit'
        exact ⟨hp, hnum⟩
  · next hshort =>
      refine iff_of_false (by simp) ?_
      rintro ⟨_, _, _, hsplit, -⟩
      exact hshort _ _ _ hsplit

theorem startsWith_layerPrefix_iff : startsWith name (Estimator.layerPrefix l) = true ↔
    ∃ next parts, split name '.' = "blk".toList :: Nat.toDigits 10 l :: next :: parts := by
  have hprefix : (Estimator.layerPrefix l).toList =
      "blk".toList ++ '.' :: (Nat.toDigits 10 l ++ ['.']) := by
    simp [Estimator.layerPrefix, Nat.toList_repr]
  rw [startsWith, List.isPrefixOf_iff_prefix, hprefix]
  constructor
  · rintro ⟨rest, hname⟩
    obtain ⟨next, parts, hrest⟩ := (prefix_dot_iff (notMem_toDigits_dot l)).mp
      (List.prefix_append (Nat.toDigits 10 l ++ ['.']) rest)
    refine ⟨next, parts, splitOn_eq_cons_cons.mpr ⟨by decide, _, ?_, hrest⟩⟩
    rw [← hname]
    simp
  · rintro ⟨next, parts, hsplit⟩
    obtain ⟨-, rest, hname, hrest⟩ := splitOn_eq_cons_cons.mp hsplit
    obtain ⟨rest', rfl⟩ := (prefix_dot_iff (notMem_toDigits_dot l)).mpr ⟨next, parts, hrest⟩
    exact ⟨rest', by rw [hname]; simp⟩

/-- A name that starts with the prefix of a layer is parsed to that layer. -/
theorem parseLayerIndex_of_startsWith (hl : l < 2 ^ 32)
    (h : startsWith name (Estimator.layerPrefix l) = true) : parseLayerIndex name = some l := by
  obtain ⟨next, parts, hsplit⟩ := startsWith_layerPrefix_iff.mp h
  exact parseLayerIndex_eq_some.mpr ⟨_, _, _, hsplit, .inl rfl, parseU32_toDigits hl⟩

end Names

/-! ### The bytes of a token -/

/-- The bytes of a tensor that one token touches. -/
def bytesPerToken (metadata : ModelMetadata) (t : TensorInfo) : ℚ :=
  t.sizeBytes * estimateFreq metadata t

/-- What of them is read from NVMe: size times effective access frequency. -/
def nvmeBytesPerToken (metadata : ModelMetadata) (t : TensorInfo) : ℚ :=
  t.sizeBytes * effectiveIoFreq (TensorRole.fromName t.name) (estimateFreq metadata t) metadata.isMoe

theorem effectiveFreq_eq (metadata : ModelMetadata) (t : TensorInfo) :
    (Estimator.effectiveFreq metadata t : ℚ) =
      effectiveIoFreq (TensorRole.fromName t.name) (estimateFreq metadata t) metadata.isMoe := by
  unfold Estimator.effectiveFreq effectiveIoFreq Estimator.moeCacheHitRate moeCacheHitRate
  cases metadata.isMoe <;> cases hrole : (TensorRole.fromName t.name).isExpert <;> simp [hrole]

theorem estimateFreq_nonneg (metadata : ModelMetadata) (t : TensorInfo) :
    (0 : ℚ) ≤ estimateFreq metadata t := by
  unfold estimateFreq TensorRole.accessFrequency
  split
  · split
    · positivity
    · norm_num
  · norm_num

theorem nvmeBytesPerToken_nonneg (metadata : ModelMetadata) (t : TensorInfo) :
    0 ≤ nvmeBytesPerToken metadata t := by
  have hfreq := estimateFreq_nonneg metadata t
  unfold nvmeBytesPerToken effectiveIoFreq moeCacheHitRate
  split
  · exact mul_nonneg (Nat.cast_nonneg _) (mul_nonneg hfreq (by norm_num))
  · exact mul_nonneg (Nat.cast_nonneg _) hfreq

theorem nvmeBytesPerToken_eq_zero {metadata : ModelMetadata} {t : TensorInfo}
    (h : bytesPerToken metadata t = 0) : nvmeBytesPerToken metadata t = 0 := by
  unfold nvmeBytesPerToken effectiveIoFreq
  split
  · rw [← mul_assoc]
    exact mul_eq_zero_of_left h _
  · exact h

/-! ### The loops -/

section Loops
variable {a : Assignments} {tensors : List TensorInfo} {metadata : ModelMetadata}
  {hw : HardwareProfile}

/-- The compute time of a tensor. -/
abbrev computeOf (a : Assignments) (metadata : ModelMetadata) (hw : HardwareProfile)
    (t : TensorInfo) : ℚ :=
  computeTime hw a (scoreTensor metadata t)

/-- The I/O time of a tensor. -/
abbrev ioOf (a : Assignments) (metadata : ModelMetadata) (hw : HardwareProfile)
    (t : TensorInfo) : ℚ :=
  ioTime hw metadata a (scoreTensor metadata t)

/-- The bytes a token reads of a tensor, if it is on NVMe. -/
def diskBytes (a : Assignments) (metadata : ModelMetadata) (t : TensorInfo) : ℚ :=
  if a.tierOf t.name = .nvme then nvmeBytesPerToken metadata t else 0

theorem ioOf_eq (t : TensorInfo) :
    ioOf a metadata hw t = diskBytes a metadata t / nvmeBandwidth hw := by
  unfold ioOf ioTime diskBytes nvmeBytesPerToken
  cases htier : a.tierOf t.name <;> simp [scoreTensor, estimateFreq, htier]

theorem bandwidth_nonneg (hw : HardwareProfile) :
    (0 : ℚ) ≤ gpuBandwidth hw ∧ (0 : ℚ) ≤ nvmeBandwidth hw := by
  constructor
  · unfold gpuBandwidth
    cases hw.gpu <;> norm_num
  · unfold nvmeBandwidth
    cases hw.storage.head? <;> norm_num

theorem diskBytes_nonneg (t : TensorInfo) : 0 ≤ diskBytes a metadata t := by
  unfold diskBytes
  split
  · exact nvmeBytesPerToken_nonneg metadata t
  · exact le_rfl

theorem ioOf_nonneg (t : TensorInfo) : 0 ≤ ioOf a metadata hw t := by
  rw [ioOf_eq]
  exact div_nonneg (diskBytes_nonneg t) (bandwidth_nonneg hw).2

theorem computeOf_eq (t : TensorInfo) :
    computeOf a metadata hw t = match a.tierOf t.name with
      | .gpu => bytesPerToken metadata t / gpuBandwidth hw
      | .ram => bytesPerToken metadata t / hw.memory.bandwidthBytesPerSec
      | .nvme => 0 := rfl

theorem computeOf_nonneg (t : TensorInfo) : 0 ≤ computeOf a metadata hw t := by
  have hbytes : 0 ≤ bytesPerToken metadata t :=
    mul_nonneg (Nat.cast_nonneg _) (estimateFreq_nonneg metadata t)
  rw [computeOf_eq]
  cases a.tierOf t.name with
  | gpu => exact div_nonneg hbytes (bandwidth_nonneg hw).1
  | ram => exact div_nonneg hbytes (Nat.cast_nonneg _)
  | nvme => exact le_rfl

/-! A tensor no token touches costs nothing. -/

theorem computeOf_eq_zero {t : TensorInfo} (h : bytesPerToken metadata t = 0) :
    computeOf a metadata hw t = 0 := by
  rw [computeOf_eq, h]
  cases a.tierOf t.name <;> simp

theorem diskBytes_eq_zero {t : TensorInfo} (h : bytesPerToken metadata t = 0) :
    diskBytes a metadata t = 0 := by
  rw [diskBytes, nvmeBytesPerToken_eq_zero h, ite_self]

theorem ioOf_eq_zero {t : TensorInfo} (h : bytesPerToken metadata t = 0) :
    ioOf a metadata hw t = 0 := by
  rw [ioOf_eq, diskBytes_eq_zero h, zero_div]

/-- One tensor adds its compute time, what the window leaves of its I/O time, and its bytes. -/
theorem addTensor_eq {prev : ℚ} (hprev : 0 ≤ prev) (acc : Estimator.LayerTotals ℚ) (t : TensorInfo) :
    Estimator.addTensor a metadata hw prev acc t =
      { layerComputeTime := acc.layerComputeTime + computeOf a metadata hw t
        layerIoTime := acc.layerIoTime + max (ioOf a metadata hw t - prev) 0
        totalNvmeBytesPerToken := acc.totalNvmeBytesPerToken + diskBytes a metadata t } := by
  rw [computeOf_eq, ioOf_eq]
  unfold diskBytes Estimator.addTensor
  cases htier : a.tierOf t.name with
  | gpu => simp [hprev, bytesPerToken]
  | ram => simp [hprev, bytesPerToken]
  | nvme =>
      simp only [effectiveFreq_eq, nvmeBytesPerToken, if_true, add_zero]
      generalize hio : (t.sizeBytes : ℚ) * effectiveIoFreq (TensorRole.fromName t.name)
        (estimateFreq metadata t) metadata.isMoe / nvmeBandwidth hw = io
      by_cases hlt : prev < io
      · rw [if_pos hlt, minF64, if_pos hlt, max_eq_left (by linarith)]
      · rw [if_neg hlt, max_eq_right (by linarith), add_zero]

/-- The loop over the tensors of a layer. -/
theorem foldl_addTensor {prev : ℚ} (hprev : 0 ≤ prev) (ts : List TensorInfo)
    (acc : Estimator.LayerTotals ℚ) :
    ts.foldl (Estimator.addTensor a metadata hw prev) acc =
      { layerComputeTime := acc.layerComputeTime + (ts.map (computeOf a metadata hw)).sum
        layerIoTime := acc.layerIoTime + exposed prev (ts.map (ioOf a metadata hw))
        totalNvmeBytesPerToken :=
          acc.totalNvmeBytesPerToken + (ts.map (diskBytes a metadata)).sum } := by
  induction ts generalizing acc with
  | nil => simp
  | cons t ts ih =>
      rw [List.foldl_cons, addTensor_eq hprev, ih]
      simp only [List.map_cons, List.sum_cons, exposed_cons, add_assoc]

theorem sum_filter_eq (p : TensorInfo → Bool) (f : TensorInfo → ℚ) (ts : List TensorInfo) :
    ((ts.filter p).map f).sum = (ts.map fun t => if p t then f t else 0).sum := by
  induction ts with
  | nil => rfl
  | cons t ts ih =>
      rw [List.filter_cons, List.map_cons, List.sum_cons, ← ih]
      by_cases hp : p t <;> simp [hp]

/-- A tensor that only one of two groupings finds must be one that costs nothing. -/
theorem sum_filter_congr {p q : TensorInfo → Bool} {f : TensorInfo → ℚ} {ts : List TensorInfo}
    (h : ∀ t ∈ ts, p t = q t ∨ f t = 0) : ((ts.filter p).map f).sum = ((ts.filter q).map f).sum := by
  rw [sum_filter_eq, sum_filter_eq]
  refine congrArg List.sum (List.map_congr_left fun t ht => ?_)
  rcases h t ht with hpq | hzero
  · rw [hpq]
  · rw [hzero, ite_self, ite_self]

end Loops

/-! ### Counting every tensor once -/

/-- Both groupings find every tensor a token touches: it carries the name of its layer, and
what is read from NVMe belongs to a layer of the model, or to none and is not an expert. -/
structure CountedOnce (tensors : List TensorInfo) (metadata : ModelMetadata) (a : Assignments) :
    Prop where
  named : ∀ t ∈ tensors, ∀ l < metadata.numLayers, t.layerIndex = some l →
    bytesPerToken metadata t ≠ 0 → startsWith t.name (Estimator.layerPrefix l) = true
  inLayer : ∀ t ∈ tensors, ∀ l, t.layerIndex = some l → a.tierOf t.name = .nvme →
    bytesPerToken metadata t ≠ 0 → l < metadata.numLayers
  outside : ∀ t ∈ tensors, t.layerIndex = none → a.tierOf t.name = .nvme →
    bytesPerToken metadata t ≠ 0 → metadata.isMoe = true → (TensorRole.fromName t.name).isExpert = false

section Counted
variable {a : Assignments} {tensors : List TensorInfo} {metadata : ModelMetadata}
  {hw : HardwareProfile}

/-- The tensors of a layer, as `quick_estimate` finds them. -/
def indexedTensors (tensors : List TensorInfo) (l : Nat) : List TensorInfo :=
  tensors.filter fun t => t.layerIndex = some l

theorem sum_namedTensors (hc : CountedOnce tensors metadata a)
    (hindex : ∀ t ∈ tensors, t.layerIndex = parseLayerIndex t.name) {l : Nat}
    (hl : l < metadata.numLayers) (hu32 : metadata.numLayers < 2 ^ 32) {f : TensorInfo → ℚ}
    (hf : ∀ t, bytesPerToken metadata t = 0 → f t = 0) :
    ((Estimator.namedTensors tensors l).map f).sum = ((indexedTensors tensors l).map f).sum := by
  refine sum_filter_congr fun t ht => ?_
  by_cases hzero : bytesPerToken metadata t = 0
  · exact .inr (hf t hzero)
  · refine .inl (Bool.eq_iff_iff.mpr ⟨fun hname => ?_, fun hidx => ?_⟩)
    · rw [decide_eq_true_iff, hindex t ht]
      exact parseLayerIndex_of_startsWith (by omega) hname
    · exact hc.named t ht l hl (of_decide_eq_true hidx) hzero

/-- The tensors of the layers below `n`, one layer after the other. -/
theorem sum_indexedTensors (f : TensorInfo → ℚ) (n : Nat) :
    ((List.range n).map fun l => ((indexedTensors tensors l).map f).sum).sum =
      ((tensors.filter fun t => t.layerIndex.any (· < n)).map f).sum := by
  induction n with
  | zero => simp
  | succ n ih =>
      rw [List.range_succ, List.map_append, List.sum_append, ih, List.map_singleton,
        List.sum_singleton, indexedTensors, sum_filter_eq, sum_filter_eq, sum_filter_eq,
        ← List.sum_map_add]
      refine congrArg List.sum (List.map_congr_left fun t _ => ?_)
      cases hidx : t.layerIndex with
      | none => simp
      | some l =>
          rcases lt_trichotomy l n with hlt | rfl | hgt
          · simp [hlt, hlt.ne, hlt.not_gt]
          · simp
          · simp [hgt.ne', hgt.not_gt, hgt.not_ge]

variable (a tensors metadata hw)

/-- The compute time of the layer before, which hides the reads of layer `l`. -/
abbrev window (l : Nat) : ℚ := prevCompute hw a (scoreTensors tensors metadata) l

/-- The time of one layer as `estimate_performance` computes it. -/
def windowTime (l : Nat) : ℚ :=
  max (layerCompute hw a (scoreTensors tensors metadata) l)
    (exposed (window a tensors metadata hw l) ((indexedTensors tensors l).map (ioOf a metadata hw)))

variable {a tensors metadata hw}

theorem layerCompute_eq (l : Nat) :
    layerCompute hw a (scoreTensors tensors metadata) l =
      ((indexedTensors tensors l).map (computeOf a metadata hw)).sum := by
  rw [layerCompute, layerTensors_scoreTensors, List.map_map]
  rfl

theorem layerIo_eq (l : Nat) :
    layerIo hw metadata a (scoreTensors tensors metadata) l =
      ((indexedTensors tensors l).map (ioOf a metadata hw)).sum := by
  rw [layerIo, layerTensors_scoreTensors, List.map_map]
  rfl

theorem layerCompute_nonneg (l : Nat) :
    0 ≤ layerCompute hw a (scoreTensors tensors metadata) l := by
  rw [layerCompute_eq]
  refine List.sum_nonneg fun x hx => ?_
  obtain ⟨t, -, rfl⟩ := List.mem_map.mp hx
  exact computeOf_nonneg t

theorem window_nonneg (l : Nat) : 0 ≤ window a tensors metadata hw l := by
  cases l with
  | zero => exact le_rfl
  | succ l => exact layerCompute_nonneg l

/-- One layer of the loop, entered with the compute time of the layer before. -/
theorem addLayer_eq (hc : CountedOnce tensors metadata a)
    (hindex : ∀ t ∈ tensors, t.layerIndex = parseLayerIndex t.name)
    (hu32 : metadata.numLayers < 2 ^ 32) {l : Nat} (hl : l < metadata.numLayers) (latency bytes : ℚ) :
    Estimator.addLayer a tensors metadata hw ⟨latency, bytes, window a tensors metadata hw l⟩ l =
      { totalLatency := latency + (windowTime a tensors metadata hw l + syncOverheadPerLayer)
        totalNvmeBytesPerToken := bytes + ((indexedTensors tensors l).map (diskBytes a metadata)).sum
        prevComputeTime := window a tensors metadata hw (l + 1) } := by
  have hnamed : ∀ f : TensorInfo → ℚ, (∀ t, bytesPerToken metadata t = 0 → f t = 0) →
      ((Estimator.namedTensors tensors l).map f).sum = ((indexedTensors tensors l).map f).sum :=
    fun f => sum_namedTensors hc hindex hl hu32
  have hwin : 0 ≤ window a tensors metadata hw l := window_nonneg l
  have hcompute := hnamed (computeOf a metadata hw) fun t => computeOf_eq_zero
  have hdisk := hnamed (diskBytes a metadata) fun t => diskBytes_eq_zero
  have hio : exposed (window a tensors metadata hw l)
      ((Estimator.namedTensors tensors l).map (ioOf a metadata hw)) =
      exposed (window a tensors metadata hw l)
        ((indexedTensors tensors l).map (ioOf a metadata hw)) := by
    rw [exposed, exposed, List.map_map, List.map_map]
    refine hnamed _ fun t ht => ?_
    rw [Function.comp_apply, ioOf_eq_zero ht]
    exact max_eq_right (by linarith)
  have hzero : (0.0 : ℚ) = 0 := by norm_num
  have hsync : (Estimator.syncOverhead : ℚ) = syncOverheadPerLayer := rfl
  rw [Estimator.addLayer, foldl_addTensor hwin]
  simp only [hzero, zero_add, hcompute, hdisk, hio, hsync, windowTime, layerCompute_eq, prevCompute]

/-- The loop over the layers. -/
theorem foldl_addLayer_estimate (hc : CountedOnce tensors metadata a)
    (hindex : ∀ t ∈ tensors, t.layerIndex = parseLayerIndex t.name)
    (hu32 : metadata.numLayers < 2 ^ 32) {n : Nat} (hn : n ≤ metadata.numLayers) :
    (List.range n).foldl (Estimator.addLayer a tensors metadata hw) ⟨0.0, 0.0, 0.0⟩ =
      { totalLatency := ((List.range n).map (windowTime a tensors metadata hw)).sum +
          n * syncOverheadPerLayer
        totalNvmeBytesPerToken := ((List.range n).map fun l =>
          ((indexedTensors tensors l).map (diskBytes a metadata)).sum).sum
        prevComputeTime := window a tensors metadata hw n } := by
  induction n with
  | zero => norm_num [prevCompute]
  | succ n ih =>
      rw [List.range_succ, List.foldl_append, ih (by omega), List.foldl_cons, List.foldl_nil,
        addLayer_eq hc hindex hu32 (by omega)]
      simp only [List.map_append, List.sum_append, List.map_singleton, List.sum_singleton,
        Nat.cast_add, Nat.cast_one, Estimator.Totals.mk.injEq, and_true]
      ring

/-- The loop over the tensors outside layers. -/
theorem foldl_addNonLayer (ts : List TensorInfo) (acc : ℚ × ℚ) :
    ts.foldl (Estimator.addNonLayer a metadata hw) acc =
      (acc.1 + (ts.map (nonLayerTransfer a metadata hw)).sum,
        acc.2 + (ts.map fun t =>
          if a.tierOf t.name = .nvme then bytesPerToken metadata t else 0).sum) := by
  induction ts generalizing acc with
  | nil => simp
  | cons t ts ih =>
      have hstep : Estimator.addNonLayer a metadata hw acc t =
          (acc.1 + nonLayerTransfer a metadata hw t,
            acc.2 + if a.tierOf t.name = .nvme then bytesPerToken metadata t else 0) := by
        unfold Estimator.addNonLayer nonLayerTransfer
        cases htier : a.tierOf t.name <;> simp [bytesPerToken]
      rw [List.foldl_cons, hstep, ih]
      simp only [List.map_cons, List.sum_cons, add_assoc]

/-- What is read of a tensor outside layers: no expert is among them. -/
theorem diskBytes_outside (hc : CountedOnce tensors metadata a) {t : TensorInfo} (ht : t ∈ tensors)
    (hnone : t.layerIndex = none) :
    (if a.tierOf t.name = .nvme then bytesPerToken metadata t else 0) = diskBytes a metadata t := by
  unfold diskBytes
  by_cases htier : a.tierOf t.name = .nvme
  · rw [if_pos htier, if_pos htier]
    by_cases hzero : bytesPerToken metadata t = 0
    · rw [hzero, nvmeBytesPerToken_eq_zero hzero]
    · have hrole := hc.outside t ht hnone htier hzero
      unfold nvmeBytesPerToken effectiveIoFreq
      cases hmoe : metadata.isMoe with
      | false => rfl
      | true =>
          rw [hrole hmoe]
          rfl
  · rw [if_neg htier, if_neg htier]

/-- Layer by layer and outside layers, every tensor on NVMe is counted once. -/
theorem sum_diskBytes (hc : CountedOnce tensors metadata a) :
    ((List.range metadata.numLayers).map fun l =>
        ((indexedTensors tensors l).map (diskBytes a metadata)).sum).sum +
      ((tensors.filter fun t => t.layerIndex.isNone).map fun t =>
        if a.tierOf t.name = .nvme then bytesPerToken metadata t else 0).sum =
      ((tensorsOn a tensors .nvme).map (nvmeBytesPerToken metadata)).sum := by
  rw [sum_indexedTensors, tensorsOn, sum_filter_eq, sum_filter_eq, sum_filter_eq, ← List.sum_map_add]
  refine congrArg List.sum (List.map_congr_left fun t ht => ?_)
  cases hidx : t.layerIndex with
  | none =>
      rw [diskBytes_outside hc ht hidx]
      simp [diskBytes]
  | some l =>
      by_cases hl : l < metadata.numLayers
      · simp [hl, diskBytes]
      · have hnot : ¬ a.tierOf t.name = .nvme ∨ nvmeBytesPerToken metadata t = 0 := by
          by_contra hcon
          rw [not_or, not_not] at hcon
          refine hl (hc.inLayer t ht l hidx hcon.1 fun hzero => hcon.2 ?_)
          exact nvmeBytesPerToken_eq_zero hzero
        rcases hnot with htier | hzero
        · simp [hl, htier]
        · simp [hl, hzero]

/-- **The totals of `estimate_performance`**, where every tensor is counted once. -/
theorem totals_eq (hc : CountedOnce tensors metadata a)
    (hindex : ∀ t ∈ tensors, t.layerIndex = parseLayerIndex t.name)
    (hu32 : metadata.numLayers < 2 ^ 32) :
    Estimator.totals a tensors metadata hw =
      (((List.range metadata.numLayers).map (windowTime a tensors metadata hw)).sum +
          metadata.numLayers * syncOverheadPerLayer + nonLayerTime hw a (scoreTensors tensors metadata),
        ((tensorsOn a tensors .nvme).map (nvmeBytesPerToken metadata)).sum) := by
  rw [Estimator.totals, foldl_addLayer_estimate hc hindex hu32 le_rfl, foldl_addNonLayer,
    nonLayerTime_eq, ← sum_diskBytes hc]

/-! ### Agreement -/

/-- The window before layer `l` is not used twice: nothing was computed before, or the reads
fit it and the layer's own compute time, or there is at most one read. -/
def WindowSuffices (a : Assignments) (tensors : List TensorInfo) (metadata : ModelMetadata)
    (hw : HardwareProfile) (l : Nat) : Prop :=
  window a tensors metadata hw l = 0 ∨
    layerIo hw metadata a (scoreTensors tensors metadata) l ≤
      window a tensors metadata hw l + layerCompute hw a (scoreTensors tensors metadata) l ∨
    ((indexedTensors tensors l).filter fun t => 0 < ioOf a metadata hw t).length ≤ 1

theorem windowTime_eq_iff (l : Nat) :
    windowTime a tensors metadata hw l = layerTime hw metadata a (scoreTensors tensors metadata) l ↔
      WindowSuffices a tensors metadata hw l := by
  have hio : ∀ x ∈ (indexedTensors tensors l).map (ioOf a metadata hw), 0 ≤ x := by
    intro x hx
    obtain ⟨t, -, rfl⟩ := List.mem_map.mp hx
    exact ioOf_nonneg t
  have hcount : (((indexedTensors tensors l).map (ioOf a metadata hw)).filter (0 < ·)).length =
      ((indexedTensors tensors l).filter fun t => 0 < ioOf a metadata hw t).length := by
    rw [List.filter_map, List.length_map]
    rfl
  rw [windowTime, layerTime, WindowSuffices, layerIo_eq, ← hcount]
  exact max_exposed_eq_iff (window_nonneg l) (layerCompute_nonneg l) hio

theorem windowTime_le (l : Nat) :
    windowTime a tensors metadata hw l ≤
      layerTime hw metadata a (scoreTensors tensors metadata) l := by
  rw [windowTime, layerTime, layerIo_eq]
  refine max_le_max_left _ (exposed_le (window_nonneg l) fun x hx => ?_)
  obtain ⟨t, -, rfl⟩ := List.mem_map.mp hx
  exact ioOf_nonneg t

theorem sum_eq_iff_of_le {f g : Nat → ℚ} {n : Nat} (h : ∀ l, f l ≤ g l) :
    ((List.range n).map f).sum = ((List.range n).map g).sum ↔ ∀ l < n, f l = g l := by
  have hsum : ∀ f : Nat → ℚ, ((List.range n).map f).sum = ∑ l ∈ Finset.range n, f l := fun _ => rfl
  rw [hsum, hsum, Finset.sum_eq_sum_iff_of_le fun l _ => h l]
  simp only [Finset.mem_range]

/-- Two latencies give the same number of tokens per second only if they are equal. -/
theorem tokPerSec_eq_iff {x y : ℚ} (hx : 0 ≤ x) (hy : 0 ≤ y) :
    (if (0.0 : ℚ) < x then (1.0 : ℚ) / x else 0.0) = (if (0.0 : ℚ) < y then (1.0 : ℚ) / y else 0.0) ↔
      x = y := by
  have hzero : (0.0 : ℚ) = 0 := by norm_num
  have hone : (1.0 : ℚ) = 1 := by norm_num
  rw [hzero, hone]
  rcases hx.eq_or_lt with rfl | hx <;> rcases hy.eq_or_lt with rfl | hy
  · simp
  · simp [hy, hy.ne]
  · simp [hx, hx.ne']
  · rw [if_pos hx, if_pos hy, one_div, one_div, inv_inj]

theorem nonLayerTime_nonneg : 0 ≤ nonLayerTime hw a (scoreTensors tensors metadata) := by
  rw [nonLayerTime_eq]
  refine List.sum_nonneg fun x hx => ?_
  obtain ⟨t, -, rfl⟩ := List.mem_map.mp hx
  have hbytes : (0 : ℚ) ≤ t.sizeBytes * estimateFreq metadata t :=
    mul_nonneg (Nat.cast_nonneg _) (estimateFreq_nonneg metadata t)
  unfold nonLayerTransfer
  cases a.tierOf t.name with
  | gpu => exact div_nonneg hbytes (bandwidth_nonneg hw).1
  | ram => exact div_nonneg hbytes (Nat.cast_nonneg _)
  | nvme => exact div_nonneg hbytes (bandwidth_nonneg hw).2

theorem syncOverhead_nonneg (n : Nat) : (0 : ℚ) ≤ n * syncOverheadPerLayer := by
  unfold syncOverheadPerLayer
  positivity

/-- A sum over layers of times that are not negative, with the other parts of a latency. -/
theorem latency_nonneg {f : Nat → ℚ} (hf : ∀ l, 0 ≤ f l) (n : Nat) :
    0 ≤ ((List.range n).map f).sum + n * syncOverheadPerLayer +
      nonLayerTime hw a (scoreTensors tensors metadata) := by
  have hsum : 0 ≤ ((List.range n).map f).sum := by
    refine List.sum_nonneg fun x hx => ?_
    obtain ⟨l, -, rfl⟩ := List.mem_map.mp hx
    exact hf l
  have hrest : 0 ≤ nonLayerTime hw a (scoreTensors tensors metadata) := nonLayerTime_nonneg
  linarith [syncOverhead_nonneg n]

end Counted

/-- The estimate of a plan agrees with the plan's own, and counts what is read from NVMe:
over all tensors on it, size times effective access frequency, in whole bytes. -/
structure EstimatesAgree (model : GgufFile) (metadata : ModelMetadata) (hw : HardwareProfile)
    (placement : PlacementPlan ℚ) : Prop where
  tokPerSec : (estimatePerformance model metadata hw placement).estimatedTokPerSecInteractive =
    quickEstimate placement.tierAssignments model.tensors metadata hw
  diskRead : (estimatePerformance model metadata hw placement).diskReadPerTokenBytes =
    F64.toU64 ((tensorsOn placement.tierAssignments model.tensors .nvme).map
      (nvmeBytesPerToken metadata)).sum

/-- **The two estimates agree exactly when no layer uses its window twice**, on every model
whose tensors both of them count. -/
theorem estimatePerformance_agrees_iff {bytes : List UInt8} {model : GgufFile}
    (hparse : GgufFile.parse bytes = .ok model) (metadata : ModelMetadata)
    (hu32 : metadata.numLayers < 2 ^ 32) (hw : HardwareProfile) (placement : PlacementPlan ℚ)
    (hc : CountedOnce model.tensors metadata placement.tierAssignments) :
    EstimatesAgree model metadata hw placement ↔
      ∀ l < metadata.numLayers,
        WindowSuffices placement.tierAssignments model.tensors metadata hw l := by
  have hindex : ∀ t ∈ model.tensors, t.layerIndex = parseLayerIndex t.name :=
    fun t ht => layerIndex_of_parse hparse ht
  have htotals : Estimator.totals placement.tierAssignments model.tensors metadata hw = _ :=
    totals_eq hc hindex hu32
  have hwindow : ∀ l, 0 ≤ windowTime placement.tierAssignments model.tensors metadata hw l :=
    fun l => le_max_of_le_left (layerCompute_nonneg l)
  have hlayer : ∀ l, 0 ≤ layerTime hw metadata placement.tierAssignments
      (scoreTensors model.tensors metadata) l :=
    fun l => le_max_of_le_left (layerCompute_nonneg l)
  -- the sync overheads and the tensors outside layers are the same on both sides
  have htps : (estimatePerformance model metadata hw placement).estimatedTokPerSecInteractive =
      quickEstimate placement.tierAssignments model.tensors metadata hw ↔
        ∀ l < metadata.numLayers,
          WindowSuffices placement.tierAssignments model.tensors metadata hw l := by
    unfold estimatePerformance quickEstimate
    rw [htotals, estimateLatency_eq]
    refine (tokPerSec_eq_iff (latency_nonneg hwindow _) (latency_nonneg hlayer _)).trans ?_
    rw [add_left_inj, add_left_inj, sum_eq_iff_of_le windowTime_le]
    exact forall₂_congr fun l _ => windowTime_eq_iff l
  constructor
  · exact fun h => htps.mp h.tokPerSec
  · intro h
    refine ⟨htps.mpr h, ?_⟩
    unfold estimatePerformance
    rw [htotals]

/-! A model of two layers: one tensor that computes for a second on the GPU, then two that
take a second each to read. -/

def twoReadsHeader : WireHeader where
  version := 3
  kvs := []
  tensors :=
    [{ name := "blk.0.attn_q.weight", dims := [1], dtype := 0, offset := 0 },
      { name := "blk.1.attn_q.weight", dims := [1], dtype := 0, offset := 4 },
      { name := "blk.1.attn_k.weight", dims := [1], dtype := 0, offset := 8 }]

def twoReadsMetadata : ModelMetadata where
  architecture := "llama"
  contextLength := 4096
  embeddingDim := 4096
  numLayers := 2
  numHeads := 32
  numKvHeads := 32
  isMoe := false
  numExperts := none
  numExpertsUsed := none

/-- Four bytes a second everywhere. -/
def slowMachine : HardwareProfile where
  memory := { totalBytes := 16 * 2 ^ 30, bandwidthBytesPerSec := 4 }
  gpu := some { vramBytes := 12 * 2 ^ 30, bandwidthBytesPerSec := 4 }
  storage := [{ peakSequential := 4 }]

/-- The first layer on the GPU; what has no assignment is on NVMe. -/
def twoReadsPlan : PlacementPlan ℚ where
  tierAssignments := AList.insert "blk.0.attn_q.weight" StorageTier.gpu ∅
  estimatedTokPerSec := 0
  kvCachePlan := computeKvCachePlan twoReadsMetadata 4096
    (computeTierCapacities slowMachine twoReadsMetadata 4096)
  experienceTier := .slow
  inferenceMode := .fullStreaming

theorem twoReads_parse : GgufFile.parse twoReadsHeader.encode = .ok twoReadsHeader.parsed := by
  have hnames : ∀ t ∈ twoReadsHeader.tensors, t.Readable := by decide +kernel
  simpa using parse_encode ⟨.inr rfl, by decide, by decide, by simp [twoReadsHeader], hnames⟩ []

/-- On this model the two estimates agree exactly when no window is used twice. -/
theorem twoReads_agrees_iff :
    EstimatesAgree twoReadsHeader.parsed twoReadsMetadata slowMachine twoReadsPlan ↔
      ∀ l < 2, WindowSuffices twoReadsPlan.tierAssignments twoReadsHeader.parsed.tensors
        twoReadsMetadata slowMachine l := by
  have hnamed : ∀ t ∈ twoReadsHeader.parsed.tensors, ∀ l < 2, t.layerIndex = some l →
      startsWith t.name (Estimator.layerPrefix l) = true := by decide +kernel
  have hindex : ∀ t ∈ twoReadsHeader.parsed.tensors, ∃ l < 2, t.layerIndex = some l := by
    decide +kernel
  refine estimatePerformance_agrees_iff twoReads_parse twoReadsMetadata (by decide) slowMachine
    twoReadsPlan ⟨fun t ht l hl hidx _ => hnamed t ht l hl hidx, ?_, ?_⟩
  · intro t ht l hidx _ _
    obtain ⟨l', hl', hidx'⟩ := hindex t ht
    rw [hidx] at hidx'
    exact Option.some.inj hidx' ▸ hl'
  · intro t ht hnone
    obtain ⟨l', -, hidx'⟩ := hindex t ht
    rw [hnone] at hidx'
    cases hidx'

/-- They do not: the second read hides behind the second that the first one used up. -/
theorem twoReads_not_agree :
    GgufFile.parse twoReadsHeader.encode = .ok twoReadsHeader.parsed ∧
      ¬ EstimatesAgree twoReadsHeader.parsed twoReadsMetadata slowMachine twoReadsPlan := by
  refine ⟨twoReads_parse, fun h => ?_⟩
  exact absurd h.tokPerSec (by decide +kernel)

end Hypura
