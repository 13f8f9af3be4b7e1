import Hypura.Core.Tally
import Hypura.Rust.Int
import Hypura.Compute.PoolActivation
import Hypura.Scheduler.Types

/-!
# Hypura.Compute.GpuLayers

How many layers are offloaded to the GPU (`gpu_layers_from_placement`,
`compute/inference.rs`): as many as lie before the first layer on NVMe and fit in the
budget, and one more for the output layer.

The offloaded prefix of the layers is safe and cannot be extended
(`gpuLayersFromPlacement_offload`). What is streamed in the current mode counts for neither.
-/

namespace Hypura

open Hypura.Core Hypura.Rust

/-- The tensors that the two streaming modes keep off the GPU budget. -/
def InferenceMode.isStreamed (mode : InferenceMode) (role : TensorRole) : Bool :=
  (mode = .expertStreaming && role.isFusedExperts) ||
    (mode = .denseFfnStreaming && role.isDenseFfn)

section Source
variable {F : Type} (plan : PlacementPlan F) (gguf : GgufFile)

/-- The plan puts the tensor on NVMe. -/
def PlacementPlan.onNvme (t : TensorInfo) : Bool := plan.tierAssignments.lookup t.name = some .nvme

/-- What the loop over the tensors accumulates. -/
structure LayerScan where
  maxLayer : Int
  firstNvmeLayer : Option Nat
  /-- Per-layer sizes, without what is streamed. -/
  layerSizes : Tally

/-- One tensor. -/
def scanTensor (s : LayerScan) (t : TensorInfo) : LayerScan :=
  match t.layerIndex with
  | none => s
  | some layerIdx =>
    let s := { s with maxLayer := max s.maxLayer (asI32 layerIdx) }
    if plan.inferenceMode.isStreamed (.fromName t.name) then s
    else
      let s := { s with layerSizes := s.layerSizes.add layerIdx t.sizeBytes }
      if plan.onNvme t then
        { s with firstNvmeLayer := some (s.firstNvmeLayer.elim layerIdx (min · layerIdx)) }
      else s

/-- The loop over the layers: it stops at the first that does not fit. -/
def maxFitting (budget : Nat) : Nat → Int → Tally → Int
  | _, fitting, [] => fitting
  | cumulative, fitting, (layerIdx, size) :: layers =>
    if cumulative + size ≤ budget then
      maxFitting budget (cumulative + size) (asI32 layerIdx + 1) layers
    else fitting

/-- The bytes of the tensors outside layers. -/
def nonLayerBytes : Nat :=
  ((gguf.tensors.filter fun t => t.layerIndex.isNone).map (·.sizeBytes)).sum

/-- `gpu_layers_from_placement`. -/
def gpuLayersFromPlacement (gpuBudgetBytes : Nat) : Int :=
  if plan.inferenceMode = .sparseMoeMmap then
    if gguf.totalTensorBytes ≤ gpuBudgetBytes then
      asI32 (((gguf.tensors.filterMap (·.layerIndex)).max?).getD 0) + 1 + 1
    else 0
  else
    let s := gguf.tensors.foldl (scanTensor plan) ⟨-1, none, []⟩
    if s.maxLayer < 0 then 0
    else
      let fromNvme := s.firstNvmeLayer.elim (s.maxLayer + 1 + 1) fun nvmeStart =>
        asI32 nvmeStart + 1
      -- +1 for the output layer llama.cpp counts separately
      let fromCapacity := maxFitting gpuBudgetBytes (nonLayerBytes gguf) 0 s.layerSizes + 1
      min fromNvme fromCapacity

/-! ### What the loops compute -/

/-- The layered tensors of a list, without what is streamed. -/
def counted (mode : InferenceMode) (ts : List TensorInfo) : List TensorInfo :=
  ts.filter fun t => t.layerIndex.isSome && !mode.isStreamed (.fromName t.name)

/-- The bytes of the tensors outside layers and of the counted tensors of layers below `k`. -/
def bytesBelow (k : Nat) : Nat :=
  nonLayerBytes gguf + (((counted plan.inferenceMode gguf.tensors).filter fun t =>
    t.layerIndex.any (· < k)).map (·.sizeBytes)).sum

end Source

section Scan
variable {F : Type} {plan : PlacementPlan F} {ts : List TensorInfo} {s : LayerScan} {t : TensorInfo}

/-- What the first loop knows after the tensors `ts`. -/
structure LayerScan.Of (plan : PlacementPlan F) (ts : List TensorInfo) (s : LayerScan) : Prop where
  maxLayer : ∀ t ∈ ts, ∀ l, t.layerIndex = some l → (l : Int) ≤ s.maxLayer
  nvme_none : s.firstNvmeLayer = none → ∀ t ∈ counted plan.inferenceMode ts, ¬ plan.onNvme t
  nvme_some : ∀ first, s.firstNvmeLayer = some first →
    ∃ t ∈ counted plan.inferenceMode ts, t.layerIndex = some first ∧ plan.onNvme t
  nvme_least : ∀ first, s.firstNvmeLayer = some first →
    ∀ t ∈ counted plan.inferenceMode ts, ∀ l, t.layerIndex = some l → plan.onNvme t → first ≤ l
  ascending : s.layerSizes.Ascending
  keys : ∀ l, (∃ e ∈ s.layerSizes, e.1 = l) ↔
    ∃ t ∈ counted plan.inferenceMode ts, t.layerIndex = some l
  sizes : ∀ k, s.layerSizes.below k = (((counted plan.inferenceMode ts).filter fun t =>
    t.layerIndex.any (· < k)).map (·.sizeBytes)).sum

/-- A tensor is counted after those before it, if it counts. -/
theorem counted_concat (mode : InferenceMode) (ts : List TensorInfo) (t : TensorInfo) :
    counted mode (ts ++ [t]) =
      if t.layerIndex.isSome && !mode.isStreamed (.fromName t.name) then counted mode ts ++ [t]
      else counted mode ts := by
  simp only [counted, List.filter_append, List.filter_singleton, Bool.cond_eq_ite]
  split
  · rfl
  · exact List.append_nil _

theorem LayerScan.of_nil (plan : PlacementPlan F) : LayerScan.Of plan [] ⟨-1, none, []⟩ where
  maxLayer := nofun
  nvme_none _ := nofun
  nvme_some := nofun
  nvme_least := nofun
  ascending := List.Pairwise.nil
  keys l := by simp [counted]
  sizes k := rfl

namespace LayerScan.Of
variable {l : Nat}

theorem maxLayer_concat (h : s.Of plan ts) (hl : t.layerIndex = some l) (hlt : l < 2 ^ 31) :
    ∀ t' ∈ ts ++ [t], ∀ l', t'.layerIndex = some l' → (l' : Int) ≤ max s.maxLayer (asI32 l) := by
  intro t' ht' l' hl'
  rcases List.mem_append.mp ht' with ht' | ht'
  · exact (h.maxLayer t' ht' l' hl').trans (le_max_left _ _)
  · rw [List.mem_singleton.mp ht', hl] at hl'
    cases hl'
    rw [asI32_eq hlt]
    exact le_max_right _ _

/-- A tensor that does not count leaves what is known of the others. -/
theorem uncounted (h : s.Of plan ts)
    (hskip : counted plan.inferenceMode (ts ++ [t]) = counted plan.inferenceMode ts) {maxLayer : Int}
    (hmax : ∀ t' ∈ ts ++ [t], ∀ l', t'.layerIndex = some l' → (l' : Int) ≤ maxLayer) :
    LayerScan.Of plan (ts ++ [t]) { s with maxLayer := maxLayer } :=
  ⟨hmax, hskip ▸ h.nvme_none, hskip ▸ h.nvme_some, hskip ▸ h.nvme_least, h.ascending,
    hskip ▸ h.keys, hskip ▸ h.sizes⟩

section Counted
variable (h : s.Of plan ts) (hl : t.layerIndex = some l)
  (hcounted : counted plan.inferenceMode (ts ++ [t]) = counted plan.inferenceMode ts ++ [t])
include h hl hcounted

theorem keys_concat (l' : Nat) : (∃ e ∈ s.layerSizes.add l t.sizeBytes, e.1 = l') ↔
    ∃ t' ∈ counted plan.inferenceMode (ts ++ [t]), t'.layerIndex = some l' := by
  rw [Tally.mem_keys_add, h.keys, hcounted]
  simp only [List.mem_append, List.mem_singleton, or_and_right, exists_or, exists_eq_left, hl,
    Option.some.injEq]
  rw [or_comm, eq_comm]

theorem sizes_concat (k : Nat) : (s.layerSizes.add l t.sizeBytes).below k =
    (((counted plan.inferenceMode (ts ++ [t])).filter fun t' =>
      t'.layerIndex.any (· < k)).map (·.sizeBytes)).sum := by
  rw [Tally.below_add, h.sizes, hcounted, List.filter_append, List.map_append, List.sum_append]
  by_cases hk : l < k
  · simp [hl, hk]
  · simp [hl, hk]

/-- The new first layer is that of a tensor. -/
theorem nvme_some_concat (hnvme : plan.onNvme t) {first : Nat}
    (hfirst : s.firstNvmeLayer.elim l (min · l) = first) :
    ∃ t' ∈ counted plan.inferenceMode (ts ++ [t]), t'.layerIndex = some first ∧ plan.onNvme t' := by
  have hnew : t ∈ counted plan.inferenceMode (ts ++ [t]) := by simp [hcounted]
  cases hold : s.firstNvmeLayer with
  | none =>
      rw [hold, Option.elim_none] at hfirst
      exact ⟨t, hnew, hl.trans (congrArg some hfirst), hnvme⟩
  | some existing =>
      rw [hold, Option.elim_some] at hfirst
      rcases min_choice existing l with hmin | hmin
      · obtain ⟨t', ht', hl', hon⟩ := h.nvme_some existing hold
        exact ⟨t', hcounted ▸ List.mem_append_left _ ht',
          hl'.trans (congrArg some (hmin.symm.trans hfirst)), hon⟩
      · exact ⟨t, hnew, hl.trans (congrArg some (hmin.symm.trans hfirst)), hnvme⟩

/-- No tensor on NVMe lies before the new first layer. -/
theorem nvme_least_concat {first : Nat} (hfirst : s.firstNvmeLayer.elim l (min · l) = first)
    {t' : TensorInfo} (ht' : t' ∈ counted plan.inferenceMode (ts ++ [t])) {l' : Nat}
    (hl' : t'.layerIndex = some l') (hon : plan.onNvme t') : first ≤ l' := by
  rw [hcounted] at ht'
  cases hold : s.firstNvmeLayer with
  | none =>
      rw [hold, Option.elim_none] at hfirst
      rcases List.mem_append.mp ht' with ht' | ht'
      · exact absurd hon (h.nvme_none hold t' ht')
      · rw [List.mem_singleton.mp ht', hl] at hl'
        exact (hfirst.symm.trans (Option.some.inj hl')).le
  | some existing =>
      rw [hold, Option.elim_some] at hfirst
      rw [← hfirst]
      rcases List.mem_append.mp ht' with ht' | ht'
      · exact (min_le_left _ _).trans (h.nvme_least existing hold t' ht' l' hl' hon)
      · rw [List.mem_singleton.mp ht', hl] at hl'
        exact (min_le_right _ _).trans (Option.some.inj hl').le

/-- A counted tensor on NVMe. -/
theorem counted_onNvme (hlt : l < 2 ^ 31) (hnvme : plan.onNvme t) :
    LayerScan.Of plan (ts ++ [t]) ⟨max s.maxLayer (asI32 l),
      some (s.firstNvmeLayer.elim l (min · l)), s.layerSizes.add l t.sizeBytes⟩ where
  maxLayer := h.maxLayer_concat hl hlt
  nvme_none := nofun
  nvme_some _ hfirst := h.nvme_some_concat hl hcounted hnvme (Option.some.inj hfirst)
  nvme_least _ hfirst _ ht' _ hl' hon :=
    h.nvme_least_concat hl hcounted (Option.some.inj hfirst) ht' hl' hon
  ascending := h.ascending.add _ _
  keys := h.keys_concat hl hcounted
  sizes := h.sizes_concat hl hcounted

/-- A counted tensor that is not on NVMe. -/
theorem counted_resident (hlt : l < 2 ^ 31) (hnvme : ¬ plan.onNvme t) :
    LayerScan.Of plan (ts ++ [t]) ⟨max s.maxLayer (asI32 l), s.firstNvmeLayer,
      s.layerSizes.add l t.sizeBytes⟩ where
  maxLayer := h.maxLayer_concat hl hlt
  nvme_none hnone t' ht' := by
    rw [hcounted] at ht'
    rcases List.mem_append.mp ht' with ht' | ht'
    · exact h.nvme_none hnone t' ht'
    · rwa [List.mem_singleton.mp ht']
  nvme_some first hfirst := by
    obtain ⟨t', ht', hrest⟩ := h.nvme_some first hfirst
    exact ⟨t', hcounted ▸ List.mem_append_left _ ht', hrest⟩
  nvme_least first hfirst t' ht' l' hl' hon := by
    rw [hcounted] at ht'
    rcases List.mem_append.mp ht' with ht' | ht'
    · exact h.nvme_least first hfirst t' ht' l' hl' hon
    · rw [List.mem_singleton.mp ht'] at hon
      exact absurd hon hnvme
  ascending := h.ascending.add _ _
  keys := h.keys_concat hl hcounted
  sizes := h.sizes_concat hl hcounted

end Counted

/-- One tensor of the first loop. -/
theorem scanTensor (h : s.Of plan ts) (hlt : ∀ l, t.layerIndex = some l → l < 2 ^ 31 - 2) :
    (scanTensor plan s t).Of plan (ts ++ [t]) := by
  cases hl : t.layerIndex with
  | none =>
      have hsame : Hypura.scanTensor plan s t = s := by rw [Hypura.scanTensor, hl]
      rw [hsame]
      refine h.uncounted ((counted_concat ..).trans (if_neg (by simp [hl]))) fun t' ht' l' hl' => ?_
      rcases List.mem_append.mp ht' with ht' | ht'
      · exact h.maxLayer t' ht' l' hl'
      · rw [List.mem_singleton.mp ht', hl] at hl'
        cases hl'
  | some l =>
      have hl31 : l < 2 ^ 31 := (hlt l hl).trans_le (by omega)
      by_cases hstreamed : plan.inferenceMode.isStreamed (.fromName t.name)
      · have hskip := (counted_concat plan.inferenceMode ts t).trans (if_neg (by simp [hstreamed]))
        simp only [Hypura.scanTensor, hl, if_pos hstreamed]
        exact h.uncounted hskip (h.maxLayer_concat hl hl31)
      · have hcounted := (counted_concat plan.inferenceMode ts t).trans
          (if_pos (by simp [hl, hstreamed]))
        simp only [Hypura.scanTensor, hl, if_neg hstreamed]
        by_cases hnvme : plan.onNvme t
        · rw [if_pos hnvme]
          exact h.counted_onNvme hl hcounted hl31 hnvme
        · rw [if_neg hnvme]
          exact h.counted_resident hl hcounted hl31 hnvme

end LayerScan.Of

/-- The first loop, over all tensors. -/
theorem scan_of {plan : PlacementPlan F} {ts : List TensorInfo}
    (hlt : ∀ t ∈ ts, ∀ l, t.layerIndex = some l → l < 2 ^ 31 - 2) :
    (ts.foldl (scanTensor plan) ⟨-1, none, []⟩).Of plan ts := by
  induction ts using List.reverseRecOn with
  | nil => exact LayerScan.of_nil plan
  | append_singleton ts t ih =>
      rw [List.foldl_append]
      exact (ih fun t' ht' => hlt t' (List.mem_append_left _ ht')).scanTensor
        (hlt t (List.mem_append_right _ List.mem_cons_self))

/-- **The loop over the layers** ends at the start, or after a layer that fits; and the next
layer, if there is one, does not. -/
theorem maxFitting_spec (budget : Nat) {layers : Tally} (hasc : layers.Ascending)
    (hlt : ∀ e ∈ layers, e.1 < 2 ^ 31 - 2) (cumulative fitting : Nat)
    (hstart : ∀ e ∈ layers, fitting ≤ e.1) :
    ∃ r : Nat, maxFitting budget cumulative fitting layers = r ∧ fitting ≤ r ∧
      (r = fitting ∨ cumulative + layers.below r ≤ budget) ∧
      ∀ e ∈ layers, r ≤ e.1 → (∀ e' ∈ layers, r ≤ e'.1 → e.1 ≤ e'.1) →
        budget < cumulative + layers.below (e.1 + 1) := by
  induction layers generalizing cumulative fitting with
  | nil => exact ⟨fitting, rfl, le_rfl, .inl rfl, nofun⟩
  | cons head layers ih =>
      obtain ⟨l, size⟩ := head
      obtain ⟨hhead, hasc⟩ := List.pairwise_cons.mp hasc
      have hcast : asI32 l + 1 = ((l + 1 : Nat) : Int) := by
        rw [asI32_eq (by have := hlt _ List.mem_cons_self; simp only at this; omega)]
        rfl
      rw [maxFitting]
      split
      · next hfits =>
          obtain ⟨r, hr, hle, hbudget, hnext⟩ := ih hasc (fun e he => hlt e (List.mem_cons_of_mem _ he))
            (cumulative + size) (l + 1) hhead
          have hstep : ∀ b, l + 1 ≤ b → cumulative + Tally.below ((l, size) :: layers) b =
              cumulative + size + Tally.below layers b := by
            intro b hb
            have hcons := Tally.below_cons_of_lt (m := layers) (e := (l, size)) (b := b) hb
            simp only at hcons
            exact (congrArg (cumulative + ·) hcons).trans (Nat.add_assoc ..).symm
          refine ⟨r, by rw [hcast]; exact hr, ?_, ?_, fun e he hre hleast => ?_⟩
          · have := hstart _ List.mem_cons_self
            simp only at this
            omega
          · right
            rw [hstep r hle]
            rcases hbudget with rfl | hbudget
            · rw [Tally.below_eq_zero fun e he => hhead e he]
              exact hfits
            · exact hbudget
          · rcases List.mem_cons.mp he with rfl | he
            · simp only at hre
              omega
            · have hlast := hhead e he
              simp only at hlast
              rw [hstep _ (by omega)]
              exact hnext e he hre fun e' he' => hleast e' (List.mem_cons_of_mem _ he')
      · next hfull =>
          refine ⟨fitting, rfl, le_rfl, .inl rfl, fun e he hre hleast => ?_⟩
          have hle := hleast (l, size) List.mem_cons_self (hstart _ List.mem_cons_self)
          rcases List.mem_cons.mp he with rfl | he
          · rw [Tally.below_cons_of_lt (Nat.lt_succ_self l)]
            simp only at hle ⊢
            omega
          · have hlast := hhead e he
            simp only at hlast hle
            omega

/-! ### The offloaded prefix -/

/-- The layers below `k` can be offloaded: they have no counted tensor on NVMe, and they fit
with the tensors outside layers. -/
structure Offloadable (plan : PlacementPlan F) (gguf : GgufFile) (budget k : Nat) : Prop where
  resident : ∀ t ∈ counted plan.inferenceMode gguf.tensors, ∀ l, t.layerIndex = some l → l < k →
    ¬ plan.onNvme t
  fits : bytesBelow plan gguf k ≤ budget

/-- With `n` layers to offload, the first `n - 1` are model layers. -/
structure OffloadSpec (plan : PlacementPlan F) (gguf : GgufFile) (budget : Nat) (n : Int) : Prop where
  resident : ∀ t ∈ counted plan.inferenceMode gguf.tensors, ∀ l, t.layerIndex = some l →
    (l : Int) < n - 1 → ¬ plan.onNvme t
  fits : 2 ≤ n → bytesBelow plan gguf (n - 1).toNat ≤ budget
  /-- Not with the next layer that has counted tensors. -/
  maximal : ∀ t ∈ counted plan.inferenceMode gguf.tensors, ∀ l, t.layerIndex = some l → n - 1 ≤ l →
    (∀ t' ∈ counted plan.inferenceMode gguf.tensors, ∀ l', t'.layerIndex = some l' →
      n - 1 ≤ l' → l ≤ l') → ¬ Offloadable plan gguf budget (l + 1)

/-- More layers have more bytes. -/
theorem bytesBelow_mono (plan : PlacementPlan F) (gguf : GgufFile) {k k' : Nat} (h : k ≤ k') :
    bytesBelow plan gguf k ≤ bytesBelow plan gguf k' := by
  refine Nat.add_le_add_left (List.Sublist.sum_le_sum (List.Sublist.map _ ?_) fun _ _ => Nat.zero_le _) _
  refine List.monotone_filter_right _ fun t ht => ?_
  rw [Option.any_eq_true] at ht ⊢
  obtain ⟨l, hl, hlt⟩ := ht
  exact ⟨l, hl, decide_eq_true (lt_of_lt_of_le (of_decide_eq_true hlt) h)⟩

/-- No layer below `k` has a counted tensor on NVMe, and layer `k` has one unless all counted
tensors are below it. -/
structure NvmeStart (plan : PlacementPlan F) (gguf : GgufFile) (k : Nat) : Prop where
  resident : ∀ t ∈ counted plan.inferenceMode gguf.tensors, ∀ l, t.layerIndex = some l → l < k →
    ¬ plan.onNvme t
  onNvme : ∀ t ∈ counted plan.inferenceMode gguf.tensors, ∀ l, t.layerIndex = some l → k ≤ l →
    ∃ t' ∈ counted plan.inferenceMode gguf.tensors, t'.layerIndex = some k ∧ plan.onNvme t'

/-- The layers below `r` fit the budget, and not with the next layer that has counted tensors. -/
structure Capacity (plan : PlacementPlan F) (gguf : GgufFile) (budget r : Nat) : Prop where
  fits : r = 0 ∨ bytesBelow plan gguf r ≤ budget
  next : ∀ t ∈ counted plan.inferenceMode gguf.tensors, ∀ l, t.layerIndex = some l → r ≤ l →
    (∀ t' ∈ counted plan.inferenceMode gguf.tensors, ∀ l', t'.layerIndex = some l' → r ≤ l' →
      l ≤ l') → budget < bytesBelow plan gguf (l + 1)

/-- What the first loop says of NVMe gives the cap of the NVMe layers. -/
theorem LayerScan.Of.nvmeStart {gguf : GgufFile} (h : s.Of plan gguf.tensors)
    (hlt : ∀ t ∈ gguf.tensors, ∀ l, t.layerIndex = some l → l < 2 ^ 31 - 2)
    (hlayers : 0 ≤ s.maxLayer) :
    ∃ k : Nat, s.firstNvmeLayer.elim (s.maxLayer + 1 + 1)
      (fun nvmeStart => asI32 nvmeStart + 1) = k + 1 ∧ NvmeStart plan gguf k := by
  have hmem : ∀ t ∈ counted plan.inferenceMode gguf.tensors, t ∈ gguf.tensors :=
    fun t ht => (List.mem_filter.mp ht).1
  cases hfirst : s.firstNvmeLayer with
  | none =>
      refine ⟨(s.maxLayer + 1).toNat, ?_, fun t ht _ _ _ => h.nvme_none hfirst t ht,
        fun t ht l hl hle => ?_⟩
      · rw [Option.elim_none, Int.toNat_of_nonneg (by omega)]
      · have := h.maxLayer t (hmem t ht) l hl
        omega
  | some first =>
      obtain ⟨t, ht, hl, hon⟩ := h.nvme_some first hfirst
      refine ⟨first, ?_, fun t' ht' l' hl' hlt' hon' => ?_, fun _ _ _ _ _ => ⟨t, ht, hl, hon⟩⟩
      · have := hlt t (hmem t ht) first hl
        rw [Option.elim_some, asI32_eq (by omega)]
      · exact absurd (h.nvme_least first hfirst t' ht' l' hl' hon') (by omega)

/-- The loop over the layers gives the cap of the budget. -/
theorem LayerScan.Of.capacity {gguf : GgufFile} (h : s.Of plan gguf.tensors)
    (hlt : ∀ t ∈ gguf.tensors, ∀ l, t.layerIndex = some l → l < 2 ^ 31 - 2) (budget : Nat) :
    ∃ r : Nat, maxFitting budget (nonLayerBytes gguf) 0 s.layerSizes = r ∧
      Capacity plan gguf budget r := by
  have hkey : ∀ e ∈ s.layerSizes, ∃ t ∈ counted plan.inferenceMode gguf.tensors,
      t.layerIndex = some e.1 := fun e he => (h.keys e.1).mp ⟨e, he, rfl⟩
  have hbytes : ∀ k, nonLayerBytes gguf + s.layerSizes.below k = bytesBelow plan gguf k :=
    fun k => by rw [h.sizes, bytesBelow]
  obtain ⟨r, hr, _, hbudget, hnext⟩ := maxFitting_spec budget h.ascending (fun e he => by
    obtain ⟨t, ht, hl⟩ := hkey e he
    exact hlt t (List.mem_filter.mp ht).1 e.1 hl) (nonLayerBytes gguf) 0 fun _ _ => Nat.zero_le _
  refine ⟨r, hr, hbytes r ▸ hbudget, fun t ht l hl hle hleast => ?_⟩
  obtain ⟨e, he, rfl⟩ := (h.keys l).mpr ⟨t, ht, hl⟩
  rw [← hbytes]
  refine hnext e he hle fun e' he' hre' => ?_
  obtain ⟨t', ht', hl'⟩ := hkey e' he'
  exact hleast t' ht' e'.1 hl' hre'

/-- With layered tensors, the two caps bound the model layers and one is added for the output
layer; without, nothing is offloaded. -/
theorem gpuLayersFromPlacement_cases (plan : PlacementPlan F) (gguf : GgufFile) (budget : Nat)
    (hlt : ∀ t ∈ gguf.tensors, ∀ l, t.layerIndex = some l → l < 2 ^ 31 - 2)
    (hmode : plan.inferenceMode ≠ .sparseMoeMmap) :
    (gpuLayersFromPlacement plan gguf budget = 0 ∧ ∀ t ∈ gguf.tensors, t.layerIndex = none) ∨
      ∃ k r : Nat, gpuLayersFromPlacement plan gguf budget = (min k r : Nat) + 1 ∧
        NvmeStart plan gguf k ∧ Capacity plan gguf budget r := by
  have hscan : (gguf.tensors.foldl (scanTensor plan) ⟨-1, none, []⟩).Of plan gguf.tensors :=
    scan_of hlt
  rw [gpuLayersFromPlacement, if_neg hmode]
  generalize gguf.tensors.foldl (scanTensor plan) ⟨-1, none, []⟩ = s at hscan ⊢
  simp only
  split
  · next hnone =>
      refine .inl ⟨rfl, fun t ht => Option.eq_none_iff_forall_not_mem.mpr fun l hl => ?_⟩
      have := hscan.maxLayer t ht l hl
      omega
  · next hlayers =>
      obtain ⟨k, hk, hnvme⟩ := hscan.nvmeStart hlt (by omega)
      obtain ⟨r, hr, hcapacity⟩ := hscan.capacity hlt budget
      refine .inr ⟨k, r, ?_, hnvme, hcapacity⟩
      rw [hk, hr]
      omega

/-- No offloaded model layer has a counted tensor on NVMe. -/
theorem gpuLayersFromPlacement_resident {gguf : GgufFile} {budget : Nat}
    (hlt : ∀ t ∈ gguf.tensors, ∀ l, t.layerIndex = some l → l < 2 ^ 31 - 2)
    (hmode : plan.inferenceMode ≠ .sparseMoeMmap)
    (ht : t ∈ counted plan.inferenceMode gguf.tensors) {l : Nat} (hl : t.layerIndex = some l)
    (hlow : (l : Int) < gpuLayersFromPlacement plan gguf budget - 1) : ¬ plan.onNvme t := by
  rcases gpuLayersFromPlacement_cases plan gguf budget hlt hmode with
    ⟨-, hnone⟩ | ⟨k, r, hn, hnvme, -⟩
  · rw [hnone t (List.mem_filter.mp ht).1] at hl
    cases hl
  · exact hnvme.resident t ht l hl (by omega)

/-- **The offloaded layers are safe and as many as possible.** -/
theorem gpuLayersFromPlacement_offload (plan : PlacementPlan F) (gguf : GgufFile) (budget : Nat)
    (hlt : ∀ t ∈ gguf.tensors, ∀ l, t.layerIndex = some l → l < 2 ^ 31 - 2)
    (hmode : plan.inferenceMode ≠ .sparseMoeMmap) :
    OffloadSpec plan gguf budget (gpuLayersFromPlacement plan gguf budget) := by
  refine ⟨fun t ht l hl hlow => gpuLayersFromPlacement_resident hlt hmode ht hl hlow, ?_, ?_⟩ <;>
    rcases gpuLayersFromPlacement_cases plan gguf budget hlt hmode with
      ⟨hzero, hnone⟩ | ⟨k, r, hn, hnvme, hcapacity⟩
  · intro htwo
    omega
  · intro htwo
    have hlow : (gpuLayersFromPlacement plan gguf budget - 1).toNat = min k r := by omega
    rw [hlow]
    exact (bytesBelow_mono plan gguf (min_le_right k r)).trans
      (hcapacity.fits.resolve_left (by omega))
  · intro t ht l hl
    rw [hnone t (List.mem_filter.mp ht).1] at hl
    cases hl
  · intro t ht l hl hle hleast hoff
    rcases Nat.le_total k r with hkr | hrk
    · -- the next layer holds a tensor on NVMe
      obtain ⟨t', ht', hl', hon⟩ := hnvme.onNvme t ht l hl (by omega)
      have := hleast t' ht' k hl' (by omega)
      exact hoff.resident t' ht' k hl' (by omega) hon
    · -- the next layer does not fit
      have hover := hcapacity.next t ht l hl (by omega) fun t' ht' l' hl' hle' =>
        hleast t' ht' l' hl' (by omega)
      exact absurd hoff.fits (by omega)

end Scan

/-- Layers 0, 2 and 5; the last on NVMe. -/
def threeLayersGguf : GgufFile where
  version := 3
  metadata := fun _ => none
  tensors :=
    [{ name := "output.weight", dimensions := [25], dtype := .f32, offset := 0, sizeBytes := 100,
       layerIndex := none },
     { name := "blk.0.attn_q.weight", dimensions := [25], dtype := .f32, offset := 100,
       sizeBytes := 100, layerIndex := some 0 },
     { name := "blk.2.attn_q.weight", dimensions := [25], dtype := .f32, offset := 200,
       sizeBytes := 100, layerIndex := some 2 },
     { name := "blk.5.attn_q.weight", dimensions := [25], dtype := .f32, offset := 300,
       sizeBytes := 100, layerIndex := some 5 }]
  dataOffset := 512

def threeLayersPlan : PlacementPlan Nat where
  tierAssignments := AList.insert "blk.5.attn_q.weight" StorageTier.nvme ∅
  estimatedTokPerSec := 0
  kvCachePlan := ⟨0, 0, .gpu, .ram, 0, 0, none⟩
  experienceTier := .slow
  inferenceMode := .fullStreaming

/-- Up to layer 2 there is room; layer 5 is on NVMe. -/
theorem threeLayers_offload : gpuLayersFromPlacement threeLayersPlan threeLayersGguf 350 = 4 ∧
    OffloadSpec threeLayersPlan threeLayersGguf 350
      (gpuLayersFromPlacement threeLayersPlan threeLayersGguf 350) :=
  ⟨by decide +kernel, gpuLayersFromPlacement_offload threeLayersPlan threeLayersGguf 350
    (by decide +kernel) (by decide)⟩

end Hypura
