import Hypura.Compute.PoolActivation
import Hypura.Compute.Regions

/-!
# Hypura.Compute.SidecarBounds

Where a permutation sidecar can send the reads of an expert. The sidecar is inverted
without a check that it is a permutation, so its inverse may leave the tensor or send two
experts to one place.

* `invertPermutation_place` — the inverse holds the last position after the first at which
  an expert is listed, and 0 for an expert that is not listed there,
* `PlacesExperts` — what a listed order must satisfy, and `expertLayout_inBounds_iff`: it is
  what keeps every address computation in bounds.
-/

namespace Hypura

open ExpertLayout

/-! ### The inverse of an arbitrary list -/

theorem length_invertFrom (fwd : List Nat) (k : Nat) (inv : List Nat) :
    (invertFrom k fwd inv).length = inv.length := by
  induction fwd generalizing k inv with
  | nil => rfl
  | cons logical fwd ih => rw [invertFrom, ih, List.length_set]

/-- The inversion loop leaves in place `x` the last position at which `x` was listed. -/
theorem invertFrom_place {x : Nat} (fwd : List Nat) (k : Nat) {inv : List Nat}
    (hx : x < inv.length) :
    (∃ p, (invertFrom k fwd inv)[x]? = some (k + p) ∧ fwd[p]? = some x ∧ x ∉ fwd.drop (p + 1)) ∨
      (invertFrom k fwd inv)[x]? = inv[x]? ∧ x ∉ fwd := by
  induction fwd generalizing k inv with
  | nil => exact .inr ⟨rfl, List.not_mem_nil⟩
  | cons logical fwd ih =>
      rw [invertFrom]
      have hset : x < (inv.set logical k).length := by rwa [List.length_set]
      rcases ih (k + 1) hset with
        ⟨p, hp, hat, hlast⟩ | ⟨hkeep, hnot⟩
      · exact .inl ⟨p + 1, by rw [hp]; congr 1; omega, hat, hlast⟩
      · by_cases hl : logical = x
        · subst hl
          refine .inl ⟨0, ?_, rfl, hnot⟩
          rw [hkeep, List.getElem?_set_self hx, Nat.add_zero]
        · refine .inr ⟨?_, ?_⟩
          · rw [hkeep, List.getElem?_set_ne hl]
          · exact List.not_mem_cons_of_ne_of_not_mem (Ne.symm hl) hnot

/-- **The inverse of any list.** Place `x` holds a position at which `x` is listed, or 0,
and `x` is listed nowhere after it. -/
theorem invertPermutation_place {fwd : List Nat} {x : Nat} (hx : x < fwd.length) :
    ∃ p < fwd.length, (invertPermutation fwd)[x]? = some p ∧ (p ≠ 0 → fwd[p]? = some x) ∧
      ∀ m, 0 < m → (x ∈ fwd.drop m ↔ m ≤ p) := by
  have hlen : x < (List.replicate fwd.length 0).length := by rwa [List.length_replicate]
  rcases invertFrom_place fwd 0 hlen with ⟨p, hp, hat, hlast⟩ | ⟨hkeep, hnot⟩
  · rw [Nat.zero_add] at hp
    refine ⟨p, (List.getElem?_eq_some_iff.mp hat).1, hp, fun _ => hat, fun m _ => ?_⟩
    constructor
    · intro hmem
      by_contra hlt
      refine hlast (List.mem_of_mem_drop (i := m - (p + 1)) ?_)
      rwa [List.drop_drop, Nat.add_sub_cancel' (by omega)]
    · intro hle
      refine List.mem_of_getElem? (i := p - m) ?_
      rw [List.getElem?_drop, Nat.add_sub_cancel' hle, hat]
  · refine ⟨0, by omega, ?_, fun h => absurd rfl h, fun m hm => ?_⟩
    · rw [invertPermutation, hkeep, List.getElem?_replicate, if_pos hx]
    · exact ⟨fun hmem => absurd (List.mem_of_mem_drop hmem) hnot, fun hle => by omega⟩

/-! ### What keeps the places apart -/

/-- An order of `n` experts in a tensor with room for `m`: every expert but one is listed
after the first position, and none is listed where the tensor has no room. -/
structure PlacesExperts (fwd : List Nat) (n m : Nat) : Prop where
  listed : ∀ e < min n fwd.length, ∀ e' < min n fwd.length,
    e ∉ fwd.tail → e' ∉ fwd.tail → e = e'
  room : ∀ e < n, e ∉ fwd.drop m

/-- Every expert has room of its own. -/
structure ExpertLayout.Places (layout : ExpertLayout) (m : Nat) : Prop where
  inside : ∀ e < layout.numExperts, layout.mapExpertId e < m
  injective : ∀ e < layout.numExperts, ∀ e' < layout.numExperts,
    layout.mapExpertId e = layout.mapExpertId e' → e = e'

theorem places_of_none {layout : ExpertLayout} (h : layout.expertPermutation = none) {m : Nat}
    (hm : layout.numExperts ≤ m) : layout.Places m := by
  have hid : ∀ e, layout.mapExpertId e = e := fun e => by rw [mapExpertId, h]
  refine ⟨fun e he => ?_, fun e _ e' _ heq => ?_⟩
  · rw [hid]
    omega
  · rwa [hid, hid] at heq

theorem places_iff {layout : ExpertLayout} {fwd : List Nat}
    (h : layout.expertPermutation = some (invertPermutation fwd)) {m : Nat}
    (hm : layout.numExperts ≤ m) :
    layout.Places m ↔ PlacesExperts fwd layout.numExperts m := by
  have hlength : (invertPermutation fwd).length = fwd.length := by
    rw [invertPermutation, length_invertFrom, List.length_replicate]
  have hlisted : ∀ e < fwd.length, ∃ p < fwd.length, layout.mapExpertId e = p ∧
      (p ≠ 0 → fwd[p]? = some e) ∧ ∀ m, 0 < m → (e ∈ fwd.drop m ↔ m ≤ p) := by
    intro e he
    obtain ⟨p, hp, hinv, hrest⟩ := invertPermutation_place he
    exact ⟨p, hp, by rw [mapExpertId, h]; simp only [hinv, Option.getD_some], hrest⟩
  have hother : ∀ e, fwd.length ≤ e → layout.mapExpertId e = e := by
    intro e he
    rw [mapExpertId, h]
    simp only [List.getElem?_eq_none (hlength.trans_le he), Option.getD_none]
  constructor
  · intro hp
    refine ⟨fun e he e' he' hnot hnot' => ?_, fun e he hmem => ?_⟩
    · obtain ⟨p, -, hmap, -, hdrop⟩ := hlisted e (by omega)
      obtain ⟨p', -, hmap', -, hdrop'⟩ := hlisted e' (by omega)
      rw [← List.drop_one] at hnot hnot'
      have hzero : ¬ 1 ≤ p := fun hle => hnot ((hdrop 1 Nat.one_pos).mpr hle)
      have hzero' : ¬ 1 ≤ p' := fun hle => hnot' ((hdrop' 1 Nat.one_pos).mpr hle)
      exact hp.injective e (by omega) e' (by omega) (by omega)
    · have hlt : e < fwd.length := by
        have := List.length_pos_of_mem hmem
        rw [List.length_drop] at this
        omega
      obtain ⟨p, -, hmap, -, hdrop⟩ := hlisted e hlt
      have hle := (hdrop m (by omega)).mp hmem
      have hin := hp.inside e he
      omega
  · intro hp
    refine ⟨fun e he => ?_, fun e he e' he' heq => ?_⟩
    · by_cases hlt : e < fwd.length
      · obtain ⟨p, -, hmap, -, hdrop⟩ := hlisted e hlt
        by_contra hge
        exact hp.room e he ((hdrop m (by omega)).mpr (by omega))
      · rw [hother e (by omega)]
        omega
    · by_cases hlt : e < fwd.length <;> by_cases hlt' : e' < fwd.length
      · obtain ⟨p, -, hmap, hat, hdrop⟩ := hlisted e hlt
        obtain ⟨p', -, hmap', hat', hdrop'⟩ := hlisted e' hlt'
        have hpp : p = p' := hmap.symm.trans (heq.trans hmap')
        subst hpp
        by_cases hzero : p = 0
        · refine hp.listed e (by omega) e' (by omega) ?_ ?_ <;> rw [← List.drop_one]
          · exact fun hmem => absurd ((hdrop 1 Nat.one_pos).mp hmem) (by omega)
          · exact fun hmem => absurd ((hdrop' 1 Nat.one_pos).mp hmem) (by omega)
        · exact Option.some.inj ((hat hzero).symm.trans (hat' hzero))
      · obtain ⟨p, hp, hmap, -⟩ := hlisted e hlt
        rw [hother e' (by omega)] at heq
        omega
      · obtain ⟨p, hp, hmap, -⟩ := hlisted e' hlt'
        rw [hother e (by omega)] at heq
        omega
      · rwa [hother e (by omega), hother e' (by omega)] at heq

/-! ### The ranges of the experts -/

/-- No range of an expert leaves its tensor or its slot, and no two of them meet. -/
structure ExpertLayout.InBounds (gguf : GgufFile) (layout : ExpertLayout) : Prop where
  file : ∀ e < layout.numExperts, layout.fileOffset ≤ layout.expertFileOffset e ∧
    layout.expertFileOffset e + layout.expertStride ≤ layout.fileOffset + layout.totalSize
  buffer : ∀ e < layout.numExperts, layout.bufferOffset ≤ layout.expertBufferOffset e ∧
    layout.expertBufferOffset e + layout.expertStride ≤ layout.bufferOffset + layout.totalSize
  /-- Whatever pool was activated, and whichever slot the tensor was given. -/
  slot : ∀ numSlots pool, activateExpertPool gguf numSlots = some pool → ∀ offset,
    ∀ e < layout.numExperts, offset ≤ (layout.pooledRegion offset e).dst ∧
      (layout.pooledRegion offset e).dst + layout.expertStride ≤ offset + pool.slotSize
  apart : ∀ e < layout.numExperts, ∀ e' < layout.numExperts, e ≠ e' →
    DisjointRanges (layout.expertFileOffset e) layout.expertStride
        (layout.expertFileOffset e') layout.expertStride ∧
      DisjointRanges (layout.expertBufferOffset e) layout.expertStride
        (layout.expertBufferOffset e') layout.expertStride ∧
      ∀ offset, DisjointRanges (layout.pooledRegion offset e).dst layout.expertStride
        (layout.pooledRegion offset e').dst layout.expertStride

/-- Strides from one base lie apart exactly when their positions differ. -/
theorem disjointRanges_stride_iff {base stride p q : Nat} (hstride : 0 < stride) :
    DisjointRanges (base + p * stride) stride (base + q * stride) stride ↔ p ≠ q := by
  constructor
  · rintro h rfl
    unfold DisjointRanges at h
    omega
  · intro hne
    exact .of_strides base hne le_rfl le_rfl

section InBounds
variable {gguf : GgufFile} {layout : ExpertLayout}

/-- A stride at position `p` ends within `size` bytes exactly when the bytes hold `p + 1`. -/
theorem stride_le_iff {p stride size : Nat} (hstride : 0 < stride) :
    p * stride + stride ≤ size ↔ p < size / stride := by
  rw [← Nat.succ_mul, ← Nat.succ_le_iff, Nat.le_div_iff_mul_le hstride]

theorem inBounds_iff_places (hstride : 0 < layout.expertStride)
    (hslot : ∀ numSlots pool, activateExpertPool gguf numSlots = some pool →
      layout.totalSize ≤ pool.slotSize) :
    layout.InBounds gguf ↔ layout.Places (layout.totalSize / layout.expertStride) := by
  constructor
  · intro h
    refine ⟨fun e he => ?_, fun e he e' he' heq => ?_⟩
    · have hfile := (h.file e he).2
      rw [expertFileOffset] at hfile
      exact (stride_le_iff hstride).mp (by omega)
    · by_contra hne
      exact (disjointRanges_stride_iff hstride).mp (h.apart e he e' he' hne).1 heq
  · intro h
    have hend : ∀ e < layout.numExperts,
        layout.mapExpertId e * layout.expertStride + layout.expertStride ≤ layout.totalSize :=
      fun e he => (stride_le_iff hstride).mpr (h.inside e he)
    refine ⟨fun e he => ?_, fun e he => ?_, fun numSlots pool hpool offset e he => ?_,
      fun e he e' he' hne => ?_⟩
    · have := hend e he
      rw [expertFileOffset]
      omega
    · have := hend e he
      rw [expertBufferOffset]
      omega
    · have := hend e he
      have := hslot numSlots pool hpool
      simp only [pooledRegion]
      omega
    · have hmap : layout.mapExpertId e ≠ layout.mapExpertId e' :=
        fun heq => hne (h.injective e he e' he' heq)
      exact ⟨(disjointRanges_stride_iff hstride).mpr hmap,
        (disjointRanges_stride_iff hstride).mpr hmap,
        fun offset => (disjointRanges_stride_iff hstride).mpr hmap⟩

/-- Strides of no bytes are nowhere. -/
theorem inBounds_of_stride_zero (hstride : layout.expertStride = 0) : layout.InBounds gguf := by
  refine ⟨fun e _ => ?_, fun e _ => ?_, fun numSlots pool _ offset e _ => ?_, fun e _ e' _ _ => ?_⟩
  · simp [expertFileOffset, hstride]
  · simp [expertBufferOffset, hstride]
  · simp [pooledRegion, hstride]
  · simp [expertFileOffset, expertBufferOffset, pooledRegion, hstride, DisjointRanges]

/-- The sizes in the map are those that the loader put there. -/
theorem lookup_locateTensors_size {map : TensorMap} {name : String} {loc : TensorLocation}
    (h : (locateTensors gguf map).lookup name = some loc) :
    ∃ loc', map.lookup name = some loc' ∧ loc'.size = loc.size := by
  unfold locateTensors at h
  generalize gguf.tensors = tensors at h
  induction tensors generalizing map with
  | nil => exact ⟨loc, h, rfl⟩
  | cons t ts ih =>
      obtain ⟨loc₁, h₁, hsize⟩ := ih h
      rw [lookup_locateTensor] at h₁
      obtain ⟨loc', h', rfl⟩ := Option.map_eq_some_iff.mp h₁
      refine ⟨loc', h', hsize ▸ ?_⟩
      split <;> rfl

theorem of_guard {p : Prop} [Decidable p] {u : Unit} (h : (guard p : Option Unit) = some u) : p := by
  by_contra hp
  rw [guard, if_neg hp] at h
  cases h

/-- **A sidecar keeps the experts in bounds exactly when it places them**: for every fused
expert tensor, the ranges that its layout gives in the file, the buffer and a slot lie
inside, and apart, if and only if the order listed for its layer lists every expert but one
after the first position, and none where the tensor has no room. -/
theorem expertLayout_inBounds_iff {map : TensorMap} {sidecar : Option Sidecar}
    {numLayers layer : Nat} {nvmeLayers : Finset Nat}
    (hsize : ∀ t ∈ gguf.tensors, ∀ loc, map.lookup t.name = some loc → loc.size ≤ t.sizeBytes)
    (hlayout : layout ∈
      (buildPrefetchState gguf map sidecar numLayers nvmeLayers).expertLayouts layer) :
    layout.InBounds gguf ↔ layout.expertStride = 0 ∨
      ∀ forward fwd, sidecar = some (.permutations forward) → forward.lookup layer = some fwd →
        PlacesExperts fwd layout.numExperts (layout.totalSize / layout.expertStride) := by
  obtain ⟨t, ht, hof⟩ := List.mem_filterMap.mp hlayout
  simp only [expertLayoutOf, Option.bind_eq_bind, Option.bind_eq_some_iff, Option.pure_def,
    Option.some.injEq] at hof
  obtain ⟨_, -, loc, hloc, _, hguard, hlayout⟩ := hof
  obtain ⟨hrole, hpos⟩ := of_guard hguard
  obtain ⟨loc', hloc', hsame⟩ := lookup_locateTensors_size hloc
  rcases Nat.eq_zero_or_pos layout.expertStride with hzero | hstride
  · exact ⟨fun _ => .inl hzero, fun _ => inBounds_of_stride_zero hzero⟩
  have hnum : layout.numExperts ≤ layout.totalSize / layout.expertStride := by
    rw [Nat.le_div_iff_mul_le hstride, ← hlayout]
    exact Nat.mul_div_le _ _
  have hslot : ∀ numSlots pool, activateExpertPool gguf numSlots = some pool →
      layout.totalSize ≤ pool.slotSize := by
    intro numSlots pool hpool
    refine le_trans ?_ (sizeBytes_le_slotSize hpool ht (decide_eq_true hrole))
    rw [← hlayout]
    exact hsame.symm.trans_le (hsize t ht loc' hloc')
  have hperm : layout.expertPermutation = loadPermutations sidecar layer := by rw [← hlayout]
  rw [inBounds_iff_places hstride hslot, or_iff_right (by omega)]
  constructor
  · intro h forward fwd hside hfwd
    refine (places_iff ?_ hnum).mp h
    rw [hperm, hside, loadPermutations, hfwd, Option.map_some]
  · intro h
    have hnone : loadPermutations sidecar layer = none →
        layout.Places (layout.totalSize / layout.expertStride) :=
      fun hp => places_of_none (hperm.trans hp) hnum
    cases sidecar with
    | none => exact hnone rfl
    | some sidecar =>
        cases sidecar with
        | unreadable => exact hnone rfl
        | permutations forward =>
            cases hfwd : forward.lookup layer with
            | none => exact hnone (by rw [loadPermutations, hfwd, Option.map_none])
            | some fwd =>
                refine (places_iff ?_ hnum).mpr (h forward fwd rfl hfwd)
                rw [hperm, loadPermutations, hfwd, Option.map_some]

end InBounds

/-! ### A sidecar of another model -/

/-- A fused tensor of two experts, of two bytes each. -/
def twoExpertGguf : GgufFile where
  version := 3
  metadata := fun key =>
    if key = "general.architecture" then some (.string "llama")
    else if key = "llama.expert_count" then some (.uint32 2)
    else none
  tensors := [⟨"blk.0.ffn_gate_exps.weight", [4], .i8, 0, 4, some 0⟩]
  dataOffset := 128

def twoExpertMap : TensorMap := [("blk.0.ffn_gate_exps.weight", ⟨64, 4, 0, none⟩)]

/-- An order of three experts for layer 0. -/
def threeExpertSidecar : Sidecar := .permutations [(0, [2, 0, 1])]

def twoExpertLayout : ExpertLayout where
  tensorName := "blk.0.ffn_gate_exps.weight"
  layerIndex := 0
  numExperts := 2
  expertStride := 2
  fileOffset := 128
  bufferOffset := 64
  totalSize := 4
  expertPermutation := some [1, 2, 0]

theorem twoExpertLayout_mem :
    twoExpertLayout ∈ (buildPrefetchState twoExpertGguf twoExpertMap (some threeExpertSidecar) 1
      {0}).expertLayouts 0 := by
  have hlayouts : (buildPrefetchState twoExpertGguf twoExpertMap (some threeExpertSidecar) 1
      {0}).expertLayouts 0 = [twoExpertLayout] := by decide +kernel
  rw [hlayouts]
  exact List.mem_singleton.mpr rfl

/-- Expert 1 is read from past the end of its tensor, and written there in the buffer. -/
theorem twoExpertLayout_not_inBounds :
    twoExpertLayout ∈ (buildPrefetchState twoExpertGguf twoExpertMap (some threeExpertSidecar) 1
      {0}).expertLayouts 0 ∧ ¬ twoExpertLayout.InBounds twoExpertGguf := by
  refine ⟨twoExpertLayout_mem, fun h => ?_⟩
  exact absurd (h.buffer 1 (by decide)).2 (by decide)

theorem twoExpertLayout_inBounds_iff :
    twoExpertLayout.InBounds twoExpertGguf ↔ twoExpertLayout.expertStride = 0 ∨
      ∀ forward fwd, some threeExpertSidecar = some (.permutations forward) →
        forward.lookup 0 = some fwd → PlacesExperts fwd twoExpertLayout.numExperts
          (twoExpertLayout.totalSize / twoExpertLayout.expertStride) :=
  expertLayout_inBounds_iff (by decide) twoExpertLayout_mem

end Hypura
