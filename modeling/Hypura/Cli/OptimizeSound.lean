import Hypura.Cli.OptimizeRun
import Hypura.Compute.Regions

/-!
# Hypura.Cli.OptimizeSound

Does `hypura optimize` preserve the meaning of the model? The router still names experts
by their old ids and the matrix product takes expert `e` from stride `e` of the tensor's
place in memory (`PreservesExperts`). The loaders read expert `e` from its new place in
the file, but they also write it to its new place in memory.

* `run_preservesExperts_iff` — after a successful run the experts are where they are
  looked for exactly when no layer's order changed,
* `run_not_preservesExperts` — a run on recorded statistics after which they are not.
-/

namespace Hypura.Optimize

open Hypura.Core Hypura.Rust

/-! ### What a consumer relies on -/

/-- The loader gives each tensor the size its header declares. -/
def SizesAgree (gguf : GgufFile) (map : TensorMap) : Prop :=
  ∀ t ∈ gguf.tensors, ∀ loc, map.lookup t.name = some loc → loc.size = t.sizeBytes

/-- However a selection with expert `e` is loaded — into the buffer or into a pool slot,
over whatever the memory held — stride `e` of the destination holds the bytes that
expert `e` of `t` has in the model. -/
structure LoadsOriginal (gguf : GgufFile) (model output : List UInt8) (t : TensorInfo)
    (layout : ExpertLayout) (sel : List Nat) (e k : Nat) (mem : Memory) : Prop where
  buffer : some (readRegions output ((sel.filter (· < layout.numExperts)).map layout.bufferRegion) mem
      (layout.bufferOffset + (e * layout.expertStride + k))) =
    model[gguf.dataOffset + t.offset + (e * layout.expertStride + k)]?
  slot : ∀ offset, some (readRegions output
      ((sel.filter (· < layout.numExperts)).map (layout.pooledRegion offset)) mem
      (offset + (e * layout.expertStride + k))) =
    model[gguf.dataOffset + t.offset + (e * layout.expertStride + k)]?

/-- **The optimized model means what the original does**: it opens as the same file, and
the runtime has a layout for each fused expert tensor it is given, through which every
expert is loaded to where it is looked for. -/
structure PreservesExperts (gguf : GgufFile) (model : List UInt8) (disk : Disk)
    (output : List UInt8) : Prop where
  written : disk.output = some output
  header : GgufFile.parse output = .ok gguf
  experts : ∀ (map : TensorMap) (numLayers : Nat) (nvmeLayers : Finset Nat), SizesAgree gguf map →
    ∀ t ∈ gguf.tensors, ∀ layer, fusedLayer t = some layer → (map.lookup t.name).isSome →
      ∃ layout ∈ (buildPrefetchState gguf map disk.sidecar numLayers nvmeLayers).expertLayouts layer,
        layout.tensorName = t.name ∧
        ∀ sel, ∀ e ∈ sel, e < layout.numExperts → ∀ k < layout.expertStride, ∀ mem,
          LoadsOriginal gguf model output t layout sel e k mem

/-- A file whose tensors have names of their own and bytes of their own. -/
structure WellLaid (gguf : GgufFile) : Prop where
  names : (gguf.tensors.map (·.name)).Nodup
  data : gguf.tensors.Pairwise DisjointData

/-- Each layer with (non-empty) fused experts is outside the matrix or has counts that
keep its experts in their natural order. -/
def KeepsNaturalOrder (coAct : Option CoActivationMatrix) (gguf : GgufFile) : Prop :=
  ∀ t ∈ gguf.tensors, 0 < t.sizeBytes → ∀ layer, fusedLayer t = some layer →
    ∀ m counts, coAct = some m → m.layerCounts[layer]? = some counts →
      NaturalOrder counts ((gguf.getU32 "expert_count").getD 0)

/-! ### The layout of one tensor -/

/-- The layout the runtime builds for a fused tensor the loader placed at `loc`. -/
def layoutAt (gguf : GgufFile) (t : TensorInfo) (layer numExperts : Nat) (loc : TensorLocation)
    (inverse : Option (List Nat)) : ExpertLayout where
  tensorName := t.name
  layerIndex := layer
  numExperts := numExperts
  expertStride := loc.size / numExperts
  fileOffset := gguf.dataOffset + t.offset
  bufferOffset := loc.offsetInBuffer
  totalSize := loc.size
  expertPermutation := inverse

theorem fusedLayer_eq_some {t : TensorInfo} {layer : Nat} (h : fusedLayer t = some layer) :
    TensorRole.fromName t.name = .moeFusedExperts ∧ t.layerIndex = some layer := by
  unfold fusedLayer at h
  split at h
  · next hrole => exact ⟨hrole, h⟩
  · cases h

/-- The layouts of a layer, one for each of its fused tensors in the map. -/
theorem mem_expertLayouts {gguf : GgufFile} {map : TensorMap} {sidecar : Option Sidecar}
    {numLayers : Nat} {nvmeLayers : Finset Nat} {layer : Nat} {layout : ExpertLayout}
    (hnames : (gguf.tensors.map (·.name)).Nodup)
    (hne : 0 < (gguf.getU32 "expert_count").getD 0) :
    layout ∈ (buildPrefetchState gguf map sidecar numLayers nvmeLayers).expertLayouts layer ↔
      ∃ t ∈ gguf.tensors, ∃ loc, fusedLayer t = some layer ∧ map.lookup t.name = some loc ∧
        layout = layoutAt gguf t layer ((gguf.getU32 "expert_count").getD 0) loc
          (loadPermutations sidecar layer) := by
  rw [mem_expertLayouts_iff hnames]
  constructor
  · rintro ⟨-, t, ht, hl, hrole, r, hr, rfl⟩
    obtain ⟨loc, hloc, rfl⟩ := Option.map_eq_some_iff.mp hr
    exact ⟨t, ht, loc, by rw [fusedLayer, if_pos hrole, hl], hloc, rfl⟩
  · rintro ⟨t, ht, loc, hlayer, hloc, rfl⟩
    obtain ⟨hrole, hl⟩ := fusedLayer_eq_some hlayer
    exact ⟨hne, t, ht, hl, hrole, _, by rw [tensorRegion, hloc]; rfl, rfl⟩

/-! ### Loading through one layout -/

section Layout
variable {gguf : GgufFile} {m : CoActivationMatrix} {ne : Nat} {model output : List UInt8}
  {disk : Disk} {t : TensorInfo} {layer : Nat} {perm : List Nat} {loc : TensorLocation}

/-- Position `p` in the file holds expert `e`, and the layout says so. -/
theorem layoutAt_maps (hperm : perm.Perm (List.range ne)) {p e : Nat} (hp : perm[p]? = some e) :
    (layoutAt gguf t layer ne loc (some (invertPermutation perm))).mapExpertId e = p := by
  change (invertPermutation perm)[e]?.getD e = p
  rw [invertPermutation_getElem? hperm hp, Option.getD_some]

/-- Slices do not overlap: stride `e'` covers a place in stride `e` only if it is that. -/
theorem stride_unique {stride e e' k : Nat} (hk : k < stride)
    (hlo : e' * stride ≤ e * stride + k) (hhi : e * stride + k < e' * stride + stride) :
    e' = e := by
  rcases Nat.lt_trichotomy e' e with h | h | h
  · have := Nat.mul_le_mul_right stride (Nat.succ_le_of_lt h)
    rw [Nat.succ_mul] at this
    omega
  · exact h
  · have := Nat.mul_le_mul_right stride (Nat.succ_le_of_lt h)
    rw [Nat.succ_mul] at this
    omega

/-- In the natural order a slice is read to where it is looked for. -/
theorem loadsOriginal_of_natural (hloc : loc.size = t.sizeBytes)
    (hmoved : StridesMoved (gguf.dataOffset + t.offset) t.sizeBytes (t.sizeBytes / ne)
      (List.range ne) model output)
    {sel : List Nat} {e : Nat} (hsel : e ∈ sel) (he : e < ne) {k : Nat}
    (hk : k < loc.size / ne) (mem : Memory) :
    LoadsOriginal gguf model output t
      (layoutAt gguf t layer ne loc (some (invertPermutation (List.range ne)))) sel e k mem := by
  obtain ⟨-, -, b, hb, hout⟩ := hmoved e e (List.getElem?_range he) k (hloc ▸ hk)
  have hid : ∀ e' < ne, (layoutAt gguf t layer ne loc
      (some (invertPermutation (List.range ne)))).mapExpertId e' = e' := fun e' he' =>
    layoutAt_maps (List.Perm.refl _) (List.getElem?_range he')
  have hslot : ∀ offset, readRegions output
      ((sel.filter (· < ne)).map ((layoutAt gguf t layer ne loc
        (some (invertPermutation (List.range ne)))).pooledRegion offset)) mem
      (offset + (e * (loc.size / ne) + k)) = b := by
    intro offset
    refine readRegions_eq ?_ (.inl ?_)
    · intro r hr hlo hhi
      obtain ⟨e', he', rfl⟩ := List.mem_map.mp hr
      have hlt' : e' < ne := by simpa using (List.mem_filter.mp he').2
      simp only [ExpertLayout.pooledRegion, ExpertLayout.expertFileOffset, hid e' hlt'] at hlo hhi ⊢
      simp only [layoutAt] at hlo hhi ⊢
      obtain rfl : e' = e := stride_unique hk (by omega) (by omega)
      rw [← hout, hloc]
      congr 1
      omega
    · refine ⟨_, List.mem_map_of_mem (List.mem_filter.mpr ⟨hsel, by simpa using he⟩), ?_⟩
      simp only [ExpertLayout.pooledRegion, hid e he]
      simp only [layoutAt]
      omega
  rw [← hloc] at hb
  exact ⟨(congrArg some (hslot loc.offsetInBuffer)).trans hb.symm,
    fun offset => (congrArg some (hslot offset)).trans hb.symm⟩

theorem succ_ne_self (b : UInt8) : b + 1 ≠ b := by
  intro h
  have := congrArg UInt8.toNat h
  rw [UInt8.toNat_add] at this
  have hlt := b.toNat_lt
  have h1 : (1 : UInt8).toNat = 1 := rfl
  omega

/-- An expert whose position changed is not read to where it is looked for: over memory
that holds any other byte there, that byte stays. -/
theorem not_loadsOriginal_of_moved (hperm : perm.Perm (List.range ne)) {p e : Nat}
    (hp : perm[p]? = some e) (hpe : p ≠ e) (he : e < ne) (hstride : 0 < loc.size / ne)
    {b : UInt8} (hb : model[gguf.dataOffset + t.offset + (e * (loc.size / ne) + 0)]? = some b) :
    ¬ LoadsOriginal gguf model output t
      (layoutAt gguf t layer ne loc (some (invertPermutation perm))) [e] e 0 fun _ => b + 1 := by
  intro h
  have hsel : ([e].filter fun x => decide (x < ne)) = [e] := by simp [he]
  have hslot : some (readRegions output (([e].filter fun x => decide (x < ne)).map
      ((layoutAt gguf t layer ne loc (some (invertPermutation perm))).pooledRegion 0))
      (fun _ => b + 1) (0 + (e * (loc.size / ne) + 0))) = some b := (h.slot 0).trans hb
  have hkeep : Region.read output
      ((layoutAt gguf t layer ne loc (some (invertPermutation perm))).pooledRegion 0 e)
      (fun _ => b + 1) (0 + (e * (loc.size / ne) + 0)) = b + 1 := by
    apply Region.read_of_not_mem
    simp only [ExpertLayout.pooledRegion, layoutAt_maps hperm hp]
    simp only [layoutAt]
    by_contra hcov
    exact hpe (stride_unique hstride (by omega) (by omega))
  rw [hsel] at hslot
  exact succ_ne_self b (hkeep.symm.trans (Option.some.inj hslot))

end Layout

/-! ### The whole model -/

/-- A permutation other than the natural order moves some expert. -/
theorem exists_moved {perm : List Nat} {ne : Nat} (hperm : perm.Perm (List.range ne))
    (hne : perm ≠ List.range ne) : ∃ p e : Nat, perm[p]? = some e ∧ p ≠ e ∧ e < ne := by
  by_contra hall
  push Not at hall
  apply hne
  have hlen : perm.length = ne := by rw [hperm.length_eq, List.length_range]
  apply List.ext_getElem (by rw [hlen, List.length_range])
  intro p h₁ h₂
  rw [List.getElem_range]
  by_contra hpe
  have hlt : perm[p] < ne := List.mem_range.mp (hperm.mem_iff.mp (List.getElem_mem h₁))
  exact absurd hlt (Nat.not_lt.mpr (hall p perm[p] (List.getElem?_eq_getElem h₁) (Ne.symm hpe)))

section Preserves
variable {gguf : GgufFile} {m : CoActivationMatrix} {model output : List UInt8} {disk : Disk}

theorem preservesExperts_of_natural (hparse : GgufFile.parse model = .ok gguf)
    (hlaid : WellLaid gguf)
    (hopt : Optimized gguf m ((gguf.getU32 "expert_count").getD 0) model disk output)
    (hnat : ∀ t ∈ gguf.tensors, 0 < t.sizeBytes → ∀ layer, fusedLayer t = some layer →
      computeOptimalExpertOrder m layer ((gguf.getU32 "expert_count").getD 0) =
        some (List.range ((gguf.getU32 "expert_count").getD 0))) :
    PreservesExperts gguf model disk output where
  written := hopt.written
  header := parse_of_prefix_eq hparse hopt.header
  experts := by
    intro map numLayers nvmeLayers hsizes t ht layer hlayer hloc
    obtain ⟨loc, hloc⟩ := Option.isSome_iff_exists.mp hloc
    obtain ⟨perm, horder, hside, hmoved⟩ := hopt.moved t ht layer hlayer
    refine ⟨layoutAt gguf t layer _ loc (loadPermutations disk.sidecar layer),
      (mem_expertLayouts hlaid.names hopt.experts_pos).mpr ⟨t, ht, loc, hlayer, hloc, rfl⟩,
      rfl, fun sel e hsel he k hk mem => ?_⟩
    have hsize := hsizes t ht loc hloc
    have hpos : 0 < t.sizeBytes := by
      rw [← hsize]
      exact Nat.pos_of_ne_zero fun h => by
        simp only [layoutAt, h, Nat.zero_div] at hk
        omega
    rw [hnat t ht hpos layer hlayer, Option.some.injEq] at horder
    rw [hside, ← horder]
    rw [← horder] at hmoved
    exact loadsOriginal_of_natural hsize hmoved hsel he hk mem

theorem natural_of_preservesExperts (hlaid : WellLaid gguf)
    (hdvd : ∀ t ∈ gguf.tensors, (fusedLayer t).isSome →
      (gguf.getU32 "expert_count").getD 0 ∣ t.sizeBytes)
    (hopt : Optimized gguf m ((gguf.getU32 "expert_count").getD 0) model disk output)
    (hpres : PreservesExperts gguf model disk output)
    {t : TensorInfo} (ht : t ∈ gguf.tensors) (hpos : 0 < t.sizeBytes) {l : Nat}
    (hlayer : fusedLayer t = some l) :
    computeOptimalExpertOrder m l ((gguf.getU32 "expert_count").getD 0) =
      some (List.range ((gguf.getU32 "expert_count").getD 0)) := by
  obtain ⟨perm, horder, hside, hmoved⟩ := hopt.moved t ht l hlayer
  have hperm := computeOptimalExpertOrder_perm horder
  rw [horder, Option.some.injEq]
  by_contra hne
  obtain ⟨p, e, hp, hpe, he⟩ := exists_moved hperm hne
  -- a loader that places this tensor alone
  let loc : TensorLocation := ⟨0, t.sizeBytes, 0, none⟩
  have hlookup : ∀ name loc', List.lookup name [(t.name, loc)] = some loc' ↔ name = t.name ∧ loc = loc' := by
    intro name loc'
    rw [List.lookup_cons, List.lookup_nil]
    by_cases h : name = t.name
    · simp [h]
    · rw [beq_false_of_ne h]
      simp [h]
  have hsizes : SizesAgree gguf [(t.name, loc)] := by
    intro t' ht' l hl
    obtain ⟨hname, rfl⟩ := (hlookup _ _).mp hl
    rw [List.inj_on_of_nodup_map hlaid.names ht' ht hname]
  obtain ⟨layout, hmem, hname, hloads⟩ := hpres.experts [(t.name, loc)] 0 ∅ hsizes t ht l hlayer
    (by rw [(hlookup _ loc).mpr ⟨rfl, rfl⟩]; rfl)
  obtain ⟨t', ht', loc', hlayer', hloc', rfl⟩ :=
    (mem_expertLayouts hlaid.names hopt.experts_pos).mp hmem
  obtain rfl : t' = t := List.inj_on_of_nodup_map hlaid.names ht' ht hname
  obtain ⟨-, rfl⟩ := (hlookup _ _).mp hloc'
  have hstride : 0 < loc.size / (gguf.getU32 "expert_count").getD 0 :=
    Nat.div_pos (Nat.le_of_dvd hpos (hdvd t' ht (by rw [hlayer]; rfl))) hopt.experts_pos
  obtain ⟨-, -, b, hb, -⟩ := hmoved p e hp 0 hstride
  rw [hside] at hloads
  exact not_loadsOriginal_of_moved hperm hp hpe he hstride hb
    (hloads [e] e List.mem_cons_self he 0 hstride _)

end Preserves

/-! ### A model of two experts -/

/-- One layer with one fused tensor of two one-byte experts. -/
def twoExperts : WireHeader where
  version := 3
  kvs := [("expert_count", .uint32 2)]
  tensors :=
    [{ name := "blk.0.ffn_gate_exps.weight", dims := [1, 1, 2], dtype := 24, offset := 0 }]

/-- Its file: the header, the padding, and the experts' bytes. -/
def twoExpertsModel : List UInt8 := twoExperts.encode ++ [0, 0, 1, 2]

/-- A disk with that file alone, and I/O that does not fail. -/
def twoExpertsDisk : RunState := ⟨⟨twoExpertsModel, none, none⟩, []⟩

/-- The statistics after a selection was recorded eleven times. -/
def recordedEleven (selected : List Nat) : Option CoActivationMatrix :=
  (List.replicate 11 selected).foldlM (fun m sel => m.record 0 sel) (CoActivationMatrix.new 1 2)

theorem parse_twoExperts : GgufFile.parse twoExpertsDisk.disk.model = .ok twoExperts.parsed := by
  refine parse_encode ⟨.inr rfl, by decide, by decide, ?_, ?_⟩ _
  · intro kv hkv
    rw [List.mem_singleton.mp hkv]
    exact ⟨by unfold FitsLength; decide, .uint32 _⟩
  · intro t ht
    rw [List.mem_singleton.mp ht]
    exact ⟨by unfold FitsLength; decide, by decide⟩

theorem wellLaid_twoExperts : WellLaid twoExperts.parsed :=
  ⟨List.nodup_singleton _, List.pairwise_singleton _ _⟩

theorem twoExperts_divisible : ∀ t ∈ twoExperts.parsed.tensors, (fusedLayer t).isSome →
    (twoExperts.parsed.getU32 "expert_count").getD 0 ∣ t.sizeBytes := by
  decide

/-- The command succeeds. -/
def Succeeds (coAct : Option CoActivationMatrix) (s : RunState) : Prop :=
  ∃ s', run coAct s = .ok () s'

instance (coAct : Option CoActivationMatrix) (s : RunState) : Decidable (Succeeds coAct s) :=
  match h : run coAct s with
  | .ok () s' => isTrue ⟨s', h⟩
  | .error e s' => isFalse fun ⟨s'', h'⟩ => by
      rw [h] at h'
      cases h'

/-- **`optimize` preserves the model exactly where it leaves the experts in order.** -/
theorem run_preservesExperts_iff {coAct : Option CoActivationMatrix} {s s' : RunState}
    {gguf : GgufFile} (hparse : GgufFile.parse s.disk.model = .ok gguf) (hlaid : WellLaid gguf)
    (hdvd : ∀ t ∈ gguf.tensors, (fusedLayer t).isSome →
      (gguf.getU32 "expert_count").getD 0 ∣ t.sizeBytes)
    (hrun : run coAct s = .ok () s') :
    (∃ output, PreservesExperts gguf s.disk.model s'.disk output) ↔
      KeepsNaturalOrder coAct gguf := by
  obtain ⟨m, output, rfl, hopt⟩ := run_ok hparse hlaid.data hrun
  constructor
  · rintro ⟨output', hpres⟩ t ht hpos layer hlayer m' counts hm hcounts
    obtain rfl : m = m' := Option.some.inj hm
    obtain rfl : output = output' := by
      have := hopt.written.symm.trans hpres.written
      exact Option.some.inj this
    have horder := natural_of_preservesExperts hlaid hdvd hopt hpres ht hpos hlayer
    exact (computeOptimalExpertOrder_eq_range hcounts hopt.experts_pos horder).mp rfl
  · intro hnat
    refine ⟨output, preservesExperts_of_natural hparse hlaid hopt fun t ht hpos layer hlayer => ?_⟩
    obtain ⟨perm, horder, -, -⟩ := hopt.moved t ht layer hlayer
    cases hcounts : m.layerCounts[layer]? with
    | none => simp only [computeOptimalExpertOrder, hcounts]
    | some counts =>
        have hkeep := hnat t ht hpos layer hlayer m counts rfl hcounts
        rw [horder,
          (computeOptimalExpertOrder_eq_range hcounts hopt.experts_pos horder).mpr hkeep]

/-- Expert 0 alone was ever selected: the order stays. -/
theorem twoExperts_preservesExperts_iff :
    ∃ s', run (recordedEleven [0]) twoExpertsDisk = .ok () s' ∧
      ((∃ output, PreservesExperts twoExperts.parsed twoExpertsModel s'.disk output) ↔
        KeepsNaturalOrder (recordedEleven [0]) twoExperts.parsed) := by
  obtain ⟨s', hrun⟩ : Succeeds (recordedEleven [0]) twoExpertsDisk := by decide +kernel
  exact ⟨s', hrun,
    run_preservesExperts_iff parse_twoExperts wellLaid_twoExperts twoExperts_divisible hrun⟩

/-- Both experts were selected together, so expert 1 now comes first: after the run no
output means what the model did. -/
theorem run_not_preservesExperts :
    GgufFile.parse twoExpertsModel = .ok twoExperts.parsed ∧ WellLaid twoExperts.parsed ∧
      (∀ t ∈ twoExperts.parsed.tensors, (fusedLayer t).isSome →
        (twoExperts.parsed.getU32 "expert_count").getD 0 ∣ t.sizeBytes) ∧
      ∃ s', run (recordedEleven [0, 1]) twoExpertsDisk = .ok () s' ∧
        ¬ ∃ output, PreservesExperts twoExperts.parsed twoExpertsModel s'.disk output := by
  refine ⟨parse_twoExperts, wellLaid_twoExperts, twoExperts_divisible, ?_⟩
  obtain ⟨s', hrun⟩ : Succeeds (recordedEleven [0, 1]) twoExpertsDisk := by decide +kernel
  refine ⟨s', hrun, fun ⟨output', hpres⟩ => ?_⟩
  obtain ⟨m, output, hm, hopt⟩ := run_ok parse_twoExperts wellLaid_twoExperts.data hrun
  obtain rfl : output = output' := Option.some.inj (hopt.written.symm.trans hpres.written)
  have horder := natural_of_preservesExperts wellLaid_twoExperts twoExperts_divisible hopt hpres
    (t := twoExperts.parsed.tensors.head (by decide)) (by decide) (by decide) (l := 0) (by decide)
  obtain rfl : m = (recordedEleven [0, 1]).get (by decide) := by
    simp only [hm, Option.get_some]
  exact absurd horder (by decide)

end Hypura.Optimize
