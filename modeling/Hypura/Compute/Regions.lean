import Hypura.Compute.BuildState

/-!
# Hypura.Compute.Regions

Which regions and layouts `build_prefetch_state` records for a layer, in terms of the
tensors of the file and of where the loader put them.

`layer_regions` is built from the map of captured tensors, the expert layouts and the
other regions from the file's tensor list. Where names are distinct the first is the
union of the other two, tensor by tensor.
-/

namespace Hypura

/-! ### What the loader's callbacks leave -/

/-- Two ranges of the buffer with no byte in common. -/
def DisjointRanges (dst size dst' size' : Nat) : Prop :=
  dst + size ≤ dst' ∨ dst' + size' ≤ dst

/-- Ranges within different strides have no byte in common. -/
theorem DisjointRanges.of_strides (base : Nat) {stride p q size size' : Nat} (hne : p ≠ q)
    (h : size ≤ stride) (h' : size' ≤ stride) :
    DisjointRanges (base + p * stride) size (base + q * stride) size' := by
  have hmul : ∀ {p q : Nat}, p < q → p * stride + stride ≤ q * stride := by
    intro p q hlt
    rw [← Nat.succ_mul]
    exact Nat.mul_le_mul_right _ hlt
  rcases Nat.lt_or_gt_of_ne hne with hlt | hgt
  · have := hmul hlt
    exact .inl (by omega)
  · have := hmul hgt
    exact .inr (by omega)

/-- The map after the model was loaded: each tensor has one entry, a range of its own in
the buffer, and no layer yet. -/
structure Captured (map : TensorMap) : Prop where
  names : (map.map (·.1)).Nodup
  unlocated : ∀ entry ∈ map, entry.2.layerIndex = none
  disjoint : map.Pairwise fun x y =>
    DisjointRanges x.2.offsetInBuffer x.2.size y.2.offsetInBuffer y.2.size

/-- The region of tensor `t`, if the loader captured it. -/
def tensorRegion (gguf : GgufFile) (map : TensorMap) (t : TensorInfo) : Option Region :=
  (map.lookup t.name).map fun loc =>
    ⟨loc.offsetInBuffer, loc.size, gguf.dataOffset + t.offset⟩

section Lookup
variable {α : Type} {entries : List (String × α)} {name : String} {a : α}

theorem mem_of_lookup_eq_some (h : entries.lookup name = some a) : (name, a) ∈ entries := by
  induction entries with
  | nil => cases h
  | cons entry entries ih =>
      obtain ⟨n, b⟩ := entry
      rw [List.lookup_cons] at h
      by_cases hn : name = n
      · subst hn
        rw [beq_self_eq_true] at h
        cases h
        exact List.mem_cons_self
      · rw [beq_false_of_ne hn] at h
        exact List.mem_cons_of_mem _ (ih h)

theorem lookup_eq_some_of_mem (hnodup : (entries.map (·.1)).Nodup) (h : (name, a) ∈ entries) :
    entries.lookup name = some a := by
  induction entries with
  | nil => cases h
  | cons entry entries ih =>
      obtain ⟨n, b⟩ := entry
      obtain ⟨hnot, hnodup⟩ := List.nodup_cons.mp hnodup
      rw [List.lookup_cons]
      rcases List.mem_cons.mp h with heq | hmem
      · cases heq
        rw [beq_self_eq_true]
      · have hne : name ≠ n := fun heq =>
          hnot (List.mem_map.mpr ⟨(name, a), hmem, heq⟩)
        rw [beq_false_of_ne hne]
        exact ih hnodup hmem

end Lookup

/-- Two captured tensors lie apart in the buffer. -/
theorem Captured.disjointRanges {map : TensorMap} (h : Captured map) {gguf : GgufFile}
    {t t' : TensorInfo} {r r' : Region} (hne : t.name ≠ t'.name)
    (hr : tensorRegion gguf map t = some r) (hr' : tensorRegion gguf map t' = some r') :
    DisjointRanges r.dst r.size r'.dst r'.size := by
  obtain ⟨loc, hloc, rfl⟩ := Option.map_eq_some_iff.mp hr
  obtain ⟨loc', hloc', rfl⟩ := Option.map_eq_some_iff.mp hr'
  have hsymm : Std.Symm fun x y : String × TensorLocation =>
      DisjointRanges x.2.offsetInBuffer x.2.size y.2.offsetInBuffer y.2.size :=
    ⟨fun _ _ hxy => hxy.symm⟩
  refine List.Pairwise.forall h.disjoint (mem_of_lookup_eq_some hloc)
    (mem_of_lookup_eq_some hloc') fun heq => hne ?_
  exact congrArg Prod.fst heq

/-! ### The regions of a layer -/

/-- Filling in offsets and layers changes nothing else of the map. -/
theorem locateTensors_map {α : Type} {f : String × TensorLocation → α}
    (hf : ∀ name loc fileOffset layerIndex,
      f (name, { loc with fileOffset := fileOffset, layerIndex := layerIndex }) = f (name, loc))
    (gguf : GgufFile) (map : TensorMap) : (locateTensors gguf map).map f = map.map f := by
  have hone : ∀ (t : TensorInfo) (map : TensorMap),
      (locateTensor gguf.dataOffset map t).map f = map.map f := by
    intro t map
    rw [locateTensor, List.map_map]
    refine List.map_congr_left fun entry _ => ?_
    obtain ⟨n, loc⟩ := entry
    by_cases hn : n = t.name <;> simp [hn, hf]
  rw [locateTensors]
  induction gguf.tensors generalizing map with
  | nil => rfl
  | cons t ts ih => rw [List.foldl_cons, ih, hone]

theorem locateTensors_keys (gguf : GgufFile) (map : TensorMap) :
    (locateTensors gguf map).map (·.1) = map.map (·.1) :=
  locateTensors_map (fun _ _ _ _ => rfl) gguf map

theorem mem_sortRegions {rs : List Region} {r : Region} : r ∈ sortRegions rs ↔ r ∈ rs :=
  (List.perm_insertionSort _ rs).mem_iff

section Config
variable {gguf : GgufFile} {map : TensorMap} {sidecar : Option Sidecar} {numLayers : Nat}
  {nvmeLayers : Finset Nat} {layer : Nat}

/-- The regions of a layer are those of its captured tensors. -/
theorem mem_layerRegions (hnames : (gguf.tensors.map (·.name)).Nodup) (hmap : Captured map)
    {r : Region} :
    r ∈ (buildPrefetchState gguf map sidecar numLayers nvmeLayers).layerRegions layer ↔
      ∃ t ∈ gguf.tensors, t.layerIndex = some layer ∧ tensorRegion gguf map t = some r := by
  change r ∈ sortRegions (((locateTensors gguf map).filter
    fun entry => entry.2.layerIndex = some layer).map (·.2.region)) ↔ _
  simp only [mem_sortRegions, List.mem_map, List.mem_filter, decide_eq_true_eq]
  have hkeys : ((locateTensors gguf map).map (·.1)).Nodup := locateTensors_keys gguf map ▸ hmap.names
  constructor
  · intro h
    obtain ⟨⟨name, loc⟩, ⟨hmem, hlayer⟩, rfl⟩ := h
    have hlook := lookup_eq_some_of_mem hkeys hmem
    by_cases hname : ∃ t ∈ gguf.tensors, t.name = name
    · obtain ⟨t, ht, rfl⟩ := hname
      rw [lookup_locateTensors hnames ht] at hlook
      obtain ⟨loc₀, hloc₀, rfl⟩ := Option.map_eq_some_iff.mp hlook
      exact ⟨t, ht, hlayer, by rw [tensorRegion, hloc₀]; rfl⟩
    · -- a captured tensor that the file does not list has no layer
      have hlook' : (locateTensors gguf map).lookup name = map.lookup name :=
        lookup_foldl_locateTensor_of_not_mem (fun t ht heq => hname ⟨t, ht, heq⟩) map
      rw [hlook'] at hlook
      have hnone := hmap.unlocated _ (mem_of_lookup_eq_some hlook)
      rw [hlayer] at hnone
      cases hnone
  · intro h
    obtain ⟨t, ht, hlayer, hr⟩ := h
    obtain ⟨loc, hloc, rfl⟩ := Option.map_eq_some_iff.mp hr
    have hlook : (locateTensors gguf map).lookup t.name = some
        { loc with fileOffset := gguf.dataOffset + t.offset, layerIndex := t.layerIndex } := by
      rw [lookup_locateTensors hnames ht, hloc]
      rfl
    exact ⟨(t.name, _), ⟨mem_of_lookup_eq_some hlook, hlayer⟩, rfl⟩

/-- The layout recorded for a fused tensor in region `r`. -/
def fusedLayout (gguf : GgufFile) (sidecar : Option Sidecar) (layer : Nat) (t : TensorInfo)
    (r : Region) : ExpertLayout where
  tensorName := t.name
  layerIndex := layer
  numExperts := (gguf.getU32 "expert_count").getD 0
  expertStride := r.size / (gguf.getU32 "expert_count").getD 0
  fileOffset := r.fileOffset
  bufferOffset := r.dst
  totalSize := r.size
  expertPermutation := loadPermutations sidecar layer

/-- The layouts of a layer are those of its captured fused tensors, if there are experts. -/
theorem mem_expertLayouts_iff (hnames : (gguf.tensors.map (·.name)).Nodup)
    {layout : ExpertLayout} :
    layout ∈ (buildPrefetchState gguf map sidecar numLayers nvmeLayers).expertLayouts layer ↔
      0 < (gguf.getU32 "expert_count").getD 0 ∧ ∃ t ∈ gguf.tensors, t.layerIndex = some layer ∧
        TensorRole.fromName t.name = .moeFusedExperts ∧ ∃ r, tensorRegion gguf map t = some r ∧
          layout = fusedLayout gguf sidecar layer t r := by
  change layout ∈ gguf.tensors.filterMap _ ↔ _
  rw [List.mem_filterMap]
  have hof : ∀ t ∈ gguf.tensors,
      (expertLayoutOf (locateTensors gguf map) (loadPermutations sidecar)
        ((gguf.getU32 "expert_count").getD 0) layer t = some layout ↔
      t.layerIndex = some layer ∧ (TensorRole.fromName t.name = .moeFusedExperts ∧
        0 < (gguf.getU32 "expert_count").getD 0) ∧ ∃ r, tensorRegion gguf map t = some r ∧
          layout = fusedLayout gguf sidecar layer t r) := by
    intro t ht
    simp only [expertLayoutOf, lookup_locateTensors hnames ht, tensorRegion, fusedLayout,
      Option.bind_eq_bind, Option.pure_def]
    by_cases hl : t.layerIndex = some layer
    · cases hmap : map.lookup t.name with
      | none => simp [hl]
      | some loc =>
          by_cases hr : TensorRole.fromName t.name = .moeFusedExperts ∧
              0 < (gguf.getU32 "expert_count").getD 0
          · simp [hl, hr, eq_comm]
          · simp [hl, hr]
    · simp [hl]
  constructor
  · intro h
    obtain ⟨t, ht, h⟩ := h
    obtain ⟨hl, ⟨hrole, hpos⟩, hr⟩ := (hof t ht).mp h
    exact ⟨hpos, t, ht, hl, hrole, hr⟩
  · intro h
    obtain ⟨hpos, t, ht, hl, hrole, hr⟩ := h
    exact ⟨t, ht, (hof t ht).mpr ⟨hl, ⟨hrole, hpos⟩, hr⟩⟩

/-- What is recorded for tensors under their names has distinct names. -/
theorem nodup_filterMap_names {α : Type} {f : TensorInfo → Option α} {name : α → String}
    (hname : ∀ t a, f t = some a → name a = t.name) {ts : List TensorInfo}
    (hnodup : (ts.map (·.name)).Nodup) : ((ts.filterMap f).map name).Nodup := by
  refine hnodup.sublist ?_
  clear hnodup
  induction ts with
  | nil => exact List.Sublist.refl _
  | cons t ts ih =>
      rw [List.filterMap_cons]
      cases ht : f t with
      | none => exact ih.cons _
      | some a =>
          rw [List.map_cons, List.map_cons, hname t a ht]
          exact ih.cons_cons _

/-- No tensor has two layouts. -/
theorem nodup_expertLayouts_names (hnames : (gguf.tensors.map (·.name)).Nodup) :
    (((buildPrefetchState gguf map sidecar numLayers nvmeLayers).expertLayouts layer).map
      (·.tensorName)).Nodup := by
  refine nodup_filterMap_names (fun t layout h => ?_) hnames
  simp only [expertLayoutOf, Option.bind_eq_bind, Option.bind_eq_some_iff, Option.pure_def,
    Option.some.injEq] at h
  obtain ⟨-, -, loc, -, -, -, rfl⟩ := h
  rfl

/-- The other regions of a layer with fused experts are those of its other tensors. -/
theorem mem_nonExpertRegions (hnames : (gguf.tensors.map (·.name)).Nodup)
    (hne : (buildPrefetchState gguf map sidecar numLayers nvmeLayers).expertLayouts layer ≠ [])
    {r : Region} :
    r ∈ (buildPrefetchState gguf map sidecar numLayers nvmeLayers).nonExpertRegions layer ↔
      ∃ t ∈ gguf.tensors, t.layerIndex = some layer ∧
        TensorRole.fromName t.name ≠ .moeFusedExperts ∧ tensorRegion gguf map t = some r := by
  obtain ⟨layout, hlayout⟩ := List.exists_mem_of_ne_nil _ hne
  have hpos := ((mem_expertLayouts_iff hnames).mp hlayout).1
  have hregions : (buildPrefetchState gguf map sidecar numLayers nvmeLayers).nonExpertRegions layer =
      sortRegions (gguf.tensors.filterMap (nonExpertRegionOf (locateTensors gguf map)
        ((gguf.getU32 "expert_count").getD 0) layer)) := if_neg hne
  rw [hregions, mem_sortRegions, List.mem_filterMap]
  refine exists_congr fun t => and_congr_right fun ht => ?_
  simp only [nonExpertRegionOf, lookup_locateTensors hnames ht, tensorRegion,
    TensorLocation.region, Option.bind_eq_bind, Option.pure_def]
  by_cases hl : t.layerIndex = some layer
  · cases hmap : map.lookup t.name with
    | none => simp [hl]
    | some loc =>
        have hzero : (gguf.getU32 "expert_count").getD 0 ≠ 0 := by omega
        by_cases hr : TensorRole.fromName t.name = .moeFusedExperts
        · simp [hl, hr, hpos]
        · simp [hl, hr, hzero]
  · simp [hl]

end Config

end Hypura
