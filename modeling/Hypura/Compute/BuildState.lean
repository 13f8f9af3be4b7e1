import Hypura.Io.ExpertLayout
import Hypura.Model.Gguf
import Hypura.Model.TensorRole
import Mathlib.Data.List.Sort
import Mathlib.Data.Finset.Sort

/-!
# Hypura.Compute.BuildState

`build_prefetch_state` (`compute/nvme_backend.rs`): what the runtime knows about the
layers once the model is loaded — the regions of each layer, the layouts of its fused
expert tensors, its other regions, its dense FFN tensors.

The map of tensor locations comes from the loader's callbacks, in whatever order its
hash table iterates; the permutation sidecar, when there is one, is inverted here.
A `HashMap<u32, Vec<_>>` whose entries are created by their first push is a function
to lists: a missing entry is the empty list.
-/

namespace Hypura

/-- `TensorLocation`: metadata about a tensor's location in both the buffer and the file. -/
structure TensorLocation where
  offsetInBuffer : Nat
  size : Nat
  fileOffset : Nat
  layerIndex : Option Nat
  deriving DecidableEq, Repr

/-- The tensor map, in the order it is iterated. -/
abbrev TensorMap := List (String × TensorLocation)

/-- `DenseFfnLayout`. -/
structure DenseFfnLayout where
  tensorName : String
  layerIndex : Nat
  fileOffset : Nat
  size : Nat
  deriving DecidableEq, Repr

/-- What stands in a `.permutations.json` file. -/
inductive Sidecar
  /-- A map from layers to permutations. -/
  | permutations (forward : List (Nat × List Nat))
  /-- Text that does not deserialise to one. -/
  | unreadable
  deriving DecidableEq, Repr

/-- The fields of `PrefetchState` that `build_prefetch_state` fixes. -/
structure PrefetchConfig where
  layerRegions : Nat → List Region
  numLayers : Nat
  nvmeLayers : Finset Nat
  sortedNvmeLayers : List Nat
  expertLayouts : Nat → List ExpertLayout
  nonExpertRegions : Nat → List Region
  denseFfnLayouts : Nat → List DenseFfnLayout
  numExpertsUsed : Nat
  numExpertsTotal : Nat
  cacheCapacity : Nat

/-! ### The sidecar -/

/-- The inversion loop, from physical position `phys` on. -/
def invertFrom (phys : Nat) : List Nat → List Nat → List Nat
  | [], inv => inv
  -- `set` leaves a list alone past its end, as the bound check of the source does
  | logical :: fwd, inv => invertFrom (phys + 1) fwd (inv.set logical phys)

/-- Invert: `forward[phys_pos] = logical_id → inverse[logical_id] = phys_pos`. -/
def invertPermutation (fwd : List Nat) : List Nat :=
  invertFrom 0 fwd (List.replicate fwd.length 0)

/-- The `permutations` map: no sidecar, or one that cannot be read, is an empty map. -/
def loadPermutations (sidecar : Option Sidecar) (layer : Nat) : Option (List Nat) :=
  match sidecar with
  | some (.permutations forward) => (forward.lookup layer).map invertPermutation
  | some .unreadable => none
  | none => none

/-! ### The state -/

/-- File offset and layer of one tensor, filled in under its name. -/
def locateTensor (dataOffset : Nat) (map : TensorMap) (t : TensorInfo) : TensorMap :=
  map.map fun (name, loc) =>
    if name = t.name then
      (name, { loc with fileOffset := dataOffset + t.offset, layerIndex := t.layerIndex })
    else (name, loc)

/-- File offsets and layer indices from the metadata. -/
def locateTensors (gguf : GgufFile) (map : TensorMap) : TensorMap :=
  gguf.tensors.foldl (locateTensor gguf.dataOffset) map

def TensorLocation.region (loc : TensorLocation) : Region :=
  ⟨loc.offsetInBuffer, loc.size, loc.fileOffset⟩

/-- Regions sorted by file offset for sequential I/O (the sort is stable). -/
def sortRegions (rs : List Region) : List Region :=
  rs.insertionSort fun r r' => r.fileOffset ≤ r'.fileOffset

/-- The FFN roles streamed through the dense pool. -/
def TensorRole.isDenseFfn : TensorRole → Bool
  | .ffnGate => true
  | .ffnUp => true
  | .ffnDown => true
  | _ => false

/-- The layout of a fused expert tensor of layer `layer`, if that is what `t` is. -/
def expertLayoutOf (map : TensorMap) (perms : Nat → Option (List Nat)) (numExpertsTotal layer : Nat)
    (t : TensorInfo) : Option ExpertLayout := do
  guard (t.layerIndex = some layer)
  let loc ← map.lookup t.name
  guard (TensorRole.fromName t.name = .moeFusedExperts ∧ 0 < numExpertsTotal)
  pure {
    tensorName := t.name
    layerIndex := layer
    numExperts := numExpertsTotal
    expertStride := loc.size / numExpertsTotal
    fileOffset := loc.fileOffset
    bufferOffset := loc.offsetInBuffer
    totalSize := loc.size
    expertPermutation := perms layer }

/-- The layout of a dense FFN tensor of layer `layer`. -/
def denseFfnLayoutOf (map : TensorMap) (numExpertsTotal layer : Nat) (t : TensorInfo) :
    Option DenseFfnLayout := do
  guard (t.layerIndex = some layer)
  let loc ← map.lookup t.name
  guard ((TensorRole.fromName t.name).isDenseFfn ∧ numExpertsTotal = 0)
  pure {
    tensorName := t.name
    layerIndex := layer
    fileOffset := loc.fileOffset
    size := loc.size }

/-- The region of any other tensor of layer `layer`. -/
def nonExpertRegionOf (map : TensorMap) (numExpertsTotal layer : Nat) (t : TensorInfo) :
    Option Region := do
  guard (t.layerIndex = some layer)
  let loc ← map.lookup t.name
  let role := TensorRole.fromName t.name
  guard (¬ (role = .moeFusedExperts ∧ 0 < numExpertsTotal) ∧
    ¬ (role.isDenseFfn ∧ numExpertsTotal = 0))
  pure loc.region

/-- `build_prefetch_state`. -/
def buildPrefetchState (gguf : GgufFile) (tensorMap : TensorMap) (sidecar : Option Sidecar)
    (numLayers : Nat) (nvmeLayers : Finset Nat) : PrefetchConfig :=
  let map := locateTensors gguf tensorMap
  let numExpertsTotal := (gguf.getU32 "expert_count").getD 0
  let perms := loadPermutations sidecar
  let expertLayouts layer :=
    gguf.tensors.filterMap (expertLayoutOf map perms numExpertsTotal layer)
  let sorted := nvmeLayers.sort (· ≤ ·)
  { layerRegions := fun layer =>
      sortRegions ((map.filter fun entry => entry.2.layerIndex = some layer).map (·.2.region))
    numLayers := numLayers
    nvmeLayers := nvmeLayers
    sortedNvmeLayers := sorted
    expertLayouts := expertLayouts
    -- entries of layers without fused experts are dropped
    nonExpertRegions := fun layer =>
      if expertLayouts layer = [] then []
      else sortRegions (gguf.tensors.filterMap (nonExpertRegionOf map numExpertsTotal layer))
    denseFfnLayouts := fun layer =>
      gguf.tensors.filterMap (denseFfnLayoutOf map numExpertsTotal layer)
    numExpertsUsed := (gguf.getU32 "expert_used_count").getD 0
    numExpertsTotal := numExpertsTotal
    cacheCapacity := max ((sorted.filter fun l => expertLayouts l ≠ []).length * 3 * 3) 16 }

/-! ### What the map says of one tensor -/

theorem lookup_locateTensor (dataOffset : Nat) (map : TensorMap) (t : TensorInfo) (name : String) :
    (locateTensor dataOffset map t).lookup name = (map.lookup name).map fun loc =>
      if name = t.name then
        { loc with fileOffset := dataOffset + t.offset, layerIndex := t.layerIndex }
      else loc := by
  induction map with
  | nil => rfl
  | cons entry map ih =>
      obtain ⟨n, loc⟩ := entry
      have hkey : ∀ l, locateTensor dataOffset ((n, loc) :: map) t = (n, l) ::
          locateTensor dataOffset map t ↔
          (if n = t.name then
            { loc with fileOffset := dataOffset + t.offset, layerIndex := t.layerIndex }
          else loc) = l := by
        intro l
        by_cases hn : n = t.name <;> simp [locateTensor, hn]
      rw [(hkey _).mpr rfl, List.lookup_cons, List.lookup_cons, ih]
      by_cases hname : name = n
      · subst hname; simp
      · rw [beq_false_of_ne hname]

/-- A name that no tensor of the list has keeps its location. -/
theorem lookup_foldl_locateTensor_of_not_mem {dataOffset : Nat} {name : String}
    {ts : List TensorInfo} (hts : ∀ t ∈ ts, t.name ≠ name) (map : TensorMap) :
    (ts.foldl (locateTensor dataOffset) map).lookup name = map.lookup name := by
  induction ts generalizing map with
  | nil => rfl
  | cons t ts ih =>
      rw [List.foldl_cons, ih fun t' ht' => hts t' (List.mem_cons_of_mem _ ht'),
        lookup_locateTensor]
      have hne : name ≠ t.name := fun h => hts t List.mem_cons_self h.symm
      simp [hne]

/-- A tensor the loader placed gets its own offset, where no other tensor has its name. -/
theorem lookup_locateTensors_of_split {gguf : GgufFile} {t : TensorInfo} {pre post : List TensorInfo}
    (heq : gguf.tensors = pre ++ t :: post) (hpre : ∀ t' ∈ pre, t'.name ≠ t.name)
    (hpost : ∀ t' ∈ post, t'.name ≠ t.name) (map : TensorMap) :
    (locateTensors gguf map).lookup t.name = (map.lookup t.name).map fun loc =>
      { loc with fileOffset := gguf.dataOffset + t.offset, layerIndex := t.layerIndex } := by
  rw [locateTensors, heq, List.foldl_append, List.foldl_cons,
    lookup_foldl_locateTensor_of_not_mem hpost, lookup_locateTensor,
    lookup_foldl_locateTensor_of_not_mem hpre]
  simp

/-- Where names are distinct, each tensor the loader placed gets its own offset. -/
theorem lookup_locateTensors {gguf : GgufFile} (hnodup : (gguf.tensors.map (·.name)).Nodup)
    {t : TensorInfo} (ht : t ∈ gguf.tensors) (map : TensorMap) :
    (locateTensors gguf map).lookup t.name = (map.lookup t.name).map fun loc =>
      { loc with fileOffset := gguf.dataOffset + t.offset, layerIndex := t.layerIndex } := by
  obtain ⟨pre, post, heq⟩ := List.append_of_mem ht
  rw [heq, List.map_append, List.map_cons] at hnodup
  obtain ⟨-, hpost, hdisj⟩ := List.nodup_append.mp hnodup
  have hpre' : ∀ t' ∈ pre, t'.name ≠ t.name := fun t' ht' =>
    hdisj _ (List.mem_map_of_mem ht') _ List.mem_cons_self
  have hpost' : ∀ t' ∈ post, t'.name ≠ t.name := fun t' ht' h =>
    (List.nodup_cons.mp hpost).1 (h ▸ List.mem_map_of_mem ht')
  exact lookup_locateTensors_of_split heq hpre' hpost' map

/-! ### Inverting a permutation -/

theorem invertFrom_getElem? {fwd : List Nat} (hnodup : fwd.Nodup) :
    ∀ {k : Nat} {inv : List Nat}, (∀ x ∈ fwd, x < inv.length) →
      (invertFrom k fwd inv).length = inv.length ∧
      (∀ x ∉ fwd, (invertFrom k fwd inv)[x]? = inv[x]?) ∧
      ∀ p x, fwd[p]? = some x → (invertFrom k fwd inv)[x]? = some (k + p) := by
  induction fwd with
  | nil => intro k inv _; exact ⟨rfl, fun x _ => rfl, fun p x h => by simp at h⟩
  | cons logical fwd ih =>
      intro k inv hlt
      obtain ⟨hnot, hnd⟩ := List.nodup_cons.mp hnodup
      have hlt' : ∀ x ∈ fwd, x < (inv.set logical k).length := by
        intro x hx
        rw [List.length_set]
        exact hlt x (List.mem_cons_of_mem _ hx)
      obtain ⟨hlen, hkeep, hset⟩ := ih hnd (k := k + 1) hlt'
      refine ⟨hlen.trans List.length_set, fun x hx => ?_, fun p x hp => ?_⟩
      · rw [List.mem_cons, not_or] at hx
        rw [invertFrom, hkeep x hx.2, List.getElem?_set_ne (Ne.symm hx.1)]
      · cases p with
        | zero =>
            rw [List.getElem?_cons_zero] at hp
            cases hp
            rw [invertFrom, hkeep logical hnot,
              List.getElem?_set_self (hlt logical List.mem_cons_self)]
            rfl
        | succ p =>
            rw [List.getElem?_cons_succ] at hp
            rw [invertFrom, hset p x hp]
            congr 1
            omega

/-- The inverse of a permutation of `0..n` sends each expert to its position. -/
theorem invertPermutation_getElem? {fwd : List Nat} {n : Nat} (h : fwd.Perm (List.range n))
    {p x : Nat} (hp : fwd[p]? = some x) : (invertPermutation fwd)[x]? = some p := by
  have hlt : ∀ y ∈ fwd, y < (List.replicate fwd.length 0).length := by
    intro y hy
    rw [List.length_replicate, h.length_eq, List.length_range]
    exact List.mem_range.mp (h.mem_iff.mp hy)
  have hnodup : fwd.Nodup := h.nodup_iff.mpr List.nodup_range
  have hset := (invertFrom_getElem? hnodup (k := 0) hlt).2.2 p x hp
  rwa [Nat.zero_add] at hset

end Hypura
