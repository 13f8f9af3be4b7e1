import Hypura.Compute.LoadPaths
import Hypura.Compute.MemoryBounds
import Hypura.Compute.OverridePatterns

/-!
# Hypura.Compute.BufferLoad

How tensors get into the custom buffer, and how the pool takes its place
(`hypura-sys/src/hypura_buft.c` and the controller in `compute/nvme_backend.rs`).

llama.cpp allocates a buffer for the tensors that the override patterns match and calls
`init_tensor` for each of them. The callbacks note where the tensor lies and, for the roles
that are streamed, keep a pointer to it; if there is a scratch buffer, the data pointers of
FFN tensors go there, so that reading their data leaves the buffer alone. In a streaming
mode the buffer is unmapped in the end, after the pointers kept were sent to the pool.
-/

namespace Hypura

open Hypura.Core Hypura.Rust

/-! ### The loader -/

/-- What a tensor's data pointer may lead to. -/
inductive LoadMemory
  | buffer
  | scratch
  | pool
  deriving DecidableEq, Repr

/-- What is used of a `ggml_tensor`. -/
structure GgmlTensor where
  name : String
  nbytes : Nat
  data : LoadMemory × Nat
  deriving DecidableEq, Repr

/-- Where ggml puts a tensor in the buffer. -/
structure Placed where
  name : String
  nbytes : Nat
  offset : Nat
  deriving DecidableEq, Repr

def Placed.tensor (x : Placed) : GgmlTensor := ⟨x.name, x.nbytes, (.buffer, x.offset)⟩

/-- Rounded up to whole pages. -/
def pageAlign (size : Nat) : Nat := (size + 4095) / 4096 * 4096

/-- The buffer and the fields of the controller. -/
structure BufferLoad where
  /-- The sizes of what is mapped. -/
  mapped : LoadMemory → Option Nat
  /-- The tensors in the buffer, which a pointer refers to by their position. -/
  tensors : List GgmlTensor
  tensorMap : TensorMap
  tensorPtrs : List (String × Nat)

/-- `HashMap::insert`: the entry of a key that is there is replaced. -/
def insertEntry {α : Type} (key : String) (a : α) : List (String × α) → List (String × α)
  | [] => [(key, a)]
  | entry :: entries =>
    if entry.1 = key then (key, a) :: entries else entry :: insertEntry key a entries

/-- The roles whose tensors are captured in `on_tensor_init_cb`. -/
def TensorRole.isCaptured (role : TensorRole) : Bool := role.isFusedExperts || role.isDenseFfn

namespace BufferLoad

/-- `HypuraBuftController::new`. -/
def new : BufferLoad := ⟨fun _ => none, [], [], []⟩

section Source
variable (s : BufferLoad)

/-- `enable_dense_ffn_scratch`. -/
def enableDenseFfnScratch (gguf : GgufFile) : BufferLoad :=
  let maxFfnSize := (largestTensor TensorRole.isDenseFfn gguf).getD 0
  if maxFfnSize = 0 then s
  else { s with mapped := Function.update s.mapped .scratch (some (pageAlign maxFfnSize)) }

/-- `hypura_buft_alloc_buffer`. -/
def allocBuffer (size : Nat) : BufferLoad :=
  { s with mapped := Function.update s.mapped .buffer (some (pageAlign size)) }

/-- `on_tensor_loaded_cb`. -/
def onTensorLoaded (x : Placed) : BufferLoad :=
  if x.name = "" then s
  else { s with tensorMap := insertEntry x.name ⟨x.offset, x.nbytes, 0, none⟩ s.tensorMap }

/-- `on_tensor_init_cb`, of the next tensor of the buffer. -/
def onTensorInit (x : Placed) : BufferLoad :=
  let role := TensorRole.fromName x.name
  if role.isCaptured then
    { s with
      tensorPtrs := insertEntry x.name s.tensors.length s.tensorPtrs
      tensors := s.tensors ++ [
        -- an FFN tensor goes to the scratch buffer, if there is one
        if role.isDenseFfn ∧ (s.mapped .scratch).isSome then { x.tensor with data := (.scratch, 0) }
        else x.tensor] }
  else { s with tensors := s.tensors ++ [x.tensor] }

/-- `hypura_buf_init_tensor`. -/
def initTensor (x : Placed) : BufferLoad := (s.onTensorLoaded x).onTensorInit x

/-- The tensors of the names chosen, as far as pointers to them were kept, point to the start
of the pool. -/
def pointToPool (chosen : String → Bool) : List GgmlTensor :=
  s.tensors.mapIdx fun i t =>
    if s.tensorPtrs.any fun entry => entry.2 = i && chosen entry.1 then { t with data := (.pool, 0) }
    else t

/-- `hypura_buffer_init_pool`, then `hypura_buffer_release_loading_buffer`. -/
def replaceBuffer (poolSize : Nat) : LoadMemory → Option Nat :=
  Function.update (Function.update s.mapped .pool (some (pageAlign poolSize))) .buffer none

/-- `activate_expert_pool`: every tensor captured is sent to the pool. -/
def activateExpertPool (gguf : GgufFile) (numSlots : Nat) : Option (ExpertPool × BufferLoad) :=
  (Hypura.activateExpertPool gguf numSlots).map fun pool =>
    (pool, { s with
      mapped := s.replaceBuffer pool.poolSize
      tensors := s.pointToPool fun _ => true })

/-- `activate_dense_ffn_pool`: the FFN tensors are, and the scratch buffer is released, too. -/
def activateDenseFfnPool (gguf : GgufFile) (numSlots : Nat) : Option (ExpertPool × BufferLoad) :=
  (Hypura.activateDenseFfnPool gguf numSlots).map fun pool =>
    (pool, { s with
      mapped := Function.update (s.replaceBuffer pool.poolSize) .scratch none
      tensors := s.pointToPool fun name => (TensorRole.fromName name).isDenseFfn })

end Source

/-- The model is loaded into a buffer of `size` bytes. The scratch buffer is there in the dense
streaming mode, unless it could not be mapped. -/
def load (gguf : GgufFile) (scratch : Bool) (size : Nat) (xs : List Placed) : BufferLoad :=
  xs.foldl initTensor
    ((if scratch then new.enableDenseFfnScratch gguf else new).allocBuffer size)

/-- The activation that belongs to the mode. -/
def activate (mode : InferenceMode) (gguf : GgufFile) (numSlots : Nat) (s : BufferLoad) :
    Option (ExpertPool × BufferLoad) :=
  match mode with
  | .expertStreaming => s.activateExpertPool gguf numSlots
  | .denseFfnStreaming => s.activateDenseFfnPool gguf numSlots
  | _ => none

/-- The data pointer of the tensor leads to memory that is mapped, and has room for it. -/
def Holds (s : BufferLoad) (t : GgmlTensor) : Prop :=
  ∃ size, s.mapped t.data.1 = some size ∧ t.data.2 + t.nbytes ≤ size

/-! ### What is captured -/

section Load
variable {gguf : GgufFile} {scratch : Bool} {size : Nat} {xs : List Placed} {x : Placed}

theorem le_pageAlign (size : Nat) : size ≤ pageAlign size := by
  unfold pageAlign
  omega

theorem insertEntry_of_notMem {α : Type} {key : String} {a : α} {entries : List (String × α)}
    (h : key ∉ entries.map (·.1)) : insertEntry key a entries = entries ++ [(key, a)] := by
  induction entries with
  | nil => rfl
  | cons entry entries ih =>
      rw [List.map_cons, List.mem_cons, not_or] at h
      rw [insertEntry, if_neg fun heq => h.1 heq.symm, ih h.2, List.cons_append]

/-- The tensor after its `init_tensor`. -/
def settle (scratch : Bool) (x : Placed) : GgmlTensor :=
  if (TensorRole.fromName x.name).isDenseFfn ∧ scratch then { x.tensor with data := (.scratch, 0) }
  else x.tensor

/-- What the controller knows once the tensors were initialised. -/
structure Knows (s₀ : BufferLoad) (xs : List Placed) (s : BufferLoad) : Prop where
  mapped : s.mapped = s₀.mapped
  tensors : s.tensors = xs.map (settle (s₀.mapped .scratch).isSome)
  tensorMap : s.tensorMap = xs.map fun x => (x.name, ⟨x.offset, x.nbytes, 0, none⟩)
  names : ∀ entry ∈ s.tensorPtrs, entry.1 ∈ xs.map (·.name)
  /-- Of every tensor captured there is a pointer, under its name. -/
  tensorPtrs : ∀ i x, xs[i]? = some x → (TensorRole.fromName x.name).isCaptured →
    (x.name, i) ∈ s.tensorPtrs

theorem Knows.initTensor {s₀ s : BufferLoad} (h : Knows s₀ xs s) (hfresh : x.name ∉ xs.map (·.name))
    (hname : x.name ≠ "") : Knows s₀ (xs ++ [x]) (s.initTensor x) := by
  have hmap : (s.onTensorLoaded x).tensorMap =
      (xs ++ [x]).map fun x => (x.name, ⟨x.offset, x.nbytes, 0, none⟩) := by
    have hnot : x.name ∉ s.tensorMap.map (·.1) := by
      rw [h.tensorMap, List.map_map]
      exact hfresh
    rw [onTensorLoaded, if_neg hname, List.map_append, ← h.tensorMap]
    exact insertEntry_of_notMem hnot
  have hrest : (s.onTensorLoaded x).mapped = s.mapped ∧ (s.onTensorLoaded x).tensors = s.tensors ∧
      (s.onTensorLoaded x).tensorPtrs = s.tensorPtrs := by
    rw [onTensorLoaded, if_neg hname]
    exact ⟨rfl, rfl, rfl⟩
  obtain ⟨hmapped, htensors, hptrs⟩ := hrest
  have hlength : s.tensors.length = xs.length := by rw [h.tensors, List.length_map]
  have hold : ∀ {i : Nat} {y : Placed}, (xs ++ [x])[i]? = some y → i < xs.length →
      xs[i]? = some y := fun hi hlt => by rwa [List.getElem?_append_left hlt] at hi
  have hlast : ∀ {i : Nat} {y : Placed}, (xs ++ [x])[i]? = some y → ¬ i < xs.length →
      i = xs.length ∧ y = x := by
    intro i y hi hlt
    have hbound : i < xs.length + 1 := by
      simpa using (List.getElem?_eq_some_iff.mp hi).1
    obtain rfl : i = xs.length := by omega
    simpa using hi.symm
  by_cases hcaptured : (TensorRole.fromName x.name).isCaptured
  · have hnot : x.name ∉ s.tensorPtrs.map (·.1) := by
      intro hmem
      obtain ⟨entry, hentry, hkey⟩ := List.mem_map.mp hmem
      exact hfresh (hkey ▸ h.names entry hentry)
    have hinsert : insertEntry x.name s.tensors.length s.tensorPtrs =
        s.tensorPtrs ++ [(x.name, xs.length)] := by rw [insertEntry_of_notMem hnot, hlength]
    rw [BufferLoad.initTensor, onTensorInit, if_pos hcaptured]
    simp only [hmapped, htensors, hptrs, hinsert]
    refine ⟨h.mapped, ?_, hmap, fun entry hentry => ?_, fun i y hi hrole => ?_⟩
    · rw [h.tensors, h.mapped, List.map_append]
      rfl
    · rw [List.map_append]
      rcases List.mem_append.mp hentry with hentry | hentry
      · exact List.mem_append_left _ (h.names entry hentry)
      · rw [List.mem_singleton.mp hentry]
        exact List.mem_append_right _ List.mem_cons_self
    · by_cases hlt : i < xs.length
      · exact List.mem_append_left _ (h.tensorPtrs i y (hold hi hlt) hrole)
      · obtain ⟨rfl, rfl⟩ := hlast hi hlt
        exact List.mem_append_right _ List.mem_cons_self
  · rw [BufferLoad.initTensor, onTensorInit, if_neg hcaptured]
    have hdense : (TensorRole.fromName x.name).isDenseFfn = false := by
      simp only [TensorRole.isCaptured, Bool.or_eq_true, not_or, Bool.not_eq_true] at hcaptured
      exact hcaptured.2
    refine ⟨hmapped.trans h.mapped, ?_, hmap, fun entry hentry => ?_, fun i y hi hrole => ?_⟩
    · rw [List.map_append, ← h.tensors]
      simp [htensors, settle, hdense]
    · rw [List.map_append]
      exact List.mem_append_left _ (h.names entry (hptrs ▸ hentry))
    · by_cases hlt : i < xs.length
      · exact hptrs ▸ h.tensorPtrs i y (hold hi hlt) hrole
      · obtain ⟨rfl, rfl⟩ := hlast hi hlt
        exact absurd hrole hcaptured

theorem knows_foldl {s₀ : BufferLoad} (hempty : s₀.tensors = [] ∧ s₀.tensorMap = [] ∧
    s₀.tensorPtrs = []) (hnames : (xs.map (·.name)).Nodup) (hne : ∀ x ∈ xs, x.name ≠ "") :
    Knows s₀ xs (xs.foldl BufferLoad.initTensor s₀) := by
  induction xs using List.reverseRecOn with
  | nil =>
      obtain ⟨htensors, hmap, hptrs⟩ := hempty
      exact ⟨rfl, htensors, hmap, by simp [hptrs], by simp⟩
  | append_singleton xs x ih =>
      rw [List.map_append, List.nodup_append] at hnames
      obtain ⟨hxs, -, hdisjoint⟩ := hnames
      rw [List.foldl_append]
      refine (ih hxs fun y hy => hne y (List.mem_append_left _ hy)).initTensor (fun hmem => ?_)
        (hne x (by simp))
      exact hdisjoint _ hmem _ (by simp) rfl

/-! ### Memory while the model is loaded -/

/-- The state before the first tensor. -/
def allocated (gguf : GgufFile) (scratch : Bool) (size : Nat) : BufferLoad :=
  (if scratch then new.enableDenseFfnScratch gguf else new).allocBuffer size

theorem allocated_empty : (allocated gguf scratch size).tensors = [] ∧
    (allocated gguf scratch size).tensorMap = [] ∧
    (allocated gguf scratch size).tensorPtrs = [] := by
  unfold allocated allocBuffer
  split
  · unfold enableDenseFfnScratch
    dsimp only
    split <;> exact ⟨rfl, rfl, rfl⟩
  · exact ⟨rfl, rfl, rfl⟩

theorem allocated_buffer :
    (allocated gguf scratch size).mapped .buffer = some (pageAlign size) := by
  simp [allocated, allocBuffer]

/-- The scratch buffer, if there is one, has room for every FFN tensor. -/
theorem le_scratch {maxSize : Nat}
    (h : (allocated gguf scratch size).mapped .scratch = some maxSize) {t : TensorInfo}
    (ht : t ∈ gguf.tensors) (hrole : (TensorRole.fromName t.name).isDenseFfn) :
    t.sizeBytes ≤ maxSize := by
  have hnone : (allocBuffer new size).mapped .scratch = none := by simp [allocBuffer, new]
  unfold allocated at h
  split at h
  · unfold enableDenseFfnScratch at h
    dsimp only at h
    split at h
    · rw [hnone] at h
      cases h
    · simp only [allocBuffer, ne_eq, reduceCtorEq, not_false_eq_true, Function.update_of_ne,
        Function.update_self, Option.some.injEq] at h
      rw [← h]
      exact (le_largestTensor ht hrole).trans (le_pageAlign _)
  · rw [hnone] at h
    cases h

/-- What llama.cpp puts into the buffer: tensors of the file whose names a pattern matches, each
in a place of its own. -/
structure Fills (gguf : GgufFile) (multiline : Bool) (patterns : List String) (size : Nat)
    (xs : List Placed) : Prop where
  listed : ∀ x ∈ xs, ∃ t ∈ gguf.tensors, t.name = x.name ∧ x.nbytes ≤ t.sizeBytes
  overridden : ∀ x ∈ xs, Overridden multiline patterns x.name
  names : (xs.map (·.name)).Nodup
  inside : ∀ x ∈ xs, x.offset + x.nbytes ≤ size
  apart : xs.Pairwise fun x y => DisjointRanges x.offset x.nbytes y.offset y.nbytes

variable {multiline : Bool} {patterns : List String}

theorem Fills.take (h : Fills gguf multiline patterns size xs) (k : Nat) :
    Fills gguf multiline patterns size (xs.take k) where
  listed x hx := h.listed x (List.mem_of_mem_take hx)
  overridden x hx := h.overridden x (List.mem_of_mem_take hx)
  names := h.names.sublist ((List.take_sublist k xs).map _)
  inside x hx := h.inside x (List.mem_of_mem_take hx)
  apart := h.apart.sublist (List.take_sublist k xs)

theorem Fills.knows (h : Fills gguf multiline patterns size xs) (hne : ∀ x ∈ xs, x.name ≠ "") :
    Knows (allocated gguf scratch size) xs (load gguf scratch size xs) :=
  knows_foldl allocated_empty h.names hne

/-- The data of a tensor is read into memory that has room for it. -/
theorem Fills.holds (h : Fills gguf multiline patterns size xs) (hne : ∀ x ∈ xs, x.name ≠ "")
    {t : GgmlTensor} (ht : t ∈ (load gguf scratch size xs).tensors) :
    (load gguf scratch size xs).Holds t := by
  have hknows : Knows (allocated gguf scratch size) xs (load gguf scratch size xs) := h.knows hne
  rw [hknows.tensors] at ht
  obtain ⟨x, hx, rfl⟩ := List.mem_map.mp ht
  unfold Holds
  rw [hknows.mapped]
  unfold settle
  split
  · next hscratch =>
      obtain ⟨maxSize, hmax⟩ := Option.isSome_iff_exists.mp hscratch.2
      obtain ⟨t, ht, hname, hle⟩ := h.listed x hx
      refine ⟨maxSize, hmax, ?_⟩
      show 0 + x.nbytes ≤ maxSize
      rw [Nat.zero_add]
      exact hle.trans (le_scratch hmax ht (hname ▸ hscratch.1))
  · exact ⟨_, allocated_buffer, (h.inside x hx).trans (le_pageAlign size)⟩

theorem Fills.captured (h : Fills gguf multiline patterns size xs) (hne : ∀ x ∈ xs, x.name ≠ "") :
    Captured (load gguf scratch size xs).tensorMap := by
  have hknows : Knows (allocated gguf scratch size) xs (load gguf scratch size xs) := h.knows hne
  have hmap := hknows.tensorMap
  refine ⟨?_, ?_, ?_⟩
  · rw [hmap, List.map_map]
    exact h.names
  · rw [hmap]
    intro entry hentry
    obtain ⟨x, -, rfl⟩ := List.mem_map.mp hentry
    rfl
  · rw [hmap]
    exact List.pairwise_map.mpr h.apart

theorem Fills.map_inside (h : Fills gguf multiline patterns size xs)
    (hne : ∀ x ∈ xs, x.name ≠ "") : ∀ entry ∈ (load gguf scratch size xs).tensorMap,
      entry.2.offsetInBuffer + entry.2.size ≤ size := by
  rw [(h.knows hne).tensorMap]
  intro entry hentry
  obtain ⟨x, hx, rfl⟩ := List.mem_map.mp hentry
  exact h.inside x hx

theorem Fills.map_sizes (h : Fills gguf multiline patterns size xs)
    (hne : ∀ x ∈ xs, x.name ≠ "") (hnames : (gguf.tensors.map (·.name)).Nodup) :
    ∀ t ∈ gguf.tensors, ∀ loc, (load gguf scratch size xs).tensorMap.lookup t.name = some loc →
      loc.size ≤ t.sizeBytes := by
  intro t ht loc hloc
  have hmem := mem_of_lookup_eq_some hloc
  rw [(h.knows hne).tensorMap] at hmem
  obtain ⟨x, hx, heq⟩ := List.mem_map.mp hmem
  obtain ⟨hname, rfl⟩ := Prod.mk.inj heq
  obtain ⟨t', ht', hname', hle⟩ := h.listed x hx
  have htt : t' = t := List.inj_on_of_nodup_map hnames ht' ht (hname'.trans hname)
  exact htt ▸ hle

/-! ### The pool in place of the buffer -/

/-- A tensor of which a pointer was kept is sent to the pool. -/
theorem Knows.pointToPool {s₀ s : BufferLoad} (h : Knows s₀ xs s) (chosen : String → Bool)
    (hchosen : ∀ x ∈ xs, (TensorRole.fromName x.name).isCaptured ∧ chosen x.name) :
    s.pointToPool chosen = xs.map fun x => ⟨x.name, x.nbytes, (.pool, 0)⟩ := by
  refine List.ext_getElem (by simp [BufferLoad.pointToPool, h.tensors]) fun i hi hi' => ?_
  have hlt : i < xs.length := by simpa using hi'
  obtain ⟨hrole, hname⟩ := hchosen xs[i] (List.getElem_mem hlt)
  have hptr : s.tensorPtrs.any fun entry => entry.2 = i && chosen entry.1 := by
    refine List.any_eq_true.mpr ⟨_, h.tensorPtrs i xs[i] (List.getElem?_eq_getElem hlt) hrole, ?_⟩
    simp [hname]
  simp only [BufferLoad.pointToPool, List.getElem_mapIdx, hptr, if_true, h.tensors,
    List.getElem_map]
  unfold settle
  split <;> rfl

/-- After the activation there is the pool, and no buffer; the tensors point to its start. -/
theorem activate_spec {mode : InferenceMode} {numSlots : Nat} {pool : ExpertPool}
    {s₀ s s' : BufferLoad} (h : Knows s₀ xs s)
    (hroles : ∀ x ∈ xs, mode.Streams (TensorRole.fromName x.name))
    (hactive : activate mode gguf numSlots s = some (pool, s')) :
    s'.mapped .buffer = none ∧ s'.mapped .pool = some (pageAlign pool.poolSize) ∧
      s'.tensors = xs.map (fun x => ⟨x.name, x.nbytes, (.pool, 0)⟩) ∧
      s'.tensorMap = s.tensorMap ∧
      ∃ streamed : TensorRole → Bool, activatePool streamed gguf numSlots = some pool ∧
        ∀ x ∈ xs, streamed (TensorRole.fromName x.name) := by
  unfold activate at hactive
  split at hactive
  · obtain ⟨pool', hpool, heq⟩ := Option.map_eq_some_iff.mp hactive
    obtain ⟨rfl, rfl⟩ := Prod.mk.inj heq
    have hcaptured : ∀ x ∈ xs, (TensorRole.fromName x.name).isFusedExperts := fun x hx =>
      decide_eq_true (hroles x hx)
    have hsent := h.pointToPool (fun _ => true) fun x hx =>
      ⟨by simp [TensorRole.isCaptured, hcaptured x hx], rfl⟩
    exact ⟨by simp [replaceBuffer], by simp [replaceBuffer], hsent, rfl, _, hpool, hcaptured⟩
  · obtain ⟨pool', hpool, heq⟩ := Option.map_eq_some_iff.mp hactive
    obtain ⟨rfl, rfl⟩ := Prod.mk.inj heq
    have hcaptured : ∀ x ∈ xs, (TensorRole.fromName x.name).isDenseFfn := hroles
    have hsent := h.pointToPool (fun name => (TensorRole.fromName name).isDenseFfn)
      fun x hx => ⟨by simp [TensorRole.isCaptured, hcaptured x hx], hcaptured x hx⟩
    exact ⟨by simp [replaceBuffer], by simp [replaceBuffer], hsent, rfl, _, hpool, hcaptured⟩
  · cases hactive

/-- In the streaming modes a pattern matches tensors of the roles that are streamed. -/
theorem streams_of_overridden {F : Type} [F64 F]
    {solve : Program MipVar F → Option (MipVar → F)} {hw : HardwareProfile} {contextLength : Nat}
    {plan : PlacementPlan F} {nGpuLayers : Int} (hclean : CleanNames gguf)
    (hplan : computePlacementWithContext solve gguf hw contextLength = plan)
    (hmode : plan.inferenceMode = .expertStreaming ∨ plan.inferenceMode = .denseFfnStreaming)
    (hpatterns : buildOverridePatterns plan gguf nGpuLayers = some patterns) {t : TensorInfo}
    (ht : t ∈ gguf.tensors) (h : Overridden multiline patterns t.name) :
    plan.inferenceMode.Streams (TensorRole.fromName t.name) := by
  rw [buildOverridePatterns_streaming hclean hmode, Option.some.injEq] at hpatterns
  subst hpatterns
  obtain ⟨p, hp, hmatch⟩ := h
  obtain ⟨u, hu, rfl⟩ := List.mem_map.mp hp
  obtain ⟨hu, hnvme⟩ := List.mem_filter.mp hu
  rw [(namePattern_matches_iff (hclean t ht).1).mp hmatch]
  exact ((lookup_plan_nvme hplan hmode).1 u hu).mp (of_decide_eq_true hnvme)

/-- **No tensor is left without memory**: whichever tensors the override patterns of a
streaming plan send to the buffer, at every moment of the loading the data pointer of every
tensor that is there leads to memory that is mapped and has room for it; and once the buffer
was unmapped all of them lead to the pool. What was captured is what the loads rely on: one
entry for each tensor that is there, in places that are apart and inside the buffer. -/
theorem load_sound {F : Type} [F64 F] {solve : Program MipVar F → Option (MipVar → F)}
    {hw : HardwareProfile} {contextLength : Nat} {plan : PlacementPlan F} {nGpuLayers : Int}
    (hclean : CleanNames gguf) (hnames : (gguf.tensors.map (·.name)).Nodup)
    (hplan : computePlacementWithContext solve gguf hw contextLength = plan)
    (hmode : plan.inferenceMode = .expertStreaming ∨ plan.inferenceMode = .denseFfnStreaming)
    (hpatterns : buildOverridePatterns plan gguf nGpuLayers = some patterns)
    (hfills : Fills gguf multiline patterns size xs) (scratch : Bool) :
    (∀ k, ∀ t ∈ (load gguf scratch size (xs.take k)).tensors,
      (load gguf scratch size (xs.take k)).Holds t) ∧
    ((load gguf scratch size xs).tensorMap =
        xs.map (fun x => (x.name, ⟨x.offset, x.nbytes, 0, none⟩)) ∧
      Captured (load gguf scratch size xs).tensorMap ∧
      (∀ entry ∈ (load gguf scratch size xs).tensorMap,
        entry.2.offsetInBuffer + entry.2.size ≤ size) ∧
      ∀ t ∈ gguf.tensors, ∀ loc, (load gguf scratch size xs).tensorMap.lookup t.name = some loc →
        loc.size ≤ t.sizeBytes) ∧
    ∀ numSlots pool s', 0 < numSlots →
      activate plan.inferenceMode gguf numSlots (load gguf scratch size xs) = some (pool, s') →
      s'.mapped .buffer = none ∧ s'.tensors.map (·.name) = xs.map (·.name) ∧
        ∀ t ∈ s'.tensors, t.data = (.pool, 0) ∧ s'.Holds t := by
  have hroles : ∀ x ∈ xs, plan.inferenceMode.Streams (TensorRole.fromName x.name) := by
    intro x hx
    obtain ⟨t, ht, hname, -⟩ := hfills.listed x hx
    rw [← hname]
    exact streams_of_overridden hclean hplan hmode hpatterns ht (hname ▸ hfills.overridden x hx)
  -- a tensor without a name has no role that is streamed
  have hne : ∀ x ∈ xs, x.name ≠ "" := by
    intro x hx hempty
    have hrole := hroles x hx
    have hplain : TensorRole.fromName "" = .other "" := by decide
    rw [hempty, hplain] at hrole
    rcases hmode with hm | hm <;> rw [hm] at hrole <;> cases hrole
  refine ⟨fun k t ht => (hfills.take k).holds (fun x hx => hne x (List.mem_of_mem_take hx)) ht,
    ⟨(hfills.knows hne).tensorMap, hfills.captured hne, hfills.map_inside hne,
      hfills.map_sizes hne hnames⟩, ?_⟩
  intro numSlots pool s' hslots hactive
  obtain ⟨hbuffer, hpool, htensors, -, streamed, hactivate, hstreamed⟩ :=
    activate_spec (hfills.knows hne) hroles hactive
  refine ⟨hbuffer, by simp [htensors], fun t ht => ?_⟩
  rw [htensors] at ht
  obtain ⟨x, hx, rfl⟩ := List.mem_map.mp ht
  obtain ⟨t, ht, hname, hle⟩ := hfills.listed x hx
  refine ⟨rfl, _, hpool, ?_⟩
  -- the first slot has room for it
  obtain ⟨-, hsize, -⟩ := activatePool_spec hactivate
  have hslot : x.nbytes ≤ pool.slotSize :=
    hle.trans (sizeBytes_le_slotSize hactivate ht (hname ▸ hstreamed x hx))
  have hone : pool.slotSize ≤ pool.poolSize := hsize ▸ Nat.le_mul_of_pos_left _ hslots
  show 0 + x.nbytes ≤ pageAlign pool.poolSize
  rw [Nat.zero_add]
  exact hslot.trans (hone.trans (le_pageAlign _))

/-- The runtime of a streaming plan is built as `Runtime.Built` says, by what was captured and
by the pool that took the place of the buffer. -/
theorem Fills.built (h : Fills gguf multiline patterns size xs) (hne : ∀ x ∈ xs, x.name ≠ "")
    (hnames : (gguf.tensors.map (·.name)).Nodup) {mode : InferenceMode} {numSlots n : Nat}
    {pool : ExpertPool} {s' : BufferLoad} (hslots : 0 < numSlots)
    (hactive : activate mode gguf numSlots (load gguf scratch size xs) = some (pool, s'))
    {rt : Runtime} {sidecar : Option Sidecar} {numLayers : Nat} {nvmeLayers : Finset Nat}
    (hrt : rt.Runs mode
      (buildPrefetchState gguf (load gguf scratch size xs).tensorMap sidecar numLayers nvmeLayers))
    (hplaces : ∀ l, ∀ layout ∈ rt.config.expertLayouts l, layout.PlacesInside)
    (hfew : ∀ l, rt.streamedTensors l ≤ numSlots)
    (hoffsets : ∀ name offset, rt.residentFfnOffsets name = some offset →
      Machine.residentOffset rt.config n name = some offset) :
    rt.Built gguf (load gguf scratch size xs).tensorMap (some pool) size numSlots n where
  modes hdense := by
    rw [hrt.dense, decide_eq_true_eq] at hdense
    rw [hrt.expert, hdense]
    rfl
  config := ⟨_, _, _, hrt.config⟩
  names := hnames
  captured := h.captured hne
  inBuffer := h.map_inside hne
  sizes := h.map_sizes hne hnames
  places := hplaces
  pool _ := by
    refine ⟨pool, rfl, ?_⟩
    unfold activate at hactive
    split at hactive
    · obtain ⟨pool', hpool, heq⟩ := Option.map_eq_some_iff.mp hactive
      obtain ⟨rfl, -⟩ := Prod.mk.inj heq
      rw [Runtime.streamedRole, if_pos (by rw [hrt.expert]; rfl)]
      exact hpool
    · obtain ⟨pool', hpool, heq⟩ := Option.map_eq_some_iff.mp hactive
      obtain ⟨rfl, -⟩ := Prod.mk.inj heq
      rw [Runtime.streamedRole, if_neg (by rw [hrt.expert]; simp)]
      exact hpool
    · cases hactive
  slots := hslots
  few := hfew
  offsets := hoffsets

end Load

end BufferLoad

/-! ### Three tensors -/

/-- A dense model of three FFN tensors in two layers. -/
def threeFfnHeader : WireHeader where
  version := 3
  kvs := [("general.architecture", .string "llama")]
  tensors :=
    [{ name := "blk.0.ffn_gate.weight", dims := [1024], dtype := 0, offset := 0 },
      { name := "blk.0.ffn_up.weight", dims := [2048], dtype := 0, offset := 4096 },
      { name := "blk.1.ffn_down.weight", dims := [512], dtype := 0, offset := 12288 }]

def threeFfnPlan : PlacementPlan ℚ :=
  computePlacementWithContext (fun _ => none) threeFfnHeader.parsed tinyMachine 4096

theorem threeFfn_mode : threeFfnPlan.inferenceMode = .denseFfnStreaming := by decide +kernel

/-- They are put into the buffer in another order. -/
def threeFfnPlaced : List Placed :=
  [⟨"blk.0.ffn_up.weight", 8192, 0⟩, ⟨"blk.1.ffn_down.weight", 2048, 8192⟩,
    ⟨"blk.0.ffn_gate.weight", 4096, 10240⟩]

theorem threeFfn_names : threeFfnHeader.parsed.tensors.map (·.name) =
    ["blk.0.ffn_gate.weight", "blk.0.ffn_up.weight", "blk.1.ffn_down.weight"] := by decide +kernel

theorem threeFfn_clean : CleanNames threeFfnHeader.parsed := by
  intro t ht
  have hname : t.name ∈ threeFfnHeader.parsed.tensors.map (·.name) := List.mem_map_of_mem ht
  rw [threeFfn_names] at hname
  generalize t.name = name at hname ⊢
  unfold OneLine
  simp only [List.mem_cons, List.not_mem_nil, or_false] at hname
  rcases hname with rfl | rfl | rfl <;> simp [Regex.isLineBreak]

theorem threeFfn_onNvme : threeFfnHeader.parsed.tensors.filter threeFfnPlan.onNvme =
    threeFfnHeader.parsed.tensors := by decide +kernel

theorem threeFfn_fills : BufferLoad.Fills threeFfnHeader.parsed false
    ((threeFfnHeader.parsed.tensors.filter threeFfnPlan.onNvme).map fun t => namePattern t.name)
    14336 threeFfnPlaced where
  listed := by decide +kernel
  overridden x hx := by
    have hlisted : ∀ x ∈ threeFfnPlaced, ∃ t ∈ threeFfnHeader.parsed.tensors, t.name = x.name := by
      decide +kernel
    obtain ⟨t, ht, hname⟩ := hlisted x hx
    rw [threeFfn_onNvme, ← hname]
    exact ⟨_, List.mem_map_of_mem ht, (namePattern_matches_iff (threeFfn_clean t ht).1).mpr rfl⟩
  names := by decide
  inside := by decide
  apart := by
    unfold DisjointRanges threeFfnPlaced
    decide

/-- Their data are read into the scratch buffer; with six slots all are sent to the pool. -/
theorem threeFfn_load_sound :
    (BufferLoad.load threeFfnHeader.parsed true 14336 threeFfnPlaced).tensors =
        [⟨"blk.0.ffn_up.weight", 8192, (.scratch, 0)⟩, ⟨"blk.1.ffn_down.weight", 2048, (.scratch, 0)⟩,
          ⟨"blk.0.ffn_gate.weight", 4096, (.scratch, 0)⟩] ∧
      (∀ k, ∀ t ∈ (BufferLoad.load threeFfnHeader.parsed true 14336 (threeFfnPlaced.take k)).tensors,
        (BufferLoad.load threeFfnHeader.parsed true 14336 (threeFfnPlaced.take k)).Holds t) ∧
      (BufferLoad.load threeFfnHeader.parsed true 14336 threeFfnPlaced).tensorMap =
        [("blk.0.ffn_up.weight", ⟨0, 8192, 0, none⟩), ("blk.1.ffn_down.weight", ⟨8192, 2048, 0, none⟩),
          ("blk.0.ffn_gate.weight", ⟨10240, 4096, 0, none⟩)] ∧
      ∃ pool s', BufferLoad.activate threeFfnPlan.inferenceMode threeFfnHeader.parsed 6
          (BufferLoad.load threeFfnHeader.parsed true 14336 threeFfnPlaced) = some (pool, s') ∧
        s'.mapped .buffer = none ∧ s'.tensors.length = 3 ∧
        ∀ t ∈ s'.tensors, t.data = (.pool, 0) ∧ s'.Holds t := by
  have hsound := BufferLoad.load_sound threeFfn_clean (by decide +kernel) rfl (.inr threeFfn_mode)
    (buildOverridePatterns_streaming threeFfn_clean (.inr threeFfn_mode) 0) threeFfn_fills true
  refine ⟨by decide +kernel, hsound.1, hsound.2.1.1, ?_⟩
  have hactive : (BufferLoad.activate threeFfnPlan.inferenceMode threeFfnHeader.parsed 6
      (BufferLoad.load threeFfnHeader.parsed true 14336 threeFfnPlaced)).isSome := by
    rw [threeFfn_mode]
    decide +kernel
  obtain ⟨⟨pool, s'⟩, heq⟩ := Option.isSome_iff_exists.mp hactive
  obtain ⟨hbuffer, hnames, hheld⟩ := hsound.2.2 6 pool s' (by decide) heq
  refine ⟨pool, s', heq, hbuffer, ?_, hheld⟩
  simpa [threeFfnPlaced] using congrArg List.length hnames

end Hypura
