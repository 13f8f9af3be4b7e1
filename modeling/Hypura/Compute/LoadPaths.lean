import Hypura.Compute.EvalCallback
import Hypura.Compute.Regions
import Hypura.Model.GgufSound
import Hypura.Scheduler.PlacementFits

/-!
# Hypura.Compute.LoadPaths

Which tensors the streaming placements send to NVMe, and which of them the runtime can
load again.

The placement goes by the tensor's role and by whether the model is MoE (more than one
expert, by `ModelMetadata`); `build_prefetch_state` goes by the role, by whether it reads
an expert count other than zero, and by the layer index in the name. A streamed tensor
has a load path exactly where the three agree on it.
-/

namespace Hypura

open Hypura.Core Hypura.Rust Assignments ScoredTensor

/-! ### What a streaming plan puts on NVMe -/

/-- The roles a streaming mode takes out of memory. -/
def InferenceMode.Streams (mode : InferenceMode) (role : TensorRole) : Prop :=
  match mode with
  | .expertStreaming => role = .moeFusedExperts
  | .denseFfnStreaming => role.isDenseFfn = true
  | _ => False

section Placement
variable {F : Type} [F64 F] {tensors : List (ScoredTensor F)} {caps : TierCapacities}

/-- A tensor is on NVMe if a streamed tensor has its name. -/
theorem lookup_assignStreaming_nvme {streamed : ScoredTensor F → Bool} {t : ScoredTensor F}
    (ht : t ∈ tensors) :
    (assignStreaming tensors caps streamed).lookup t.name = some .nvme ↔
      t.name ∈ (tensors.filter streamed).map name := by
  unfold assignStreaming
  constructor
  · intro h
    by_contra hnot
    have hresident : t ∈ sortByScore (tensors.filter fun t => !streamed t) := by
      refine (sortByScore_perm _).mem_iff.mpr (List.mem_filter.mpr ⟨ht, ?_⟩)
      by_contra hstreamed
      refine hnot (List.mem_map_of_mem (List.mem_filter.mpr ⟨ht, ?_⟩))
      simpa using hstreamed
    rw [lookup_assignAll_of_notMem hnot] at h
    obtain ⟨tier, htier, hne⟩ := tier_assignAll (f := gpuThenRam) (P := (· ≠ .nvme))
      gpuThenRam_tier (caps.gpuBytes, ∅) hresident
    rw [h] at htier
    exact hne (Option.some.inj htier).symm
  · intro h
    obtain ⟨u, hu, hname⟩ := List.mem_map.mp h
    rw [← hname]
    exact allTo_tier hu

omit [F64 F] in
theorem exists_of_sumBytes {ts : List (ScoredTensor F)} (h : 0 < sumBytes ts) : ∃ t, t ∈ ts := by
  cases ts with
  | nil => exact absurd h (lt_irrefl 0)
  | cons t ts => exact ⟨t, List.mem_cons_self⟩

variable {metadata : ModelMetadata} {hw : HardwareProfile}
  {solve : Program MipVar F → Option (MipVar → F)} {m : Assignments}

theorem tryExpertStreamingAssign_eq (h : tryExpertStreamingAssign tensors caps metadata = some m) :
    m = assignStreaming tensors caps isFusedExpert ∧ ∃ t ∈ tensors, isFusedExpert t = true := by
  simp only [tryExpertStreamingAssign, Option.ite_none_left_eq_some, Option.some.injEq] at h
  obtain ⟨-, hsize, -, rfl⟩ := h
  obtain ⟨t, ht⟩ := exists_of_sumBytes (by omega : 0 < sumBytes (tensors.filter isFusedExpert))
  exact ⟨rfl, t, List.mem_filter.mp ht⟩

theorem tryDenseFfnStreamingAssign_eq
    (h : tryDenseFfnStreamingAssign tensors caps metadata = some m) :
    m = assignStreaming tensors caps isFfn ∧ ∃ t ∈ tensors, isFfn t = true := by
  simp only [tryDenseFfnStreamingAssign, Option.ite_none_left_eq_some, Option.some.injEq] at h
  obtain ⟨-, -, hffn, -, rfl⟩ := h
  obtain ⟨t, ht⟩ := exists_of_sumBytes (Nat.pos_of_ne_zero hffn)
  exact ⟨rfl, t, List.mem_filter.mp ht⟩

/-- A streaming mode is chosen when its placement succeeds. -/
theorem chooseAssignments_try {mode : InferenceMode}
    (hmode : mode = .expertStreaming ∨ mode = .denseFfnStreaming)
    (h : (chooseAssignments solve tensors caps hw metadata).2 = mode) :
    mode = .expertStreaming ∧ tryExpertStreamingAssign tensors caps metadata =
        some (chooseAssignments solve tensors caps hw metadata).1 ∨
      mode = .denseFfnStreaming ∧ tryDenseFfnStreamingAssign tensors caps metadata =
        some (chooseAssignments solve tensors caps hw metadata).1 := by
  unfold chooseAssignments at h ⊢
  cases hmmap : trySparseMoeMmap tensors caps metadata with
  | some m =>
      rw [hmmap] at h
      subst h
      rcases hmode with hm | hm <;> cases hm
  | none =>
      rw [hmmap] at h
      cases hexpert : tryExpertStreamingAssign tensors caps metadata with
      | some m =>
          rw [hexpert] at h
          exact .inl ⟨h.symm, rfl⟩
      | none =>
          rw [hexpert] at h
          cases hdense : tryDenseFfnStreamingAssign tensors caps metadata with
          | some m =>
              rw [hdense] at h
              exact .inr ⟨h.symm, rfl⟩
          | none =>
              rw [hdense] at h
              subst h
              simp only at hmode
              split at hmode <;> rcases hmode with hm | hm <;> cases hm

/-- The choice of a streaming mode: the tensors of the streamed roles, of which there are
some, go to NVMe. -/
theorem chooseAssignments_streaming {mode : InferenceMode}
    (hmode : mode = .expertStreaming ∨ mode = .denseFfnStreaming)
    (h : (chooseAssignments solve tensors caps hw metadata).2 = mode) :
    ∃ streamed : ScoredTensor F → Bool, (∀ t, streamed t = true ↔ mode.Streams t.role) ∧
      (∃ t ∈ tensors, streamed t = true) ∧
      (chooseAssignments solve tensors caps hw metadata).1 =
        assignStreaming tensors caps streamed := by
  rcases chooseAssignments_try hmode h with ⟨rfl, hexpert⟩ | ⟨rfl, hdense⟩
  · obtain ⟨heq, hexists⟩ := tryExpertStreamingAssign_eq hexpert
    exact ⟨isFusedExpert, fun t => by simp [isFusedExpert, InferenceMode.Streams], hexists, heq⟩
  · obtain ⟨heq, hexists⟩ := tryDenseFfnStreamingAssign_eq hdense
    refine ⟨isFfn, fun t => ?_, hexists, heq⟩
    unfold isFfn InferenceMode.Streams TensorRole.isDenseFfn
    cases t.role <;> rfl

end Placement

/-- Under a streaming plan the tensors of the streamed roles are those on NVMe. -/
theorem lookup_plan_nvme {F : Type} [F64 F] {solve : Program MipVar F → Option (MipVar → F)}
    {model : GgufFile} {hw : HardwareProfile} {contextLength : Nat} {plan : PlacementPlan F}
    (hplan : computePlacementWithContext solve model hw contextLength = plan)
    (hmode : plan.inferenceMode = .expertStreaming ∨ plan.inferenceMode = .denseFfnStreaming) :
    (∀ t ∈ model.tensors, plan.tierAssignments.lookup t.name = some .nvme ↔
        plan.inferenceMode.Streams (TensorRole.fromName t.name)) ∧
      ∃ t ∈ model.tensors, plan.inferenceMode.Streams (TensorRole.fromName t.name) := by
  subst hplan
  obtain ⟨streamed, hstreamed, ⟨u, hu, hus⟩, heq⟩ := chooseAssignments_streaming hmode rfl
  constructor
  · intro t ht
    have hscored : scoreTensor (F := F) (ModelMetadata.fromGguf model) t ∈
        scoreTensors model.tensors (ModelMetadata.fromGguf model) := List.mem_map_of_mem ht
    change (chooseAssignments solve _ _ hw _).1.lookup _ = _ ↔ _
    rw [heq]
    refine (lookup_assignStreaming_nvme hscored).trans ?_
    rw [List.mem_map]
    constructor
    · intro hmem
      obtain ⟨v, hv, hname⟩ := hmem
      obtain ⟨hv, hvs⟩ := List.mem_filter.mp hv
      obtain ⟨t', -, rfl⟩ := List.mem_map.mp hv
      -- the role is a function of the name
      rw [← show t'.name = t.name from hname]
      exact (hstreamed _).mp hvs
    · intro hrole
      exact ⟨_, List.mem_filter.mpr ⟨hscored, (hstreamed _).mpr hrole⟩, rfl⟩
  · obtain ⟨t, ht, rfl⟩ := List.mem_map.mp hu
    exact ⟨t, ht, (hstreamed _).mp hus⟩

/-! ### What the runtime lists -/

/-- The tensors that have a layout in layer `l`: expert layouts or dense FFN layouts. -/
def PrefetchConfig.layoutNames (cfg : PrefetchConfig) (mode : InferenceMode) (l : Nat) :
    List String :=
  match mode with
  | .denseFfnStreaming => (cfg.denseFfnLayouts l).map (·.tensorName)
  | _ => (cfg.expertLayouts l).map (·.tensorName)

/-- The loader reads an expert count that fits the mode. -/
def CountFits (mode : InferenceMode) (gguf : GgufFile) : Prop :=
  match mode with
  | .denseFfnStreaming => (gguf.getU32 "expert_count").getD 0 = 0
  | _ => 0 < (gguf.getU32 "expert_count").getD 0

section Layouts
variable {gguf : GgufFile} {map : TensorMap} {sidecar : Option Sidecar} {numLayers : Nat}
  {nvmeLayers : Finset Nat} {mode : InferenceMode}

theorem map_filterMap_name {α : Type} {f : TensorInfo → Option α} {nameOf : α → String}
    {p : TensorInfo → Bool} (hf : ∀ t a, f t = some a → nameOf a = t.name)
    (hp : ∀ t, (f t).isSome = p t) (ts : List TensorInfo) :
    (ts.filterMap f).map nameOf = (ts.filter p).map (·.name) := by
  induction ts with
  | nil => rfl
  | cons t ts ih =>
      rw [List.filterMap_cons, List.filter_cons, ← hp t]
      cases hft : f t with
      | none => simpa using ih
      | some a => simp [ih, hf t a hft]

open Classical in
/-- The layouts of a layer are listed by role, layer index and expert count, one for each
captured tensor. -/
theorem layoutNames_eq (hmode : mode = .expertStreaming ∨ mode = .denseFfnStreaming) (l : Nat) :
    (buildPrefetchState gguf map sidecar numLayers nvmeLayers).layoutNames mode l =
      (gguf.tensors.filter fun t => t.layerIndex = some l ∧
        ((locateTensors gguf map).lookup t.name).isSome ∧
        mode.Streams (TensorRole.fromName t.name) ∧ CountFits mode gguf).map (·.name) := by
  rcases hmode with rfl | rfl
  · refine map_filterMap_name ?_ ?_ gguf.tensors
    · intro t layout h
      simp only [expertLayoutOf, Option.bind_eq_bind, Option.bind_eq_some_iff, Option.pure_def,
        Option.some.injEq] at h
      obtain ⟨-, -, loc, -, -, -, rfl⟩ := h
      rfl
    · intro t
      simp only [expertLayoutOf, InferenceMode.Streams, CountFits, Option.bind_eq_bind,
        Option.pure_def]
      by_cases hl : t.layerIndex = some l
      · cases hloc : (locateTensors gguf map).lookup t.name with
        | none => simp [hl]
        | some loc =>
            by_cases hr : TensorRole.fromName t.name = .moeFusedExperts ∧
                0 < (gguf.getU32 "expert_count").getD 0
            · simp [hl, hr]
            · simp [hl, hr]
      · simp [hl]
  · refine map_filterMap_name ?_ ?_ gguf.tensors
    · intro t layout h
      simp only [denseFfnLayoutOf, Option.bind_eq_bind, Option.bind_eq_some_iff, Option.pure_def,
        Option.some.injEq] at h
      obtain ⟨-, -, loc, -, -, -, rfl⟩ := h
      rfl
    · intro t
      simp only [denseFfnLayoutOf, InferenceMode.Streams, CountFits, Option.bind_eq_bind,
        Option.pure_def]
      by_cases hl : t.layerIndex = some l
      · cases hloc : (locateTensors gguf map).lookup t.name with
        | none => simp [hl]
        | some loc =>
            by_cases hr : (TensorRole.fromName t.name).isDenseFfn = true ∧
                (gguf.getU32 "expert_count").getD 0 = 0
            · simp [hl, hr]
            · simp [hl, hr]
      · simp [hl]

theorem lookup_locateTensors_isSome (gguf : GgufFile) (map : TensorMap) (name : String) :
    ((locateTensors gguf map).lookup name).isSome = (map.lookup name).isSome := by
  unfold locateTensors
  induction gguf.tensors generalizing map with
  | nil => rfl
  | cons t ts ih => rw [List.foldl_cons, ih, lookup_locateTensor, Option.isSome_map]

theorem count_map_filter {p : TensorInfo → Bool} {b : Bool} {name : String} {ts : List TensorInfo}
    (h : ∀ t ∈ ts, t.name = name → p t = b) :
    ((ts.filter p).map (·.name)).count name = if b then (ts.map (·.name)).count name else 0 := by
  induction ts with
  | nil => simp
  | cons t ts ih =>
      obtain ⟨ht, hts⟩ := List.forall_mem_cons.mp h
      have hrest := ih hts
      by_cases hname : t.name = name
      · rw [List.filter_cons, ht hname]
        cases b with
        | true => simpa [hname] using hrest
        | false => simpa using hrest
      · have hskip : ((t :: ts).map (·.name)).count name = (ts.map (·.name)).count name := by
          rw [List.map_cons, List.count_cons_of_ne hname]
        rw [hskip, ← hrest, List.filter_cons]
        split
        · rw [List.map_cons, List.count_cons_of_ne hname]
        · rfl

open Classical in
/-- The tensors with one name have one role, and where the file was parsed one layer: a
layer lists all of them or none. -/
theorem count_layoutNames (hmode : mode = .expertStreaming ∨ mode = .denseFfnStreaming)
    (hindex : ∀ t ∈ gguf.tensors, t.layerIndex = parseLayerIndex t.name) {t : TensorInfo}
    (ht : t ∈ gguf.tensors) (hrole : mode.Streams (TensorRole.fromName t.name))
    (hloc : (map.lookup t.name).isSome) (l : Nat) :
    ((buildPrefetchState gguf map sidecar numLayers nvmeLayers).layoutNames mode l).count t.name =
      if t.layerIndex = some l ∧ CountFits mode gguf then
        (gguf.tensors.map (·.name)).count t.name else 0 := by
  rw [layoutNames_eq hmode, count_map_filter (b := decide (t.layerIndex = some l ∧ CountFits mode gguf))]
  · simp
  · intro t' ht' hname
    have hlayer : t'.layerIndex = t.layerIndex := by rw [hindex t' ht', hindex t ht, hname]
    rw [hlayer, hname, lookup_locateTensors_isSome]
    simp [hloc, hrole]

/-- The layer of a captured tensor with a name of its own has a region. -/
theorem layerRegions_ne_nil {t : TensorInfo} (ht : t ∈ gguf.tensors)
    (hone : (gguf.tensors.map (·.name)).count t.name = 1) (hloc : (map.lookup t.name).isSome)
    {l : Nat} (hl : t.layerIndex = some l) :
    (buildPrefetchState gguf map sidecar numLayers nvmeLayers).layerRegions l ≠ [] := by
  obtain ⟨pre, post, heq⟩ := List.append_of_mem ht
  have hzero : (pre.map (·.name)).count t.name = 0 ∧ (post.map (·.name)).count t.name = 0 := by
    rw [heq, List.map_append, List.map_cons, List.count_append, List.count_cons_self] at hone
    omega
  have hother : ∀ {ts : List TensorInfo}, (ts.map (·.name)).count t.name = 0 →
      ∀ t' ∈ ts, t'.name ≠ t.name := by
    intro ts hts t' ht' hname
    exact List.count_eq_zero.mp hts (hname ▸ List.mem_map_of_mem ht')
  obtain ⟨loc, hlook⟩ := Option.isSome_iff_exists.mp hloc
  have hentry := lookup_locateTensors_of_split heq (hother hzero.1) (hother hzero.2) map
  rw [hlook] at hentry
  have hmem := mem_of_lookup_eq_some hentry
  intro hnil
  have hregion : TensorLocation.region { loc with
      fileOffset := gguf.dataOffset + t.offset, layerIndex := t.layerIndex } ∈
      (buildPrefetchState gguf map sidecar numLayers nvmeLayers).layerRegions l :=
    mem_sortRegions.mpr (List.mem_map_of_mem (List.mem_filter.mpr ⟨hmem, by simpa using hl⟩))
  rw [hnil] at hregion
  cases hregion

end Layouts

/-! ### Load paths -/

/-- An operation of the inference thread that loads layer `l`. -/
def Op.Loads (l : Nat) : Op → Prop
  | .ensureLayer l' => l' = l
  | .ensureExperts l' _ => l' = l
  | .ensureDenseFfn l' => l' = l
  | _ => False

/-- The runtime of a streaming plan, with the callback switched on. -/
structure Runtime.Runs (rt : Runtime) (mode : InferenceMode) (cfg : PrefetchConfig) : Prop where
  config : rt.config = cfg
  enabled : rt.prefetchEnabled = true
  expert : rt.expertStreaming = decide (mode = .expertStreaming)
  dense : rt.denseFfnStreaming = decide (mode = .denseFfnStreaming)

/-- The `ask` callback of layer `l` loads the layer, or finds it among those whose FFN data
was read into memory for good. -/
def AskLoads (rt : Runtime) (l : Nat) : Prop :=
  ∀ m m' : Machine, m.askCallback rt l = some m' →
    (rt.denseFfnStreaming = true ∧ l ∈ rt.residentFfnLayers) ∨ ∃ op ∈ m'.pending, op.Loads l

/-- The tensors with this name have one layout, in a layer whose `ask` callback loads it. -/
def LoadPath (rt : Runtime) (mode : InferenceMode) (name : String) : Prop :=
  ∃ l, (rt.config.layoutNames mode l).count name = 1 ∧
    (∀ l' ≠ l, name ∉ rt.config.layoutNames mode l') ∧ AskLoads rt l

theorem askLoads_of_layouts {rt : Runtime} {mode : InferenceMode} {cfg : PrefetchConfig}
    (hmode : mode = .expertStreaming ∨ mode = .denseFfnStreaming) (hrt : rt.Runs mode cfg) {l : Nat}
    (hregions : cfg.layerRegions l ≠ []) (hlayouts : cfg.layoutNames mode l ≠ []) :
    AskLoads rt l := by
  intro m m' h
  unfold Machine.askCallback at h
  have hon : ¬ (¬ rt.prefetchEnabled ∨ rt.config.layerRegions l = []) := by
    rw [hrt.config, hrt.enabled]
    simpa using hregions
  rw [if_neg hon] at h
  rcases hmode with rfl | rfl
  · have hexperts : rt.config.expertLayouts l ≠ [] := by
      rw [hrt.config]
      intro hnil
      refine hlayouts ?_
      show (cfg.expertLayouts l).map (·.tensorName) = []
      rw [hnil, List.map_nil]
    rw [if_pos (by rw [hrt.expert]; rfl), Machine.askExperts, if_neg hexperts] at h
    cases hsel : m.selectedExperts l with
    | some ids =>
        rw [hsel] at h
        cases h
        exact .inr ⟨.ensureExperts l ids, List.mem_singleton_self _, rfl⟩
    | none =>
        rw [hsel] at h
        have hpredicted : ∃ predicted : List Nat,
            (if predicted = [] then some { m with pending := [.ensureLayer l] }
              else some { m with pending := [.ensureExperts l predicted] }) = some m' := by
          by_cases hdata : m.coActivation.hasData
          · simp only [hdata, if_true] at h
            obtain ⟨predicted, -, h⟩ := Option.bind_eq_some_iff.mp h
            exact ⟨predicted, h⟩
          · simp only [hdata] at h
            exact ⟨[], h⟩
        obtain ⟨predicted, h⟩ := hpredicted
        split at h
        · cases h
          exact .inr ⟨.ensureLayer l, List.mem_singleton_self _, rfl⟩
        · cases h
          exact .inr ⟨.ensureExperts l predicted, List.mem_singleton_self _, rfl⟩
  · have hdense : rt.denseFfnStreaming = true := by rw [hrt.dense]; rfl
    rw [if_neg (by rw [hrt.expert]; decide), if_pos hdense, Machine.askDense] at h
    by_cases hres : l ∈ rt.residentFfnLayers
    · exact .inl ⟨hdense, hres⟩
    · rw [if_neg hres] at h
      cases h
      exact .inr ⟨.ensureDenseFfn l, List.mem_singleton_self _, rfl⟩

/-- **A streamed tensor has a load path exactly where placement and loader agree**: the
loader reads an expert count that fits the mode, the tensor's name gives a layer, and no
other tensor has that name. -/
theorem streamed_loadPath_iff {F : Type} [F64 F] {bytes : List UInt8} {model : GgufFile}
    (hparse : GgufFile.parse bytes = .ok model) (solve : Program MipVar F → Option (MipVar → F))
    (hw : HardwareProfile) (contextLength : Nat) {plan : PlacementPlan F}
    (hplan : computePlacementWithContext solve model hw contextLength = plan)
    (hmode : plan.inferenceMode = .expertStreaming ∨ plan.inferenceMode = .denseFfnStreaming)
    {map : TensorMap}
    (hmap : ∀ t ∈ model.tensors, plan.tierAssignments.lookup t.name = some .nvme →
      (map.lookup t.name).isSome)
    (sidecar : Option Sidecar) (numLayers : Nat) (nvmeLayers : Finset Nat) {rt : Runtime}
    (hrt : rt.Runs plan.inferenceMode
      (buildPrefetchState model map sidecar numLayers nvmeLayers)) :
    (∀ t ∈ model.tensors, plan.tierAssignments.lookup t.name = some .nvme →
        LoadPath rt plan.inferenceMode t.name) ↔
      CountFits plan.inferenceMode model ∧
        ∀ t ∈ model.tensors, plan.inferenceMode.Streams (TensorRole.fromName t.name) →
          t.layerIndex ≠ none ∧ (model.tensors.map (·.name)).count t.name = 1 := by
  classical
  obtain ⟨hnvme, u, hu, hus⟩ := lookup_plan_nvme hplan hmode
  have hindex : ∀ t ∈ model.tensors, t.layerIndex = parseLayerIndex t.name :=
    fun t ht => layerIndex_of_parse hparse ht
  have hcount : ∀ t ∈ model.tensors, plan.inferenceMode.Streams (TensorRole.fromName t.name) →
      ∀ l, (rt.config.layoutNames plan.inferenceMode l).count t.name =
        if t.layerIndex = some l ∧ CountFits plan.inferenceMode model then
          (model.tensors.map (·.name)).count t.name else 0 := by
    intro t ht hrole l
    rw [hrt.config]
    exact count_layoutNames hmode hindex ht hrole (hmap t ht ((hnvme t ht).mpr hrole)) l
  constructor
  · intro hpaths
    have hlisted : ∀ t ∈ model.tensors, plan.inferenceMode.Streams (TensorRole.fromName t.name) →
        (∃ l, t.layerIndex = some l) ∧ CountFits plan.inferenceMode model ∧
          (model.tensors.map (·.name)).count t.name = 1 := by
      intro t ht hrole
      obtain ⟨l, hone, -, -⟩ := hpaths t ht ((hnvme t ht).mpr hrole)
      rw [hcount t ht hrole l] at hone
      split at hone
      · next hcond => exact ⟨⟨l, hcond.1⟩, hcond.2, hone⟩
      · cases hone
    refine ⟨(hlisted u hu hus).2.1, fun t ht hrole => ?_⟩
    obtain ⟨⟨l, hl⟩, -, hone⟩ := hlisted t ht hrole
    exact ⟨by rw [hl]; simp, hone⟩
  · intro ⟨hfits, hnames⟩ t ht htier
    have hrole := (hnvme t ht).mp htier
    obtain ⟨hlayer, hone⟩ := hnames t ht hrole
    obtain ⟨l, hl⟩ := Option.ne_none_iff_exists'.mp hlayer
    have hhere : (rt.config.layoutNames plan.inferenceMode l).count t.name = 1 := by
      rw [hcount t ht hrole l, if_pos ⟨hl, hfits⟩, hone]
    refine ⟨l, hhere, ?_, ?_⟩
    · intro l' hne
      refine List.count_eq_zero.mp ?_
      rw [hcount t ht hrole l', if_neg]
      intro hcond
      rw [hl] at hcond
      exact hne (Option.some.inj hcond.1).symm
    · refine askLoads_of_layouts hmode hrt (layerRegions_ne_nil ht hone (hmap t ht htier) hl) ?_
      intro hnil
      rw [hrt.config, hnil] at hhere
      cases hhere

/-! A dense model that declares one expert, on a machine that cannot hold it. -/

def oneExpertHeader : WireHeader where
  version := 3
  kvs := [("general.architecture", .string "llama"), ("llama.expert_count", .uint32 1)]
  tensors := [{ name := "blk.0.ffn_gate.weight", dims := [1024], dtype := 0, offset := 0 }]

/-- 2 GiB of memory, all of them reserved for the system. -/
def tinyMachine : HardwareProfile where
  memory := { totalBytes := 2 * 2 ^ 30, bandwidthBytesPerSec := 2 ^ 30 }
  gpu := none
  storage := [{ peakSequential := 2 ^ 30 }]

def oneExpertPlan : PlacementPlan ℚ :=
  computePlacementWithContext (fun _ => none) oneExpertHeader.parsed tinyMachine 4096

/-- The tensor's place in the buffer. -/
def oneExpertMap : TensorMap :=
  [("blk.0.ffn_gate.weight", { offsetInBuffer := 0, size := 4096, fileOffset := 0, layerIndex := none })]

def oneExpertRuntime : Runtime where
  config := buildPrefetchState oneExpertHeader.parsed oneExpertMap none 1 {0}
  file := []
  pageSize := 16384
  bufferBaseNull := false
  ioPoolStarted := true
  prefetchEnabled := true
  keepNvmeResident := false
  expertStreaming := false
  denseFfnStreaming := true
  denseFfnLookahead := 1
  residentFfnLayers := ∅
  residentFfnOffsets := fun _ => none

theorem oneExpert_parse : GgufFile.parse oneExpertHeader.encode = .ok oneExpertHeader.parsed := by
  have hkvs : ∀ kv ∈ oneExpertHeader.kvs, FitsLength kv.1 ∧ kv.2.Readable := by
    intro kv hkv
    simp only [oneExpertHeader, List.mem_cons, List.not_mem_nil, or_false] at hkv
    rcases hkv with rfl | rfl
    · exact ⟨by decide +kernel, .string _ (by decide +kernel)⟩
    · exact ⟨by decide +kernel, .uint32 _⟩
  have htensors : ∀ t ∈ oneExpertHeader.tensors, t.Readable := by decide +kernel
  simpa using parse_encode ⟨.inr rfl, by decide, by decide, hkvs, htensors⟩ []

theorem oneExpert_mode : oneExpertPlan.inferenceMode = .denseFfnStreaming := by decide +kernel

/-- On this model: its tensor has a load path exactly if the loader reads no expert count. -/
theorem oneExpert_loadPath_iff :
    (∀ t ∈ oneExpertHeader.parsed.tensors,
        oneExpertPlan.tierAssignments.lookup t.name = some .nvme →
          LoadPath oneExpertRuntime oneExpertPlan.inferenceMode t.name) ↔
      CountFits oneExpertPlan.inferenceMode oneExpertHeader.parsed ∧
        ∀ t ∈ oneExpertHeader.parsed.tensors,
          oneExpertPlan.inferenceMode.Streams (TensorRole.fromName t.name) →
            t.layerIndex ≠ none ∧
              (oneExpertHeader.parsed.tensors.map (·.name)).count t.name = 1 := by
  have hmap : ∀ t ∈ oneExpertHeader.parsed.tensors, (oneExpertMap.lookup t.name).isSome := by
    decide +kernel
  have hruns : oneExpertRuntime.Runs oneExpertPlan.inferenceMode
      (buildPrefetchState oneExpertHeader.parsed oneExpertMap none 1 {0}) := by
    rw [oneExpert_mode]
    exact ⟨rfl, rfl, rfl, rfl⟩
  exact streamed_loadPath_iff oneExpert_parse (fun _ => none) tinyMachine 4096 rfl
    (.inr oneExpert_mode) (fun t ht _ => hmap t ht) none 1 {0} hruns

/-- The placement streams its FFN tensor, and the loader lists it nowhere. -/
theorem oneExpert_no_loadPath :
    GgufFile.parse oneExpertHeader.encode = .ok oneExpertHeader.parsed ∧
      oneExpertPlan.inferenceMode = .denseFfnStreaming ∧
      ∃ t ∈ oneExpertHeader.parsed.tensors,
        oneExpertPlan.tierAssignments.lookup t.name = some .nvme ∧
        (oneExpertMap.lookup t.name).isSome ∧
        ¬ LoadPath oneExpertRuntime oneExpertPlan.inferenceMode t.name := by
  have hfits : ¬ CountFits .denseFfnStreaming oneExpertHeader.parsed := by
    have hcount : (oneExpertHeader.parsed.getU32 "expert_count").getD 0 = 1 := by decide +kernel
    show ¬ (oneExpertHeader.parsed.getU32 "expert_count").getD 0 = 0
    omega
  have hplan : computePlacementWithContext (fun _ => none) oneExpertHeader.parsed tinyMachine 4096 =
      oneExpertPlan := rfl
  obtain ⟨hnvme, t, ht, hrole⟩ := lookup_plan_nvme hplan (.inr oneExpert_mode)
  have hmap : ∀ t ∈ oneExpertHeader.parsed.tensors, (oneExpertMap.lookup t.name).isSome := by
    decide +kernel
  refine ⟨oneExpert_parse, oneExpert_mode, t, ht, (hnvme t ht).mpr hrole, hmap t ht, ?_⟩
  rw [oneExpert_mode]
  intro ⟨l, hone, _⟩
  have hnone : oneExpertRuntime.config.layoutNames .denseFfnStreaming l = [] := by
    refine (layoutNames_eq (.inr rfl) l).trans ?_
    simp [hfits]
  rw [hnone] at hone
  cases hone

end Hypura
