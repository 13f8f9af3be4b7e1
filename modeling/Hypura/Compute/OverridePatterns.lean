import Hypura.Core.Regex
import Hypura.Compute.GpuLayers
import Hypura.Scheduler.EstimatorAgrees

/-!
# Hypura.Compute.OverridePatterns

The patterns that direct tensors to the NVMe buffer (`build_override_patterns`,
`compute/nvme_backend.rs`).

The patterns are regular expressions, searched in the names of the tensors. They match
exactly the intended tensors (`buildOverridePatterns_exact`): those on NVMe in the
streaming modes, else those of the layers that are not offloaded.

The overrides pair every pattern with the one buffer type; only the patterns are kept here.
-/

namespace Hypura

open Hypura.Core Hypura.Rust

/-- `regex_escape`. -/
def regexEscape (s : String) : String :=
  .ofList (s.toList.flatMap fun c =>
    if c ∈ ['.', '*', '+', '?', '(', ')', '[', ']', '{', '}', '|', '^', '$', '\\'] then ['\\', c]
    else [c])

/-- `format!("^{}$", regex_escape(name))`. -/
def namePattern (name : String) : String := "^" ++ regexEscape name ++ "$"

/-- `format!("^blk\\.{}\\.", layer)`. -/
def layerPattern (layer : Nat) : String := "^blk\\." ++ toString layer ++ "\\."

/-- `layer_counts`: how many tensors of each layer are not on the GPU, and how many there are. -/
abbrev LayerCounts := AList fun _ : Nat => Nat × Nat

section Source
variable {F : Type} (plan : PlacementPlan F) (gguf : GgufFile)

/-- One tensor of the first loop: it counts as not on the GPU whenever it counts. -/
def countLayer (firstNonGpuLayer : Nat) (layerCounts : LayerCounts) (t : TensorInfo) :
    LayerCounts :=
  match t.layerIndex with
  | none => layerCounts
  | some layer =>
    if layer < firstNonGpuLayer then layerCounts
    else
      let entry := (layerCounts.lookup layer).getD (0, 0)
      layerCounts.insert layer (entry.1 + 1, entry.2 + 1)

/-- One layer of the second loop. -/
def wholeLayerPattern (layer nonGpu total : Nat) : Option String :=
  if nonGpu = total ∧ 0 < nonGpu then some (layerPattern layer) else none

/-- The third loop: the tensors of layers that are not whole. `none` when a layer was not
counted. -/
def partialLayerPatterns (firstNonGpuLayer : Nat) (layerCounts : LayerCounts) :
    List TensorInfo → Option (List String)
  | [] => some []
  | t :: ts =>
    match t.layerIndex with
    | none => partialLayerPatterns firstNonGpuLayer layerCounts ts
    | some layer =>
      if layer < firstNonGpuLayer then partialLayerPatterns firstNonGpuLayer layerCounts ts
      else
        match layerCounts.lookup layer with
        | none => none
        | some (nonGpu, total) =>
          if nonGpu < total then
            (partialLayerPatterns firstNonGpuLayer layerCounts ts).map (namePattern t.name :: ·)
          else partialLayerPatterns firstNonGpuLayer layerCounts ts

/-- `CString::new(p).unwrap()` of every pattern: `none` when one has a NUL. -/
def cStrings (patterns : List String) : Option (List String) :=
  if patterns.any fun p => p.toList.any (· = Char.ofNat 0) then none else some patterns

/-- `build_override_patterns`. -/
def buildOverridePatterns (nGpuLayers : Int) : Option (List String) :=
  -- Streaming modes: only override tensors explicitly assigned to NVMe.
  if plan.inferenceMode = .expertStreaming ∨ plan.inferenceMode = .denseFfnStreaming then
    cStrings ((gguf.tensors.filter plan.onNvme).map fun t => namePattern t.name)
  else
    -- Standard mode: override entire non-GPU layers
    let firstNonGpuLayer := if 0 < nGpuLayers then (nGpuLayers - 1).toNat else 0
    let layerCounts := gguf.tensors.foldl (countLayer firstNonGpuLayer) ∅
    (partialLayerPatterns firstNonGpuLayer layerCounts gguf.tensors).bind fun patterns =>
      cStrings ((layerCounts.entries.filterMap fun e => wholeLayerPattern e.1 e.2.1 e.2.2) ++
        patterns)

end Source

/-! ### The patterns as regular expressions -/

/-- A pattern matches a name: it has a reading, which is found in the name. -/
def PatternMatches (multiline : Bool) (pattern name : String) : Prop :=
  ∃ r, Regex.parse pattern.toList = some r ∧ Regex.search multiline r name.toList

/-- Some pattern of a list matches. -/
def Overridden (multiline : Bool) (patterns : List String) (name : String) : Prop :=
  ∃ p ∈ patterns, PatternMatches multiline p name

/-- A name of one line. -/
def OneLine (name : String) : Prop := ∀ c ∈ name.toList, Regex.isLineBreak c = false

section Patterns
variable {multiline : Bool} {name name' : String} {layer : Nat}

theorem regexEscape_toList (s : String) : (regexEscape s).toList = Regex.escape s.toList := by
  have hspecial : ∀ c : Char,
      c ∈ ['.', '*', '+', '?', '(', ')', '[', ']', '{', '}', '|', '^', '$', '\\'] ↔
        c ∈ Regex.syntaxChars := by
    intro c
    simp only [Regex.syntaxChars, List.mem_cons, List.not_mem_nil, or_false]
    tauto
  rw [regexEscape, String.toList_ofList, Regex.escape]
  simp only [hspecial]

theorem parse_namePattern (name : String) :
    Regex.parse (namePattern name).toList =
      some (.start :: (Regex.literal name.toList ++ [.stop])) := by
  have hpattern : (namePattern name).toList = '^' :: (Regex.escape name.toList ++ ['$']) := by
    rw [namePattern, String.toList_append, String.toList_append, regexEscape_toList]
    rfl
  rw [hpattern, Regex.parse_start, Regex.parse_escape, Regex.parse_stop]
  rfl

/-- The pattern of a name matches that name only. -/
theorem namePattern_matches_iff (h : OneLine name) :
    PatternMatches multiline (namePattern name') name ↔ name = name' := by
  rw [PatternMatches]
  simp only [parse_namePattern, Option.some.injEq, exists_eq_left', Regex.search_whole h]
  exact String.toList_inj

theorem notMem_syntaxChars_of_digit {c : Char} (h : isAsciiDigit c = true) :
    c ∉ Regex.syntaxChars := by
  intro hc
  simp only [Regex.syntaxChars, List.mem_cons, List.not_mem_nil, or_false] at hc
  rcases hc with rfl | rfl | rfl | rfl | rfl | rfl | rfl | rfl | rfl | rfl | rfl | rfl | rfl | rfl <;>
    exact absurd h (by decide)

theorem parse_layerPattern (layer : Nat) :
    Regex.parse (layerPattern layer).toList =
      some (.start :: Regex.literal (Estimator.layerPrefix layer).toList) := by
  have hdigits : Regex.escape (toString layer).toList = (toString layer).toList := by
    refine Regex.escape_eq_self fun c hc => notMem_syntaxChars_of_digit ?_
    refine isAsciiDigit_of_mem_toDigits (n := layer) ?_
    simpa [Nat.toList_repr] using hc
  have hpattern : (layerPattern layer).toList =
      '^' :: (Regex.escape (Estimator.layerPrefix layer).toList ++ []) := by
    rw [layerPattern, Estimator.layerPrefix, String.toList_append, String.toList_append,
      String.toList_append, String.toList_append, Regex.escape_append, Regex.escape_append, hdigits,
      List.append_nil]
    rfl
  rw [hpattern, Regex.parse_start, Regex.parse_escape]
  simp [Regex.parse]

/-- The pattern of a layer matches the names with its prefix. -/
theorem layerPattern_matches_iff (h : OneLine name) :
    PatternMatches multiline (layerPattern layer) name ↔
      startsWith name (Estimator.layerPrefix layer) = true := by
  rw [PatternMatches]
  simp only [parse_layerPattern, Option.some.injEq, exists_eq_left', Regex.search_start h]
  rw [startsWith, List.isPrefixOf_iff_prefix]

end Patterns

/-! ### The layers of the standard mode -/

section Counts
variable {first : Nat} {counts : LayerCounts} {ts : List TensorInfo} {t : TensorInfo}

/-- What the first loop has counted: the layers from `first` on, and for each of them as many
tensors off the GPU as there are. -/
structure CountsOf (first : Nat) (ts : List TensorInfo) (counts : LayerCounts) : Prop where
  whole : ∀ l e, counts.lookup l = some e → e.1 = e.2 ∧ 0 < e.1
  isSome_iff : ∀ l, (counts.lookup l).isSome ↔ first ≤ l ∧ ∃ t ∈ ts, t.layerIndex = some l

theorem countsOf_nil (first : Nat) : CountsOf first [] ∅ where
  whole := by simp
  isSome_iff := by simp

/-- A tensor of a layer below `first`, or of none, is not counted. -/
theorem CountsOf.skip (h : CountsOf first ts counts) (ht : ∀ l, t.layerIndex = some l → l < first) :
    CountsOf first (ts ++ [t]) counts where
  whole := h.whole
  isSome_iff l := by
    rw [h.isSome_iff]
    refine and_congr_right fun hle => ⟨fun ⟨t', ht', hl⟩ => ⟨t', List.mem_append_left _ ht', hl⟩, ?_⟩
    rintro ⟨t', ht', hl⟩
    rcases List.mem_append.mp ht' with ht' | ht'
    · exact ⟨t', ht', hl⟩
    · obtain rfl := List.mem_singleton.mp ht'
      exact absurd (ht l hl) (by omega)

theorem CountsOf.countLayer (h : CountsOf first ts counts) (t : TensorInfo) :
    CountsOf first (ts ++ [t]) (countLayer first counts t) := by
  cases hl : t.layerIndex with
  | none =>
      rw [Hypura.countLayer, hl]
      exact h.skip (by simp [hl])
  | some layer =>
      by_cases hlt : layer < first
      · simp only [Hypura.countLayer, hl, if_pos hlt]
        exact h.skip (by simp [hl, hlt])
      · simp only [Hypura.countLayer, hl, if_neg hlt]
        refine ⟨fun l e he => ?_, fun l => ?_⟩
        · by_cases heq : l = layer
          · subst heq
            rw [AList.lookup_insert, Option.some.injEq] at he
            subst he
            cases hold : counts.lookup l with
            | none => simp
            | some e => simp [(h.whole l e hold).1]
          · rw [AList.lookup_insert_ne heq] at he
            exact h.whole l e he
        · by_cases heq : l = layer
          · subst heq
            rw [AList.lookup_insert]
            exact iff_of_true rfl ⟨by omega, t, List.mem_append_right _ List.mem_cons_self, hl⟩
          · rw [AList.lookup_insert_ne heq, h.isSome_iff]
            refine and_congr_right fun _ =>
              ⟨fun ⟨t', ht', hl'⟩ => ⟨t', List.mem_append_left _ ht', hl'⟩, ?_⟩
            rintro ⟨t', ht', hl'⟩
            rcases List.mem_append.mp ht' with ht' | ht'
            · exact ⟨t', ht', hl'⟩
            · obtain rfl := List.mem_singleton.mp ht'
              exact absurd (Option.some.inj (hl'.symm.trans hl)) heq

/-- The first loop, over all tensors. -/
theorem countsOf_foldl (first : Nat) (ts : List TensorInfo) :
    CountsOf first ts (ts.foldl (countLayer first) ∅) := by
  induction ts using List.reverseRecOn with
  | nil => exact countsOf_nil first
  | append_singleton ts t ih =>
      rw [List.foldl_append]
      exact ih.countLayer t

/-- Every counted layer is whole: the third loop adds nothing. -/
theorem CountsOf.partialLayerPatterns_eq {all : List TensorInfo} (h : CountsOf first all counts)
    (hsub : ∀ t ∈ ts, t ∈ all) : partialLayerPatterns first counts ts = some [] := by
  induction ts with
  | nil => rfl
  | cons t ts ih =>
      have htail := ih fun t' ht' => hsub t' (List.mem_cons_of_mem _ ht')
      rw [partialLayerPatterns]
      cases hl : t.layerIndex with
      | none => exact htail
      | some layer =>
          simp only
          split
          · exact htail
          · next hle =>
              have hsome := (h.isSome_iff layer).mpr
                ⟨by omega, t, hsub t List.mem_cons_self, hl⟩
              obtain ⟨e, he⟩ := Option.isSome_iff_exists.mp hsome
              obtain ⟨hwhole, -⟩ := h.whole layer e he
              rw [he]
              simp only
              rw [if_neg (by omega)]
              exact htail

/-- The second loop lists the patterns of the counted layers. -/
theorem CountsOf.mem_patterns (h : CountsOf first ts counts) {p : String} :
    p ∈ counts.entries.filterMap (fun e => wholeLayerPattern e.1 e.2.1 e.2.2) ↔
      ∃ l, first ≤ l ∧ (∃ t ∈ ts, t.layerIndex = some l) ∧ p = layerPattern l := by
  rw [List.mem_filterMap]
  constructor
  · rintro ⟨⟨l, e⟩, he, hp⟩
    rw [wholeLayerPattern, Option.ite_none_right_eq_some, Option.some.injEq] at hp
    have hlookup : counts.lookup l = some e := AList.mem_lookup_iff.mpr he
    obtain ⟨hle, hex⟩ := (h.isSome_iff l).mp (by rw [hlookup]; rfl)
    exact ⟨l, hle, hex, hp.2.symm⟩
  · rintro ⟨l, hle, hex, rfl⟩
    obtain ⟨e, he⟩ := Option.isSome_iff_exists.mp ((h.isSome_iff l).mpr ⟨hle, hex⟩)
    exact ⟨⟨l, e⟩, AList.mem_lookup_iff.mp he, if_pos (h.whole l e he)⟩

end Counts

/-! ### What is overridden -/

/-- The names hold no NUL and no line break. -/
def CleanNames (gguf : GgufFile) : Prop :=
  ∀ t ∈ gguf.tensors, OneLine t.name ∧ Char.ofNat 0 ∉ t.name.toList

/-- The layered tensors are named by their layer, in plain decimal. -/
def NamedByLayer (gguf : GgufFile) : Prop :=
  ∀ t ∈ gguf.tensors, ∀ l, t.layerIndex = some l →
    l < 2 ^ 31 - 2 ∧ ∃ rest, t.name = "blk." ++ toString l ++ "." ++ rest

/-- The patterns match exactly the intended tensors, for `n` layers to offload. -/
structure OverridesExact {F : Type} (multiline : Bool) (plan : PlacementPlan F) (gguf : GgufFile)
    (n : Int) (patterns : List String) : Prop where
  readable : ∀ p ∈ patterns, (Regex.parse p.toList).isSome
  /-- In the streaming modes: what the plan has on NVMe. -/
  streaming : plan.inferenceMode = .expertStreaming ∨ plan.inferenceMode = .denseFfnStreaming →
    ∀ t ∈ gguf.tensors, Overridden multiline patterns t.name ↔
      plan.tierAssignments.lookup t.name = some .nvme
  /-- In the other modes: the layers that are not offloaded. -/
  layered : ¬ (plan.inferenceMode = .expertStreaming ∨ plan.inferenceMode = .denseFfnStreaming) →
    ∀ t ∈ gguf.tensors, ∀ l, t.layerIndex = some l →
      (Overridden multiline patterns t.name ↔ max (n - 1) 0 ≤ (l : Int))
  nonLayer : ¬ (plan.inferenceMode = .expertStreaming ∨ plan.inferenceMode = .denseFfnStreaming) →
    ∀ t ∈ gguf.tensors, t.layerIndex = none → ¬ Overridden multiline patterns t.name
  /-- Among them everything layered that is on NVMe. -/
  onNvme : ¬ (plan.inferenceMode = .expertStreaming ∨ plan.inferenceMode = .denseFfnStreaming) →
    ∀ t ∈ gguf.tensors, t.layerIndex.isSome → plan.tierAssignments.lookup t.name = some .nvme →
      Overridden multiline patterns t.name

section Exact
variable {F : Type} {plan : PlacementPlan F} {gguf : GgufFile} {multiline : Bool}

theorem cStrings_eq {patterns : List String} (h : ∀ p ∈ patterns, Char.ofNat 0 ∉ p.toList) :
    cStrings patterns = some patterns := by
  rw [cStrings, if_neg]
  simpa using h

theorem mem_escape {lit : List Char} {c : Char} (h : c ∈ Regex.escape lit) : c = '\\' ∨ c ∈ lit := by
  obtain ⟨d, hd, hc⟩ := List.mem_flatMap.mp h
  split at hc
  · rcases List.mem_cons.mp hc with rfl | hc
    · exact .inl rfl
    · exact .inr (List.mem_singleton.mp hc ▸ hd)
  · exact .inr (List.mem_singleton.mp hc ▸ hd)

theorem namePattern_no_nul {name : String} (h : Char.ofNat 0 ∉ name.toList) :
    Char.ofNat 0 ∉ (namePattern name).toList := by
  rw [namePattern, String.toList_append, String.toList_append, regexEscape_toList,
    List.mem_append, List.mem_append]
  rintro ((hc | hc) | hc)
  · exact absurd hc (by decide)
  · rcases mem_escape hc with hc | hc
    · exact absurd hc (by decide)
    · exact h hc
  · exact absurd hc (by decide)

theorem layerPattern_no_nul (layer : Nat) : Char.ofNat 0 ∉ (layerPattern layer).toList := by
  rw [layerPattern, String.toList_append, String.toList_append, List.mem_append, List.mem_append]
  rintro ((hc | hc) | hc)
  · exact absurd hc (by decide)
  · have hdigit : isAsciiDigit (Char.ofNat 0) = true :=
      isAsciiDigit_of_mem_toDigits (n := layer) (by simpa [Nat.toList_repr] using hc)
    exact absurd hdigit (by decide)
  · exact absurd hc (by decide)

/-- In the streaming modes the patterns are those of the names on NVMe. -/
theorem buildOverridePatterns_streaming (hclean : CleanNames gguf)
    (hmode : plan.inferenceMode = .expertStreaming ∨ plan.inferenceMode = .denseFfnStreaming)
    (n : Int) : buildOverridePatterns plan gguf n =
      some ((gguf.tensors.filter plan.onNvme).map fun t => namePattern t.name) := by
  rw [buildOverridePatterns, if_pos hmode]
  refine cStrings_eq fun p hp => ?_
  obtain ⟨t, ht, rfl⟩ := List.mem_map.mp hp
  exact namePattern_no_nul (hclean t (List.mem_filter.mp ht).1).2

/-- In the other modes they are those of the layers that are not offloaded. -/
theorem buildOverridePatterns_standard
    (hmode : ¬ (plan.inferenceMode = .expertStreaming ∨ plan.inferenceMode = .denseFfnStreaming))
    (n : Int) : ∃ patterns, buildOverridePatterns plan gguf n = some patterns ∧
      ∀ p, p ∈ patterns ↔ ∃ l : Nat, max (n - 1) 0 ≤ (l : Int) ∧
        (∃ t ∈ gguf.tensors, t.layerIndex = some l) ∧ p = layerPattern l := by
  have hfirst : ∀ l : Nat, (if 0 < n then (n - 1).toNat else 0) ≤ l ↔ max (n - 1) 0 ≤ (l : Int) := by
    intro l
    split <;> omega
  rw [buildOverridePatterns, if_neg hmode]
  simp only
  generalize (if 0 < n then (n - 1).toNat else 0) = first at hfirst ⊢
  have hcounts := countsOf_foldl first gguf.tensors
  rw [hcounts.partialLayerPatterns_eq fun t ht => ht, Option.bind_some, List.append_nil]
  refine ⟨_, cStrings_eq fun p hp => ?_, fun p => ?_⟩
  · obtain ⟨l, -, -, rfl⟩ := hcounts.mem_patterns.mp hp
    exact layerPattern_no_nul l
  · simp only [hcounts.mem_patterns, hfirst]

/-- The prefix of its layer starts the name of a layered tensor. -/
theorem NamedByLayer.startsWith (h : NamedByLayer gguf) {t : TensorInfo} (ht : t ∈ gguf.tensors)
    {l : Nat} (hl : t.layerIndex = some l) : startsWith t.name (Estimator.layerPrefix l) = true := by
  obtain ⟨-, rest, hname⟩ := h t ht l hl
  rw [hname, Rust.startsWith, List.isPrefixOf_iff_prefix, String.toList_append]
  exact List.prefix_append _ _

theorem namedByLayer_of_startsWith (h : ∀ t ∈ gguf.tensors, ∀ l ∈ t.layerIndex,
    l < 2 ^ 31 - 2 ∧ Rust.startsWith t.name (Estimator.layerPrefix l) = true) : NamedByLayer gguf := by
  intro t ht l hl
  obtain ⟨hlt, hstart⟩ := h t ht l hl
  obtain ⟨rest, hrest⟩ := List.isPrefixOf_iff_prefix.mp hstart
  refine ⟨hlt, .ofList rest, String.toList_inj.mp ?_⟩
  rw [← hrest, String.toList_append, String.toList_ofList]
  rfl

/-- A tensor that a layer's pattern matches is of that layer. -/
theorem layerIndex_of_matches {bytes : List UInt8} (hparse : GgufFile.parse bytes = .ok gguf)
    (hclean : CleanNames gguf) {t : TensorInfo} (ht : t ∈ gguf.tensors) {l : Nat} (hl : l < 2 ^ 32)
    (h : PatternMatches multiline (layerPattern l) t.name) : t.layerIndex = some l := by
  rw [layerIndex_of_parse hparse ht]
  exact parseLayerIndex_of_startsWith hl ((layerPattern_matches_iff (hclean t ht).1).mp h)

/-- **The overrides match exactly the intended tensors**, however the anchors read line
breaks. -/
theorem buildOverridePatterns_exact {bytes : List UInt8} (hparse : GgufFile.parse bytes = .ok gguf)
    (hclean : CleanNames gguf) (hnamed : NamedByLayer gguf) (multiline : Bool)
    (plan : PlacementPlan F) (hmode : plan.inferenceMode ≠ .sparseMoeMmap) (gpuBudgetBytes : Nat) :
    ∃ patterns, buildOverridePatterns plan gguf (gpuLayersFromPlacement plan gguf gpuBudgetBytes) =
        some patterns ∧
      OverridesExact multiline plan gguf (gpuLayersFromPlacement plan gguf gpuBudgetBytes)
        patterns := by
  by_cases hstreaming : plan.inferenceMode = .expertStreaming ∨
      plan.inferenceMode = .denseFfnStreaming
  · refine ⟨_, buildOverridePatterns_streaming hclean hstreaming _, fun p hp => ?_, fun _ t ht => ?_,
      fun h => absurd hstreaming h, fun h => absurd hstreaming h, fun h => absurd hstreaming h⟩
    · obtain ⟨t, -, rfl⟩ := List.mem_map.mp hp
      rw [parse_namePattern]
      rfl
    constructor
    · rintro ⟨p, hp, hmatch⟩
      obtain ⟨t', ht', rfl⟩ := List.mem_map.mp hp
      rw [(namePattern_matches_iff (hclean t ht).1).mp hmatch]
      exact of_decide_eq_true (List.mem_filter.mp ht').2
    · intro hnvme
      exact ⟨_, List.mem_map.mpr ⟨t, List.mem_filter.mpr ⟨ht, decide_eq_true hnvme⟩, rfl⟩,
        (namePattern_matches_iff (hclean t ht).1).mpr rfl⟩
  · have hlt : ∀ t ∈ gguf.tensors, ∀ l, t.layerIndex = some l → l < 2 ^ 31 - 2 :=
      fun t ht l hl => (hnamed t ht l hl).1
    have hresident : ∀ t ∈ gguf.tensors, ∀ l, t.layerIndex = some l →
        (l : Int) < gpuLayersFromPlacement plan gguf gpuBudgetBytes - 1 → ¬ plan.onNvme t := by
      intro t ht l hl
      refine gpuLayersFromPlacement_resident hlt hmode (List.mem_filter.mpr ⟨ht, ?_⟩) hl
      rw [not_or] at hstreaming
      simp [hl, InferenceMode.isStreamed, hstreaming]
    generalize gpuLayersFromPlacement plan gguf gpuBudgetBytes = n at hresident ⊢
    obtain ⟨patterns, hpatterns, hmem⟩ := buildOverridePatterns_standard hstreaming n
    have hlayer : ∀ t ∈ gguf.tensors, Overridden multiline patterns t.name →
        ∃ l : Nat, t.layerIndex = some l ∧ max (n - 1) 0 ≤ (l : Int) := by
      rintro t ht ⟨p, hp, hmatch⟩
      obtain ⟨l, hle, ⟨t', ht', hl'⟩, rfl⟩ := (hmem p).mp hp
      have hl32 := hlt t' ht' l hl'
      exact ⟨l, layerIndex_of_matches hparse hclean ht (by omega) hmatch, hle⟩
    have hover : ∀ t ∈ gguf.tensors, ∀ l : Nat, t.layerIndex = some l → max (n - 1) 0 ≤ (l : Int) →
        Overridden multiline patterns t.name := fun t ht l hl hle =>
      ⟨_, (hmem _).mpr ⟨l, hle, ⟨t, ht, hl⟩, rfl⟩,
        (layerPattern_matches_iff (hclean t ht).1).mpr (hnamed.startsWith ht hl)⟩
    refine ⟨patterns, hpatterns, fun p hp => ?_, fun h => absurd h hstreaming,
      fun _ t ht l hl => ⟨fun h => ?_, hover t ht l hl⟩, fun _ t ht hnone h => ?_,
      fun _ t ht hsome hnvme => ?_⟩
    · obtain ⟨l, -, -, rfl⟩ := (hmem p).mp hp
      rw [parse_layerPattern]
      rfl
    · obtain ⟨l', hl', hle⟩ := hlayer t ht h
      rw [hl] at hl'
      exact Option.some.inj hl' ▸ hle
    · obtain ⟨l', hl', -⟩ := hlayer t ht h
      rw [hnone] at hl'
      cases hl'
    · obtain ⟨l, hl⟩ := Option.isSome_iff_exists.mp hsome
      refine hover t ht l hl ?_
      by_contra hlow
      exact hresident t ht l hl (by omega) (decide_eq_true hnvme)

end Exact

theorem twoReads_cleanNames : CleanNames twoReadsHeader.parsed := by
  have hnames : twoReadsHeader.parsed.tensors.map (·.name) =
      ["blk.0.attn_q.weight", "blk.1.attn_q.weight", "blk.1.attn_k.weight"] := by decide +kernel
  intro t ht
  have hname : t.name ∈ twoReadsHeader.parsed.tensors.map (·.name) := List.mem_map_of_mem ht
  rw [hnames] at hname
  generalize t.name = name at hname ⊢
  unfold OneLine
  simp only [List.mem_cons, List.not_mem_nil, or_false] at hname
  rcases hname with rfl | rfl | rfl <;> simp [Regex.isLineBreak]

/-- On a model of two layers, the patterns are those of the second. -/
theorem twoReads_overridesExact :
    ∃ patterns, buildOverridePatterns twoReadsPlan twoReadsHeader.parsed
        (gpuLayersFromPlacement twoReadsPlan twoReadsHeader.parsed 10) = some patterns ∧
      OverridesExact false twoReadsPlan twoReadsHeader.parsed
        (gpuLayersFromPlacement twoReadsPlan twoReadsHeader.parsed 10) patterns := by
  have hnamed : NamedByLayer twoReadsHeader.parsed :=
    namedByLayer_of_startsWith (by decide +kernel)
  exact buildOverridePatterns_exact twoReads_parse twoReads_cleanNames hnamed false twoReadsPlan (by decide) 10

end Hypura
