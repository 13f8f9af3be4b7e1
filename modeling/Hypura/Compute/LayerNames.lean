import Hypura.Compute.OverridePatterns

/-!
# Hypura.Compute.LayerNames

Which layer a tensor's name puts it in. Four places of the program answer this:
`parse_layer_index` (`model/gguf.rs`), `parse_layer_from_name` and the override patterns
(`compute/nvme_backend.rs`), and the prefix test of the estimator
(`scheduler/estimator.rs`).

All of them read the parts of the name between its dots, and differ in what they ask of
them: `layers` beside `blk`, a number in any spelling, something after the number.
-/

namespace Hypura

open Hypura.Core Hypura.Rust

/-- `parse_layer_from_name`. -/
def parseLayerFromName (name : String) : Option Nat :=
  if startsWith name "blk." then
    let rest := name.toList.drop 4
    match rest.findIdx? (· = '.') with
    | some dotPos => parseU32 (rest.take dotPos)
    | none => none
  else none

theorem parseLayerFromName_eq_some {name : String} {l : Nat} : parseLayerFromName name = some l ↔
    ∃ num next parts, split name '.' = "blk".toList :: num :: next :: parts ∧
      parseU32 num = some l := by
  have hblk : '.' ∉ "blk".toList := by decide
  constructor
  · intro h
    rw [parseLayerFromName, Option.ite_none_right_eq_some] at h
    obtain ⟨hstart, h⟩ := h
    obtain ⟨num, parts, hsplit⟩ := (prefix_dot_iff hblk).mp (List.isPrefixOf_iff_prefix.mp hstart)
    obtain ⟨-, rest, hname, hrest⟩ := splitOn_eq_cons_cons.mp hsplit
    have hdrop : name.toList.drop 4 = rest := by
      rw [hname]
      rfl
    dsimp only at h
    rw [hdrop] at h
    split at h
    · next dotPos hfind =>
        have hdot : '.' ∈ rest := by
          obtain ⟨hlt, hat, -⟩ := List.findIdx?_eq_some_iff_getElem.mp hfind
          exact of_decide_eq_true hat ▸ List.getElem_mem hlt
        obtain ⟨num', rest', rfl, hnum'⟩ := List.eq_append_cons_of_mem hdot
        rw [findIdx?_dot hnum'] at hfind
        cases hfind
        rw [List.take_left] at h
        rw [List.splitOn_append_cons_self_of_not_mem hnum'] at hrest
        obtain ⟨rfl, hparts⟩ := List.cons.inj hrest
        obtain ⟨next, parts', hnext⟩ := List.exists_cons_of_ne_nil (List.splitOn_ne_nil '.' rest')
        exact ⟨num', next, parts', by rw [split, hsplit, ← hparts, hnext], h⟩
    · cases h
  · rintro ⟨num, next, parts, hsplit, hnum⟩
    have hstart : startsWith name "blk." = true :=
      List.isPrefixOf_iff_prefix.mpr ((prefix_dot_iff hblk).mpr ⟨num, next :: parts, hsplit⟩)
    obtain ⟨-, rest, hname, hrest⟩ := splitOn_eq_cons_cons.mp hsplit
    obtain ⟨hdot, rest', rfl, -⟩ := splitOn_eq_cons_cons.mp hrest
    have hdrop : name.toList.drop 4 = num ++ '.' :: rest' := by
      rw [hname]
      rfl
    rw [parseLayerFromName, if_pos hstart]
    dsimp only
    rw [hdrop, findIdx?_dot hdot]
    simpa using hnum

/-! ### Where the four agree -/

/-- The four answers are the same, for every layer number. -/
structure LayerNamesAgree (multiline : Bool) (name : String) : Prop where
  fromName : ∀ l, parseLayerIndex name = some l ↔ parseLayerFromName name = some l
  estimator : ∀ l < 2 ^ 32,
    parseLayerIndex name = some l ↔ startsWith name (Estimator.layerPrefix l) = true
  pattern : ∀ l < 2 ^ 32,
    parseLayerIndex name = some l ↔ PatternMatches multiline (layerPattern l) name

/-- A name with `blk` or `layers` and a number for its first two parts has `blk`, the number
in plain decimal, and a third part. -/
def PlainName (name : String) : Prop :=
  ∀ part num parts l, split name '.' = part :: num :: parts →
    (part = "blk".toList ∨ part = "layers".toList) → parseU32 num = some l →
      part = "blk".toList ∧ num = Nat.toDigits 10 l ∧ parts ≠ []

/-- A layer whose prefix starts a later line of the name has its prefix at its start. -/
def LaterLinesPlain (name : String) : Prop :=
  ∀ l < 2 ^ 32, ∀ u c v, name.toList = u ++ c :: v → Regex.isLineBreak c = true →
    (Estimator.layerPrefix l).toList <+: v → startsWith name (Estimator.layerPrefix l) = true

section Agree
variable {multiline : Bool} {name : String} {l : Nat}

theorem layerPattern_matches : PatternMatches multiline (layerPattern l) name ↔
    startsWith name (Estimator.layerPrefix l) = true ∨ multiline = true ∧
      ∃ u c v, name.toList = u ++ c :: v ∧ Regex.isLineBreak c = true ∧
        (Estimator.layerPrefix l).toList <+: v := by
  rw [PatternMatches]
  simp only [parse_layerPattern, Option.some.injEq, exists_eq_left', Regex.search_start_iff]
  rw [startsWith, List.isPrefixOf_iff_prefix]

/-- What `parse_layer_from_name` finds, `parse_layer_index` finds too. -/
theorem parseLayerIndex_of_fromName (h : parseLayerFromName name = some l) :
    parseLayerIndex name = some l := by
  obtain ⟨num, next, parts, hsplit, hnum⟩ := parseLayerFromName_eq_some.mp h
  exact parseLayerIndex_eq_some.mpr ⟨_, num, next :: parts, hsplit, .inl rfl, hnum⟩

/-- What the prefix test finds, `parse_layer_from_name` finds too. -/
theorem parseLayerFromName_of_startsWith (hl : l < 2 ^ 32)
    (h : startsWith name (Estimator.layerPrefix l) = true) : parseLayerFromName name = some l := by
  obtain ⟨next, parts, hsplit⟩ := startsWith_layerPrefix_iff.mp h
  exact parseLayerFromName_eq_some.mpr ⟨_, next, parts, hsplit, parseU32_toDigits hl⟩

/-- In a plain name, what `parse_layer_index` finds the prefix test finds. -/
theorem PlainName.startsWith (h : PlainName name) (hl : parseLayerIndex name = some l) :
    startsWith name (Estimator.layerPrefix l) = true := by
  obtain ⟨part, num, parts, hsplit, hpart, hnum⟩ := parseLayerIndex_eq_some.mp hl
  obtain ⟨rfl, rfl, hne⟩ := h part num parts l hsplit hpart hnum
  obtain ⟨next, parts', rfl⟩ := List.exists_cons_of_ne_nil hne
  exact startsWith_layerPrefix_iff.mpr ⟨next, parts', hsplit⟩

theorem plainName_of_startsWith
    (h : ∀ l, parseLayerIndex name = some l → startsWith name (Estimator.layerPrefix l) = true) :
    PlainName name := by
  intro part num parts l hsplit hpart hnum
  have hl := parseLayerIndex_eq_some.mpr ⟨part, num, parts, hsplit, hpart, hnum⟩
  obtain ⟨next, parts', hsplit'⟩ := startsWith_layerPrefix_iff.mp (h l hl)
  rw [hsplit] at hsplit'
  cases hsplit'
  exact ⟨rfl, rfl, List.cons_ne_nil _ _⟩

theorem parseLayerIndex_lt (h : parseLayerIndex name = some l) : l < 2 ^ 32 := by
  obtain ⟨part, num, parts, -, -, hnum⟩ := parseLayerIndex_eq_some.mp h
  exact parseU32_lt hnum

/-- **The four mappings agree on a name**, if and only if the name is plain, and so are its
later lines where the pattern's anchor sees them. -/
theorem layerNames_agree_iff (multiline : Bool) (name : String) :
    LayerNamesAgree multiline name ↔
      PlainName name ∧ (multiline = true → LaterLinesPlain name) := by
  constructor
  · intro h
    have hstart : ∀ l, parseLayerIndex name = some l →
        startsWith name (Estimator.layerPrefix l) = true := fun l hl =>
      (h.estimator l (parseLayerIndex_lt hl)).mp hl
    refine ⟨plainName_of_startsWith hstart, fun hm l hl u c v hname hc hv => ?_⟩
    have hmatch := layerPattern_matches.mpr (.inr ⟨hm, u, c, v, hname, hc, hv⟩)
    exact hstart l ((h.pattern l hl).mpr hmatch)
  · intro ⟨hplain, hlines⟩
    have hback : ∀ l < 2 ^ 32, startsWith name (Estimator.layerPrefix l) = true →
        parseLayerIndex name = some l := fun l hl h =>
      parseLayerIndex_of_fromName (parseLayerFromName_of_startsWith hl h)
    refine ⟨fun l => ⟨fun hl => ?_, parseLayerIndex_of_fromName⟩,
      fun l hlt => ⟨hplain.startsWith, hback l hlt⟩, fun l hlt => ⟨fun hl => ?_, fun h => ?_⟩⟩
    · exact parseLayerFromName_of_startsWith (parseLayerIndex_lt hl) (hplain.startsWith hl)
    · exact layerPattern_matches.mpr (.inl (hplain.startsWith hl))
    · rcases layerPattern_matches.mp h with hstart | ⟨hm, u, c, v, hname, hc, hv⟩
      · exact hback l hlt hstart
      · exact hback l hlt (hlines hm l hlt u c v hname hc hv)

end Agree

/-- The parser puts this name in layer 5, and `parse_layer_from_name` in none. -/
theorem layersPrefix_disagrees : ¬ LayerNamesAgree false "layers.5.attn_q.weight" ∧
    ¬ LayerNamesAgree true "layers.5.attn_q.weight" := by
  have hindex : parseLayerIndex "layers.5.attn_q.weight" = some 5 := by decide +kernel
  have hname : parseLayerFromName "layers.5.attn_q.weight" ≠ some 5 := by decide +kernel
  exact ⟨fun h => hname ((h.fromName 5).mp hindex), fun h => hname ((h.fromName 5).mp hindex)⟩

end Hypura
