import Mathlib.Tactic
import Mathlib.Data.List.Sort

/-!
# Hypura.Cache.CoActivation

Co-activation counts (`cache/coactivation.rs`): which experts the router selected
together at a layer, and which ones at the next.

A matrix read back from its JSON file has whatever shape the file gives it. An index
outside its vectors is a panic of the source and `none` here; counters are `u32`s and
wrap in a release build. A matrix built by `new` keeps its shape (`Shaped`), and recording
never panics on it.
-/

namespace Hypura

/-- `CoActivationMatrix`. -/
structure CoActivationMatrix where
  /-- Per-layer co-activation counts: `[layer][expert_a][expert_b]`. -/
  layerCounts : List (List (List Nat))
  /-- Cross-layer counts: `[layer][expert_at_N][expert_at_N+1]`. -/
  crossLayerCounts : List (List (List Nat))
  /-- Total observations per layer. -/
  observationCounts : List Nat
  numLayers : Nat
  numExperts : Nat
  deriving DecidableEq, Repr

namespace CoActivationMatrix

/-- `counts[i][j]`. -/
def entry (counts : List (List Nat)) (i j : Nat) : Option Nat :=
  counts[i]?.bind (·[j]?)

/-- `counts[l][i][j] += 1`. -/
def bump (counts : List (List (List Nat))) (l i j : Nat) : Option (List (List (List Nat))) := do
  let layer ← counts[l]?
  let row ← layer[i]?
  let c ← row[j]?
  pure (counts.set l (layer.set i (row.set j ((c + 1) % 2 ^ 32))))

/-- `CoActivationMatrix::new`. -/
def new (numLayers numExperts : Nat) : CoActivationMatrix where
  layerCounts := List.replicate numLayers (List.replicate numExperts (List.replicate numExperts 0))
  crossLayerCounts :=
    List.replicate numLayers (List.replicate numExperts (List.replicate numExperts 0))
  observationCounts := List.replicate numLayers 0
  numLayers := numLayers
  numExperts := numExperts

/-- The inner loop of `record`: `a` with each expert listed after it. -/
def recordPairs (m : CoActivationMatrix) (l a : Nat) (later : List Nat) :
    Option CoActivationMatrix :=
  later.foldlM (fun m b =>
    if m.numExperts ≤ b then some m
    else do
      let counts ← bump m.layerCounts l a b
      let counts ← bump counts l b a
      pure { m with layerCounts := counts }) m

/-- The outer loop of `record`. -/
def recordAll (m : CoActivationMatrix) (l : Nat) : List Nat → Option CoActivationMatrix
  | [] => some m
  | a :: later =>
    if m.numExperts ≤ a then recordAll m l later
    else do
      let counts ← bump m.layerCounts l a a
      let m ← recordPairs { m with layerCounts := counts } l a later
      recordAll m l later

/-- `record`: which experts were selected at a layer. -/
def record (m : CoActivationMatrix) (layer : Nat) (selectedExperts : List Nat) :
    Option CoActivationMatrix :=
  if m.numLayers ≤ layer then some m
  else do
    let c ← m.observationCounts[layer]?
    recordAll { m with observationCounts := m.observationCounts.set layer ((c + 1) % 2 ^ 32) }
      layer selectedExperts

/-- A sequence of `record` calls. -/
def recordCalls (m : CoActivationMatrix) (calls : List (Nat × List Nat)) :
    Option CoActivationMatrix :=
  calls.foldlM (fun m (layer, selectedExperts) => m.record layer selectedExperts) m

/-- `record_cross_layer`: experts at layer N predicting layer N+1. -/
def recordCrossLayer (m : CoActivationMatrix) (layer : Nat) (expertsN expertsN1 : List Nat) :
    Option CoActivationMatrix :=
  if m.numLayers ≤ layer then some m
  else
    (expertsN.filter (· < m.numExperts)).foldlM (fun m a =>
      (expertsN1.filter (· < m.numExperts)).foldlM (fun m b => do
        let counts ← bump m.crossLayerCounts layer a b
        pure { m with crossLayerCounts := counts }) m) m

/-- One expert's row added to the scores; a row longer than the scores is a panic. -/
def addRow (scores row : List Nat) : Option (List Nat) :=
  if row.length ≤ scores.length then
    some (scores.zipWith (fun s c => (s + c) % 2 ^ 32) row ++ scores.drop row.length)
  else none

/-- The experts with a positive score, best first (the sort is stable), at most `topK`. -/
def rank (scores : List Nat) (topK : Nat) : List Nat :=
  let indexed := (scores.zipIdx.map fun (s, i) => (i, s)).filter (0 < ·.2)
  ((indexed.insertionSort fun a b => b.2 ≤ a.2).take topK).map (·.1)

/-- `predict_same_layer`: which experts are likely to fire together with the observed ones. -/
def predictSameLayer (m : CoActivationMatrix) (layer : Nat) (observed : List Nat) (topK : Nat) :
    Option (List Nat) :=
  if m.numLayers ≤ layer then some []
  else do
    let c ← m.observationCounts[layer]?
    if c = 0 then pure []
    else do
      let scores ← (observed.filter (· < m.numExperts)).foldlM (fun scores e => do
        let counts ← m.layerCounts[layer]?
        let row ← counts[e]?
        addRow scores row) (List.replicate m.numExperts 0)
      let scores := (observed.filter (· < m.numExperts)).foldl (fun scores e => scores.set e 0) scores
      pure (rank scores topK)

/-- `predict_next_layer`: which experts will fire at layer N+1 given experts at layer N. -/
def predictNextLayer (m : CoActivationMatrix) (layer : Nat) (observed : List Nat) (topK : Nat) :
    Option (List Nat) :=
  if m.numLayers ≤ layer then some []
  else do
    let c ← m.observationCounts[layer]?
    if c = 0 then pure []
    else do
      let scores ← (observed.filter (· < m.numExperts)).foldlM (fun scores e => do
        let counts ← m.crossLayerCounts[layer]?
        let row ← counts[e]?
        addRow scores row) (List.replicate m.numExperts 0)
      pure (rank scores topK)

/-- `has_data`. -/
def hasData (m : CoActivationMatrix) : Bool :=
  m.observationCounts.any (10 < ·)

/-! ### The shape that recording keeps -/

/-- One layer of an `n` by `n` matrix. -/
structure Square (n : Nat) (counts : List (List Nat)) : Prop where
  rows : counts.length = n
  columns : ∀ row ∈ counts, row.length = n

/-- A matrix as `new` builds it: none of `record`'s indices leaves its vector. -/
structure Shaped (nl ne : Nat) (m : CoActivationMatrix) : Prop where
  numLayers : m.numLayers = nl
  numExperts : m.numExperts = ne
  layers : m.layerCounts.length = nl
  observations : m.observationCounts.length = nl
  square : ∀ counts ∈ m.layerCounts, Square ne counts

theorem Square.entry_isSome {n : Nat} {counts : List (List Nat)} (h : Square n counts) {i j : Nat}
    (hi : i < n) (hj : j < n) : (entry counts i j).isSome := by
  have hi' : i < counts.length := h.rows.symm ▸ hi
  have hj' : j < counts[i].length := by rwa [h.columns _ (List.getElem_mem hi')]
  simp [entry, hi', hj']

theorem Square.set {n : Nat} {counts : List (List Nat)} (h : Square n counts) (i : Nat)
    {row : List Nat} (hrow : row.length = n) : Square n (counts.set i row) where
  rows := by rw [List.length_set, h.rows]
  columns row' hrow' := by
    rcases List.mem_or_eq_of_mem_set hrow' with hmem | rfl
    · exact h.columns row' hmem
    · exact hrow

theorem bump_square {counts : List (List (List Nat))} {n l i j : Nat}
    (h : ∀ layer ∈ counts, Square n layer) (hl : l < counts.length) (hi : i < n) (hj : j < n) :
    ∃ counts', bump counts l i j = some counts' ∧ counts'.length = counts.length ∧
      ∀ layer ∈ counts', Square n layer := by
  have hlayer := h _ (List.getElem_mem hl)
  have hi' : i < counts[l].length := hlayer.rows.symm ▸ hi
  have hrow := hlayer.columns _ (List.getElem_mem hi')
  have hj' : j < counts[l][i].length := hrow.symm ▸ hj
  refine ⟨_, by simp only [bump, List.getElem?_eq_getElem hl, List.getElem?_eq_getElem hi',
    List.getElem?_eq_getElem hj', Option.bind_eq_bind, Option.bind_some]; rfl,
    List.length_set, fun layer hmem => ?_⟩
  rcases List.mem_or_eq_of_mem_set hmem with hmem | rfl
  · exact h layer hmem
  · exact hlayer.set i (by rw [List.length_set, hrow])

theorem shaped_new (numLayers numExperts : Nat) :
    Shaped numLayers numExperts (new numLayers numExperts) where
  numLayers := rfl
  numExperts := rfl
  layers := List.length_replicate
  observations := List.length_replicate
  square counts h := by
    obtain rfl := List.eq_of_mem_replicate h
    refine ⟨List.length_replicate, fun row hrow => ?_⟩
    rw [List.eq_of_mem_replicate hrow, List.length_replicate]

section Shaped
variable {nl ne : Nat} {m : CoActivationMatrix}

theorem Shaped.bump (h : Shaped nl ne m) {l i j : Nat} (hl : l < nl) (hi : i < ne) (hj : j < ne) :
    ∃ counts, bump m.layerCounts l i j = some counts ∧
      Shaped nl ne { m with layerCounts := counts } := by
  obtain ⟨counts, hb, hlen, hsq⟩ := bump_square h.square (h.layers.symm ▸ hl) hi hj
  exact ⟨counts, hb, { h with layers := hlen.trans h.layers, square := hsq }⟩

theorem Shaped.recordPairs (h : Shaped nl ne m) {l a : Nat} (hl : l < nl) (ha : a < ne)
    (later : List Nat) : ∃ m', m.recordPairs l a later = some m' ∧ Shaped nl ne m' := by
  induction later generalizing m with
  | nil => exact ⟨m, rfl, h⟩
  | cons b later ih =>
      simp only [CoActivationMatrix.recordPairs, List.foldlM_cons] at ih ⊢
      by_cases hb : m.numExperts ≤ b
      · obtain ⟨m', hm', hsh⟩ := ih h
        exact ⟨m', by rw [if_pos hb]; exact hm', hsh⟩
      · have hb' : b < ne := by
          rw [← h.numExperts]
          omega
        obtain ⟨c₁, hc₁, h₁⟩ := h.bump hl ha hb'
        obtain ⟨c₂, hc₂, h₂⟩ := h₁.bump hl hb' ha
        obtain ⟨m', hm', hsh⟩ := ih h₂
        refine ⟨m', ?_, hsh⟩
        rw [if_neg hb, hc₁]
        simp only [Option.bind_eq_bind, Option.bind_some, hc₂]
        exact hm'

theorem Shaped.recordAll (h : Shaped nl ne m) {l : Nat} (hl : l < nl) (selected : List Nat) :
    ∃ m', m.recordAll l selected = some m' ∧ Shaped nl ne m' := by
  induction selected generalizing m with
  | nil => exact ⟨m, rfl, h⟩
  | cons a later ih =>
      simp only [CoActivationMatrix.recordAll]
      by_cases ha : m.numExperts ≤ a
      · rw [if_pos ha]
        exact ih h
      · have ha' : a < ne := by
          rw [← h.numExperts]
          omega
        obtain ⟨c, hc, h₁⟩ := h.bump hl ha' ha'
        obtain ⟨m₂, hm₂, h₂⟩ := h₁.recordPairs hl ha' later
        obtain ⟨m₃, hm₃, h₃⟩ := ih h₂
        refine ⟨m₃, ?_, h₃⟩
        simp only [if_neg ha, hc, Option.bind_eq_bind, Option.bind_some, hm₂, hm₃]

/-- `record` does not panic on a matrix that `new` built, and keeps its shape. -/
theorem Shaped.record (h : Shaped nl ne m) (layer : Nat) (selected : List Nat) :
    ∃ m', m.record layer selected = some m' ∧ Shaped nl ne m' := by
  by_cases hl : m.numLayers ≤ layer
  · exact ⟨m, if_pos hl, h⟩
  · have hlt : layer < nl := by
      rw [← h.numLayers]
      omega
    have hobs : layer < m.observationCounts.length := h.observations.symm ▸ hlt
    have hobserved : ∀ c, Shaped nl ne
        { m with observationCounts := m.observationCounts.set layer c } := fun c =>
      { h with observations := List.length_set.trans h.observations }
    obtain ⟨m', hm', hsh⟩ := (hobserved _).recordAll hlt selected
    refine ⟨m', ?_, hsh⟩
    simp only [CoActivationMatrix.record, if_neg hl, List.getElem?_eq_getElem hobs,
      Option.bind_eq_bind, Option.bind_some]
    exact hm'

theorem Shaped.recordCalls (h : Shaped nl ne m) (calls : List (Nat × List Nat)) :
    ∃ m', m.recordCalls calls = some m' ∧ Shaped nl ne m' := by
  induction calls generalizing m with
  | nil => exact ⟨m, rfl, h⟩
  | cons c calls ih =>
      obtain ⟨m₁, hm₁, h₁⟩ := h.record c.1 c.2
      obtain ⟨m', hm', hsh⟩ := ih h₁
      refine ⟨m', ?_, hsh⟩
      simp only [CoActivationMatrix.recordCalls, List.foldlM_cons, hm₁]
      exact hm'

end Shaped

/-! ### The shape of the cross-layer counts -/

/-- A matrix all of whose vectors are as long as `new` makes them. -/
structure WellShaped (nl ne : Nat) (m : CoActivationMatrix) : Prop extends Shaped nl ne m where
  crossLayers : m.crossLayerCounts.length = nl
  crossSquare : ∀ counts ∈ m.crossLayerCounts, Square ne counts

theorem wellShaped_new (numLayers numExperts : Nat) :
    WellShaped numLayers numExperts (new numLayers numExperts) where
  toShaped := shaped_new numLayers numExperts
  crossLayers := List.length_replicate
  crossSquare := (shaped_new numLayers numExperts).square

section WellShaped
variable {nl ne : Nat} {m m' : CoActivationMatrix} {l : Nat}

theorem recordPairs_crossLayerCounts {a : Nat} {later : List Nat}
    (h : m.recordPairs l a later = some m') : m'.crossLayerCounts = m.crossLayerCounts := by
  induction later generalizing m with
  | nil =>
      cases h
      rfl
  | cons b later ih =>
      simp only [recordPairs, List.foldlM_cons] at h ih
      obtain ⟨m₁, hm₁, h⟩ := Option.bind_eq_some_iff.mp h
      rw [ih h]
      split at hm₁
      · cases hm₁
        rfl
      · simp only [Option.bind_eq_bind, Option.bind_eq_some_iff] at hm₁
        obtain ⟨c₁, -, c₂, -, hm₁⟩ := hm₁
        cases hm₁
        rfl

theorem recordAll_crossLayerCounts {selected : List Nat} (h : m.recordAll l selected = some m') :
    m'.crossLayerCounts = m.crossLayerCounts := by
  induction selected generalizing m with
  | nil =>
      cases h
      rfl
  | cons a later ih =>
      rw [recordAll] at h
      split at h
      · exact ih h
      · obtain ⟨counts, -, h⟩ := Option.bind_eq_some_iff.mp h
        obtain ⟨m₁, hm₁, h⟩ := Option.bind_eq_some_iff.mp h
        exact (ih h).trans (recordPairs_crossLayerCounts (m := { m with layerCounts := counts }) hm₁)

/-- `record` leaves the counts of `record_cross_layer` alone. -/
theorem record_crossLayerCounts {selected : List Nat} (h : m.record l selected = some m') :
    m'.crossLayerCounts = m.crossLayerCounts := by
  rw [record] at h
  split at h
  · cases h
    rfl
  · obtain ⟨c, -, h⟩ := Option.bind_eq_some_iff.mp h
    exact recordAll_crossLayerCounts (m := { m with
      observationCounts := m.observationCounts.set l ((c + 1) % 2 ^ 32) }) h

namespace WellShaped

theorem record (h : WellShaped nl ne m) (layer : Nat) (selected : List Nat) :
    ∃ m', m.record layer selected = some m' ∧ WellShaped nl ne m' := by
  obtain ⟨m', hm', hshaped⟩ := h.toShaped.record layer selected
  have hcross := record_crossLayerCounts hm'
  exact ⟨m', hm', hshaped, hcross ▸ h.crossLayers, hcross ▸ h.crossSquare⟩

theorem recordRow (h : WellShaped nl ne m) {a : Nat} (hl : l < nl) (ha : a < ne) {bs : List Nat}
    (hbs : ∀ b ∈ bs, b < ne) : ∃ m', (bs.foldlM (fun m b => do
      let counts ← bump m.crossLayerCounts l a b
      pure { m with crossLayerCounts := counts }) m) = some m' ∧ WellShaped nl ne m' := by
  induction bs generalizing m with
  | nil => exact ⟨m, rfl, h⟩
  | cons b bs ih =>
      obtain ⟨hb, hbs⟩ := List.forall_mem_cons.mp hbs
      obtain ⟨counts, hcounts, hlen, hsquare⟩ :=
        bump_square h.crossSquare (h.crossLayers.symm ▸ hl) ha hb
      have h₁ : WellShaped nl ne { m with crossLayerCounts := counts } :=
        { h with crossLayers := hlen.trans h.crossLayers, crossSquare := hsquare }
      obtain ⟨m', hm', hshaped⟩ := ih h₁ hbs
      refine ⟨m', ?_, hshaped⟩
      simp only [List.foldlM_cons, hcounts, Option.bind_eq_bind, Option.bind_some]
      exact hm'

theorem recordRows (h : WellShaped nl ne m) (hl : l < nl) {as bs : List Nat}
    (has : ∀ a ∈ as, a < ne) : ∃ m', (as.foldlM (fun m a =>
      (bs.filter (· < m.numExperts)).foldlM (fun m b => do
        let counts ← bump m.crossLayerCounts l a b
        pure { m with crossLayerCounts := counts }) m) m) = some m' ∧ WellShaped nl ne m' := by
  induction as generalizing m with
  | nil => exact ⟨m, rfl, h⟩
  | cons a as ih =>
      obtain ⟨ha, has⟩ := List.forall_mem_cons.mp has
      have hbs : ∀ b ∈ bs.filter (· < m.numExperts), b < ne := fun b hb => by
        simpa [h.numExperts] using (List.mem_filter.mp hb).2
      obtain ⟨m₁, hm₁, h₁⟩ := h.recordRow hl ha hbs
      obtain ⟨m', hm', hshaped⟩ := ih h₁ has
      refine ⟨m', ?_, hshaped⟩
      rw [List.foldlM_cons, hm₁]
      exact hm'

/-- Neither does `record_cross_layer` panic. -/
theorem recordCrossLayer (h : WellShaped nl ne m) (layer : Nat) (expertsN expertsN1 : List Nat) :
    ∃ m', m.recordCrossLayer layer expertsN expertsN1 = some m' ∧ WellShaped nl ne m' := by
  unfold CoActivationMatrix.recordCrossLayer
  split
  · exact ⟨m, rfl, h⟩
  · next hl =>
      refine h.recordRows (by rw [← h.numLayers]; omega) fun a ha => ?_
      simpa [h.numExperts] using (List.mem_filter.mp ha).2

theorem addRow_isSome {scores row : List Nat} (hlen : row.length = scores.length) :
    ∃ scores', addRow scores row = some scores' ∧ scores'.length = scores.length := by
  refine ⟨_, if_pos hlen.le, ?_⟩
  simp [hlen]

theorem scores_isSome (h : WellShaped nl ne m) (hl : l < nl) {observed : List Nat}
    (hobserved : ∀ e ∈ observed, e < ne) {scores : List Nat} (hlen : scores.length = ne) :
    ∃ scores', (observed.foldlM (fun scores e => do
      let counts ← m.crossLayerCounts[l]?
      let row ← counts[e]?
      addRow scores row) scores) = some scores' := by
  induction observed generalizing scores with
  | nil => exact ⟨scores, rfl⟩
  | cons e observed ih =>
      obtain ⟨he, hobserved⟩ := List.forall_mem_cons.mp hobserved
      have hl' : l < m.crossLayerCounts.length := h.crossLayers.symm ▸ hl
      have hsquare := h.crossSquare _ (List.getElem_mem hl')
      have he' : e < m.crossLayerCounts[l].length := hsquare.rows.symm ▸ he
      have hrow := hsquare.columns _ (List.getElem_mem he')
      obtain ⟨scores₁, hscores₁, hlen₁⟩ := addRow_isSome (hrow.trans hlen.symm)
      obtain ⟨scores', hscores'⟩ := ih hobserved (hlen₁.trans hlen)
      refine ⟨scores', ?_⟩
      rw [List.foldlM_cons, List.getElem?_eq_getElem hl']
      simp only [Option.bind_eq_bind, Option.bind_some, List.getElem?_eq_getElem he', hscores₁]
      simpa only [List.getElem?_eq_getElem hl', Option.bind_eq_bind, Option.bind_some] using hscores'

/-- Nor does `predict_next_layer`. -/
theorem predictNextLayer (h : WellShaped nl ne m) (layer : Nat) (observed : List Nat)
    (topK : Nat) : ∃ ids, m.predictNextLayer layer observed topK = some ids := by
  unfold CoActivationMatrix.predictNextLayer
  split
  · exact ⟨[], rfl⟩
  · next hl =>
      have hl : layer < nl := by
        rw [← h.numLayers]
        omega
      have hobs : layer < m.observationCounts.length := h.observations.symm ▸ hl
      simp only [List.getElem?_eq_getElem hobs, Option.bind_eq_bind, Option.bind_some]
      split
      · exact ⟨[], rfl⟩
      · have hobserved : ∀ e ∈ observed.filter (· < m.numExperts), e < ne := fun e he => by
          simpa [h.numExperts] using (List.mem_filter.mp he).2
        have hlen : (List.replicate m.numExperts 0).length = ne := by
          rw [List.length_replicate, h.numExperts]
        obtain ⟨scores, hscores⟩ := h.scores_isSome hl hobserved hlen
        simp only [Option.bind_eq_bind] at hscores
        rw [hscores]
        exact ⟨_, rfl⟩

end WellShaped

end WellShaped

end CoActivationMatrix

end Hypura
