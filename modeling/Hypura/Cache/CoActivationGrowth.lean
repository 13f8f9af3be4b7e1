import Hypura.Cache.CoActivationCounts

/-!
# Hypura.Cache.CoActivationGrowth

What one call adds to a matrix of any shape, whatever its counts (`cache/coactivation.rs`).

A matrix read back from its file is not given by functions of the indices, so the calls
are followed entry by entry: `Grows` says by how much the entries grow, and grown twice is
grown by the sum.
-/

namespace Hypura

namespace CoActivationMatrix

/-! ### One entry -/

section Growth
variable {nl ne l a b i j : Nat} {counts counts' counts'' : List (List (List Nat))}
  {n n' : Nat → Nat → Nat → Nat}

theorem countAt_bump (h : bump counts l i j = some counts') (l' i' j' : Nat) :
    countAt counts' l' i' j' = if l' = l ∧ i' = i ∧ j' = j then
      (countAt counts l i j).map fun c => (c + 1) % 2 ^ 32 else countAt counts l' i' j' := by
  obtain ⟨layer, hlayer, h⟩ := Option.bind_eq_some_iff.mp h
  obtain ⟨row, hrow, h⟩ := Option.bind_eq_some_iff.mp h
  obtain ⟨c, hc, h⟩ := Option.bind_eq_some_iff.mp h
  cases h
  have hset : ∀ {α : Type} {xs : List α} {k : Nat} {x y : α} (k' : Nat), xs[k]? = some x →
      (xs.set k y)[k']? = if k' = k then some y else xs[k']? := by
    intro α xs k x y k' hx
    rw [List.getElem?_set, if_pos (List.getElem?_eq_some_iff.mp hx).1]
    exact if_congr eq_comm rfl rfl
  by_cases hl : l' = l
  · subst hl
    by_cases hi : i' = i
    · subst hi
      by_cases hj : j' = j
      · subst hj
        simp only [countAt, entry, hset _ hlayer, hset _ hrow, hset _ hc, hlayer, hrow, hc, if_true,
          Option.bind_some, Option.map_some, and_self]
      · simp only [countAt, entry, hset _ hlayer, hset _ hrow, hset _ hc, hlayer, hrow, hj, if_true,
          if_false, Option.bind_some, and_false]
    · simp only [countAt, entry, hset _ hlayer, hset _ hrow, hlayer, hi, if_true, if_false,
        Option.bind_some, and_false, false_and]
  · simp only [countAt, hset _ hlayer, hl, if_false, false_and]

/-- The entries of the experts grow by `n`, as long as they fit. -/
def Grows (nl ne : Nat) (counts counts' : List (List (List Nat))) (n : Nat → Nat → Nat → Nat) :
    Prop :=
  ∀ l < nl, ∀ a < ne, ∀ b < ne, ∀ c, countAt counts l a b = some c → c + n l a b < 2 ^ 32 →
    countAt counts' l a b = some (c + n l a b)

theorem Grows.refl (nl ne : Nat) (counts : List (List (List Nat))) :
    Grows nl ne counts counts fun _ _ _ => 0 :=
  fun _ _ _ _ _ _ _ hc _ => hc

theorem Grows.trans (h : Grows nl ne counts counts' n) (h' : Grows nl ne counts' counts'' n') :
    Grows nl ne counts counts'' fun l a b => n l a b + n' l a b := by
  intro l hl a ha b hb c hc hfit
  dsimp only at hfit ⊢
  have hfirst := h l hl a ha b hb c hc (by omega)
  rw [h' l hl a ha b hb _ hfirst (by omega), Nat.add_assoc]

theorem Grows.congr (h : Grows nl ne counts counts' n)
    (heq : ∀ l < nl, ∀ a < ne, ∀ b < ne, n l a b = n' l a b) : Grows nl ne counts counts' n' := by
  intro l hl a ha b hb c hc hfit
  rw [← heq l hl a ha b hb] at hfit ⊢
  exact h l hl a ha b hb c hc hfit

theorem grows_bump (h : bump counts l i j = some counts') :
    Grows nl ne counts counts' (addOne (fun _ _ _ => 0) l i j) := by
  intro l' _ a _ b _ c hc hfit
  rw [countAt_bump h]
  by_cases hat : l' = l ∧ a = i ∧ b = j
  · obtain ⟨rfl, rfl, rfl⟩ := hat
    simp only [addOne, and_self, if_true, Nat.zero_add] at hfit ⊢
    rw [hc, Option.map_some, Nat.mod_eq_of_lt hfit]
  · simp only [addOne, if_neg hat, Nat.add_zero]
    exact hc

/-! ### One call -/

variable {m m' : CoActivationMatrix} {selected : List Nat}

/-- The inner loop adds the pairs of `a` with each expert after it, both ways. -/
theorem grows_recordPairs (nl : Nat) {later : List Nat} (h : m.recordPairs l a later = some m') :
    ∃ counts, m' = { m with layerCounts := counts } ∧
      Grows nl m.numExperts m.layerCounts counts fun l' x y => if l' = l then
        (if x = a then later.count y else 0) + (if y = a then later.count x else 0) else 0 := by
  induction later generalizing m with
  | nil =>
      exact ⟨m.layerCounts, (Option.some.inj h).symm,
        (Grows.refl nl m.numExperts m.layerCounts).congr fun l' _ x _ y _ => by simp⟩
  | cons b later ih =>
      rw [recordPairs, List.foldlM_cons] at h
      obtain ⟨m₁, hm₁, h⟩ := Option.bind_eq_some_iff.mp h
      split at hm₁
      · next hb =>
          cases hm₁
          obtain ⟨counts, rfl, hgrows⟩ := ih h
          refine ⟨counts, rfl, hgrows.congr fun l' _ x hx y hy => ?_⟩
          rw [List.count_cons_of_ne (by omega), List.count_cons_of_ne (by omega)]
      · obtain ⟨c₁, hc₁, hm₁⟩ := Option.bind_eq_some_iff.mp hm₁
        obtain ⟨c₂, hc₂, hm₁⟩ := Option.bind_eq_some_iff.mp hm₁
        cases hm₁
        obtain ⟨counts, rfl, hgrows⟩ := ih h
        refine ⟨counts, rfl, (((grows_bump hc₁).trans (grows_bump hc₂)).trans hgrows).congr
          fun l' _ x _ y _ => ?_⟩
        simp only [addOne, List.count_cons, beq_iff_eq, @eq_comm _ b]
        split_ifs <;> omega

/-- The outer loop adds every pair of the list, and the diagonal, once. -/
theorem grows_recordAll (nl : Nat) (hnodup : selected.Nodup)
    (h : m.recordAll l selected = some m') :
    ∃ counts, m' = { m with layerCounts := counts } ∧
      Grows nl m.numExperts m.layerCounts counts fun l' x y =>
        if l' = l ∧ x ∈ selected ∧ y ∈ selected then 1 else 0 := by
  induction selected generalizing m with
  | nil =>
      exact ⟨m.layerCounts, (Option.some.inj h).symm,
        (Grows.refl nl m.numExperts m.layerCounts).congr fun l' _ x _ y _ => by simp⟩
  | cons a later ih =>
      obtain ⟨hnot, hlater⟩ := List.nodup_cons.mp hnodup
      rw [recordAll] at h
      split at h
      · next ha =>
          obtain ⟨counts, rfl, hgrows⟩ := ih hlater h
          refine ⟨counts, rfl, hgrows.congr fun l' _ x hx y hy => ?_⟩
          simp only [List.mem_cons, show x ≠ a by omega, show y ≠ a by omega, false_or]
      · obtain ⟨c, hc, h⟩ := Option.bind_eq_some_iff.mp h
        obtain ⟨m₁, hm₁, h⟩ := Option.bind_eq_some_iff.mp h
        obtain ⟨c₁, rfl, hpairs⟩ := grows_recordPairs nl hm₁
        obtain ⟨counts, rfl, hgrows⟩ := ih hlater h
        refine ⟨counts, rfl, (((grows_bump hc).trans hpairs).trans hgrows).congr
          fun l' _ x _ y _ => ?_⟩
        simp only [addOne, List.mem_cons, hlater.count]
        have hxa : x = a → x ∉ later := fun hx => hx ▸ hnot
        have hya : y = a → y ∉ later := fun hy => hy ▸ hnot
        by_cases hl : l' = l
        · by_cases hx : x = a <;> by_cases hy : y = a <;> simp_all
        · simp [hl]

/-- What `record` adds. -/
structure Records (m m' : CoActivationMatrix) (l : Nat) (selected : List Nat) : Prop where
  numLayers : m'.numLayers = m.numLayers
  numExperts : m'.numExperts = m.numExperts
  crossLayer : m'.crossLayerCounts = m.crossLayerCounts
  sameLayer : Grows m.numLayers m.numExperts m.layerCounts m'.layerCounts fun l' a b =>
    if l' = l ∧ a ∈ selected ∧ b ∈ selected then 1 else 0
  observations : ∀ l' < m.numLayers, ∀ c, m.observationCounts[l']? = some c →
    c + (if l' = l then 1 else 0) < 2 ^ 32 →
    m'.observationCounts[l']? = some (c + if l' = l then 1 else 0)

theorem records_record (hnodup : selected.Nodup) (h : m.record l selected = some m') :
    Records m m' l selected := by
  rw [record] at h
  split at h
  · next hl =>
      cases h
      have hne : ∀ l' < m.numLayers, l' ≠ l := fun l' hl' => (hl'.trans_le hl).ne
      refine ⟨rfl, rfl, rfl, (Grows.refl m.numLayers m.numExperts m.layerCounts).congr
        fun l' hl' a _ b _ => ?_, fun l' hl' c hc _ => ?_⟩
      · rw [if_neg fun hall => hne l' hl' hall.1]
      · rwa [if_neg (hne l' hl')]
  · obtain ⟨c, hc, h⟩ := Option.bind_eq_some_iff.mp h
    obtain ⟨counts, rfl, hgrows⟩ := grows_recordAll m.numLayers hnodup h
    refine ⟨rfl, rfl, rfl, hgrows, fun l' _ c' hc' hfit => ?_⟩
    have hlt := (List.getElem?_eq_some_iff.mp hc).1
    by_cases hl' : l' = l
    · subst hl'
      obtain rfl : c = c' := Option.some.inj (hc.symm.trans hc')
      rw [if_pos rfl] at hfit ⊢
      rw [List.getElem?_set_self hlt, Nat.mod_eq_of_lt hfit]
    · rw [if_neg hl', List.getElem?_set_ne (Ne.symm hl'), hc', Nat.add_zero]

/-- A row of the cross-layer counts: one expert with each of the next layer's. -/
theorem recordRow_changes {bs : List Nat} (h : (bs.foldlM (fun m b => do
      let counts ← bump m.crossLayerCounts l a b
      pure { m with crossLayerCounts := counts }) m) = some m') :
    ∃ counts, m' = { m with crossLayerCounts := counts } ∧
      ∀ l' a' b', countAt counts l' a' b' ≠ countAt m.crossLayerCounts l' a' b' →
        l' = l ∧ a' = a ∧ b' ∈ bs := by
  induction bs generalizing m with
  | nil => exact ⟨m.crossLayerCounts, (Option.some.inj h).symm, fun l' a' b' hne => absurd rfl hne⟩
  | cons b bs ih =>
      rw [List.foldlM_cons] at h
      obtain ⟨m₁, hm₁, h⟩ := Option.bind_eq_some_iff.mp h
      obtain ⟨c₁, hc₁, hm₁⟩ := Option.bind_eq_some_iff.mp hm₁
      cases hm₁
      obtain ⟨counts, rfl, hchanges⟩ := ih h
      refine ⟨counts, rfl, fun l' a' b' hne => ?_⟩
      by_cases hsame : countAt counts l' a' b' = countAt c₁ l' a' b'
      · rw [hsame, countAt_bump hc₁] at hne
        split at hne
        · next hat => exact ⟨hat.1, hat.2.1, hat.2.2 ▸ List.mem_cons_self⟩
        · exact absurd rfl hne
      · obtain ⟨hl', ha', hb'⟩ := hchanges l' a' b' hsame
        exact ⟨hl', ha', List.mem_cons_of_mem _ hb'⟩

theorem recordRows_changes {as bs : List Nat} (h : (as.foldlM (fun m a =>
      (bs.filter (· < m.numExperts)).foldlM (fun m b => do
        let counts ← bump m.crossLayerCounts l a b
        pure { m with crossLayerCounts := counts }) m) m) = some m') :
    ∃ counts, m' = { m with crossLayerCounts := counts } ∧
      ∀ l' a b, countAt counts l' a b ≠ countAt m.crossLayerCounts l' a b →
        l' = l ∧ a ∈ as ∧ b ∈ bs := by
  induction as generalizing m with
  | nil => exact ⟨m.crossLayerCounts, (Option.some.inj h).symm, fun l' a b hne => absurd rfl hne⟩
  | cons a as ih =>
      rw [List.foldlM_cons] at h
      obtain ⟨m₁, hm₁, h⟩ := Option.bind_eq_some_iff.mp h
      obtain ⟨c₁, rfl, hfirst⟩ := recordRow_changes hm₁
      obtain ⟨counts, rfl, hchanges⟩ := ih h
      refine ⟨counts, rfl, fun l' a' b' hne => ?_⟩
      by_cases hsame : countAt counts l' a' b' = countAt c₁ l' a' b'
      · obtain ⟨hl', ha', hb'⟩ := hfirst l' a' b' (hsame ▸ hne)
        exact ⟨hl', ha' ▸ List.mem_cons_self, (List.mem_filter.mp hb').1⟩
      · obtain ⟨hl', ha', hb'⟩ := hchanges l' a' b' hsame
        exact ⟨hl', List.mem_cons_of_mem _ ha', hb'⟩

/-- `record_cross_layer` touches the entries of its layer that pair experts of the lists. -/
theorem recordCrossLayer_changes {expertsN expertsN1 : List Nat}
    (h : m.recordCrossLayer l expertsN expertsN1 = some m') :
    ∃ counts, m' = { m with crossLayerCounts := counts } ∧
      ∀ l' a b, countAt counts l' a b ≠ countAt m.crossLayerCounts l' a b →
        l' = l ∧ l < m.numLayers ∧ a ∈ expertsN ∧ b ∈ expertsN1 := by
  rw [recordCrossLayer] at h
  split at h
  · exact ⟨m.crossLayerCounts, (Option.some.inj h).symm, fun l' a b hne => absurd rfl hne⟩
  · next hl =>
      obtain ⟨counts, rfl, hchanges⟩ := recordRows_changes h
      refine ⟨counts, rfl, fun l' a b hne => ?_⟩
      obtain ⟨hl', ha, hb⟩ := hchanges l' a b hne
      exact ⟨hl', Nat.not_le.mp hl, (List.mem_filter.mp ha).1, hb⟩

end Growth

end CoActivationMatrix

end Hypura
