import Hypura.Cli.Optimize
import Mathlib.Data.List.Range

/-!
# Hypura.Cli.OptimizeOrder

What `compute_optimal_expert_order` returns: a permutation of the experts
(`computeOptimalExpertOrder_perm`), a greedy tour of them where the matrix was built by
recording (`computeOptimalExpertOrder_greedy`), and the natural order exactly when the
counts favour it strictly at every step (`computeOptimalExpertOrder_eq_range`).
-/

namespace Hypura.Optimize

open Hypura.Rust

/-- `counts[i][j]`, 0 outside the matrix. -/
def count (counts : List (List Nat)) (i j : Nat) : Nat :=
  (CoActivationMatrix.entry counts i j).getD 0

/-- The counts under which the greedy tour visits `0..ne` in order: expert 0 is the most
frequent one, and each expert's favourite among the later ones is the next, all without
a tie (a tie goes to the later expert). -/
structure NaturalOrder (counts : List (List Nat)) (ne : Nat) : Prop where
  start : ∀ j, 0 < j → j < ne → count counts j j < count counts 0 0
  next : ∀ i j, i + 1 < j → j < ne → count counts i j < count counts i (i + 1)

/-! ### One step of the tour -/

/-- The `visited` vector that goes with a partial order. -/
def visitedOf (ne : Nat) (order : List Nat) : List Bool :=
  (List.range ne).map fun e => decide (e ∈ order)

theorem visitedOf_nil (ne : Nat) : visitedOf ne [] = List.replicate ne false := by
  apply List.ext_getElem <;> simp [visitedOf]

theorem visitedOf_set {ne next : Nat} (order : List Nat) :
    (visitedOf ne order).set next true = visitedOf ne (order ++ [next]) := by
  apply List.ext_getElem
  · simp [visitedOf]
  · intro i h₁ h₂
    simp only [visitedOf, List.getElem_set, List.getElem_map, List.getElem_range,
      List.mem_append, List.mem_singleton]
    by_cases hi : next = i
    · simp [hi]
    · have : ¬ i = next := fun h => hi h.symm
      simp [hi, this]

theorem filter_visitedOf (ne : Nat) (order : List Nat) :
    ((List.range ne).filter fun e => (visitedOf ne order)[e]? = some false) =
      (List.range ne).filter fun e => e ∉ order := by
  apply List.filter_congr
  intro e he
  have hlt : e < ne := List.mem_range.mp he
  simp [visitedOf, List.getElem?_map, List.getElem?_range hlt]

/-- One more expert placed: the last best continuation of the order so far. -/
theorem tourFrom_succ {counts : List (List Nat)} {ne k : Nat} {order result : List Nat}
    (h : tourFrom counts ne (k + 1) (visitedOf ne order) order = some result) :
    ∃ current next, order.getLast? = some current ∧
      next = (lastMaxBy (count counts current)
        ((List.range ne).filter fun e => e ∉ order)).getD 0 ∧
      tourFrom counts ne k (visitedOf ne (order ++ [next])) (order ++ [next]) = some result := by
  simp only [tourFrom, Option.bind_eq_bind, Option.bind_eq_some_iff] at h
  obtain ⟨current, hcur, next, hnext, hrest⟩ := h
  rw [filter_visitedOf] at hnext
  have hval := (maxByKey_eq_some hnext).2
  rw [visitedOf_set] at hrest
  exact ⟨current, next.getD 0, hcur, by rw [hval]; rfl, hrest⟩

/-! ### The tour is a permutation -/

/-- A duplicate-free partial order of the experts. -/
structure PartialTour (ne : Nat) (order : List Nat) : Prop where
  nodup : order.Nodup
  lt : ∀ e ∈ order, e < ne

theorem PartialTour.perm {ne : Nat} {order : List Nat} (h : PartialTour ne order)
    (hlen : order.length = ne) : order.Perm (List.range ne) :=
  (h.nodup.subperm fun e he => List.mem_range.mpr (h.lt e he)).perm_of_length_le
    (by rw [List.length_range, hlen])

/-- While experts are missing, there is one to place next. -/
theorem exists_unvisited {ne : Nat} {order : List Nat} (hlen : order.length < ne) :
    ∃ e < ne, e ∉ order := by
  by_contra hall
  push Not at hall
  have hsub : List.range ne ⊆ order := fun e he => hall e (List.mem_range.mp he)
  have := (List.nodup_range.subperm hsub).length_le
  rw [List.length_range] at this
  omega

theorem PartialTour.next {ne : Nat} {order : List Nat} (h : PartialTour ne order)
    (hlen : order.length < ne) (val : Nat → Nat) :
    PartialTour ne
      (order ++ [(lastMaxBy val ((List.range ne).filter fun e => e ∉ order)).getD 0]) := by
  obtain ⟨e, he, hnot⟩ := exists_unvisited hlen
  have hne : (List.range ne).filter (fun e => e ∉ order) ≠ [] :=
    List.ne_nil_of_mem (List.mem_filter.mpr ⟨List.mem_range.mpr he, by simpa using hnot⟩)
  obtain ⟨m, hm⟩ := lastMaxBy_isSome val hne
  have hmem := List.mem_filter.mp (lastMaxBy_mem hm)
  have hlt : m < ne := List.mem_range.mp hmem.1
  have hnew : m ∉ order := by simpa using hmem.2
  rw [hm, Option.getD_some]
  constructor
  · refine List.nodup_append.mpr ⟨h.nodup, List.nodup_singleton m, fun a ha b hb => ?_⟩
    rw [List.mem_singleton.mp hb]
    exact fun hab => hnew (hab ▸ ha)
  · intro e he
    rcases List.mem_append.mp he with he | he
    · exact h.lt e he
    · rwa [List.mem_singleton.mp he]

/-- The loop extends the order it is given by `k` experts, without repeating one. -/
theorem tourFrom_spec {counts : List (List Nat)} {ne : Nat} :
    ∀ {k : Nat} {order result : List Nat}, PartialTour ne order → order.length + k = ne →
      tourFrom counts ne k (visitedOf ne order) order = some result →
      PartialTour ne result ∧ result.length = ne ∧ order <+: result
  | 0, order, result, htour, hlen, h => by
      cases h
      exact ⟨htour, hlen, List.prefix_rfl⟩
  | k + 1, order, result, htour, hlen, h => by
      obtain ⟨current, next, -, hnext, hrest⟩ := tourFrom_succ h
      have htour' := htour.next (by omega) (count counts current)
      rw [← hnext] at htour'
      have hlen' : (order ++ [next]).length + k = ne := by
        rw [List.length_append, List.length_singleton]
        omega
      obtain ⟨h₁, h₂, h₃⟩ := tourFrom_spec htour' hlen' hrest
      exact ⟨h₁, h₂, (List.prefix_append order [next]).trans h₃⟩

/-- The first expert and the loop after it. -/
theorem computeOptimalExpertOrder_tour {coAct : CoActivationMatrix} {layer ne : Nat}
    {counts : List (List Nat)} {order : List Nat} (hc : coAct.layerCounts[layer]? = some counts)
    (hne : 0 < ne) (h : computeOptimalExpertOrder coAct layer ne = some order) :
    ∃ start, lastMaxBy (fun e => count counts e e) (List.range ne) = some start ∧
      start < ne ∧ tourFrom counts ne (ne - 1) (visitedOf ne [start]) [start] = some order := by
  simp only [computeOptimalExpertOrder, hc, if_neg (by omega : ¬ ne = 0), Option.bind_eq_bind,
    Option.bind_eq_some_iff] at h
  obtain ⟨start, hstart, htour⟩ := h
  have hval := (maxByKey_eq_some hstart).2
  have hrange : List.range ne ≠ [] := by
    rw [Ne, List.range_eq_nil]
    omega
  obtain ⟨m, hm⟩ := lastMaxBy_isSome (fun e => count counts e e) hrange
  have hsm : start = some m := hval.trans hm
  subst hsm
  rw [Option.getD_some, ← visitedOf_nil, visitedOf_set, List.nil_append] at htour
  exact ⟨m, hm, List.mem_range.mp (lastMaxBy_mem hm), htour⟩

theorem partialTour_singleton {ne start : Nat} (h : start < ne) : PartialTour ne [start] :=
  ⟨List.nodup_singleton start, fun e he => by rwa [List.mem_singleton.mp he]⟩

/-- **The order is a permutation** of the experts, whatever the matrix holds. -/
theorem computeOptimalExpertOrder_perm {coAct : CoActivationMatrix} {layer ne : Nat}
    {order : List Nat} (h : computeOptimalExpertOrder coAct layer ne = some order) :
    order.Perm (List.range ne) := by
  cases hc : coAct.layerCounts[layer]? with
  | none =>
      simp only [computeOptimalExpertOrder, hc, Option.some.injEq] at h
      rw [← h]
  | some counts =>
      by_cases hne : ne = 0
      · simp only [computeOptimalExpertOrder, hc, if_pos hne, Option.some.injEq] at h
        rw [← h]
      · obtain ⟨start, -, hlt, htour⟩ := computeOptimalExpertOrder_tour hc (by omega) h
        obtain ⟨hres, hlen, -⟩ :=
          tourFrom_spec (partialTour_singleton hlt) (by rw [List.length_singleton]; omega) htour
        exact hres.perm hlen

/-! ### The tour is greedy -/

/-- Every expert after the first maximises the count with its predecessor, among the
experts not placed before it. -/
def GreedySteps (counts : List (List Nat)) (ne : Nat) (order : List Nat) : Prop :=
  ∀ i a b, order[i]? = some a → order[i + 1]? = some b →
    ∀ e < ne, e ∉ order.take (i + 1) → count counts a e ≤ count counts a b

/-- A greedy tour of the experts below `ne`. -/
structure GreedyTour (counts : List (List Nat)) (ne : Nat) (order : List Nat) : Prop where
  perm : order.Perm (List.range ne)
  /-- It starts with an expert of maximal self-count. -/
  start : ∀ s, order.head? = some s → ∀ e < ne, count counts e e ≤ count counts s s
  steps : GreedySteps counts ne order

theorem greedySteps_singleton (counts : List (List Nat)) (ne start : Nat) :
    GreedySteps counts ne [start] := by
  intro i a b ha hb
  cases hb

theorem GreedySteps.concat {counts : List (List Nat)} {ne current next : Nat} {order : List Nat}
    (h : GreedySteps counts ne order) (hcur : order.getLast? = some current)
    (hmax : ∀ e < ne, e ∉ order → count counts current e ≤ count counts current next) :
    GreedySteps counts ne (order ++ [next]) := by
  intro i a b ha hb e he hnot
  have hi : i + 1 < (order ++ [next]).length := (List.getElem?_eq_some_iff.mp hb).1
  rw [List.length_append, List.length_singleton] at hi
  rw [List.take_append_of_le_length (by omega)] at hnot
  rw [List.getElem?_append_left (by omega)] at ha
  by_cases hlast : i + 1 = order.length
  · rw [List.getElem?_append_right (by omega), hlast, Nat.sub_self] at hb
    cases hb
    rw [List.getLast?_eq_getElem?, ← hlast, Nat.add_sub_cancel, ha, Option.some.injEq] at hcur
    rw [hlast, List.take_length] at hnot
    rw [hcur]
    exact hmax e he hnot
  · rw [List.getElem?_append_left (by omega)] at hb
    exact h i a b ha hb e he hnot

theorem tourFrom_steps {counts : List (List Nat)} {ne : Nat} :
    ∀ {k : Nat} {order result : List Nat}, PartialTour ne order → order.length + k = ne →
      GreedySteps counts ne order →
      tourFrom counts ne k (visitedOf ne order) order = some result →
      GreedySteps counts ne result
  | 0, order, result, _, _, hsteps, h => by
      cases h
      exact hsteps
  | k + 1, order, result, htour, hlen, hsteps, h => by
      obtain ⟨current, next, hcur, hnext, hrest⟩ := tourFrom_succ h
      have hmax : ∀ e < ne, e ∉ order → count counts current e ≤ count counts current next := by
        intro e he hnot
        have hmem : e ∈ (List.range ne).filter fun e => e ∉ order :=
          List.mem_filter.mpr ⟨List.mem_range.mpr he, by simpa using hnot⟩
        obtain ⟨m, hm⟩ := lastMaxBy_isSome (count counts current) (List.ne_nil_of_mem hmem)
        rw [hnext, hm]
        exact lastMaxBy_max hm e hmem
      have htour' := htour.next (by omega) (count counts current)
      rw [← hnext] at htour'
      exact tourFrom_steps htour' (by rw [List.length_append, List.length_singleton]; omega)
        (hsteps.concat hcur hmax) hrest

/-- On a large enough matrix no index leaves its vector. -/
theorem tourFrom_isSome {counts : List (List Nat)} {ne : Nat}
    (hcounts : ∀ i < ne, ∀ j < ne, (CoActivationMatrix.entry counts i j).isSome) :
    ∀ {k : Nat} {order : List Nat}, PartialTour ne order → order ≠ [] → order.length + k = ne →
      ∃ result, tourFrom counts ne k (visitedOf ne order) order = some result
  | 0, order, _, _, _ => ⟨order, rfl⟩
  | k + 1, order, htour, hne, hlen => by
      have hcur := List.getLast?_eq_some_getLast hne
      have hlt : order.getLast hne < ne := htour.lt _ (List.getLast_mem hne)
      have hkeys : ∀ e ∈ (List.range ne).filter fun e => e ∉ order,
          (CoActivationMatrix.entry counts (order.getLast hne) e).isSome := fun e he =>
        hcounts _ hlt e (List.mem_range.mp (List.mem_filter.mp he).1)
      have htour' := htour.next (by omega) (count counts (order.getLast hne))
      obtain ⟨result, hresult⟩ := tourFrom_isSome hcounts (k := k) htour' (by simp)
        (by rw [List.length_append, List.length_singleton]; omega)
      refine ⟨result, ?_⟩
      simp only [tourFrom, hcur, filter_visitedOf, Option.bind_eq_bind, Option.bind_some,
        maxByKey_of_isSome hkeys, visitedOf_set]
      exact hresult

theorem greedyTour_of_eq_some {coAct : CoActivationMatrix} {layer ne : Nat}
    {counts : List (List Nat)} {order : List Nat} (hc : coAct.layerCounts[layer]? = some counts)
    (h : computeOptimalExpertOrder coAct layer ne = some order) : GreedyTour counts ne order := by
  have hperm := computeOptimalExpertOrder_perm h
  by_cases hne : ne = 0
  · subst hne
    rw [List.range_zero, List.perm_nil] at hperm
    subst hperm
    exact ⟨.refl _, nofun, nofun⟩
  · obtain ⟨start, hstart, hlt, htour⟩ := computeOptimalExpertOrder_tour hc (by omega) h
    have hlen : [start].length + (ne - 1) = ne := by
      rw [List.length_singleton]
      omega
    obtain ⟨-, -, rest, rfl⟩ := tourFrom_spec (partialTour_singleton hlt) hlen htour
    refine ⟨hperm, fun s hs e he => ?_, tourFrom_steps (partialTour_singleton hlt) hlen
      (greedySteps_singleton counts ne start) htour⟩
    cases hs
    exact lastMaxBy_max hstart e (List.mem_range.mpr he)

theorem computeOptimalExpertOrder_isSome {coAct : CoActivationMatrix} {layer ne : Nat}
    (hcounts : ∀ counts, coAct.layerCounts[layer]? = some counts →
      ∀ i < ne, ∀ j < ne, (CoActivationMatrix.entry counts i j).isSome) :
    ∃ order, computeOptimalExpertOrder coAct layer ne = some order := by
  cases hc : coAct.layerCounts[layer]? with
  | none => exact ⟨_, by rw [computeOptimalExpertOrder, hc]⟩
  | some counts =>
      by_cases hne : ne = 0
      · exact ⟨List.range ne, by simp only [computeOptimalExpertOrder, hc, if_pos hne]⟩
      have hkeys : ∀ e ∈ List.range ne, (CoActivationMatrix.entry counts e e).isSome :=
        fun e he => hcounts counts hc e (List.mem_range.mp he) e (List.mem_range.mp he)
      have hrange : List.range ne ≠ [] := by
        rwa [Ne, List.range_eq_nil]
      obtain ⟨start, hstart⟩ := lastMaxBy_isSome (fun e => count counts e e) hrange
      have hlt : start < ne := List.mem_range.mp (lastMaxBy_mem hstart)
      obtain ⟨order, horder⟩ := tourFrom_isSome (hcounts counts hc) (k := ne - 1)
        (partialTour_singleton hlt) (by simp) (by rw [List.length_singleton]; omega)
      refine ⟨order, ?_⟩
      have hmax := maxByKey_of_isSome hkeys
      rw [show (fun e => (CoActivationMatrix.entry counts e e).getD 0) =
        fun e => count counts e e from rfl, hstart] at hmax
      simp only [computeOptimalExpertOrder, hc, if_neg hne, Option.bind_eq_bind, hmax,
        Option.bind_some, Option.getD_some, ← visitedOf_nil, visitedOf_set, List.nil_append]
      exact horder

/-- **The order is a greedy tour** of the experts at every layer of a matrix that was built
by recording, and the natural order at every other layer. -/
theorem computeOptimalExpertOrder_greedy {nl ne numExperts : Nat} (calls : List (Nat × List Nat))
    (layer : Nat) (hne : numExperts ≤ ne) :
    ∃ coAct order, (CoActivationMatrix.new nl ne).recordCalls calls = some coAct ∧
      computeOptimalExpertOrder coAct layer numExperts = some order ∧
      order.Perm (List.range numExperts) ∧
      (layer < nl → ∃ counts, coAct.layerCounts[layer]? = some counts ∧
        GreedyTour counts numExperts order) ∧
      (nl ≤ layer → order = List.range numExperts) := by
  obtain ⟨coAct, hcalls, hshape⟩ := (CoActivationMatrix.shaped_new nl ne).recordCalls calls
  have hentry : ∀ counts, coAct.layerCounts[layer]? = some counts → ∀ i < numExperts,
      ∀ j < numExperts, (CoActivationMatrix.entry counts i j).isSome := fun counts hc i hi j hj =>
    (hshape.square counts (List.mem_of_getElem? hc)).entry_isSome (by omega) (by omega)
  obtain ⟨order, horder⟩ := computeOptimalExpertOrder_isSome hentry
  refine ⟨coAct, order, hcalls, horder, computeOptimalExpertOrder_perm horder, fun hl => ?_,
    fun hl => ?_⟩
  · have hc := List.getElem?_eq_getElem (hshape.layers.symm ▸ hl)
    exact ⟨_, hc, greedyTour_of_eq_some hc horder⟩
  · have hc : coAct.layerCounts[layer]? = none :=
      List.getElem?_eq_none (by rwa [hshape.layers])
    simp only [computeOptimalExpertOrder, hc, Option.some.injEq] at horder
    exact horder.symm

/-- Three of four experts, after one token that used experts 1 and 2. -/
theorem computeOptimalExpertOrder_greedy_three :
    ∃ coAct order, (CoActivationMatrix.new 2 4).recordCalls [(0, [1, 2])] = some coAct ∧
      computeOptimalExpertOrder coAct 0 3 = some order ∧ order.Perm (List.range 3) ∧
      (0 < 2 → ∃ counts, coAct.layerCounts[0]? = some counts ∧ GreedyTour counts 3 order) ∧
      (2 ≤ 0 → order = List.range 3) :=
  computeOptimalExpertOrder_greedy [(0, [1, 2])] 0 (by decide)

/-! ### When it is the natural order -/

/-- With `0..i` placed, the candidates are `i..ne` in order. -/
theorem filter_range_not_mem (i ne : Nat) (h : i ≤ ne) :
    (List.range ne).filter (fun e => e ∉ List.range i) = List.range' i (ne - i) := by
  obtain ⟨d, rfl⟩ : ∃ d, ne = i + d := ⟨ne - i, by omega⟩
  have hsplit : List.range (i + d) = List.range i ++ List.range' i d := by
    rw [List.range_eq_range', List.range_eq_range', ← List.range'_append_1, Nat.zero_add]
  rw [Nat.add_sub_cancel_left, hsplit, List.filter_append, List.filter_eq_nil_iff.mpr,
    List.nil_append, List.filter_eq_self.mpr]
  · intro e he
    simp only [List.mem_range'_1] at he
    simp only [List.mem_range, decide_eq_true_eq]
    omega
  · intro e he
    simpa using he

/-- The next candidate is chosen exactly when it beats all later ones. -/
theorem lastMaxBy_range' {val : Nat → Nat} {i d : Nat} :
    lastMaxBy val (List.range' i (d + 1)) = some i ↔
      ∀ j, i < j → j < i + d + 1 → val j < val i := by
  rw [List.range'_succ, lastMaxBy_cons_eq_head (by simp [List.mem_range'_1])]
  constructor
  · intro h j hj hlt
    exact h j (List.mem_range'_1.mpr ⟨by omega, by omega⟩)
  · intro h j hj
    rw [List.mem_range'_1] at hj
    exact h j (by omega) (by omega)

/-- From the natural prefix `0..i+1`, the loop ends in the natural order exactly when
each remaining step favours the next expert. -/
theorem tourFrom_eq_range {counts : List (List Nat)} {ne : Nat} :
    ∀ {k i : Nat} {result : List Nat}, i + 1 + k = ne →
      tourFrom counts ne k (visitedOf ne (List.range (i + 1))) (List.range (i + 1)) =
        some result →
      (result = List.range ne ↔
        ∀ i', i ≤ i' → ∀ j, i' + 1 < j → j < ne → count counts i' j < count counts i' (i' + 1))
  | 0, i, result, hlen, h => by
      cases h
      rw [← hlen]
      exact ⟨fun _ i' hi' j hj hlt => by omega, fun _ => rfl⟩
  | k + 1, i, result, hlen, h => by
      obtain ⟨current, next, hcur, hnext, hrest⟩ := tourFrom_succ h
      have hcurrent : current = i := by
        rw [List.range_succ, List.getLast?_concat, Option.some.injEq] at hcur
        exact hcur.symm
      subst hcurrent
      rw [filter_range_not_mem _ _ (by omega),
        show ne - (current + 1) = k + 1 by omega] at hnext
      have hcand : List.range' (current + 1) (k + 1) ≠ [] := by simp
      obtain ⟨m, hm⟩ := lastMaxBy_isSome (count counts current) hcand
      have hnm : next = m := by rw [hnext, hm]; rfl
      subst hnm
      have hstep : next = current + 1 ↔ ∀ j, current + 1 < j → j < ne →
          count counts current j < count counts current (current + 1) := by
        rw [← Option.some_inj, ← hm, lastMaxBy_range',
          show current + 1 + k + 1 = ne by omega]
      by_cases hn : next = current + 1
      · have hfav := hstep.mp hn
        subst hn
        rw [← List.range_succ] at hrest
        rw [tourFrom_eq_range (by omega) hrest]
        constructor
        · intro hall i' hi' j hj hlt
          by_cases heq : i' = current
          · subst heq
            exact hfav j hj hlt
          · exact hall i' (by omega) j hj hlt
        · intro hall i' hi'
          exact hall i' (by omega)
      · constructor
        · intro hres
          subst hres
          -- the result starts with the order so far, whose last element is not `i + 1`
          have htour : PartialTour ne (List.range (current + 1)) :=
            ⟨List.nodup_range, fun e he => by rw [List.mem_range] at he; omega⟩
          have htour' := htour.next (by rw [List.length_range]; omega) (count counts current)
          rw [filter_range_not_mem _ _ (by omega),
            show ne - (current + 1) = k + 1 by omega, hm, Option.getD_some] at htour'
          obtain ⟨-, -, hpre⟩ := tourFrom_spec htour'
            (by rw [List.length_append, List.length_range, List.length_singleton]; omega) hrest
          obtain ⟨rest, hrest⟩ := hpre
          have hat : (List.range ne)[current + 1]? = some next := by
            rw [← hrest, List.append_assoc, List.getElem?_append_right (by simp)]
            simp
          rw [List.getElem?_range (by omega), Option.some.injEq] at hat
          exact absurd hat.symm hn
        · intro hall
          exact absurd (hstep.mpr (hall current le_rfl)) hn

/-- **The natural order is kept** exactly when the counts favour it strictly. -/
theorem computeOptimalExpertOrder_eq_range {coAct : CoActivationMatrix} {layer ne : Nat}
    {counts : List (List Nat)} {order : List Nat} (hc : coAct.layerCounts[layer]? = some counts)
    (hne : 0 < ne) (h : computeOptimalExpertOrder coAct layer ne = some order) :
    order = List.range ne ↔ NaturalOrder counts ne := by
  obtain ⟨start, hstart, hlt, htour⟩ := computeOptimalExpertOrder_tour hc hne h
  have hzero : start = 0 ↔ ∀ j, 0 < j → j < ne → count counts j j < count counts 0 0 := by
    obtain ⟨d, rfl⟩ : ∃ d, ne = d + 1 := ⟨ne - 1, by omega⟩
    rw [← Option.some_inj, ← hstart, List.range_eq_range', lastMaxBy_range', Nat.zero_add]
  by_cases hs : start = 0
  · subst hs
    rw [tourFrom_eq_range (i := 0) (by omega) htour]
    constructor
    · intro hall
      exact ⟨hzero.mp rfl, fun i => hall i (Nat.zero_le i)⟩
    · intro hnat i _
      exact hnat.next i
  · constructor
    · intro hres
      obtain ⟨-, -, rest, hpre⟩ := tourFrom_spec (partialTour_singleton hlt)
        (by rw [List.length_singleton]; omega) htour
      have hat : (List.range ne)[0]? = some start := by
        rw [← hres, ← hpre]
        rfl
      rw [List.getElem?_range hne, Option.some.injEq] at hat
      exact absurd hat.symm hs
    · intro hnat
      exact absurd (hzero.mpr hnat.start) hs

end Hypura.Optimize
