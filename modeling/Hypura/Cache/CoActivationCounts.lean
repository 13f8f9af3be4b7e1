import Hypura.Cache.CoActivation

/-!
# Hypura.Cache.CoActivationCounts

What the co-activation counts count, and what is predicted from them
(`cache/coactivation.rs`).

A matrix whose entries are given by functions of their indices (`ofCounts`) stays one
under every call: recording adds to the functions. So after any calls on a new matrix the
entries are the numbers of calls that listed both experts.
-/

namespace Hypura

namespace CoActivationMatrix

/-! ### Tables -/

section Tables

theorem set_map_range {α : Type} (n i : Nat) (f : Nat → α) (x : α) :
    ((List.range n).map f).set i x = (List.range n).map (Function.update f i x) := by
  refine List.ext_getElem (by simp) fun k _ _ => ?_
  simp [List.getElem_set, Function.update_apply, eq_comm]

/-- A table of counters with the values of `f`. -/
def table (nl ne : Nat) (f : Nat → Nat → Nat → Nat) : List (List (List Nat)) :=
  (List.range nl).map fun l => (List.range ne).map fun a => (List.range ne).map fun b =>
    f l a b % 2 ^ 32

variable {nl ne l i j : Nat} {f g : Nat → Nat → Nat → Nat}

theorem table_congr (h : ∀ l < nl, ∀ a < ne, ∀ b < ne, f l a b = g l a b) :
    table nl ne f = table nl ne g := by
  refine List.map_congr_left fun l hl => List.map_congr_left fun a ha =>
    List.map_congr_left fun b hb => ?_
  rw [h l (List.mem_range.mp hl) a (List.mem_range.mp ha) b (List.mem_range.mp hb)]

/-- `f`, and one more at a place. -/
def addOne (f : Nat → Nat → Nat → Nat) (l i j : Nat) : Nat → Nat → Nat → Nat :=
  fun l' i' j' => f l' i' j' + if l' = l ∧ i' = i ∧ j' = j then 1 else 0

theorem bump_table (hl : l < nl) (hi : i < ne) (hj : j < ne) :
    bump (table nl ne f) l i j = some (table nl ne (addOne f l i j)) := by
  have hrow : (table nl ne f)[l]? = some ((List.range ne).map fun a => (List.range ne).map fun b =>
      f l a b % 2 ^ 32) := by
    rw [table, List.getElem?_map, List.getElem?_range hl]
    rfl
  simp only [bump, hrow, Option.bind_eq_bind, Option.bind_some, List.getElem?_map,
    List.getElem?_range hi, List.getElem?_range hj, Option.map_some, set_map_range]
  rw [table, set_map_range]
  refine congrArg some (List.map_congr_left fun l' _ => ?_)
  by_cases hl' : l' = l
  · subst hl'
    rw [Function.update_self]
    refine List.map_congr_left fun i' _ => ?_
    by_cases hi' : i' = i
    · subst hi'
      rw [Function.update_self]
      refine List.map_congr_left fun j' _ => ?_
      by_cases hj' : j' = j
      · subst hj'
        simp [addOne]
      · simp [addOne, hj']
    · simp [addOne, hi']
  · simp [addOne, hl']

end Tables

/-! ### Recording -/

/-- The matrix with the given counts. -/
def ofCounts (nl ne : Nat) (pairs cross : Nat → Nat → Nat → Nat) (seen : Nat → Nat) :
    CoActivationMatrix where
  layerCounts := table nl ne pairs
  crossLayerCounts := table nl ne cross
  observationCounts := (List.range nl).map fun l => seen l % 2 ^ 32
  numLayers := nl
  numExperts := ne

theorem new_eq_ofCounts (nl ne : Nat) :
    new nl ne = ofCounts nl ne (fun _ _ _ => 0) (fun _ _ _ => 0) fun _ => 0 := by
  simp [new, ofCounts, table, List.map_const']

section Recording
variable {nl ne l a : Nat} {pairs cross : Nat → Nat → Nat → Nat} {seen : Nat → Nat}

theorem ofCounts_congr {pairs' cross' : Nat → Nat → Nat → Nat} {seen' : Nat → Nat}
    (hpairs : ∀ l < nl, ∀ a < ne, ∀ b < ne, pairs l a b = pairs' l a b)
    (hcross : ∀ l < nl, ∀ a < ne, ∀ b < ne, cross l a b = cross' l a b)
    (hseen : ∀ l < nl, seen l = seen' l) :
    ofCounts nl ne pairs cross seen = ofCounts nl ne pairs' cross' seen' := by
  have hcounts : ((List.range nl).map fun l => seen l % 2 ^ 32) =
      (List.range nl).map fun l => seen' l % 2 ^ 32 :=
    List.map_congr_left fun l hl => by rw [hseen l (List.mem_range.mp hl)]
  simp only [ofCounts, table_congr hpairs, table_congr hcross, hcounts]

theorem recordPairs_cons (hl : l < nl) (ha : a < ne) (b : Nat) (later : List Nat) :
    (ofCounts nl ne pairs cross seen).recordPairs l a (b :: later) =
      if ne ≤ b then (ofCounts nl ne pairs cross seen).recordPairs l a later
      else (ofCounts nl ne (addOne (addOne pairs l a b) l b a) cross seen).recordPairs l a later := by
  simp only [recordPairs, List.foldlM_cons]
  by_cases hb : ne ≤ b
  · rw [if_pos hb, if_pos (show (ofCounts nl ne pairs cross seen).numExperts ≤ b from hb)]
    rfl
  · have hb' : b < ne := Nat.not_le.mp hb
    rw [if_neg hb, if_neg (show ¬ (ofCounts nl ne pairs cross seen).numExperts ≤ b from hb)]
    simp only [ofCounts, bump_table hl ha hb', bump_table hl hb' ha, Option.bind_eq_bind,
      Option.bind_some]
    rfl

/-- The inner loop adds the pairs of `a` with each expert after it, both ways. -/
theorem recordPairs_ofCounts (hl : l < nl) (ha : a < ne) (later : List Nat) :
    (ofCounts nl ne pairs cross seen).recordPairs l a later =
      some (ofCounts nl ne (fun l' x y => pairs l' x y + if l' = l then
        (if x = a then later.count y else 0) + (if y = a then later.count x else 0) else 0)
        cross seen) := by
  induction later generalizing pairs with
  | nil => simp [recordPairs]
  | cons b later ih =>
      rw [recordPairs_cons hl ha]
      split
      · next hb =>
          rw [ih]
          refine congrArg some (ofCounts_congr (fun l' _ x hx y hy => ?_) (fun _ _ _ _ _ _ => rfl)
            fun _ _ => rfl)
          rw [List.count_cons_of_ne (by omega), List.count_cons_of_ne (by omega)]
      · rw [ih]
        refine congrArg some (ofCounts_congr (fun l' _ x _ y _ => ?_) (fun _ _ _ _ _ _ => rfl)
          fun _ _ => rfl)
        simp only [addOne, List.count_cons, beq_iff_eq, @eq_comm _ b]
        split_ifs <;> omega

/-- The outer loop adds every pair of the list, and the diagonal, once. -/
theorem recordAll_ofCounts (hl : l < nl) {selected : List Nat} (hnodup : selected.Nodup) :
    (ofCounts nl ne pairs cross seen).recordAll l selected =
      some (ofCounts nl ne (fun l' x y => pairs l' x y +
        if l' = l ∧ x ∈ selected ∧ y ∈ selected then 1 else 0) cross seen) := by
  induction selected generalizing pairs with
  | nil => simp [recordAll]
  | cons a later ih =>
      obtain ⟨hnot, hlater⟩ := List.nodup_cons.mp hnodup
      rw [recordAll]
      split
      · next ha =>
          have ha' : ne ≤ a := ha
          rw [ih hlater]
          refine congrArg some (ofCounts_congr (fun l' _ x hx y hy => ?_) (fun _ _ _ _ _ _ => rfl)
            fun _ _ => rfl)
          simp only [List.mem_cons, show x ≠ a by omega, show y ≠ a by omega, false_or]
      · next ha =>
          have ha' : a < ne := Nat.not_le.mp ha
          have hbump : bump (ofCounts nl ne pairs cross seen).layerCounts l a a =
              some (table nl ne (addOne pairs l a a)) := bump_table hl ha' ha'
          have hpairs : CoActivationMatrix.recordPairs
              { ofCounts nl ne pairs cross seen with layerCounts := table nl ne (addOne pairs l a a) }
              l a later = _ := recordPairs_ofCounts hl ha' later
          rw [hbump, Option.bind_eq_bind, Option.bind_some, hpairs, Option.bind_eq_bind,
            Option.bind_some, ih hlater]
          refine congrArg some (ofCounts_congr (fun l' _ x _ y _ => ?_) (fun _ _ _ _ _ _ => rfl)
            fun _ _ => rfl)
          simp only [addOne, List.mem_cons, hlater.count]
          by_cases hl' : l' = l <;> by_cases hx : x = a <;> by_cases hy : y = a <;>
            by_cases hxl : x ∈ later <;> by_cases hyl : y ∈ later <;> simp_all

theorem record_ofCounts (layer : Nat) {selected : List Nat} (hnodup : selected.Nodup) :
    (ofCounts nl ne pairs cross seen).record layer selected =
      some (ofCounts nl ne
        (fun l x y => pairs l x y + if l = layer ∧ x ∈ selected ∧ y ∈ selected then 1 else 0) cross
        (fun l => seen l + if l = layer then 1 else 0)) := by
  rw [record]
  split
  · next hl =>
      have hl' : nl ≤ layer := hl
      refine congrArg some (ofCounts_congr (fun l hlt x _ y _ => ?_) (fun _ _ _ _ _ _ => rfl)
        fun l hlt => ?_)
      · rw [if_neg fun h => by omega, Nat.add_zero]
      · rw [if_neg (by omega), Nat.add_zero]
  · next hl =>
      have hl' : layer < nl := Nat.not_le.mp hl
      have hseen : (ofCounts nl ne pairs cross seen).observationCounts[layer]? =
          some (seen layer % 2 ^ 32) := by
        simp [ofCounts, hl']
      have hset : (ofCounts nl ne pairs cross seen).observationCounts.set layer
          ((seen layer % 2 ^ 32 + 1) % 2 ^ 32) =
            (List.range nl).map fun l => (seen l + if l = layer then 1 else 0) % 2 ^ 32 := by
        simp only [ofCounts, set_map_range]
        refine List.map_congr_left fun l _ => ?_
        by_cases h : l = layer
        · simp [h]
        · simp [h]
      rw [hseen, Option.bind_eq_bind, Option.bind_some, hset]
      exact recordAll_ofCounts hl' hnodup

theorem crossRow_ofCounts (hl : l < nl) (ha : a < ne) {bs : List Nat} (hbs : ∀ b ∈ bs, b < ne) :
    bs.foldlM (fun m b => do
        let counts ← bump m.crossLayerCounts l a b
        pure { m with crossLayerCounts := counts }) (ofCounts nl ne pairs cross seen) =
      some (ofCounts nl ne pairs
        (fun l' x y => cross l' x y + if l' = l ∧ x = a then bs.count y else 0) seen) := by
  induction bs generalizing cross with
  | nil => simp
  | cons b bs ih =>
      have hbump : bump (ofCounts nl ne pairs cross seen).crossLayerCounts l a b =
          some (table nl ne (addOne cross l a b)) := bump_table hl ha (hbs b List.mem_cons_self)
      rw [List.foldlM_cons, hbump]
      simp only [Option.bind_eq_bind, Option.bind_some, Option.pure_def]
      refine (ih fun b' hb' => hbs b' (List.mem_cons_of_mem _ hb')).trans ?_
      refine congrArg some (ofCounts_congr (fun _ _ _ _ _ _ => rfl) (fun l' _ x _ y _ => ?_)
        fun _ _ => rfl)
      simp only [addOne, List.count_cons, beq_iff_eq, @eq_comm _ b]
      split_ifs <;> omega

theorem crossRows_ofCounts (hl : l < nl) {as : List Nat} (has : ∀ a ∈ as, a < ne)
    (bs : List Nat) :
    as.foldlM (fun m a => (bs.filter (· < m.numExperts)).foldlM (fun m b => do
        let counts ← bump m.crossLayerCounts l a b
        pure { m with crossLayerCounts := counts }) m) (ofCounts nl ne pairs cross seen) =
      some (ofCounts nl ne pairs (fun l' x y => cross l' x y + if l' = l then
        as.count x * (bs.filter (· < ne)).count y else 0) seen) := by
  induction as generalizing cross with
  | nil => simp
  | cons a as ih =>
      have hlt : ∀ b ∈ bs.filter (· < ne), b < ne := fun b hb =>
        of_decide_eq_true (List.mem_filter.mp hb).2
      rw [List.foldlM_cons]
      refine (congrArg (Option.bind · _)
        (crossRow_ofCounts hl (has a List.mem_cons_self) hlt)).trans ?_
      refine (ih fun a' ha' => has a' (List.mem_cons_of_mem _ ha')).trans ?_
      refine congrArg some (ofCounts_congr (fun _ _ _ _ _ _ => rfl) (fun l' _ x _ y _ => ?_)
        fun _ _ => rfl)
      rw [List.count_cons]
      by_cases hl' : l' = l <;> by_cases hx : x = a
      · simp [hl', hx]
        ring
      · simp [hl', hx, Ne.symm hx]
      · simp [hl']
      · simp [hl']

theorem recordCrossLayer_ofCounts (layer : Nat) {expertsN expertsN1 : List Nat}
    (hN : expertsN.Nodup) (hN1 : expertsN1.Nodup) :
    (ofCounts nl ne pairs cross seen).recordCrossLayer layer expertsN expertsN1 =
      some (ofCounts nl ne pairs
        (fun l x y => cross l x y + if l = layer ∧ x ∈ expertsN ∧ y ∈ expertsN1 then 1 else 0)
        seen) := by
  rw [recordCrossLayer]
  split
  · next hl =>
      have hl' : nl ≤ layer := hl
      refine congrArg some (ofCounts_congr (fun _ _ _ _ _ _ => rfl) (fun l hlt x _ y _ => ?_)
        fun _ _ => rfl)
      rw [if_neg fun h => by omega, Nat.add_zero]
  · next hl =>
      have hl' : layer < nl := Nat.not_le.mp hl
      have hlt : ∀ a ∈ expertsN.filter (· < ne), a < ne := fun a ha =>
        of_decide_eq_true (List.mem_filter.mp ha).2
      refine (crossRows_ofCounts hl' hlt expertsN1).trans ?_
      refine congrArg some (ofCounts_congr (fun _ _ _ _ _ _ => rfl) (fun l _ x hx y hy => ?_)
        fun _ _ => rfl)
      rw [(hN.filter _).count, (hN1.filter _).count]
      simp only [List.mem_filter, hx, hy, decide_true, and_true]
      by_cases h : l = layer <;> by_cases hxN : x ∈ expertsN <;> by_cases hyN : y ∈ expertsN1 <;>
        simp [h, hxN, hyN]

end Recording

/-! ### Sequences of calls -/

/-- A call that records. -/
inductive Call
  | record (layer : Nat) (selectedExperts : List Nat)
  | recordCrossLayer (layer : Nat) (expertsN expertsN1 : List Nat)
  deriving DecidableEq, Repr

namespace Call

/-- No list names an expert twice. -/
def DuplicateFree : Call → Prop
  | record _ selected => selected.Nodup
  | recordCrossLayer _ expertsN expertsN1 => expertsN.Nodup ∧ expertsN1.Nodup

instance : DecidablePred DuplicateFree
  | record _ selected => inferInstanceAs (Decidable selected.Nodup)
  | recordCrossLayer _ expertsN expertsN1 =>
    inferInstanceAs (Decidable (expertsN.Nodup ∧ expertsN1.Nodup))

/-- A list recorded at the layer. -/
def observes (l : Nat) : Call → Bool
  | record layer _ => l = layer
  | recordCrossLayer .. => false

/-- A list recorded at the layer that names both experts. -/
def lists (l a b : Nat) : Call → Bool
  | record layer selected => l = layer ∧ a ∈ selected ∧ b ∈ selected
  | recordCrossLayer .. => false

/-- Two lists recorded at the layer: the first names `a` and the second `b`. -/
def links (l a b : Nat) : Call → Bool
  | record .. => false
  | recordCrossLayer layer expertsN expertsN1 => l = layer ∧ a ∈ expertsN ∧ b ∈ expertsN1

end Call

/-- The matrix after a call. -/
def after (m : CoActivationMatrix) : Call → Option CoActivationMatrix
  | .record layer selected => m.record layer selected
  | .recordCrossLayer layer expertsN expertsN1 => m.recordCrossLayer layer expertsN expertsN1

/-- The matrix after several calls. -/
def afterAll (m : CoActivationMatrix) (calls : List Call) : Option CoActivationMatrix :=
  calls.foldlM after m

section Calls
variable {nl ne : Nat} {calls : List Call}

/-- **The counts of a run**: after any calls without duplicates a new matrix holds the numbers
of calls that listed, or linked, both experts. -/
theorem afterAll_new (nl ne : Nat) (hcalls : ∀ c ∈ calls, c.DuplicateFree) :
    (new nl ne).afterAll calls = some (ofCounts nl ne
      (fun l a b => calls.countP (·.lists l a b)) (fun l a b => calls.countP (·.links l a b))
      fun l => calls.countP (·.observes l)) := by
  induction calls using List.reverseRecOn with
  | nil => exact congrArg some (new_eq_ofCounts nl ne)
  | append_singleton calls c ih =>
      have hbefore := ih fun c' hc' => hcalls c' (List.mem_append_left _ hc')
      have hc := hcalls c (List.mem_append_right _ List.mem_cons_self)
      rw [afterAll, List.foldlM_append, ← afterAll, hbefore, Option.bind_eq_bind, Option.bind_some,
        List.foldlM_cons]
      refine (bind_pure _).trans ?_
      simp only [List.countP_append, List.countP_singleton]
      cases c with
      | record layer selected =>
          refine (record_ofCounts layer hc).trans ?_
          simp [Call.lists, Call.links, Call.observes]
      | recordCrossLayer layer expertsN expertsN1 =>
          refine (recordCrossLayer_ofCounts layer hc.1 hc.2).trans ?_
          simp [Call.lists, Call.links, Call.observes]

end Calls

/-! ### Ranking -/

/-- A sort that compares with what stands before it, against one that compares as `s` there. -/
theorem insertionSort_congr {α : Type} {r s : α → α → Prop} [DecidableRel r] [DecidableRel s]
    {as : List α} (h : as.Pairwise fun a b => r a b ↔ s a b) :
    as.insertionSort r = as.insertionSort s := by
  induction as with
  | nil => rfl
  | cons a as ih =>
      obtain ⟨hhead, htail⟩ := List.pairwise_cons.mp h
      rw [List.insertionSort_cons, List.insertionSort_cons, ih htail]
      have hinsert : ∀ bs : List α, (∀ b ∈ bs, r a b ↔ s a b) →
          bs.orderedInsert r a = bs.orderedInsert s a := by
        intro bs hbs
        induction bs with
        | nil => rfl
        | cons b bs ihb =>
            rw [List.orderedInsert_cons, List.orderedInsert_cons,
              ihb fun b' hb' => hbs b' (List.mem_cons_of_mem _ hb')]
            exact if_congr (hbs b List.mem_cons_self) rfl rfl
      exact hinsert _ fun b hb => hhead b ((List.mem_insertionSort s).mp hb)

/-- The higher score first, ties in ascending order. -/
def Before (score : Nat → Nat) (a b : Nat) : Prop :=
  score b < score a ∨ score a = score b ∧ a ≤ b

instance (score : Nat → Nat) : DecidableRel (Before score) := fun a b =>
  inferInstanceAs (Decidable (score b < score a ∨ score a = score b ∧ a ≤ b))

instance (score : Nat → Nat) : Std.Total (Before score) where
  total a b := by
    unfold Before
    omega

instance (score : Nat → Nat) : IsTrans Nat (Before score) where
  trans a b c hab hbc := by
    unfold Before at *
    omega

/-- The experts of positive score, in the order of the ranking. -/
theorem rank_map_range (n : Nat) (score : Nat → Nat) (topK : Nat) :
    rank ((List.range n).map score) topK =
      (((List.range n).filter (0 < score ·)).insertionSort (Before score)).take topK := by
  have hindexed : ((List.range n).map score).zipIdx.map Prod.swap =
      (List.range n).map fun i => (i, score i) := by
    refine List.ext_getElem (by simp) fun k _ _ => ?_
    simp
  -- the indices ascend, so a tie is decided by what stands first
  have hstable : ((List.range n).filter (0 < score ·)).insertionSort (Before score) =
      ((List.range n).filter (0 < score ·)).insertionSort fun a b => score b ≤ score a := by
    refine insertionSort_congr ((List.pairwise_lt_range.filter _).imp fun {a b} hab => ?_)
    unfold Before
    omega
  have hrank : rank ((List.range n).map score) topK =
      ((((((List.range n).map score).zipIdx.map Prod.swap).filter (0 < ·.2)).insertionSort
        fun a b => b.2 ≤ a.2).take topK).map (·.1) := rfl
  rw [hrank, hindexed, hstable]
  simp only [List.filter_map]
  rw [← List.map_insertionSort (fun a b => score b ≤ score a), ← List.map_take, List.map_map]
  · exact List.map_id _
  · exact fun a _ b _ => Iff.rfl

/-- The first `k` of the candidates in non-increasing order of their totals, ties in
ascending order. -/
def IsTopK (candidates : List Nat) (total : Nat → Nat) (k : Nat) (out : List Nat) : Prop :=
  ∃ ranking : List Nat, ranking.Perm candidates ∧
    ranking.Pairwise (fun a b => total b < total a ∨ total a = total b ∧ a < b) ∧
    out = ranking.take k

theorem rank_isTopK {n : Nat} {score total : Nat → Nat} {candidates : List Nat} (k : Nat)
    (hcandidates : (List.range n).filter (0 < score ·) = candidates)
    (hscore : ∀ e ∈ candidates, score e = total e) :
    IsTopK candidates total k (rank ((List.range n).map score) k) := by
  subst hcandidates
  have hperm := List.perm_insertionSort (Before score) ((List.range n).filter (0 < score ·))
  refine ⟨_, hperm, ?_, rank_map_range n score k⟩
  have hnodup := hperm.nodup_iff.mpr (List.nodup_range.filter _)
  refine ((List.pairwise_insertionSort (Before score) _).and hnodup).imp_of_mem
    fun {a b} ha hb ⟨hbefore, hne⟩ => ?_
  rw [← hscore a (hperm.mem_iff.mp ha), ← hscore b (hperm.mem_iff.mp hb)]
  unfold Before at hbefore
  omega

/-! ### Predictions -/

/-- The count of `e` with the observed experts, summed. -/
def totalOver (ne : Nat) (count : Nat → Nat → Nat) (observed : List Nat) (e : Nat) : Nat :=
  ((observed.filter (· < ne)).map fun o => count o e).sum

section Scores
variable {nl ne l : Nat} {f : Nat → Nat → Nat → Nat}

theorem addRow_map_range (n : Nat) (s g : Nat → Nat) :
    addRow ((List.range n).map fun i => s i % 2 ^ 32) ((List.range n).map fun i => g i % 2 ^ 32) =
      some ((List.range n).map fun i => (s i + g i) % 2 ^ 32) := by
  simp [addRow, List.zipWith_map, List.zipWith_self]

theorem scores_table (hl : l < nl) {os : List Nat} (hos : ∀ o ∈ os, o < ne) (s : Nat → Nat) :
    os.foldlM (fun scores e => do
        let counts ← (table nl ne f)[l]?
        let row ← counts[e]?
        addRow scores row) ((List.range ne).map fun i => s i % 2 ^ 32) =
      some ((List.range ne).map fun i => (s i + (os.map fun o => f l o i).sum) % 2 ^ 32) := by
  induction os generalizing s with
  | nil => simp
  | cons o os ih =>
      have hlayer : (table nl ne f)[l]? = some ((List.range ne).map fun a =>
          (List.range ne).map fun b => f l a b % 2 ^ 32) := by
        rw [table, List.getElem?_map, List.getElem?_range hl]
        rfl
      have ho := hos o List.mem_cons_self
      have hstep : (do
          let counts ← (table nl ne f)[l]?
          let row ← counts[o]?
          addRow ((List.range ne).map fun i => s i % 2 ^ 32) row) =
            some ((List.range ne).map fun i => (s i + f l o i) % 2 ^ 32) := by
        rw [hlayer]
        simp only [Option.bind_eq_bind, Option.bind_some, List.getElem?_map, List.getElem?_range ho,
          Option.map_some, addRow_map_range]
      rw [List.foldlM_cons]
      refine (congrArg (Option.bind · _) hstep).trans ?_
      refine (ih (fun o' ho' => hos o' (List.mem_cons_of_mem _ ho')) _).trans ?_
      simp only [List.map_cons, List.sum_cons, Nat.add_assoc]

theorem cleared_map_range (n : Nat) (os : List Nat) (s : Nat → Nat) :
    os.foldl (fun scores e => scores.set e 0) ((List.range n).map s) =
      (List.range n).map fun i => if i ∈ os then 0 else s i := by
  induction os generalizing s with
  | nil => simp
  | cons o os ih =>
      rw [List.foldl_cons, set_map_range, ih]
      refine List.map_congr_left fun i _ => ?_
      by_cases hi : i = o <;> by_cases hos : i ∈ os <;> simp [hi, hos]

theorem predictNextLayer_ofCounts {pairs cross : Nat → Nat → Nat → Nat} {seen : Nat → Nat}
    (hl : l < nl) (hseen : seen l % 2 ^ 32 ≠ 0) (observed : List Nat) (topK : Nat) :
    (ofCounts nl ne pairs cross seen).predictNextLayer l observed topK =
      some (rank ((List.range ne).map fun e => totalOver ne (cross l) observed e % 2 ^ 32) topK) := by
  have hcount : (ofCounts nl ne pairs cross seen).observationCounts[l]? = some (seen l % 2 ^ 32) := by
    simp [ofCounts, hl]
  have hlt : ∀ o ∈ observed.filter (· < ne), o < ne := fun o ho =>
    of_decide_eq_true (List.mem_filter.mp ho).2
  have hscores := scores_table (f := cross) hl hlt fun _ => 0
  simp only [Nat.zero_add, Nat.zero_mod, List.map_const', List.length_range] at hscores
  rw [predictNextLayer, if_neg (show ¬ (ofCounts nl ne pairs cross seen).numLayers ≤ l from
    Nat.not_le.mpr hl), hcount, Option.bind_eq_bind, Option.bind_some, if_neg hseen]
  exact (congrArg (Option.bind · _) hscores).trans rfl

theorem predictSameLayer_ofCounts {pairs cross : Nat → Nat → Nat → Nat} {seen : Nat → Nat}
    (hl : l < nl) (hseen : seen l % 2 ^ 32 ≠ 0) (observed : List Nat) (topK : Nat) :
    (ofCounts nl ne pairs cross seen).predictSameLayer l observed topK =
      some (rank ((List.range ne).map fun e => if e ∈ observed.filter (· < ne) then 0
        else totalOver ne (pairs l) observed e % 2 ^ 32) topK) := by
  have hcount : (ofCounts nl ne pairs cross seen).observationCounts[l]? = some (seen l % 2 ^ 32) := by
    simp [ofCounts, hl]
  have hlt : ∀ o ∈ observed.filter (· < ne), o < ne := fun o ho =>
    of_decide_eq_true (List.mem_filter.mp ho).2
  have hscores := scores_table (f := pairs) hl hlt fun _ => 0
  simp only [Nat.zero_add, Nat.zero_mod, List.map_const', List.length_range] at hscores
  rw [predictSameLayer, if_neg (show ¬ (ofCounts nl ne pairs cross seen).numLayers ≤ l from
    Nat.not_le.mpr hl), hcount, Option.bind_eq_bind, Option.bind_some, if_neg hseen]
  refine (congrArg (Option.bind · _) hscores).trans ?_
  exact congrArg (fun scores => some (rank scores topK)) (cleared_map_range ne _ _)

end Scores

/-! ### Counting and predicting -/

/-- `counts[l][a][b]`. -/
def countAt (counts : List (List (List Nat))) (l a b : Nat) : Option Nat :=
  counts[l]?.bind fun layer => entry layer a b

/-- The matrix holds the counts of the calls, in whatever order they are made. -/
structure Counts (nl ne : Nat) (calls : List Call) (m : CoActivationMatrix) : Prop where
  sameLayer : ∀ l < nl, ∀ a < ne, ∀ b < ne,
    countAt m.layerCounts l a b = some (calls.countP (·.lists l a b))
  crossLayer : ∀ l < nl, ∀ a < ne, ∀ b < ne,
    countAt m.crossLayerCounts l a b = some (calls.countP (·.links l a b))
  symmetric : ∀ l a b, countAt m.layerCounts l a b = countAt m.layerCounts l b a
  anyOrder : ∀ calls', calls'.Perm calls → (new nl ne).afterAll calls' = some m

/-- The predictions are the experts of positive total, best first. -/
structure Predicts (nl ne : Nat) (calls : List Call) (m : CoActivationMatrix) : Prop where
  sameLayer : ∀ l < nl, 0 < calls.countP (·.observes l) → ∀ observed topK,
    (∀ e < ne, totalOver ne (fun o e => calls.countP (·.lists l o e)) observed e < 2 ^ 32) →
    ∃ out, m.predictSameLayer l observed topK = some out ∧
      IsTopK ((List.range ne).filter fun e =>
          0 < totalOver ne (fun o e => calls.countP (·.lists l o e)) observed e ∧ e ∉ observed)
        (totalOver ne (fun o e => calls.countP (·.lists l o e)) observed) topK out
  nextLayer : ∀ l < nl, 0 < calls.countP (·.observes l) → ∀ observed topK,
    (∀ e < ne, totalOver ne (fun o e => calls.countP (·.links l o e)) observed e < 2 ^ 32) →
    ∃ out, m.predictNextLayer l observed topK = some out ∧
      IsTopK ((List.range ne).filter fun e =>
          0 < totalOver ne (fun o e => calls.countP (·.links l o e)) observed e)
        (totalOver ne (fun o e => calls.countP (·.links l o e)) observed) topK out

/-- The counts stay below `2 ^ 32`. -/
def CountsFit (nl ne : Nat) (calls : List Call) : Prop :=
  ∀ l < nl, calls.countP (·.observes l) < 2 ^ 32 ∧ ∀ a < ne, ∀ b < ne,
    calls.countP (·.lists l a b) < 2 ^ 32 ∧ calls.countP (·.links l a b) < 2 ^ 32

section Counting
variable {nl ne : Nat} {calls calls' : List Call}

theorem countAt_table (f : Nat → Nat → Nat → Nat) (l a b : Nat) :
    countAt (table nl ne f) l a b =
      if l < nl ∧ a < ne ∧ b < ne then some (f l a b % 2 ^ 32) else none := by
  by_cases hl : l < nl <;> by_cases ha : a < ne <;> by_cases hb : b < ne <;>
    simp [countAt, entry, table, hl, ha, hb]

theorem lists_comm (l a b : Nat) (c : Call) : c.lists l a b = c.lists l b a := by
  cases c <;> simp [Call.lists, and_comm]

theorem ofCounts_counts (hcalls : ∀ c ∈ calls, c.DuplicateFree) (hfit : CountsFit nl ne calls) :
    Counts nl ne calls (ofCounts nl ne
      (fun l a b => calls.countP (·.lists l a b)) (fun l a b => calls.countP (·.links l a b))
      fun l => calls.countP (·.observes l)) := by
  refine ⟨fun l hl a ha b hb => ?_, fun l hl a ha b hb => ?_, fun l a b => ?_,
    fun calls' hperm => ?_⟩
  · exact (countAt_table _ l a b).trans (by
      rw [if_pos ⟨hl, ha, hb⟩, Nat.mod_eq_of_lt ((hfit l hl).2 a ha b hb).1])
  · exact (countAt_table _ l a b).trans (by
      rw [if_pos ⟨hl, ha, hb⟩, Nat.mod_eq_of_lt ((hfit l hl).2 a ha b hb).2])
  · have hcomm : (fun c : Call => c.lists l a b) = fun c => c.lists l b a :=
      funext fun c => lists_comm l a b c
    simp only [ofCounts, countAt_table, hcomm]
    exact if_congr (and_congr_right fun _ => and_comm) rfl rfl
  · rw [afterAll_new nl ne fun c hc => hcalls c (hperm.mem_iff.mp hc)]
    simp only [hperm.countP_eq]

theorem ofCounts_predicts (hfit : CountsFit nl ne calls) :
    Predicts nl ne calls (ofCounts nl ne
      (fun l a b => calls.countP (·.lists l a b)) (fun l a b => calls.countP (·.links l a b))
      fun l => calls.countP (·.observes l)) := by
  have hseen : ∀ l < nl, 0 < calls.countP (·.observes l) →
      calls.countP (·.observes l) % 2 ^ 32 ≠ 0 := fun l hl hpos => by
    rw [Nat.mod_eq_of_lt (hfit l hl).1]
    exact hpos.ne'
  constructor
  · intro l hl hpos observed topK htotal
    refine ⟨_, predictSameLayer_ofCounts hl (hseen l hl hpos) observed topK,
      rank_isTopK topK (List.filter_congr fun e he => ?_) fun e he => ?_⟩
    · have hlt := List.mem_range.mp he
      rw [Nat.mod_eq_of_lt (htotal e hlt)]
      by_cases hobs : e ∈ observed
      · simp [hobs, hlt]
      · simp [hobs]
    · obtain ⟨hrange, hcand⟩ := List.mem_filter.mp he
      have hnot : e ∉ observed := (of_decide_eq_true hcand).2
      rw [if_neg fun h => hnot (List.mem_filter.mp h).1,
        Nat.mod_eq_of_lt (htotal e (List.mem_range.mp hrange))]
  · intro l hl hpos observed topK htotal
    refine ⟨_, predictNextLayer_ofCounts hl (hseen l hl hpos) observed topK,
      rank_isTopK topK (List.filter_congr fun e he => ?_) fun e he => ?_⟩
    · rw [Nat.mod_eq_of_lt (htotal e (List.mem_range.mp he))]
    · rw [Nat.mod_eq_of_lt (htotal e (List.mem_range.mp (List.mem_filter.mp he).1))]

/-- **The matrix counts, and predicts by its counts**, after any calls without duplicates
whose counts fit their type. -/
theorem recorded_counts_predicts (hcalls : ∀ c ∈ calls, c.DuplicateFree)
    (hfit : CountsFit nl ne calls) :
    ∃ m, (new nl ne).afterAll calls = some m ∧ Counts nl ne calls m ∧ Predicts nl ne calls m :=
  ⟨_, afterAll_new nl ne hcalls, ofCounts_counts hcalls hfit, ofCounts_predicts hfit⟩

end Counting

/-- Two layers of four experts; expert 7 is out of range. -/
theorem fourExperts_counts_predicts :
    ∃ m, (new 2 4).afterAll [.record 0 [2, 1], .record 0 [1, 7, 3], .recordCrossLayer 0 [1] [0, 7]] =
        some m ∧
      Counts 2 4 [.record 0 [2, 1], .record 0 [1, 7, 3], .recordCrossLayer 0 [1] [0, 7]] m ∧
      Predicts 2 4 [.record 0 [2, 1], .record 0 [1, 7, 3], .recordCrossLayer 0 [1] [0, 7]] m :=
  recorded_counts_predicts (by decide) (by unfold CountsFit; decide)

end CoActivationMatrix

end Hypura
