import Hypura.Cache.CoActivationGrowth
import Hypura.Compute.RouterChoice
import Hypura.Compute.RouterOutput

/-!
# Hypura.Compute.RouterRecords

Do the co-activation counts record what the routers chose (`compute/nvme_backend.rs`)?

The `done` callback of every node of an MoE layer records the selection that is stored for
the layer, together with the one recorded before it, whenever that was. So a choice is
counted once if one such callback comes after the layer's router in the pass and none
before it, and the pairs across layers are right if the record before is of the MoE layer
before, in the same pass.

`Passes` is what the source does not keep: what the routers chose, pass by pass, and which
layers were recorded in the pass that runs. `Tallied` is what a run of such steps keeps.
-/

namespace Hypura

open Hypura.Core

/-! ### What the routers chose -/

/-- The routers that ran in one forward pass, by layer, with the experts they selected. -/
abbrev Pass := List (Nat × List Nat)

namespace Pass

/-- The router of layer `l` ran. -/
def ran (pass : Pass) (l : Nat) : Bool := pass.any fun choice => decide (choice.1 = l)

/-- The router of layer `l` selected both experts. -/
def selects (pass : Pass) (l a b : Nat) : Bool :=
  pass.any fun choice => decide (choice.1 = l ∧ a ∈ choice.2 ∧ b ∈ choice.2)

variable {pass : Pass} {l a b : Nat}

theorem ran_iff : pass.ran l = true ↔ ∃ ids, (l, ids) ∈ pass := by
  rw [ran, List.any_eq_true]
  constructor
  · rintro ⟨choice, hmem, hl⟩
    exact ⟨choice.2, of_decide_eq_true hl ▸ hmem⟩
  · rintro ⟨ids, hmem⟩
    exact ⟨_, hmem, decide_eq_true rfl⟩

theorem selects_iff : pass.selects l a b = true ↔ ∃ ids, (l, ids) ∈ pass ∧ a ∈ ids ∧ b ∈ ids := by
  rw [selects, List.any_eq_true]
  constructor
  · rintro ⟨choice, hmem, hchoice⟩
    obtain ⟨hl, hexperts⟩ := of_decide_eq_true hchoice
    exact ⟨choice.2, hl ▸ hmem, hexperts⟩
  · rintro ⟨ids, hmem, hexperts⟩
    exact ⟨_, hmem, decide_eq_true ⟨rfl, hexperts⟩⟩

/-- A property of what the router of `l` did, if it ran. -/
structure About (l : Nat) (p : Pass → Bool) : Prop where
  ran : ∀ pass : Pass, p pass = true → pass.ran l = true
  others : ∀ (pass : Pass) (l' : Nat) (ids : List Nat), l' ≠ l → p ((l', ids) :: pass) = p pass

theorem about_ran (l : Nat) : About l fun pass => pass.ran l where
  ran _ h := h
  others pass l' ids hne := by simp [Pass.ran, hne]

theorem about_selects (l a b : Nat) : About l fun pass => pass.selects l a b where
  ran pass h := by
    obtain ⟨ids, hmem, -⟩ := selects_iff.mp h
    exact ran_iff.mpr ⟨ids, hmem⟩
  others pass l' ids hne := by simp [Pass.selects, hne]

end Pass

/-- The forward passes of a run. -/
structure Passes where
  ended : List Pass
  now : Pass
  /-- The layers recorded in the pass that runs. -/
  recorded : List Nat

namespace Passes

/-- Before the first pass. -/
def start : Passes := ⟨[], [], []⟩

/-- The passes with the one that runs. -/
def all (h : Passes) : List Pass := h.now :: h.ended

/-- No choice of the router of `l` is still to be recorded; so it is between two passes. -/
def Settled (h : Passes) (l : Nat) : Prop := h.now.ran l = true → l ∈ h.recorded

/-- The passes with the property whose choice for `l` was recorded. -/
def tally (h : Passes) (l : Nat) (p : Pass → Bool) : Nat :=
  h.ended.countP p + if l ∈ h.recorded ∧ p h.now = true then 1 else 0

variable {h : Passes} {l : Nat} {p : Pass → Bool}

theorem tally_settled (hp : Pass.About l p) (hl : h.Settled l) : h.tally l p = h.all.countP p := by
  rw [tally, all, List.countP_cons]
  by_cases hnow : p h.now = true
  · rw [if_pos ⟨hl (hp.ran _ hnow), hnow⟩, if_pos hnow]
  · rw [if_neg fun hall => hnow hall.2, if_neg hnow]

/-- A new pass, all choices of the last one recorded. -/
theorem tally_token (hp : Pass.About l p) (hl : h.Settled l) :
    tally ⟨h.now :: h.ended, [], []⟩ l p = h.tally l p := by
  rw [tally_settled hp hl, tally, if_neg fun hall => List.not_mem_nil hall.1]
  rfl

/-- The choice of a router that had not run yet is not recorded. -/
theorem tally_router (hp : Pass.About l p) {l' : Nat} {ids : List Nat} (hl' : l' ∉ h.recorded) :
    tally { h with now := (l', ids) :: h.now } l p = h.tally l p := by
  by_cases hl : l' = l
  · subst hl
    simp only [tally, hl', false_and, if_false]
  · simp only [tally, hp.others h.now l' ids hl]

theorem tally_record {l' : Nat} (hl' : l' ∉ h.recorded) :
    tally { h with recorded := l' :: h.recorded } l p =
      h.tally l p + if l = l' ∧ p h.now = true then 1 else 0 := by
  by_cases hl : l = l'
  · subst hl
    simp [tally, hl']
  · simp [tally, hl]

end Passes

/-- `l'` is the next MoE layer after `l`. -/
def NextMoe (cfg : PrefetchConfig) (l l' : Nat) : Prop :=
  l < l' ∧ cfg.expertLayouts l' ≠ [] ∧ ∀ k < l', l < k → cfg.expertLayouts k = []

instance (cfg : PrefetchConfig) (l l' : Nat) : Decidable (NextMoe cfg l l') :=
  inferInstanceAs (Decidable (_ ∧ _ ∧ _))

namespace Machine

/-! ### Following a run -/

/-- The layer and the selection that the thread's next operation records, if it does. -/
def recording (rt : Runtime) (m : Machine) : Option (Nat × List Nat) :=
  match m.pending with
  | .speculate l :: _ =>
    if rt.config.expertLayouts l = [] then none
    else (m.selectedExperts l).map fun ids => (l, ids)
  | _ => none

/-- The passes after a step. -/
def follow (rt : Runtime) (m : Machine) (h : Passes) : Label → Passes
  | .event .token => ⟨h.now :: h.ended, [], []⟩
  | .event (.doneRouter t) =>
    match m.asked with
    | some l => { h with now := (l, m.idsRead rt l t) :: h.now }
    | none => h
  | .thread =>
    match m.recording rt with
    | some record => { h with recorded := record.1 :: h.recorded }
    | none => h
  | _ => h

/-- A step of the system, followed. -/
def followedStep (rt : Runtime) (s : Machine × Passes) (lab : Label) : Option (Machine × Passes) :=
  (s.1.step rt lab).map fun m' => (m', s.1.follow rt s.2 lab)

/-- The record of layer `l` is the first after its router in this pass, and goes with the
one before only if that is of the MoE layer before, in this pass. -/
def recordsChoice (rt : Runtime) (s : Machine × Passes) (l : Nat) : Bool :=
  s.2.now.ran l && decide (l ∉ s.2.recorded) &&
    match s.1.prevLayerExperts with
    | some prev => decide (s.1.coActivation.numLayers ≤ prev.1 ∨
        prev.1 ∈ s.2.recorded ∧ NextMoe rt.config prev.1 l)
    | none => true

/-- **The condition.** A router runs once in a pass, and its selection is stored; what is
recorded is that, once, before the pass ends. -/
def recordsOnce (rt : Runtime) (s : Machine × Passes) : Label → Bool
  | .event .token => s.2.now.all fun choice => decide (choice.1 ∈ s.2.recorded)
  | .event (.doneRouter t) =>
    match s.1.asked with
    | some l => !s.2.now.ran l && decide (t.nExperts ≤ 64 ∧ s.1.idsRead rt l t ≠ [])
    | none => true
  | .thread =>
    match s.1.recording rt with
    | some record => recordsChoice rt s record.1
    | none => true
  | _ => true

/-- The statistics of a run that began with `m₀` count the routers' choices. -/
structure RecordsChoices (rt : Runtime) (m₀ : Machine) (s : Machine × Passes) : Prop where
  /-- Two experts, once for each pass whose router selected both. -/
  pairs : ∀ l < m₀.coActivation.numLayers, s.2.Settled l →
    ∀ a < m₀.coActivation.numExperts, ∀ b < m₀.coActivation.numExperts, ∀ c,
      CoActivationMatrix.countAt m₀.coActivation.layerCounts l a b = some c →
      c + s.2.all.countP (·.selects l a b) < 2 ^ 32 →
      CoActivationMatrix.countAt s.1.coActivation.layerCounts l a b =
        some (c + s.2.all.countP (·.selects l a b))
  /-- A layer, once for each pass in which its router ran. -/
  observations : ∀ l < m₀.coActivation.numLayers, s.2.Settled l → ∀ c,
    m₀.coActivation.observationCounts[l]? = some c → c + s.2.all.countP (·.ran l) < 2 ^ 32 →
    s.1.coActivation.observationCounts[l]? = some (c + s.2.all.countP (·.ran l))
  /-- A step that counts two experts across layers pairs choices of this pass. -/
  crossLayer : ∀ lab s', recordsOnce rt s lab = true → followedStep rt s lab = some s' →
    ∀ l a b, CoActivationMatrix.countAt s'.1.coActivation.crossLayerCounts l a b ≠
        CoActivationMatrix.countAt s.1.coActivation.crossLayerCounts l a b →
      ∃ next ids ids', NextMoe rt.config l next ∧ (l, ids) ∈ s.2.now ∧ (next, ids') ∈ s.2.now ∧
        a ∈ ids ∧ b ∈ ids'

/-! ### The thread's records -/

section Records
variable {rt : Runtime} {m m' m₀ : Machine} {l : Nat}

/-- `speculate` records the stored selection, or leaves the statistics alone. -/
theorem speculate_records {ops : List Op} {eligible : Nat → Bool}
    (hpending : m.pending = .speculate l :: ops)
    (h : { m with pending := ops }.speculate rt l eligible = some m') :
    (m.recording rt = none ∧ m.SameRouting m') ∨
      ∃ ids, m.recording rt = some (l, ids) ∧ m.selectedExperts l = some ids ∧
        m.recordExperts l ids = some m'.coActivation ∧ m'.prevLayerExperts = some (l, ids) ∧
        m'.selectedExperts = m.selectedExperts := by
  unfold speculate at h
  split at h
  · next hnil =>
      cases h
      exact .inl ⟨by simp only [recording, hpending, if_pos hnil], rfl, rfl, rfl, rfl⟩
  · next hlayouts =>
      split at h
      · next hnone =>
          cases h
          have hnone : m.selectedExperts l = none := hnone
          exact .inl ⟨by simp only [recording, hpending, if_neg hlayouts, hnone, Option.map_none],
            rfl, rfl, rfl, rfl⟩
      · next ids hids =>
          have hids : m.selectedExperts l = some ids := hids
          obtain ⟨coAct, hcoAct, h⟩ := Option.bind_eq_some_iff.mp h
          obtain ⟨predicted, -, h⟩ := Option.bind_eq_some_iff.mp h
          cases h
          refine .inr ⟨ids, ?_, hids, hcoAct, rfl, rfl⟩
          simp only [recording, hpending, if_neg hlayouts, hids, Option.map_some]

/-- The thread's step records the stored selection, or leaves the statistics alone. -/
theorem threadStep_records (h : m.threadStep rt = some m') :
    (m.recording rt = none ∧ m.SameRouting m') ∨
      ∃ l ids, m.recording rt = some (l, ids) ∧ m.selectedExperts l = some ids ∧
        m.recordExperts l ids = some m'.coActivation ∧ m'.prevLayerExperts = some (l, ids) ∧
        m'.selectedExperts = m.selectedExperts := by
  obtain ⟨-, ⟨op, ops, hpending, hexec⟩ | ⟨hpending, l, -, ⟨-, rfl⟩ | ⟨-, rfl⟩⟩⟩ := threadStep_cases h
  · cases hop : op with
    | speculate l =>
        subst hop
        simp only [exec] at hexec
        split at hexec
        all_goals exact (speculate_records hpending hexec).imp_right fun hrec => ⟨l, hrec⟩
    | _ =>
        subst hop
        refine .inl ⟨by simp only [recording, hpending], ?_⟩
        exact .after (sameRouting_exec (fun l => by simp) hexec) ⟨rfl, rfl, rfl, rfl⟩
  · exact .inl ⟨by simp only [recording, hpending], rfl, rfl, rfl, rfl⟩
  · exact .inl ⟨by simp only [recording, hpending], rfl, rfl, rfl, rfl⟩

/-- The ids read for the layer asked for are stored, from a tensor of at most 64 experts. -/
theorem interceptRouterOutput_selected {t : ArgsortTensor} (hasked : m.asked = some l)
    (hle : t.nExperts ≤ 64) (hne : m.idsRead rt l t ≠ []) :
    (m.interceptRouterOutput rt l t).selectedExperts =
      Function.update m.selectedExperts l (some (sortDedup (m.idsRead rt l t))) := by
  cases hdata : t.data with
  | none => simp [idsRead, hasked, hdata] at hne
  | some data =>
      have hids : m.idsRead rt l t = selectedIds rt.config.numExpertsTotal
          (min rt.config.numExpertsUsed t.nExperts) t data := by
        simp [idsRead, hasked, hdata]
      rw [hids] at hne ⊢
      have hk : min rt.config.numExpertsUsed t.nExperts ≠ 0 := by
        intro hzero
        simp [selectedIds, hzero] at hne
      have hexperts : ¬ (t.nExperts = 0 ∨ 64 < t.nExperts) := by omega
      simp only [interceptRouterOutput, hdata, if_neg hexperts, if_neg hk, if_neg hne]

theorem recordExperts_spec {ids : List Nat} {coAct' : CoActivationMatrix}
    (h : m.recordExperts l ids = some coAct') : ∃ coAct, m.coActivation.record l ids = some coAct ∧
      (m.prevLayerExperts = none ∧ coAct' = coAct ∨ ∃ prev, m.prevLayerExperts = some prev ∧
        coAct.recordCrossLayer prev.1 prev.2 ids = some coAct') := by
  obtain ⟨coAct, hcoAct, h⟩ := Option.bind_eq_some_iff.mp h
  refine ⟨coAct, hcoAct, ?_⟩
  cases hprev : m.prevLayerExperts with
  | none =>
      rw [hprev] at h
      exact .inl ⟨rfl, (Option.some.inj h).symm⟩
  | some prev =>
      rw [hprev] at h
      exact .inr ⟨prev, rfl, h⟩

/-- The counts change only when the thread records a selection. -/
theorem coActivation_step (henabled : rt.prefetchEnabled = true) {lab : Label}
    (h : m.step rt lab = some m') : m'.coActivation = m.coActivation ∨
      lab = .thread ∧ ∃ l ids, m.recording rt = some (l, ids) ∧ m.selectedExperts l = some ids ∧
        m.recordExperts l ids = some m'.coActivation := by
  cases routerStep henabled h with
  | same hsame => exact .inl hsame.coActivation
  | token _ => exact .inl rfl
  | @router l t _ _ =>
      obtain ⟨selected, heq⟩ := interceptRouterOutput_spec rt m l t
      rw [heq]
      exact .inl rfl
  | speculate _ _ =>
      rcases threadStep_records h with ⟨-, hsame⟩ | ⟨l, ids, hrec, hids, hcoAct, -, -⟩
      · exact .inl hsame.coActivation
      · exact .inr ⟨rfl, l, ids, hrec, hids, hcoAct⟩

end Records

/-! ### The invariant -/

/-- What is known of the statistics of a run that began with `m₀`. -/
structure Tallied (m₀ : Machine) (s : Machine × Passes) : Prop where
  numLayers : s.1.coActivation.numLayers = m₀.coActivation.numLayers
  numExperts : s.1.coActivation.numExperts = m₀.coActivation.numExperts
  /-- What a router of this pass chose is stored. -/
  chosen : ∀ l ids, (l, ids) ∈ s.2.now → s.1.selectedExperts l = some (sortDedup ids)
  recorded : ∀ l ∈ s.2.recorded, s.2.now.ran l = true
  /-- The last record, if it is of this pass, is of what is stored. -/
  prev : ∀ prev, s.1.prevLayerExperts = some prev → prev.1 ∈ s.2.recorded →
    s.1.selectedExperts prev.1 = some prev.2
  pairs : CoActivationMatrix.Grows m₀.coActivation.numLayers m₀.coActivation.numExperts
    m₀.coActivation.layerCounts s.1.coActivation.layerCounts fun l a b =>
      s.2.tally l (·.selects l a b)
  observations : ∀ l < m₀.coActivation.numLayers, ∀ c,
    m₀.coActivation.observationCounts[l]? = some c → c + s.2.tally l (·.ran l) < 2 ^ 32 →
    s.1.coActivation.observationCounts[l]? = some (c + s.2.tally l (·.ran l))

namespace Tallied
variable {rt : Runtime} {m₀ m' : Machine} {s s' : Machine × Passes} {l : Nat} {ids : List Nat}

theorem start (m₀ : Machine) : Tallied m₀ (m₀, .start) where
  numLayers := rfl
  numExperts := rfl
  chosen l ids h := by cases h
  recorded l h := by cases h
  prev prev _ h := by cases h
  pairs := (CoActivationMatrix.Grows.refl _ _ _).congr fun l _ a _ b _ => by
    simp [Passes.tally, Passes.start]
  observations l _ c hc _ := by simpa [Passes.tally, Passes.start] using hc

/-- The stored selection has the experts that the router of this pass chose. -/
theorem mem_chosen (h : Tallied m₀ s) (hran : s.2.now.ran l = true)
    (hids : s.1.selectedExperts l = some ids) :
    ∃ chosen, (l, chosen) ∈ s.2.now ∧ ids = sortDedup chosen := by
  obtain ⟨chosen, hmem⟩ := Pass.ran_iff.mp hran
  exact ⟨chosen, hmem, Option.some.inj (hids.symm.trans (h.chosen l chosen hmem))⟩

theorem selects_iff (h : Tallied m₀ s) (hran : s.2.now.ran l = true)
    (hids : s.1.selectedExperts l = some ids) {a b : Nat} :
    s.2.now.selects l a b = true ↔ a ∈ ids ∧ b ∈ ids := by
  obtain ⟨chosen, hmem, rfl⟩ := h.mem_chosen hran hids
  rw [mem_sortDedup, mem_sortDedup, Pass.selects_iff]
  constructor
  · rintro ⟨chosen', hmem', ha, hb⟩
    have hsame := Option.some.inj ((h.chosen l chosen' hmem').symm.trans hids)
    have hback : ∀ {e}, e ∈ chosen' → e ∈ chosen := fun he =>
      mem_sortDedup.mp (hsame ▸ mem_sortDedup.mpr he)
    exact ⟨hback ha, hback hb⟩
  · exact fun hab => ⟨chosen, hmem, hab⟩

/-- A step that leaves the selections and the statistics alone. -/
theorem same (h : Tallied m₀ s) (hsame : s.1.SameRouting m') : Tallied m₀ (m', s.2) where
  numLayers := hsame.coActivation ▸ h.numLayers
  numExperts := hsame.coActivation ▸ h.numExperts
  chosen l ids hmem := hsame.selected ▸ h.chosen l ids hmem
  recorded := h.recorded
  prev prev hprev hmem := hsame.selected ▸ h.prev prev (hsame.prev ▸ hprev) hmem
  pairs := hsame.coActivation ▸ h.pairs
  observations := hsame.coActivation ▸ h.observations

/-- The pass ends, all its choices recorded. -/
theorem token (h : Tallied m₀ s) (hsettled : ∀ l, s.2.Settled l) :
    Tallied m₀ ({ s.1 with routed := fun _ => none }, ⟨s.2.now :: s.2.ended, [], []⟩) where
  numLayers := h.numLayers
  numExperts := h.numExperts
  chosen l ids hmem := by cases hmem
  recorded l hmem := by cases hmem
  prev prev _ hmem := by cases hmem
  pairs := h.pairs.congr fun l _ a _ b _ =>
    (Passes.tally_token (Pass.about_selects l a b) (hsettled l)).symm
  observations l hl := by
    rw [Passes.tally_token (Pass.about_ran l) (hsettled l)]
    exact h.observations l hl

/-- A router runs, for the first time in the pass. -/
theorem router (h : Tallied m₀ s) {t : ArgsortTensor} (hasked : s.1.asked = some l)
    (hnew : s.2.now.ran l = false) (hle : t.nExperts ≤ 64) (hne : s.1.idsRead rt l t ≠ []) :
    Tallied m₀ ({ s.1.interceptRouterOutput rt l t with asked := none },
      { s.2 with now := (l, s.1.idsRead rt l t) :: s.2.now }) := by
  have hselected := interceptRouterOutput_selected hasked hle hne
  have hrecorded : l ∉ s.2.recorded := fun hmem => by simp [h.recorded l hmem] at hnew
  obtain ⟨selected, heq⟩ := interceptRouterOutput_spec rt s.1 l t
  rw [heq] at hselected ⊢
  change selected = _ at hselected
  subst hselected
  refine ⟨h.numLayers, h.numExperts, fun l' ids hmem => ?_, fun l' hmem => ?_,
    fun prev hprev hmem => ?_, ?_, fun l' hl' => ?_⟩
  · rcases List.mem_cons.mp hmem with heq | hold
    · cases heq
      exact Function.update_self ..
    · have hl' : l' ≠ l := by
        rintro rfl
        exact Bool.false_ne_true (hnew.symm.trans (Pass.ran_iff.mpr ⟨ids, hold⟩))
      exact (Function.update_of_ne hl' ..).trans (h.chosen l' ids hold)
  · obtain ⟨ids, hids⟩ := Pass.ran_iff.mp (h.recorded l' hmem)
    exact Pass.ran_iff.mpr ⟨ids, List.mem_cons_of_mem _ hids⟩
  · have hl' : prev.1 ≠ l := fun hl' => hrecorded (hl' ▸ hmem)
    exact (Function.update_of_ne hl' ..).trans (h.prev prev hprev hmem)
  · exact h.pairs.congr fun l' _ a _ b _ =>
      (Passes.tally_router (Pass.about_selects l' a b) hrecorded).symm
  · rw [Passes.tally_router (Pass.about_ran l') hrecorded]
    exact h.observations l' hl'

/-- The thread records the choice of a router of this pass. -/
theorem record (h : Tallied m₀ s) (hran : s.2.now.ran l = true) (hnew : l ∉ s.2.recorded)
    (hids : s.1.selectedExperts l = some ids)
    (hcoAct : s.1.recordExperts l ids = some m'.coActivation)
    (hprev : m'.prevLayerExperts = some (l, ids)) (hsel : m'.selectedExperts = s.1.selectedExperts) :
    Tallied m₀ (m', { s.2 with recorded := l :: s.2.recorded }) := by
  have hnodup : ids.Nodup := by
    obtain ⟨chosen, -, rfl⟩ := h.mem_chosen hran hids
    exact (sortDedup_ascending chosen).imp Nat.ne_of_lt
  obtain ⟨coAct, hrecord, hcross⟩ := recordExperts_spec hcoAct
  have hrec := CoActivationMatrix.records_record hnodup hrecord
  obtain ⟨counts, heq⟩ : ∃ counts, m'.coActivation = { coAct with crossLayerCounts := counts } := by
    rcases hcross with ⟨-, heq⟩ | ⟨prev, -, hchanged⟩
    · exact ⟨coAct.crossLayerCounts, heq⟩
    · obtain ⟨counts, heq, -⟩ := CoActivationMatrix.recordCrossLayer_changes hchanged
      exact ⟨counts, heq⟩
  refine ⟨?_, ?_, fun l' ids' hmem => ?_, fun l' hmem => ?_, fun prev hprev' hmem => ?_, ?_,
    fun l' hl' c hc hfit => ?_⟩
  · rw [heq]
    exact hrec.numLayers.trans h.numLayers
  · rw [heq]
    exact hrec.numExperts.trans h.numExperts
  · rw [hsel]
    exact h.chosen l' ids' hmem
  · rcases List.mem_cons.mp hmem with rfl | hmem
    · exact hran
    · exact h.recorded l' hmem
  · obtain rfl : (l, ids) = prev := Option.some.inj (hprev.symm.trans hprev')
    rw [hsel]
    exact hids
  · rw [heq]
    have hsame := hrec.sameLayer
    rw [h.numLayers, h.numExperts] at hsame
    refine (h.pairs.trans hsame).congr fun l' _ a _ b _ => ?_
    rw [Passes.tally_record hnew]
    refine congrArg _ (if_congr (and_congr_right fun hl' => ?_) rfl rfl)
    subst hl'
    exact (h.selects_iff hran hids).symm
  · rw [heq]
    rw [Passes.tally_record hnew] at hfit ⊢
    have hif : (if l' = l ∧ s.2.now.ran l' = true then 1 else 0) = if l' = l then 1 else 0 :=
      if_congr ⟨And.left, fun hl' => ⟨hl', hl' ▸ hran⟩⟩ rfl rfl
    rw [hif] at hfit ⊢
    have hfirst := h.observations l' hl' c hc (by omega)
    rw [hrec.observations l' (h.numLayers ▸ hl') _ hfirst (by omega), Nat.add_assoc]

/-- **A step that meets the condition keeps the tally.** -/
theorem step (h : Tallied m₀ s) (henabled : rt.prefetchEnabled = true) {lab : Label}
    (hok : recordsOnce rt s lab = true) (hstep : followedStep rt s lab = some s') :
    Tallied m₀ s' := by
  obtain ⟨m', hm', rfl⟩ := Option.map_eq_some_iff.mp hstep
  have hother : s.1.follow rt s.2 lab = s.2 → s.1.SameRouting m' →
      Tallied m₀ (m', s.1.follow rt s.2 lab) := fun hfollow hsame => by
    rw [hfollow]
    exact h.same hsame
  cases lab with
  | event e =>
      cases e with
      | token =>
          simp only [Machine.step, handle] at hm'
          split at hm'
          · split at hm'
            · cases hm'
              refine h.token fun l hran => ?_
              obtain ⟨ids, hmem⟩ := Pass.ran_iff.mp hran
              exact of_decide_eq_true (List.all_eq_true.mp hok _ hmem)
            · cases hm'
          · cases hm'
      | doneRouter t =>
          simp only [Machine.step, handle] at hm'
          split at hm'
          · obtain ⟨l, hasked, rfl⟩ := Option.map_eq_some_iff.mp hm'
            simp only [recordsOnce, hasked, Bool.and_eq_true, Bool.not_eq_true', decide_eq_true_eq]
              at hok
            simp only [follow, hasked]
            exact h.router hasked hok.1 hok.2.1 hok.2.2
          · cases hm'
      | _ =>
          refine hother rfl ?_
          cases routerStep henabled hm' with
          | same hsame => exact hsame
  | thread =>
      rcases threadStep_records hm' with ⟨hnone, hsame⟩ |
        ⟨l, ids, hrec, hids, hcoAct, hprev, hsel⟩
      · exact hother (by simp only [follow, hnone]) hsame
      · simp only [recordsOnce, hrec, recordsChoice, Bool.and_eq_true, decide_eq_true_eq] at hok
        simp only [follow, hrec]
        exact h.record hok.1.1 hok.1.2 hids hcoAct hprev hsel
  | _ =>
      refine hother rfl ?_
      cases routerStep henabled hm' with
      | same hsame => exact hsame

/-- What a step that meets the condition counts across layers was chosen in this pass. -/
theorem crossLayer (h : Tallied m₀ s) (henabled : rt.prefetchEnabled = true) {lab : Label}
    (hok : recordsOnce rt s lab = true) (hstep : followedStep rt s lab = some s') {l a b : Nat}
    (hne : CoActivationMatrix.countAt s'.1.coActivation.crossLayerCounts l a b ≠
      CoActivationMatrix.countAt s.1.coActivation.crossLayerCounts l a b) :
    ∃ next ids ids', NextMoe rt.config l next ∧ (l, ids) ∈ s.2.now ∧ (next, ids') ∈ s.2.now ∧
      a ∈ ids ∧ b ∈ ids' := by
  obtain ⟨m', hm', rfl⟩ := Option.map_eq_some_iff.mp hstep
  rcases coActivation_step henabled hm' with hsame | ⟨rfl, next, stored, hrec, hstored, hcoAct⟩
  · exact absurd (by rw [hsame]) hne
  · simp only [recordsOnce, hrec, recordsChoice, Bool.and_eq_true, decide_eq_true_eq] at hok
    obtain ⟨⟨hran, -⟩, hlink⟩ := hok
    obtain ⟨ids', hids', rfl⟩ := h.mem_chosen hran hstored
    obtain ⟨coAct, hrecord, ⟨-, heq⟩ | ⟨prev, hprev, hchanged⟩⟩ := recordExperts_spec hcoAct
    · have hcross := (CoActivationMatrix.records_record
        ((sortDedup_ascending ids').imp Nat.ne_of_lt) hrecord).crossLayer
      exact absurd (by rw [heq, hcross]) hne
    · have hrecords := CoActivationMatrix.records_record
        ((sortDedup_ascending ids').imp Nat.ne_of_lt) hrecord
      obtain ⟨counts, heq, hchanges⟩ := CoActivationMatrix.recordCrossLayer_changes hchanged
      dsimp only at hne
      rw [heq, ← hrecords.crossLayer] at hne
      obtain ⟨rfl, hlt, ha, hb⟩ := hchanges l a b hne
      rw [hrecords.numLayers] at hlt
      simp only [hprev, decide_eq_true_eq] at hlink
      obtain ⟨hrecorded, hnext⟩ := hlink.resolve_left (Nat.not_le.mpr hlt)
      obtain ⟨ids, hids, hsorted⟩ := h.mem_chosen (h.recorded _ hrecorded)
        (h.prev prev hprev hrecorded)
      rw [hsorted, mem_sortDedup] at ha
      exact ⟨next, ids, ids', hnext, hids, hids', ha, mem_sortDedup.mp hb⟩

end Tallied

/-! ### Every run -/

/-- **The statistics count the routers' choices** in every run, from any state, whose steps
record each choice once: whatever the counts were, and whatever was selected, recorded or
loaded before. -/
theorem statistics_recordChoices {rt : Runtime} {m₀ : Machine} {s : Machine × Passes}
    (henabled : rt.prefetchEnabled = true)
    (h : Reaches (followedStep rt) (fun s lab => recordsOnce rt s lab) (m₀, .start) s) :
    RecordsChoices rt m₀ s := by
  have htallied : Tallied m₀ s := h.invariant (P := Tallied m₀) (.start m₀)
    fun s lab s' hs hok hstep => hs.step henabled hok hstep
  refine ⟨fun l hl hsettled a ha b hb c hc hfit => ?_, fun l hl hsettled c hc hfit => ?_,
    fun lab s' hok hstep l a b hne => htallied.crossLayer henabled hok hstep hne⟩
  · rw [← Passes.tally_settled (Pass.about_selects l a b) hsettled] at hfit ⊢
    exact htallied.pairs l hl a ha b hb c hc hfit
  · rw [← Passes.tally_settled (Pass.about_ran l) hsettled] at hfit ⊢
    exact htallied.observations l hl c hc hfit

end Machine

/-! ### One layer of two experts, streamed through the pool -/

def expertRuntime : Runtime := { gateRuntime with expertStreaming := true }

/-- A pool of two slots. -/
def expertStart : Machine := .start expertRuntime (.new 2 2) (some (.new 8 4)) 1

/-- The first node of layer 0 loads it in full; nothing is selected yet. Its router then
selects expert 0. -/
def firstChoice : List Label :=
  loadLayer 0 4 ++ [.event (.done 0), .thread, .event (.ask 0), .thread, .event selectFirst]

/-- The next node waits for the slice of expert 0, which is read into a slot. -/
def pooledNode : List Label :=
  [.event (.ask 0), .thread, .thread, .thread, .recv 0, .pread 0 2, .finish 0, .fire 0, .thread,
    .event (.done 0), .thread]

/-- The node after it finds the slice in its slot. -/
def cachedNode : List Label := [.event (.ask 0), .thread, .event (.done 0), .thread]

/-- A pass in which one node follows the router: the choice is counted. -/
theorem expert_recordChoices : ∃ s, exec (Machine.followedStep expertRuntime)
    (Machine.recordsOnce expertRuntime) (expertStart, .start)
      (firstChoice ++ pooledNode ++ [.event .token]) = some s ∧
      CoActivationMatrix.countAt s.1.coActivation.layerCounts 0 0 0 = some 1 ∧
      Machine.RecordsChoices expertRuntime expertStart s := by
  have hrun : (exec (Machine.followedStep expertRuntime) (Machine.recordsOnce expertRuntime)
      (expertStart, .start) (firstChoice ++ pooledNode ++ [.event .token])).map
      (fun s => CoActivationMatrix.countAt s.1.coActivation.layerCounts 0 0 0) =
        some (some 1) := by decide +kernel
  obtain ⟨s, hs, hcount⟩ := Option.map_eq_some_iff.mp hrun
  exact ⟨s, hs, hcount, Machine.statistics_recordChoices rfl
    (Reaches.exec (fun _ _ => id) .refl hs)⟩

/-- With two nodes the choice of one pass is counted twice, and paired with itself as if
it were the next layer's. -/
theorem expert_recordedTwice : ∃ s, Reaches (Machine.followedStep expertRuntime) (fun _ _ => True)
    (expertStart, .start) s ∧ s.2.now = [] ∧ s.2.all.countP (·.selects 0 0 0) = 1 ∧
      s.2.all.countP (·.ran 0) = 1 ∧
      CoActivationMatrix.countAt expertStart.coActivation.layerCounts 0 0 0 = some 0 ∧
      CoActivationMatrix.countAt s.1.coActivation.layerCounts 0 0 0 = some 2 ∧
      s.1.coActivation.observationCounts[0]? = some 2 ∧
      CoActivationMatrix.countAt s.1.coActivation.crossLayerCounts 0 0 0 = some 1 := by
  have hrun : (exec (Machine.followedStep expertRuntime) (fun _ _ => true) (expertStart, .start)
      (firstChoice ++ pooledNode ++ cachedNode ++ [.event .token])).map (fun s => (s.2.now,
        s.2.all.countP (·.selects 0 0 0), s.2.all.countP (·.ran 0), s.1.coActivation)) =
        some ([], 1, 1, ⟨[[[2, 0], [0, 0]], [[0, 0], [0, 0]]], [[[1, 0], [0, 0]], [[0, 0], [0, 0]]],
          [2, 0], 2, 2⟩) := by decide +kernel
  obtain ⟨s, hs, heq⟩ := Option.map_eq_some_iff.mp hrun
  simp only [Prod.mk.injEq] at heq
  obtain ⟨hnow, hselects, hran, hcounts⟩ := heq
  refine ⟨s, Reaches.exec (fun _ _ _ => trivial) .refl hs, hnow, hselects, hran, by decide, ?_⟩
  rw [hcounts]
  decide

end Hypura
