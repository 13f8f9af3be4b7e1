import Hypura.Compute.PoolStep

/-!
# Hypura.Compute.RouterStep

What one step of the system, in any mode, does to the routers' selections and to the
statistics kept of them.

Three steps touch them: the `done` callback of an argsort node notes and stores a
selection, a new token forgets which routers have run, and the operation `speculate`
records the selection that is stored. `RouterStep` says so once, and an invariant about
selections is a case split over it.
-/

namespace Hypura

open Hypura.Core Hypura.Core.Countdown

namespace Machine

/-- The two states agree on the selections and on the statistics. -/
structure SameRouting (m m' : Machine) : Prop where
  routed : m'.routed = m.routed
  selected : m'.selectedExperts = m.selectedExperts
  coActivation : m'.coActivation = m.coActivation
  prev : m'.prevLayerExperts = m.prevLayerExperts

/-- What one step can do to them. -/
inductive RouterStep (rt : Runtime) (m : Machine) : Label → Machine → Prop
  | same {lab : Label} {m' : Machine} (h : m.SameRouting m') : RouterStep rt m lab m'
  /-- A new token. -/
  | token (hasked : m.asked = none) :
      RouterStep rt m (.event .token) { m with routed := fun _ => none }
  /-- The router of layer `l` has run. -/
  | router {l : Nat} {t : ArgsortTensor} (hidle : m.Idle) (hl : m.asked = some l) :
      RouterStep rt m (.event (.doneRouter t)) { m.interceptRouterOutput rt l t with asked := none }
  /-- The stored selection of layer `l` is recorded. -/
  | speculate {l : Nat} {ops : List Op} {m' : Machine} {eligible : Nat → Bool}
      (hpending : m.pending = .speculate l :: ops)
      (h : { m with pending := ops }.speculate rt l eligible = some m') :
      RouterStep rt m .thread m'

section RouterStep
variable {rt : Runtime} {m m' : Machine} {l : Nat}

theorem SameRouting.refl : m.SameRouting m := ⟨rfl, rfl, rfl, rfl⟩

theorem SameRouting.trans {m₁ : Machine} (h : m.SameRouting m₁) (h' : m₁.SameRouting m') :
    m.SameRouting m' :=
  ⟨h'.routed.trans h.routed, h'.selected.trans h.selected,
    h'.coActivation.trans h.coActivation, h'.prev.trans h.prev⟩

/-- What was done before, if it left them alone too. -/
theorem SameRouting.after {m₁ : Machine} (h' : m₁.SameRouting m') (h : m.SameRouting m₁) :
    m.SameRouting m' := h.trans h'

/-! ### The operations -/

theorem sameRouting_submitTasks (c : IoCompletion) (base : Base) (tasks : List (List Region)) :
    m.SameRouting (m.submitTasks rt c base tasks) := by
  unfold submitTasks
  split
  · exact ⟨rfl, rfl, rfl, rfl⟩
  · exact .refl

theorem sameRouting_submitLayerLoad : m.SameRouting (m.submitLayerLoad rt l) := by
  unfold submitLayerLoad
  split
  · exact .refl
  · dsimp only
    split
    · exact ⟨rfl, rfl, rfl, rfl⟩
    · split
      · exact (sameRouting_submitTasks _ _ _).after ⟨rfl, rfl, rfl, rfl⟩
      · exact ⟨rfl, rfl, rfl, rfl⟩

theorem sameRouting_submitExpertLoad {ids : List Nat} :
    m.SameRouting (m.submitExpertLoad rt l ids) := by
  unfold submitExpertLoad
  split
  · exact .refl
  · dsimp only
    split
    · exact ⟨rfl, rfl, rfl, rfl⟩
    · exact (sameRouting_submitTasks _ _ _).after ⟨rfl, rfl, rfl, rfl⟩

theorem sameRouting_allocate {n : Nat} {offsets : List Nat} (h : m.allocate rt l n = some (offsets, m')) :
    m.SameRouting m' := by
  unfold allocate at h
  obtain ⟨p, -, h⟩ := Option.bind_eq_some_iff.mp h
  obtain ⟨⟨offsets', p'⟩, -, h⟩ := Option.bind_eq_some_iff.mp h
  dsimp only at h
  split at h
  · cases h
  · cases h
    exact ⟨rfl, rfl, rfl, rfl⟩

theorem sameRouting_rewriteToSlots (names : List String) :
    m.SameRouting (m.rewriteToSlots l names) := by
  unfold rewriteToSlots
  split
  · exact .refl
  · split
    · exact .refl
    · exact ⟨rfl, rfl, rfl, rfl⟩

theorem sameRouting_loadExpertsPooled {ids : List Nat} (h : m.loadExpertsPooled rt l ids = some m') :
    m.SameRouting m' := by
  unfold loadExpertsPooled at h
  obtain ⟨p, -, h⟩ := Option.bind_eq_some_iff.mp h
  obtain ⟨⟨offsets, m₁⟩, halloc, h⟩ := Option.bind_eq_some_iff.mp h
  have hsame : m.SameRouting m₁ := (sameRouting_allocate halloc).after ⟨rfl, rfl, rfl, rfl⟩
  dsimp only at h
  split at h
  · cases h
    exact hsame.trans ⟨rfl, rfl, rfl, rfl⟩
  · cases h
    unfold submitTasks
    split
    · exact hsame.trans ⟨rfl, rfl, rfl, rfl⟩
    · exact hsame.trans ⟨rfl, rfl, rfl, rfl⟩

theorem sameRouting_ensureExpertsLoaded {ids : List Nat}
    (h : m.ensureExpertsLoaded rt l ids = some m') : m.SameRouting m' := by
  unfold ensureExpertsLoaded at h
  dsimp only at h
  split at h
  · cases h
    exact .refl
  · split at h
    · exact (sameRouting_loadExpertsPooled h).after ⟨rfl, rfl, rfl, rfl⟩
    · cases h
      exact (sameRouting_rewriteToSlots _).after ⟨rfl, rfl, rfl, rfl⟩

theorem sameRouting_submitDenseFfn (h : m.submitDenseFfn rt l = some m') : m.SameRouting m' := by
  unfold submitDenseFfn at h
  obtain ⟨⟨offsets, m₁⟩, halloc, h⟩ := Option.bind_eq_some_iff.mp h
  cases h
  exact (sameRouting_submitTasks _ _ _).after ((sameRouting_allocate halloc).trans ⟨rfl, rfl, rfl, rfl⟩)

/-- An operation other than `speculate` leaves them alone. -/
theorem sameRouting_exec {op : Op} (hop : ∀ l, op ≠ .speculate l) (h : exec rt m op = some m') :
    m.SameRouting m' := by
  cases op with
  | ensureLayer l =>
      simp only [exec] at h
      split at h
      all_goals
        cases h
        exact ⟨rfl, rfl, rfl, rfl⟩
  | requestLayer l =>
      simp only [exec] at h
      split at h
      all_goals
        cases h
        exact ⟨rfl, rfl, rfl, rfl⟩
  | submitLayer l =>
      cases h
      exact sameRouting_submitLayerLoad
  | send =>
      simp only [exec] at h
      split at h
      all_goals
        cases h
        exact ⟨rfl, rfl, rfl, rfl⟩
  | requestExperts l ids =>
      cases h
      exact sameRouting_submitExpertLoad
  | speculate l => exact absurd rfl (hop l)
  | ensureExperts l ids => exact sameRouting_ensureExpertsLoaded h
  | resetStatus l =>
      cases h
      exact ⟨rfl, rfl, rfl, rfl⟩
  | ensureDenseFfn l =>
      cases h
      unfold ensureDenseFfnLoaded
      dsimp only
      split
      · exact .refl
      · split
        · exact sameRouting_rewriteToSlots _
        · exact ⟨rfl, rfl, rfl, rfl⟩
  | loadDenseFfn l =>
      obtain ⟨m₁, hm₁, rfl⟩ := Option.map_eq_some_iff.mp h
      exact (sameRouting_submitDenseFfn hm₁).trans ⟨rfl, rfl, rfl, rfl⟩
  | planDenseFfn l =>
      cases h
      exact ⟨rfl, rfl, rfl, rfl⟩
  | prefetchDenseFfn l =>
      simp only [exec, prefetchDenseFfn] at h
      split at h
      · cases h
        exact .refl
      · exact sameRouting_submitDenseFfn h
  | awaitResident n =>
      simp only [exec] at h
      split at h
      all_goals
        cases h
        exact ⟨rfl, rfl, rfl, rfl⟩

theorem routerStep_thread (h : m.threadStep rt = some m') : RouterStep rt m .thread m' := by
  obtain ⟨-, ⟨op, ops, hpending, hexec⟩ | ⟨-, l, -, ⟨-, rfl⟩ | ⟨-, rfl⟩⟩⟩ := threadStep_cases h
  · cases hop : op with
    | speculate l =>
        subst hop
        simp only [exec] at hexec
        split at hexec
        · exact .speculate hpending hexec
        · exact .speculate hpending hexec
    | _ =>
        refine .same (.after (sameRouting_exec (fun l => ?_) hexec) ⟨rfl, rfl, rfl, rfl⟩)
        rw [hop]
        simp
  · exact .same ⟨rfl, rfl, rfl, rfl⟩
  · exact .same ⟨rfl, rfl, rfl, rfl⟩

/-! ### The events -/

theorem sameRouting_releaseLayer : m.SameRouting (m.releaseLayer rt l) := by
  unfold releaseLayer
  split
  · exact .refl
  · exact ⟨rfl, rfl, rfl, rfl⟩

theorem sameRouting_askCallback (h : m.askCallback rt l = some m') : m.SameRouting m' := by
  unfold askCallback at h
  split at h
  · cases h
    exact .refl
  · split at h
    · rcases askExperts_cases h with rfl | ⟨op, -, rfl⟩
      · exact .refl
      · exact ⟨rfl, rfl, rfl, rfl⟩
    · split at h
      · cases h
        unfold askDense
        split
        · exact ⟨rfl, rfl, rfl, rfl⟩
        · exact ⟨rfl, rfl, rfl, rfl⟩
      · cases h
        exact ⟨rfl, rfl, rfl, rfl⟩

theorem sameRouting_releaseSlots : m.SameRouting (m.releaseSlots rt l) := by
  unfold releaseSlots
  split
  · exact .refl
  · exact ⟨rfl, rfl, rfl, rfl⟩

theorem sameRouting_doneCallback {lookaheadMax : Nat} :
    m.SameRouting (m.doneCallback rt l lookaheadMax) := by
  have hswap : m.SameRouting (m.swapLayer l) := ⟨rfl, rfl, rfl, rfl⟩
  unfold doneCallback
  split
  · exact .refl
  · split
    · exact ⟨rfl, rfl, rfl, rfl⟩
    · split
      · unfold doneDense
        dsimp only
        split
        · exact ⟨rfl, rfl, rfl, rfl⟩
        · split
          · exact .trans (hswap.trans sameRouting_releaseSlots) ⟨rfl, rfl, rfl, rfl⟩
          · exact ⟨rfl, rfl, rfl, rfl⟩
      · unfold doneStandard
        dsimp only
        split
        · exact hswap
        · split
          · exact hswap
          · split
            · exact .trans (hswap.trans sameRouting_releaseLayer) ⟨rfl, rfl, rfl, rfl⟩
            · exact ⟨rfl, rfl, rfl, rfl⟩

theorem sameRouting_activateResidentFfn {n : Nat} : m.SameRouting (m.activateResidentFfn rt n) := by
  unfold activateResidentFfn
  dsimp only
  split
  · exact .refl
  · exact (sameRouting_submitTasks _ _ _).after ⟨rfl, rfl, rfl, rfl⟩

theorem routerStep_event (henabled : rt.prefetchEnabled = true) (hidle : m.Idle) {e : Event}
    (h : m.handle rt e = some m') : RouterStep rt m (.event e) m' := by
  cases e with
  | ask l =>
      simp only [handle] at h
      split at h
      · obtain ⟨m₁, hm₁, rfl⟩ := Option.map_eq_some_iff.mp h
        exact .same ((sameRouting_askCallback hm₁).trans ⟨rfl, rfl, rfl, rfl⟩)
      · cases h
  | done lookaheadMax =>
      obtain ⟨l, -, rfl⟩ := Option.map_eq_some_iff.mp h
      exact .same (.trans sameRouting_doneCallback ⟨rfl, rfl, rfl, rfl⟩)
  | doneRouter t =>
      obtain ⟨l, hl, rfl⟩ := Option.map_eq_some_iff.mp h
      rw [if_pos henabled]
      exact .router hidle hl
  | residentFfn n =>
      simp only [handle] at h
      split at h
      · cases h
        exact .same sameRouting_activateResidentFfn
      · cases h
  | token =>
      simp only [handle] at h
      split at h
      · next hasked =>
          cases h
          exact .token hasked
      · cases h
  | _ =>
      simp only [handle] at h
      split at h
      · cases h
        exact .same ⟨rfl, rfl, rfl, rfl⟩
      · cases h

/-- **Selections change when a router has run or a token begins, and the statistics when a
selection is recorded**, in every step of the system. -/
theorem routerStep (henabled : rt.prefetchEnabled = true) {lab : Label}
    (h : m.step rt lab = some m') : RouterStep rt m lab m' := by
  cases lab with
  | event e =>
      simp only [step] at h
      split at h
      · next hidle => exact routerStep_event henabled hidle h
      · cases h
  | thread => exact routerStep_thread h
  | wake =>
      simp only [step] at h
      split at h
      · cases h
        exact .same ⟨rfl, rfl, rfl, rfl⟩
      · cases h
  | recv w =>
      obtain ⟨io, -, rfl⟩ := Option.map_eq_some_iff.mp h
      exact .same ⟨rfl, rfl, rfl, rfl⟩
  | pread w count =>
      obtain ⟨j, r, rs, l, io, -, -, -, -, rfl⟩ := preadStep_spec h
      exact .same ⟨rfl, rfl, rfl, rfl⟩
  | finish w =>
      obtain ⟨j, io, -, -, -, rfl⟩ := finishStep_spec h
      exact .same ⟨rfl, rfl, rfl, rfl⟩
  | fire w =>
      obtain ⟨b, tag, io, -, -, -, rfl⟩ := fireStep_spec h
      split
      · exact .same ⟨rfl, rfl, rfl, rfl⟩
      · exact .same ⟨rfl, rfl, rfl, rfl⟩

end RouterStep

end Machine

end Hypura
