import Hypura.Compute.PrefetchState

/-!
# Hypura.Compute.LoadProtocol

What loading layers comes down to in standard mode: a status for each layer, a pool that
counts the tasks of each load down, and at most one load that the inference thread has
announced and not yet submitted.

A layer goes from `notLoaded` to `loading` when its load is announced, from there to
`loaded` when the load's completion fires (or at once, if there was nothing to load), and
back when it is released. `Sound` is what any sequence of these moves keeps: a layer is
`loading` exactly while a load of it is announced or in the pool, and there is one.
-/

namespace Hypura

open Hypura.Core.Countdown

/-- The part of the state that loads go through. -/
structure Loading (τ : Type) where
  status : Nat → LayerStatus
  io : Pool τ IoCompletion
  /-- The layer whose load was announced and is not submitted yet. -/
  submitting : Option Nat

namespace Loading
variable {τ : Type} {l b : Nat}

/-- Batch `b` is a load of layer `l` in the pool: it will store `Loaded`. -/
def LiveLoad (io : Pool τ IoCompletion) (l b : Nat) : Prop :=
  io.tag? b = some ⟨l, true⟩ ∧ b ∉ io.fired

/-! ### Moves -/

inductive Move : Loading τ → Loading τ → Prop
  /-- Nothing that matters here. -/
  | rest {s : Loading τ} : Move s s
  /-- Announce the load of a layer that is not loaded. -/
  | announce {s : Loading τ} {l : Nat} : s.submitting = none → s.status l = .notLoaded →
      Move s { s with status := Function.update s.status l .loading, submitting := some l }
  /-- Submit the load announced. -/
  | submit {s : Loading τ} {l : Nat} {tasks : List τ} : s.submitting = some l → tasks ≠ [] →
      Move s { s with io := s.io.openBatch ⟨l, true⟩ tasks, submitting := none }
  /-- There is nothing to load. -/
  | nothing {s : Loading τ} {l : Nat} : s.submitting = some l →
      Move s { s with status := Function.update s.status l .loaded, submitting := none }
  /-- Submit reads that are no load. -/
  | request {s : Loading τ} {l : Nat} {tasks : List τ} : tasks ≠ [] →
      Move s { s with io := s.io.openBatch ⟨l, false⟩ tasks }
  /-- Jobs are sent, received, worked on or finished. -/
  | pool {s : Loading τ} {io : Pool τ IoCompletion} : Pool.Quiet s.io io → Move s { s with io := io }
  /-- A completion fires. -/
  | fire {s : Loading τ} {io : Pool τ IoCompletion} {w b : Nat} {c : IoCompletion} :
      s.io.workers[w]? = some (.firing b) → s.io.tag? b = some c → s.io.fire w = some io →
      Move s { s with
        io := io
        status := if c.updateStatus then Function.update s.status c.layerIdx .loaded
          else s.status }
  /-- Release a loaded layer. -/
  | release {s : Loading τ} {l : Nat} : s.status l = .loaded →
      Move s { s with status := Function.update s.status l .notLoaded }

/-! ### The invariant -/

structure Sound (s : Loading τ) : Prop where
  balanced : s.io.Balanced
  /-- A load in the pool is of a loading layer, and of none about to be submitted. -/
  live : ∀ l b, LiveLoad s.io l b → s.status l = .loading ∧ s.submitting ≠ some l
  /-- There is at most one load of a layer in the pool. -/
  unique : ∀ l b b', LiveLoad s.io l b → LiveLoad s.io l b' → b = b'
  /-- A loading layer has a load. -/
  loading : ∀ l, s.status l = .loading → s.submitting = some l ∨ ∃ b, LiveLoad s.io l b
  /-- The layer whose load is about to be submitted is loading. -/
  submitting : ∀ l, s.submitting = some l → s.status l = .loading

theorem LiveLoad.live {io : Pool τ IoCompletion} (h : LiveLoad io l b) : io.Live b :=
  ⟨Pool.lt_of_tag? h.1, h.2⟩

/-- A new batch is live if it is a load; the others are live as they were. -/
theorem liveLoad_openBatch {io : Pool τ IoCompletion} (hb : io.Balanced) {c : IoCompletion}
    {tasks : List τ} : LiveLoad (io.openBatch c tasks) l b ↔
      b = io.batches.length ∧ c = ⟨l, true⟩ ∨ LiveLoad io l b := by
  have hnew : io.batches.length ∉ io.fired := fun hmem =>
    Nat.lt_irrefl _ (hb.fired_lt _ (List.mem_append_right _ hmem))
  unfold LiveLoad
  rw [Pool.tag?_openBatch]
  show (if b = io.batches.length then some c else io.tag? b) = some ⟨l, true⟩ ∧ b ∉ io.fired ↔ _
  by_cases hb : b = io.batches.length
  · subst hb
    have hnone : io.tag? io.batches.length = none := by
      simp [Pool.tag?]
    simp [hnew, hnone]
  · simp [hb]

theorem liveLoad_quiet {io io' : Pool τ IoCompletion} (h : Pool.Quiet io io') :
    LiveLoad io' l b ↔ LiveLoad io l b := by
  unfold LiveLoad
  rw [h.tag?_eq, h.fired_eq]

/-- A batch that fires is live no more; the others are live as they were. -/
theorem liveLoad_fire {io io' : Pool τ IoCompletion} {w b₀ : Nat} (h : io.fire w = some io')
    (hw : io.workers[w]? = some (.firing b₀)) :
    LiveLoad io' l b ↔ LiveLoad io l b ∧ b ≠ b₀ := by
  obtain ⟨b₁, hw', -, hbatches, -, hfired, -, -⟩ := Pool.fire_spec h
  have hbb : b₁ = b₀ := by
    rw [hw] at hw'
    exact (Worker.firing.inj (Option.some.inj hw')).symm
  subst hbb
  unfold LiveLoad
  rw [Pool.tag?_of_batches hbatches, hfired, List.mem_cons, not_or]
  constructor
  · rintro ⟨htag, hne, hnot⟩
    exact ⟨⟨htag, hnot⟩, hne⟩
  · rintro ⟨⟨htag, hnot⟩, hne⟩
    exact ⟨htag, hne, hnot⟩

namespace Sound
variable {s s' : Loading τ}

/-- A loaded layer has no load in the pool. -/
theorem not_live (h : Sound s) (hl : s.status l ≠ .loading) (b : Nat) : ¬ LiveLoad s.io l b :=
  fun hlive => hl (h.live l b hlive).1

theorem announce (h : Sound s) (hnone : s.submitting = none) (hl : s.status l ≠ .loading) :
    Sound { s with status := Function.update s.status l .loading, submitting := some l } := by
  have hnot : ∀ b, ¬ LiveLoad s.io l b := h.not_live hl
  constructor
  · exact h.balanced
  · intro l' b hlive
    have hne : l' ≠ l := fun heq => hnot b (heq ▸ hlive)
    refine ⟨?_, fun heq => hne (Option.some.inj heq).symm⟩
    show Function.update s.status l .loading l' = .loading
    rw [Function.update_of_ne hne]
    exact (h.live l' b hlive).1
  · exact h.unique
  · intro l' hl'
    by_cases heq : l' = l
    · subst heq
      exact .inl rfl
    · change Function.update s.status l .loading l' = .loading at hl'
      rw [Function.update_of_ne heq] at hl'
      rcases h.loading l' hl' with hsub | hlive
      · rw [hnone] at hsub
        cases hsub
      · exact .inr hlive
  · intro l' hl'
    cases hl'
    exact Function.update_self ..

theorem submit (h : Sound s) {tasks : List τ} (hsub : s.submitting = some l) (hne : tasks ≠ []) :
    Sound { s with io := s.io.openBatch ⟨l, true⟩ tasks, submitting := none } := by
  have hnot : ∀ b, ¬ LiveLoad s.io l b := fun b hlive => (h.live l b hlive).2 hsub
  have hcase : ∀ {l' b}, LiveLoad (s.io.openBatch ⟨l, true⟩ tasks) l' b →
      b = s.io.batches.length ∧ l = l' ∨ LiveLoad s.io l' b := by
    intro l' b hlive
    refine ((liveLoad_openBatch h.balanced).mp hlive).imp_left fun hnew => ⟨hnew.1, ?_⟩
    exact congrArg IoCompletion.layerIdx hnew.2
  constructor
  · exact h.balanced.openBatch _ hne
  · intro l' b hlive
    refine ⟨?_, nofun⟩
    rcases hcase hlive with ⟨-, rfl⟩ | hold
    · exact h.submitting l hsub
    · exact (h.live l' b hold).1
  · intro l' b b' hlive hlive'
    rcases hcase hlive with ⟨rfl, rfl⟩ | hold
    · rcases hcase hlive' with ⟨rfl, -⟩ | hold'
      · rfl
      · exact absurd hold' (hnot b')
    · rcases hcase hlive' with ⟨-, rfl⟩ | hold'
      · exact absurd hold (hnot b)
      · exact h.unique l' b b' hold hold'
  · intro l' hl'
    refine .inr ?_
    rcases h.loading l' hl' with hsub' | ⟨b, hlive⟩
    · rw [hsub] at hsub'
      cases hsub'
      exact ⟨_, (liveLoad_openBatch h.balanced).mpr (.inl ⟨rfl, rfl⟩)⟩
    · exact ⟨b, (liveLoad_openBatch h.balanced).mpr (.inr hlive)⟩
  · intro l' hl'
    cases hl'

/-- A load that is submitted at once. -/
theorem load (h : Sound s) {tasks : List τ} (hnone : s.submitting = none)
    (hl : s.status l ≠ .loading) (hne : tasks ≠ []) :
    Sound ⟨Function.update s.status l .loading, s.io.openBatch ⟨l, true⟩ tasks, none⟩ :=
  (h.announce hnone hl).submit rfl hne

theorem nothing (h : Sound s) (hsub : s.submitting = some l) :
    Sound { s with status := Function.update s.status l .loaded, submitting := none } := by
  have hne : ∀ {l' b}, LiveLoad s.io l' b → l' ≠ l := fun hlive heq =>
    (h.live _ _ hlive).2 (heq ▸ hsub)
  constructor
  · exact h.balanced
  · intro l' b hlive
    refine ⟨?_, nofun⟩
    show Function.update s.status l .loaded l' = .loading
    rw [Function.update_of_ne (hne hlive)]
    exact (h.live l' b hlive).1
  · exact h.unique
  · intro l' hl'
    change Function.update s.status l .loaded l' = .loading at hl'
    by_cases heq : l' = l
    · rw [heq, Function.update_self] at hl'
      cases hl'
    · rw [Function.update_of_ne heq] at hl'
      rcases h.loading l' hl' with hsub' | hlive
      · rw [hsub] at hsub'
        exact absurd (Option.some.inj hsub').symm heq
      · exact .inr hlive
  · intro l' hl'
    cases hl'

/-- A change of the pool that keeps the loads in it live, and adds none. -/
theorem of_liveLoad (h : Sound s) {io : Pool τ IoCompletion} (hb : io.Balanced)
    (hlive : ∀ l b, LiveLoad io l b ↔ LiveLoad s.io l b) : Sound { s with io := io } where
  balanced := hb
  live l b hl := h.live l b ((hlive l b).mp hl)
  unique l b b' hl hl' := h.unique l b b' ((hlive l b).mp hl) ((hlive l b').mp hl')
  loading l hl := (h.loading l hl).imp_right fun ⟨b, hb⟩ => ⟨b, (hlive l b).mpr hb⟩
  submitting := h.submitting

theorem request (h : Sound s) {tasks : List τ} (hne : tasks ≠ []) :
    Sound { s with io := s.io.openBatch ⟨l, false⟩ tasks } := by
  refine h.of_liveLoad (h.balanced.openBatch _ hne) fun l' b => ?_
  rw [liveLoad_openBatch h.balanced]
  simp

theorem fire (h : Sound s) {io : Pool τ IoCompletion} {w b : Nat} {c : IoCompletion}
    (hw : s.io.workers[w]? = some (.firing b)) (htag : s.io.tag? b = some c)
    (hf : s.io.fire w = some io) :
    Sound { s with
      io := io
      status := if c.updateStatus then Function.update s.status c.layerIdx .loaded
        else s.status } := by
  have hbal : io.Balanced := h.balanced.fire hf
  have hfiring : b ∈ s.io.firing := List.mem_filterMap.mpr ⟨_, List.mem_of_getElem? hw, rfl⟩
  have hnotfired : b ∉ s.io.fired := (h.balanced.firing_live hfiring).1.2
  obtain ⟨l, u⟩ := c
  cases u with
  | false =>
      refine h.of_liveLoad hbal fun l' b' => ?_
      rw [liveLoad_fire hf hw]
      refine and_iff_left_of_imp fun hlive heq => ?_
      subst heq
      rw [hlive.1] at htag
      cases htag
  | true =>
      -- the load of `l` was this one alone
      have hself : LiveLoad s.io l b := ⟨htag, hnotfired⟩
      have hne : ∀ {l' b'}, LiveLoad io l' b' → l' ≠ l := by
        intro l' b' hlive heq
        obtain ⟨hold, hne⟩ := (liveLoad_fire hf hw).mp hlive
        exact hne (h.unique l' b' b hold (heq ▸ hself))
      constructor
      · exact hbal
      · intro l' b' hlive
        have hold := h.live l' b' ((liveLoad_fire hf hw).mp hlive).1
        refine ⟨?_, hold.2⟩
        show Function.update s.status l .loaded l' = .loading
        rw [Function.update_of_ne (hne hlive)]
        exact hold.1
      · intro l' b' b'' hlive hlive'
        exact h.unique l' b' b'' ((liveLoad_fire hf hw).mp hlive).1
          ((liveLoad_fire hf hw).mp hlive').1
      · intro l' hl'
        change Function.update s.status l .loaded l' = .loading at hl'
        by_cases heq : l' = l
        · rw [heq, Function.update_self] at hl'
          cases hl'
        · rw [Function.update_of_ne heq] at hl'
          refine (h.loading l' hl').imp_right fun ⟨b', hlive⟩ => ⟨b', ?_⟩
          refine (liveLoad_fire hf hw).mpr ⟨hlive, fun hbb => heq ?_⟩
          rw [hbb] at hlive
          have := hlive.1.symm.trans htag
          simpa using this
      · intro l' hl'
        have hne : l' ≠ l := fun heq => (h.live l b hself).2 (heq ▸ hl')
        show Function.update s.status l .loaded l' = .loading
        rw [Function.update_of_ne hne]
        exact h.submitting l' hl'

theorem release (h : Sound s) (hl : s.status l ≠ .loading) :
    Sound { s with status := Function.update s.status l .notLoaded } := by
  have hkeep : ∀ {l'}, s.status l' = .loading →
      Function.update s.status l .notLoaded l' = .loading := by
    intro l' hl'
    have hne : l' ≠ l := fun heq => hl (heq ▸ hl')
    rw [Function.update_of_ne hne]
    exact hl'
  constructor
  · exact h.balanced
  · intro l' b hlive
    exact ⟨hkeep (h.live l' b hlive).1, (h.live l' b hlive).2⟩
  · exact h.unique
  · intro l' hl'
    change Function.update s.status l .notLoaded l' = .loading at hl'
    by_cases heq : l' = l
    · rw [heq, Function.update_self] at hl'
      cases hl'
    · rw [Function.update_of_ne heq] at hl'
      exact h.loading l' hl'
  · intro l' hl'
    exact hkeep (h.submitting l' hl')

end Sound

/-- **Every move keeps the statuses and the loads in step.** -/
theorem Move.sound {s s' : Loading τ} (h : Move s s') (hs : Sound s) : Sound s' := by
  cases h with
  | rest => exact hs
  | announce hnone hl => exact hs.announce hnone (by simp [hl])
  | submit hsub hne => exact hs.submit hsub hne
  | nothing hsub => exact hs.nothing hsub
  | request hne => exact hs.request hne
  | pool hq => exact hs.of_liveLoad (hq.balanced hs.balanced) fun _ _ => liveLoad_quiet hq
  | fire hw htag hf => exact hs.fire hw htag hf
  | release hl => exact hs.release (by simp [hl])

/-- At the start nothing is loaded and nothing is under way. -/
theorem sound_start (n : Nat) :
    Sound (⟨fun _ => .notLoaded, Pool.start n, none⟩ : Loading τ) where
  balanced := Pool.balanced_start n
  live l b h := by cases h.1
  unique l b b' h := by cases h.1
  loading l h := by cases h
  submitting l h := by cases h

end Loading

end Hypura
