import Hypura.Compute.InFlight
import Hypura.Compute.RouterStep

/-!
# Hypura.Compute.RouterChoice

Standard mode: are the experts that the router selects in memory when they are used?

The load of a layer is submitted before its router runs, from the selection of an earlier
token, and once the layer is loaded nothing looks at the selection again. So the slices of
a new selection are there if the load was `foreseen`: made in full, or from a selection
that has the experts. `RouterKept` is what a run of such steps keeps.
-/

namespace Hypura

open Hypura.Core Hypura.Core.Countdown Hypura.Rust

/-! ### Slices within regions read -/

/-- The region is a part of `whole`, in the buffer and in the file. -/
def Region.PartOf (r whole : Region) : Prop :=
  r.Within whole ∧ r.fileOffset + whole.dst = whole.fileOffset + r.dst

instance (r whole : Region) : Decidable (r.Within whole) := inferInstanceAs (Decidable (_ ∧ _))

instance (r whole : Region) : Decidable (r.PartOf whole) := inferInstanceAs (Decidable (_ ∧ _))

theorem Region.PartOf.refl (r : Region) : r.PartOf r := ⟨.refl r, rfl⟩

/-- A load built from `basis` brings in the slice of expert `e`: it is a full load with the
slice in one of its regions, or the expert is in the selection. -/
def bringsSlice (cfg : PrefetchConfig) (l : Nat) (layout : ExpertLayout) (e : Nat) :
    Option (List Nat) → Bool
  | none => (cfg.layerRegions l).any fun r => decide ((layout.bufferRegion e).PartOf r)
  | some ids => decide (e ∈ ids)

theorem needed_of_bringsSlice {cfg : PrefetchConfig} {l : Nat} {layout : ExpertLayout} {e : Nat}
    {basis : Option (List Nat)} (hm : layout ∈ cfg.expertLayouts l) (he : e < layout.numExperts)
    (h : bringsSlice cfg l layout e basis = true) :
    ∃ r, Needed cfg l basis r ∧ (layout.bufferRegion e).PartOf r := by
  cases basis with
  | none =>
      obtain ⟨r, hr, hpart⟩ := List.any_eq_true.mp h
      exact ⟨r, hr, of_decide_eq_true hpart⟩
  | some ids => exact ⟨_, .inr ⟨layout, hm, e, of_decide_eq_true h, he, rfl⟩, .refl _⟩

namespace Machine

/-- The slice of expert `e` was read into the buffer since `l` was last released. -/
def sliceRead (m : Machine) (l : Nat) (layout : ExpertLayout) (e : Nat) : Bool :=
  (m.readSince l).any fun r => decide ((layout.bufferRegion e).PartOf r)

/-- Every slice of the experts `ids` of layer `l` was read, or a load from `basis` brings
it in. -/
def slicesForeseen (rt : Runtime) (m : Machine) (l : Nat) (ids : List Nat)
    (basis : Option (List Nat)) : Bool :=
  (rt.config.expertLayouts l).all fun layout => ids.all fun e =>
    m.sliceRead l layout e || bringsSlice rt.config l layout e basis

/-- The ids that `intercept_router_output` reads for the layer asked for, if it is `l`. -/
def idsRead (rt : Runtime) (m : Machine) (l : Nat) (t : ArgsortTensor) : List Nat :=
  if m.asked = some l then
    (t.data.map (selectedIds rt.config.numExpertsTotal (min rt.config.numExpertsUsed t.nExperts) t)).getD []
  else []

/-- **The condition.** When the router of `l` has run, the layer's load was built from a
selection that has the experts it selects; so is one submitted later in the token. -/
def foreseen (rt : Runtime) (l : Nat) (m : Machine) : Label → Bool
  | .event (.doneRouter t) => m.slicesForeseen rt l (m.idsRead rt l t) (m.basis l)
  | .thread =>
    decide (m.submitting ≠ some l) ||
      m.slicesForeseen rt l ((m.routed l).getD []) (m.selectedExperts l)
  | _ => true

/-! ### The invariant -/

/-- What is known of the slices that the router of `l` selected in this token. -/
structure RouterKept (rt : Runtime) (l : Nat) (m : Machine) : Prop where
  inRange : ∀ ids, m.routed l = some ids → ∀ e ∈ ids, e < rt.config.numExpertsTotal
  /-- If the layer is loaded, they were read. -/
  loaded : m.layerStatus l = .loaded → ∀ ids, m.routed l = some ids →
    ∀ layout ∈ rt.config.expertLayouts l, ∀ e ∈ ids, m.sliceRead l layout e = true
  /-- If a load is in the pool, they were read or it brings them in. -/
  loading : ∀ b, Loading.LiveLoad m.io l b → ∀ ids, m.routed l = some ids →
    m.slicesForeseen rt l ids (m.basis l) = true

section RouterKept
variable {rt : Runtime} {m m' : Machine} {l : Nat}

theorem sliceRead_mono (h : ∀ r ∈ m.readSince l, r ∈ m'.readSince l) {layout : ExpertLayout}
    {e : Nat} (hr : m.sliceRead l layout e = true) : m'.sliceRead l layout e = true := by
  obtain ⟨r, hmem, hpart⟩ := List.any_eq_true.mp hr
  exact List.any_eq_true.mpr ⟨r, h r hmem, hpart⟩

theorem slicesForeseen_mono (h : ∀ r ∈ m.readSince l, r ∈ m'.readSince l) {ids : List Nat}
    {basis : Option (List Nat)} (hf : m.slicesForeseen rt l ids basis = true) :
    m'.slicesForeseen rt l ids basis = true := by
  simp only [slicesForeseen, List.all_eq_true, Bool.or_eq_true] at hf ⊢
  exact fun layout hm e he => (hf layout hm e he).imp_left (sliceRead_mono h)

/-- What a loaded layer's load was to bring in was read. -/
theorem sliceRead_of_foreseen (hcov : m.Covered rt.config l) (hst : m.layerStatus l = .loaded)
    (hexperts : ∀ layout ∈ rt.config.expertLayouts l, layout.numExperts = rt.config.numExpertsTotal)
    {ids : List Nat} (hids : ∀ e ∈ ids, e < rt.config.numExpertsTotal)
    (hf : m.slicesForeseen rt l ids (m.basis l) = true) :
    ∀ layout ∈ rt.config.expertLayouts l, ∀ e ∈ ids, m.sliceRead l layout e = true := by
  intro layout hm e he
  simp only [slicesForeseen, List.all_eq_true, Bool.or_eq_true] at hf
  rcases hf layout hm e he with hread | hbrings
  · exact hread
  · have hlt : e < layout.numExperts := (hexperts layout hm).symm ▸ hids e he
    obtain ⟨r, hr, hpart⟩ := needed_of_bringsSlice hm hlt hbrings
    exact List.any_eq_true.mpr ⟨r, hcov.loaded hst r hr, decide_eq_true hpart⟩

/-- What is carried on is kept, while no load of the layer is added. -/
theorem RouterKept.carry (h : m.RouterKept rt l) (hc : m.Carries m') (hrouted : m'.routed = m.routed)
    (hloaded : m'.layerStatus l = .loaded → m.layerStatus l = .loaded)
    (hlive : ∀ b, Loading.LiveLoad m'.io l b → Loading.LiveLoad m.io l b) : m'.RouterKept rt l where
  inRange ids hids := h.inRange ids (hrouted ▸ hids)
  loaded hst ids hids layout hm e he :=
    sliceRead_mono (hc.readSince l) (h.loaded (hloaded hst) ids (hrouted ▸ hids) layout hm e he)
  loading b hb ids hids := by
    rw [hc.basis]
    exact slicesForeseen_mono (hc.readSince l) (h.loading b (hlive b hb) ids (hrouted ▸ hids))

/-- Nothing is promised of a layer whose router has not run. -/
theorem RouterKept.of_none (h : m.routed l = none) : m.RouterKept rt l where
  inRange ids hids := by rw [h] at hids; cases hids
  loaded _ ids hids := by rw [h] at hids; cases hids
  loading _ _ ids hids := by rw [h] at hids; cases hids

theorem mem_selectedIds {total k : Nat} {t : ArgsortTensor} {data : List Int} {e : Nat}
    (h : e ∈ selectedIds total k t data) : e < total := by
  obtain ⟨token, -, he⟩ := List.mem_flatMap.mp h
  obtain ⟨id, -, hid⟩ := List.mem_filterMap.mp he
  split at hid
  · next hlt =>
      cases hid
      exact hlt.2
  · cases hid

/-- The router's output is noted for its layer; loads are left alone. -/
theorem interceptRouterOutput_spec (rt : Runtime) (m : Machine) (l' : Nat) (t : ArgsortTensor) :
    ∃ selected, m.interceptRouterOutput rt l' t =
      { m with
        routed := match t.data with
          | none => m.routed
          | some data => Function.update m.routed l' (some (selectedIds rt.config.numExpertsTotal
              (min rt.config.numExpertsUsed t.nExperts) t data))
        selectedExperts := selected } := by
  unfold interceptRouterOutput
  cases t.data with
  | none => exact ⟨m.selectedExperts, rfl⟩
  | some data =>
      dsimp only
      split
      · exact ⟨_, rfl⟩
      · split
        · exact ⟨_, rfl⟩
        · split
          · exact ⟨_, rfl⟩
          · exact ⟨_, rfl⟩

/-- The router of the layer asked for has run. -/
theorem RouterKept.router (h : m.RouterKept rt l) (hcov : m.Covered rt.config l)
    (hexperts : ∀ layout ∈ rt.config.expertLayouts l, layout.numExperts = rt.config.numExpertsTotal)
    {l' : Nat} {t : ArgsortTensor} (hl' : m.asked = some l')
    (hforeseen : m.foreseen rt l (.event (.doneRouter t))) :
    { m.interceptRouterOutput rt l' t with asked := none }.RouterKept rt l := by
  obtain ⟨selected, heq⟩ := interceptRouterOutput_spec rt m l' t
  rw [heq]
  cases hdata : t.data with
  | none => exact ⟨h.inRange, h.loaded, h.loading⟩
  | some data =>
      by_cases hl : l = l'
      · subst hl
        have hids : m.idsRead rt l t = selectedIds rt.config.numExpertsTotal
            (min rt.config.numExpertsUsed t.nExperts) t data := by
          rw [idsRead, if_pos hl', hdata]
          rfl
        have hforeseen : m.slicesForeseen rt l (m.idsRead rt l t) (m.basis l) = true := hforeseen
        rw [hids] at hforeseen
        constructor
        · intro ids hrouted e he
          cases (Function.update_self ..).symm.trans hrouted
          exact mem_selectedIds he
        · intro hst ids hrouted
          cases (Function.update_self ..).symm.trans hrouted
          exact sliceRead_of_foreseen hcov hst hexperts (fun e he => mem_selectedIds he) hforeseen
        · intro b hb ids hrouted
          cases (Function.update_self ..).symm.trans hrouted
          exact hforeseen
      · have hrouted : ∀ ids, Function.update m.routed l' ids l = m.routed l :=
          fun ids => Function.update_of_ne hl ..
        exact ⟨fun ids hids => h.inRange ids ((hrouted _).symm.trans hids),
          fun hst ids hids => h.loaded hst ids ((hrouted _).symm.trans hids),
          fun b hb ids hids => h.loading b hb ids ((hrouted _).symm.trans hids)⟩

/-- The load of a layer is submitted. -/
theorem RouterKept.submit (h : m.RouterKept rt l) (hrt : rt.Streams)
    (hs : Loading.Sound m.loading)
    (hexperts : ∀ layout ∈ rt.config.expertLayouts l, layout.numExperts = rt.config.numExpertsTotal)
    {l' : Nat} {ops : List Op} (hpending : m.pending = .submitLayer l' :: ops)
    (hcov' : ({ m with pending := ops }.submitLayerLoad rt l').Covered rt.config l)
    (hforeseen : m.foreseen rt l .thread) :
    ({ m with pending := ops }.submitLayerLoad rt l').RouterKept rt l := by
  have hsub : m.submitting = some l' := submitting_eq_some hpending
  have hnot : ∀ b, ¬ Loading.LiveLoad m.io l' b := fun b hb => (hs.live l' b hb).2 hsub
  have hbasis : ∀ ids, m.routed l = some ids → l = l' →
      m.slicesForeseen rt l ids (planLayer rt m l').basis = true := by
    intro ids hids hl
    subst hl
    have hforeseen : m.slicesForeseen rt l ids (m.selectedExperts l) = true := by
      simpa [foreseen, hsub, hids] using hforeseen
    rcases planLayer_cases rt m l with ⟨sel, hsel, hplan⟩ | ⟨hnone | hnil, hplan⟩
    · rw [hplan, planSlices]
      rwa [hsel] at hforeseen
    · rw [hplan, planFull]
      rwa [hnone] at hforeseen
    · simp [slicesForeseen, hnil]
  rcases submitLayerLoad_cases (m := { m with pending := ops }) hrt l' with
    ⟨-, heq⟩ | ⟨-, heq⟩
  · rw [heq] at hcov' ⊢
    refine ⟨h.inRange, fun hst ids hids => ?_, fun b hb ids hids => ?_⟩
    · by_cases hl : l = l'
      · refine sliceRead_of_foreseen hcov' hst hexperts (h.inRange ids hids) ?_
        subst hl
        show m.slicesForeseen rt l ids (Function.update m.basis l (planLayer rt m l).basis l) = true
        rw [Function.update_self]
        exact hbasis ids hids rfl
      · change Function.update m.layerStatus l' .loaded l = .loaded at hst
        rw [Function.update_of_ne hl] at hst
        exact h.loaded hst ids hids
    · have hl : l ≠ l' := fun hl => hnot b (hl ▸ hb)
      show m.slicesForeseen rt l ids (Function.update m.basis l' _ l) = true
      rw [Function.update_of_ne hl]
      exact h.loading b hb ids hids
  · rw [heq]
    refine ⟨h.inRange, h.loaded, fun b hb ids hids => ?_⟩
    show m.slicesForeseen rt l ids (Function.update m.basis l' _ l) = true
    by_cases hl : l = l'
    · subst hl
      rw [Function.update_self]
      exact hbasis ids hids rfl
    · rw [Function.update_of_ne hl]
      rcases (Loading.liveLoad_openBatch hs.balanced).mp hb with ⟨-, hc⟩ | hold
      · exact absurd (congrArg IoCompletion.layerIdx hc).symm hl
      · exact h.loading b hold ids hids

/-- A load stores the status. -/
theorem RouterKept.fire (h : m.RouterKept rt l) (hs : Loading.Sound m.loading)
    (hexperts : ∀ layout ∈ rt.config.expertLayouts l, layout.numExperts = rt.config.numExpertsTotal)
    (hcov' : m'.Covered rt.config l) {w : Nat} (hfire : m.fireStep w = some m') :
    m'.RouterKept rt l := by
  have hc := carries_of_fire hfire
  obtain ⟨b, tag, io, hw, htag, hio, rfl⟩ := fireStep_spec hfire
  have hfiring : b ∈ m.io.firing := List.mem_filterMap.mpr ⟨_, List.mem_of_getElem? hw, rfl⟩
  have hbalanced : m.io.Balanced := hs.balanced
  have hold : ∀ b', Loading.LiveLoad io l b' → Loading.LiveLoad m.io l b' := fun b' hb' =>
    ((Loading.liveLoad_fire hio hw).mp hb').1
  by_cases hupdate : tag.updateStatus = true
  · rw [if_pos hupdate] at hc hcov' ⊢
    by_cases hl : l = tag.layerIdx
    · have hself : Loading.LiveLoad m.io l b := by
        refine ⟨?_, (hbalanced.firing_live hfiring).1.2⟩
        rw [htag, hl, ← hupdate]
      refine ⟨h.inRange, fun hst ids hids => ?_, fun b' hb' => h.loading b' (hold b' hb')⟩
      exact sliceRead_of_foreseen hcov' hst hexperts (h.inRange ids hids) (h.loading b hself ids hids)
    · refine h.carry hc rfl (fun hst => ?_) hold
      change Function.update m.layerStatus tag.layerIdx .loaded l = .loaded at hst
      rwa [Function.update_of_ne hl] at hst
  · rw [if_neg hupdate] at hc ⊢
    exact h.carry hc rfl id hold

/-- A release of the layer itself leaves nothing to keep; one of another leaves all as it
was. -/
theorem RouterKept.release (h : m.RouterKept rt l) (hrt : rt.Streams)
    (hs : Loading.Sound m.loading) {l' : Nat} (hl' : m.layerStatus l' = .loaded) :
    (m.releaseLayer rt l').RouterKept rt l := by
  rcases releaseLayer_cases (m := m) hrt l' with ⟨-, heq⟩ | ⟨-, heq⟩
  · rw [heq]
    exact h
  · rw [heq]
    by_cases hl : l = l'
    · subst hl
      have hnot : ∀ b, ¬ Loading.LiveLoad m.io l b :=
        hs.not_live (by show m.layerStatus l ≠ .loading; rw [hl']; decide)
      refine ⟨h.inRange, fun hst => ?_, fun b hb => absurd hb (hnot b)⟩
      change Function.update m.layerStatus l .notLoaded l = .loaded at hst
      rw [Function.update_self] at hst
      cases hst
    · have hread : ∀ r ∈ m.readSince l, r ∈ Function.update m.readSince l' [] l := fun r hr => by
        rwa [Function.update_of_ne hl]
      refine ⟨h.inRange, fun hst ids hids layout hm e he => ?_, fun b hb ids hids => ?_⟩
      · change Function.update m.layerStatus l' .notLoaded l = .loaded at hst
        rw [Function.update_of_ne hl] at hst
        exact sliceRead_mono hread (h.loaded hst ids hids layout hm e he)
      · exact slicesForeseen_mono hread (h.loading b hb ids hids)

/-- A step other than the router's, with the routers that have run as they were. -/
theorem RouterKept.standard (h : m.RouterKept rt l) (hrt : rt.Streams)
    (hs : Loading.Sound m.loading)
    (hexperts : ∀ layout ∈ rt.config.expertLayouts l, layout.numExperts = rt.config.numExpertsTotal)
    {lab : Label} (hstep : StandardStep rt m lab m') (hrouted : m'.routed = m.routed)
    (hfull : m.fullRead lab) (hcov' : m'.Covered rt.config l) (hforeseen : m.foreseen rt l lab) :
    m'.RouterKept rt l := by
  cases hstep with
  | rest ha =>
      refine h.carry ha.carries hrouted (fun hst => ha.status ▸ hst) fun b hb => ?_
      rw [ha.io] at hb
      exact hb
  | @announce l' _ _ _ ha =>
      refine RouterKept.carry (m := m) h ?_ hrouted (fun hst => ?_) fun b hb => ?_
      · exact ⟨fun b => by rw [ha.io]; rfl,
          fun b r hr => .inl ((inBatch_of_perm (ha.io ▸ List.Perm.refl _)).mpr hr),
          fun l r hr => ha.readSince ▸ hr, ha.cache, ha.basis⟩
      · rw [ha.status] at hst
        change Function.update m.layerStatus l' .loading l = .loaded at hst
        exact loaded_of_update (by decide) hst
      · rw [ha.io] at hb
        exact hb
  | submit hpending _ => exact h.submit hrt hs hexperts hpending hcov' hforeseen
  | @request l' ids ops _ _ =>
      rcases submitExpertLoad_cases (m := { m with pending := ops }) hrt l' ids with
        ⟨-, heq⟩ | ⟨-, heq⟩ | ⟨-, -, heq⟩
      · rw [heq]
        exact ⟨h.inRange, h.loaded, h.loading⟩
      · rw [heq]
        exact ⟨h.inRange, h.loaded, h.loading⟩
      · rw [heq]
        refine ⟨h.inRange, h.loaded, fun b hb => ?_⟩
        rcases (Loading.liveLoad_openBatch hs.balanced).mp hb with ⟨-, hc⟩ | hold
        · exact absurd (congrArg IoCompletion.updateStatus hc) Bool.false_ne_true
        · exact h.loading b hold
  | send hio =>
      have hquiet := Pool.send_quiet hio
      exact h.carry (carries_of_io hquiet (Pool.send_spec hio).1) rfl id
        fun b hb => (Loading.liveLoad_quiet hquiet).mp hb
  | @release e l' _ hl ha =>
      have hreleased := h.release hrt hs hl
      have hsame : (m.releaseLayer rt l').routed = m.routed := sameRouting_releaseLayer.routed
      refine hreleased.carry ha.carries (hrouted.trans hsame.symm) (fun hst => ha.status ▸ hst)
        fun b hb => ?_
      rw [ha.io] at hb
      exact hb
  | recv hio =>
      have hquiet := Pool.recv_quiet hio
      exact h.carry (carries_of_io hquiet (Pool.recv_spec hio).1) rfl id
        fun b hb => (Loading.liveLoad_quiet hquiet).mp hb
  | pread hpread =>
      have hc := carries_of_pread hfull hpread
      obtain ⟨j, r, rs, _, io, -, -, -, hio, rfl⟩ := preadStep_spec hpread
      exact h.carry hc rfl id fun b hb => (Loading.liveLoad_quiet (Pool.work_quiet hio)).mp hb
  | finish hfinish =>
      have hc := carries_of_finish hfinish
      obtain ⟨j, io, -, -, hio, rfl⟩ := finishStep_spec hfinish
      exact h.carry hc rfl id fun b hb => (Loading.liveLoad_quiet (Pool.finish_quiet hio)).mp hb
  | fire hfire => exact h.fire hs hexperts hcov' hfire

/-- **What the router selected is kept by every step that was foreseen.** -/
theorem RouterKept.step (h : m.RouterKept rt l) (hrt : rt.Streams) (ho : m.Orderly rt)
    (hs : Loading.Sound m.loading) (hcov : m.Covered rt.config l)
    (hexperts : ∀ layout ∈ rt.config.expertLayouts l, layout.numExperts = rt.config.numExpertsTotal)
    {lab : Label} (hstep : m.step rt lab = some m') (hfull : m.fullRead lab)
    (hcov' : m'.Covered rt.config l) (hforeseen : m.foreseen rt l lab) : m'.RouterKept rt l := by
  cases routerStep hrt.enabled hstep with
  | same hsame =>
      exact h.standard hrt hs hexperts (standardStep hrt ho hstep) hsame.routed hfull hcov' hforeseen
  | token _ => exact .of_none rfl
  | router _ hl => exact h.router hcov hexperts hl hforeseen
  | speculate _ hspec =>
      obtain ⟨coAct, prev, ops, -, rfl⟩ := speculate_spec hspec
      exact h.standard hrt hs hexperts (standardStep hrt ho hstep) rfl hfull hcov' hforeseen

end RouterKept

/-! ### Every run -/

section Run
variable {rt : Runtime} {m : Machine} {gguf : GgufFile} {map : TensorMap} {sidecar : Option Sidecar}
  {numLayers : Nat} {nvmeLayers : Finset Nat}

/-- The condition of a run for layer `l`: reads succeed, no slice that a load of the layer
skips is still to be read, and the router's choices were foreseen. -/
def choicesForeseen (rt : Runtime) (l : Nat) (m : Machine) (lab : Label) : Bool :=
  m.fullRead lab && m.slicesLanded rt l lab && m.foreseen rt l lab

/-- **The selected experts are in memory when they are used**, in every run of standard
mode whose choices were foreseen: when the `ask` callback of a node of layer `l` returns
after the layer's router has run in the token, every slice that the router selected was
read since the layer was last released. -/
theorem routed_resident {coActivation : CoActivationMatrix} {expertPool : Option ExpertPool}
    {workers l : Nat} (hrt : rt.Streams) (hworkers : 0 < workers)
    (hconfig : rt.config = buildPrefetchState gguf map sidecar numLayers nvmeLayers)
    (hnames : (gguf.tensors.map (·.name)).Nodup) (hmap : Captured map)
    (hd : DistinctTypes (rt.config.expertLayouts l))
    (h : Reaches (Machine.step rt) (fun m lab => choicesForeseen rt l m lab)
      (start rt coActivation expertPool workers) m)
    (hasked : m.asked = some l) (hidle : m.Idle) {ids : List Nat} (hids : m.routed l = some ids) :
    ∀ layout ∈ rt.config.expertLayouts l, ∀ e ∈ ids, m.sliceRead l layout e = true := by
  have hok : ∀ m lab, choicesForeseen rt l m lab = true →
      m.fullRead lab = true ∧ m.slicesLanded rt l lab = true ∧ m.foreseen rt l lab = true := by
    intro m lab hc
    simp only [choicesForeseen, Bool.and_eq_true, and_assoc] at hc
    exact hc
  have hexperts : ∀ layout ∈ rt.config.expertLayouts l,
      layout.numExperts = rt.config.numExpertsTotal := by
    intro layout hm
    rw [hconfig] at hm ⊢
    obtain ⟨-, t, -, -, -, r, -, rfl⟩ := (mem_expertLayouts_iff hnames).mp hm
    rfl
  have hkept : m.Orderly rt ∧ Loading.Sound m.loading ∧ m.Covered rt.config l ∧
      m.RouterKept rt l := by
    refine h.invariant (P := fun m => m.Orderly rt ∧ Loading.Sound m.loading ∧
      m.Covered rt.config l ∧ m.RouterKept rt l) ?_ ?_
    · exact ⟨orderly_start coActivation expertPool hworkers, Loading.sound_start workers,
        covered_start coActivation expertPool workers, .of_none rfl⟩
    · intro m lab m' ⟨ho, hs, hcov, hk⟩ hc hstep
      obtain ⟨hfull, hlanded, hforeseen⟩ := hok m lab hc
      have heffect := standardStep hrt ho hstep
      have hcov' := hcov.step hrt hs hd heffect hfull hlanded
      exact ⟨ho.step hrt hstep, (heffect.move hrt).sound hs, hcov',
        hk.step hrt ho hs hcov hexperts hstep hfull hcov' hforeseen⟩
  obtain ⟨ho, -, -, hk⟩ := hkept
  intro layout hm
  have hregions : rt.config.layerRegions l ≠ [] := by
    rw [hconfig] at hm ⊢
    obtain ⟨-, t, ht, hlayer, -, r, hr, -⟩ := (mem_expertLayouts_iff hnames).mp hm
    exact List.ne_nil_of_mem ((mem_layerRegions hnames hmap).mpr ⟨t, ht, hlayer, hr⟩)
  exact hk.loaded (ho.loaded_of_idle hidle hasked hregions) ids hids layout hm

end Run

end Machine

/-! ### Two tokens of the model with two experts -/

theorem gateMap_captured : Captured gateMap :=
  ⟨by decide, by decide, by simp [gateMap, DisjointRanges]⟩

/-- The router of layer 0 selects expert 1. -/
def selectSecond : Event := .doneRouter ⟨2, 1, some [1, 0]⟩

/-- After a token in which the router of layer 0 selected expert 0, the layer is loaded for
the next one, its router runs, and its next node is asked for. -/
def nextToken (choice : Event) : List Label :=
  releaseFirst ++ [.event .token] ++ loadLayer 0 2 ++ [.event choice, .event (.ask 0), .thread]

/-- The same expert again: it is in memory. -/
theorem gate_routed_resident : ∃ m, exec (Machine.step gateRuntime)
    (Machine.choicesForeseen gateRuntime 0) gateStart (nextToken selectFirst) = some m ∧
      m.asked = some 0 ∧ m.Idle ∧ m.routed 0 = some [0] ∧
      ∀ layout ∈ gateRuntime.config.expertLayouts 0, ∀ e ∈ [0], m.sliceRead 0 layout e = true := by
  have hrun : (exec (Machine.step gateRuntime) (Machine.choicesForeseen gateRuntime 0) gateStart
      (nextToken selectFirst)).map (fun m => (m.asked, m.pending, m.await, m.routed 0)) =
        some (some 0, [], none, some [0]) := by decide +kernel
  obtain ⟨m, hm, heq⟩ := Option.map_eq_some_iff.mp hrun
  simp only [Prod.mk.injEq] at heq
  obtain ⟨hasked, hpending, hawait, hrouted⟩ := heq
  have htypes : DistinctTypes (gateRuntime.config.expertLayouts 0) := by decide +kernel
  exact ⟨m, hm, hasked, ⟨hpending, hawait⟩, hrouted,
    Machine.routed_resident gateRuntime_streams (by decide) rfl (by decide) gateMap_captured htypes
      (Reaches.exec (fun _ _ => id) .refl hm) hasked ⟨hpending, hawait⟩ hrouted⟩

/-- Another expert: the layer was loaded from the selection of the token before, and the
callback returns without the slice. -/
theorem gate_routed_missing : ∃ m, Reaches (Machine.step gateRuntime)
    (fun m lab => m.fullRead lab) gateStart m ∧ m.asked = some 0 ∧ m.Idle ∧
      ∃ ids, m.routed 0 = some ids ∧ ∃ layout ∈ gateRuntime.config.expertLayouts 0,
        ∃ e ∈ ids, m.sliceRead 0 layout e = false := by
  have hrun : (exec (Machine.step gateRuntime) Machine.fullRead gateStart
      (nextToken selectSecond)).map (fun m => (m.asked, m.pending, m.await, m.routed 0)) =
        some (some 0, [], none, some [1]) := by decide +kernel
  have hslice : (exec (Machine.step gateRuntime) Machine.fullRead gateStart
      (nextToken selectSecond)).map (fun m =>
        (gateRuntime.config.expertLayouts 0).any (fun layout => !m.sliceRead 0 layout 1)) =
        some true := by decide +kernel
  obtain ⟨m, hm, heq⟩ := Option.map_eq_some_iff.mp hrun
  simp only [Prod.mk.injEq] at heq
  obtain ⟨hasked, hpending, hawait, hrouted⟩ := heq
  rw [hm, Option.map_some, Option.some.injEq] at hslice
  obtain ⟨layout, hlayout, hnot⟩ := List.any_eq_true.mp hslice
  exact ⟨m, Reaches.exec (fun _ _ => id) .refl hm, hasked, ⟨hpending, hawait⟩, [1], hrouted,
    layout, hlayout, 1, List.mem_singleton_self _, by simpa using hnot⟩

end Hypura
