import Hypura.Compute.AllExperts
import Hypura.Compute.StandardMode

/-!
# Hypura.Compute.InFlight

Standard mode: tasks that are queued or executing write to different places.

`Separated` is what `build_prefetch_state` makes of a model whose tensors have buffer
ranges of their own: the regions of the layers lie apart, and so do the slices of the
experts. Two tasks of one submission then lie apart, and so do tasks of two layers. Tasks
of one layer from two submissions need not: the status guards the loads of a layer, the
neuron cache its slices, and nothing guards its other regions. They lie apart where the
second submission is `fresh`.
-/

namespace Hypura

open Hypura.Core Hypura.Core.Countdown Hypura.Rust

/-! ### Regions apart -/

/-- The two regions have no byte of the buffer in common. -/
def Region.Apart (r r' : Region) : Prop := DisjointRanges r.dst r.size r'.dst r'.size

/-- The region lies in `whole`. -/
def Region.Within (r whole : Region) : Prop :=
  whole.dst ≤ r.dst ∧ r.dst + r.size ≤ whole.dst + whole.size

theorem Region.Apart.symm {r r' : Region} (h : r.Apart r') : r'.Apart r := Or.symm h

theorem Region.Apart.within {r r' whole whole' : Region} (h : whole.Apart whole')
    (hr : r.Within whole) (hr' : r'.Within whole') : r.Apart r' := by
  unfold Region.Apart DisjointRanges Region.Within at *
  omega

theorem Region.Within.refl (r : Region) : r.Within r := ⟨le_rfl, le_rfl⟩

/-- Two lists of regions, all of the one apart from all of the other. -/
def RegionsApart (rs rs' : List Region) : Prop := ∀ r ∈ rs, ∀ r' ∈ rs', r.Apart r'

theorem RegionsApart.symm {rs rs' : List Region} (h : RegionsApart rs rs') : RegionsApart rs' rs :=
  fun r hr r' hr' => (h r' hr' r hr).symm

/-- Tasks that lie apart from each other. -/
def TasksApart (tasks : List (List Region)) : Prop := tasks.Pairwise RegionsApart

theorem tasksApart_of_flatten {tasks : List (List Region)}
    (h : tasks.flatten.Pairwise Region.Apart) : TasksApart tasks :=
  (List.pairwise_flatten.mp h).2

/-! ### The slices of one tensor -/

namespace ExpertLayout
variable (layout : ExpertLayout)

/-- Every expert has its place in the tensor. -/
def PlacesInside : Prop := ∀ e < layout.numExperts, layout.mapExpertId e < layout.numExperts

/-- Two slices are the same or lie apart. -/
theorem bufferRegion_eq_or_apart (e e' : Nat) :
    layout.bufferRegion e = layout.bufferRegion e' ∨
      (layout.bufferRegion e).Apart (layout.bufferRegion e') := by
  have hapart : ∀ {p p' : Nat}, p < p' →
      layout.bufferOffset + p * layout.expertStride + layout.expertStride ≤
        layout.bufferOffset + p' * layout.expertStride := by
    intro p p' hlt
    have hmul : (p + 1) * layout.expertStride ≤ p' * layout.expertStride :=
      Nat.mul_le_mul_right _ hlt
    rw [Nat.add_mul, Nat.one_mul] at hmul
    omega
  rcases Nat.lt_trichotomy (layout.mapExpertId e) (layout.mapExpertId e') with hlt | heq | hlt
  · exact .inr (.inl (hapart hlt))
  · refine .inl ?_
    simp only [bufferRegion, expertBufferOffset, expertFileOffset, heq]
  · exact .inr (.inr (hapart hlt))

variable {layout} in
theorem bufferRegion_within (hplaces : layout.PlacesInside)
    (hsize : layout.numExperts * layout.expertStride ≤ layout.totalSize) {e : Nat}
    (he : e < layout.numExperts) : (layout.bufferRegion e).Within layout.whole := by
  have hmul : (layout.mapExpertId e + 1) * layout.expertStride ≤
      layout.numExperts * layout.expertStride := Nat.mul_le_mul_right _ (hplaces e he)
  rw [Nat.add_mul, Nat.one_mul] at hmul
  constructor
  · show layout.bufferOffset ≤ layout.bufferOffset + layout.mapExpertId e * layout.expertStride
    omega
  · show layout.bufferOffset + layout.mapExpertId e * layout.expertStride + layout.expertStride ≤
      layout.bufferOffset + layout.totalSize
    omega

end ExpertLayout

/-! ### The places of the layers' data -/

/-- What a configuration says of the places of its layers' data. -/
structure Separated (cfg : PrefetchConfig) : Prop where
  /-- The regions of a layer lie apart. -/
  regions : ∀ l, (cfg.layerRegions l).Pairwise Region.Apart
  /-- And so do those of two layers. -/
  layers : ∀ l l', l ≠ l' → RegionsApart (cfg.layerRegions l) (cfg.layerRegions l')
  nonExpert : ∀ l, ∀ r ∈ cfg.nonExpertRegions l, r ∈ cfg.layerRegions l
  whole : ∀ l, ∀ layout ∈ cfg.expertLayouts l, layout.whole ∈ cfg.layerRegions l
  /-- The slices of a fused tensor lie in it. -/
  slice : ∀ l, ∀ layout ∈ cfg.expertLayouts l, ∀ e < layout.numExperts,
    (layout.bufferRegion e).Within layout.whole
  /-- The fused tensors lie apart from each other and from the other regions. -/
  layouts : ∀ l, (cfg.expertLayouts l).Pairwise fun x y => x.whole.Apart y.whole
  others : ∀ l, ∀ r ∈ cfg.nonExpertRegions l, ∀ layout ∈ cfg.expertLayouts l, r.Apart layout.whole

section Build
variable {gguf : GgufFile} {map : TensorMap} {sidecar : Option Sidecar} {numLayers : Nat}
  {nvmeLayers : Finset Nat}

/-- The entries of the map keep their places. -/
theorem pairwise_locateTensors (hmap : Captured map) :
    (locateTensors gguf map).Pairwise fun x y => x.2.region.Apart y.2.region := by
  have hplaces := locateTensors_map (f := fun entry => (entry.2.offsetInBuffer, entry.2.size))
    (fun _ _ _ _ => rfl) gguf map
  have hdisjoint : (map.map fun entry => (entry.2.offsetInBuffer, entry.2.size)).Pairwise
      fun x y => DisjointRanges x.1 x.2 y.1 y.2 := List.pairwise_map.mpr hmap.disjoint
  rw [← hplaces] at hdisjoint
  have h := List.pairwise_map.mp hdisjoint
  exact h

theorem pairwise_layerRegions (hmap : Captured map) (l : Nat) :
    ((buildPrefetchState gguf map sidecar numLayers nvmeLayers).layerRegions l).Pairwise
      Region.Apart := by
  have hsorted := List.perm_insertionSort (fun r r' : Region => r.fileOffset ≤ r'.fileOffset)
    (((locateTensors gguf map).filter fun entry => entry.2.layerIndex = some l).map (·.2.region))
  refine (hsorted.pairwise_iff fun h => h.symm).mpr (List.pairwise_map.mpr ?_)
  exact (pairwise_locateTensors hmap).filter _

/-- Layouts of two names lie apart. -/
theorem layouts_apart (hnames : (gguf.tensors.map (·.name)).Nodup) (hmap : Captured map) {l : Nat}
    {x y : ExpertLayout}
    (hx : x ∈ (buildPrefetchState gguf map sidecar numLayers nvmeLayers).expertLayouts l)
    (hy : y ∈ (buildPrefetchState gguf map sidecar numLayers nvmeLayers).expertLayouts l)
    (hne : x.tensorName ≠ y.tensorName) : x.whole.Apart y.whole := by
  obtain ⟨-, t, -, -, -, r, hr, rfl⟩ := (mem_expertLayouts_iff hnames).mp hx
  obtain ⟨-, t', -, -, -, r', hr', rfl⟩ := (mem_expertLayouts_iff hnames).mp hy
  have hname : t.name ≠ t'.name := hne
  exact hmap.disjointRanges hname hr hr'

theorem mem_nonExpert (hnames : (gguf.tensors.map (·.name)).Nodup) {l : Nat} {r : Region}
    (h : r ∈ (buildPrefetchState gguf map sidecar numLayers nvmeLayers).nonExpertRegions l) :
    ∃ t ∈ gguf.tensors, t.layerIndex = some l ∧
      TensorRole.fromName t.name ≠ .moeFusedExperts ∧ tensorRegion gguf map t = some r := by
  by_cases hnil :
      (buildPrefetchState gguf map sidecar numLayers nvmeLayers).expertLayouts l = []
  · have hnone : (buildPrefetchState gguf map sidecar numLayers nvmeLayers).nonExpertRegions l =
        [] := if_pos hnil
    rw [hnone] at h
    cases h
  · exact (mem_nonExpertRegions hnames hnil).mp h

/-- **A model whose tensors have buffer ranges of their own is separated**, if its sidecar
keeps every expert inside its tensor. -/
theorem separated_build (hnames : (gguf.tensors.map (·.name)).Nodup) (hmap : Captured map)
    (hplaces : ∀ l, ∀ layout ∈
      (buildPrefetchState gguf map sidecar numLayers nvmeLayers).expertLayouts l,
        layout.PlacesInside) :
    Separated (buildPrefetchState gguf map sidecar numLayers nvmeLayers) where
  regions := pairwise_layerRegions hmap
  layers l l' hl r hr r' hr' := by
    obtain ⟨t, ht, hlayer, hregion⟩ := (mem_layerRegions hnames hmap).mp hr
    obtain ⟨t', ht', hlayer', hregion'⟩ := (mem_layerRegions hnames hmap).mp hr'
    refine hmap.disjointRanges (fun hname => hl ?_) hregion hregion'
    have heq : t = t' := List.inj_on_of_nodup_map hnames ht ht' hname
    rw [heq, hlayer'] at hlayer
    exact (Option.some.inj hlayer).symm
  nonExpert l r hr := by
    obtain ⟨t, ht, hlayer, -, hregion⟩ := mem_nonExpert hnames hr
    exact (mem_layerRegions hnames hmap).mpr ⟨t, ht, hlayer, hregion⟩
  whole l layout hm := by
    obtain ⟨-, t, ht, hlayer, -, r, hregion, rfl⟩ := (mem_expertLayouts_iff hnames).mp hm
    exact (mem_layerRegions hnames hmap).mpr ⟨t, ht, hlayer, hregion⟩
  slice l layout hm e he := by
    refine ExpertLayout.bufferRegion_within (hplaces l layout hm) ?_ he
    obtain ⟨-, t, -, -, -, r, -, rfl⟩ := (mem_expertLayouts_iff hnames).mp hm
    exact Nat.mul_div_le _ _
  layouts l := by
    have hnodup : (((buildPrefetchState gguf map sidecar numLayers nvmeLayers).expertLayouts l).map
        (·.tensorName)).Nodup := nodup_expertLayouts_names hnames
    refine List.Pairwise.imp_of_mem (fun hx hy hne => ?_) (List.pairwise_map.mp hnodup)
    exact layouts_apart hnames hmap hx hy hne
  others l r hr layout hm := by
    obtain ⟨t, -, -, hrole, hregion⟩ := mem_nonExpert hnames hr
    obtain ⟨-, t', -, -, hrole', r', hregion', rfl⟩ := (mem_expertLayouts_iff hnames).mp hm
    have hname : t.name ≠ t'.name := fun heq => hrole (by rw [heq, hrole'])
    exact hmap.disjointRanges hname hregion hregion'

end Build

/-! ### The tasks of one submission -/

section Tasks
variable {cfg : PrefetchConfig} {cache : NeuronCache} {l : Nat} {ids : List Nat}

/-- Tasks of tensors that lie apart lie apart. -/
theorem tasksApart_expertTasks :
    ∀ {places : List (ExpertLayout × (Nat → Region))} {cache : NeuronCache},
      (∀ p ∈ places, ∀ e < p.1.numExperts, (p.2 e).Within p.1.whole) →
      places.Pairwise (fun x y => x.1.whole.Apart y.1.whole) →
      TasksApart (expertTasks l ids places cache).2
  | [], cache, _, _ => List.Pairwise.nil
  | (layout, place) :: rest, cache, hplaces, hapart => by
      obtain ⟨hfirst, hapart⟩ := List.pairwise_cons.mp hapart
      have hrest : TasksApart (expertTasks l ids rest (expertRegions l layout place ids cache).1).2 :=
        tasksApart_expertTasks (fun p hp => hplaces p (List.mem_cons_of_mem _ hp)) hapart
      rw [expertTasks]
      dsimp only
      split
      · exact hrest
      · refine List.pairwise_cons.mpr ⟨fun task htask r hr r' hr' => ?_, hrest⟩
        obtain ⟨e, -, he, rfl⟩ := mem_expertRegions hr
        obtain ⟨p, hp, e', -, he', rfl⟩ := mem_flatten_expertTasks
          (List.mem_flatten.mpr ⟨task, htask, hr'⟩)
        exact (hfirst p hp).within (hplaces _ List.mem_cons_self e he)
          (hplaces p (List.mem_cons_of_mem _ hp) e' he')

/-- The regions of a load by expert lie in regions of the layer. -/
theorem mem_planSlices {r : Region} (h : r ∈ (planSlices cfg cache l ids).tasks.flatten) :
    r ∈ cfg.nonExpertRegions l ∨
      ∃ layout ∈ cfg.expertLayouts l, ∃ e ∈ ids, e < layout.numExperts ∧ r = layout.bufferRegion e := by
  change r ∈ (nonExpertTask cfg l ++ _).flatten at h
  rw [List.flatten_append, flatten_nonExpertTask] at h
  refine (List.mem_append.mp h).imp_right fun hr => ?_
  obtain ⟨p, hp, e, he, hlt, rfl⟩ := mem_flatten_expertTasks hr
  obtain ⟨hm, hplace⟩ := mem_bufferPlaces.mp hp
  exact ⟨p.1, hm, e, he, hlt, by rw [hplace]⟩

theorem tasksApart_planSlices (hsep : Separated cfg) :
    TasksApart (planSlices cfg cache l ids).tasks := by
  have hplaces : ∀ p ∈ bufferPlaces cfg l, ∀ e < p.1.numExperts, (p.2 e).Within p.1.whole := by
    intro p hp e he
    obtain ⟨hm, hplace⟩ := mem_bufferPlaces.mp hp
    rw [hplace]
    exact hsep.slice l p.1 hm e he
  have hlayouts : (bufferPlaces cfg l).Pairwise fun x y => x.1.whole.Apart y.1.whole :=
    List.pairwise_map.mpr (hsep.layouts l)
  refine List.pairwise_append.mpr
    ⟨?_, tasksApart_expertTasks hplaces hlayouts, fun task htask task' htask' r hr r' hr' => ?_⟩
  · unfold nonExpertTask
    split
    · exact List.Pairwise.nil
    · exact List.pairwise_singleton _ _
  · have hother : r ∈ cfg.nonExpertRegions l := by
      rw [← flatten_nonExpertTask]
      exact List.mem_flatten.mpr ⟨task, htask, hr⟩
    obtain ⟨p, hp, e, -, he, rfl⟩ := mem_flatten_expertTasks
      (List.mem_flatten.mpr ⟨task', htask', hr'⟩)
    exact (hsep.others l r hother p.1 (mem_bufferPlaces.mp hp).1).within (.refl r) (hplaces p hp e he)

theorem tasksApart_planFull {rt : Runtime} (hsep : Separated rt.config) (m : Machine) :
    TasksApart (planFull rt m l).tasks :=
  tasksApart_of_flatten (flatten_planFull rt m l ▸ hsep.regions l)

end Tasks

/-! ### Slices found in the cache -/

/-- The slices a load by expert looks up, in order. -/
def sliceLookups (layouts : List ExpertLayout) (ids : List Nat) : List (ExpertLayout × Nat) :=
  layouts.flatMap fun layout => (ids.filter (· < layout.numExperts)).map fun e => (layout, e)

/-- Every slice that is `busy`, or whose tensor is, is in the cache when its turn comes. -/
def foundInTurn (l : Nat) (busy : Region → Bool) : List (ExpertLayout × Nat) → NeuronCache → Bool
  | [], _ => true
  | (layout, e) :: rest, cache =>
    (decide ((l, e, layout.tensorType) ∈ cache.entries) ||
      !(busy (layout.bufferRegion e) || busy layout.whole)) &&
    foundInTurn l busy rest (cache.lookOrMark (l, e, layout.tensorType))

section FoundInTurn
variable {l : Nat} {busy : Region → Bool}

/-- The slices of one tensor that are read are not busy; the lookups go on after them. -/
theorem idle_of_foundInTurn {layout : ExpertLayout} {rest : List (ExpertLayout × Nat)} :
    ∀ {ids : List Nat} {cache : NeuronCache},
      foundInTurn l busy (((ids.filter (· < layout.numExperts)).map fun e => (layout, e)) ++ rest)
        cache →
      (∀ r ∈ (expertRegions l layout layout.bufferRegion ids cache).2,
        busy r = false ∧ busy layout.whole = false) ∧
      foundInTurn l busy rest (expertRegions l layout layout.bufferRegion ids cache).1
  | [], cache, h => ⟨nofun, h⟩
  | e :: ids, cache, h => by
      by_cases he : e < layout.numExperts
      · rw [List.filter_cons_of_pos (by simpa using he)] at h
        obtain ⟨hhere, hlater⟩ := Bool.and_eq_true_iff.mp h
        obtain ⟨hrest, hnext⟩ := idle_of_foundInTurn hlater
        rw [expertRegions_cons he]
        refine ⟨fun r hr => ?_, hnext⟩
        dsimp only at hr
        split at hr
        · exact hrest r hr
        · next hmiss =>
            rcases List.mem_cons.mp hr with rfl | hr
            · simpa [hmiss] using hhere
            · exact hrest r hr
      · rw [List.filter_cons_of_neg (by simpa using he)] at h
        rw [expertRegions, if_pos (by omega)]
        exact idle_of_foundInTurn h

/-- So are those of all tensors of a layer. -/
theorem mem_expertTasks_of_foundInTurn {ids : List Nat} {r : Region} :
    ∀ {layouts : List ExpertLayout} {cache : NeuronCache},
      foundInTurn l busy (sliceLookups layouts ids) cache →
      r ∈ (expertTasks l ids (layouts.map fun layout => (layout, layout.bufferRegion))
        cache).2.flatten →
      ∃ layout ∈ layouts, ∃ e < layout.numExperts, r = layout.bufferRegion e ∧
        busy r = false ∧ busy layout.whole = false
  | [], cache, _, hr => by cases hr
  | layout :: layouts, cache, h, hr => by
      rw [sliceLookups, List.flatMap_cons] at h
      obtain ⟨hidle, hlater⟩ := idle_of_foundInTurn h
      rw [List.map_cons, flatten_expertTasks_cons] at hr
      rcases List.mem_append.mp hr with hr | hr
      · obtain ⟨e, -, he, hre⟩ := mem_expertRegions hr
        exact ⟨layout, List.mem_cons_self, e, he, hre, hidle r hr⟩
      · obtain ⟨layout', hm, hrest⟩ := mem_expertTasks_of_foundInTurn hlater hr
        exact ⟨layout', List.mem_cons_of_mem _ hm, hrest⟩

end FoundInTurn

/-! ### The condition on submissions -/

/-- The regions of the task, those done included. -/
def IoPoolTask.span (task : IoPoolTask) : List Region := task.done ++ task.regions

namespace Machine

/-- An unfinished task of `l` has region `r`. -/
def reads (m : Machine) (l : Nat) (r : Region) : Bool :=
  m.io.jobs.any fun j => decide (layerOf m.io j.batch = some l) && decide (r ∈ j.payload.span)

/-- The slices of `ids` can be requested: no unfinished task of `l` reads one of its other
regions, and of the slices to be read none is busy. -/
def freshSlices (rt : Runtime) (m : Machine) (l : Nat) (ids : List Nat) : Bool :=
  ((rt.config.nonExpertRegions l).all fun r => !m.reads l r) &&
  foundInTurn l (m.reads l) (sliceLookups (rt.config.expertLayouts l) ids) m.neuronCache

/-- No task of `l` is unfinished. -/
def freshLayer (m : Machine) (l : Nat) : Bool :=
  m.io.jobs.all fun j => decide (layerOf m.io j.batch ≠ some l)

/-- What the step submits is not being read. -/
def fresh (rt : Runtime) (m : Machine) : Label → Bool
  | .thread =>
    match m.pending with
    | .submitLayer l :: _ =>
      match m.selectedExperts l with
      | some ids =>
        if rt.config.expertLayouts l = [] then m.freshLayer l else m.freshSlices rt l ids
      | none => m.freshLayer l
    | .requestExperts l ids :: _ =>
      decide (rt.config.expertLayouts l = []) || m.freshSlices rt l ids
    | _ => true
  | _ => true

/-! ### The invariant -/

/-- A region of layer `l`, or a slice of one of its fused tensors. -/
def OfLayer (cfg : PrefetchConfig) (l : Nat) (r : Region) : Prop :=
  r ∈ cfg.layerRegions l ∨
    ∃ layout ∈ cfg.expertLayouts l, ∃ e < layout.numExperts, r = layout.bufferRegion e

structure InFlight (cfg : PrefetchConfig) (m : Machine) : Prop where
  /-- Every unfinished task reads into the buffer, and what it reads is its layer's. -/
  belongs : ∀ j ∈ m.io.jobs, j.payload.base = .buffer ∧
    ∃ l, layerOf m.io j.batch = some l ∧ ∀ r ∈ j.payload.span, OfLayer cfg l r
  /-- Two unfinished tasks lie apart. -/
  apart : m.io.jobs.Pairwise fun j j' => RegionsApart j.payload.span j'.payload.span

section InFlight
variable {rt : Runtime} {cfg : PrefetchConfig} {l : Nat} {m m' : Machine}

theorem OfLayer.within (hsep : Separated cfg) {r : Region} (h : OfLayer cfg l r) :
    ∃ whole ∈ cfg.layerRegions l, r.Within whole := by
  rcases h with hr | ⟨layout, hm, e, he, rfl⟩
  · exact ⟨r, hr, .refl r⟩
  · exact ⟨layout.whole, hsep.whole l layout hm, hsep.slice l layout hm e he⟩

/-- What two layers read lies apart. -/
theorem OfLayer.apart (hsep : Separated cfg) {l' : Nat} (hl : l ≠ l') {r r' : Region}
    (h : OfLayer cfg l r) (h' : OfLayer cfg l' r') : r.Apart r' := by
  obtain ⟨whole, hm, hr⟩ := h.within hsep
  obtain ⟨whole', hm', hr'⟩ := h'.within hsep
  exact (hsep.layers l l' hl whole hm whole' hm').within hr hr'

theorem regions_apart (hsep : Separated cfg) {r r' : Region} (hr : r ∈ cfg.layerRegions l)
    (hr' : r' ∈ cfg.layerRegions l) (hne : r ≠ r') : r.Apart r' := by
  have hsymm : Std.Symm Region.Apart := ⟨fun _ _ h => h.symm⟩
  exact List.Pairwise.forall (hsep.regions l) hr hr' hne

/-- Another region that no task reads lies apart from what they read. -/
theorem apart_of_nonExpert (hsep : Separated cfg) {r r' : Region}
    (hr : r ∈ cfg.nonExpertRegions l) (h' : OfLayer cfg l r') (hne : r ≠ r') : r.Apart r' := by
  rcases h' with hr' | ⟨layout, hm, e, he, rfl⟩
  · exact regions_apart hsep (hsep.nonExpert l r hr) hr' hne
  · exact (hsep.others l r hr layout hm).within (.refl r) (hsep.slice l layout hm e he)

/-- So does a slice, if no task reads it or its tensor. -/
theorem apart_of_slice (hsep : Separated cfg) {layout : ExpertLayout} {e : Nat} {r' : Region}
    (hm : layout ∈ cfg.expertLayouts l) (he : e < layout.numExperts) (h' : OfLayer cfg l r')
    (hne : layout.bufferRegion e ≠ r') (hwhole : layout.whole ≠ r') :
    (layout.bufferRegion e).Apart r' := by
  have hin := hsep.slice l layout hm e he
  rcases h' with hr' | ⟨layout', hm', e', he', rfl⟩
  · exact (regions_apart hsep (hsep.whole l layout hm) hr' hwhole).within hin (.refl r')
  · by_cases hlayout : layout = layout'
    · subst hlayout
      exact (layout.bufferRegion_eq_or_apart e e').resolve_left hne
    · have hsymm : Std.Symm fun x y : ExpertLayout => x.whole.Apart y.whole :=
        ⟨fun _ _ h => h.symm⟩
      have hapart := List.Pairwise.forall (hsep.layouts l) hm hm' hlayout
      exact hapart.within hin (hsep.slice l layout' hm' e' he')

theorem reads_of_mem {j : Job IoPoolTask} {r : Region} (hj : j ∈ m.io.jobs)
    (hl : layerOf m.io j.batch = some l) (hr : r ∈ j.payload.span) : m.reads l r = true :=
  List.any_eq_true.mpr ⟨j, hj, by simp [hl, hr]⟩

/-- What a fresh load by expert reads lies apart from what the unfinished tasks of its layer
read. -/
theorem apart_of_freshSlices (h : m.InFlight rt.config) (hsep : Separated rt.config)
    {ids : List Nat} (hfresh : m.freshSlices rt l ids) {j : Job IoPoolTask} (hj : j ∈ m.io.jobs)
    (hl : layerOf m.io j.batch = some l) {r r' : Region}
    (hr : r ∈ (planSlices rt.config m.neuronCache l ids).tasks.flatten)
    (hr' : r' ∈ j.payload.span) : r.Apart r' := by
  obtain ⟨hothers, hslices⟩ := Bool.and_eq_true_iff.mp hfresh
  obtain ⟨-, l', hl', hall⟩ := h.belongs j hj
  rw [hl] at hl'
  cases hl'
  have hreads := reads_of_mem hj hl hr'
  have hidle : ∀ {x : Region}, m.reads l x = false → x ≠ r' := by
    intro x hx heq
    rw [heq, hreads] at hx
    cases hx
  change r ∈ (nonExpertTask rt.config l ++ _).flatten at hr
  rw [List.flatten_append, flatten_nonExpertTask] at hr
  rcases List.mem_append.mp hr with hr | hr
  · have hnot : m.reads l r = false := by simpa using List.all_eq_true.mp hothers r hr
    exact apart_of_nonExpert hsep hr (hall r' hr') (hidle hnot)
  · obtain ⟨layout, hm, e, he, rfl, hslice, hwhole⟩ := mem_expertTasks_of_foundInTurn hslices hr
    exact apart_of_slice hsep hm he (hall r' hr') (hidle hslice) (hidle hwhole)

/-! ### Steps -/

/-- Tasks are moved about. -/
theorem InFlight.of_perm (h : m.InFlight cfg) (hjobs : m'.io.jobs.Perm m.io.jobs)
    (hlayer : ∀ b, layerOf m'.io b = layerOf m.io b) : m'.InFlight cfg where
  belongs j hj := by
    rw [hlayer]
    exact h.belongs j (hjobs.mem_iff.mp hj)
  apart := (hjobs.pairwise_iff fun h => h.symm).mpr h.apart

/-- Tasks are submitted. -/
theorem InFlight.opened (h : m.InFlight cfg) (hsep : Separated cfg) {c : IoCompletion}
    {tasks : List (List Region)}
    (hio : m'.io = m.io.openBatch c (tasks.map (⟨·, .buffer, []⟩)))
    (htasks : TasksApart tasks) (hlayer : ∀ r ∈ tasks.flatten, OfLayer cfg c.layerIdx r)
    (hfresh : ∀ j ∈ m.io.jobs, layerOf m.io j.batch = some c.layerIdx →
      ∀ r ∈ tasks.flatten, ∀ r' ∈ j.payload.span, r.Apart r') : m'.InFlight cfg := by
  have hjobs := Pool.jobs_openBatch m.io c (tasks.map fun rs => (⟨rs, .buffer, []⟩ : IoPoolTask))
  rw [← hio] at hjobs
  have hold : ∀ j ∈ m.io.jobs, layerOf m'.io j.batch = layerOf m.io j.batch := by
    intro j hj
    obtain ⟨-, l, hl, -⟩ := h.belongs j hj
    obtain ⟨tag, htag, -⟩ := Option.map_eq_some_iff.mp hl
    have hlt := Pool.lt_of_tag? htag
    rw [layerOf, layerOf, hio, Pool.tag?_openBatch, if_neg (by omega)]
  have hnew : layerOf m'.io m.io.batches.length = some c.layerIdx := by
    rw [layerOf, hio, Pool.tag?_openBatch, if_pos rfl]
    rfl
  constructor
  · intro j hj
    rcases List.mem_append.mp (hjobs.mem_iff.mp hj) with hj | hj
    · obtain ⟨task, htask, rfl⟩ := List.mem_map.mp hj
      obtain ⟨rs, hrs, rfl⟩ := List.mem_map.mp htask
      exact ⟨rfl, c.layerIdx, hnew, fun r hr => hlayer r (List.mem_flatten.mpr ⟨rs, hrs, hr⟩)⟩
    · rw [hold j hj]
      exact h.belongs j hj
  · refine (hjobs.pairwise_iff fun h => h.symm).mpr (List.pairwise_append.mpr ⟨?_, h.apart, ?_⟩)
    · rw [List.map_map]
      exact List.pairwise_map.mpr htasks
    · intro j hj j' hj' r hr r' hr'
      rw [List.map_map] at hj
      obtain ⟨rs, hrs, rfl⟩ := List.mem_map.mp hj
      have hr : r ∈ tasks.flatten := List.mem_flatten.mpr ⟨rs, hrs, hr⟩
      obtain ⟨-, l, hl, hall⟩ := h.belongs j' hj'
      by_cases heq : c.layerIdx = l
      · exact hfresh j' hj' (heq ▸ hl) r hr r' hr'
      · exact (hlayer r hr).apart hsep heq (hall r' hr')

/-- A load by expert is submitted, for a load of the layer or ahead of it. -/
theorem InFlight.slices (h : m.InFlight rt.config) (hsep : Separated rt.config) {u : Bool}
    {ids : List Nat} (hfresh : m.freshSlices rt l ids)
    (hio : m'.io = m.io.openBatch ⟨l, u⟩
      ((planSlices rt.config m.neuronCache l ids).tasks.map (⟨·, .buffer, []⟩))) :
    m'.InFlight rt.config := by
  refine h.opened hsep hio (tasksApart_planSlices hsep) (fun r hr => ?_)
    fun j hj hl r hr r' hr' => apart_of_freshSlices h hsep hfresh hj hl hr hr'
  rcases mem_planSlices hr with hr | ⟨layout, hm, e, -, he, hre⟩
  · exact .inl (hsep.nonExpert l r hr)
  · exact .inr ⟨layout, hm, e, he, hre⟩

/-- A full load is submitted. -/
theorem InFlight.full (h : m.InFlight rt.config) (hsep : Separated rt.config) {u : Bool}
    (hfresh : m.freshLayer l) (hio : m'.io = m.io.openBatch ⟨l, u⟩
      ((planFull rt m l).tasks.map (⟨·, .buffer, []⟩))) : m'.InFlight rt.config := by
  refine h.opened hsep hio (tasksApart_planFull hsep m) (fun r hr => .inl ?_)
    fun j hj hl => absurd hl ?_
  · rwa [flatten_planFull] at hr
  · simpa using List.all_eq_true.mp hfresh j hj

theorem InFlight.submit (h : m.InFlight rt.config) (hrt : rt.Streams) (hsep : Separated rt.config)
    {ops : List Op} (hpending : m.pending = .submitLayer l :: ops)
    (hfresh : m.fresh rt .thread) :
    ({ m with pending := ops }.submitLayerLoad rt l).InFlight rt.config := by
  simp only [fresh, hpending] at hfresh
  rcases submitLayerLoad_cases (m := { m with pending := ops }) hrt l with ⟨-, heq⟩ | ⟨-, heq⟩
  · rw [heq]
    exact h.of_perm (.refl _) fun _ => rfl
  · rw [heq]
    rcases planLayer_cases rt m l with ⟨ids, hsel, hplan⟩ | ⟨hnone, hplan⟩
    · by_cases hnil : rt.config.expertLayouts l = []
      · have hfull : planLayer rt m l = planFull rt m l := by
          rw [planLayer, hsel]
          exact if_pos hnil
        rw [hsel] at hfresh
        simp only [if_pos hnil] at hfresh
        exact h.full hsep (u := true) hfresh (by rw [← hfull]; rfl)
      · rw [hsel] at hfresh
        simp only [if_neg hnil] at hfresh
        exact h.slices hsep (u := true) hfresh (by rw [← hplan]; rfl)
    · have hfree : m.freshLayer l := by
        rcases hnone with hsel | hnil
        · simpa [hsel] using hfresh
        · cases hsel : m.selectedExperts l <;> simpa [hsel, hnil] using hfresh
      exact h.full hsep (u := true) hfree (by rw [← hplan]; rfl)

theorem InFlight.request (h : m.InFlight rt.config) (hrt : rt.Streams)
    (hsep : Separated rt.config) {ids : List Nat} {ops : List Op}
    (hpending : m.pending = .requestExperts l ids :: ops) (hfresh : m.fresh rt .thread) :
    ({ m with pending := ops }.submitExpertLoad rt l ids).InFlight rt.config := by
  simp only [fresh, hpending] at hfresh
  rcases submitExpertLoad_cases (m := { m with pending := ops }) hrt l ids with
    ⟨-, heq⟩ | ⟨-, heq⟩ | ⟨hlayouts, -, heq⟩
  · rw [heq]
    exact h.of_perm (.refl _) fun _ => rfl
  · rw [heq]
    exact h.of_perm (.refl _) fun _ => rfl
  · rw [heq]
    have hslices : m.freshSlices rt l ids := by simpa [hlayouts] using hfresh
    exact h.slices hsep (u := false) hslices rfl

/-- A `pread` leaves the regions of its task as they are. -/
theorem InFlight.pread (h : m.InFlight cfg) {w count : Nat}
    (hpread : m.preadStep rt w count = some m') : m'.InFlight cfg := by
  obtain ⟨j, r, rs, _, io, hw, hregions, -, hio, rfl⟩ := preadStep_spec hpread
  obtain ⟨j', rest, hw', hjobs, hjobs', -, -, -, -, -⟩ := Pool.work_spec hio
  have hjj : j' = j := by
    rw [hw] at hw'
    exact (Worker.busy.inj (Option.some.inj hw')).symm
  subst hjj
  have hlayer : ∀ b, layerOf io b = layerOf m.io b := fun b =>
    layerOf_of_tag?_eq ((Pool.work_quiet hio).tag?_eq b)
  have hspan : ∀ x, x ∈ ({ j'.payload with regions := rs, done := r :: j'.payload.done } :
      IoPoolTask).span ↔ x ∈ j'.payload.span := by
    intro x
    simp only [IoPoolTask.span, hregions, List.mem_append, List.mem_cons]
    tauto
  have hj : j' ∈ m.io.jobs := hjobs.mem_iff.mpr List.mem_cons_self
  have hapart := (hjobs.pairwise_iff fun h => h.symm).mp h.apart
  obtain ⟨hfirst, hrest⟩ := List.pairwise_cons.mp hapart
  constructor
  · intro j₁ hj₁
    show j₁.payload.base = .buffer ∧ ∃ l, layerOf io j₁.batch = some l ∧ _
    rw [hlayer]
    rcases List.mem_cons.mp (hjobs'.mem_iff.mp hj₁) with rfl | hin
    · obtain ⟨hbase, l, hl, hall⟩ := h.belongs j' hj
      exact ⟨hbase, l, hl, fun x hx => hall x ((hspan x).mp hx)⟩
    · exact h.belongs j₁ (hjobs.mem_iff.mpr (List.mem_cons_of_mem _ hin))
  · refine (hjobs'.pairwise_iff fun h => h.symm).mpr (List.pairwise_cons.mpr ⟨?_, hrest⟩)
    exact fun j₁ hj₁ x hx => hfirst j₁ hj₁ x ((hspan x).mp hx)

theorem InFlight.finish (h : m.InFlight cfg) {w : Nat} (hfinish : m.finishStep w = some m') :
    m'.InFlight cfg := by
  obtain ⟨j, io, -, -, hio, rfl⟩ := finishStep_spec hfinish
  obtain ⟨j', x, -, -, hjobs, -, -, -, -, -⟩ := Pool.finish_spec hio
  have hapart := (hjobs.pairwise_iff fun h => h.symm).mp h.apart
  refine ⟨fun j₁ hj₁ => ?_, (List.pairwise_cons.mp hapart).2⟩
  show j₁.payload.base = .buffer ∧ ∃ l, layerOf io j₁.batch = some l ∧ _
  rw [layerOf_of_tag?_eq ((Pool.finish_quiet hio).tag?_eq j₁.batch)]
  exact h.belongs j₁ (hjobs.mem_iff.mpr (List.mem_cons_of_mem _ hj₁))

/-- **Every fresh step keeps the unfinished tasks apart.** -/
theorem InFlight.step (h : m.InFlight rt.config) (hrt : rt.Streams) (hsep : Separated rt.config)
    {lab : Label} (hstep : StandardStep rt m lab m') (hfresh : m.fresh rt lab) :
    m'.InFlight rt.config := by
  have hagrees : ∀ {x y : Machine}, x.Agrees y → x.InFlight rt.config → y.InFlight rt.config :=
    fun ha hx => hx.of_perm (.of_eq (by rw [ha.io])) fun b => by rw [ha.io]
  cases hstep with
  | rest ha => exact hagrees ha h
  | announce _ _ ha => exact hagrees ha (h.of_perm (.refl _) fun _ => rfl)
  | submit hpending _ => exact h.submit hrt hsep hpending hfresh
  | request hpending _ => exact h.request hrt hsep hpending hfresh
  | send hio =>
      exact h.of_perm (Pool.send_spec hio).1 fun b =>
        layerOf_of_tag?_eq ((Pool.send_quiet hio).tag?_eq b)
  | @release e l' _ _ ha =>
      refine hagrees ha ?_
      rcases releaseLayer_cases (m := m) hrt l' with ⟨-, heq⟩ | ⟨-, heq⟩
      · rw [heq]
        exact h
      · rw [heq]
        exact h.of_perm (.refl _) fun _ => rfl
  | recv hio =>
      exact h.of_perm (Pool.recv_spec hio).1 fun b =>
        layerOf_of_tag?_eq ((Pool.recv_quiet hio).tag?_eq b)
  | pread hpread => exact h.pread hpread
  | finish hfinish => exact h.finish hfinish
  | fire hfire =>
      obtain ⟨b, tag, io, -, -, hio, rfl⟩ := fireStep_spec hfire
      obtain ⟨-, -, hjobs, hbatches, -, -, -, -⟩ := Pool.fire_spec hio
      have hfired : ∀ m'' : Machine, m''.io = io → m''.InFlight rt.config := fun m'' hio'' =>
        h.of_perm (hio'' ▸ hjobs) fun b => by
          rw [hio'']
          exact layerOf_of_tag?_eq (Pool.tag?_of_batches hbatches b)
      split
      · exact hfired _ rfl
      · exact hfired _ rfl

theorem inFlight_start {coActivation : CoActivationMatrix} {expertPool : Option ExpertPool}
    {workers : Nat} : (start rt coActivation expertPool workers).InFlight cfg := by
  have hjobs : (start rt coActivation expertPool workers).io.jobs = [] := by
    simp [start, Pool.jobs, Pool.start, Worker.job?]
  refine ⟨fun j hj => ?_, ?_⟩
  · rw [hjobs] at hj
    cases hj
  · rw [hjobs]
    exact List.Pairwise.nil

/-- **Tasks in flight never overlap in a run of fresh submissions**, whatever the reads
return: a model whose captured tensors have buffer ranges of their own, and no expert
outside its tensor. -/
theorem inFlight_apart {gguf : GgufFile} {map : TensorMap} {sidecar : Option Sidecar}
    {numLayers : Nat} {nvmeLayers : Finset Nat} {coActivation : CoActivationMatrix}
    {expertPool : Option ExpertPool} {workers : Nat} (hrt : rt.Streams) (hworkers : 0 < workers)
    (hcfg : rt.config = buildPrefetchState gguf map sidecar numLayers nvmeLayers)
    (hnames : (gguf.tensors.map (·.name)).Nodup) (hmap : Captured map)
    (hplaces : ∀ l, ∀ layout ∈ rt.config.expertLayouts l, layout.PlacesInside)
    (h : Reaches (Machine.step rt) (fun m lab => m.fresh rt lab)
      (start rt coActivation expertPool workers) m) :
    m.io.jobs.Pairwise fun j j' => RegionsApart j.payload.span j'.payload.span := by
  have hsep : Separated rt.config := by
    rw [hcfg] at hplaces ⊢
    exact separated_build hnames hmap hplaces
  have hinv : m.Orderly rt ∧ m.InFlight rt.config := by
    refine h.invariant (P := fun m => m.Orderly rt ∧ m.InFlight rt.config) ?_ ?_
    · exact ⟨orderly_start coActivation expertPool hworkers, inFlight_start⟩
    · intro m lab m' ⟨ho, hin⟩ hfresh hstep
      exact ⟨ho.step hrt hstep, hin.step hrt hsep (standardStep hrt ho hstep) hfresh⟩
  exact hinv.2.apart

end InFlight

end Machine

/-! ### Three layers: a norm, a fused expert tensor, and both -/

/-- Two experts of two bytes in layers 1 and 2. -/
def pairGguf : GgufFile where
  version := 3
  metadata := fun key =>
    if key = "general.architecture" then some (.string "llama")
    else if key = "llama.expert_count" then some (.uint32 2)
    else if key = "llama.expert_used_count" then some (.uint32 1)
    else none
  tensors :=
    [⟨"blk.0.attn_norm.weight", [4], .i8, 0, 4, some 0⟩,
      ⟨"blk.1.ffn_gate_exps.weight", [4], .i8, 32, 4, some 1⟩,
      ⟨"blk.2.attn_norm.weight", [4], .i8, 64, 4, some 2⟩,
      ⟨"blk.2.ffn_gate_exps.weight", [4], .i8, 96, 4, some 2⟩]
  dataOffset := 128

def pairMap : TensorMap :=
  [("blk.0.attn_norm.weight", ⟨0, 4, 0, none⟩), ("blk.1.ffn_gate_exps.weight", ⟨32, 4, 0, none⟩),
    ("blk.2.attn_norm.weight", ⟨64, 4, 0, none⟩), ("blk.2.ffn_gate_exps.weight", ⟨96, 4, 0, none⟩)]

/-- Layer 2 streams from NVMe. -/
def pairRuntime : Runtime :=
  { gateRuntime with config := buildPrefetchState pairGguf pairMap none 3 {2} }

def pairStart : Machine := .start pairRuntime (.new 3 2) none 1

/-- A node of layer `l`, which is loaded. -/
def computeLayer (l : Nat) : List Label := [.event (.ask l), .thread, .event (.done 0)]

/-- The first pass: every layer is loaded, and the router of layer 1 selects expert 0. -/
def firstPass : List Label :=
  loadLayer 0 4 ++ [.event (.done 0)] ++ loadLayer 1 4 ++ [.event (.done 0), .thread] ++
    [.event (.ask 1), .thread, .event selectFirst] ++
    [.event (.ask 2), .thread, .thread, .thread, .thread, .recv 0, .pread 0 4, .pread 0 4,
      .finish 0, .fire 0, .thread, .event (.done 0), .thread, .event .token]

/-- A later pass up to layer 1, whose selection has the slices of layer 2 requested. -/
def nextPass (tasks : Nat) : List Label :=
  computeLayer 0 ++ computeLayer 1 ++ List.replicate (tasks + 3) .thread

/-- The rest of it, while the worker does nothing. -/
def restOfPass : List Label := computeLayer 2 ++ [.thread, .event .token]

theorem captured_pair : Captured pairMap :=
  ⟨by decide, by decide, by simp [pairMap, DisjointRanges]⟩

/-- The slices requested in the second pass are in flight, apart from each other. -/
theorem pair_inFlight_apart : ∃ m, exec (Machine.step pairRuntime) (Machine.fresh pairRuntime)
    pairStart (firstPass ++ nextPass 2) = some m ∧ m.io.jobs.length = 2 ∧
      m.io.jobs.Pairwise fun j j' => RegionsApart j.payload.span j'.payload.span := by
  have hrun : (exec (Machine.step pairRuntime) (Machine.fresh pairRuntime) pairStart
      (firstPass ++ nextPass 2)).map (fun m => m.io.jobs.length) = some 2 := by decide +kernel
  obtain ⟨m, hm, hjobs⟩ := Option.map_eq_some_iff.mp hrun
  have hplaces : ∀ l, ∀ layout ∈ pairRuntime.config.expertLayouts l, layout.PlacesInside := by
    intro l layout hmem e he
    obtain ⟨-, t, -, -, -, r, -, rfl⟩ := (mem_expertLayouts_iff (by decide)).mp hmem
    exact he
  exact ⟨m, hm, hjobs, Machine.inFlight_apart ⟨⟨rfl, rfl⟩, rfl, rfl, rfl⟩ (by decide) rfl
    (by decide) captured_pair hplaces (Reaches.exec (fun _ _ => id) .refl hm)⟩

/-- If the worker has not come to them by the third pass, the norm of layer 2 is requested
again: two tasks that write to the same place are queued. -/
theorem pair_inFlight_overlap : (pairGguf.tensors.map (·.name)).Nodup ∧ Captured pairMap ∧
    ∃ m, Reaches (Machine.step pairRuntime) (fun _ _ => True) pairStart m ∧ m.io.unsent = [] ∧
      ¬ m.io.jobs.Pairwise fun j j' => RegionsApart j.payload.span j'.payload.span := by
  have hrun : (exec (Machine.step pairRuntime) (fun _ _ => true) pairStart
      (firstPass ++ nextPass 2 ++ restOfPass ++ nextPass 1)).map
      (fun m => (m.io.unsent, m.io.jobs.map (·.payload.span))) =
        some ([], [[⟨64, 4, 192⟩], [⟨96, 2, 224⟩], [⟨64, 4, 192⟩]]) := by decide +kernel
  obtain ⟨m, hm, heq⟩ := Option.map_eq_some_iff.mp hrun
  obtain ⟨hsent, hspans⟩ := Prod.mk.inj heq
  refine ⟨by decide, captured_pair, m, Reaches.exec (fun _ _ _ => trivial) .refl hm, hsent,
    fun hapart => ?_⟩
  have hspans' : (m.io.jobs.map (·.payload.span)).Pairwise RegionsApart :=
    List.pairwise_map.mpr hapart
  rw [hspans] at hspans'
  have htwice := (List.pairwise_cons.mp hspans').1 [⟨64, 4, 192⟩] (by simp)
  have hself := htwice ⟨64, 4, 192⟩ (by simp) ⟨64, 4, 192⟩ (by simp)
  rcases hself with hbefore | hafter
  · exact absurd hbefore (by decide)
  · exact absurd hafter (by decide)

end Hypura
