import Hypura.Compute.PrefetchState

/-!
# Hypura.Compute.Plan

What the task builders of `PrefetchState` put into their tasks.

The loop over the fused tensors of a layer and the selected experts asks the neuron cache
for each slice. So every slice asked for is in a task **or** was a hit, and the slices
newly marked are all in a task. The first half needs the fused tensors of the layer to
have different cache types: two of one type share their keys, and marking the slices of
one makes those of the other hits.
-/

namespace Hypura

open Hypura.Core.Countdown Hypura.Rust

/-- The fused tensors of the layer have pairwise different cache types. -/
def DistinctTypes (layouts : List ExpertLayout) : Prop :=
  layouts.Pairwise fun layout layout' => layout.tensorType ≠ layout'.tensorType

instance (layouts : List ExpertLayout) : Decidable (DistinctTypes layouts) :=
  inferInstanceAs (Decidable (List.Pairwise _ _))

theorem DistinctTypes.eq_of_tensorType {layouts : List ExpertLayout} (h : DistinctTypes layouts)
    {layout layout' : ExpertLayout} (hm : layout ∈ layouts) (hm' : layout' ∈ layouts)
    (ht : layout.tensorType = layout'.tensorType) : layout = layout' := by
  by_contra hne
  have hsymm : Std.Symm fun x y : ExpertLayout => x.tensorType ≠ y.tensorType :=
    ⟨fun _ _ hxy => hxy.symm⟩
  exact List.Pairwise.forall h hm hm' hne ht

/-! ### One fused tensor -/

section ExpertRegions
variable {l : Nat} {layout : ExpertLayout} {place : Nat → Region}

/-- Only slices put into the task are newly marked. -/
theorem mem_expertRegions_entries {key : CacheKey} :
    ∀ {ids : List Nat} {cache : NeuronCache},
      key ∈ (expertRegions l layout place ids cache).1.entries →
      key ∈ cache.entries ∨ ∃ e ∈ ids, e < layout.numExperts ∧
        key = (l, e, layout.tensorType) ∧ place e ∈ (expertRegions l layout place ids cache).2
  | [], cache, h => .inl h
  | eid :: ids, cache, h => by
      rw [expertRegions] at h ⊢
      split
      · next hout =>
          rw [if_pos hout] at h
          rcases mem_expertRegions_entries h with hk | ⟨e, he, hlt, hkey, hr⟩
          · exact .inl hk
          · exact .inr ⟨e, List.mem_cons_of_mem _ he, hlt, hkey, hr⟩
      · next hin =>
          rw [if_neg hin] at h
          dsimp only at h ⊢
          split
          · next hhit =>
              rw [if_pos hhit] at h
              rcases mem_expertRegions_entries h with hk | ⟨e, he, hlt, hkey, hr⟩
              · exact .inl (NeuronCache.isLoaded_entries _ _ ▸ hk)
              · exact .inr ⟨e, List.mem_cons_of_mem _ he, hlt, hkey, hr⟩
          · next hmiss =>
              rw [if_neg hmiss] at h
              rcases mem_expertRegions_entries h with hk | ⟨e, he, hlt, hkey, hr⟩
              · -- marked just now, or there before
                rcases List.mem_cons.mp (NeuronCache.markLoaded_entries_subset _ _ hk) with rfl | hk
                · exact .inr ⟨eid, List.mem_cons_self, by omega, rfl, List.mem_cons_self⟩
                · exact .inl (NeuronCache.isLoaded_entries _ _ ▸ hk)
              · exact .inr ⟨e, List.mem_cons_of_mem _ he, hlt, hkey, List.mem_cons_of_mem _ hr⟩

/-- Every expert asked for is in the task, or was taken to be loaded. -/
theorem expertRegions_complete {e : Nat} (hlt : e < layout.numExperts) :
    ∀ {ids : List Nat} {cache : NeuronCache}, e ∈ ids →
      place e ∈ (expertRegions l layout place ids cache).2 ∨
        (l, e, layout.tensorType) ∈ cache.entries
  | eid :: ids, cache, he => by
      rw [expertRegions]
      rcases List.mem_cons.mp he with rfl | he
      · rw [if_neg (by omega)]
        dsimp only
        split
        · next hhit => exact .inr (by simpa using hhit)
        · exact .inl List.mem_cons_self
      · split
        · exact expertRegions_complete hlt he
        · dsimp only
          split
          · exact (expertRegions_complete hlt he).imp_right fun hk =>
              NeuronCache.isLoaded_entries _ _ ▸ hk
          · rcases expertRegions_complete hlt he with hr | hk
            · exact .inl (List.mem_cons_of_mem _ hr)
            · rcases List.mem_cons.mp (NeuronCache.markLoaded_entries_subset _ _ hk) with heq | hk
              · -- `e` occurs twice, and its first occurrence was read
                have hee : e = eid := congrArg (fun key => key.2.1) heq
                exact .inl (hee ▸ List.mem_cons_self)
              · exact .inr (NeuronCache.isLoaded_entries _ _ ▸ hk)

/-- Nothing else is in the task. -/
theorem mem_expertRegions {r : Region} :
    ∀ {ids : List Nat} {cache : NeuronCache}, r ∈ (expertRegions l layout place ids cache).2 →
      ∃ e ∈ ids, e < layout.numExperts ∧ r = place e
  | [], cache, h => by cases h
  | eid :: ids, cache, h => by
      have hrest : ∀ {c : NeuronCache}, r ∈ (expertRegions l layout place ids c).2 →
          ∃ e ∈ eid :: ids, e < layout.numExperts ∧ r = place e := by
        intro c hr
        obtain ⟨e, he, hlt, hre⟩ := mem_expertRegions hr
        exact ⟨e, List.mem_cons_of_mem _ he, hlt, hre⟩
      rw [expertRegions] at h
      split at h
      · exact hrest h
      · dsimp only at h
        split at h
        · exact hrest h
        · rcases List.mem_cons.mp h with rfl | hr
          · exact ⟨eid, List.mem_cons_self, by omega, rfl⟩
          · exact hrest hr

end ExpertRegions

/-! ### All fused tensors of a layer -/

section ExpertTasks
variable {l : Nat} {ids : List Nat}

/-- The regions of the tasks: those of the first tensor, then those of the others. -/
theorem flatten_expertTasks_cons (layout : ExpertLayout) (place : Nat → Region)
    (rest : List (ExpertLayout × (Nat → Region))) (cache : NeuronCache) :
    (expertTasks l ids ((layout, place) :: rest) cache).2.flatten =
      (expertRegions l layout place ids cache).2 ++
        (expertTasks l ids rest (expertRegions l layout place ids cache).1).2.flatten := by
  rw [expertTasks]
  dsimp only
  split
  · next hnil => rw [hnil, List.nil_append]
  · rw [List.flatten_cons]

/-- Only slices put into a task are newly marked. -/
theorem mem_expertTasks_entries {key : CacheKey} :
    ∀ {places : List (ExpertLayout × (Nat → Region))} {cache : NeuronCache},
      key ∈ (expertTasks l ids places cache).1.entries →
      key ∈ cache.entries ∨ ∃ p ∈ places, ∃ e ∈ ids, e < p.1.numExperts ∧
        key = (l, e, p.1.tensorType) ∧ p.2 e ∈ (expertTasks l ids places cache).2.flatten
  | [], cache, h => .inl h
  | (layout, place) :: rest, cache, h => by
      rw [flatten_expertTasks_cons]
      have hrest : key ∈ (expertTasks l ids rest
        (expertRegions l layout place ids cache).1).1.entries := h
      rcases mem_expertTasks_entries hrest with hk | ⟨p, hp, e, he, hlt, hkey, hr⟩
      · rcases mem_expertRegions_entries hk with hk | ⟨e, he, hlt, hkey, hr⟩
        · exact .inl hk
        · exact .inr ⟨(layout, place), List.mem_cons_self, e, he, hlt, hkey,
            List.mem_append_left _ hr⟩
      · exact .inr ⟨p, List.mem_cons_of_mem _ hp, e, he, hlt, hkey, List.mem_append_right _ hr⟩

/-- **Every slice asked for is in a task or was a hit.** -/
theorem expertTasks_complete :
    ∀ {places : List (ExpertLayout × (Nat → Region))} {cache : NeuronCache},
      DistinctTypes (places.map Prod.fst) → ∀ p ∈ places, ∀ e ∈ ids, e < p.1.numExperts →
      p.2 e ∈ (expertTasks l ids places cache).2.flatten ∨
        (l, e, p.1.tensorType) ∈ cache.entries
  | [], cache, _, p, hp => by cases hp
  | (layout, place) :: rest, cache, hd, p, hp => by
      intro e he hlt
      obtain ⟨hfirst, hd⟩ := List.pairwise_cons.mp hd
      rw [flatten_expertTasks_cons]
      rcases List.mem_cons.mp hp with rfl | hp
      · exact (expertRegions_complete hlt he).imp_left (List.mem_append_left _)
      · rcases expertTasks_complete hd p hp e he hlt with hr | hk
        · exact .inl (List.mem_append_right _ hr)
        · rcases mem_expertRegions_entries hk with hk | ⟨e', -, -, hkey, -⟩
          · exact .inr hk
          · -- a key of the first tensor is no key of a later one
            have htype : p.1.tensorType = layout.tensorType := congrArg (fun key => key.2.2) hkey
            exact absurd htype.symm (hfirst p.1 (List.mem_map_of_mem hp))

/-- Nothing but slices asked for is in the tasks. -/
theorem mem_flatten_expertTasks {r : Region} :
    ∀ {places : List (ExpertLayout × (Nat → Region))} {cache : NeuronCache},
      r ∈ (expertTasks l ids places cache).2.flatten →
      ∃ p ∈ places, ∃ e ∈ ids, e < p.1.numExperts ∧ r = p.2 e
  | [], cache, h => by cases h
  | (layout, place) :: rest, cache, h => by
      rw [flatten_expertTasks_cons] at h
      rcases List.mem_append.mp h with hr | hr
      · obtain ⟨e, he, hlt, hre⟩ := mem_expertRegions hr
        exact ⟨_, List.mem_cons_self, e, he, hlt, hre⟩
      · obtain ⟨p, hp, hrest⟩ := mem_flatten_expertTasks hr
        exact ⟨p, List.mem_cons_of_mem _ hp, hrest⟩

end ExpertTasks

/-! ### The load of a whole layer -/

@[simp] theorem mem_bufferPlaces {cfg : PrefetchConfig} {l : Nat}
    {p : ExpertLayout × (Nat → Region)} :
    p ∈ bufferPlaces cfg l ↔ p.1 ∈ cfg.expertLayouts l ∧ p.2 = p.1.bufferRegion := by
  obtain ⟨layout, place⟩ := p
  simp only [bufferPlaces, List.mem_map, Prod.mk.injEq]
  constructor
  · rintro ⟨_, hm, rfl, rfl⟩
    exact ⟨hm, rfl⟩
  · rintro ⟨hm, rfl⟩
    exact ⟨_, hm, rfl, rfl⟩

theorem bufferPlaces_map_fst (cfg : PrefetchConfig) (l : Nat) :
    (bufferPlaces cfg l).map Prod.fst = cfg.expertLayouts l := by
  simp [bufferPlaces, Function.comp_def]

/-- Everything of the layer but its experts, as one task. -/
theorem flatten_nonExpertTask (cfg : PrefetchConfig) (l : Nat) :
    (nonExpertTask cfg l).flatten = cfg.nonExpertRegions l := by
  unfold nonExpertTask
  split
  · next hnil => rw [hnil, List.flatten_nil]
  · rw [List.flatten_singleton]

/-- What a load of layer `l` built from `basis` has to bring in. -/
def Needed (cfg : PrefetchConfig) (l : Nat) (basis : Option (List Nat)) (r : Region) : Prop :=
  match basis with
  | none => r ∈ cfg.layerRegions l
  | some ids => r ∈ cfg.nonExpertRegions l ∨
      ∃ layout ∈ cfg.expertLayouts l, ∃ e ∈ ids, e < layout.numExperts ∧ r = layout.bufferRegion e

/-- A slice of the selection that the cache takes to be loaded. -/
def Hit (cfg : PrefetchConfig) (l : Nat) (ids : List Nat) (cache : NeuronCache) (r : Region) :
    Prop :=
  ∃ layout ∈ cfg.expertLayouts l, ∃ e ∈ ids, e < layout.numExperts ∧
    (l, e, layout.tensorType) ∈ cache.entries ∧ r = layout.bufferRegion e

section PlanSlices
variable {cfg : PrefetchConfig} {cache : NeuronCache} {l : Nat} {ids : List Nat}

/-- **A load by expert reads all it has to bring in, but for the hits.** -/
theorem planSlices_complete (hd : DistinctTypes (cfg.expertLayouts l)) {r : Region}
    (hr : Needed cfg l (some ids) r) :
    r ∈ (planSlices cfg cache l ids).tasks.flatten ∨ Hit cfg l ids cache r := by
  show r ∈ (nonExpertTask cfg l ++ _).flatten ∨ _
  rw [List.flatten_append, flatten_nonExpertTask]
  rcases hr with hr | ⟨layout, hm, e, he, hlt, rfl⟩
  · exact .inl (List.mem_append_left _ hr)
  · have hplace : (layout, layout.bufferRegion) ∈ bufferPlaces cfg l := mem_bufferPlaces.mpr ⟨hm, rfl⟩
    have htypes : DistinctTypes ((bufferPlaces cfg l).map Prod.fst) := by
      rwa [bufferPlaces_map_fst]
    rcases expertTasks_complete htypes _ hplace e he hlt with hr | hk
    · exact .inl (List.mem_append_right _ hr)
    · exact .inr ⟨layout, hm, e, he, hlt, hk, rfl⟩

/-- Only slices that it reads are newly marked. -/
theorem mem_planSlices_cache {key : CacheKey} (h : key ∈ (planSlices cfg cache l ids).cache.entries) :
    key ∈ cache.entries ∨ ∃ layout ∈ cfg.expertLayouts l, ∃ e, key = (l, e, layout.tensorType) ∧
      layout.bufferRegion e ∈ (planSlices cfg cache l ids).tasks.flatten := by
  refine (mem_expertTasks_entries h).imp_right ?_
  rintro ⟨p, hp, e, -, -, hkey, hr⟩
  obtain ⟨hm, hplace⟩ := mem_bufferPlaces.mp hp
  refine ⟨p.1, hm, e, hkey, ?_⟩
  show p.1.bufferRegion e ∈ (nonExpertTask cfg l ++ _).flatten
  rw [← hplace, List.flatten_append]
  exact List.mem_append_right _ hr

end PlanSlices

section PlanLayer
variable {rt : Runtime} {m : Machine} {l : Nat}

/-- The chunks of a full load drop and repeat nothing. -/
theorem flatten_planFull (rt : Runtime) (m : Machine) (l : Nat) :
    (planFull rt m l).tasks.flatten = rt.config.layerRegions l := by
  unfold planFull
  generalize hn : (if rt.ioPoolStarted then max m.io.workers.length 1 else 1) = n
  have hpos : 0 < n := by
    rw [← hn]
    split <;> omega
  cases hrs : rt.config.layerRegions l with
  | nil => rfl
  | cons r rs =>
      refine flatten_chunks (Nat.div_pos ?_ hpos) _
      rw [List.length_cons]
      omega

/-- The two plans of `submit_layer_load`. -/
theorem planLayer_cases (rt : Runtime) (m : Machine) (l : Nat) :
    (∃ ids, m.selectedExperts l = some ids ∧
      planLayer rt m l = planSlices rt.config m.neuronCache l ids) ∨
    (m.selectedExperts l = none ∨ rt.config.expertLayouts l = []) ∧
      planLayer rt m l = planFull rt m l := by
  unfold planLayer
  cases hsel : m.selectedExperts l with
  | none => exact .inr ⟨.inl rfl, rfl⟩
  | some ids =>
      by_cases hnil : rt.config.expertLayouts l = []
      · exact .inr ⟨.inr hnil, if_pos hnil⟩
      · exact .inl ⟨ids, rfl, if_neg hnil⟩

/-- What the load of a layer has to bring in and does not read was a hit. -/
theorem planLayer_complete (hd : DistinctTypes (rt.config.expertLayouts l)) {r : Region}
    (hr : Needed rt.config l (planLayer rt m l).basis r) :
    r ∈ (planLayer rt m l).tasks.flatten ∨
      ∃ ids, m.selectedExperts l = some ids ∧ Hit rt.config l ids m.neuronCache r := by
  rcases planLayer_cases rt m l with ⟨ids, hsel, hplan⟩ | ⟨-, hplan⟩
  · rw [hplan] at hr ⊢
    exact (planSlices_complete hd hr).imp_right fun hhit => ⟨ids, hsel, hhit⟩
  · rw [hplan] at hr ⊢
    rw [flatten_planFull]
    exact .inl hr

/-- Only slices that the load reads are newly marked. -/
theorem mem_planLayer_cache {key : CacheKey} (h : key ∈ (planLayer rt m l).cache.entries) :
    key ∈ m.neuronCache.entries ∨ ∃ layout ∈ rt.config.expertLayouts l, ∃ e,
      key = (l, e, layout.tensorType) ∧ layout.bufferRegion e ∈ (planLayer rt m l).tasks.flatten := by
  rcases planLayer_cases rt m l with ⟨ids, -, hplan⟩ | ⟨-, hplan⟩
  · rw [hplan] at h ⊢
    exact mem_planSlices_cache h
  · rw [hplan] at h
    exact .inl h

end PlanLayer

end Hypura
