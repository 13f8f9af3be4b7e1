import Hypura.Compute.DenseStep
import Hypura.Compute.PoolActivation
import Hypura.Compute.Regions

/-!
# Hypura.Compute.DenseSlots

Dense FFN streaming: does a layer that counts as loaded hold slots?

Slots are taken from a layer by an allocation for another, or given back after the layer
was computed; neither looks at what is under way for it. `slotsHeld` is the condition
that no layer loses its slots while it is in use, and `Housed` is what a run of such steps
keeps: every layer in use has slots, and its tensors point there.
-/

namespace Hypura

open Hypura.Core Hypura.Core.Countdown

/-! ### The layouts and the slots -/

/-- The FFN tensors of a layer fit into the slots, and belong to it alone. -/
structure Slotted (cfg : PrefetchConfig) (slotSize numSlots : Nat) : Prop where
  pos : 0 < slotSize
  regions : ∀ l, cfg.denseFfnLayouts l ≠ [] → cfg.layerRegions l ≠ []
  owner : ∀ l l' name, name ∈ cfg.ffnNames l → name ∈ cfg.ffnNames l' → l = l'
  nodup : ∀ l, (cfg.ffnNames l).Nodup
  few : ∀ l, (cfg.denseFfnLayouts l).length ≤ numSlots

section Slotted
variable {gguf : GgufFile} {map : TensorMap} {sidecar : Option Sidecar} {numLayers numSlots : Nat}
  {nvmeLayers : Finset Nat} {pool : ExpertPool}

/-- The layout of an FFN tensor, from the file and the loader's map. -/
theorem mem_denseFfnLayouts (hnames : (gguf.tensors.map (·.name)).Nodup) {l : Nat}
    {layout : DenseFfnLayout}
    (h : layout ∈ (buildPrefetchState gguf map sidecar numLayers nvmeLayers).denseFfnLayouts l) :
    ∃ t ∈ gguf.tensors, t.layerIndex = some l ∧ (TensorRole.fromName t.name).isDenseFfn ∧
      layout.tensorName = t.name ∧ ∃ loc, map.lookup t.name = some loc ∧ layout.size = loc.size := by
  obtain ⟨t, ht, h⟩ := List.mem_filterMap.mp h
  simp only [denseFfnLayoutOf, lookup_locateTensors hnames ht, Option.bind_eq_bind,
    Option.bind_eq_some_iff, Option.map_eq_some_iff, Option.guard_eq_some', Option.pure_def,
    Option.some.injEq] at h
  obtain ⟨-, hl, _, ⟨loc, hloc, rfl⟩, -, ⟨hrole, -⟩, rfl⟩ := h
  exact ⟨t, ht, hl, hrole, rfl, loc, hloc, rfl⟩

/-- A layer with FFN tensors has regions. -/
theorem layerRegions_of_layouts (hnames : (gguf.tensors.map (·.name)).Nodup) (hmap : Captured map)
    {l : Nat}
    (hne : (buildPrefetchState gguf map sidecar numLayers nvmeLayers).denseFfnLayouts l ≠ []) :
    (buildPrefetchState gguf map sidecar numLayers nvmeLayers).layerRegions l ≠ [] := by
  obtain ⟨layout, hm⟩ := List.exists_mem_of_ne_nil _ hne
  obtain ⟨t, ht, hl, -, -, loc, hloc, -⟩ := mem_denseFfnLayouts hnames hm
  have hregion : tensorRegion gguf map t =
      some ⟨loc.offsetInBuffer, loc.size, gguf.dataOffset + t.offset⟩ := by
    rw [tensorRegion, hloc]
    rfl
  exact List.ne_nil_of_mem ((mem_layerRegions hnames hmap).mpr ⟨t, ht, hl, hregion⟩)

/-- An FFN tensor belongs to one layer. -/
theorem ffnNames_owner (hnames : (gguf.tensors.map (·.name)).Nodup) {l l' : Nat} {name : String}
    (h : name ∈ (buildPrefetchState gguf map sidecar numLayers nvmeLayers).ffnNames l)
    (h' : name ∈ (buildPrefetchState gguf map sidecar numLayers nvmeLayers).ffnNames l') :
    l = l' := by
  obtain ⟨layout, hm, rfl⟩ := List.mem_map.mp h
  obtain ⟨layout', hm', heq⟩ := List.mem_map.mp h'
  obtain ⟨t, ht, hl, -, hname, -⟩ := mem_denseFfnLayouts hnames hm
  obtain ⟨t', ht', hl', -, hname', -⟩ := mem_denseFfnLayouts hnames hm'
  have htt : t = t' := List.inj_on_of_nodup_map hnames ht ht' (by rw [← hname, ← hname', heq])
  rw [htt, hl'] at hl
  exact (Option.some.inj hl).symm

theorem ffnNames_nodup (hnames : (gguf.tensors.map (·.name)).Nodup) (l : Nat) :
    ((buildPrefetchState gguf map sidecar numLayers nvmeLayers).ffnNames l).Nodup := by
  refine nodup_filterMap_names (fun t layout h => ?_) hnames
  simp only [denseFfnLayoutOf, Option.bind_eq_bind, Option.bind_eq_some_iff, Option.pure_def,
    Option.some.injEq] at h
  obtain ⟨-, -, loc, -, -, -, rfl⟩ := h
  rfl

/-- The pool that `activate_dense_ffn_pool` makes is large enough. -/
theorem slotted_build (hnames : (gguf.tensors.map (·.name)).Nodup) (hmap : Captured map)
    (hpool : activateDenseFfnPool gguf numSlots = some pool)
    (hfew : ∀ l, ((buildPrefetchState gguf map sidecar numLayers nvmeLayers).denseFfnLayouts
      l).length ≤ numSlots) :
    Slotted (buildPrefetchState gguf map sidecar numLayers nvmeLayers) pool.slotSize
      pool.numSlots where
  pos := (activatePool_spec hpool).2.2
  regions _ := layerRegions_of_layouts hnames hmap
  owner _ _ _ := ffnNames_owner hnames
  nodup := ffnNames_nodup hnames
  few l := (activatePool_fresh hpool).1 ▸ hfew l

/-- An FFN tensor fits into a slot. -/
theorem fits_build (hnames : (gguf.tensors.map (·.name)).Nodup)
    (hsize : ∀ t ∈ gguf.tensors, ∀ loc, map.lookup t.name = some loc → loc.size ≤ t.sizeBytes)
    (hpool : activateDenseFfnPool gguf numSlots = some pool) :
    ∀ l, ∀ layout ∈ (buildPrefetchState gguf map sidecar numLayers nvmeLayers).denseFfnLayouts l,
      layout.size ≤ pool.slotSize := by
  intro l layout hm
  obtain ⟨t, ht, -, hrole, -, loc, hloc, hlayout⟩ := mem_denseFfnLayouts hnames hm
  rw [hlayout]
  exact (hsize t ht loc hloc).trans (sizeBytes_le_slotSize hpool ht hrole)

end Slotted

/-- The layer that an operation allocates slots for. -/
def Op.allocating : Op → Option Nat
  | .loadDenseFfn l => some l
  | .prefetchDenseFfn l => some l
  | _ => none

namespace Machine

/-! ### Layers in use -/

/-- A load of layer `l` is under way: a batch of its tasks has not fired. -/
def underWay (m : Machine) (l : Nat) : Bool :=
  (List.range m.io.batches.length).any fun b =>
    decide (b ∉ m.io.fired) && decide (layerOf m.io b = some l)

/-- The layer is loaded, or a load of it is under way. -/
def inUse (m : Machine) (l : Nat) : Bool := decide (m.layerStatus l = .loaded) || m.underWay l

/-- **The condition**: no layer loses its slots while it is in use. An allocation leaves
the layers in use theirs; a layer that is given up has no load under way; and the index
that stands for the resident layers is no layer's. -/
def slotsHeld (rt : Runtime) (m : Machine) : Label → Bool
  | .thread =>
    match m.pending.head?.bind Op.allocating, m.expertPool with
    | some l, some p => (p.layerSlots.map (·.1)).all fun k =>
        !m.inUse k || decide (k = l) || decide (p.spares l (rt.config.denseFfnLayouts l).length k)
    | _, _ => true
  | .event (.done _) => (m.givenUp rt).all fun l => !m.underWay l
  | .event (.residentFfn _) => decide (rt.config.denseFfnLayouts (sentinelLayer rt.config) = [])
  | _ => true

/-- Layer `l` has slots that no other layer has, and its tensors point there. -/
def OwnsSlots (rt : Runtime) (m : Machine) (l : Nat) : Prop :=
  ∃ p slots, m.expertPool = some p ∧ p.slotsOf l = some slots ∧
    (rt.config.ffnNames l).map m.tensorData = slots.map (fun s => (Base.pool, s * p.slotSize)) ∧
    ∀ l' ≠ l, ∀ slots', p.slotsOf l' = some slots' → slots.Disjoint slots'

/-! ### The invariant -/

/-- What is known of the slots. -/
structure Housed (rt : Runtime) (slotSize numSlots : Nat) (m : Machine) : Prop where
  balanced : m.io.Balanced
  /-- Every load stores `Loaded` at its end. -/
  updates : ∀ b c, m.io.tag? b = some c → c.updateStatus = true
  pool : ∃ p, m.expertPool = some p ∧ p.Partitioned ∧ p.slotSize = slotSize ∧
    p.numSlots = numSlots
  length : ∀ l slots, m.slotsOf l = some slots →
    slots.length = (rt.config.denseFfnLayouts l).length
  /-- A layer in use has slots. -/
  owned : ∀ l, rt.config.denseFfnLayouts l ≠ [] → m.inUse l = true → m.slotsOf l ≠ none
  /-- The tensors of a streamed layer with slots point there. -/
  pointed : ∀ l, rt.Streamed l → ∀ slots, m.slotsOf l = some slots →
    (rt.config.ffnNames l).map m.tensorData = slots.map fun s => (Base.pool, s * slotSize)

section Housed
variable {rt : Runtime} {m m' : Machine} {l slotSize numSlots : Nat}

theorem underWay_iff : m.underWay l = true ↔ ∃ b, b ∉ m.io.fired ∧ layerOf m.io b = some l := by
  simp only [underWay, List.any_eq_true, List.mem_range, Bool.and_eq_true, decide_eq_true_eq]
  constructor
  · rintro ⟨b, -, hb⟩
    exact ⟨b, hb⟩
  · rintro ⟨b, hfired, hlayer⟩
    obtain ⟨tag, htag, -⟩ := Option.map_eq_some_iff.mp hlayer
    exact ⟨b, Pool.lt_of_tag? htag, hfired, hlayer⟩

theorem inUse_iff : m.inUse l = true ↔ m.layerStatus l = .loaded ∨ m.underWay l = true := by
  rw [inUse, Bool.or_eq_true, decide_eq_true_eq]

theorem underWay_of_io (hio : m'.io = m.io) (l : Nat) : m'.underWay l = m.underWay l := by
  rw [underWay, underWay, hio]

theorem underWay_quiet (hq : Pool.Quiet m.io m'.io) (l : Nat) :
    m'.underWay l = true ↔ m.underWay l = true := by
  simp only [underWay_iff, layerOf, hq.fired_eq, hq.tag?_eq]

/-- A new batch is under way. -/
theorem underWay_open (hb : m.io.Balanced) {c : IoCompletion} {tasks : List IoPoolTask}
    (hio : m'.io = m.io.openBatch c tasks) (l : Nat) :
    m'.underWay l = true ↔ l = c.layerIdx ∨ m.underWay l = true := by
  have hnew : m.io.batches.length ∉ m.io.fired := fun hmem =>
    Nat.lt_irrefl _ (hb.fired_lt _ (List.mem_append_right _ hmem))
  have hnone : m.io.tag? m.io.batches.length = none := by simp [Pool.tag?]
  simp only [underWay_iff, layerOf, hio, Pool.tag?_openBatch]
  constructor
  · rintro ⟨b, hfired, hlayer⟩
    split at hlayer
    · exact .inl (Option.some.inj hlayer).symm
    · exact .inr ⟨b, hfired, hlayer⟩
  · rintro (rfl | ⟨b, hfired, hlayer⟩)
    · exact ⟨m.io.batches.length, hnew, by rw [if_pos rfl]; rfl⟩
    · refine ⟨b, hfired, ?_⟩
      split
      · next hb => rw [hb, hnone] at hlayer; cases hlayer
      · exact hlayer

/-- The layer of a batch that fires was under way; no layer becomes so. -/
theorem underWay_fire {w b : Nat} {c : IoCompletion} {io : IoPool} (hb : m.io.Balanced)
    (hw : m.io.workers[w]? = some (.firing b)) (htag : m.io.tag? b = some c)
    (hfire : m.io.fire w = some io) (hio : m'.io = io) :
    m.underWay c.layerIdx = true ∧ (∀ l, m'.underWay l = true → m.underWay l = true) ∧
      ∀ l ≠ c.layerIdx, m.underWay l = true → m'.underWay l = true := by
  obtain ⟨b', hw', -, hbatches, -, hfired, -, -⟩ := Pool.fire_spec hfire
  have hbb : b' = b := by
    rw [hw] at hw'
    exact (Worker.firing.inj (Option.some.inj hw')).symm
  subst hbb
  have hfiring : b' ∈ m.io.firing := List.mem_filterMap.mpr ⟨_, List.mem_of_getElem? hw, rfl⟩
  have hlayers : ∀ b, layerOf m'.io b = layerOf m.io b := fun b => by
    rw [layerOf, layerOf, hio, Pool.tag?_of_batches hbatches]
  have hlayer : layerOf m.io b' = some c.layerIdx := by
    rw [layerOf, htag]
    rfl
  refine ⟨underWay_iff.mpr ⟨b', (hb.firing_live hfiring).1.2, hlayer⟩, fun l h => ?_,
    fun l hne h => ?_⟩
  · obtain ⟨b₁, hnot, hl⟩ := underWay_iff.mp h
    rw [hio, hfired, List.mem_cons, not_or] at hnot
    exact underWay_iff.mpr ⟨b₁, hnot.2, (hlayers b₁) ▸ hl⟩
  · obtain ⟨b₁, hnot, hl⟩ := underWay_iff.mp h
    refine underWay_iff.mpr ⟨b₁, ?_, (hlayers b₁).symm ▸ hl⟩
    rw [hio, hfired, List.mem_cons, not_or]
    refine ⟨fun heq => hne ?_, hnot⟩
    rw [heq, hlayer] at hl
    exact (Option.some.inj hl).symm

/-! ### The pointers -/

theorem rewritePtrs_of_not_mem {names : List String} {name : String} (h : name ∉ names)
    (m : Machine) (offsets : List Nat) :
    (m.rewritePtrs names offsets).tensorData name = m.tensorData name := by
  show ((names.zip offsets).foldl _ m.tensorData) name = m.tensorData name
  generalize m.tensorData = data
  induction names generalizing offsets data with
  | nil => rfl
  | cons first names ih =>
      rw [List.mem_cons, not_or] at h
      obtain ⟨hne, hnot⟩ := h
      cases offsets with
      | nil => rfl
      | cons offset offsets =>
          rw [List.zip_cons_cons, List.foldl_cons, ih hnot, Function.update_of_ne hne]

theorem rewritePtrs_names {names : List String} (hnodup : names.Nodup) (m : Machine)
    {offsets : List Nat} (hlen : offsets.length = names.length) :
    names.map (m.rewritePtrs names offsets).tensorData = offsets.map fun o => (Base.pool, o) := by
  show names.map ((names.zip offsets).foldl _ m.tensorData) = _
  generalize m.tensorData = data
  induction names generalizing offsets data with
  | nil => rw [List.length_eq_zero_iff.mp hlen]; rfl
  | cons first names ih =>
      obtain ⟨hnot, hnodup⟩ := List.nodup_cons.mp hnodup
      cases offsets with
      | nil => cases hlen
      | cons offset offsets =>
          have hfirst := rewritePtrs_of_not_mem hnot
            { m with tensorData := Function.update data first (.pool, offset) } offsets
          rw [List.zip_cons_cons, List.foldl_cons, List.map_cons, List.map_cons,
            ih hnodup (Nat.succ.inj hlen)]
          congr 1
          exact hfirst.trans (Function.update_self ..)

theorem rewriteResidentPtrs_of_not_mem {name : String} (h : name ∉ rt.config.ffnNames l)
    (m : Machine) : (m.rewriteResidentPtrs rt l).tensorData name = m.tensorData name := by
  show ((rt.config.denseFfnLayouts l).foldl _ m.tensorData) name = m.tensorData name
  unfold PrefetchConfig.ffnNames at h
  generalize m.tensorData = data
  generalize rt.config.denseFfnLayouts l = layouts at h ⊢
  induction layouts generalizing data with
  | nil => rfl
  | cons layout layouts ih =>
      simp only [List.map_cons, List.mem_cons, not_or] at h
      rw [List.foldl_cons, ih _ h.2]
      cases rt.residentFfnOffsets layout.tensorName with
      | none => rfl
      | some offset => exact Function.update_of_ne h.1 ..

theorem map_rewritePtrs_of_ne {numSlots : Nat} (hs : Slotted rt.config slotSize numSlots)
    {k : Nat} (hne : k ≠ l) (m : Machine) (offsets : List Nat) :
    (rt.config.ffnNames k).map (m.rewritePtrs (rt.config.ffnNames l) offsets).tensorData =
      (rt.config.ffnNames k).map m.tensorData :=
  List.map_congr_left fun name hname =>
    rewritePtrs_of_not_mem (fun hmem => hne (hs.owner k l name hname hmem)) m offsets

/-! ### The steps -/

/-- A step that leaves the slots alone. -/
theorem Housed.keep (h : Housed rt slotSize numSlots m) (hpool : m'.expertPool = m.expertPool)
    (hbalanced : m'.io.Balanced)
    (hupdates : ∀ b c, m'.io.tag? b = some c → m.io.tag? b = some c ∨ c.updateStatus = true)
    (huse : ∀ l, rt.config.denseFfnLayouts l ≠ [] → m'.inUse l = true → m.inUse l = true)
    (hpointed : ∀ l, rt.Streamed l → ∀ slots, m.slotsOf l = some slots →
      (rt.config.ffnNames l).map m'.tensorData = slots.map fun s => (Base.pool, s * slotSize)) :
    Housed rt slotSize numSlots m' := by
  have hslots : ∀ l, m'.slotsOf l = m.slotsOf l := fun l => by rw [slotsOf, slotsOf, hpool]
  refine ⟨hbalanced, fun b c hc => ?_, hpool ▸ h.pool, fun l slots hl => ?_, fun l hne hl => ?_,
    fun l hl slots hslot => ?_⟩
  · exact (hupdates b c hc).elim (h.updates b c) id
  · exact h.length l slots ((hslots l).symm.trans hl)
  · rw [hslots l]
    exact h.owned l hne (huse l hne hl)
  · exact hpointed l hl slots ((hslots l).symm.trans hslot)

/-- Nor does it open or fire a batch. -/
theorem Housed.quiet (h : Housed rt slotSize numSlots m) (hpool : m'.expertPool = m.expertPool)
    (hio : Pool.Quiet m.io m'.io)
    (hstatus : ∀ l, m'.layerStatus l = .loaded → m.layerStatus l = .loaded)
    (hpointed : ∀ l, rt.Streamed l → ∀ slots, m.slotsOf l = some slots →
      (rt.config.ffnNames l).map m'.tensorData = slots.map fun s => (Base.pool, s * slotSize)) :
    Housed rt slotSize numSlots m' := by
  refine h.keep hpool (hio.balanced h.balanced) (fun b c hc => .inl (hio.tag?_eq b ▸ hc))
    (fun l _ hl => ?_) hpointed
  rw [inUse_iff, underWay_quiet hio] at hl
  exact inUse_iff.mpr (hl.imp_left (hstatus l))

theorem quiet_of_eq {io io' : IoPool} (h : io' = io) : Pool.Quiet io io' :=
  h ▸ ⟨id, fun _ => rfl, rfl, rfl⟩

/-- The tensors of a layer are pointed at its slots. -/
theorem Housed.point (h : Housed rt slotSize numSlots m) (hs : Slotted rt.config slotSize numSlots)
    {p : ExpertPool} {slots : List Nat} (hpool : m.expertPool = some p)
    (hslots : p.slotsOf l = some slots)
    (hsame : (m.rewritePtrs (rt.config.ffnNames l) (slots.map (· * p.slotSize))).SameSlots m') :
    Housed rt slotSize numSlots m' := by
  obtain ⟨q, hq, -, hsize, -⟩ := h.pool
  obtain rfl : q = p := Option.some.inj (hq.symm.trans hpool)
  have hl : m.slotsOf l = some slots := by rw [slotsOf, hpool]; exact hslots
  refine h.quiet hsame.pool (quiet_of_eq hsame.io) (fun k hk => hsame.status ▸ hk)
    fun k hk slots' hslots' => ?_
  rw [hsame.data]
  by_cases hkl : k = l
  · subst hkl
    obtain rfl : slots = slots' := Option.some.inj (hl.symm.trans hslots')
    rw [rewritePtrs_names (hs.nodup k) m, List.map_map, hsize]
    · rfl
    · rw [List.length_map, h.length k slots hl, PrefetchConfig.ffnNames, List.length_map]
  · rw [map_rewritePtrs_of_ne hs hkl]
    exact h.pointed k hk slots' hslots'

/-- Layer `l` takes slots: the layers in use keep theirs. -/
theorem Housed.allocate (h : Housed rt slotSize numSlots m)
    (hs : Slotted rt.config slotSize numSlots) (hne : rt.config.denseFfnLayouts l ≠ [])
    {p p' : ExpertPool} {offsets : List Nat} (halloc : m.Allocated rt l p offsets p' m')
    (hheld : ∀ k ≠ l, m.inUse k = true → p.slotsOf k ≠ none →
      p.spares l (rt.config.denseFfnLayouts l).length k) :
    Housed rt slotSize numSlots m' := by
  obtain ⟨q, hq, hpart, hsize, hnum⟩ := h.pool
  obtain rfl : q = p := Option.some.inj (hq.symm.trans halloc.before)
  have htakes := hpart.takes (hsize ▸ hs.pos) (List.length_pos_iff.mpr hne) (hnum ▸ hs.few l)
    halloc.taken
  have hbefore : ∀ k, m.slotsOf k = q.slotsOf k := fun k => by rw [slotsOf, hq]; rfl
  have hafter : ∀ k, m'.slotsOf k = p'.slotsOf k := fun k => by rw [slotsOf, halloc.pool]; rfl
  obtain ⟨slots, hslots, hoffsets, hfresh⟩ := htakes.granted
  have hlen : slots.length = (rt.config.denseFfnLayouts l).length := by
    by_cases hnone : q.slotsOf l = none
    · exact hfresh hnone
    · rw [htakes.resident hnone] at hslots
      exact h.length l slots ((hbefore l).trans hslots)
  have htasks : (denseTasks (rt.config.denseFfnLayouts l) offsets).map
      (fun regions => (⟨regions, .pool, []⟩ : IoPoolTask)) ≠ [] := by
    refine List.ne_nil_of_length_pos ?_
    rw [List.length_map, denseTasks, List.length_map, List.length_zip, hoffsets, List.length_map,
      hlen, Nat.min_self]
    exact List.length_pos_iff.mpr hne
  refine ⟨halloc.io ▸ h.balanced.openBatch _ htasks, fun b c hc => ?_,
    ⟨p', halloc.pool, htakes.partitioned, htakes.slotSize.trans hsize,
      htakes.numSlots.trans hnum⟩, fun k slots' hk => ?_, fun k hlayouts hk => ?_,
    fun k hk slots' hslots' => ?_⟩
  · rw [halloc.io, Pool.tag?_openBatch] at hc
    split at hc
    · cases hc
      rfl
    · exact h.updates b c hc
  · rw [hafter] at hk
    by_cases hkl : k = l
    · subst hkl
      rw [Option.some.inj (hk.symm.trans hslots)]
      exact hlen
    · rcases htakes.others k hkl with heq | hnone
      · exact h.length k slots' ((hbefore k).trans (heq ▸ hk))
      · rw [hnone] at hk
        cases hk
  · rw [hafter]
    by_cases hkl : k = l
    · rw [hkl, hslots]
      exact Option.some_ne_none _
    · have huse : m.inUse k = true := by
        rw [inUse_iff, halloc.status, Function.update_of_ne hkl,
          underWay_open h.balanced halloc.io] at hk
        exact inUse_iff.mpr (hk.imp_right fun hway => hway.resolve_left hkl)
      have hheldSlots : q.slotsOf k ≠ none := hbefore k ▸ h.owned k hlayouts huse
      rw [htakes.spared k hkl (hheld k hkl huse hheldSlots)]
      exact hheldSlots
  · rw [hafter] at hslots'
    rw [halloc.data]
    by_cases hkl : k = l
    · subst hkl
      obtain rfl : slots = slots' := Option.some.inj (hslots.symm.trans hslots')
      rw [rewritePtrs_names (hs.nodup k) m, hoffsets, List.map_map, hsize]
      · rfl
      · rw [hoffsets, List.length_map, hlen, PrefetchConfig.ffnNames, List.length_map]
    · rw [map_rewritePtrs_of_ne hs hkl]
      rcases htakes.others k hkl with heq | hnone
      · exact h.pointed k hk slots' ((hbefore k).trans (heq ▸ hslots'))
      · rw [hnone] at hslots'
        cases hslots'

/-- Layer `l`, for which no load is under way, is given up. -/
theorem Housed.release (h : Housed rt slotSize numSlots m)
    (hsame : ((m.releaseSlots rt l).setStatus l .notLoaded).SameSlots m')
    (hway : m.underWay l = false) : Housed rt slotSize numSlots m' := by
  obtain ⟨p, hp, hpart, hsize, hnum⟩ := h.pool
  obtain ⟨pool, memory, hreleased⟩ := releaseSlots_spec m l
  have hio : m'.io = m.io := hsame.io.trans (by rw [hreleased]; rfl)
  have hstatus : m'.layerStatus = Function.update m.layerStatus l .notLoaded :=
    hsame.status.trans (by rw [hreleased]; rfl)
  have hdata : m'.tensorData = m.tensorData := hsame.data.trans (by rw [hreleased]; rfl)
  have hslots : ∀ k, m'.slotsOf k = if k = l then none else m.slotsOf k := fun k =>
    (hsame.slotsOf k).trans (slotsOf_releaseSlots m l k)
  have hkept : ∀ k slots, m'.slotsOf k = some slots → m.slotsOf k = some slots := by
    intro k slots hk
    rw [hslots] at hk
    exact (Option.ite_none_left_eq_some.mp hk).2
  have hpool : m'.expertPool = some (p.releaseLayer l) := by
    refine hsame.pool.trans ?_
    show (m.releaseSlots rt l).expertPool = _
    rw [releaseSlots, hp]
    rfl
  refine ⟨hio ▸ h.balanced, fun b c hc => h.updates b c (hio ▸ hc),
    ⟨_, hpool, hpart.releaseLayer l, ?_, ?_⟩, fun k slots hk => h.length k slots (hkept k slots hk),
    fun k hne hk => ?_, fun k hk slots hslot => ?_⟩
  · exact (ExpertPool.releaseLayer_slotSize p l).trans hsize
  · exact (ExpertPool.releaseLayer_numSlots p l).trans hnum
  · rw [inUse_iff, hstatus, underWay_of_io hio] at hk
    have hkl : k ≠ l := by
      rintro rfl
      rcases hk with hloaded | hunder
      · rw [Function.update_self] at hloaded
        cases hloaded
      · rw [hway] at hunder
        cases hunder
    rw [Function.update_of_ne hkl] at hk
    rw [hslots, if_neg hkl]
    exact h.owned k hne (inUse_iff.mpr hk)
  · rw [hdata]
    exact h.pointed k hk slots (hkept k slots hslot)

/-- The last task of a batch fires: its layer was under way. -/
theorem Housed.fire (h : Housed rt slotSize numSlots m) {w : Nat} (hfire : m.fireStep w = some m') :
    Housed rt slotSize numSlots m' ∧ ∀ l, m.inUse l = true → m'.inUse l = true := by
  obtain ⟨b, tag, io, hw, htag, hio, rfl⟩ := fireStep_spec hfire
  rw [if_pos (h.updates b tag htag)]
  have hb := h.balanced
  obtain ⟨hway, hback, hforth⟩ := underWay_fire hb hw htag hio
    (show ({ m with io := io }.storeLoaded tag.layerIdx).io = io from rfl)
  obtain ⟨-, -, -, hbatches, -⟩ := Pool.fire_spec hio
  refine ⟨h.keep rfl (hb.fire hio) (fun b c hc => .inl ?_) (fun l _ hl => ?_) h.pointed,
    fun l hl => ?_⟩
  · exact (Pool.tag?_of_batches hbatches b).symm.trans hc
  · rcases inUse_iff.mp hl with hloaded | hunder
    · by_cases hll : l = tag.layerIdx
      · rw [hll]
        exact inUse_iff.mpr (.inr hway)
      · change Function.update m.layerStatus tag.layerIdx .loaded l = .loaded at hloaded
        rw [Function.update_of_ne hll] at hloaded
        exact inUse_iff.mpr (.inl hloaded)
    · exact inUse_iff.mpr (.inr (hback l hunder))
  · by_cases hll : l = tag.layerIdx
    · refine inUse_iff.mpr (.inl ?_)
      rw [hll]
      exact Function.update_self ..
    · rcases inUse_iff.mp hl with hloaded | hunder
      · refine inUse_iff.mpr (.inl ?_)
        exact (Function.update_of_ne hll ..).trans hloaded
      · exact inUse_iff.mpr (.inr (hforth l hll hunder))

theorem preadStep_quiet {w count : Nat} (h : m.preadStep rt w count = some m') :
    Pool.Quiet m.io m'.io ∧ m'.layerStatus = m.layerStatus ∧ m'.expertPool = m.expertPool ∧
      m'.tensorData = m.tensorData := by
  obtain ⟨j, r, rs, l, io, -, -, -, hio, rfl⟩ := preadStep_spec h
  exact ⟨Pool.work_quiet hio, rfl, rfl, rfl⟩

theorem finishStep_quiet {w : Nat} (h : m.finishStep w = some m') :
    Pool.Quiet m.io m'.io ∧ m'.layerStatus = m.layerStatus ∧ m'.expertPool = m.expertPool ∧
      m'.tensorData = m.tensorData := by
  obtain ⟨j, io, -, -, hio, rfl⟩ := finishStep_spec h
  exact ⟨Pool.finish_quiet hio, rfl, rfl, rfl⟩

theorem Allocates.allocating (h : m.Allocates l) :
    m.pending.head?.bind Op.allocating = some l := by
  obtain ⟨op, ops, hpending, hop⟩ := h
  rw [hpending]
  rcases hop with rfl | rfl
  · rfl
  · rfl

/-- The layers in use, as the slots are held, keep theirs when `l` takes some. -/
theorem spares_of_slotsHeld (hop : m.Allocates l) (hheld : m.slotsHeld rt .thread = true)
    {p : ExpertPool} (hpool : m.expertPool = some p) {k : Nat} (hkl : k ≠ l)
    (huse : m.inUse k = true) (hslots : p.slotsOf k ≠ none) :
    p.spares l (rt.config.denseFfnLayouts l).length k := by
  simp only [slotsHeld, hop.allocating, hpool] at hheld
  obtain ⟨slots, hs⟩ := Option.ne_none_iff_exists'.mp hslots
  have hk := List.all_eq_true.mp hheld k (List.mem_map_of_mem (ExpertPool.mem_of_lookup hs))
  simpa [huse, hkl] using hk

/-- What is in use stays in use, unless it is given up. -/
def KeepsUse (rt : Runtime) (m m' : Machine) : Prop :=
  ∀ l, rt.Streamed l → m.inUse l = true → m'.inUse l = true ∨ m'.asked = none

theorem keepsUse_of_eq (hstatus : m'.layerStatus = m.layerStatus) (hio : Pool.Quiet m.io m'.io) :
    KeepsUse rt m m' := by
  intro l _ hl
  left
  rw [inUse_iff, hstatus, underWay_quiet hio]
  exact inUse_iff.mp hl

/-- **One step** that takes no slots from a layer in use. -/
theorem Housed.step (h : Housed rt slotSize numSlots m) (hs : Slotted rt.config slotSize numSlots)
    {lab : Label} (hheld : m.slotsHeld rt lab = true) (hstep : DenseStep rt m lab m') :
    Housed rt slotSize numSlots m' ∧ KeepsUse rt m m' := by
  cases hstep with
  | rest hsame =>
      refine ⟨h.quiet hsame.pool (quiet_of_eq hsame.io) (fun l hl => hsame.status ▸ hl) ?_,
        keepsUse_of_eq hsame.status (quiet_of_eq hsame.io)⟩
      exact hsame.data ▸ h.pointed
  | point hpool hslots hsame =>
      exact ⟨h.point hs hpool hslots hsame, keepsUse_of_eq hsame.status (quiet_of_eq hsame.io)⟩
  | @pointResident e l m' hl hsame =>
      refine ⟨h.quiet hsame.pool (quiet_of_eq hsame.io) (fun k hk => hsame.status ▸ hk)
        fun k hk slots hslots => ?_, keepsUse_of_eq hsame.status (quiet_of_eq hsame.io)⟩
      have hkl : k ≠ l := fun heq => hk.1 (heq ▸ hl)
      rw [hsame.data, List.map_congr_left fun name hname => rewriteResidentPtrs_of_not_mem
        (fun hmem => hkl (hs.owner k l name hname hmem)) m]
      exact h.pointed k hk slots hslots
  | @allocate l p p' offsets m' hop hne halloc =>
      refine ⟨h.allocate hs hne halloc fun k hkl huse hslots =>
        spares_of_slotsHeld hop hheld halloc.before hkl huse hslots, fun k _ hk => .inl ?_⟩
      rw [inUse_iff, halloc.status, underWay_open h.balanced halloc.io]
      by_cases hkl : k = l
      · exact .inr (.inl hkl)
      · rw [Function.update_of_ne hkl]
        exact (inUse_iff.mp hk).imp_right .inr
  | @release l lookaheadMax m' hl hsame hasked =>
      have hway : m.underWay l = false := by
        simp only [slotsHeld, hl, Option.all_some, Bool.not_eq_true'] at hheld
        exact hheld
      exact ⟨h.release hsame hway, fun _ _ _ => .inr hasked⟩
  | @activate n tasks m' htasks hempty hsame =>
      have hsentinel : rt.config.denseFfnLayouts (sentinelLayer rt.config) = [] := by
        simpa [slotsHeld] using hheld
      have hne : tasks.map (fun regions => (⟨regions, .resident, []⟩ : IoPoolTask)) ≠ [] := by
        simpa using htasks
      refine ⟨h.keep hsame.pool (hsame.io ▸ h.balanced.openBatch _ hne) (fun b c hc => ?_)
        (fun l hl huse => ?_) (hsame.data ▸ h.pointed), fun l hl huse => .inl ?_⟩
      · rw [hsame.io] at hc
        change (m.io.openBatch _ _).tag? b = some c at hc
        rw [Pool.tag?_openBatch] at hc
        split at hc
        · cases hc
          exact .inr rfl
        · exact .inl hc
      · have hls : l ≠ sentinelLayer rt.config := fun heq => hl (heq ▸ hsentinel)
        rw [inUse_iff, hsame.status, underWay_open h.balanced hsame.io] at huse
        change Function.update m.layerStatus _ _ l = _ ∨ _ at huse
        rw [Function.update_of_ne hls] at huse
        exact inUse_iff.mpr (huse.imp_right fun hway => hway.resolve_left hls)
      · have hls : l ≠ sentinelLayer rt.config := fun heq => hl.2 (heq ▸ hsentinel)
        rw [inUse_iff, hsame.status, underWay_open h.balanced hsame.io]
        change Function.update m.layerStatus _ _ l = _ ∨ _
        rw [Function.update_of_ne hls]
        exact (inUse_iff.mp huse).imp_right .inr
  | residentLoaded hempty hsame =>
      refine ⟨h.quiet hsame.pool (quiet_of_eq hsame.io) (fun l hl => ?_) fun l _ slots hslots => ?_,
        fun l hl huse => absurd (hempty l) (h.owned l hl.2 huse)⟩
      · rw [hsame.status] at hl
        change Function.update m.layerStatus _ _ l = _ at hl
        by_cases hls : l = sentinelLayer rt.config
        · rw [hls, Function.update_self] at hl
          cases hl
        · rwa [Function.update_of_ne hls] at hl
      · rw [hempty l] at hslots
        cases hslots
  | send hio =>
      exact ⟨h.quiet rfl (Pool.send_quiet hio) (fun _ => id) h.pointed,
        keepsUse_of_eq rfl (Pool.send_quiet hio)⟩
  | recv hio =>
      exact ⟨h.quiet rfl (Pool.recv_quiet hio) (fun _ => id) h.pointed,
        keepsUse_of_eq rfl (Pool.recv_quiet hio)⟩
  | pread hread =>
      obtain ⟨hio, hstatus, hpool, hdata⟩ := preadStep_quiet hread
      exact ⟨h.quiet hpool hio (fun l hl => hstatus ▸ hl) (hdata ▸ h.pointed),
        keepsUse_of_eq hstatus hio⟩
  | finish hfinish =>
      obtain ⟨hio, hstatus, hpool, hdata⟩ := finishStep_quiet hfinish
      exact ⟨h.quiet hpool hio (fun l hl => hstatus ▸ hl) (hdata ▸ h.pointed),
        keepsUse_of_eq hstatus hio⟩
  | fire hfire =>
      obtain ⟨hhoused, hkept⟩ := h.fire hfire
      exact ⟨hhoused, fun l _ hl => .inl (hkept l hl)⟩

/-! ### Runs -/

/-- The layer asked for, once it was made sure of, is in use. -/
def Served (rt : Runtime) (m : Machine) : Prop :=
  ∀ l, rt.Streamed l → m.asked = some l → m.Settled → m.inUse l = true

theorem Served.step {lab : Label} (h : m.Served rt) (hturn : DenseTurn rt m lab m')
    (hkept : KeepsUse rt m m') : m'.Served rt := by
  intro l hl hasked hsettled
  obtain ⟨hbefore, hor⟩ := hturn.settles l hl hasked hsettled
  have huse : m.inUse l = true :=
    hor.elim (h l hl hbefore) fun hloaded => inUse_iff.mpr (.inl hloaded)
  refine (hkept l hl huse).resolve_right fun hnone => ?_
  rw [hasked] at hnone
  cases hnone

theorem housed_start {pool : ExpertPool} (coActivation : CoActivationMatrix)
    (hpart : pool.Partitioned) (hempty : pool.layerSlots = []) (workers : Nat) :
    Housed rt pool.slotSize pool.numSlots (start rt coActivation (some pool) workers) where
  balanced := Pool.balanced_start workers
  updates b c hc := by simp [start, Pool.start, Pool.tag?] at hc
  pool := ⟨pool, rfl, hpart, rfl, rfl⟩
  length l slots hl := by
    change pool.slotsOf l = some slots at hl
    rw [ExpertPool.slotsOf, hempty] at hl
    cases hl
  owned l _ hl := by
    rcases inUse_iff.mp hl with hloaded | hway
    · cases hloaded
    · obtain ⟨b, -, hb⟩ := underWay_iff.mp hway
      simp [start, Pool.start, layerOf, Pool.tag?] at hb
  pointed l _ slots hl := by
    change pool.slotsOf l = some slots at hl
    rw [ExpertPool.slotsOf, hempty] at hl
    cases hl

/-- A layer in use owns its slots. -/
theorem Housed.ownsSlots (h : Housed rt slotSize numSlots m) (hl : rt.Streamed l)
    (huse : m.inUse l = true) : m.OwnsSlots rt l := by
  obtain ⟨p, hp, hpart, rfl, -⟩ := h.pool
  obtain ⟨slots, hslots⟩ := Option.ne_none_iff_exists'.mp (h.owned l hl.2 huse)
  have hslots' : p.slotsOf l = some slots := by
    rw [slotsOf, hp] at hslots
    exact hslots
  exact ⟨p, slots, hp, hslots', h.pointed l hl slots hslots, fun l' hne slots' hs' =>
    hpart.disjoint hne hslots' hs'⟩

/-- What every step of such a run keeps. -/
structure DenseSound (rt : Runtime) (slotSize numSlots : Nat) (m : Machine) : Prop where
  orderly : m.DenseOrderly rt
  housed : Housed rt slotSize numSlots m
  served : m.Served rt

theorem DenseSound.step (h : DenseSound rt slotSize numSlots m) (hrt : rt.StreamsFfn)
    (hs : Slotted rt.config slotSize numSlots) {lab : Label} (hheld : m.slotsHeld rt lab = true)
    (hstep : m.step rt lab = some m') :
    DenseSound rt slotSize numSlots m' ∧ DenseTurn rt m lab m' := by
  have hturn := denseTurn hrt hs.regions h.orderly hstep
  obtain ⟨hhoused, hkept⟩ := h.housed.step hs hheld hturn.effect
  exact ⟨⟨hturn.orderly h.orderly, hhoused, h.served.step hturn hkept⟩, hturn⟩

theorem denseSound_start {gguf : GgufFile} {s : Nat} {pool : ExpertPool}
    (hpool : activateDenseFfnPool gguf s = some pool) (coActivation : CoActivationMatrix)
    (workers : Nat) :
    DenseSound rt pool.slotSize pool.numSlots (start rt coActivation (some pool) workers) := by
  obtain ⟨-, hempty, hpart⟩ := activatePool_fresh hpool
  exact ⟨denseOrderly_start coActivation hempty workers,
    housed_start coActivation hpart hempty workers, fun l _ hasked => by cases hasked⟩

theorem settled_of_idle (h : m.Idle) : m.Settled :=
  ⟨h.2, fun op hop => by rw [h.1] at hop; cases hop⟩

/-- **A run that takes no slots from a layer in use**: in every state that it reaches, a
streamed layer that counts as loaded has slots; and where an `ask` callback has returned, the
layer asked for owns them. -/
theorem dense_ownsSlots {gguf : GgufFile} {map : TensorMap} {sidecar : Option Sidecar}
    {numLayers s : Nat} {nvmeLayers : Finset Nat} {pool : ExpertPool}
    {coActivation : CoActivationMatrix} {workers : Nat} (hrt : rt.StreamsFfn)
    (hconfig : rt.config = buildPrefetchState gguf map sidecar numLayers nvmeLayers)
    (hnames : (gguf.tensors.map (·.name)).Nodup) (hmap : Captured map)
    (hpool : activateDenseFfnPool gguf s = some pool)
    (hfew : ∀ l, (rt.config.denseFfnLayouts l).length ≤ s)
    (h : Reaches (Machine.step rt) (fun m lab => m.slotsHeld rt lab = true)
      (start rt coActivation (some pool) workers) m) :
    (∀ l, rt.Streamed l → m.layerStatus l = .loaded → m.slotsOf l ≠ none) ∧
      ∀ l, rt.Streamed l → m.asked = some l → m.Idle → m.OwnsSlots rt l := by
  have hs : Slotted rt.config pool.slotSize pool.numSlots :=
    hconfig ▸ slotted_build hnames hmap hpool (hconfig ▸ hfew)
  have hsound : DenseSound rt pool.slotSize pool.numSlots m :=
    h.invariant (denseSound_start hpool coActivation workers) fun m lab m' hm hheld hstep =>
      (hm.step hrt hs hheld hstep).1
  refine ⟨fun l hl hloaded => hsound.housed.owned l hl.2 (inUse_iff.mpr (.inl hloaded)),
    fun l hl hasked hidle => hsound.housed.ownsSlots hl ?_⟩
  exact hsound.served l hl hasked (settled_of_idle hidle)

end Housed

end Machine

/-! ### Six slots -/

/-- The three FFN tensors of a layer, of a byte each. -/
def ffnTensors (l : Nat) : List TensorInfo :=
  ["ffn_gate", "ffn_up", "ffn_down"].zipIdx.map fun role =>
    ⟨"blk." ++ toString l ++ "." ++ role.1 ++ ".weight", [1], .i8, 3 * l + role.2, 1, some l⟩

def ffnGguf (numLayers : Nat) : GgufFile where
  version := 3
  metadata := fun key => if key = "general.architecture" then some (.string "llama") else none
  tensors := (List.range numLayers).flatMap ffnTensors
  dataOffset := 128

def ffnMap (numLayers : Nat) : TensorMap :=
  (ffnGguf numLayers).tensors.map fun t => (t.name, ⟨t.offset, 1, 0, none⟩)

/-- Every layer streams its FFN data, with six slots. -/
def ffnRuntime (numLayers : Nat) : Runtime where
  config := buildPrefetchState (ffnGguf numLayers) (ffnMap numLayers) none numLayers ∅
  file := (List.range 140).map UInt8.ofNat
  pageSize := 1
  bufferBaseNull := false
  ioPoolStarted := true
  prefetchEnabled := true
  keepNvmeResident := false
  expertStreaming := false
  denseFfnStreaming := true
  denseFfnLookahead := 1
  residentFfnLayers := ∅
  residentFfnOffsets := fun _ => none

def ffnStart (numLayers : Nat) : Machine :=
  .start (ffnRuntime numLayers) (.new 0 0) (some (.new 6 1)) 1

/-- The worker does the three tasks of a layer. -/
def readFfn : List Label :=
  (List.replicate 3 [Label.recv 0, .pread 0 1, .finish 0]).flatten ++ [.fire 0]

/-- Two layers are prefetched, the first is read, and a node of it is asked for. -/
def askFirst : List Label :=
  .event .initialDenseFfn :: List.replicate 10 .thread ++ readFfn ++ [.event (.ask 0), .thread]

theorem twoLayers_ownSlots : ∃ m, exec (Machine.step (ffnRuntime 2))
    (fun m lab => m.slotsHeld (ffnRuntime 2) lab) (ffnStart 2) askFirst = some m ∧
      (m.layerStatus 0 = .loaded ∧ m.asked = some 0) ∧
      ((∀ l, (ffnRuntime 2).Streamed l → m.layerStatus l = .loaded → m.slotsOf l ≠ none) ∧
        ∀ l, (ffnRuntime 2).Streamed l → m.asked = some l → m.Idle →
          m.OwnsSlots (ffnRuntime 2) l) := by
  have hrun : (exec (Machine.step (ffnRuntime 2)) (fun m lab => m.slotsHeld (ffnRuntime 2) lab)
      (ffnStart 2) askFirst).map (fun m => (m.layerStatus 0, m.asked)) =
      some (.loaded, some 0) := by decide +kernel
  obtain ⟨m, hm, heq⟩ := Option.map_eq_some_iff.mp hrun
  have hfew : ∀ l, ((ffnRuntime 2).config.denseFfnLayouts l).length ≤ 6 := fun l =>
    (List.length_filterMap_le ..).trans (by decide)
  exact ⟨m, hm, Prod.mk.inj heq, Machine.dense_ownsSlots ⟨rfl, rfl, rfl, rfl⟩ rfl (by decide)
    ⟨by decide, by decide, by simp only [DisjointRanges]; decide⟩ (by decide +kernel) hfew
    (Reaches.exec (fun _ _ => id) .refl hm)⟩

/-- Of four layers the third takes the slots of the first, whose tasks are under way: in the
end the first is loaded, and has none. -/
theorem fourLayers_unowned : ∃ m, exec (Machine.step (ffnRuntime 4)) (fun _ _ => true) (ffnStart 4)
    (.event .initialDenseFfn :: List.replicate 11 .thread ++ readFfn) = some m ∧
      (ffnRuntime 4).Streamed 0 ∧ m.layerStatus 0 = .loaded ∧ m.slotsOf 0 = none := by
  have hrun : (exec (Machine.step (ffnRuntime 4)) (fun _ _ => true) (ffnStart 4)
      (.event .initialDenseFfn :: List.replicate 11 .thread ++ readFfn)).map
      (fun m => (m.layerStatus 0, m.slotsOf 0)) = some (.loaded, none) := by decide +kernel
  obtain ⟨m, hm, heq⟩ := Option.map_eq_some_iff.mp hrun
  obtain ⟨hst, hslots⟩ := Prod.mk.inj heq
  exact ⟨m, hm, by decide +kernel, hst, hslots⟩

end Hypura
