import Hypura.Compute.EvalCallback
import Hypura.Compute.Plan
import Hypura.Compute.Regions
import Mathlib.Data.Set.Lattice
import Mathlib.Data.List.Dedup

/-!
# Hypura.Compute.AllExperts

Does loading a layer by expert, with every expert selected, read what a full load reads?

The expert-aware branch goes through the fused tensors one after the other and asks the
neuron cache for every slice. Two tensors of one cache type (`ffn_gate_exps.weight` and
`ffn_gate_exps.bias`, or any two names that are not recognised) share their keys, so the
slices of the second are hits — unless the first one's keys were evicted in between. How
many slices come in between decides it, for all slices of the tensor alike.

* `flatten_expertTasks_all` — which tensors are read, from a cache without the layer,
* `planLayer_allExperts_iff` — the copies are those of a full load exactly when no
  tensor's keys are still those of an earlier one,
* `planLayer_allExperts_ne` — a layer with a weight and a bias of one type.
-/

namespace Hypura

open Hypura.Core.Recency Hypura.Rust

/-! ### The slices of one tensor -/

/-- The keys of all slices of a tensor of type `ty`. -/
def sliceKeys (l n : Nat) (ty : ExpertTensorType) : List CacheKey :=
  (List.range n).map fun e => (l, e, ty)

theorem nodup_sliceKeys (l n : Nat) (ty : ExpertTensorType) : (sliceKeys l n ty).Nodup :=
  List.nodup_range.map fun _ _ h => congrArg (fun key : CacheKey => key.2.1) h

@[simp] theorem length_sliceKeys (l n : Nat) (ty : ExpertTensorType) :
    (sliceKeys l n ty).length = n := by
  simp [sliceKeys]

theorem mem_sliceKeys {l n : Nat} {ty : ExpertTensorType} {key : CacheKey} :
    key ∈ sliceKeys l n ty ↔ key.1 = l ∧ key.2.1 < n ∧ key.2.2 = ty := by
  obtain ⟨l', e, ty'⟩ := key
  simp only [sliceKeys, List.mem_map, List.mem_range, Prod.mk.injEq]
  constructor
  · rintro ⟨_, he, rfl, rfl, rfl⟩
    exact ⟨rfl, he, rfl⟩
  · rintro ⟨rfl, he, rfl⟩
    exact ⟨e, he, rfl, rfl, rfl⟩

section ExpertRegions
variable {l : Nat} {layout : ExpertLayout} {place : Nat → Region}

/-- The loop, one expert at a time. -/
theorem expertRegions_cons {e : Nat} (he : e < layout.numExperts) (ids : List Nat)
    (c : NeuronCache) :
    expertRegions l layout place (e :: ids) c =
      ((expertRegions l layout place ids (c.lookOrMark (l, e, layout.tensorType))).1,
        if (l, e, layout.tensorType) ∈ c.entries then
          (expertRegions l layout place ids (c.lookOrMark (l, e, layout.tensorType))).2
        else
          place e :: (expertRegions l layout place ids
            (c.lookOrMark (l, e, layout.tensorType))).2) := by
  rw [expertRegions, if_neg (by omega)]
  unfold NeuronCache.lookOrMark
  by_cases hkey : (l, e, layout.tensorType) ∈ c.entries
  · simp [hkey]
  · simp [hkey]

variable (place) in
/-- Where looking up each expert in turn has the same outcome, all are read or none is. -/
theorem expertRegions_uniform {P : Prop} [Decidable P] :
    ∀ {ids : List Nat} {c : NeuronCache} {keys : List CacheKey}, c.Windows keys →
      (∀ e ∈ ids, e < layout.numExperts) →
      (∀ done e rest, ids = done ++ e :: rest → ∀ order,
        IsWindow c.capacity ((done.map fun e => (l, e, layout.tensorType)).foldl touch keys) order →
        ((l, e, layout.tensorType) ∈ order ↔ P)) →
      (expertRegions l layout place ids c).2 = (if P then [] else ids.map place) ∧
        (expertRegions l layout place ids c).1.Windows
          ((ids.map fun e => (l, e, layout.tensorType)).foldl touch keys) ∧
        (expertRegions l layout place ids c).1.capacity = c.capacity
  | [], c, keys, hw, _, _ => by
      refine ⟨?_, hw, rfl⟩
      split <;> rfl
  | e :: ids, c, keys, hw, hlt, hout => by
      have hfirst : (l, e, layout.tensorType) ∈ c.entries ↔ P := by
        rw [← hw.perm.mem_iff]
        exact hout [] e ids rfl c.lruOrder hw.window
      have hcap := c.capacity_lookOrMark (l, e, layout.tensorType)
      obtain ⟨hrs, hw', hcap'⟩ := expertRegions_uniform (P := P)
        (hw.lookOrMark (l, e, layout.tensorType)) (fun e' he' => hlt e' (List.mem_cons_of_mem _ he'))
        fun done e' rest heq order ho => hout (e :: done) e' rest (by rw [heq]; rfl) order
          (by rwa [hcap] at ho)
      rw [expertRegions_cons (hlt e List.mem_cons_self), hrs]
      refine ⟨?_, hw', hcap'.trans hcap⟩
      by_cases hP : P
      · simp [hP, hfirst]
      · simp [hP, hfirst]

end ExpertRegions

/-! ### Which tensors find their slices in the cache -/

/-- The slices of the types `types`, one type after the other. -/
def blocks (l n : Nat) (types : List ExpertTensorType) : List CacheKey :=
  types.flatMap (sliceKeys l n)

/-- After the types `recent` (last touched last) the slices of type `ty` are still there:
they and those touched since fit into the cache. -/
def Shadowed (capacity n : Nat) (recent : List ExpertTensorType) (ty : ExpertTensorType) : Prop :=
  ∃ before after, recent = before ++ ty :: after ∧ (after.length + 1) * n ≤ capacity

theorem length_blocks (l n : Nat) (types : List ExpertTensorType) :
    (blocks l n types).length = types.length * n := by
  induction types with
  | nil => simp [blocks]
  | cons ty types ih =>
      rw [blocks, List.flatMap_cons, List.length_append, length_sliceKeys]
      change n + (blocks l n types).length = _
      rw [ih, List.length_cons]
      ring

theorem mem_blocks {l n : Nat} {types : List ExpertTensorType} {key : CacheKey} :
    key ∈ blocks l n types ↔ key.1 = l ∧ key.2.1 < n ∧ key.2.2 ∈ types := by
  simp only [blocks, List.mem_flatMap, mem_sliceKeys]
  constructor
  · rintro ⟨ty, hty, hl, he, rfl⟩
    exact ⟨hl, he, hty⟩
  · intro h
    exact ⟨key.2.2, h.2.2, h.1, h.2.1, rfl⟩

theorem blocks_without_sliceKeys (l n : Nat) (types : List ExpertTensorType)
    (ty : ExpertTensorType) :
    without (blocks l n types) (sliceKeys l n ty) = blocks l n (types.filter (· ≠ ty)) := by
  induction types with
  | nil => rfl
  | cons ty' types ih =>
      have hcons : blocks l n (ty' :: types) = sliceKeys l n ty' ++ blocks l n types := rfl
      rw [hcons, without_append, ih]
      by_cases hty : ty' = ty
      · rw [hty, without_eq_nil (fun key hkey => hkey), List.filter_cons_of_neg (by simp),
          List.nil_append]
      · have hnone : without (sliceKeys l n ty') (sliceKeys l n ty) = sliceKeys l n ty' :=
          without_eq_self fun key hkey hmem =>
            hty ((mem_sliceKeys.mp hkey).2.2.symm.trans (mem_sliceKeys.mp hmem).2.2)
        rw [hnone, List.filter_cons_of_pos (by simpa using hty)]
        rfl

section Base
variable {l n : Nat} {base : List CacheKey} (hbase : ∀ key ∈ base, key.1 ≠ l)
include hbase

/-- Touching the slices of one more type. -/
theorem foldl_touch_blocks (recent : List ExpertTensorType) (ty : ExpertTensorType) :
    (sliceKeys l n ty).foldl touch (base ++ blocks l n recent) =
      base ++ blocks l n (touch recent ty) := by
  have hkeep : without base (sliceKeys l n ty) = base :=
    without_eq_self fun key hkey hmem => hbase key hkey (mem_sliceKeys.mp hmem).1
  rw [foldl_touch_nodup (nodup_sliceKeys l n ty), without_append, hkeep,
    blocks_without_sliceKeys, touch, blocks, blocks, List.flatMap_append, List.append_assoc]
  simp

omit hbase in
/-- Half-way through the slices of a type that was touched before: those still to come are
where they were, those done are at the back. -/
theorem foldl_touch_half {before after : List ExpertTensorType} {ty : ExpertTensorType}
    (hafter : ty ∉ after) {done : List Nat} {e : Nat} {rest : List Nat}
    (hsplit : List.range n = done ++ e :: rest) :
    ∃ older, (done.map fun e => (l, e, ty)).foldl touch
        (base ++ blocks l n (before ++ ty :: after)) =
      older ++ (l, e, ty) ::
        ((rest.map fun e => (l, e, ty)) ++ blocks l n after ++ done.map fun e => (l, e, ty)) := by
  have hkeys : sliceKeys l n ty = (done.map fun e => (l, e, ty)) ++ (l, e, ty) ::
      rest.map fun e => (l, e, ty) := by
    rw [sliceKeys, hsplit, List.map_append, List.map_cons]
  have hnodup := nodup_sliceKeys l n ty
  rw [hkeys] at hnodup
  obtain ⟨hdone, -, hdisj⟩ := List.nodup_append.mp hnodup
  have hblocks : blocks l n (before ++ ty :: after) =
      blocks l n before ++ ((done.map fun e => (l, e, ty)) ++
        ((l, e, ty) :: rest.map fun e => (l, e, ty)) ++ blocks l n after) := by
    rw [← hkeys]
    simp [blocks]
  have hgone : without (done.map fun e => ((l, e, ty) : CacheKey)) (done.map fun e => (l, e, ty)) =
      [] := without_eq_nil fun key hkey => hkey
  have hcome : without ((l, e, ty) :: rest.map fun e => ((l, e, ty) : CacheKey))
      (done.map fun e => (l, e, ty)) = (l, e, ty) :: rest.map fun e => (l, e, ty) :=
    without_eq_self fun key hkey hmem => hdisj key hmem key hkey rfl
  have hothers : without (blocks l n after) (done.map fun e => (l, e, ty)) = blocks l n after := by
    refine without_eq_self fun key hkey hmem => hafter ?_
    obtain ⟨e', -, rfl⟩ := List.mem_map.mp hmem
    exact (mem_blocks.mp hkey).2.2
  refine ⟨without (base ++ blocks l n before) (done.map fun e => (l, e, ty)), ?_⟩
  rw [hblocks, ← List.append_assoc, foldl_touch_nodup hdone, without_append, without_append _ (blocks l n after),
    without_append (done.map _), hgone, hcome, hothers]
  simp

/-- **Every slice of a tensor is a hit, or none is.** -/
theorem mem_window_iff_shadowed {capacity : Nat} {recent : List ExpertTensorType}
    (hrecent : recent.Nodup) (ty : ExpertTensorType) {done : List Nat} {e : Nat} {rest : List Nat}
    (hsplit : List.range n = done ++ e :: rest) {order : List CacheKey}
    (hw : IsWindow capacity ((done.map fun e => (l, e, ty)).foldl touch (base ++ blocks l n recent))
      order) :
    (l, e, ty) ∈ order ↔ Shadowed capacity n recent ty := by
  by_cases hty : ty ∈ recent
  · obtain ⟨before, after, rfl⟩ := List.append_of_mem hty
    obtain ⟨-, hright, hdisj⟩ := List.nodup_append.mp hrecent
    have hafter : ty ∉ after := (List.nodup_cons.mp hright).1
    have hbefore : ty ∉ before := fun hmem => hdisj ty hmem ty List.mem_cons_self rfl
    obtain ⟨older, hfold⟩ : ∃ older, (done.map fun e => (l, e, ty)).foldl touch
        (base ++ blocks l n (before ++ ty :: after)) = older ++ (l, e, ty) :: _ :=
      foldl_touch_half hafter hsplit
    have hn := congrArg List.length hsplit
    rw [List.length_range, List.length_append, List.length_cons] at hn
    rw [hw.mem_iff hfold]
    simp only [List.length_append, List.length_map, length_blocks]
    constructor
    · intro hlt
      refine ⟨before, after, rfl, ?_⟩
      rw [Nat.add_mul, Nat.one_mul]
      omega
    · intro hshadow
      obtain ⟨before', after', hrec, hle⟩ := hshadow
      obtain ⟨-, -, rfl⟩ := (List.append_cons_inj_of_notMem hbefore hafter).mp hrec
      rw [Nat.add_mul, Nat.one_mul] at hle
      omega
  · refine iff_of_false (fun hmem => ?_) fun hshadow => ?_
    · rcases mem_foldl_touch.mp (hw.mem_keys hmem) with hold | hnew
      · rcases List.mem_append.mp hold with hb | hb
        · exact hbase _ hb rfl
        · exact hty (mem_blocks.mp hb).2.2
      · have hnodup := List.nodup_range (n := n)
        rw [hsplit] at hnodup
        obtain ⟨e', he', heq⟩ := List.mem_map.mp hnew
        have hee : e' = e := congrArg (fun key : CacheKey => key.2.1) heq
        exact (List.nodup_append.mp hnodup).2.2 e' he' e List.mem_cons_self hee
    · obtain ⟨before, after, hrec, -⟩ := hshadow
      exact hty (hrec ▸ by simp)

/-- The loop over all experts of one tensor: it reads every slice, or none. -/
theorem expertRegions_all {layout : ExpertLayout} (place : Nat → Region) {c : NeuronCache}
    {recent : List ExpertTensorType} (hrecent : recent.Nodup) (hn : layout.numExperts = n)
    (hw : c.Windows (base ++ blocks l n recent)) :
    (Shadowed c.capacity n recent layout.tensorType →
        (expertRegions l layout place (List.range n) c).2 = []) ∧
      (¬ Shadowed c.capacity n recent layout.tensorType →
        (expertRegions l layout place (List.range n) c).2 = (List.range n).map place) ∧
      (expertRegions l layout place (List.range n) c).1.Windows
        (base ++ blocks l n (touch recent layout.tensorType)) ∧
      (expertRegions l layout place (List.range n) c).1.capacity = c.capacity := by
  classical
  obtain ⟨hrs, hw', hcap⟩ := expertRegions_uniform
    (P := Shadowed c.capacity n recent layout.tensorType) place hw
    (fun e he => hn ▸ List.mem_range.mp he)
    fun done e rest hsplit order ho => mem_window_iff_shadowed hbase hrecent _ hsplit ho
  have hfold := foldl_touch_blocks (n := n) hbase recent layout.tensorType
  rw [sliceKeys] at hfold
  rw [hfold] at hw'
  exact ⟨fun hs => by rw [hrs, if_pos hs], fun hs => by rw [hrs, if_neg hs], hw', hcap⟩

/-- The tensors of a layer that are read: those whose slices are not still there from an
earlier tensor. -/
theorem mem_flatten_expertTasks_all {r : Region} :
    ∀ {places : List (ExpertLayout × (Nat → Region))} {c : NeuronCache}
      {recent : List ExpertTensorType}, recent.Nodup → (∀ p ∈ places, p.1.numExperts = n) →
      c.Windows (base ++ blocks l n recent) →
      (r ∈ (expertTasks l (List.range n) places c).2.flatten ↔
        ∃ pre p post, places = pre ++ p :: post ∧
          ¬ Shadowed c.capacity n ((pre.map (·.1.tensorType)).foldl touch recent) p.1.tensorType ∧
          ∃ e < n, r = p.2 e)
  | [], c, recent, _, _, _ => by simp [expertTasks]
  | (layout, place) :: rest, c, recent, hrecent, hn, hw => by
      obtain ⟨hhits, hmisses, hw', hcap⟩ := expertRegions_all hbase place hrecent
        (hn _ List.mem_cons_self) hw
      have ih := mem_flatten_expertTasks_all (r := r) (nodup_touch hrecent layout.tensorType)
        (fun p hp => hn p (List.mem_cons_of_mem _ hp)) hw'
      rw [hcap] at ih
      rw [flatten_expertTasks_cons, List.mem_append, ih]
      constructor
      · intro hr
        rcases hr with hr | ⟨pre, p, post, heq, hnot, hread⟩
        · refine ⟨[], _, rest, rfl, ?_⟩
          by_cases hs : Shadowed c.capacity n recent layout.tensorType
          · rw [hhits hs] at hr
            cases hr
          · rw [hmisses hs] at hr
            obtain ⟨e, he, rfl⟩ := List.mem_map.mp hr
            exact ⟨hs, e, List.mem_range.mp he, rfl⟩
        · exact ⟨(layout, place) :: pre, p, post, by rw [heq]; rfl, hnot, hread⟩
      · intro hr
        obtain ⟨pre, p, post, heq, hnot, e, he, hre⟩ := hr
        cases pre with
        | nil =>
            cases heq
            refine .inl ?_
            rw [hmisses hnot, hre]
            exact List.mem_map_of_mem (List.mem_range.mpr he)
        | cons q pre =>
            cases heq
            exact .inr ⟨pre, p, post, rfl, hnot, e, he, hre⟩

end Base

/-! ### The condition -/

/-- A list of types that ends `ty :: between` has `ty` behind as many others as `between`
has types. -/
theorem shadowed_iff {capacity n : Nat} {types : List ExpertTensorType} {ty : ExpertTensorType} :
    Shadowed capacity n (types.foldl touch []) ty ↔
      ∃ pre between, types = pre ++ ty :: between ∧ ty ∉ between ∧
        (ty :: between).dedup.length * n ≤ capacity := by
  have hlength : ∀ ks : List ExpertTensorType, (ks.foldl touch []).length = ks.dedup.length := by
    intro ks
    refine List.Perm.length_eq ((List.perm_ext_iff_of_nodup
      (nodup_foldl_touch List.nodup_nil ks) (List.nodup_dedup ks)).mpr fun k => ?_)
    rw [mem_foldl_touch, List.mem_dedup]
    simp
  have hfold : ∀ {pre between : List ExpertTensorType}, ty ∉ between →
      (pre ++ ty :: between).foldl touch [] =
        without ((pre.foldl touch []).filter (· ≠ ty)) between ++ ty :: between.foldl touch [] := by
    intro pre between hnot
    rw [List.foldl_append, List.foldl_cons, touch]
    have hone : without [ty] between = [ty] := without_eq_self (by simpa using hnot)
    have happ := foldl_touch_append ((pre.foldl touch []).filter (· ≠ ty) ++ [ty]) [] between
    rw [List.append_nil] at happ
    rw [happ, without_append, hone, List.append_assoc, List.singleton_append]
  have hdedup : ∀ {between : List ExpertTensorType}, ty ∉ between →
      (ty :: between).dedup.length = (between.foldl touch []).length + 1 := by
    intro between hnot
    rw [List.dedup_cons_of_notMem hnot, List.length_cons, hlength]
  constructor
  · intro hs
    obtain ⟨before, after, hrec, hle⟩ := hs
    have hty : ty ∈ types := by
      have hmem : ty ∈ types.foldl touch [] := hrec ▸ by simp
      exact (mem_foldl_touch.mp hmem).resolve_left (by simp)
    -- the last occurrence
    obtain ⟨between, pre, hsplit, hnot⟩ := List.eq_append_cons_of_mem (List.mem_reverse.mpr hty)
    have htypes : types = pre.reverse ++ ty :: between.reverse := by
      have := congrArg List.reverse hsplit
      simpa using this
    have hnot' : ty ∉ between.reverse := by simpa using hnot
    refine ⟨_, _, htypes, hnot', ?_⟩
    have hnodup := nodup_foldl_touch List.nodup_nil types
    rw [hrec] at hnodup
    obtain ⟨-, hright, hdisj⟩ := List.nodup_append.mp hnodup
    rw [htypes, hfold hnot'] at hrec
    have hafter : ty ∉ after := (List.nodup_cons.mp hright).1
    have hbefore : ty ∉ before := fun hmem => hdisj ty hmem ty List.mem_cons_self rfl
    obtain ⟨-, -, heq⟩ := (List.append_cons_inj_of_notMem hbefore hafter).mp hrec.symm
    rw [hdedup hnot', ← heq]
    exact hle
  · intro h
    obtain ⟨pre, between, rfl, hnot, hle⟩ := h
    rw [hdedup hnot] at hle
    exact ⟨_, _, hfold hnot, hle⟩

/-- No fused tensor with data finds the slices of an earlier tensor of its type: from the
last such tensor on there are more slices than the cache holds. -/
def KeysExpire (capacity n : Nat) (layouts : List ExpertLayout) : Prop :=
  ∀ pre first between second post, layouts = pre ++ first :: (between ++ second :: post) →
    first.tensorType = second.tensorType →
    (∀ x ∈ between, x.tensorType ≠ second.tensorType) → 0 < second.totalSize →
    capacity < ((first :: between).map (·.tensorType)).dedup.length * n

/-- Which is to say that none of them is shadowed. -/
theorem keysExpire_iff {capacity n : Nat} {layouts : List ExpertLayout} :
    KeysExpire capacity n layouts ↔ ∀ pre second post, layouts = pre ++ second :: post →
      0 < second.totalSize →
      ¬ Shadowed capacity n ((pre.map (·.tensorType)).foldl touch []) second.tensorType := by
  simp only [shadowed_iff]
  constructor
  · intro h pre second post heq hpos hs
    obtain ⟨pre', between, hmap, hnot, hle⟩ := hs
    obtain ⟨pre₁, rest, rfl, hpre', hrest⟩ := List.map_eq_append_iff.mp hmap
    obtain ⟨first, between', rfl, hty, hbetween⟩ := List.map_eq_cons_iff.mp hrest
    have hlt := h pre₁ first between' second post (by rw [heq]; simp) hty
      (fun x hx heq => hnot (by rw [← hbetween, ← heq]; exact List.mem_map_of_mem hx)) hpos
    rw [List.map_cons, hty, hbetween] at hlt
    omega
  · intro h pre first between second post heq hty hbetween hpos
    by_contra hlt
    refine h (pre ++ first :: between) second post (by rw [heq]; simp) hpos
      ⟨pre.map (·.tensorType), between.map (·.tensorType), ?_, ?_, ?_⟩
    · rw [List.map_append, List.map_cons, hty]
    · intro hmem
      obtain ⟨x, hx, hxt⟩ := List.mem_map.mp hmem
      exact hbetween x hx hxt
    · rw [List.map_cons, hty] at hlt
      omega

/-! ### Copies -/

/-- The copies of a read: pairs of a buffer byte and the file byte it gets. -/
def Region.copies (r : Region) : Set (Nat × Nat) :=
  {p | ∃ k < r.size, p = (r.dst + k, r.fileOffset + k)}

/-- The copies of several reads. -/
def copies (rs : List Region) : Set (Nat × Nat) := {p | ∃ r ∈ rs, p ∈ r.copies}

/-- The region of the whole tensor. -/
def ExpertLayout.whole (layout : ExpertLayout) : Region :=
  ⟨layout.bufferOffset, layout.totalSize, layout.fileOffset⟩

/-- The experts lie one after the other, each in one place. -/
structure ExpertLayout.Dividing (layout : ExpertLayout) : Prop where
  size_eq : layout.totalSize = layout.numExperts * layout.expertStride
  onto : ∀ pos < layout.numExperts, ∃ e < layout.numExperts, layout.mapExpertId e = pos
  into : ∀ e < layout.numExperts, layout.mapExpertId e < layout.numExperts

namespace ExpertLayout.Dividing
variable {layout : ExpertLayout}

/-- A slice lies in its tensor. -/
theorem slice_subset (h : layout.Dividing) {e : Nat} (he : e < layout.numExperts) :
    (layout.bufferRegion e).copies ⊆ layout.whole.copies := by
  intro p hp
  obtain ⟨k, hk, rfl⟩ := hp
  have hk : k < layout.expertStride := hk
  have hinto := h.into e he
  refine ⟨layout.mapExpertId e * layout.expertStride + k, ?_, ?_⟩
  · show layout.mapExpertId e * layout.expertStride + k < layout.totalSize
    rw [h.size_eq]
    calc layout.mapExpertId e * layout.expertStride + k
        < (layout.mapExpertId e + 1) * layout.expertStride := by rw [Nat.add_mul]; omega
      _ ≤ layout.numExperts * layout.expertStride := Nat.mul_le_mul_right _ hinto
  · simp [bufferRegion, whole, expertBufferOffset, expertFileOffset, Nat.add_assoc]

/-- The slices of all experts make up the tensor. -/
theorem slices_eq (h : layout.Dividing) :
    {p | ∃ e < layout.numExperts, p ∈ (layout.bufferRegion e).copies} = layout.whole.copies := by
  refine Set.Subset.antisymm (fun p hp => ?_) fun p hp => ?_
  · obtain ⟨e, he, hp⟩ := hp
    exact h.slice_subset he hp
  · obtain ⟨k, hk, rfl⟩ := hp
    have hk : k < layout.numExperts * layout.expertStride := h.size_eq ▸ hk
    have hpos : 0 < layout.expertStride := Nat.pos_of_ne_zero fun h0 => by simp [h0] at hk
    obtain ⟨e, he, hmap⟩ := h.onto (k / layout.expertStride)
      (Nat.div_lt_of_lt_mul (by rwa [Nat.mul_comm]))
    refine ⟨e, he, k % layout.expertStride, Nat.mod_lt k hpos, ?_⟩
    have hdiv : k / layout.expertStride * layout.expertStride + k % layout.expertStride = k := by
      rw [Nat.mul_comm]
      exact Nat.div_add_mod k _
    simp only [bufferRegion, whole, expertBufferOffset, expertFileOffset, hmap, Nat.add_assoc, hdiv]

end ExpertLayout.Dividing

/-- A sidecar that permutes the layer's experts, if it names the layer at all. -/
def TruePermutation (sidecar : Option Sidecar) (layer n : Nat) : Prop :=
  ∀ forward, sidecar = some (.permutations forward) →
    ∀ fwd, forward.lookup layer = some fwd → fwd.Perm (List.range n)

/-- The experts of a layer whose sidecar is a true permutation lie in some order. -/
theorem mapExpertId_fusedLayout {gguf : GgufFile} {sidecar : Option Sidecar} {layer : Nat}
    (hside : TruePermutation sidecar layer ((gguf.getU32 "expert_count").getD 0))
    (t : TensorInfo) (r : Region) :
    ∃ order : List Nat, order.Perm (List.range ((gguf.getU32 "expert_count").getD 0)) ∧
      ∀ pos e, order[pos]? = some e →
        (fusedLayout gguf sidecar layer t r).mapExpertId e = pos := by
  have hnatural : loadPermutations sidecar layer = none →
      ∃ order : List Nat, order.Perm (List.range ((gguf.getU32 "expert_count").getD 0)) ∧
        ∀ pos e, order[pos]? = some e →
          (fusedLayout gguf sidecar layer t r).mapExpertId e = pos := by
    intro hnone
    refine ⟨List.range _, List.Perm.refl _, fun pos e he => ?_⟩
    obtain ⟨hlt, hpos⟩ := List.getElem?_eq_some_iff.mp he
    rw [List.getElem_range] at hpos
    simp [ExpertLayout.mapExpertId, fusedLayout, hnone, hpos]
  cases hperm : loadPermutations sidecar layer with
  | none => exact hnatural hperm
  | some perm =>
      unfold loadPermutations at hperm
      split at hperm
      · next forward =>
          obtain ⟨fwd, hfwd, rfl⟩ := Option.map_eq_some_iff.mp hperm
          have hp := hside forward rfl fwd hfwd
          refine ⟨fwd, hp, fun pos e he => ?_⟩
          simp [ExpertLayout.mapExpertId, fusedLayout, loadPermutations, hfwd,
            invertPermutation_getElem? hp he]
      · cases hperm
      · cases hperm

/-- In a layer whose sidecar is a true permutation every expert has a place of its own. -/
theorem fusedLayout_places {gguf : GgufFile} {sidecar : Option Sidecar} {layer : Nat}
    (hside : TruePermutation sidecar layer ((gguf.getU32 "expert_count").getD 0))
    (t : TensorInfo) (r : Region) :
    (∀ pos < (gguf.getU32 "expert_count").getD 0, ∃ e < (gguf.getU32 "expert_count").getD 0,
        (fusedLayout gguf sidecar layer t r).mapExpertId e = pos) ∧
      (∀ e < (gguf.getU32 "expert_count").getD 0,
        (fusedLayout gguf sidecar layer t r).mapExpertId e < (gguf.getU32 "expert_count").getD 0) ∧
      ∀ e e', e < (gguf.getU32 "expert_count").getD 0 → e' < (gguf.getU32 "expert_count").getD 0 →
        (fusedLayout gguf sidecar layer t r).mapExpertId e =
          (fusedLayout gguf sidecar layer t r).mapExpertId e' → e = e' := by
  obtain ⟨order, hperm, hmap⟩ := mapExpertId_fusedLayout hside t r
  generalize (gguf.getU32 "expert_count").getD 0 = n at hperm ⊢
  have hplace : ∀ e < n, ∃ pos < n, order[pos]? = some e := by
    intro e he
    obtain ⟨pos, hpos⟩ :=
      List.mem_iff_getElem?.mp (hperm.mem_iff.mpr (List.mem_range.mpr he))
    have hlt := (List.getElem?_eq_some_iff.mp hpos).1
    rw [hperm.length_eq, List.length_range] at hlt
    exact ⟨pos, hlt, hpos⟩
  refine ⟨fun pos hpos => ?_, fun e he => ?_, fun e e' he he' heq => ?_⟩
  · have hlt : pos < order.length := by
      rw [hperm.length_eq, List.length_range]
      exact hpos
    exact ⟨order[pos], List.mem_range.mp (hperm.mem_iff.mp (List.getElem_mem hlt)),
      hmap pos _ (List.getElem?_eq_getElem hlt)⟩
  · obtain ⟨pos, hlt, hpos⟩ := hplace e he
    rw [hmap pos e hpos]
    exact hlt
  · obtain ⟨pos, -, hpos⟩ := hplace e he
    obtain ⟨pos', -, hpos'⟩ := hplace e' he'
    rw [hmap pos e hpos, hmap pos' e' hpos'] at heq
    rw [heq, hpos'] at hpos
    exact (Option.some.inj hpos).symm

theorem dividing_fusedLayout {gguf : GgufFile} {sidecar : Option Sidecar} {layer : Nat}
    (hside : TruePermutation sidecar layer ((gguf.getU32 "expert_count").getD 0))
    {t : TensorInfo} {r : Region} (hdiv : (gguf.getU32 "expert_count").getD 0 ∣ r.size) :
    (fusedLayout gguf sidecar layer t r).Dividing := by
  obtain ⟨honto, hinto, -⟩ := fusedLayout_places hside t r
  exact ⟨(Nat.mul_div_cancel' hdiv).symm, honto, hinto⟩

/-! ### All experts against a full load -/

section Loads
variable {gguf : GgufFile} {map : TensorMap} {sidecar : Option Sidecar} {numLayers : Nat}
  {nvmeLayers : Finset Nat} {l : Nat} {rt : Runtime} {m : Machine} {cs : List NeuronCache.Call}

/-- A layer with fused experts as the runtime finds it: a model file, the captured
tensors, sizes that the expert count divides, and a cache without the layer. -/
structure FreshLayer (gguf : GgufFile) (map : TensorMap) (sidecar : Option Sidecar)
    (rt : Runtime) (m : Machine) (l : Nat) (cs : List NeuronCache.Call) : Prop where
  names : (gguf.tensors.map (·.name)).Nodup
  captured : Captured map
  config : ∃ numLayers nvmeLayers,
    rt.config = buildPrefetchState gguf map sidecar numLayers nvmeLayers
  fused : rt.config.expertLayouts l ≠ []
  sidecar_perm : TruePermutation sidecar l rt.config.numExpertsTotal
  divides : ∀ layout ∈ rt.config.expertLayouts l, rt.config.numExpertsTotal ∣ layout.totalSize
  cache : m.neuronCache = (NeuronCache.calls rt.config.cacheCapacity cs).1
  absent : ∀ key ∈ m.neuronCache.entries, key.1 ≠ l

namespace FreshLayer

theorem numExperts_eq (h : FreshLayer gguf map sidecar rt m l cs) {layout : ExpertLayout}
    (hm : layout ∈ rt.config.expertLayouts l) : layout.numExperts = rt.config.numExpertsTotal := by
  obtain ⟨numLayers, nvmeLayers, hcfg⟩ := h.config
  rw [hcfg] at hm ⊢
  obtain ⟨-, t, -, -, -, r, -, rfl⟩ := (mem_expertLayouts_iff h.names).mp hm
  rfl

theorem dividing (h : FreshLayer gguf map sidecar rt m l cs) {layout : ExpertLayout}
    (hm : layout ∈ rt.config.expertLayouts l) : layout.Dividing := by
  obtain ⟨numLayers, nvmeLayers, hcfg⟩ := h.config
  have hdiv := h.divides layout hm
  have hside := h.sidecar_perm
  rw [hcfg] at hm hdiv hside
  obtain ⟨-, t, -, -, -, r, -, rfl⟩ := (mem_expertLayouts_iff h.names).mp hm
  exact dividing_fusedLayout hside hdiv

/-- A layer's regions are the other regions and the whole fused tensors. -/
theorem mem_copies_layerRegions (h : FreshLayer gguf map sidecar rt m l cs) {p : Nat × Nat} :
    p ∈ copies (rt.config.layerRegions l) ↔ p ∈ copies (rt.config.nonExpertRegions l) ∨
      ∃ layout ∈ rt.config.expertLayouts l, p ∈ layout.whole.copies := by
  obtain ⟨numLayers, nvmeLayers, hcfg⟩ := h.config
  have hfused := h.fused
  rw [hcfg] at hfused ⊢
  have hpos := ((mem_expertLayouts_iff h.names).mp
    (List.exists_mem_of_ne_nil _ hfused).choose_spec).1
  constructor
  · intro hp
    obtain ⟨r, hr, hp⟩ := hp
    obtain ⟨t, ht, hl, htr⟩ := (mem_layerRegions h.names h.captured).mp hr
    by_cases hrole : TensorRole.fromName t.name = .moeFusedExperts
    · exact .inr ⟨_, (mem_expertLayouts_iff h.names).mpr ⟨hpos, t, ht, hl, hrole, r, htr, rfl⟩, hp⟩
    · exact .inl ⟨r, (mem_nonExpertRegions h.names hfused).mpr ⟨t, ht, hl, hrole, htr⟩, hp⟩
  · intro hp
    rcases hp with ⟨r, hr, hp⟩ | ⟨layout, hm, hp⟩
    · obtain ⟨t, ht, hl, -, htr⟩ := (mem_nonExpertRegions h.names hfused).mp hr
      exact ⟨r, (mem_layerRegions h.names h.captured).mpr ⟨t, ht, hl, htr⟩, hp⟩
    · obtain ⟨-, t, ht, hl, -, r, htr, rfl⟩ := (mem_expertLayouts_iff h.names).mp hm
      exact ⟨r, (mem_layerRegions h.names h.captured).mpr ⟨t, ht, hl, htr⟩, hp⟩

/-- The first byte of a tensor is copied by no region of another tensor. -/
theorem not_mem_other (h : FreshLayer gguf map sidecar rt m l cs) {pre post : List ExpertLayout}
    {layout : ExpertLayout} (heq : rt.config.expertLayouts l = pre ++ layout :: post)
    (hsize : 0 < layout.totalSize) :
    (layout.bufferOffset, layout.fileOffset) ∉ copies (rt.config.nonExpertRegions l) ∧
      ∀ other ∈ pre ++ post, (layout.bufferOffset, layout.fileOffset) ∉ other.whole.copies := by
  obtain ⟨numLayers, nvmeLayers, hcfg⟩ := h.config
  have hfused := h.fused
  have hnodup : (((buildPrefetchState gguf map sidecar numLayers nvmeLayers).expertLayouts l).map
      (·.tensorName)).Nodup := nodup_expertLayouts_names h.names
  rw [hcfg] at hfused heq ⊢
  have hmem : layout ∈ (buildPrefetchState gguf map sidecar numLayers nvmeLayers).expertLayouts l :=
    heq ▸ by simp
  obtain ⟨-, t, ht, -, hrole, r, htr, rfl⟩ := (mem_expertLayouts_iff h.names).mp hmem
  -- no region of a tensor with another name
  have hapart : ∀ {t' : TensorInfo} {r' : Region}, t.name ≠ t'.name →
      tensorRegion gguf map t' = some r' → (r.dst, r.fileOffset) ∉ r'.copies := by
    intro t' r' hne htr' hp
    obtain ⟨k, hk, hp⟩ := hp
    have hdst : r.dst = r'.dst + k := congrArg Prod.fst hp
    have hsize : 0 < r.size := hsize
    rcases h.captured.disjointRanges hne htr htr' with hd | hd <;> omega
  refine ⟨fun hp => ?_, fun other hother => ?_⟩
  · obtain ⟨r', hr', hp⟩ := hp
    obtain ⟨t', -, -, hrole', htr'⟩ := (mem_nonExpertRegions h.names hfused).mp hr'
    exact hapart (fun hname => hrole' (hname ▸ hrole)) htr' hp
  · have hmem' : other ∈ (buildPrefetchState gguf map sidecar numLayers nvmeLayers).expertLayouts l := by
      rw [heq]
      rcases List.mem_append.mp hother with ho | ho
      · exact List.mem_append_left _ ho
      · exact List.mem_append_right _ (List.mem_cons_of_mem _ ho)
    obtain ⟨-, t', -, -, -, r', htr', rfl⟩ := (mem_expertLayouts_iff h.names).mp hmem'
    refine hapart (fun hname => ?_) htr'
    rw [heq, List.map_append, List.map_cons] at hnodup
    have hmid := (List.perm_middle.nodup_iff.mp hnodup)
    refine (List.nodup_cons.mp hmid).1 ?_
    rw [← List.map_append]
    exact List.mem_map.mpr ⟨_, hother, hname.symm⟩

theorem nodup_expertLayouts (h : FreshLayer gguf map sidecar rt m l cs) :
    (rt.config.expertLayouts l).Nodup := by
  obtain ⟨numLayers, nvmeLayers, hcfg⟩ := h.config
  rw [hcfg]
  exact (nodup_expertLayouts_names h.names).of_map _

/-- A layout comes after the same ones wherever it is found. -/
theorem eq_of_split (h : FreshLayer gguf map sidecar rt m l cs) {pre post pre' post' : List ExpertLayout}
    {layout : ExpertLayout} (heq : rt.config.expertLayouts l = pre ++ layout :: post)
    (heq' : rt.config.expertLayouts l = pre' ++ layout :: post') : pre' = pre := by
  have hnodup := h.nodup_expertLayouts
  rw [heq] at hnodup
  obtain ⟨-, hright, hdisj⟩ := List.nodup_append.mp hnodup
  have hpost : layout ∉ post := (List.nodup_cons.mp hright).1
  have hpre : layout ∉ pre := fun hmem => hdisj _ hmem _ List.mem_cons_self rfl
  exact ((List.append_cons_inj_of_notMem hpre hpost).mp (heq.symm.trans heq')).1.symm

/-- The cache is that of the calls so far, with nothing of the layer in it. -/
theorem windows (h : FreshLayer gguf map sidecar rt m l cs) :
    m.neuronCache.Windows
        (m.neuronCache.lruOrder ++ blocks l rt.config.numExpertsTotal []) ∧
      m.neuronCache.capacity = rt.config.cacheCapacity ∧
      ∀ key ∈ m.neuronCache.lruOrder, key.1 ≠ l := by
  have hcap : 1 ≤ rt.config.cacheCapacity := by
    obtain ⟨numLayers, nvmeLayers, hcfg⟩ := h.config
    rw [hcfg]
    show 1 ≤ max _ 16
    omega
  obtain ⟨hrefines, hcapacity⟩ := NeuronCache.refines_calls hcap cs
  rw [← h.cache] at hrefines hcapacity
  refine ⟨?_, hcapacity, fun key hkey => h.absent key (hrefines.perm.mem_iff.mp hkey)⟩
  simpa [blocks] using hrefines.windows (hcap.trans_eq hcapacity.symm)

/-- What a load by expert of all experts reads. -/
theorem mem_planLayer_all (h : FreshLayer gguf map sidecar rt m l cs)
    (hsel : m.selectedExperts l = some (List.range rt.config.numExpertsTotal)) (r : Region) :
    r ∈ (planLayer rt m l).tasks.flatten ↔ r ∈ rt.config.nonExpertRegions l ∨
      ∃ pre layout post, rt.config.expertLayouts l = pre ++ layout :: post ∧
        ¬ Shadowed rt.config.cacheCapacity rt.config.numExpertsTotal
          ((pre.map (·.tensorType)).foldl touch []) layout.tensorType ∧
        ∃ e < rt.config.numExpertsTotal, r = layout.bufferRegion e := by
  obtain ⟨hwindows, hcapacity, hbase⟩ := h.windows
  have hplan : planLayer rt m l = planSlices rt.config m.neuronCache l
      (List.range rt.config.numExpertsTotal) := by
    unfold planLayer
    rw [hsel]
    exact if_neg h.fused
  rw [hplan]
  show r ∈ (nonExpertTask rt.config l ++ _).flatten ↔ _
  rw [List.flatten_append, flatten_nonExpertTask, List.mem_append,
    mem_flatten_expertTasks_all hbase List.nodup_nil
      (fun p hp => h.numExperts_eq (mem_bufferPlaces.mp hp).1) hwindows, hcapacity]
  refine or_congr_right ⟨fun hr => ?_, fun hr => ?_⟩
  · obtain ⟨pre, p, post, heq, hnot, e, he, hre⟩ := hr
    obtain ⟨hm, hplace⟩ := mem_bufferPlaces.mp (heq ▸ by simp : p ∈ bufferPlaces rt.config l)
    refine ⟨pre.map Prod.fst, p.1, post.map Prod.fst, ?_, ?_, e, he, ?_⟩
    · rw [← bufferPlaces_map_fst, heq, List.map_append, List.map_cons]
    · rwa [List.map_map]
    · rw [hre, hplace]
  · obtain ⟨pre, layout, post, heq, hnot, e, he, hre⟩ := hr
    refine ⟨pre.map fun x => (x, x.bufferRegion), (layout, layout.bufferRegion),
      post.map fun x => (x, x.bufferRegion), ?_, ?_, e, he, hre⟩
    · rw [bufferPlaces, heq, List.map_append, List.map_cons]
    · rwa [List.map_map]

/-- Where the first byte of a tensor is copied, the tensor was read by expert. -/
theorem not_shadowed (h : FreshLayer gguf map sidecar rt m l cs)
    (hsel : m.selectedExperts l = some (List.range rt.config.numExpertsTotal))
    {pre post : List ExpertLayout} {layout : ExpertLayout}
    (heq : rt.config.expertLayouts l = pre ++ layout :: post) (hsize : 0 < layout.totalSize)
    (hcopied : (layout.bufferOffset, layout.fileOffset) ∈ copies (planLayer rt m l).tasks.flatten) :
    ¬ Shadowed rt.config.cacheCapacity rt.config.numExpertsTotal
      ((pre.map (·.tensorType)).foldl touch []) layout.tensorType := by
  obtain ⟨hother, hothers⟩ := h.not_mem_other heq hsize
  obtain ⟨r, hr, hp⟩ := hcopied
  rcases (h.mem_planLayer_all hsel r).mp hr with hr | ⟨pre', layout', post', heq', hnot, e, he, rfl⟩
  · exact absurd ⟨r, hr, hp⟩ hother
  · have hmem' : layout' ∈ rt.config.expertLayouts l := heq' ▸ by simp
    have hwhole := (h.dividing hmem').slice_subset (h.numExperts_eq hmem' ▸ he) hp
    rw [heq] at hmem'
    rcases List.mem_append.mp hmem' with hm | hm
    · exact absurd hwhole (hothers layout' (List.mem_append_left _ hm))
    · rcases List.mem_cons.mp hm with rfl | hm
      · rwa [h.eq_of_split heq heq'] at hnot
      · exact absurd hwhole (hothers layout' (List.mem_append_right _ hm))

/-- Nothing is copied that a full load does not copy. -/
theorem copies_subset (h : FreshLayer gguf map sidecar rt m l cs)
    (hsel : m.selectedExperts l = some (List.range rt.config.numExpertsTotal)) :
    copies (planLayer rt m l).tasks.flatten ⊆ copies (rt.config.layerRegions l) := by
  intro p hp
  obtain ⟨r, hr, hp⟩ := hp
  rw [h.mem_copies_layerRegions]
  rcases (h.mem_planLayer_all hsel r).mp hr with hr | ⟨pre, layout, post, heq, -, e, he, rfl⟩
  · exact .inl ⟨r, hr, hp⟩
  · have hmem : layout ∈ rt.config.expertLayouts l := heq ▸ by simp
    exact .inr ⟨layout, hmem, (h.dividing hmem).slice_subset (h.numExperts_eq hmem ▸ he) hp⟩

/-- Where no tensor with data is shadowed, all of it is. -/
theorem copies_supset (h : FreshLayer gguf map sidecar rt m l cs)
    (hsel : m.selectedExperts l = some (List.range rt.config.numExpertsTotal))
    (hnone : ∀ pre layout post, rt.config.expertLayouts l = pre ++ layout :: post →
      0 < layout.totalSize → ¬ Shadowed rt.config.cacheCapacity rt.config.numExpertsTotal
        ((pre.map (·.tensorType)).foldl touch []) layout.tensorType) :
    copies (rt.config.layerRegions l) ⊆ copies (planLayer rt m l).tasks.flatten := by
  intro p hp
  rcases h.mem_copies_layerRegions.mp hp with ⟨r, hr, hp⟩ | ⟨layout, hmem, hp⟩
  · exact ⟨r, (h.mem_planLayer_all hsel r).mpr (.inl hr), hp⟩
  · obtain ⟨pre, post, heq⟩ := List.append_of_mem hmem
    have hsize : 0 < layout.totalSize := by
      obtain ⟨k, hk, -⟩ := hp
      exact Nat.zero_lt_of_lt hk
    rw [← (h.dividing hmem).slices_eq] at hp
    obtain ⟨e, he, hp⟩ := hp
    exact ⟨_, (h.mem_planLayer_all hsel _).mpr (.inr ⟨pre, layout, post, heq,
      hnone pre layout post heq hsize, e, h.numExperts_eq hmem ▸ he, rfl⟩), hp⟩

end FreshLayer

/-- **A load by expert of all experts copies what a full load copies exactly when no
tensor finds the slices of an earlier one in the cache.** -/
theorem planLayer_allExperts_iff (h : FreshLayer gguf map sidecar rt m l cs)
    (hsel : m.selectedExperts l = some (List.range rt.config.numExpertsTotal)) :
    copies (planLayer rt m l).tasks.flatten = copies (planFull rt m l).tasks.flatten ↔
      KeysExpire rt.config.cacheCapacity rt.config.numExpertsTotal
        (rt.config.expertLayouts l) := by
  rw [keysExpire_iff, flatten_planFull]
  constructor
  · intro hcopies pre layout post heq hsize
    have hmem : layout ∈ rt.config.expertLayouts l := heq ▸ by simp
    -- the first byte tells
    have hin : (layout.bufferOffset, layout.fileOffset) ∈ copies (rt.config.layerRegions l) :=
      h.mem_copies_layerRegions.mpr (.inr ⟨layout, hmem, 0, hsize, rfl⟩)
    exact h.not_shadowed hsel heq hsize (hcopies ▸ hin)
  · intro hnone
    exact (h.copies_subset hsel).antisymm (h.copies_supset hsel hnone)

end Loads

/-! ### A weight and a bias -/

/-- Two experts, and for their gates a weight and a bias tensor. -/
def biasedGguf : GgufFile where
  version := 3
  metadata := fun key =>
    if key = "general.architecture" then some (.string "llama")
    else if key = "llama.expert_count" then some (.uint32 2)
    else none
  tensors :=
    [⟨"blk.0.ffn_gate_exps.weight", [4], .i8, 0, 4, some 0⟩,
      ⟨"blk.0.ffn_gate_exps.bias", [4], .i8, 32, 4, some 0⟩]
  dataOffset := 128

def biasedMap : TensorMap :=
  [("blk.0.ffn_gate_exps.weight", ⟨0, 4, 0, none⟩), ("blk.0.ffn_gate_exps.bias", ⟨32, 4, 0, none⟩)]

/-- The standard mode on that model, its only layer on NVMe. -/
def biasedRuntime : Runtime where
  config := buildPrefetchState biasedGguf biasedMap none 1 {0}
  file := []
  pageSize := 16384
  bufferBaseNull := false
  ioPoolStarted := true
  prefetchEnabled := true
  keepNvmeResident := false
  expertStreaming := false
  denseFfnStreaming := false
  denseFfnLookahead := 3
  residentFfnLayers := ∅
  residentFfnOffsets := fun _ => none

/-- Nothing loaded yet, and both experts selected. -/
def biasedMachine : Machine :=
  { Machine.start biasedRuntime (.new 1 2) none 1 with selectedExperts := fun _ => some [0, 1] }

theorem freshLayer_biased : FreshLayer biasedGguf biasedMap none biasedRuntime biasedMachine 0 [] where
  names := by decide
  captured := ⟨by decide, by decide, by simp [biasedMap, DisjointRanges]⟩
  config := ⟨1, {0}, rfl⟩
  fused := by decide
  sidecar_perm forward h := by cases h
  divides := by decide
  cache := rfl
  absent key h := by cases h

/-- On that model the two loads copy the same only if the bias tensor's keys expire. -/
theorem biased_allExperts_iff :
    copies (planLayer biasedRuntime biasedMachine 0).tasks.flatten =
        copies (planFull biasedRuntime biasedMachine 0).tasks.flatten ↔
      KeysExpire biasedRuntime.config.cacheCapacity biasedRuntime.config.numExpertsTotal
        (biasedRuntime.config.expertLayouts 0) :=
  planLayer_allExperts_iff freshLayer_biased (by rfl)

/-- They do not: by expert the bias tensor is not read at all. -/
theorem planLayer_biased_ne :
    FreshLayer biasedGguf biasedMap none biasedRuntime biasedMachine 0 [] ∧
      biasedMachine.selectedExperts 0 =
        some (List.range biasedRuntime.config.numExpertsTotal) ∧
      copies (planLayer biasedRuntime biasedMachine 0).tasks.flatten ≠
        copies (planFull biasedRuntime biasedMachine 0).tasks.flatten := by
  refine ⟨freshLayer_biased, by rfl, fun heq => ?_⟩
  have hcap : biasedRuntime.config.cacheCapacity = 16 := by
    show max ((List.filter _ (({0} : Finset Nat).sort (· ≤ ·))).length * 3 * 3) 16 = 16
    rw [Finset.sort_singleton]
    decide
  have hcache : biasedMachine.neuronCache = .new 16 := congrArg NeuronCache.new hcap
  have hplan : (planLayer biasedRuntime biasedMachine 0).tasks.flatten =
      [⟨0, 2, 128⟩, ⟨2, 2, 130⟩] := by
    show (planSlices biasedRuntime.config biasedMachine.neuronCache 0 [0, 1]).tasks.flatten = _
    rw [hcache]
    decide
  have hfull : (32, 160) ∈ copies (planFull biasedRuntime biasedMachine 0).tasks.flatten := by
    rw [flatten_planFull]
    exact ⟨⟨32, 4, 160⟩, by decide, 0, by decide, rfl⟩
  rw [← heq, hplan] at hfull
  obtain ⟨r, hr, k, hk, hp⟩ := hfull
  have hdst : 32 = r.dst + k := congrArg Prod.fst hp
  rcases List.mem_cons.mp hr with rfl | hr
  · change k < 2 at hk
    change 32 = 0 + k at hdst
    omega
  · rw [List.mem_singleton.mp hr] at hk hdst
    change k < 2 at hk
    change 32 = 2 + k at hdst
    omega

end Hypura
