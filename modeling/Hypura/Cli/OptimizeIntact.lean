import Hypura.Compute.Regions
import Hypura.Cli.OptimizeFailure
import Hypura.Cli.OptimizeSound

/-!
# Hypura.Cli.OptimizeIntact

What a failed run of `optimize` leaves for the runtime. The runtime opens the output with
the sidecar it finds next to it, and takes every expert from the place the sidecar gives
(`ReadsOriginal`).

* `run_error_intact_iff` — after a failure the files are sound exactly when the failure
  is `Harmless` where it happens,
* `sidecarRefused_not_intact` — a run on recorded statistics after which they are not.
-/

namespace Hypura.Optimize

open Hypura.Core Hypura.Rust

/-! ### What the runtime relies on -/

/-- The output opens as the model does, and through `expert_file_offset` every layout reads
the bytes that the expert has in the model. -/
structure ReadsOriginal (gguf : GgufFile) (model output : List UInt8) (sidecar : Option Sidecar) :
    Prop where
  header : GgufFile.parse output = .ok gguf
  experts : ∀ (map : TensorMap) (numLayers : Nat) (nvmeLayers : Finset Nat), SizesAgree gguf map →
    ∀ layer, ∀ layout ∈ (buildPrefetchState gguf map sidecar numLayers nvmeLayers).expertLayouts layer,
      ∀ e < layout.numExperts, ∀ k < layout.expertStride,
        output[layout.expertFileOffset e + k]? =
          model[layout.fileOffset + (e * layout.expertStride + k)]?

/-- There is no output, or it is sound with the sidecar next to it. -/
def Intact (gguf : GgufFile) (model : List UInt8) (disk : Disk) : Prop :=
  ∀ output, disk.output = some output → ReadsOriginal gguf model output disk.sidecar

/-- The place at which the runtime looks for an expert. -/
def placeOf (sidecar : Option Sidecar) (layer e : Nat) : Nat :=
  ((loadPermutations sidecar layer).bind fun inverse => inverse[e]?).getD e

/-- In a file that holds `content`, the place of every expert has that expert's bytes. -/
def FindsExperts (gguf : GgufFile) (model : List UInt8) (content : Nat → Option UInt8)
    (sidecar : Option Sidecar) : Prop :=
  ∀ t ∈ gguf.tensors, ∀ layer, fusedLayer t = some layer →
    ∀ e < (gguf.getU32 "expert_count").getD 0,
      ∀ k < t.sizeBytes / (gguf.getU32 "expert_count").getD 0,
        content (gguf.dataOffset + t.offset +
            (placeOf sidecar layer e * (t.sizeBytes / (gguf.getU32 "expert_count").getD 0) + k)) =
          model[gguf.dataOffset + t.offset +
            (e * (t.sizeBytes / (gguf.getU32 "expert_count").getD 0) + k)]?

/-- Place `j` of the tensor has its new byte. -/
def rewritten (done : List TensorInfo) (cut : Option (TensorInfo × Nat)) (t : TensorInfo) (j : Nat) :
    Bool :=
  t ∈ done || cut.any fun p => p.1 = t && j < p.2

/-- The expert whose bytes place `p` of the tensor holds: where it is rewritten, the one that
its layer's new order has there. -/
def heldExpert (perms : List (Nat × List Nat)) (stride : Nat) (done : List TensorInfo)
    (cut : Option (TensorInfo × Nat)) (t : TensorInfo) (p k : Nat) : Nat :=
  if rewritten done cut t (p * stride + k) then ((permOf perms t).getD [])[p]?.getD p else p

/-- With the tensors of `done` and the first bytes of `cut` rewritten: where the sidecar
places an expert stands that expert, or one with the same bytes. (A place beyond the
experts, as only a sidecar of another model gives it, must hold these bytes too.) -/
def KeepsExperts (coAct : Option CoActivationMatrix) (gguf : GgufFile) (model : List UInt8)
    (done : List TensorInfo) (cut : Option (TensorInfo × Nat)) (sidecar : Option Sidecar) : Prop :=
  let numExperts := (gguf.getU32 "expert_count").getD 0
  let perms := (plannedPermutations coAct gguf).getD []
  ∀ t ∈ gguf.tensors, ∀ layer, fusedLayer t = some layer →
    let start := gguf.dataOffset + t.offset
    let stride := t.sizeBytes / numExperts
    ∀ e < numExperts, ∀ k < stride,
      let p := placeOf sidecar layer e
      (if p < numExperts then model[start + (heldExpert perms stride done cut t p k * stride + k)]?
        else copyByte gguf numExperts perms model done cut (start + (p * stride + k))) =
        model[start + (e * stride + k)]?

/-- A stop that does no harm, on the disk `d` before the run: before any write, if the files
were sound; when the output is deleted; in a copy that ends early, if it holds all that is
looked for; and later, if the experts stand where the sidecar, as it then is, places them. -/
def Stop.Harmless (coAct : Option CoActivationMatrix) (gguf : GgufFile) (d : Disk) : Stop → Prop
  | .untouched => Intact gguf d.model d
  | .copying n => GgufFile.parse (d.model.take n) = .ok gguf ∧
      FindsExperts gguf d.model (fun i => if i < n then d.model[i]? else none) d.sidecar
  | .rewriting done cut => KeepsExperts coAct gguf d.model done cut d.sidecar
  | .removed => True
  | .sidecarCut done => KeepsExperts coAct gguf d.model done none none

section Intact
variable {gguf : GgufFile} {model output : List UInt8} {sidecar : Option Sidecar}
  {content : Nat → Option UInt8} {coAct : Option CoActivationMatrix} {d : Disk}

theorem fusedLayout_expertFileOffset {layer e : Nat} {t : TensorInfo} {r : Region} :
    (fusedLayout gguf sidecar layer t r).expertFileOffset e =
      r.fileOffset + placeOf sidecar layer e * (fusedLayout gguf sidecar layer t r).expertStride := by
  unfold ExpertLayout.expertFileOffset ExpertLayout.mapExpertId placeOf fusedLayout
  cases loadPermutations sidecar layer <;> rfl

/-- A loader that places one tensor alone gives it its size. -/
theorem sizesAgree_singleton (hnames : (gguf.tensors.map (·.name)).Nodup) {t : TensorInfo}
    (ht : t ∈ gguf.tensors) : SizesAgree gguf [(t.name, ⟨0, t.sizeBytes, 0, none⟩)] := by
  intro t' ht' loc hloc
  rw [List.lookup_cons, List.lookup_nil] at hloc
  split at hloc
  · next hname =>
      rw [List.inj_on_of_nodup_map hnames ht' ht (beq_iff_eq.mp hname)]
      exact (Option.some.inj hloc) ▸ rfl
  · cases hloc

/-- What the layouts read, tensor by tensor. -/
theorem readsOriginal_iff (hnames : (gguf.tensors.map (·.name)).Nodup)
    (hcontent : ∀ i, output[i]? = content i) :
    ReadsOriginal gguf model output sidecar ↔
      GgufFile.parse output = .ok gguf ∧ FindsExperts gguf model content sidecar := by
  constructor
  · intro h
    refine ⟨h.header, fun t ht layer hlayer e he k hk => ?_⟩
    obtain ⟨hrole, hl⟩ := fusedLayer_eq_some hlayer
    have hone : tensorRegion gguf [(t.name, ⟨0, t.sizeBytes, 0, none⟩)] t =
        some ⟨0, t.sizeBytes, gguf.dataOffset + t.offset⟩ := by
      rw [tensorRegion, List.lookup_cons, beq_self_eq_true]
      rfl
    have hread := h.experts _ 0 ∅ (sizesAgree_singleton hnames ht) layer _
      ((mem_expertLayouts_iff hnames).mpr ⟨by omega, t, ht, hl, hrole, _, hone, rfl⟩) e he k hk
    rw [fusedLayout_expertFileOffset, Nat.add_assoc, hcontent] at hread
    exact hread
  · rintro ⟨hheader, hfinds⟩
    refine ⟨hheader, fun map numLayers nvmeLayers hsizes layer layout hlayout e he k hk => ?_⟩
    obtain ⟨-, t, ht, hl, hrole, r, hr, rfl⟩ := (mem_expertLayouts_iff hnames).mp hlayout
    obtain ⟨loc, hloc, rfl⟩ := Option.map_eq_some_iff.mp hr
    have hlayer : fusedLayer t = some layer := (if_pos hrole).trans hl
    have hsize := hsizes t ht loc hloc
    rw [fusedLayout_expertFileOffset, Nat.add_assoc, hcontent]
    simp only [fusedLayout, hsize] at hk he ⊢
    exact hfinds t ht layer hlayer e he k hk

/-- Before the first tensor a copy holds the model's bytes. -/
theorem copyByte_header {numExperts : Nat} {perms : List (Nat × List Nat)} {done : List TensorInfo}
    {cut : Option (TensorInfo × Nat)} {i : Nat} (hi : i < gguf.dataOffset) :
    copyByte gguf numExperts perms model done cut i = model[i]? := by
  have hnot : ∀ t, ¬ covers gguf t i := by
    intro t ht
    rw [covers_iff] at ht
    omega
  unfold copyByte
  rw [List.find?_eq_none.mpr fun t _ => hnot t]
  cases cut with
  | none => rfl
  | some p => exact if_neg fun h => hnot p.1 h.1

/-- A complete copy, at any stage of the rewriting, opens as the model does. -/
theorem intact_of_copyByte (hnames : (gguf.tensors.map (·.name)).Nodup)
    (hparse : GgufFile.parse model = .ok gguf) {numExperts : Nat} {perms : List (Nat × List Nat)}
    {done : List TensorInfo} {cut : Option (TensorInfo × Nat)} {d' : Disk}
    (hout : d'.output = some output)
    (hbytes : ∀ i, output[i]? = copyByte gguf numExperts perms model done cut i) :
    Intact gguf model d' ↔
      FindsExperts gguf model (copyByte gguf numExperts perms model done cut) d'.sidecar := by
  have hopens : GgufFile.parse output = .ok gguf :=
    parse_of_prefix_eq hparse fun i hi => (hbytes i).trans (copyByte_header hi)
  rw [Intact, hout]
  simp only [Option.some.injEq, forall_eq', readsOriginal_iff hnames hbytes, hopens, true_and]

/-! ### Experts in a copy -/

/-- A place in a tensor is in no other. -/
theorem eq_of_covers (hdisj : gguf.tensors.Pairwise DisjointData) {t t' : TensorInfo}
    (ht : t ∈ gguf.tensors) (ht' : t' ∈ gguf.tensors) {i : Nat} (hi : covers gguf t i)
    (hi' : covers gguf t' i) : t' = t := by
  by_contra hne
  have hsymm : Std.Symm DisjointData := ⟨fun _ _ h => Or.symm h⟩
  have := hdisj.forall ht' ht hne
  rw [covers_iff] at hi hi'
  unfold DisjointData at this
  omega

/-- What place `p` of a tensor holds, in a copy at any stage. -/
theorem copyByte_place (hdisj : gguf.tensors.Pairwise DisjointData) {numExperts : Nat}
    {perms : List (Nat × List Nat)} {done : List TensorInfo} {cut : Option (TensorInfo × Nat)}
    (hmem : done ++ (cut.map Prod.fst).toList ⊆ gguf.tensors) {t : TensorInfo}
    (ht : t ∈ gguf.tensors) {perm : List Nat} (hperm : permOf perms t = some perm)
    (hlen : perm.length = numExperts) {p k : Nat} (hp : p < numExperts)
    (hk : k < t.sizeBytes / numExperts) :
    copyByte gguf numExperts perms model done cut
        (gguf.dataOffset + t.offset + (p * (t.sizeBytes / numExperts) + k)) =
      model[gguf.dataOffset + t.offset +
        (heldExpert perms (t.sizeBytes / numExperts) done cut t p k *
          (t.sizeBytes / numExperts) + k)]? := by
  generalize hstride : t.sizeBytes / numExperts = stride at hk ⊢
  have hinside : p * stride + k < numExperts * stride := by
    have := Nat.mul_le_mul_right stride (Nat.succ_le_of_lt hp)
    rw [Nat.succ_mul] at this
    omega
  have hi : covers gguf t (gguf.dataOffset + t.offset + (p * stride + k)) := by
    have : numExperts * stride ≤ t.sizeBytes := hstride ▸ Nat.mul_div_le _ _
    exact covers_iff.mpr ⟨by omega, by omega⟩
  have hnew : tensorByte gguf numExperts perms model t
      (gguf.dataOffset + t.offset + (p * stride + k)) =
        model[gguf.dataOffset + t.offset + (perm[p]?.getD p * stride + k)]? := by
    have hdiv : (p * stride + k) / stride = p := by
      rw [Nat.mul_comm, Nat.mul_add_div (by omega), Nat.div_eq_of_lt hk, Nat.add_zero]
    have hmod : (p * stride + k) % stride = k := by
      rw [Nat.mul_comm, Nat.mul_add_mod, Nat.mod_eq_of_lt hk]
    rw [tensorByte, hperm, hstride, Nat.add_sub_cancel_left, movedByte, Option.getD_some, hlen,
      if_pos hinside, hdiv, hmod, List.getElem?_eq_getElem (by omega)]
    rfl
  rw [heldExpert, hperm, Option.getD_some]
  by_cases hdone : t ∈ done
  · have hfind : done.find? (covers gguf · (gguf.dataOffset + t.offset + (p * stride + k))) =
        some t := by
      have hsome : (done.find? (covers gguf ·
          (gguf.dataOffset + t.offset + (p * stride + k)))).isSome :=
        List.find?_isSome.mpr ⟨t, hdone, hi⟩
      obtain ⟨t', ht'⟩ := Option.isSome_iff_exists.mp hsome
      have hcov := List.find?_some ht'
      rw [ht', eq_of_covers hdisj ht
        (hmem (List.mem_append_left _ (List.mem_of_find?_eq_some ht'))) hi hcov]
    unfold copyByte
    rw [hfind]
    simp only
    rw [hnew, rewritten, decide_eq_true hdone, Bool.true_or, if_pos rfl]
  · have hfind : done.find? (covers gguf · (gguf.dataOffset + t.offset + (p * stride + k))) =
        none := by
      refine List.find?_eq_none.mpr fun t' ht' hi' => hdone ?_
      rwa [← eq_of_covers hdisj ht (hmem (List.mem_append_left _ ht')) hi hi']
    unfold copyByte
    rw [hfind, rewritten, decide_eq_false hdone, Bool.false_or]
    cases cut with
    | none => rfl
    | some q =>
        obtain ⟨t', n⟩ := q
        have hq : covers gguf t' (gguf.dataOffset + t.offset + (p * stride + k)) → t' = t :=
          eq_of_covers hdisj ht (hmem (List.mem_append_right _ List.mem_cons_self)) hi
        by_cases heq : t' = t
        · subst heq
          by_cases hn : p * stride + k < n
          · simp only [Option.any_some, decide_true, Bool.true_and, hn, if_true]
            rw [if_pos ⟨hi, by omega⟩, hnew]
          · simp only [Option.any_some, decide_true, Bool.true_and, hn, decide_false]
            exact if_neg fun h => hn (by omega)
        · simp only [Option.any_some, heq, decide_false, Bool.false_and]
          exact if_neg fun h => heq (hq h.1)

/-- The permutations of a run: one of all experts for each layer of fused experts. -/
theorem permOf_planned {perms : List (Nat × List Nat)}
    (h : plannedPermutations coAct gguf = some perms) {t : TensorInfo} (ht : t ∈ gguf.tensors)
    {layer : Nat} (hlayer : fusedLayer t = some layer) :
    ∃ perm, permOf perms t = some perm ∧
      perm.length = (gguf.getU32 "expert_count").getD 0 := by
  obtain ⟨m, -, h⟩ := Option.bind_eq_some_iff.mp h
  simp only [Option.ite_none_left_eq_some, Option.bind_eq_some_iff, Option.some.injEq] at h
  obtain ⟨-, perms', hperms, -, rfl⟩ := h
  have hfind : findPermutations m ((gguf.getU32 "expert_count").getD 0) gguf.tensors []
      ⟨⟨[], none, none⟩, []⟩ = .ok perms' ⟨⟨[], none, none⟩, []⟩ := by
    rw [findPermutations_eq, hperms]
    rfl
  obtain ⟨-, hsound, -, hcover⟩ := findPermutations_ok (by simp) hfind
  obtain ⟨perm, hperm⟩ := Option.isSome_iff_exists.mp (hcover t ht layer hlayer)
  refine ⟨perm, by rw [permOf, hlayer, Option.bind_some, hperm], ?_⟩
  rw [(computeOptimalExpertOrder_perm (hsound layer perm hperm)).length_eq, List.length_range]

/-- What a run looks for in its copy, expert by expert. -/
theorem findsExperts_copyByte_iff (hdisj : gguf.tensors.Pairwise DisjointData)
    {perms : List (Nat × List Nat)} (hplan : plannedPermutations coAct gguf = some perms)
    {done : List TensorInfo} {cut : Option (TensorInfo × Nat)}
    (hmem : done ++ (cut.map Prod.fst).toList ⊆ gguf.tensors) :
    FindsExperts gguf model (copyByte gguf ((gguf.getU32 "expert_count").getD 0)
        ((plannedPermutations coAct gguf).getD []) model done cut) sidecar ↔
      KeepsExperts coAct gguf model done cut sidecar := by
  unfold FindsExperts KeepsExperts
  refine forall₂_congr fun t ht => forall₂_congr fun layer hlayer =>
    forall₂_congr fun e _ => forall₂_congr fun k hk => ?_
  obtain ⟨perm, hperm, hlen⟩ := permOf_planned hplan ht hlayer
  rw [hplan, Option.getD_some]
  simp only
  split
  · next hp => rw [copyByte_place hdisj hmem ht hperm hlen hp hk]
  · rfl

/-- A run that writes has its permutations. -/
theorem plannedPermutations_isSome {s : RunState} {stop : Stop}
    (h : failurePoint coAct gguf s = .error stop) (hstop : stop ≠ .untouched) :
    (plannedPermutations coAct gguf).isSome := by
  cases hplan : plannedPermutations coAct gguf with
  | some perms => rfl
  | none =>
      rw [failurePoint, hplan] at h
      cases hcall : ioStep .untouched s.calls with
      | ok calls =>
          rw [hcall] at h
          exact absurd (Except.error.inj h).symm hstop
      | error stop' =>
          rw [hcall] at h
          have huntouched : stop' = .untouched := by
            unfold ioStep at hcall
            split at hcall <;> cases hcall
            rfl
          exact absurd ((Except.error.inj h).symm.trans huntouched) hstop

/-- **A failed run leaves the files sound exactly when its failure is harmless** at the
point at which it happens. -/
theorem run_error_intact_iff {s s' : RunState} {e : OptimizeError}
    (hparse : GgufFile.parse s.disk.model = .ok gguf) (hlaid : WellLaid gguf)
    (hrun : run coAct s = .error e s') :
    ∃ stop, failurePoint coAct gguf s = .error stop ∧
      (Intact gguf s.disk.model s'.disk ↔ stop.Harmless coAct gguf s.disk) := by
  obtain ⟨stop, hstop, hleaves⟩ := (run_follows hparse hlaid.data).of_error hrun
  refine ⟨stop, hstop, ?_⟩
  cases stop with
  | untouched =>
      have hdisk : s'.disk = s.disk := hleaves
      rw [hdisk]
      rfl
  | copying n =>
      have hdisk : s'.disk = { s.disk with output := some (s.disk.model.take n) } := hleaves
      rw [hdisk, Intact]
      simp only [Option.some.injEq, forall_eq']
      exact readsOriginal_iff hlaid.names fun i => List.getElem?_take
  | rewriting done cut =>
      obtain ⟨hmem, bytes, hdisk, -, hbytes⟩ := hleaves
      obtain ⟨perms, hplan⟩ :=
        Option.isSome_iff_exists.mp (plannedPermutations_isSome hstop (by nofun))
      rw [hdisk, intact_of_copyByte hlaid.names hparse rfl hbytes]
      exact findsExperts_copyByte_iff hlaid.data hplan hmem
  | removed =>
      have hdisk : s'.disk = { s.disk with output := none } := hleaves
      rw [hdisk]
      exact iff_of_true (fun output h => by cases h) trivial
  | sidecarCut done =>
      obtain ⟨hmem, bytes, hdisk, hbytes⟩ := hleaves
      obtain ⟨perms, hplan⟩ :=
        Option.isSome_iff_exists.mp (plannedPermutations_isSome hstop (by nofun))
      rw [hdisk, intact_of_copyByte hlaid.names hparse rfl hbytes]
      -- a sidecar that cannot be read places as none does
      exact findsExperts_copyByte_iff hlaid.data hplan ((List.append_nil done).symm ▸ hmem)

end Intact

/-! ### A model of two experts -/

/-- Every call succeeds until the sidecar is to be written. -/
def sidecarRefused : RunState :=
  ⟨twoExpertsDisk.disk, List.replicate 7 .done ++ [.refused]⟩

/-- The output and the sidecar that a failed run leaves. -/
def failedFiles (coAct : Option CoActivationMatrix) (s : RunState) :
    Option (Option (List UInt8) × Option Sidecar) :=
  match run coAct s with
  | .ok _ _ => none
  | .error _ s' => some (s'.disk.output, s'.disk.sidecar)

/-- The experts have changed places, and there is no sidecar. -/
theorem sidecarRefused_files : failedFiles (recordedEleven [0, 1]) sidecarRefused =
    some (some (twoExperts.encode ++ [0, 0, 2, 1]), none) := by decide +kernel

theorem exists_of_failedFiles {coAct : Option CoActivationMatrix} {s : RunState}
    {files : Option (List UInt8) × Option Sidecar} (h : failedFiles coAct s = some files) :
    ∃ e s', run coAct s = .error e s' ∧ s'.disk.output = files.1 ∧ s'.disk.sidecar = files.2 := by
  unfold failedFiles at h
  split at h
  · cases h
  · next e s' hrun =>
      obtain rfl := Option.some.inj h
      exact ⟨e, s', hrun, rfl, rfl⟩

/-- On this model the files are sound exactly if the failure is harmless. -/
theorem sidecarRefused_intact_iff :
    ∃ e s', run (recordedEleven [0, 1]) sidecarRefused = .error e s' ∧
      ∃ stop, failurePoint (recordedEleven [0, 1]) twoExperts.parsed sidecarRefused = .error stop ∧
        (Intact twoExperts.parsed twoExpertsModel s'.disk ↔
          stop.Harmless (recordedEleven [0, 1]) twoExperts.parsed twoExpertsDisk.disk) := by
  obtain ⟨e, s', hrun, -⟩ := exists_of_failedFiles sidecarRefused_files
  exact ⟨e, s', hrun, run_error_intact_iff parse_twoExperts wellLaid_twoExperts hrun⟩

/-- The run reports its failure; the output it leaves reads the other expert for each. -/
theorem sidecarRefused_not_intact :
    GgufFile.parse twoExpertsModel = .ok twoExperts.parsed ∧ WellLaid twoExperts.parsed ∧
      ∃ e s', run (recordedEleven [0, 1]) sidecarRefused = .error e s' ∧
        ¬ Intact twoExperts.parsed twoExpertsModel s'.disk := by
  refine ⟨parse_twoExperts, wellLaid_twoExperts, ?_⟩
  obtain ⟨e, s', hrun, hout, hside⟩ := exists_of_failedFiles sidecarRefused_files
  refine ⟨e, s', hrun, fun hintact => ?_⟩
  have hreads := hintact _ hout
  rw [hside, readsOriginal_iff wellLaid_twoExperts.names fun i => rfl] at hreads
  have hfirst := hreads.2 (twoExperts.parsed.tensors.head (by decide)) (by decide) 0 (by decide) 0
    (by decide) 0 (by decide)
  exact absurd hfirst (by decide +kernel)

end Hypura.Optimize
