import Hypura.Cli.OptimizeOrder
import Hypura.Model.GgufSound

/-!
# Hypura.Cli.OptimizeRun

What a run of `optimize` that succeeds leaves on the disk (`run_ok`): the sidecar holds
one permutation for every layer with fused experts, and the output is the model with
the strides of each such tensor in that permutation's order.
-/

namespace Hypura.Optimize

open Hypura.Core Hypura.Rust

/-! ### One tensor's strides -/

theorem reorderFrom_spec {original : List UInt8} {stride : Nat} :
    ∀ {perm : List Nat} {pos : Nat} {acc out : List UInt8},
      reorderFrom original stride pos perm acc = some out →
      out.length = acc.length ∧
      (∀ i < pos * stride, out[i]? = acc[i]?) ∧
      ∀ p old, perm[p]? = some old → ∀ k < stride,
        (pos + p) * stride + k < out.length ∧ old * stride + k < original.length ∧
        out[(pos + p) * stride + k]? = original[old * stride + k]?
  | [], pos, acc, out, h => by
      cases h
      exact ⟨rfl, fun i _ => rfl, fun p old hp => by simp at hp⟩
  | old :: perm, pos, acc, out, h => by
      simp only [reorderFrom, Option.bind_eq_bind, Option.bind_eq_some_iff] at h
      obtain ⟨mid, hcopy, hrest⟩ := h
      obtain ⟨hlen, hbelow, hat⟩ := reorderFrom_spec hrest
      obtain ⟨hlen₁, hkeep₁, hat₁⟩ := copySlice_spec hcopy
      have hsucc : (pos + 1) * stride = pos * stride + stride := Nat.succ_mul pos stride
      refine ⟨hlen.trans hlen₁, fun i hi => ?_, fun p old' hp k hk => ?_⟩
      · rw [hbelow i (by omega), hkeep₁ i (.inl hi)]
      · cases p with
        | zero =>
            rw [List.getElem?_cons_zero, Option.some.injEq] at hp
            subst hp
            have hb : old * stride + stride ≤ original.length ∧ pos * stride + stride ≤ acc.length := by
              unfold copySlice at hcopy
              split at hcopy
              · next hb => exact hb
              · cases hcopy
            rw [Nat.add_zero]
            refine ⟨by omega, by omega, ?_⟩
            rw [hbelow _ (by omega), hat₁ k hk]
        | succ p =>
            rw [List.getElem?_cons_succ] at hp
            have hp' := hat p old' hp k hk
            rwa [show pos + 1 + p = pos + (p + 1) by omega] at hp'

/-- In `bytes'`, position `p` of the tensor at `abs` holds the stride that was at
`perm[p]` in `bytes`. -/
def StridesMoved (abs size stride : Nat) (perm : List Nat) (bytes bytes' : List UInt8) : Prop :=
  ∀ p old, perm[p]? = some old → ∀ k < stride,
    p * stride + k < size ∧ old * stride + k < size ∧
      ∃ b, bytes[abs + (old * stride + k)]? = some b ∧ bytes'[abs + (p * stride + k)]? = some b

/-- `bytes'` is `bytes` with the strides in `[abs, abs + size)` in the order of `perm`. -/
structure Rearranged (abs size stride : Nat) (perm : List Nat) (bytes bytes' : List UInt8) :
    Prop where
  outside : ∀ i, i < abs ∨ abs + size ≤ i → bytes'[i]? = bytes[i]?
  inside : StridesMoved abs size stride perm bytes bytes'

theorem rearranged_of_reorder {abs size stride : Nat} {perm : List Nat}
    {bytes reordered : List UInt8} (hin : abs + size ≤ bytes.length ∨ size = 0)
    (h : reorder ((bytes.drop abs).take size) stride perm = some reordered) :
    Rearranged abs size stride perm bytes
      (if reordered = [] then bytes else overwrite bytes abs reordered) := by
  obtain ⟨hlen, -, hat⟩ := reorderFrom_spec h
  have horig : ((bytes.drop abs).take size).length = size := by simp; omega
  rw [List.length_replicate, horig] at hlen
  by_cases hnil : reordered = []
  · subst hnil
    rw [if_pos rfl]
    refine ⟨fun i _ => rfl, fun p old hp k hk => ?_⟩
    have hlt := (hat p old hp k hk).1
    simp at hlt
  · rw [if_neg hnil]
    have hpos : 0 < reordered.length := List.length_pos_iff.mpr hnil
    have hfit : abs + reordered.length ≤ bytes.length := by omega
    refine ⟨fun i hi => ?_, fun p old hp k hk => ?_⟩
    · exact getElem?_overwrite_of_lt hfit (by omega)
    · obtain ⟨hlt, hlt', heq⟩ := hat p old hp k hk
      rw [Nat.zero_add] at hlt heq
      rw [horig] at hlt'
      have hb : abs + (old * stride + k) < bytes.length := by omega
      refine ⟨by omega, hlt', bytes[abs + (old * stride + k)], List.getElem?_eq_getElem hb, ?_⟩
      rw [getElem?_overwrite_add hfit hlt, heq, List.getElem?_take_of_lt hlt', List.getElem?_drop,
        List.getElem?_eq_getElem hb]

/-! ### The I/O calls when they succeed -/

theorem nextCall_ok {s s' : RunState} {c : IoOutcome} (h : nextCall s = .ok c s') :
    s'.disk = s.disk := by
  unfold nextCall at h
  split at h <;> cases h <;> rfl

theorem call_ok {s s' : RunState} {u : Unit} (h : call s = .ok u s') : s'.disk = s.disk := by
  obtain ⟨c, s₁, h₁, h₂⟩ := bind_ok h
  cases c with
  | done => rw [← nextCall_ok h₁, (pure_ok h₂).2]
  | refused => exact absurd h₂ throw_ne_ok
  | cut n => exact absurd h₂ throw_ne_ok

theorem orPanic_ok {α : Type} {o : Option α} {a : α} {s s' : RunState}
    (h : orPanic o s = .ok a s') : o = some a ∧ s' = s := by
  cases o with
  | none => exact absurd h throw_ne_ok
  | some b =>
      obtain ⟨rfl, rfl⟩ := pure_ok h
      exact ⟨rfl, rfl⟩

theorem copyModel_ok {s s' : RunState} {u : Unit} (h : copyModel s = .ok u s') :
    s'.disk = { s.disk with output := some s.disk.model } := by
  obtain ⟨c, s₁, h₁, h₂⟩ := bind_ok h
  cases c with
  | done => cases h₂; rw [nextCall_ok h₁]
  | refused => exact absurd h₂ throw_ne_ok
  | cut n =>
      obtain ⟨_, _, -, h₃⟩ := bind_ok h₂
      exact absurd h₃ throw_ne_ok

theorem writeSidecar_ok {perms : List (Nat × List Nat)} {s s' : RunState} {u : Unit}
    (h : writeSidecar perms s = .ok u s') :
    s'.disk = { s.disk with sidecar := some (.permutations perms) } := by
  obtain ⟨c, s₁, h₁, h₂⟩ := bind_ok h
  cases c with
  | done => cases h₂; rw [nextCall_ok h₁]
  | refused => exact absurd h₂ throw_ne_ok
  | cut n =>
      obtain ⟨_, _, -, h₃⟩ := bind_ok h₂
      exact absurd h₃ throw_ne_ok

theorem writeOutput_ok {offset : Nat} {bs : List UInt8} {s s' : RunState} {u : Unit}
    (h : writeOutput offset bs s = .ok u s') : s'.disk = s.disk.writeOutput offset bs := by
  obtain ⟨c, s₁, h₁, h₂⟩ := bind_ok h
  cases c with
  | done => cases h₂; rw [nextCall_ok h₁]
  | refused => exact absurd h₂ throw_ne_ok
  | cut n =>
      obtain ⟨_, _, -, h₃⟩ := bind_ok h₂
      exact absurd h₃ throw_ne_ok

theorem readOutput_ok {offset size : Nat} {bs : List UInt8} {s s' : RunState}
    (h : readOutput offset size s = .ok bs s') :
    s'.disk = s.disk ∧ ∃ bytes, s.disk.output = some bytes ∧
      (offset + size ≤ bytes.length ∨ size = 0) ∧ bs = (bytes.drop offset).take size := by
  obtain ⟨_, s₁, h₁, h₂⟩ := bind_ok h
  obtain ⟨d, s₂, hd, h₃⟩ := bind_ok h₂
  cases hd
  rw [call_ok h₁] at h₃
  cases hout : s.disk.output with
  | none =>
      rw [hout] at h₃
      exact absurd h₃ throw_ne_ok
  | some bytes =>
      simp only [hout] at h₃
      split at h₃
      · next hin =>
          obtain ⟨rfl, rfl⟩ := pure_ok h₃
          exact ⟨call_ok h₁, bytes, rfl, hin, rfl⟩
      · exact absurd h₃ throw_ne_ok

/-! ### The two loops -/

/-- One tensor: the output's strides are rearranged, nothing else changes. -/
theorem rewriteTensor_ok {gguf : GgufFile} {numExperts : Nat} {t : TensorInfo} {perm : List Nat}
    {s s' : RunState} {u : Unit} (h : rewriteTensor gguf numExperts t perm s = .ok u s') :
    ∃ bytes bytes', s.disk.output = some bytes ∧
      s'.disk = { s.disk with output := some bytes' } ∧
      Rearranged (gguf.dataOffset + t.offset) t.sizeBytes (t.sizeBytes / numExperts) perm
        bytes bytes' := by
  obtain ⟨_, s₁, h₁, h₂⟩ := bind_ok h
  obtain ⟨original, s₂, hread, h₃⟩ := bind_ok h₂
  obtain ⟨reordered, s₃, hre, h₄⟩ := bind_ok h₃
  obtain ⟨hdisk₂, bytes, hout, hin, rfl⟩ := readOutput_ok hread
  obtain ⟨hreorder, rfl⟩ := orPanic_ok hre
  rw [call_ok h₁] at hout hdisk₂
  split at h₄
  · obtain ⟨_, _, -, h₅⟩ := bind_ok h₄
    exact absurd h₅ throw_ne_ok
  · obtain ⟨_, s₄, hcall, hwrite⟩ := bind_ok h₄
    refine ⟨bytes, _, hout, ?_, rearranged_of_reorder hin hreorder⟩
    rw [writeOutput_ok hwrite, call_ok hcall, hdisk₂, Disk.writeOutput, hout]
    rfl

/-- The tensors' data do not overlap. -/
def DisjointData (t t' : TensorInfo) : Prop :=
  t.offset + t.sizeBytes ≤ t'.offset ∨ t'.offset + t'.sizeBytes ≤ t.offset

/-- The permutation the second loop applies to a tensor. -/
def permOf (perms : List (Nat × List Nat)) (t : TensorInfo) : Option (List Nat) :=
  (fusedLayer t).bind fun layer => perms.lookup layer

/-- The whole second loop: every tensor with a permutation has its strides rearranged
with respect to what the output held before, and no other byte changes. -/
theorem rewriteTensors_ok {gguf : GgufFile} {numExperts : Nat} {perms : List (Nat × List Nat)} :
    ∀ {ts : List TensorInfo} {s s' : RunState} {u : Unit} {bytes : List UInt8},
      ts.Pairwise DisjointData → s.disk.output = some bytes →
      rewriteTensors gguf numExperts perms ts s = .ok u s' →
      ∃ bytes', s'.disk = { s.disk with output := some bytes' } ∧
        (∀ i, (∀ t ∈ ts, (permOf perms t).isSome →
          i < gguf.dataOffset + t.offset ∨ gguf.dataOffset + t.offset + t.sizeBytes ≤ i) →
          bytes'[i]? = bytes[i]?) ∧
        ∀ t ∈ ts, ∀ perm, permOf perms t = some perm →
          StridesMoved (gguf.dataOffset + t.offset) t.sizeBytes (t.sizeBytes / numExperts) perm
            bytes bytes'
  | [], s, s', u, bytes, _, hout, h => by
      obtain ⟨-, rfl⟩ := pure_ok h
      refine ⟨bytes, ?_, fun i _ => rfl, fun t ht => by simp at ht⟩
      rw [← hout]
  | t :: ts, s, s', u, bytes, hdisj, hout, h => by
      obtain ⟨ht, hts⟩ := List.pairwise_cons.mp hdisj
      rw [rewriteTensors] at h
      cases hperm : permOf perms t with
      | none =>
          have hbind := hperm
          rw [permOf] at hbind
          rw [hbind] at h
          obtain ⟨bytes', hdisk, houtside, hinside⟩ := rewriteTensors_ok hts hout h
          refine ⟨bytes', hdisk, fun i hi => ?_, fun t' ht' perm' hperm' => ?_⟩
          · exact houtside i fun t' ht' => hi t' (List.mem_cons_of_mem _ ht')
          · rcases List.mem_cons.mp ht' with rfl | ht'
            · rw [hperm] at hperm'
              cases hperm'
            · exact hinside t' ht' perm' hperm'
      | some perm =>
          have hbind := hperm
          rw [permOf] at hbind
          rw [hbind] at h
          obtain ⟨_, s₁, h₁, h₂⟩ := bind_ok h
          obtain ⟨_, bytes₁, hout₀, hdisk₁, hre⟩ := rewriteTensor_ok h₁
          rw [hout, Option.some.injEq] at hout₀
          subst hout₀
          obtain ⟨bytes', hdisk, houtside, hinside⟩ :=
            rewriteTensors_ok hts (by rw [hdisk₁]) h₂
          refine ⟨bytes', ?_, fun i hi => ?_, fun t' ht' perm' hperm' p old hp k hk => ?_⟩
          · rw [hdisk, hdisk₁]
          · rw [houtside i fun t' ht' => hi t' (List.mem_cons_of_mem _ ht')]
            exact hre.outside i (hi t List.mem_cons_self (by rw [hperm]; rfl))
          · rcases List.mem_cons.mp ht' with rfl | ht'
            · -- moved now, and out of the way of the tensors still to come
              rw [hperm, Option.some.injEq] at hperm'
              subst hperm'
              obtain ⟨hlt, hlt', b, hb, heq⟩ := hre.inside p old hp k hk
              refine ⟨hlt, hlt', b, hb, ?_⟩
              rw [houtside _ fun t'' ht'' _ => ?_, heq]
              have := ht t'' ht''
              unfold DisjointData at this
              omega
            · -- moved later, from bytes this tensor has not touched
              obtain ⟨hlt, hlt', b, hb, heq⟩ := hinside t' ht' perm' hperm' p old hp k hk
              refine ⟨hlt, hlt', b, ?_, heq⟩
              rw [← hb, hre.outside]
              have := ht t' ht'
              unfold DisjointData at this
              omega

/-- The first loop: its map holds the greedy order of every layer with fused experts,
and nothing else. -/
theorem findPermutations_ok {coAct : CoActivationMatrix} {numExperts : Nat} :
    ∀ {ts : List TensorInfo} {perms perms' : List (Nat × List Nat)} {s s' : RunState},
      (∀ layer perm, perms.lookup layer = some perm →
        computeOptimalExpertOrder coAct layer numExperts = some perm) →
      findPermutations coAct numExperts ts perms s = .ok perms' s' →
      s' = s ∧
        (∀ layer perm, perms'.lookup layer = some perm →
          computeOptimalExpertOrder coAct layer numExperts = some perm) ∧
        (∀ layer, (perms.lookup layer).isSome → (perms'.lookup layer).isSome) ∧
        ∀ t ∈ ts, ∀ layer, fusedLayer t = some layer → (perms'.lookup layer).isSome
  | [], perms, perms', s, s', hperms, h => by
      obtain ⟨rfl, rfl⟩ := pure_ok h
      exact ⟨rfl, hperms, fun _ h => h, fun t ht => by simp at ht⟩
  | t :: ts, perms, perms', s, s', hperms, h => by
      rw [findPermutations] at h
      cases hlayer : fusedLayer t with
      | none =>
          rw [hlayer] at h
          obtain ⟨hs, hsound, hkeep, hcover⟩ := findPermutations_ok hperms h
          refine ⟨hs, hsound, hkeep, fun t' ht' layer hl => ?_⟩
          rcases List.mem_cons.mp ht' with rfl | ht'
          · rw [hlayer] at hl
            cases hl
          · exact hcover t' ht' layer hl
      | some layer₀ =>
          simp only [hlayer] at h
          by_cases hknown : (perms.lookup layer₀).isSome
          · rw [if_pos hknown] at h
            obtain ⟨hs, hsound, hkeep, hcover⟩ := findPermutations_ok hperms h
            refine ⟨hs, hsound, hkeep, fun t' ht' layer hl => ?_⟩
            rcases List.mem_cons.mp ht' with rfl | ht'
            · rw [hlayer, Option.some.injEq] at hl
              exact hkeep layer (hl ▸ hknown)
            · exact hcover t' ht' layer hl
          · rw [if_neg hknown] at h
            obtain ⟨perm, s₁, h₁, h₂⟩ := bind_ok h
            obtain ⟨horder, rfl⟩ := orPanic_ok h₁
            have hlookup : ∀ layer, (perms ++ [(layer₀, perm)]).lookup layer =
                (perms.lookup layer).or (if layer = layer₀ then some perm else none) := by
              intro layer
              rw [List.lookup_append, List.lookup_cons, List.lookup_nil]
              by_cases hl : layer = layer₀
              · rw [if_pos hl, beq_iff_eq.mpr hl]
              · rw [if_neg hl, beq_false_of_ne hl]
            have hperms' : ∀ layer p, (perms ++ [(layer₀, perm)]).lookup layer = some p →
                computeOptimalExpertOrder coAct layer numExperts = some p := by
              intro layer p hp
              rw [hlookup, Option.or_eq_some_iff] at hp
              rcases hp with hp | ⟨-, hp⟩
              · exact hperms layer p hp
              · obtain ⟨rfl, rfl⟩ := by simpa using hp
                exact horder
            obtain ⟨hs, hsound, hkeep, hcover⟩ := findPermutations_ok hperms' h₂
            refine ⟨hs, hsound, fun layer hl => ?_, fun t' ht' layer hl => ?_⟩
            · refine hkeep layer ?_
              rw [hlookup, Option.isSome_or, hl]
              rfl
            · rcases List.mem_cons.mp ht' with rfl | ht'
              · rw [hlayer, Option.some.injEq] at hl
                refine hkeep layer ?_
                rw [hlookup, if_pos hl.symm, Option.isSome_or]
                simp
              · exact hcover t' ht' layer hl

/-! ### The command -/

/-- What a successful run leaves: the sidecar and the output it belongs to. -/
structure Optimized (gguf : GgufFile) (coAct : CoActivationMatrix) (numExperts : Nat)
    (model : List UInt8) (disk : Disk) (output : List UInt8) : Prop where
  experts_pos : 0 < numExperts
  written : disk.output = some output
  /-- The sidecar holds a permutation for every layer with fused experts, and the output
  holds their strides in that order. -/
  moved : ∀ t ∈ gguf.tensors, ∀ layer, fusedLayer t = some layer →
    ∃ perm, computeOptimalExpertOrder coAct layer numExperts = some perm ∧
      loadPermutations disk.sidecar layer = some (invertPermutation perm) ∧
      StridesMoved (gguf.dataOffset + t.offset) t.sizeBytes (t.sizeBytes / numExperts) perm
        model output
  /-- Nothing before the tensor data changes. -/
  header : ∀ i < gguf.dataOffset, output[i]? = model[i]?

theorem run_ok {coAct : Option CoActivationMatrix} {s s' : RunState} {u : Unit} {gguf : GgufFile}
    (hparse : GgufFile.parse s.disk.model = .ok gguf)
    (hdisj : gguf.tensors.Pairwise DisjointData) (h : run coAct s = .ok u s') :
    ∃ m output, coAct = some m ∧
      Optimized gguf m ((gguf.getU32 "expert_count").getD 0) s.disk.model s'.disk output := by
  obtain ⟨gguf', s₁, hopen, hrest⟩ := bind_ok h
  obtain ⟨_, s₀, hcall, h₀⟩ := bind_ok hopen
  obtain ⟨d, s₀', hd, h₁⟩ := bind_ok h₀
  cases hd
  rw [call_ok hcall, hparse] at h₁
  obtain ⟨rfl, rfl⟩ := pure_ok h₁
  cases coAct with
  | none => exact absurd hrest throw_ne_ok
  | some m =>
      simp only [optimizeWith] at hrest
      split at hrest
      · exact absurd hrest throw_ne_ok
      · split at hrest
        · exact absurd hrest throw_ne_ok
        · next hne =>
            obtain ⟨perms, s₂, hfind, h₂⟩ := bind_ok hrest
            obtain ⟨hs₂, hsound, -, hcover⟩ := findPermutations_ok (by simp) hfind
            split at h₂
            · exact absurd h₂ throw_ne_ok
            · obtain ⟨_, s₃, hcopy, h₃⟩ := bind_ok h₂
              obtain ⟨_, s₄, hreopen, h₄⟩ := bind_ok h₃
              obtain ⟨_, s₅, hrewrite, hside⟩ := bind_ok h₄
              have hdisk₄ : s₄.disk = { s.disk with output := some s.disk.model } := by
                rw [call_ok hreopen, copyModel_ok hcopy, hs₂, call_ok hcall]
              obtain ⟨output, hdisk₅, houtside, hmoved⟩ :=
                rewriteTensors_ok hdisj (by rw [hdisk₄]) hrewrite
              have hdisk' : s'.disk =
                  ⟨s.disk.model, some output, some (.permutations perms)⟩ := by
                rw [writeSidecar_ok hside, hdisk₅, hdisk₄]
              refine ⟨m, output, rfl, Nat.pos_of_ne_zero hne, by rw [hdisk'], ?_, ?_⟩
              · intro t ht layer hlayer
                obtain ⟨perm, hperm⟩ := Option.isSome_iff_exists.mp (hcover t ht layer hlayer)
                refine ⟨perm, hsound layer perm hperm, ?_, hmoved t ht perm ?_⟩
                · rw [hdisk', loadPermutations, hperm, Option.map_some]
                · rw [permOf, hlayer, Option.bind_some, hperm]
              · intro i hi
                exact houtside i fun t _ _ => .inl (by omega)

end Hypura.Optimize
