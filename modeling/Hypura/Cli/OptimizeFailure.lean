import Hypura.Core.Account
import Hypura.Cli.OptimizeRun

/-!
# Hypura.Cli.OptimizeFailure

Where a run of `optimize` stops, and what the files hold then.

* `failurePoint` — the I/O calls of the command in their order, and the point at which
  one of them (or a check) ends it: an account of `run` without the data it moves,
* `copyByte` — the bytes of a copy of which some tensors are rewritten, the last perhaps
  in part,
* `run_failurePoint` — the command stops where the account says, and leaves these bytes.
-/

namespace Hypura.Optimize

open Hypura.Core Hypura.Rust

/-! ### The bytes of a rewritten tensor -/

/-- The copy loop leaves what lies beyond its last stride. -/
theorem reorderFrom_beyond {original : List UInt8} {stride : Nat} :
    ∀ {perm : List Nat} {pos : Nat} {acc out : List UInt8},
      reorderFrom original stride pos perm acc = some out →
      ∀ i, (pos + perm.length) * stride ≤ i → out[i]? = acc[i]?
  | [], pos, acc, out, h, i, hi => by
      cases h
      rfl
  | old :: perm, pos, acc, out, h, i, hi => by
      simp only [reorderFrom, Option.bind_eq_bind, Option.bind_eq_some_iff] at h
      obtain ⟨mid, hcopy, hrest⟩ := h
      obtain ⟨-, hkeep, -⟩ := copySlice_spec hcopy
      have hlen : (pos + (old :: perm).length) * stride = (pos + 1 + perm.length) * stride := by
        rw [List.length_cons, Nat.add_right_comm, Nat.add_assoc]
      have hnext : (pos + 1) * stride ≤ (pos + 1 + perm.length) * stride :=
        Nat.mul_le_mul_right _ (Nat.le_add_right _ _)
      rw [Nat.succ_mul] at hnext
      rw [reorderFrom_beyond hrest i (hlen ▸ hi), hkeep i (.inr (by omega))]

/-- The byte at place `j` of a tensor at `start` whose strides are in the order of `perm`:
a byte of the model, and zero after the last stride. -/
def movedByte (model : List UInt8) (start stride : Nat) (perm : List Nat) (j : Nat) :
    Option UInt8 :=
  if j < perm.length * stride then
    (perm[j / stride]?).bind fun old => model[start + (old * stride + j % stride)]?
  else some 0

theorem reorder_byte {model reordered : List UInt8} {start size stride : Nat} {perm : List Nat}
    (h : reorder ((model.drop start).take size) stride perm = some reordered)
    (hin : start + size ≤ model.length) {j : Nat} (hj : j < size) :
    reordered[j]? = movedByte model start stride perm j := by
  obtain ⟨-, -, hat⟩ := reorderFrom_spec h
  have hlen : ((model.drop start).take size).length = size := by simp; omega
  unfold movedByte
  split
  · next hlt =>
      have hstride : 0 < stride := Nat.pos_of_mul_pos_left (by omega : 0 < perm.length * stride)
      have hp : j / stride < perm.length := (Nat.div_lt_iff_lt_mul hstride).mpr hlt
      obtain ⟨-, hsrc, heq⟩ := hat (j / stride) perm[j / stride] (List.getElem?_eq_getElem hp)
        (j % stride) (Nat.mod_lt _ hstride)
      rw [Nat.zero_add, Nat.div_add_mod'] at heq
      rw [heq, List.getElem?_eq_getElem hp, Option.bind_some, List.getElem?_take_of_lt (hlen ▸ hsrc),
        List.getElem?_drop]
  · next hge =>
      rw [reorderFrom_beyond h j (by rw [Nat.zero_add]; omega), hlen, List.getElem?_replicate, if_pos hj]

/-! ### A copy in progress -/

section Copy
variable (gguf : GgufFile) (numExperts : Nat) (perms : List (Nat × List Nat)) (model : List UInt8)

/-- Place `i` of the file belongs to the tensor. -/
def covers (t : TensorInfo) (i : Nat) : Bool :=
  gguf.dataOffset + t.offset ≤ i && i < gguf.dataOffset + t.offset + t.sizeBytes

/-- The byte at place `i` of the file, inside a rewritten tensor. -/
def tensorByte (t : TensorInfo) (i : Nat) : Option UInt8 :=
  movedByte model (gguf.dataOffset + t.offset) (t.sizeBytes / numExperts) ((permOf perms t).getD [])
    (i - (gguf.dataOffset + t.offset))

/-- The byte at place `i` of a copy in which the tensors of `done` are rewritten, and of one
more tensor the first bytes. -/
def copyByte (done : List TensorInfo) (cut : Option (TensorInfo × Nat)) (i : Nat) : Option UInt8 :=
  match done.find? (covers gguf · i) with
  | some t => tensorByte gguf numExperts perms model t i
  | none =>
    match cut with
    | some (t, n) =>
      if covers gguf t i ∧ i < gguf.dataOffset + t.offset + n then
        tensorByte gguf numExperts perms model t i
      else model[i]?
    | none => model[i]?

/-! ### The account of a run -/

/-- The point at which a run ends, by what it has written. -/
inductive Stop
  | untouched
  /-- The copy ends after so many bytes. -/
  | copying (bytes : Nat)
  /-- The copy is complete, and these tensors are rewritten. -/
  | rewriting (done : List TensorInfo) (cut : Option (TensorInfo × Nat))
  /-- The output is deleted again. -/
  | removed
  /-- All tensors are rewritten, and the sidecar ends early. -/
  | sidecarCut (done : List TensorInfo)

/-- One I/O call of a run that is at `stop`. -/
def ioStep (stop : Stop) : List IoOutcome → Except Stop (List IoOutcome)
  | [] => .ok []
  | .done :: calls => .ok calls
  | _ :: _ => .error stop

/-- One write, which may also end early. -/
def writeStep (stop : Stop) (cutAt : Nat → Stop) : List IoOutcome → Except Stop (List IoOutcome)
  | .cut n :: _ => .error (cutAt n)
  | calls => ioStep stop calls

/-- One read of `size` bytes at `start` of a file of the model's length. -/
def readStep (stop : Stop) (start size : Nat) (calls : List IoOutcome) :
    Except Stop (List IoOutcome) := do
  let calls ← ioStep stop calls
  if start + size ≤ model.length ∨ size = 0 then pure calls else throw stop

/-- The deletion of the output: the run ends either way. -/
def removeStep (stop : Stop) (calls : List IoOutcome) : Except Stop (List IoOutcome) := do
  let _ ← ioStep stop calls
  throw .removed

/-- One tensor: seek, read, rearrange, verify, seek, write. -/
def tensorPoint (t : TensorInfo) (perm : List Nat) (done : List TensorInfo)
    (calls : List IoOutcome) : Except Stop (List IoOutcome) := do
  let start := gguf.dataOffset + t.offset
  let stop := Stop.rewriting done none
  let calls ← ioStep stop calls
  let calls ← readStep model stop start t.sizeBytes calls
  let original := (model.drop start).take t.sizeBytes
  let reordered ← (reorder original (t.sizeBytes / numExperts) perm).elim (throw stop) pure
  if byteSum original ≠ byteSum reordered then removeStep stop calls
  else do
    let calls ← ioStep stop calls
    writeStep stop (fun n => .rewriting done (some (t, n))) calls

/-- The second loop: the tensors it has rewritten, and the calls that are left. -/
def loopPoint : List TensorInfo → List TensorInfo → List IoOutcome →
    Except Stop (List TensorInfo × List IoOutcome)
  | [], done, calls => .ok (done, calls)
  | t :: ts, done, calls =>
    match permOf perms t with
    | none => loopPoint ts done calls
    | some perm => do
      let calls ← tensorPoint gguf numExperts model t perm done calls
      loopPoint ts (done ++ [t]) calls

/-- The writing part of the command. -/
def writingPoint (calls : List IoOutcome) : Except Stop (List IoOutcome) := do
  let calls ← writeStep .untouched .copying calls
  let calls ← ioStep (.rewriting [] none) calls
  let (done, calls) ← loopPoint gguf numExperts perms model gguf.tensors [] calls
  writeStep (.rewriting done none) (fun _ => .sidecarCut done) calls

end Copy

/-- What `findPermutations` computes. -/
def layerPermutations (coAct : CoActivationMatrix) (numExperts : Nat) :
    List TensorInfo → List (Nat × List Nat) → Option (List (Nat × List Nat))
  | [], perms => some perms
  | t :: ts, perms =>
    match fusedLayer t with
    | none => layerPermutations coAct numExperts ts perms
    | some layer =>
      if (perms.lookup layer).isSome then layerPermutations coAct numExperts ts perms
      else
        (computeOptimalExpertOrder coAct layer numExperts).bind fun perm =>
          layerPermutations coAct numExperts ts (perms ++ [(layer, perm)])

/-- The permutations that a run on this model writes; `none` if it ends before. -/
def plannedPermutations (coAct : Option CoActivationMatrix) (gguf : GgufFile) :
    Option (List (Nat × List Nat)) :=
  let numExperts := (gguf.getU32 "expert_count").getD 0
  coAct.bind fun coAct =>
    if ¬ coAct.hasData ∨ numExperts = 0 then none
    else
      (layerPermutations coAct numExperts gguf.tensors []).bind fun perms =>
        if perms = [] then none else some perms

/-- **The point at which `run` ends** on the model that `gguf` describes; `ok` if it
succeeds. -/
def failurePoint (coAct : Option CoActivationMatrix) (gguf : GgufFile) (s : RunState) :
    Except Stop (List IoOutcome) := do
  let calls ← ioStep .untouched s.calls
  match plannedPermutations coAct gguf with
  | none => throw .untouched
  | some perms =>
    writingPoint gguf ((gguf.getU32 "expert_count").getD 0) perms s.disk.model calls

/-! ### What a run leaves -/

section Leaves
variable {gguf : GgufFile} {numExperts : Nat} {perms : List (Nat × List Nat)} {d : Disk}
  {s : RunState} {done : List TensorInfo} {cut : Option (TensorInfo × Nat)} {t : TensorInfo}
  {perm : List Nat} {stop : Stop} {calls : List IoOutcome}

/-- What a run that ends at `stop` has made of the disk `d`. -/
def Leaves (gguf : GgufFile) (numExperts : Nat) (perms : List (Nat × List Nat)) (d : Disk)
    (stop : Stop) (s : RunState) : Prop :=
  match stop with
  | .untouched => s.disk = d
  | .copying n => s.disk = { d with output := some (d.model.take n) }
  | .rewriting done cut => done ++ (cut.map Prod.fst).toList ⊆ gguf.tensors ∧
      ∃ bytes, s.disk = { d with output := some bytes } ∧ bytes.length = d.model.length ∧
        ∀ i, bytes[i]? = copyByte gguf numExperts perms d.model done cut i
  | .removed => s.disk = { d with output := none }
  | .sidecarCut done => done ⊆ gguf.tensors ∧
      ∃ bytes, s.disk = { d with output := some bytes, sidecar := some .unreadable } ∧
        ∀ i, bytes[i]? = copyByte gguf numExperts perms d.model done none i

theorem Leaves.of_disk {s' : RunState} (h : Leaves gguf numExperts perms d stop s)
    (heq : s'.disk = s.disk) : Leaves gguf numExperts perms d stop s' := by
  cases stop <;> simpa only [Leaves, heq] using h

/-- A call that leaves the disk as it is. -/
theorem call_follows {leaves : Stop → RunState → Prop}
    (h : ∀ s', s'.disk = s.disk → leaves stop s') :
    Follows leaves (fun _ calls s' => s' = { s with calls := calls }) (call s)
      (ioStep stop s.calls) := by
  obtain ⟨disk, calls⟩ := s
  match calls with
  | [] => exact rfl
  | .done :: calls => exact rfl
  | .refused :: calls => exact h _ rfl
  | .cut n :: calls => exact h _ rfl

/-- The writes of the command: all of it, nothing, or some bytes. -/
def writing (whole : Disk → Disk) (part : Nat → Disk → Disk) : OptimizeM Unit := do
  match ← nextCall with
  | .done => modifyDisk whole
  | .refused => throw .io
  | .cut n =>
    modifyDisk (part n)
    throw .io

theorem writing_follows {leaves : Stop → RunState → Prop} {whole : Disk → Disk}
    {part : Nat → Disk → Disk} {cutAt : Nat → Stop} (h : ∀ s', s'.disk = s.disk → leaves stop s')
    (hcut : ∀ n s', s'.disk = part n s.disk → leaves (cutAt n) s') :
    Follows leaves (fun _ calls s' => s' = ⟨whole s.disk, calls⟩) (writing whole part s)
      (writeStep stop cutAt s.calls) := by
  obtain ⟨disk, calls⟩ := s
  match calls with
  | [] => exact rfl
  | .done :: calls => exact rfl
  | .refused :: calls => exact h _ rfl
  | .cut n :: calls => exact hcut n _ rfl

/-! ### One tensor -/

theorem covers_iff {i : Nat} : covers gguf t i ↔
    gguf.dataOffset + t.offset ≤ i ∧ i < gguf.dataOffset + t.offset + t.sizeBytes := by
  simp [covers]

/-- A place in one of two tensors that do not overlap is not in the other. -/
theorem find?_covers_eq_none (hdisj : ∀ t' ∈ done, DisjointData t' t) {i : Nat}
    (hi : covers gguf t i) : done.find? (covers gguf · i) = none := by
  refine List.find?_eq_none.mpr fun t' ht' hi' => ?_
  rw [covers_iff] at hi hi'
  have := hdisj t' ht'
  unfold DisjointData at this
  omega

/-- A tensor that is still to come holds the model's bytes. -/
theorem copyByte_of_covers (hdisj : ∀ t' ∈ done, DisjointData t' t) {i : Nat}
    (hi : covers gguf t i) : copyByte gguf numExperts perms d.model done none i = d.model[i]? := by
  rw [copyByte, find?_covers_eq_none hdisj hi]

theorem length_written {bytes bs : List UInt8} {start : Nat}
    (hfit : start + bs.length ≤ bytes.length ∨ bs = []) :
    (if bs = [] then bytes else overwrite bytes start bs).length = bytes.length := by
  split
  · rfl
  · next hne => exact overwrite_length (hfit.resolve_right hne)

theorem getElem?_written {bytes bs : List UInt8} {start : Nat}
    (hfit : start + bs.length ≤ bytes.length ∨ bs = []) (i : Nat) :
    (if bs = [] then bytes else overwrite bytes start bs)[i]? =
      if start ≤ i ∧ i < start + bs.length then bs[i - start]? else bytes[i]? := by
  by_cases hnil : bs = []
  · subst hnil
    rw [if_pos rfl, if_neg (by simp)]
  · have hfit := hfit.resolve_right hnil
    rw [if_neg hnil]
    split
    · next hi =>
        obtain ⟨k, rfl⟩ := Nat.exists_eq_add_of_le hi.1
        rw [getElem?_overwrite_add hfit (by omega), Nat.add_sub_cancel_left]
    · next hi => exact getElem?_overwrite_of_lt hfit (by omega)

/-- What is read of a tensor that is still to come is what the model has there. -/
theorem readOutput_follows (hdisj : ∀ t' ∈ done, DisjointData t' t)
    (hat : Leaves gguf numExperts perms d (.rewriting done none) s) :
    Follows (Leaves gguf numExperts perms d)
      (fun bs calls s' => bs = (d.model.drop (gguf.dataOffset + t.offset)).take t.sizeBytes ∧
        (gguf.dataOffset + t.offset + t.sizeBytes ≤ d.model.length ∨ t.sizeBytes = 0) ∧
          s' = { s with calls := calls })
      (readOutput (gguf.dataOffset + t.offset) t.sizeBytes s)
      (readStep d.model (.rewriting done none) (gguf.dataOffset + t.offset) t.sizeBytes s.calls) := by
  obtain ⟨-, bytes, hdisk, hlen, hbytes⟩ := id hat
  refine Follows.bind (call_follows fun s' h => hat.of_disk h) ?_
  rintro _ calls _ rfl
  have hout : s.disk.output = some bytes := by rw [hdisk]
  have hslice : (bytes.drop (gguf.dataOffset + t.offset)).take t.sizeBytes =
      (d.model.drop (gguf.dataOffset + t.offset)).take t.sizeBytes := by
    refine List.ext_getElem? fun k => ?_
    by_cases hk : k < t.sizeBytes
    · rw [List.getElem?_take_of_lt hk, List.getElem?_take_of_lt hk, List.getElem?_drop,
        List.getElem?_drop, hbytes, copyByte_of_covers hdisj (covers_iff.mpr ⟨by omega, by omega⟩)]
    · rw [List.getElem?_eq_none (by simp; omega), List.getElem?_eq_none (by simp; omega)]
  dsimp only [getDisk, Bind.bind, EStateM.bind]
  rw [hout]
  simp only [hlen]
  split
  · next hin => exact ⟨hslice, hin, rfl⟩
  · exact hat.of_disk rfl

theorem orPanic_follows {α : Type} {leaves : Stop → RunState → Prop} (o : Option α)
    (h : leaves stop s) : Follows leaves (fun a a' s' => a = a' ∧ o = some a ∧ s' = s)
      (orPanic o s) (o.elim (throw stop) pure) := by
  cases o with
  | none => exact h
  | some a => exact ⟨rfl, rfl, rfl⟩

/-- The deletion ends the run, whether it succeeds or not. -/
theorem removeOutput_follows {α : Type} {good : α → List IoOutcome → RunState → Prop}
    {e : OptimizeError} (hat : Leaves gguf numExperts perms d (.rewriting done none) s) :
    Follows (Leaves gguf numExperts perms d) good ((removeOutput >>= fun _ => throw e) s)
      (removeStep (.rewriting done none) s.calls) := by
  obtain ⟨hmem, bytes, hdisk, hbytes⟩ := id hat
  obtain ⟨disk, calls⟩ := s
  obtain rfl : disk = { d with output := some bytes } := hdisk
  match calls with
  | [] => exact rfl
  | .done :: calls => exact rfl
  | .refused :: calls => exact ⟨hmem, bytes, rfl, hbytes⟩
  | .cut n :: calls => exact ⟨hmem, bytes, rfl, hbytes⟩

/-- A rearranged tensor is as long as it was, and any part of it fits its place. -/
theorem reordered_fits {reordered : List UInt8}
    (hin : gguf.dataOffset + t.offset + t.sizeBytes ≤ d.model.length ∨ t.sizeBytes = 0)
    (hre : reorder ((d.model.drop (gguf.dataOffset + t.offset)).take t.sizeBytes)
      (t.sizeBytes / numExperts) perm = some reordered) :
    reordered.length = t.sizeBytes ∧ ∀ m,
      gguf.dataOffset + t.offset + (reordered.take m).length ≤ d.model.length ∨
        reordered.take m = [] := by
  obtain ⟨hsize, -, -⟩ := reorderFrom_spec hre
  have hsize : reordered.length = t.sizeBytes := by
    rw [hsize, List.length_replicate]
    simp
    omega
  refine ⟨hsize, fun m => ?_⟩
  rw [List.length_take, hsize]
  rcases hin with hin | hzero
  · exact .inl (by omega)
  · exact .inr (List.length_eq_zero_iff.mp (by rw [List.length_take]; omega))

/-- With the first `m` bytes of a tensor written, the copy holds that tensor's new bytes so
far. -/
theorem getElem?_written_tensor {bytes reordered : List UInt8} (hlen : bytes.length = d.model.length)
    (hbytes : ∀ i, bytes[i]? = copyByte gguf numExperts perms d.model done none i)
    (hperm : permOf perms t = some perm)
    (hin : gguf.dataOffset + t.offset + t.sizeBytes ≤ d.model.length ∨ t.sizeBytes = 0)
    (hre : reorder ((d.model.drop (gguf.dataOffset + t.offset)).take t.sizeBytes)
      (t.sizeBytes / numExperts) perm = some reordered) (m i : Nat) :
    (if reordered.take m = [] then bytes
      else overwrite bytes (gguf.dataOffset + t.offset) (reordered.take m))[i]? =
      if covers gguf t i ∧ i < gguf.dataOffset + t.offset + m then
        tensorByte gguf numExperts perms d.model t i
      else copyByte gguf numExperts perms d.model done none i := by
  obtain ⟨hsize, hfits⟩ := reordered_fits hin hre
  rw [getElem?_written (hlen ▸ hfits m), hbytes, List.length_take, hsize]
  by_cases hi : covers gguf t i ∧ i < gguf.dataOffset + t.offset + m
  · obtain ⟨hlo, hhi⟩ := covers_iff.mp hi.1
    rw [if_pos hi, if_pos (by omega), List.getElem?_take_of_lt (by omega),
      reorder_byte hre (by omega) (by omega), tensorByte, hperm, Option.getD_some]
  · rw [if_neg hi, if_neg]
    intro ⟨hlo, hhi⟩
    exact hi ⟨covers_iff.mpr ⟨hlo, by omega⟩, by omega⟩

theorem copyByte_concat (hdisj : ∀ t' ∈ done, DisjointData t' t) (i : Nat) :
    copyByte gguf numExperts perms d.model (done ++ [t]) none i =
      if covers gguf t i ∧ i < gguf.dataOffset + t.offset + t.sizeBytes then
        tensorByte gguf numExperts perms d.model t i
      else copyByte gguf numExperts perms d.model done none i := by
  by_cases hi : covers gguf t i
  · have hone : [t].find? (covers gguf · i) = some t := List.find?_cons_of_pos hi
    rw [if_pos ⟨hi, (covers_iff.mp hi).2⟩, copyByte, List.find?_append,
      find?_covers_eq_none hdisj hi, Option.none_or, hone]
  · have hone : [t].find? (covers gguf · i) = none := List.find?_cons_of_neg hi
    rw [if_neg fun h => hi h.1, copyByte, copyByte, List.find?_append, hone, Option.or_none]

theorem copyByte_cut (hdisj : ∀ t' ∈ done, DisjointData t' t) (n i : Nat) :
    copyByte gguf numExperts perms d.model done (some (t, n)) i =
      if covers gguf t i ∧ i < gguf.dataOffset + t.offset + n then
        tensorByte gguf numExperts perms d.model t i
      else copyByte gguf numExperts perms d.model done none i := by
  by_cases hi : covers gguf t i
  · rw [copyByte, copyByte, find?_covers_eq_none hdisj hi]
  · rw [if_neg fun h => hi h.1, copyByte, copyByte]
    cases done.find? (covers gguf · i) with
    | none => exact if_neg fun h => hi h.1
    | some t' => rfl

/-- One tensor ends where the account says, and leaves the bytes it says. -/
theorem rewriteTensor_follows (hdisj : ∀ t' ∈ done, DisjointData t' t) (ht : t ∈ gguf.tensors)
    (hperm : permOf perms t = some perm)
    (hat : Leaves gguf numExperts perms d (.rewriting done none) s) :
    Follows (Leaves gguf numExperts perms d)
      (fun _ calls s' => s'.calls = calls ∧
        Leaves gguf numExperts perms d (.rewriting (done ++ [t]) none) s')
      (rewriteTensor gguf numExperts t perm s)
      (tensorPoint gguf numExperts d.model t perm done s.calls) := by
  refine Follows.bind (call_follows fun s' h => hat.of_disk h) ?_
  rintro _ calls _ rfl
  have hat₁ : Leaves gguf numExperts perms d (.rewriting done none) { s with calls := calls } :=
    hat.of_disk rfl
  refine Follows.bind (readOutput_follows hdisj hat₁) ?_
  rintro original calls₂ _ ⟨rfl, hin, rfl⟩
  refine Follows.bind (orPanic_follows _ (hat.of_disk rfl)) ?_
  rintro reordered _ _ ⟨rfl, hre, rfl⟩
  split
  · exact removeOutput_follows (hat.of_disk rfl)
  · obtain ⟨hmem, bytes, hdisk, hlen, hbytes⟩ := id hat
    have hmem' : done ++ [t] ⊆ gguf.tensors :=
      List.append_subset.mpr ⟨(List.append_subset.mp hmem).1, List.cons_subset.mpr ⟨ht, List.nil_subset _⟩⟩
    refine Follows.bind (call_follows fun s' h => hat.of_disk h) ?_
    rintro _ calls₃ _ rfl
    obtain ⟨hsize, hfits⟩ := reordered_fits hin hre
    have hwritten := getElem?_written_tensor hlen hbytes hperm hin hre
    change Follows _ _ (writing (fun d => d.writeOutput (gguf.dataOffset + t.offset) reordered)
      (fun n d => d.writeOutput (gguf.dataOffset + t.offset) (reordered.take n)) _) _
    refine Follows.imp (writing_follows (fun s' h => hat.of_disk h) fun n s' h => ?_) ?_
    · exact ⟨hmem', _, by rw [h, hdisk]; rfl, (length_written (hlen ▸ hfits n)).trans hlen,
        fun i => (hwritten n i).trans (copyByte_cut hdisj n i).symm⟩
    · rintro _ calls₄ _ rfl
      have hwhole : reordered.take t.sizeBytes = reordered := List.take_of_length_le hsize.le
      have hlast := hwhole ▸ hfits t.sizeBytes
      have hall := hwhole ▸ hwritten t.sizeBytes
      exact ⟨rfl, (List.append_nil _).symm ▸ hmem', _, by rw [hdisk]; rfl,
        (length_written (hlen ▸ hlast)).trans hlen,
        fun i => (hall i).trans (copyByte_concat hdisj i).symm⟩

/-! ### The loop and the command -/

/-- The second loop, from the tensors `ts` on. -/
theorem rewriteTensors_follows {ts : List TensorInfo} (hdisj : (done ++ ts).Pairwise DisjointData)
    (hts : ts ⊆ gguf.tensors)
    (hat : Leaves gguf numExperts perms d (.rewriting done none) s) :
    Follows (Leaves gguf numExperts perms d)
      (fun _ p s' => s'.calls = p.2 ∧ Leaves gguf numExperts perms d (.rewriting p.1 none) s')
      (rewriteTensors gguf numExperts perms ts s)
      (loopPoint gguf numExperts perms d.model ts done s.calls) := by
  induction ts generalizing done s with
  | nil => exact ⟨rfl, hat⟩
  | cons t ts ih =>
      obtain ⟨ht, hts⟩ := List.cons_subset.mp hts
      rw [rewriteTensors, loopPoint]
      cases hperm : permOf perms t with
      | none =>
          have hbind := hperm
          rw [permOf] at hbind
          rw [hbind]
          refine ih (hdisj.sublist ?_) hts hat
          exact List.Sublist.append_left (List.sublist_cons_self t ts) done
      | some perm =>
          have hbind := hperm
          rw [permOf] at hbind
          rw [hbind]
          have hdone : ∀ t' ∈ done, DisjointData t' t := fun t' ht' =>
            (List.pairwise_append.mp hdisj).2.2 t' ht' t List.mem_cons_self
          refine Follows.bind (rewriteTensor_follows hdone ht hperm hat) ?_
          rintro _ _ s' ⟨rfl, hat'⟩
          exact ih (by rwa [List.append_assoc]) hts hat'

theorem findPermutations_eq (coAct : CoActivationMatrix) (numExperts : Nat) (ts : List TensorInfo)
    (perms : List (Nat × List Nat)) : findPermutations coAct numExperts ts perms =
      orPanic (layerPermutations coAct numExperts ts perms) := by
  induction ts generalizing perms with
  | nil => rfl
  | cons t ts ih =>
      rw [findPermutations, layerPermutations]
      cases fusedLayer t with
      | none => exact ih perms
      | some layer =>
          simp only
          split
          · exact ih perms
          · cases computeOptimalExpertOrder coAct layer numExperts with
            | none => rfl
            | some perm => exact ih _

/-- The writing part, from the copy to the sidecar. -/
theorem writing_follows_account (hdisj : gguf.tensors.Pairwise DisjointData) (hs : s.disk = d) :
    Follows (Leaves gguf numExperts perms d) (fun _ _ _ => True)
      ((do
        copyModel
        call
        rewriteTensors gguf numExperts perms gguf.tensors
        writeSidecar perms : OptimizeM Unit) s)
      (writingPoint gguf numExperts perms d.model s.calls) := by
  subst hs
  have hcopy : Follows (Leaves gguf numExperts perms s.disk) _ (copyModel s)
      (writeStep .untouched .copying s.calls) :=
    writing_follows (fun s' h => h) fun n s' h => h
  refine Follows.bind hcopy ?_
  rintro _ calls _ rfl
  have hcopied : ∀ s', s'.disk = { s.disk with output := some s.disk.model } →
      Leaves gguf numExperts perms s.disk (.rewriting [] none) s' :=
    fun s' h => ⟨List.nil_subset _, s.disk.model, h, rfl, fun i => rfl⟩
  refine Follows.bind (call_follows hcopied) ?_
  rintro _ calls₂ _ rfl
  refine Follows.bind (rewriteTensors_follows hdisj (List.Subset.refl _) (hcopied _ rfl)) ?_
  rintro _ ⟨done, calls₃⟩ s₃ ⟨rfl, hat⟩
  obtain ⟨hmem, bytes, hdisk, hlen, hbytes⟩ := id hat
  refine Follows.imp (writing_follows (fun s' h => hat.of_disk h) fun n s' h => ?_) ?_
  · exact ⟨(List.append_subset.mp hmem).1, bytes, by rw [h, hdisk], hbytes⟩
  · exact fun _ _ _ _ => trivial

end Leaves

theorem openModel_follows {gguf : GgufFile} {s : RunState} {leaves : Stop → RunState → Prop}
    (hparse : GgufFile.parse s.disk.model = .ok gguf)
    (h : ∀ s', s'.disk = s.disk → leaves .untouched s') :
    Follows leaves (fun g calls s' => g = gguf ∧ s' = { s with calls := calls }) (openModel s)
      (ioStep .untouched s.calls) := by
  rw [← bind_pure (ioStep .untouched s.calls)]
  refine Follows.bind (call_follows h) ?_
  rintro _ calls _ rfl
  dsimp only [getDisk, Bind.bind, EStateM.bind]
  rw [hparse]
  exact ⟨rfl, rfl⟩

/-- **The command ends where its account says, and leaves what it says.** -/
theorem run_follows {coAct : Option CoActivationMatrix} {gguf : GgufFile} {s : RunState}
    (hparse : GgufFile.parse s.disk.model = .ok gguf)
    (hdisj : gguf.tensors.Pairwise DisjointData) :
    Follows (Leaves gguf ((gguf.getU32 "expert_count").getD 0)
        ((plannedPermutations coAct gguf).getD []) s.disk)
      (fun _ _ _ => True) (run coAct s) (failurePoint coAct gguf s) := by
  refine Follows.bind (openModel_follows hparse fun s' h => h) ?_
  rintro gguf calls _ ⟨rfl, rfl⟩
  cases coAct with
  | none => exact (rfl : s.disk = s.disk)
  | some coAct =>
      simp only [optimizeWith, plannedPermutations, Option.bind_some, findPermutations_eq]
      by_cases hdata : coAct.hasData
      · by_cases hne : (gguf.getU32 "expert_count").getD 0 = 0
        · simp only [hdata, hne, not_true_eq_false, if_true, if_false, or_true]
          exact (rfl : s.disk = s.disk)
        · simp only [hdata, hne, not_true_eq_false, if_false, or_self]
          cases layerPermutations coAct _ gguf.tensors [] with
          | none => exact (rfl : s.disk = s.disk)
          | some perms =>
              rw [bind_eq_of_ok (rfl : orPanic (some perms) _ = .ok perms _), Option.bind_some]
              by_cases hnil : perms = []
              · rw [if_pos hnil, if_pos hnil]
                exact (rfl : s.disk = s.disk)
              · rw [if_neg hnil, if_neg hnil]
                exact writing_follows_account hdisj rfl
      · simp only [hdata]
        exact (rfl : s.disk = s.disk)

end Hypura.Optimize
