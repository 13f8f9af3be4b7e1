import Hypura.Core.CodecLog
import Hypura.Model.GgufSound

/-!
# Hypura.Model.GgufSafe

What the GGUF parser asks of the machine, on every byte string.

* `LengthsFit`: the numbers of the bytes that the parser feeds to an allocation or a
  product before it has checked them, each at every position a read can reach. It is a
  condition on the bytes and the grammar alone.
* `SafelyParsed`: no allocation request beyond `isize::MAX` bytes, no wrapped product,
  every recorded size the true one, and no read stopped by the bound on array nesting.
* `safelyParsed_iff`: the second holds exactly under the first.

The conditions follow the readers: one predicate for each function of the parser, with
the theorem that the events it logs are benign exactly when the bytes satisfy it.
-/

namespace Hypura

open Hypura.Core

/-- An event a run may cause: an allocation request of at most `isize::MAX` bytes. -/
def GgufEvent.Benign : GgufEvent → Prop
  | .alloc bytes => bytes < 2 ^ 63
  | .overflow => False

/-! ### Strings -/

/-- The string that begins `rest` asks for a buffer that can exist. -/
def StringFits (rest : List UInt8) : Prop :=
  ∀ (len : UInt64) (rest' : List UInt8), rest = Scalar.u64.encode len ++ rest' → len.toNat < 2 ^ 63

theorem fromUtf8_mute (buf : List UInt8) : Mute (fromUtf8 buf) := by
  unfold fromUtf8
  split
  · exact .pure _
  · exact .throw _

theorem readString_respects (N : Nat) : Respects GgufEvent.Benign N readString StringFits := by
  unfold readString readU64
  refine Respects.scalar_bind _ _ fun _ len => ?_
  have hread : Mute (readExact .io len.toNat >>= fromUtf8 : GgufReader String) :=
    (Mute.readExact _ _).bind fromUtf8_mute
  refine (Respects.log_bind _ (hread.respects _ _)).congr fun _ _ => ?_
  simp [GgufEvent.Benign]

theorem readString_decodes (N : Nat) :
    Decodes N 8 readString (EncodingOf FitsLength stringBytes id) where
  consumes := readString_consumes
  reads b a hG _ := by
    obtain ⟨s, hs, rfl, ha⟩ := hG
    exact ha ▸ readString_reads hs
  length_le b a hG := by
    obtain ⟨s, -, rfl, -⟩ := hG
    have h8 : Scalar.u64.width = 8 := rfl
    rw [stringBytes, List.length_append, Scalar.encode_length]
    omega

/-! ### Values -/

/-- Reading a value of type `vtype` from `rest` can reach a request of `n` bytes: a string
at its front, the elements of an array, or what an element asks for after `done` others. -/
inductive ValueAsks : UInt32 → List UInt8 → Nat → Prop
  | string (len : UInt64) (rest : List UInt8) : ValueAsks 8 (Scalar.u64.encode len ++ rest) len.toNat
  | array (elemType : UInt32) (count : UInt64) (rest : List UInt8) :
      ValueAsks 9 (Scalar.u32.encode elemType ++ (Scalar.u64.encode count ++ rest))
        (count.toNat * ggufValueSize)
  | elem (elemType : UInt32) (count : UInt64) (done : List WireValue) (rest : List UInt8) (n : Nat)
      (hcount : done.length < count.toNat)
      (hdone : ∀ v ∈ done, v.Readable ∧ v.valueType = elemType)
      (h : ValueAsks elemType rest n) :
      ValueAsks 9 (Scalar.u32.encode elemType ++ (Scalar.u64.encode count ++
        (done.flatMap WireValue.payload ++ rest))) n

/-- Every request a value of type `vtype` can cause is one an allocation can express. -/
def ValueFits (vtype : UInt32) (rest : List UInt8) : Prop :=
  ∀ n, ValueAsks vtype rest n → n < 2 ^ 63

theorem valueFits_string {rest : List UInt8} : ValueFits 8 rest ↔ StringFits rest := by
  constructor
  · intro h len rest' heq
    exact h _ (heq ▸ .string len rest')
  · intro h n hn
    cases hn with
    | string len rest' => exact h len rest' rfl

/-- The request for the elements of an array fits, and so do those of every element that
can be reached. -/
def ElemsFit (elemType : UInt32) (count : UInt64) (rest : List UInt8) : Prop :=
  count.toNat * ggufValueSize < 2 ^ 63 ∧
    ItemsRespect (fun v : WireValue => v.Readable ∧ v.valueType = elemType) WireValue.payload
      (ValueFits elemType) count.toNat rest

theorem valueFits_array {rest : List UInt8} :
    ValueFits 9 rest ↔ ∀ (elemType : UInt32) (count : UInt64) (rest' : List UInt8),
      rest = Scalar.u32.encode elemType ++ (Scalar.u64.encode count ++ rest') →
        ElemsFit elemType count rest' := by
  constructor
  · intro h elemType count rest' heq
    subst heq
    refine ⟨h _ (.array elemType count rest'), ?_⟩
    intro done rest'' hcount hdone heq n hn
    subst heq
    exact h n (.elem elemType count done rest'' n hcount hdone hn)
  · intro h n hn
    cases hn with
    | array elemType count rest' => exact (h elemType count rest' rfl).1
    | elem elemType count done rest' n hcount hdone hn =>
        exact (h elemType count _ rfl).2 done rest' hcount hdone rfl n hn

theorem valueFits_of_scalar {vtype : UInt32} (h8 : vtype ≠ 8) (h9 : vtype ≠ 9)
    (rest : List UInt8) : ValueFits vtype rest := by
  intro n hn
  cases hn with
  | string => exact absurd rfl h8
  | array => exact absurd rfl h9
  | elem => exact absurd rfl h9

theorem readValueOfType_decodes {N depth : Nat} (hN : N < depth) (vtype : UInt32) :
    Decodes N 0 (readValueOfType depth vtype) (EncodesValue vtype) where
  consumes := readValueOfType_consumes depth vtype
  reads b a hG hlen := by
    obtain ⟨v, ⟨hv, rfl⟩, rfl, rfl⟩ := hG
    exact readValueOfType_reads hv depth (by omega) (by omega)
  length_le _ _ _ := Nat.zero_le _

/-- A mute reader of a type that is neither a string nor an array. -/
theorem mute_respects_valueFits {p : GgufReader GgufValue} {vtype : UInt32} {k : Nat} (hp : Mute p)
    (hv : vtype.toNat = k) (h8 : k ≠ 8) (h9 : k ≠ 9) (N : Nat) :
    Respects GgufEvent.Benign N p (ValueFits vtype) := by
  refine (hp.respects _ N).congr fun rest _ => iff_of_true trivial (valueFits_of_scalar ?_ ?_ rest)
  · intro h
    exact h8 (by rw [← hv, h]; rfl)
  · intro h
    exact h9 (by rw [← hv, h]; rfl)

/-- The array case, over any reader of its elements. -/
theorem array_respects {elem : UInt32 → GgufReader GgufValue} {N : Nat}
    (hd : 12 ≤ N → ∀ t, Decodes (N - 4 - 8) 0 (elem t) (EncodesValue t))
    (hp : 12 ≤ N → ∀ t, Respects GgufEvent.Benign (N - 4 - 8) (elem t) (ValueFits t)) :
    Respects GgufEvent.Benign N (do
      let elemType ← readU32
      let count ← readU64
      logEvent (.alloc (count.toNat * ggufValueSize))
      let arr ← readMany (elem elemType) count.toNat
      pure (GgufValue.array arr)) (ValueFits 9) := by
  refine (Respects.scalar_bind Scalar.u32 _ fun (h4 : 4 ≤ N) elemType =>
    Respects.scalar_bind Scalar.u64 _ fun (h8 : 8 ≤ N - 4) count => Respects.log_bind _
      ((Respects.readMany (hd (by omega) elemType) (hp (by omega) elemType) count.toNat).bind_pure
        GgufValue.array)).congr fun rest _ => ?_
  rw [valueFits_array]
  constructor
  · intro h elemType count rest' heq
    exact h elemType _ heq count rest' rfl
  · intro h elemType rest₁ heq count rest' heq₁
    exact h elemType count rest' (heq.trans (congrArg _ heq₁))

theorem readValueOfType_respects (depth : Nat) :
    ∀ (vtype : UInt32) (N : Nat), N < depth →
      Respects GgufEvent.Benign N (readValueOfType depth vtype) (ValueFits vtype) := by
  induction depth with
  | zero => exact fun _ N hN => absurd hN (Nat.not_lt_zero N)
  | succ depth ih =>
      intro vtype N hN
      unfold readValueOfType
      split
      · next h => exact mute_respects_valueFits ((Mute.scalar _ _).map _) h (by decide) (by decide) N
      · next h => exact mute_respects_valueFits ((Mute.scalar _ _).map _) h (by decide) (by decide) N
      · next h => exact mute_respects_valueFits ((Mute.scalar _ _).map _) h (by decide) (by decide) N
      · next h => exact mute_respects_valueFits ((Mute.scalar _ _).map _) h (by decide) (by decide) N
      · next h => exact mute_respects_valueFits ((Mute.scalar _ _).map _) h (by decide) (by decide) N
      · next h => exact mute_respects_valueFits ((Mute.scalar _ _).map _) h (by decide) (by decide) N
      · next h => exact mute_respects_valueFits ((Mute.scalar _ _).map _) h (by decide) (by decide) N
      · next h => exact mute_respects_valueFits ((Mute.scalar _ _).map _) h (by decide) (by decide) N
      · next h =>
          obtain rfl : vtype = 8 := UInt32.toNat_inj.mp h
          exact ((readString_respects N).map _).congr fun _ _ => valueFits_string.symm
      · next h =>
          obtain rfl : vtype = 9 := UInt32.toNat_inj.mp h
          exact array_respects (fun h12 t => readValueOfType_decodes (by omega) t)
            fun h12 t => ih t _ (by omega)
      · next h => exact mute_respects_valueFits ((Mute.scalar _ _).map _) h (by decide) (by decide) N
      · next h => exact mute_respects_valueFits ((Mute.scalar _ _).map _) h (by decide) (by decide) N
      · next h => exact mute_respects_valueFits ((Mute.scalar _ _).map _) h (by decide) (by decide) N
      · next h8 h9 _ _ _ =>
          refine mute_respects_valueFits (.throw _) rfl ?_ ?_ N
          · simpa using h8
          · simpa using h9

/-! ### Key/value pairs -/

/-- A key/value pair the reader accepts. -/
def ReadableKv (kv : String × WireValue) : Prop := FitsLength kv.1 ∧ kv.2.Readable

/-- The key at the front of `rest` fits, and so does the value after every readable key. -/
def KvFits (rest : List UInt8) : Prop :=
  StringFits rest ∧ ∀ (key : String) (vtype : UInt32) (rest' : List UInt8), FitsLength key →
    rest = stringBytes key ++ (Scalar.u32.encode vtype ++ rest') → ValueFits vtype rest'

theorem readKv_respects {depth N : Nat} (hN : N < depth) :
    Respects GgufEvent.Benign N (readKv depth) KvFits := by
  have hvalue : ∀ (key : String) (M : Nat), M ≤ N → Respects GgufEvent.Benign M
      (readValue depth >>= fun value => pure (key, value)) fun rest =>
        ∀ vtype rest', rest = Scalar.u32.encode vtype ++ rest' → ValueFits vtype rest' := by
    intro key M hM
    exact (Respects.scalar_bind Scalar.u32 _ fun _ vtype =>
      readValueOfType_respects depth vtype _ (by omega)).bind_pure _
  refine (Respects.bind_encoding (readString_decodes N) (readString_respects N) fun _ key =>
    hvalue key _ (Nat.sub_le _ _)).congr fun rest _ => and_congr_right fun _ => ?_
  constructor
  · intro h key vtype rest' hkey heq
    exact h key _ hkey heq vtype rest' rfl
  · intro h key rest₁ hkey heq vtype rest' heq₁
    exact h key vtype rest' hkey (heq.trans (congrArg _ heq₁))

theorem readKv_decodes {depth N : Nat} (hN : N < depth) :
    Decodes N 0 (readKv depth) (EncodingOf ReadableKv kvBytes fun kv => (kv.1, kv.2.value)) where
  consumes := readKv_consumes depth
  reads b a hG hlen := by
    obtain ⟨kv, hkv, rfl, rfl⟩ := hG
    rw [kvBytes, List.length_append, List.length_append] at hlen
    exact readKv_reads hkv (by omega) (by omega)
  length_le _ _ _ := Nat.zero_le _

/-! ### Tensor descriptors -/

namespace WireTensor

/-- No step of the size computation leaves `u64`: neither a partial product of the
dimensions, taken from the left, nor the byte size. -/
structure NoOverflow (t : WireTensor) : Prop where
  products : ∀ k, ((t.dims.map UInt64.toNat).take k).prod < 2 ^ 64
  size : t.byteSize < 2 ^ 64

theorem NoOverflow.sizesFit {t : WireTensor} (h : t.NoOverflow) : t.SizesFit := by
  refine ⟨?_, h.size⟩
  have hall := h.products (t.dims.map UInt64.toNat).length
  rwa [List.take_length] at hall

end WireTensor

/-- The name at the front of `rest` fits, and a tensor readable there causes no overflow. -/
def TensorFits (rest : List UInt8) : Prop :=
  StringFits rest ∧ ∀ (t : WireTensor) (rest' : List UInt8), t.Readable → rest = t.encode ++ rest' →
    t.NoOverflow

theorem mulU64_respects (N a b : Nat) :
    Respects GgufEvent.Benign N (mulU64 a b) fun _ => a * b < 2 ^ 64 := by
  unfold mulU64
  by_cases h : 2 ^ 64 ≤ a * b
  · rw [if_pos h]
    refine ((Respects.logEvent GgufEvent.Benign N .overflow).bind_pure _).congr fun _ _ => ?_
    simp only [GgufEvent.Benign, false_iff, not_lt]
    exact h
  · rw [if_neg h]
    refine ((Mute.pure _).respects _ N).congr fun _ _ => ?_
    simp only [true_iff]
    exact not_le.mp h

theorem product_respects (N : Nat) (ds : List Nat) :
    ∀ acc, acc < 2 ^ 64 → Respects GgufEvent.Benign N (product acc ds)
      fun _ => ∀ k, acc * (ds.take k).prod < 2 ^ 64 := by
  induction ds with
  | nil =>
      intro acc hacc
      refine ((Mute.pure _).respects _ N).congr fun _ _ => ?_
      simpa using hacc
  | cons d ds ih =>
      intro acc hacc
      refine (Respects.silent_bind (mulU64_silent acc d) (mulU64_respects N acc d)
        (ih _ (Nat.mod_lt _ (by norm_num)))).congr fun _ _ => ?_
      constructor
      · intro h k
        rw [Nat.mod_eq_of_lt h.1] at h
        cases k with
        | zero => simpa using hacc
        | succ k =>
            rw [List.take_succ_cons, List.prod_cons, ← Nat.mul_assoc]
            exact h.2 k
      · intro h
        have hd : acc * d < 2 ^ 64 := by simpa using h 1
        refine ⟨hd, fun k => ?_⟩
        have hk := h (k + 1)
        rw [List.take_succ_cons, List.prod_cons, ← Nat.mul_assoc] at hk
        rwa [Nat.mod_eq_of_lt hd]

/-- The size computation overflows nowhere exactly when the descriptor says so. -/
theorem size_respects (N : Nat) (t : WireTensor) :
    Respects GgufEvent.Benign N (do
      let numElements ← product 1 (t.dims.map UInt64.toNat)
      let sizeBytes ← mulU64 (numElements / (GgmlType.fromU32 t.dtype).blockSize.1)
        (GgmlType.fromU32 t.dtype).blockSize.2
      pure (t.infoWithSize sizeBytes)) fun _ => t.NoOverflow := by
  have hsilent := product_silent (t.dims.map UInt64.toNat) 1 (by norm_num)
  have hprod := product_respects N (t.dims.map UInt64.toNat) 1 (by norm_num)
  refine (Respects.silent_bind hsilent hprod
    ((mulU64_respects N _ _).bind_pure t.infoWithSize)).congr fun _ _ => ?_
  simp only [Nat.one_mul]
  constructor
  · intro h
    have hall : t.elementCount < 2 ^ 64 := by
      have hlen := h.1 (t.dims.map UInt64.toNat).length
      rwa [List.take_length] at hlen
    refine ⟨h.1, ?_⟩
    have hsize := h.2
    change t.elementCount % 2 ^ 64 / _ * _ < 2 ^ 64 at hsize
    rwa [Nat.mod_eq_of_lt hall] at hsize
  · intro h
    refine ⟨h.products, ?_⟩
    show t.elementCount % 2 ^ 64 / _ * _ < 2 ^ 64
    rw [Nat.mod_eq_of_lt h.sizesFit.1]
    exact h.size

theorem readTensorInfo_respects (N : Nat) :
    Respects GgufEvent.Benign N readTensorInfo TensorFits := by
  have hdims : ∀ (n M : Nat), Respects GgufEvent.Benign M (readMany readU64 n) fun _ => True :=
    fun n M => ((Mute.scalar _ _).readMany n).respects _ M
  refine (Respects.bind_encoding (readString_decodes N) (readString_respects N) fun _ name =>
    Respects.scalar_bind Scalar.u32 _ fun _ nDims => Respects.log_bind _
      (Respects.bind_encoding ((Decodes.scalar Scalar.u64 _ _).mono le_rfl (Nat.zero_le _) |>.readMany
        nDims.toNat) (hdims nDims.toNat _) fun _ dims => Respects.scalar_bind Scalar.u32 _
          fun _ dtype => Respects.scalar_bind Scalar.u64 _ fun _ offset =>
            size_respects _ ⟨name, dims, dtype, offset⟩)).congr fun rest _ => and_congr_right fun _ => ?_
  simp only [id_eq, List.map_id]
  constructor
  · intro h t rest' ht heq
    obtain ⟨name, dims, dtype, offset⟩ := t
    simp only [WireTensor.encode, List.append_assoc] at heq
    have hcount : (UInt32.ofNat dims.length).toNat = dims.length := UInt32.toNat_ofNat_of_lt' ht.2
    exact (h name _ ht.1 heq _ _ rfl).2.2 dims _ ⟨hcount.symm, fun _ _ => trivial⟩ rfl dtype _ rfl
      offset rest' rfl
  · intro h name rest₁ hname heq nDims rest₂ heq₂
    have hn : nDims.toNat < 2 ^ 32 := UInt32.toNat_lt nDims
    refine ⟨show nDims.toNat * 8 < 2 ^ 63 by omega, trivial, ?_⟩
    intro dims rest₃ hlen heq₃ dtype rest₄ heq₄ offset rest₅ heq₅
    refine h ⟨name, dims, dtype, offset⟩ rest₅ ⟨hname, ?_⟩ ?_
    · rw [hlen.1]; exact hn
    · rw [heq, heq₂, heq₃, heq₄, heq₅]
      simp only [WireTensor.encode, List.append_assoc]
      rw [hlen.1, UInt32.ofNat_toNat]

theorem readTensorInfo_decodes (N : Nat) :
    Decodes N 0 readTensorInfo (EncodingOf WireTensor.Readable WireTensor.encode
      fun t => t.infoWithSize t.readSize) where
  consumes := readTensorInfo_consumes
  reads b a hG _ := by
    obtain ⟨t, ht, rfl, rfl⟩ := hG
    exact readTensorInfo_reads ht
  length_le _ _ _ := Nat.zero_le _

/-! ### Headers -/

/-- What follows the counts of a header: every pair that can be reached fits, and once all
pairs are read, so do the request for the tensors and every tensor that can be reached. -/
structure CountsFit (tensorCount kvCount : UInt64) (rest : List UInt8) : Prop where
  kvs : ItemsRespect ReadableKv kvBytes KvFits kvCount.toNat rest
  tensors : ∀ (kvs : List (String × WireValue)) (rest' : List UInt8), kvs.length = kvCount.toNat →
    (∀ kv ∈ kvs, ReadableKv kv) → rest = kvs.flatMap kvBytes ++ rest' →
      tensorCount.toNat * tensorInfoSize < 2 ^ 63 ∧
        ItemsRespect WireTensor.Readable WireTensor.encode TensorFits tensorCount.toNat rest'

/-- **The numbers the parser trusts are small enough**, wherever a read can reach them:
if the bytes begin with the magic and a known version, then what follows the counts fits. -/
def LengthsFit (bytes : List UInt8) : Prop :=
  ∀ (version : UInt32) (tensorCount kvCount : UInt64) (rest : List UInt8),
    version = 2 ∨ version = 3 →
    bytes = Scalar.u32.encode ggufMagic ++ (Scalar.u32.encode version ++
      (Scalar.u64.encode tensorCount ++ (Scalar.u64.encode kvCount ++ rest))) →
    CountsFit tensorCount kvCount rest

theorem checkMagic_mute (magic : UInt32) : Mute (checkMagic magic) := by
  unfold checkMagic
  split
  · exact .throw _
  · exact .pure _

theorem checkVersion_mute (version : UInt32) : Mute (checkVersion version) := by
  unfold checkVersion
  split
  · exact .throw _
  · exact .pure _

theorem checkMagic_decodes (N : Nat) (magic : UInt32) :
    Decodes N 0 (checkMagic magic) (EncodingOf (fun _ : Unit => magic = ggufMagic) (fun _ => []) id) where
  consumes := (checkMagic_consumes magic).mono fun b a h => ⟨a, h.2, h.1, rfl⟩
  reads b a hG _ := by
    obtain ⟨_, rfl, rfl, _⟩ := hG
    exact checkMagic_silent.reads
  length_le _ _ _ := Nat.zero_le _

theorem checkVersion_decodes (N : Nat) (version : UInt32) :
    Decodes N 0 (checkVersion version)
      (EncodingOf (fun _ : Unit => version = 2 ∨ version = 3) (fun _ => []) id) where
  consumes := (checkVersion_consumes version).mono fun b a h => ⟨a, h.2, h.1, rfl⟩
  reads b a hG _ := by
    obtain ⟨_, hv, rfl, _⟩ := hG
    exact (checkVersion_silent hv).reads
  length_le _ _ _ := Nat.zero_le _

/-- The loops of the parser, after the two counts. -/
theorem readBody_respects {N depth : Nat} (hN : N < depth) (version : UInt32)
    (tensorCount kvCount : UInt64) :
    Respects GgufEvent.Benign N (do
      let kvs ← readMany (readKv depth) kvCount.toNat
      logEvent (.alloc (tensorCount.toNat * tensorInfoSize))
      let tensors ← readMany readTensorInfo tensorCount.toNat
      pure (version, kvs, tensors)) (CountsFit tensorCount kvCount) := by
  refine (Respects.bind_encoding (Decodes.readMany (readKv_decodes hN) _)
    (Respects.readMany (readKv_decodes hN) (readKv_respects hN) _) fun _ kvs =>
      Respects.log_bind _ ((Respects.readMany (readTensorInfo_decodes _)
        (readTensorInfo_respects _) _).bind_pure _)).congr fun rest _ => ?_
  constructor
  · intro h
    exact ⟨h.1, fun kvs rest' hlen hkvs heq => h.2 kvs rest' ⟨hlen, hkvs⟩ heq⟩
  · intro h
    exact ⟨h.kvs, fun kvs rest' hkvs heq => h.tensors kvs rest' hkvs.1 hkvs.2 heq⟩

theorem readHeader_respects {N depth : Nat} (hN : N ≤ depth) :
    Respects GgufEvent.Benign N (readHeader depth) LengthsFit := by
  refine (Respects.scalar_bind Scalar.u32 _ fun (h4 : 4 ≤ N) magic =>
    Respects.bind_encoding (checkMagic_decodes _ magic) ((checkMagic_mute magic).respects _ _)
      fun _ _ => Respects.scalar_bind Scalar.u32 _ fun _ version =>
        Respects.bind_encoding (checkVersion_decodes _ version)
          ((checkVersion_mute version).respects _ _) fun _ _ =>
            Respects.scalar_bind Scalar.u64 _ fun _ tensorCount =>
              Respects.scalar_bind Scalar.u64 _ fun _ kvCount =>
                readBody_respects (N := _) ?_ version tensorCount kvCount).congr fun rest _ => ?_
  · have hwidth : Scalar.u32.width = 4 := rfl
    omega
  · constructor
    · intro h version tensorCount kvCount rest' hversion heq
      exact ((h ggufMagic _ heq).2 () _ rfl rfl version _ rfl |>.2 () _ hversion rfl) tensorCount _ rfl
        kvCount rest' rfl
    · intro h magic rest₁ heq₁
      refine ⟨trivial, fun _ rest₂ hmagic heq₂ version rest₃ heq₃ => ⟨trivial, ?_⟩⟩
      intro _ rest₄ hversion heq₄ tensorCount rest₅ heq₅ kvCount rest₆ heq₆
      refine h version tensorCount kvCount rest₆ hversion ?_
      rw [heq₁, heq₂, heq₃, heq₄, heq₅, heq₆, hmagic]
      rfl

/-! ### The parser -/

theorem parseHeader_respects {N depth : Nat} (hN : N ≤ depth) :
    Respects GgufEvent.Benign N (parseHeader depth) LengthsFit :=
  (readHeader_respects hN).bind_mute fun _ _ => rfl

/-- The events `parse` logs are benign exactly when the lengths fit. -/
theorem events_benign_iff (bytes : List UInt8) :
    (∀ e ∈ (GgufFile.parseWithEvents bytes).2, e.Benign) ↔ LengthsFit bytes := by
  have h := parseHeader_respects le_rfl ⟨bytes, 0, []⟩ le_rfl
  rw [GgufFile.parseWithEvents]
  cases hrun : parseHeader bytes.length ⟨bytes, 0, []⟩ with
  | ok f c' => simpa [hrun, after] using h
  | error e c' => simpa [hrun, after] using h

/-- Nesting deeper than the input is long is never needed. -/
theorem readValueOfType_agreeOn (depth : Nat) :
    ∀ (depth' : Nat) (vtype : UInt32) (N : Nat), N < depth → N < depth' →
      AgreeOn N (readValueOfType depth vtype) (readValueOfType depth' vtype) := by
  induction depth with
  | zero => exact fun _ _ N hN => absurd hN (Nat.not_lt_zero N)
  | succ depth ih =>
      intro depth' vtype N hN hN'
      cases depth' with
      | zero => exact absurd hN' (Nat.not_lt_zero N)
      | succ depth' =>
          unfold readValueOfType
          split
          case h_10 =>
            refine AgreeOn.scalar_bind Scalar.u32 _ fun (h4 : 4 ≤ N) elemType =>
              AgreeOn.scalar_bind Scalar.u64 _ fun (h8 : 8 ≤ N - 4) count => AgreeOn.log_bind _ ?_
            have hlt : N - 4 - 8 < depth := by omega
            have hlt' : N - 4 - 8 < depth' := by omega
            exact (AgreeOn.readMany (ih depth' elemType _ hlt hlt')
              (readValueOfType_consumes depth elemType) _).bind_pure _
          all_goals exact .refl N _

theorem readKv_agreeOn {N depth depth' : Nat} (h : N < depth) (h' : N < depth') :
    AgreeOn N (readKv depth) (readKv depth') := by
  refine AgreeOn.bind (.refl N _) readString_consumes (fun _ _ _ => Nat.zero_le _) fun _ key => ?_
  refine AgreeOn.bind_pure ?_ _
  exact AgreeOn.scalar_bind Scalar.u32 _ fun _ vtype =>
    readValueOfType_agreeOn depth depth' vtype _ (by omega) (by omega)

theorem parseHeader_agreeOn {N depth depth' : Nat} (h : N ≤ depth) (h' : N ≤ depth') :
    AgreeOn N (parseHeader depth) (parseHeader depth') := by
  have hheader : AgreeOn N (readHeader depth) (readHeader depth') := by
    refine AgreeOn.scalar_bind Scalar.u32 _ fun (h4 : 4 ≤ N) magic => ?_
    refine AgreeOn.bind (.refl _ _) (checkMagic_consumes magic) (fun _ _ _ => Nat.zero_le _)
      fun _ _ => AgreeOn.scalar_bind Scalar.u32 _ fun _ version => ?_
    refine AgreeOn.bind (.refl _ _) (checkVersion_consumes version) (fun _ _ _ => Nat.zero_le _)
      fun _ _ => AgreeOn.scalar_bind Scalar.u64 _ fun _ tensorCount =>
        AgreeOn.scalar_bind Scalar.u64 _ fun _ kvCount => ?_
    have hwidth : Scalar.u32.width = 4 := rfl
    refine AgreeOn.bind (.readMany (readKv_agreeOn ?_ ?_) (readKv_consumes depth) _)
      (readMany_consumes (readKv_consumes depth) _) (fun _ _ _ => Nat.zero_le _) fun _ _ => .refl _ _
    all_goals omega
  exact AgreeOn.bind hheader (readHeader_consumes depth) (fun _ _ _ => Nat.zero_le _)
    fun _ _ => .refl _ _

/-- A header at the front of bytes whose lengths fit declares only sizes that fit. -/
theorem sizesFit_of_lengthsFit {h : WireHeader} {rest : List UInt8} (hr : h.Readable)
    (hfit : LengthsFit (h.encode ++ rest)) {t : WireTensor} (ht : t ∈ h.tensors) : t.SizesFit := by
  have hkc : (UInt64.ofNat h.kvs.length).toNat = h.kvs.length := UInt64.toNat_ofNat_of_lt' hr.kvCount
  have htc : (UInt64.ofNat h.tensors.length).toNat = h.tensors.length :=
    UInt64.toNat_ofNat_of_lt' hr.tensorCount
  have hcounts := hfit h.version (.ofNat h.tensors.length) (.ofNat h.kvs.length)
    (h.kvs.flatMap kvBytes ++ (h.tensors.flatMap WireTensor.encode ++ rest)) hr.version
    (by simp only [WireHeader.encode, List.append_assoc])
  obtain ⟨-, htensors⟩ := hcounts.tensors h.kvs _ hkc.symm hr.kvs rfl
  obtain ⟨done, later, hsplit⟩ := List.append_of_mem ht
  have hlen : done.length < h.tensors.length := by
    rw [hsplit, List.length_append, List.length_cons]
    omega
  have hdone : ∀ t' ∈ done, t'.Readable :=
    fun t' ht' => hr.tensors t' (hsplit ▸ List.mem_append_left _ ht')
  have hhere := htensors done (t.encode ++ (later.flatMap WireTensor.encode ++ rest)) (by omega) hdone
    (by rw [hsplit]; simp only [List.flatMap_append, List.flatMap_cons, List.append_assoc])
  exact (hhere.2 t _ (hr.tensors t ht) rfl).sizesFit

/-- Parsing a byte string is safe. -/
structure SafelyParsed (bytes : List UInt8) : Prop where
  /-- The bound on array nesting is never what stops a read. -/
  terminates : ∀ depth, bytes.length ≤ depth →
    parseHeader depth ⟨bytes, 0, []⟩ = parseHeader bytes.length ⟨bytes, 0, []⟩
  /-- Every allocation request can be expressed, and no product wraps. -/
  benign : ∀ e ∈ (GgufFile.parseWithEvents bytes).2, e.Benign
  /-- Every recorded size is the true one. -/
  sizes : ∀ f, GgufFile.parse bytes = .ok f → ∀ t ∈ f.tensors,
    t.sizeBytes = t.dimensions.prod / t.dtype.blockSize.1 * t.dtype.blockSize.2

/-- **Parsing is safe exactly when the numbers the parser trusts are small enough.** -/
theorem safelyParsed_iff (bytes : List UInt8) : SafelyParsed bytes ↔ LengthsFit bytes := by
  constructor
  · exact fun h => (events_benign_iff bytes).mp h.benign
  · intro hfit
    refine ⟨?_, (events_benign_iff bytes).mpr hfit, ?_⟩
    · exact fun depth hd => parseHeader_agreeOn hd le_rfl _ le_rfl
    · intro f hf t ht
      obtain ⟨h, rest, hr, rfl, rfl⟩ := exists_header_of_parse hf
      obtain ⟨t', ht', rfl⟩ := List.mem_map.mp ht
      exact WireTensor.readSize_of_sizesFit (sizesFit_of_lengthsFit hr hfit ht')

/-- A header whose one key claims to be `2 ^ 63` bytes long. -/
def hugeKeyHeader : List UInt8 :=
  Scalar.u32.encode ggufMagic ++ (Scalar.u32.encode 3 ++ (Scalar.u64.encode 0 ++
    (Scalar.u64.encode 1 ++ Scalar.u64.encode (.ofNat (2 ^ 63)))))

/-- Its 32 bytes make the parser ask for a buffer no allocation can express. -/
theorem not_safelyParsed_hugeKeyHeader : ¬ SafelyParsed hugeKeyHeader := by
  intro h
  have hfit := (events_benign_iff _).mp h.benign 3 0 1 (Scalar.u64.encode (.ofNat (2 ^ 63))) (.inr rfl) rfl
  have hkey := (hfit.kvs [] (Scalar.u64.encode (.ofNat (2 ^ 63))) (by decide) (by simp) rfl).1 (.ofNat (2 ^ 63)) []
    (by simp)
  rw [UInt64.toNat_ofNat_of_lt' (by norm_num)] at hkey
  exact absurd hkey (lt_irrefl _)

end Hypura
