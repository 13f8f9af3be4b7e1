import Mathlib.Data.UInt
import Hypura.Model.GgufGrammar

/-!
# Hypura.Model.GgufSound

The parser of `Hypura.Model.Gguf` against the grammar of `Hypura.Model.GgufGrammar`.

* `parse_encode`: every readable header parses to what the parser makes of it
  (`WireHeader.parsed`), whatever follows.
* `exists_header_of_parse`: everything that parses begins with a readable header.
* `parsed` and the file the header describes agree exactly on well-formed headers:
  a `u64` product that leaves the type wraps, so the recorded size is not the size.
-/

namespace Hypura

open Hypura.Core

/-! ### Strings -/

theorem fromUTF8?_toByteArray (s : String) : String.fromUTF8? s.toByteArray = some s := by
  rw [String.fromUTF8?, dif_pos s.isValidUTF8]
  rfl

theorem toByteArray_of_fromUTF8? {b : ByteArray} {s : String} (h : String.fromUTF8? b = some s) :
    s.toByteArray = b := by
  rw [String.fromUTF8?] at h
  split at h
  · cases h
    rfl
  · cases h

theorem fromUtf8_reads (s : String) : Reads (fromUtf8 s.toByteArray.data.toList) [] s := by
  have hstr : String.fromUTF8? ⟨s.toByteArray.data.toList.toArray⟩ = some s := by
    simpa using fromUTF8?_toByteArray s
  rw [fromUtf8, hstr]
  exact .pure s

theorem fromUtf8_consumes (buf : List UInt8) :
    Consumes (fromUtf8 buf) fun b s => b = [] ∧ buf = s.toByteArray.data.toList := by
  intro c s c' hok
  cases hbuf : String.fromUTF8? ⟨buf.toArray⟩ with
  | some s' =>
      rw [fromUtf8, hbuf] at hok
      obtain ⟨rfl, rfl⟩ := pure_ok hok
      exact ⟨[], rfl, rfl, rfl, by rw [toByteArray_of_fromUTF8? hbuf]⟩
  | none =>
      rw [fromUtf8, hbuf] at hok
      cases hok

theorem readString_reads {s : String} (hs : FitsLength s) :
    Reads readString (stringBytes s) s := by
  have hlen : (UInt64.ofNat s.toByteArray.size).toNat = s.toByteArray.size :=
    UInt64.toNat_ofNat_of_lt' hs
  unfold readString readU64
  refine (Scalar.u64.reads _ _).bind (Reads.log_bind ?_)
  rw [hlen]
  exact (Reads.readExact _ (by simp)).bind_nil (fromUtf8_reads s)

theorem readString_consumes :
    Consumes readString (EncodingOf FitsLength stringBytes id) := by
  refine ((Scalar.u64.consumes _).bind fun len => Consumes.log_bind
    ((readExact_consumes _ len.toNat).bind fromUtf8_consumes)).mono ?_
  rintro b s ⟨_, _, len, rfl, ⟨_, -, rfl, rfl⟩, _, _, buf, rfl, ⟨rfl, hlen⟩, rfl, hs⟩
  have hsize : s.toByteArray.size = len.toNat := by
    rw [show len.toNat = buf.length from hlen.symm, hs]
    simp
  refine ⟨s, by rw [FitsLength, hsize]; exact len.toNat_lt, ?_, rfl⟩
  rw [stringBytes, hsize, UInt64.ofNat_toNat, hs]
  simp

/-! ### Values -/

/-- Reading the bytes of a value, with a nesting bound no smaller than their number. -/
theorem readValueOfType_reads {v : WireValue} (hv : v.Readable) :
    ∀ depth, v.payload.length ≤ depth → 0 < depth →
      Reads (readValueOfType depth v.valueType) v.payload v.value := by
  induction hv with
  | string s hs =>
      rintro (_ | depth) _ hd
      · exact absurd hd (lt_irrefl 0)
      · exact (readString_reads hs).map GgufValue.string
  | array t vs hlen ht hall ih =>
      rintro (_ | depth) hle hd
      · exact absurd hd (lt_irrefl 0)
      · have hcount : (UInt64.ofNat vs.length).toNat = vs.length := UInt64.toNat_ofNat_of_lt' hlen
        simp only [WireValue.payload, WireValue.payloads_eq_flatMap, List.length_append,
          Scalar.encode_length, List.length_flatMap] at hle
        have helem : ∀ v ∈ vs, Reads (readValueOfType depth t) v.payload v.value := by
          intro v hv
          have hsum : v.payload.length ≤ (vs.map fun v => v.payload.length).sum :=
            List.le_sum_of_mem (List.mem_map_of_mem hv)
          have h12 : Scalar.u32.width + Scalar.u64.width = 12 := rfl
          rw [← ht v hv]
          exact ih v hv depth (by omega) (by omega)
        rw [WireValue.payload, WireValue.payloads_eq_flatMap, WireValue.value,
          WireValue.values_eq_map]
        refine (Scalar.u32.reads _ t).bind ((Scalar.u64.reads _ _).bind (Reads.log_bind ?_))
        rw [hcount]
        exact (Reads.readMany helem).bind_nil (.pure _)
  | _ =>
      rintro (_ | depth) hle hd
      · exact absurd hd (lt_irrefl 0)
      · exact (Scalar.reads _ GgufError.io _).map _

/-- `b` is the encoding of a value of type `vtype`, and `g` is that value. -/
abbrev EncodesValue (vtype : UInt32) : List UInt8 → GgufValue → Prop :=
  EncodingOf (fun v : WireValue => v.Readable ∧ v.valueType = vtype) WireValue.payload WireValue.value

theorem scalar_consumes {α : Type} {s : Scalar α} {vtype : UInt32} {f : α → GgufValue}
    (h : ∀ a, EncodesValue vtype (s.encode a) (f a)) :
    Consumes (f <$> s.read GgufError.io : GgufReader GgufValue) (EncodesValue vtype) := by
  refine ((s.consumes GgufError.io).map f).mono ?_
  rintro b g ⟨a, ⟨_, -, rfl, rfl⟩, rfl⟩
  exact h a

/-- What `read_value_of_type` accepts is the encoding of a value of that type. -/
theorem readValueOfType_consumes (depth : Nat) (vtype : UInt32) :
    Consumes (readValueOfType depth vtype) (EncodesValue vtype) := by
  induction depth generalizing vtype with
  | zero =>
      intro c g c' hok
      cases hok
  | succ depth ih =>
      unfold readValueOfType
      split
      · next h => exact scalar_consumes fun a => ⟨_, ⟨.uint8 a, UInt32.toNat_inj.mp h.symm⟩, rfl, rfl⟩
      · next h => exact scalar_consumes fun a => ⟨_, ⟨.int8 a, UInt32.toNat_inj.mp h.symm⟩, rfl, rfl⟩
      · next h => exact scalar_consumes fun a => ⟨_, ⟨.uint16 a, UInt32.toNat_inj.mp h.symm⟩, rfl, rfl⟩
      · next h => exact scalar_consumes fun a => ⟨_, ⟨.int16 a, UInt32.toNat_inj.mp h.symm⟩, rfl, rfl⟩
      · next h => exact scalar_consumes fun a => ⟨_, ⟨.uint32 a, UInt32.toNat_inj.mp h.symm⟩, rfl, rfl⟩
      · next h => exact scalar_consumes fun a => ⟨_, ⟨.int32 a, UInt32.toNat_inj.mp h.symm⟩, rfl, rfl⟩
      · next h => exact scalar_consumes fun a => ⟨_, ⟨.float32 a, UInt32.toNat_inj.mp h.symm⟩, rfl, rfl⟩
      · next h => exact scalar_consumes fun a => ⟨_, ⟨.bool a, UInt32.toNat_inj.mp h.symm⟩, rfl, rfl⟩
      · next h =>
          refine (readString_consumes.map GgufValue.string).mono ?_
          rintro b g ⟨s, ⟨_, hs, rfl, rfl⟩, rfl⟩
          exact ⟨_, ⟨.string s hs, UInt32.toNat_inj.mp h.symm⟩, rfl, rfl⟩
      · next h =>
          refine ((Scalar.u32.consumes _).bind fun elemType => (Scalar.u64.consumes _).bind
            fun count => Consumes.log_bind ((readMany_consumes (ih elemType) count.toNat).bind
              fun arr => Consumes.pure _)).mono ?_
          rintro b g ⟨_, _, t, rfl, ⟨_, -, rfl, rfl⟩, _, _, count, rfl, ⟨_, -, rfl, rfl⟩, _, _, _, rfl,
            ⟨vs, ⟨hlen, hvs⟩, rfl, rfl⟩, rfl, rfl⟩
          have hlt : vs.length < 2 ^ 64 := by rw [hlen]; exact UInt64.toNat_lt _
          refine ⟨.array t vs, ⟨.array t vs hlt (fun v hv => (hvs v hv).2) fun v hv => (hvs v hv).1,
            UInt32.toNat_inj.mp h.symm⟩, ?_, ?_⟩
          · rw [WireValue.payload, WireValue.payloads_eq_flatMap, hlen, UInt64.ofNat_toNat,
              List.append_nil]
          · rw [WireValue.value, WireValue.values_eq_map]
      · next h => exact scalar_consumes fun a => ⟨_, ⟨.uint64 a, UInt32.toNat_inj.mp h.symm⟩, rfl, rfl⟩
      · next h => exact scalar_consumes fun a => ⟨_, ⟨.int64 a, UInt32.toNat_inj.mp h.symm⟩, rfl, rfl⟩
      · next h => exact scalar_consumes fun a => ⟨_, ⟨.float64 a, UInt32.toNat_inj.mp h.symm⟩, rfl, rfl⟩
      · intro c g c' hok
        cases hok

/-! ### Descriptors -/

theorem readKv_reads {kv : String × WireValue} (h : FitsLength kv.1 ∧ kv.2.Readable) {depth : Nat}
    (hd : kv.2.payload.length ≤ depth) (hpos : 0 < depth) :
    Reads (readKv depth) (kvBytes kv) (kv.1, kv.2.value) := by
  have hvalue : Reads (readValue depth) (Scalar.u32.encode kv.2.valueType ++ kv.2.payload)
      kv.2.value :=
    (Scalar.u32.reads _ _).bind (readValueOfType_reads h.2 depth hd hpos)
  exact (readString_reads h.1).bind (hvalue.bind_nil (.pure _))

theorem readKv_consumes (depth : Nat) :
    Consumes (readKv depth) (EncodingOf
      (fun kv : String × WireValue => FitsLength kv.1 ∧ kv.2.Readable) kvBytes
      fun kv => (kv.1, kv.2.value)) := by
  refine (readString_consumes.bind fun key => ((Scalar.u32.consumes _).bind
    (readValueOfType_consumes depth)).bind fun value => .pure (key, value)).mono ?_
  rintro b _ ⟨_, _, key, rfl, ⟨_, hkey, rfl, rfl⟩, _, _, _, rfl, ⟨_, _, _, rfl, ⟨_, -, rfl, rfl⟩,
    v, ⟨hv, rfl⟩, rfl, rfl⟩, rfl, rfl⟩
  exact ⟨(key, v), ⟨hkey, hv⟩, by simp [kvBytes], rfl⟩

theorem mulU64_silent (a b : Nat) : Silent (mulU64 a b) (a * b % 2 ^ 64) := by
  unfold mulU64
  split
  · exact (Silent.logEvent _).bind (.pure _)
  · exact Silent.pure _

/-- The iterated product is the product modulo `2 ^ 64`, wherever it wrapped. -/
theorem product_silent (ds : List Nat) :
    ∀ acc, acc < 2 ^ 64 → Silent (product acc ds) (acc * ds.prod % 2 ^ 64) := by
  induction ds with
  | nil =>
      intro acc hacc
      have hval : acc * ([] : List Nat).prod % 2 ^ 64 = acc := by
        rw [List.prod_nil, Nat.mul_one, Nat.mod_eq_of_lt hacc]
      rw [hval]
      exact .pure acc
  | cons d ds ih =>
      intro acc hacc
      have hval : acc * (d :: ds).prod % 2 ^ 64 = acc * d % 2 ^ 64 * ds.prod % 2 ^ 64 := by
        rw [List.prod_cons, ← Nat.mul_assoc, Nat.mod_mul_mod]
      rw [hval]
      exact (mulU64_silent acc d).bind (ih _ (Nat.mod_lt _ (by norm_num)))

namespace WireTensor

/-- The size the parser records: each of the two `u64` computations wraps. -/
def readSize (t : WireTensor) : Nat :=
  t.elementCount % 2 ^ 64 / (GgmlType.fromU32 t.dtype).blockSize.1 *
    (GgmlType.fromU32 t.dtype).blockSize.2 % 2 ^ 64

theorem readSize_of_sizesFit {t : WireTensor} (h : t.SizesFit) : t.readSize = t.byteSize := by
  rw [readSize, Nat.mod_eq_of_lt h.1]
  exact Nat.mod_eq_of_lt h.2

/-- The size computation of the tensor loop. -/
theorem size_silent (t : WireTensor) :
    Silent (do
      let numElements ← product 1 (t.dims.map UInt64.toNat)
      let sizeBytes ← mulU64 (numElements / (GgmlType.fromU32 t.dtype).blockSize.1)
        (GgmlType.fromU32 t.dtype).blockSize.2
      pure (t.infoWithSize sizeBytes)) (t.infoWithSize t.readSize) := by
  have hprod := product_silent (t.dims.map UInt64.toNat) 1 (by norm_num)
  rw [Nat.one_mul] at hprod
  exact hprod.bind ((mulU64_silent _ _).bind (.pure _))

end WireTensor

theorem readTensorInfo_reads {t : WireTensor} (ht : t.Readable) :
    Reads readTensorInfo t.encode (t.infoWithSize t.readSize) := by
  have hcount : (UInt32.ofNat t.dims.length).toNat = t.dims.length :=
    UInt32.toNat_ofNat_of_lt' ht.2
  have hdims : Reads (readMany readU64 t.dims.length) (t.dims.flatMap Scalar.u64.encode) t.dims :=
    .readMany_self fun d _ => Scalar.u64.reads _ d
  refine (readString_reads ht.1).bind ((Scalar.u32.reads _ _).bind (Reads.log_bind ?_))
  rw [hcount]
  refine hdims.bind ((Scalar.u32.reads _ _).bind ((Scalar.u64.reads _ _).bind_nil ?_))
  exact t.size_silent.reads

theorem readTensorInfo_consumes :
    Consumes readTensorInfo (EncodingOf WireTensor.Readable WireTensor.encode
      fun t => t.infoWithSize t.readSize) := by
  refine (readString_consumes.bind fun name => (Scalar.u32.consumes _).bind fun nDims =>
    Consumes.log_bind ((readMany_consumes (Scalar.u64.consumes _) nDims.toNat).bind fun dims =>
      (Scalar.u32.consumes _).bind fun dtype => (Scalar.u64.consumes _).bind fun offset =>
        .silent (WireTensor.size_silent ⟨name, dims, dtype, offset⟩))).mono ?_
  rintro b x ⟨_, _, name, rfl, ⟨_, hname, rfl, rfl⟩, _, _, nDims, rfl, ⟨_, -, rfl, rfl⟩, _, _, _,
    rfl, ⟨dims, ⟨hlen, -⟩, rfl, rfl⟩, _, _, dtype, rfl, ⟨_, -, rfl, rfl⟩, _, _, offset, rfl,
    ⟨_, -, rfl, rfl⟩, rfl, rfl⟩
  rw [List.map_id]
  refine ⟨⟨name, dims, dtype, offset⟩, ⟨hname, ?_⟩, ?_, rfl⟩
  · rw [hlen]; exact UInt32.toNat_lt _
  · rw [WireTensor.encode, hlen, UInt32.ofNat_toNat, List.append_nil]

/-! ### Headers -/

theorem checkMagic_silent : Silent (checkMagic ggufMagic) () := by
  unfold checkMagic
  rw [if_neg (by simp)]
  exact .pure ()

theorem checkMagic_consumes (magic : UInt32) :
    Consumes (checkMagic magic) fun b _ => b = [] ∧ magic = ggufMagic := by
  intro c a c' hok
  unfold checkMagic at hok
  split at hok
  · cases hok
  · next hm =>
      obtain ⟨-, rfl⟩ := pure_ok hok
      exact ⟨[], rfl, rfl, rfl, not_not.mp hm⟩

theorem checkVersion_silent {version : UInt32} (h : version = 2 ∨ version = 3) :
    Silent (checkVersion version) () := by
  unfold checkVersion
  rw [if_neg (by rcases h with rfl | rfl <;> decide)]
  exact .pure ()

theorem checkVersion_consumes (version : UInt32) :
    Consumes (checkVersion version) fun b _ => b = [] ∧ (version = 2 ∨ version = 3) := by
  intro c a c' hok
  unfold checkVersion at hok
  split at hok
  · cases hok
  · next hv =>
      obtain ⟨-, rfl⟩ := pure_ok hok
      refine ⟨[], rfl, rfl, rfl, ?_⟩
      simp only [← UInt32.toNat_inj, UInt32.lt_iff_toNat_lt] at hv ⊢
      have h2 : (2 : UInt32).toNat = 2 := rfl
      have h3 : (3 : UInt32).toNat = 3 := rfl
      omega

namespace WireHeader

/-- The file the parser makes of a readable header. -/
def parsed (h : WireHeader) : GgufFile where
  version := h.version
  metadata := insertAll (h.kvs.map fun kv => (kv.1, kv.2.value)) fun _ => none
  tensors := h.tensors.map fun t => t.infoWithSize t.readSize
  dataOffset := alignOffset h.encode.length

/-- What the reads of the parser return on a readable header. -/
def contents (h : WireHeader) : UInt32 × List (String × GgufValue) × List TensorInfo :=
  (h.version, h.kvs.map fun kv => (kv.1, kv.2.value),
    h.tensors.map fun t => t.infoWithSize t.readSize)

end WireHeader

theorem readHeader_reads {h : WireHeader} (hh : h.Readable) {depth : Nat}
    (hd : h.encode.length ≤ depth) : Reads (readHeader depth) h.encode h.contents := by
  have hkc : (UInt64.ofNat h.kvs.length).toNat = h.kvs.length := UInt64.toNat_ofNat_of_lt' hh.kvCount
  have htc : (UInt64.ofNat h.tensors.length).toNat = h.tensors.length :=
    UInt64.toNat_ofNat_of_lt' hh.tensorCount
  have hkv : ∀ kv ∈ h.kvs, Reads (readKv depth) (kvBytes kv) (kv.1, kv.2.value) := by
    intro kv hkv
    have hle : (kvBytes kv).length ≤ (h.kvs.map fun kv => (kvBytes kv).length).sum :=
      List.le_sum_of_mem (List.mem_map_of_mem hkv)
    have hval : kv.2.payload.length + 4 ≤ (kvBytes kv).length := by
      have h4 : Scalar.u32.width = 4 := rfl
      simp only [kvBytes, List.length_append, Scalar.encode_length]
      omega
    simp only [WireHeader.encode, List.length_append, List.length_flatMap] at hd
    exact readKv_reads (hh.kvs kv hkv) (by omega) (by omega)
  refine (Scalar.u32.reads _ _).bind (checkMagic_silent.reads.bind ?_)
  refine (Scalar.u32.reads _ _).bind ((checkVersion_silent hh.version).reads.bind ?_)
  refine (Scalar.u64.reads _ _).bind ((Scalar.u64.reads _ _).bind ?_)
  rw [hkc, htc]
  refine (Reads.readMany hkv).bind (Reads.log_bind ?_)
  exact (Reads.readMany fun t ht => readTensorInfo_reads (hh.tensors t ht)).bind_nil (.pure _)

theorem readHeader_consumes (depth : Nat) :
    Consumes (readHeader depth)
      (EncodingOf WireHeader.Readable WireHeader.encode WireHeader.contents) := by
  refine ((Scalar.u32.consumes _).bind fun magic => (checkMagic_consumes magic).bind fun _ =>
    (Scalar.u32.consumes _).bind fun version => (checkVersion_consumes version).bind fun _ =>
    (Scalar.u64.consumes _).bind fun tensorCount => (Scalar.u64.consumes _).bind fun kvCount =>
    (readMany_consumes (readKv_consumes depth) kvCount.toNat).bind fun kvs => Consumes.log_bind
    ((readMany_consumes readTensorInfo_consumes tensorCount.toNat).bind fun tensors =>
      .pure (version, kvs, tensors))).mono ?_
  rintro b _ ⟨_, _, magic, rfl, ⟨_, -, rfl, rfl⟩, _, _, _, rfl, ⟨rfl, rfl⟩,
    _, _, version, rfl, ⟨_, -, rfl, rfl⟩, _, _, _, rfl, ⟨rfl, hversion⟩,
    _, _, tensorCount, rfl, ⟨_, -, rfl, rfl⟩, _, _, kvCount, rfl, ⟨_, -, rfl, rfl⟩,
    _, _, _, rfl, ⟨kvs, ⟨hkc, hkvs⟩, rfl, rfl⟩, _, _, _, rfl, ⟨ts, ⟨htc, hts⟩, rfl, rfl⟩, rfl, rfl⟩
  refine ⟨⟨version, kvs, ts⟩, ⟨hversion, ?_, ?_, hkvs, hts⟩, ?_, rfl⟩
  · rw [htc]; exact UInt64.toNat_lt _
  · rw [hkc]; exact UInt64.toNat_lt _
  · rw [WireHeader.encode, htc, hkc, UInt64.ofNat_toNat, UInt64.ofNat_toNat]
    simp only [List.nil_append, List.append_nil]

/-- A readable header parses, whatever follows it. -/
theorem parse_encode {h : WireHeader} (hh : h.Readable) (rest : List UInt8) :
    GgufFile.parse (h.encode ++ rest) = .ok h.parsed := by
  have hd : h.encode.length ≤ (h.encode ++ rest).length := by simp
  obtain ⟨log', hread⟩ := readHeader_reads hh hd rest 0 []
  rw [Nat.zero_add] at hread
  have hparse : parseHeader (h.encode ++ rest).length ⟨h.encode ++ rest, 0, []⟩ =
      .ok h.parsed ⟨rest, h.encode.length, log'⟩ := by
    rw [parseHeader, bind_eq_of_ok hread]
    rfl
  rw [GgufFile.parse, GgufFile.parseWithEvents, hparse]

/-- Whatever parses begins with a readable header, and parses to what that header
parses to. -/
theorem exists_header_of_parse {bs : List UInt8} {f : GgufFile} (h : GgufFile.parse bs = .ok f) :
    ∃ hd : WireHeader, ∃ rest, hd.Readable ∧ bs = hd.encode ++ rest ∧ f = hd.parsed := by
  rw [GgufFile.parse, GgufFile.parseWithEvents] at h
  cases hp : parseHeader bs.length ⟨bs, 0, []⟩ with
  | error e c => simp [hp] at h
  | ok f' c' =>
      obtain ⟨x, c₁, hread, -⟩ := bind_ok hp
      obtain ⟨_, hrest, -, hd, hr, rfl, rfl⟩ := readHeader_consumes _ _ _ _ hread
      refine ⟨hd, c₁.rest, hr, hrest, ?_⟩
      have hagain := parse_encode hr c₁.rest
      rw [← hrest, GgufFile.parse, GgufFile.parseWithEvents, h] at hagain
      exact Except.ok.inj hagain

/-- The layer index of a parsed tensor is the one its name gives. -/
theorem layerIndex_of_parse {bytes : List UInt8} {model : GgufFile}
    (h : GgufFile.parse bytes = .ok model) {t : TensorInfo} (ht : t ∈ model.tensors) :
    t.layerIndex = parseLayerIndex t.name := by
  obtain ⟨hd, rest, hr, rfl, rfl⟩ := exists_header_of_parse h
  obtain ⟨t', -, rfl⟩ := List.mem_map.mp ht
  rfl

/-! ### What the header describes -/

theorem insertAll_eq (kvs : List (String × WireValue)) (m : String → Option GgufValue)
    (key : String) :
    insertAll (kvs.map fun kv => (kv.1, kv.2.value)) m key =
      ((kvs.reverse.find? fun kv => kv.1 = key).map fun kv => kv.2.value).or (m key) := by
  induction kvs generalizing m with
  | nil => rfl
  | cons kv kvs ih =>
      rw [List.map_cons, insertAll, ih, List.reverse_cons, List.find?_append, Option.map_or,
        Option.or_assoc]
      congr 1
      by_cases hk : kv.1 = key
      · subst hk; simp
      · simp [hk, Function.update_of_ne (Ne.symm hk)]

/-- `alignOffset` rounds up to a multiple of 32, and no further. -/
theorem alignOffset_isLeast (n : Nat) : IsLeast {m | 32 ∣ m ∧ n ≤ m} (alignOffset n) := by
  constructor
  · exact ⟨⟨(n + 32 - 1) / 32, Nat.mul_comm _ _⟩, by unfold alignOffset; omega⟩
  · rintro m ⟨⟨k, rfl⟩, hk⟩
    unfold alignOffset
    omega

namespace WireHeader

/-- On a well-formed header the parser returns the file the header describes. -/
theorem describes_parsed {h : WireHeader} (hw : h.WellFormed) : h.Describes h.parsed where
  version := rfl
  tensors := List.map_congr_left fun t ht => by
    rw [WireTensor.info, WireTensor.readSize_of_sizesFit (hw.sizesFit t ht)]
  metadata key := by
    change insertAll _ _ key = _
    rw [insertAll_eq, Option.or_none, lastValue]
  dataOffset := alignOffset_isLeast _

end WireHeader

theorem le_alignOffset (n : Nat) : n ≤ alignOffset n :=
  (alignOffset_isLeast n).1.2

/-- What the parser returns does not depend on the bytes from the data offset on. -/
theorem parse_of_prefix_eq {bs bs' : List UInt8} {f : GgufFile} (h : GgufFile.parse bs = .ok f)
    (hpre : ∀ i < f.dataOffset, bs'[i]? = bs[i]?) : GgufFile.parse bs' = .ok f := by
  obtain ⟨hd, rest, hr, rfl, rfl⟩ := exists_header_of_parse h
  have hle : hd.encode.length ≤ hd.parsed.dataOffset := le_alignOffset _
  have htake : bs'.take hd.encode.length = hd.encode := by
    apply List.ext_getElem?
    intro i
    by_cases hi : i < hd.encode.length
    · rw [List.getElem?_take_of_lt hi, hpre i (by omega), List.getElem?_append_left hi]
    · rw [List.getElem?_take_eq_none (by omega), List.getElem?_eq_none (by omega)]
  rw [← List.take_append_drop hd.encode.length bs', htake]
  exact parse_encode hr _

/-! ### The parser and the grammar -/

/-- The parser and the grammar agree on one byte string, in both directions. -/
structure ParsesExactly (bs : List UInt8) : Prop where
  /-- A header of the grammar, followed by anything, parses to the file it describes. -/
  accepts : ∀ (h : WireHeader) rest, h.InGrammar → bs = h.encode ++ rest →
    ∃ f, GgufFile.parse bs = .ok f ∧ h.Describes f
  /-- What parses begins with a header of the grammar that describes the result, and
  the bytes after the header do not matter. -/
  sound : ∀ f, GgufFile.parse bs = .ok f → ∃ h : WireHeader, h.InGrammar ∧ h.Describes f ∧
    (∃ rest, bs = h.encode ++ rest) ∧ ∀ rest, GgufFile.parse (h.encode ++ rest) = .ok f

/-- **The parser accepts exactly its grammar**, except where the bytes begin with a
header that declares a tensor too large for a `u64` or an array of a type that does not
exist: such headers are accepted too. -/
theorem parsesExactly_iff (bs : List UInt8) :
    ParsesExactly bs ↔
      ∀ (h : WireHeader) rest, h.Readable → bs = h.encode ++ rest → h.WellFormed := by
  constructor
  · rintro ⟨-, hsound⟩ h rest hr rfl
    obtain ⟨h', hg, -, ⟨rest', he⟩, -⟩ := hsound _ (parse_encode hr rest)
    obtain ⟨rfl, -⟩ := WireHeader.encode_append_inj hr hg.toReadable he
    exact hg.toWellFormed
  · intro hcond
    constructor
    · rintro h rest hg rfl
      exact ⟨_, parse_encode hg.toReadable rest, h.describes_parsed hg.toWellFormed⟩
    · intro f hf
      obtain ⟨h, rest, hr, rfl, rfl⟩ := exists_header_of_parse hf
      have hw := hcond h rest hr rfl
      exact ⟨h, ⟨hr, hw⟩, h.describes_parsed hw, ⟨rest, rfl⟩, parse_encode hr⟩

/-- A header with one `F32` tensor of `2 ^ 32` by `2 ^ 32` elements. -/
def wrappingHeader : WireHeader where
  version := 3
  kvs := []
  tensors := [{ name := "", dims := [2 ^ 32, 2 ^ 32], dtype := 0, offset := 0 }]

/-- It is accepted, with a tensor of size 0. -/
theorem not_parsesExactly_wrappingHeader :
    ¬ ParsesExactly wrappingHeader.encode := by
  intro h
  have hr : wrappingHeader.Readable := by
    refine ⟨.inr rfl, by decide, by decide, by simp [wrappingHeader], ?_⟩
    simp [wrappingHeader, WireTensor.Readable, FitsLength]
  obtain ⟨h', hg, -, ⟨rest', he⟩, -⟩ := h.sound _ (by simpa using parse_encode hr [])
  have he' : wrappingHeader.encode ++ [] = h'.encode ++ rest' := by simpa using he
  obtain ⟨rfl, -⟩ := WireHeader.encode_append_inj hr hg.toReadable he'
  have hfit := hg.sizesFit _ (List.mem_singleton.mpr rfl)
  exact absurd hfit.1 (by decide)

end Hypura
