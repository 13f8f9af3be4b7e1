import Mathlib.Order.Bounds.Basic
import Hypura.Model.Gguf

/-!
# Hypura.Model.GgufGrammar

The GGUF header as a grammar: syntax trees for what the format can write, their
little-endian encoding, and the file each of them describes. Nothing here is
translated from the parser; `Hypura.Model.GgufSound` compares the two.

* `WireHeader.Readable`: every length fits its field, and the elements of an array
  have the type the array declares. Such a header has an encoding.
* `WireHeader.InGrammar`: moreover the version is known, every declared element type
  is one of the thirteen value types, and the element product and the byte size of
  every tensor are below `2 ^ 64`.

A boolean is written as any byte, and an array carries its element type even when it
is empty, so a header determines its encoding and the encoding determines the header.
-/

namespace Hypura

open Hypura.Core

/-! ### Values -/

/-- A metadata value as the format writes it. -/
inductive WireValue
  | uint8 (v : UInt8)
  | int8 (v : Int8)
  | uint16 (v : UInt16)
  | int16 (v : Int16)
  | uint32 (v : UInt32)
  | int32 (v : Int32)
  | float32 (bits : UInt32)
  | bool (byte : UInt8)
  | string (s : String)
  | array (elemType : UInt32) (elems : List WireValue)
  | uint64 (v : UInt64)
  | int64 (v : Int64)
  | float64 (bits : UInt64)

/-- A string: its length in bytes, then its UTF-8 bytes. -/
def stringBytes (s : String) : List UInt8 :=
  Scalar.u64.encode (.ofNat s.toByteArray.size) ++ s.toByteArray.data.toList

/-- A string whose length fits the length field. -/
def FitsLength (s : String) : Prop := s.toByteArray.size < 2 ^ 64

instance : DecidablePred FitsLength := fun s => Nat.decLt s.toByteArray.size (2 ^ 64)

namespace WireValue

/-- The type tag written before a value. -/
def valueType : WireValue → UInt32
  | uint8 _ => 0
  | int8 _ => 1
  | uint16 _ => 2
  | int16 _ => 3
  | uint32 _ => 4
  | int32 _ => 5
  | float32 _ => 6
  | bool _ => 7
  | string _ => 8
  | array _ _ => 9
  | uint64 _ => 10
  | int64 _ => 11
  | float64 _ => 12

mutual
/-- The bytes after the type tag. -/
def payload : WireValue → List UInt8
  | uint8 v => Scalar.u8.encode v
  | int8 v => Scalar.i8.encode v
  | uint16 v => Scalar.u16.encode v
  | int16 v => Scalar.i16.encode v
  | uint32 v => Scalar.u32.encode v
  | int32 v => Scalar.i32.encode v
  | float32 bits => Scalar.u32.encode bits
  | bool byte => Scalar.u8.encode byte
  | string s => stringBytes s
  | array elemType elems =>
    Scalar.u32.encode elemType ++ (Scalar.u64.encode (.ofNat elems.length) ++ payloads elems)
  | uint64 v => Scalar.u64.encode v
  | int64 v => Scalar.i64.encode v
  | float64 bits => Scalar.u64.encode bits

/-- The elements of an array, one after the other. -/
def payloads : List WireValue → List UInt8
  | [] => []
  | v :: vs => payload v ++ payloads vs
end

mutual
/-- The value a tree stands for. -/
def value : WireValue → GgufValue
  | uint8 v => .uint8 v
  | int8 v => .int8 v
  | uint16 v => .uint16 v
  | int16 v => .int16 v
  | uint32 v => .uint32 v
  | int32 v => .int32 v
  | float32 bits => .float32 bits
  | bool byte => .bool (byte != 0)
  | string s => .string s
  | array _ elems => .array (values elems)
  | uint64 v => .uint64 v
  | int64 v => .int64 v
  | float64 bits => .float64 bits

def values : List WireValue → List GgufValue
  | [] => []
  | v :: vs => value v :: values vs
end

theorem payloads_eq_flatMap (vs : List WireValue) : payloads vs = vs.flatMap payload := by
  induction vs with
  | nil => rfl
  | cons v vs ih => rw [payloads, ih, List.flatMap_cons]

theorem values_eq_map (vs : List WireValue) : values vs = vs.map value := by
  induction vs with
  | nil => rfl
  | cons v vs ih => rw [values, ih, List.map_cons]

/-- Every length fits its field and arrays are homogeneous. -/
inductive Readable : WireValue → Prop
  | uint8 (v) : Readable (.uint8 v)
  | int8 (v) : Readable (.int8 v)
  | uint16 (v) : Readable (.uint16 v)
  | int16 (v) : Readable (.int16 v)
  | uint32 (v) : Readable (.uint32 v)
  | int32 (v) : Readable (.int32 v)
  | float32 (bits) : Readable (.float32 bits)
  | bool (byte) : Readable (.bool byte)
  | string (s) (h : FitsLength s) : Readable (.string s)
  | array (elemType elems) (hlen : elems.length < 2 ^ 64)
      (htag : ∀ v ∈ elems, v.valueType = elemType) (hall : ∀ v ∈ elems, Readable v) :
      Readable (.array elemType elems)
  | uint64 (v) : Readable (.uint64 v)
  | int64 (v) : Readable (.int64 v)
  | float64 (bits) : Readable (.float64 bits)

/-- Every array in the tree declares an element type that exists. -/
inductive KnownTypes : WireValue → Prop
  | leaf (v) (h : ∀ t vs, v ≠ .array t vs) : KnownTypes v
  | array (elemType elems) (ht : elemType ≤ 12) (hall : ∀ v ∈ elems, KnownTypes v) :
      KnownTypes (.array elemType elems)

end WireValue

/-! ### Tensor descriptors -/

/-- A tensor descriptor as the format writes it. -/
structure WireTensor where
  name : String
  dims : List UInt64
  dtype : UInt32
  offset : UInt64

namespace WireTensor

def encode (t : WireTensor) : List UInt8 :=
  stringBytes t.name ++ (Scalar.u32.encode (.ofNat t.dims.length) ++
    (t.dims.flatMap Scalar.u64.encode ++
      (Scalar.u32.encode t.dtype ++ Scalar.u64.encode t.offset)))

def Readable (t : WireTensor) : Prop :=
  FitsLength t.name ∧ t.dims.length < 2 ^ 32

instance : DecidablePred Readable := fun t =>
  inferInstanceAs (Decidable (FitsLength t.name ∧ t.dims.length < 2 ^ 32))

/-- The number of elements. -/
def elementCount (t : WireTensor) : Nat := (t.dims.map UInt64.toNat).prod

/-- The bytes the elements take: whole blocks only. -/
def byteSize (t : WireTensor) : Nat :=
  t.elementCount / (GgmlType.fromU32 t.dtype).blockSize.1 * (GgmlType.fromU32 t.dtype).blockSize.2

/-- The descriptor with a given size. -/
def infoWithSize (t : WireTensor) (sizeBytes : Nat) : TensorInfo where
  name := t.name
  dimensions := t.dims.map UInt64.toNat
  dtype := GgmlType.fromU32 t.dtype
  offset := t.offset.toNat
  sizeBytes := sizeBytes
  layerIndex := parseLayerIndex t.name

/-- The tensor a descriptor describes. -/
def info (t : WireTensor) : TensorInfo := t.infoWithSize t.byteSize

/-- The element product and the byte size are `u64` values. -/
def SizesFit (t : WireTensor) : Prop :=
  t.elementCount < 2 ^ 64 ∧ t.byteSize < 2 ^ 64

end WireTensor

/-! ### Headers -/

/-- A key/value pair: the key, the type tag and the value. -/
def kvBytes (kv : String × WireValue) : List UInt8 :=
  stringBytes kv.1 ++ (Scalar.u32.encode kv.2.valueType ++ kv.2.payload)

/-- A GGUF header as the format writes it. -/
structure WireHeader where
  version : UInt32
  kvs : List (String × WireValue)
  tensors : List WireTensor

namespace WireHeader

def encode (h : WireHeader) : List UInt8 :=
  Scalar.u32.encode ggufMagic ++ (Scalar.u32.encode h.version ++
    (Scalar.u64.encode (.ofNat h.tensors.length) ++ (Scalar.u64.encode (.ofNat h.kvs.length) ++
      (h.kvs.flatMap kvBytes ++ h.tensors.flatMap WireTensor.encode))))

/-- A header the parser can be fed: a known version, and lengths that fit. -/
structure Readable (h : WireHeader) : Prop where
  version : h.version = 2 ∨ h.version = 3
  tensorCount : h.tensors.length < 2 ^ 64
  kvCount : h.kvs.length < 2 ^ 64
  kvs : ∀ kv ∈ h.kvs, FitsLength kv.1 ∧ kv.2.Readable
  tensors : ∀ t ∈ h.tensors, t.Readable

/-- What a readable header must still satisfy: array element types exist and tensor
sizes are `u64` values. -/
structure WellFormed (h : WireHeader) : Prop where
  knownTypes : ∀ kv ∈ h.kvs, kv.2.KnownTypes
  sizesFit : ∀ t ∈ h.tensors, t.SizesFit

/-- The grammar. -/
structure InGrammar (h : WireHeader) : Prop extends Readable h, WellFormed h

/-- The last value given to a key. -/
def lastValue (h : WireHeader) (key : String) : Option GgufValue :=
  (h.kvs.reverse.find? fun kv => kv.1 = key).map fun kv => kv.2.value

/-- `f` is the file a header describes. -/
structure Describes (h : WireHeader) (f : GgufFile) : Prop where
  version : f.version = h.version
  /-- Exactly the described tensors, in order. -/
  tensors : f.tensors = h.tensors.map WireTensor.info
  /-- The last value of each key. -/
  metadata : ∀ key, f.metadata key = h.lastValue key
  /-- The least multiple of 32 not below the header's length. -/
  dataOffset : IsLeast {n | 32 ∣ n ∧ h.encode.length ≤ n} f.dataOffset

end WireHeader

/-! ### The encoding determines the header -/

theorem stringBytes_append_inj {s t : String} {r r' : List UInt8} (hs : FitsLength s)
    (ht : FitsLength t) (h : stringBytes s ++ r = stringBytes t ++ r') : s = t ∧ r = r' := by
  rw [stringBytes, stringBytes, List.append_assoc, List.append_assoc] at h
  obtain ⟨hlen, h⟩ := Scalar.u64.encode_append_inj h
  have hsize : s.toByteArray.size = t.toByteArray.size := by
    have := congrArg UInt64.toNat hlen
    rwa [UInt64.toNat_ofNat_of_lt' hs, UInt64.toNat_ofNat_of_lt' ht] at this
  obtain ⟨hdata, hr⟩ := List.append_inj h (by simpa using hsize)
  refine ⟨String.toByteArray_inj.mp ?_, hr⟩
  exact ByteArray.ext (Array.toList_inj.mp hdata)

theorem length_eq_of_ofNat_eq {α : Type} {as bs : List α} (has : as.length < 2 ^ 64)
    (hbs : bs.length < 2 ^ 64) (h : UInt64.ofNat as.length = UInt64.ofNat bs.length) :
    as.length = bs.length := by
  have := congrArg UInt64.toNat h
  rwa [UInt64.toNat_ofNat_of_lt' has, UInt64.toNat_ofNat_of_lt' hbs] at this

namespace WireValue

/-- Two values of one type whose bytes agree up to a suffix are the same value. -/
theorem payload_append_inj {v w : WireValue} (hv : v.Readable) (hw : w.Readable) {r r' : List UInt8}
    (htag : v.valueType = w.valueType) (h : v.payload ++ r = w.payload ++ r') :
    v = w ∧ r = r' := by
  induction hv generalizing w r r' with
  | array t vs hlen ht hall ih =>
      cases hw with
      | array t' ws hlen' ht' hall' =>
          simp only [payload, List.append_assoc, payloads_eq_flatMap] at h
          obtain ⟨rfl, h₁⟩ := Scalar.u32.encode_append_inj h
          obtain ⟨hcount, h₂⟩ := Scalar.u64.encode_append_inj h₁
          have hl := length_eq_of_ofNat_eq hlen hlen' hcount
          obtain ⟨rfl, hr⟩ := flatMap_append_inj
            (P := fun a b => a ∈ vs ∧ b.Readable ∧ a.valueType = b.valueType)
            (fun a b _ _ ⟨ha, hb, hab⟩ h => ih a ha hb hab h) hl
            (fun a ha b hb => ⟨ha, hall' b hb, (ht a ha).trans (ht' b hb).symm⟩) h₂
          exact ⟨rfl, hr⟩
      | _ => exact absurd htag (by simp [valueType])
  | string s hs =>
      cases hw with
      | string t ht =>
          obtain ⟨rfl, hr⟩ := stringBytes_append_inj hs ht h
          exact ⟨rfl, hr⟩
      | _ => exact absurd htag (by simp [valueType])
  | _ =>
      cases hw with
      | _ =>
          first
          | (simp [valueType] at htag; done)
          | (simp only [payload] at h
             obtain ⟨rfl, hr⟩ := Scalar.encode_append_inj _ h
             exact ⟨rfl, hr⟩)

end WireValue

theorem kvBytes_append_inj {kv kv' : String × WireValue} {r r' : List UInt8}
    (h₁ : FitsLength kv.1 ∧ kv.2.Readable) (h₂ : FitsLength kv'.1 ∧ kv'.2.Readable)
    (h : kvBytes kv ++ r = kvBytes kv' ++ r') : kv = kv' ∧ r = r' := by
  simp only [kvBytes, List.append_assoc] at h
  obtain ⟨hkey, h⟩ := stringBytes_append_inj h₁.1 h₂.1 h
  obtain ⟨htag, h⟩ := Scalar.u32.encode_append_inj h
  obtain ⟨hval, h⟩ := WireValue.payload_append_inj h₁.2 h₂.2 htag h
  exact ⟨Prod.ext hkey hval, h⟩

theorem WireTensor.encode_append_inj {t t' : WireTensor} {r r' : List UInt8} (ht : t.Readable)
    (ht' : t'.Readable) (h : t.encode ++ r = t'.encode ++ r') : t = t' ∧ r = r' := by
  obtain ⟨name, dims, dtype, offset⟩ := t
  obtain ⟨name', dims', dtype', offset'⟩ := t'
  simp only [encode, List.append_assoc] at h
  obtain ⟨rfl, h₁⟩ := stringBytes_append_inj ht.1 ht'.1 h
  obtain ⟨hcount, h₂⟩ := Scalar.u32.encode_append_inj h₁
  have hl : dims.length = dims'.length := by
    have := congrArg UInt32.toNat hcount
    rwa [UInt32.toNat_ofNat_of_lt' ht.2, UInt32.toNat_ofNat_of_lt' ht'.2] at this
  obtain ⟨rfl, h₃⟩ := flatMap_append_inj (P := fun _ _ => True)
    (fun _ _ _ _ _ h => Scalar.u64.encode_append_inj h) hl (fun _ _ _ _ => trivial) h₂
  obtain ⟨rfl, h₄⟩ := Scalar.u32.encode_append_inj h₃
  obtain ⟨rfl, h₅⟩ := Scalar.u64.encode_append_inj h₄
  exact ⟨rfl, h₅⟩

/-- **Unique decodability.** A byte string begins with at most one readable header. -/
theorem WireHeader.encode_append_inj {h h' : WireHeader} {r r' : List UInt8} (hh : h.Readable)
    (hh' : h'.Readable) (he : h.encode ++ r = h'.encode ++ r') : h = h' ∧ r = r' := by
  obtain ⟨version, kvs, tensors⟩ := h
  obtain ⟨version', kvs', tensors'⟩ := h'
  simp only [encode, List.append_assoc] at he
  obtain ⟨rfl, he₁⟩ := Scalar.u32.encode_append_inj (Scalar.u32.encode_append_inj he).2
  obtain ⟨htc, he₂⟩ := Scalar.u64.encode_append_inj he₁
  obtain ⟨hkc, he₃⟩ := Scalar.u64.encode_append_inj he₂
  obtain ⟨rfl, he₄⟩ := flatMap_append_inj
    (P := fun a b => (FitsLength a.1 ∧ a.2.Readable) ∧ (FitsLength b.1 ∧ b.2.Readable))
    (fun _ _ _ _ hP h => kvBytes_append_inj hP.1 hP.2 h)
    (length_eq_of_ofNat_eq hh.kvCount hh'.kvCount hkc)
    (fun a ha b hb => ⟨hh.kvs a ha, hh'.kvs b hb⟩) he₃
  obtain ⟨rfl, he₅⟩ := flatMap_append_inj (P := fun a b => a.Readable ∧ b.Readable)
    (fun _ _ _ _ hP h => WireTensor.encode_append_inj hP.1 hP.2 h)
    (length_eq_of_ofNat_eq hh.tensorCount hh'.tensorCount htc)
    (fun a ha b hb => ⟨hh.tensors a ha, hh'.tensors b hb⟩) he₄
  exact ⟨rfl, he₅⟩

end Hypura
