import Hypura.Core.Codec
import Hypura.Rust.Text

/-!
# Hypura.Model.Gguf

The GGUF header parser (`model/gguf.rs`).

* Integers that the program only adds, multiplies or compares are naturals; where a
  `u64` product can leave the type the model wraps it, as a release build does.
* Floats are kept as their bit patterns.
* Allocation requests (`Vec::with_capacity`, `vec![0; n]`) and wrapped products do
  not change what the parser returns; they are written to the reader's event log.
* `read_value_of_type` recurses on nested arrays. The recursion is on a depth bound,
  which `parse` sets to the length of the input: every level of nesting consumes
  twelve bytes, so the bound is never what stops a read.
-/

namespace Hypura

open Hypura.Core

/-- `"GGUF"` in little-endian. -/
def ggufMagic : UInt32 := 0x46554747

inductive GgufError
  | invalidMagic (magic : UInt32)
  | unsupportedVersion (version : UInt32)
  | io
  | invalidString
  | unknownValueType (vtype : UInt32)
  deriving DecidableEq, Repr

/-- What the parser does besides reading: ask for memory, or wrap a product. -/
inductive GgufEvent
  /-- `Vec::with_capacity` or `vec![0; n]`, with the bytes asked for. -/
  | alloc (bytes : Nat)
  /-- A `u64` product that left the type. -/
  | overflow
  deriving DecidableEq, Repr

abbrev GgufReader (α : Type) := Reader GgufEvent GgufError α

/-- A metadata value in the GGUF key-value store. -/
inductive GgufValue
  | uint8 (v : UInt8)
  | int8 (v : Int8)
  | uint16 (v : UInt16)
  | int16 (v : Int16)
  | uint32 (v : UInt32)
  | int32 (v : Int32)
  | float32 (bits : UInt32)
  | bool (v : Bool)
  | string (v : String)
  | uint64 (v : UInt64)
  | int64 (v : Int64)
  | float64 (bits : UInt64)
  | array (v : List GgufValue)

namespace GgufValue

def asStr : GgufValue → Option String
  | string s => some s
  | _ => none

/-- `as_u32`: the wider integers are truncated (`as u32`). -/
def asU32 : GgufValue → Option Nat
  | uint32 v => some v.toNat
  | int32 v => some v.toUInt32.toNat
  | uint64 v => some (v.toNat % 2 ^ 32)
  | _ => none

/-- `as_u32_array`: all elements must be integers. -/
def asU32Array : GgufValue → Option (List Nat)
  | array elems => elems.mapM asU32
  | _ => none

end GgufValue

/-- GGML quantization / data types. -/
inductive GgmlType
  | f32 | f16 | q4_0 | q4_1 | q5_0 | q5_1 | q8_0 | q8_1
  | q2K | q3K | q4K | q5K | q6K | q8K
  | iq2xxs | iq2xs | iq3xxs | iq1s | iq4nl | iq3s | iq2s | iq4xs
  | i8 | i16 | i32 | i64 | f64 | iq1m | bf16
  | unknown (v : UInt32)
  deriving DecidableEq, Repr

namespace GgmlType

def fromU32 (v : UInt32) : GgmlType :=
  match v.toNat with
  | 0 => f32
  | 1 => f16
  | 2 => q4_0
  | 3 => q4_1
  | 6 => q5_0
  | 7 => q5_1
  | 8 => q8_0
  | 9 => q8_1
  | 10 => q2K
  | 11 => q3K
  | 12 => q4K
  | 13 => q5K
  | 14 => q6K
  | 15 => q8K
  | 16 => iq2xxs
  | 17 => iq2xs
  | 18 => iq3xxs
  | 19 => iq1s
  | 20 => iq4nl
  | 21 => iq3s
  | 22 => iq2s
  | 23 => iq4xs
  | 24 => i8
  | 25 => i16
  | 26 => i32
  | 27 => i64
  | 28 => f64
  | 29 => iq1m
  | 30 => bf16
  | _ => unknown v

/-- `(block_size_elements, block_size_bytes)`. -/
def blockSize : GgmlType → Nat × Nat
  | f32 => (1, 4)
  | f16 => (1, 2)
  | bf16 => (1, 2)
  | f64 => (1, 8)
  | i8 => (1, 1)
  | i16 => (1, 2)
  | i32 => (1, 4)
  | i64 => (1, 8)
  | q4_0 => (32, 18)
  | q4_1 => (32, 20)
  | q5_0 => (32, 22)
  | q5_1 => (32, 24)
  | q8_0 => (32, 34)
  | q8_1 => (32, 36)
  | q2K => (256, 84)
  | q3K => (256, 110)
  | q4K => (256, 144)
  | q5K => (256, 176)
  | q6K => (256, 210)
  | q8K => (256, 292)
  | iq2xxs => (256, 66)
  | iq2xs => (256, 74)
  | iq3xxs => (256, 98)
  | iq1s => (256, 50)
  | iq4nl => (32, 18)
  | iq3s => (256, 110)
  | iq2s => (256, 82)
  | iq4xs => (32, 18)
  | iq1m => (256, 56)
  | unknown _ => (1, 1)

end GgmlType

/-- Information about a single tensor in the GGUF file. -/
structure TensorInfo where
  name : String
  dimensions : List Nat
  dtype : GgmlType
  /-- Byte offset relative to `dataOffset`. -/
  offset : Nat
  /-- Computed total size in bytes. -/
  sizeBytes : Nat
  /-- Parsed layer index from the tensor name. -/
  layerIndex : Option Nat
  deriving DecidableEq, Repr

/-- Parsed GGUF file (header only — tensor data is not loaded). The metadata map is
the lookup function of the source's `BTreeMap`. -/
structure GgufFile where
  version : UInt32
  metadata : String → Option GgufValue
  tensors : List TensorInfo
  /-- Byte offset in the file where tensor data begins. -/
  dataOffset : Nat

/-! ### Reading values -/

def readU8 : GgufReader UInt8 := Scalar.u8.read .io
def readU32 : GgufReader UInt32 := Scalar.u32.read .io
def readU64 : GgufReader UInt64 := Scalar.u64.read .io

/-- `String::from_utf8`. -/
def fromUtf8 (buf : List UInt8) : GgufReader String :=
  match String.fromUTF8? ⟨buf.toArray⟩ with
  | some s => pure s
  | none => throw .invalidString

/-- `read_string`: the buffer is requested before a byte of it is read. -/
def readString : GgufReader String := do
  let len ← readU64
  logEvent (.alloc len.toNat)
  let buf ← readExact .io len.toNat
  fromUtf8 buf

/-- `size_of::<GgufValue>()` on a 64-bit target: a tag and a three-word payload. -/
def ggufValueSize : Nat := 32

/-- `size_of::<TensorInfo>()` on a 64-bit target. -/
def tensorInfoSize : Nat := 80

/-- `read_value_of_type`. -/
def readValueOfType : Nat → UInt32 → GgufReader GgufValue
  | 0, _ => throw .io
  | depth + 1, vtype =>
    match vtype.toNat with
    | 0 => .uint8 <$> readU8
    | 1 => .int8 <$> Scalar.i8.read .io
    | 2 => .uint16 <$> Scalar.u16.read .io
    | 3 => .int16 <$> Scalar.i16.read .io
    | 4 => .uint32 <$> readU32
    | 5 => .int32 <$> Scalar.i32.read .io
    | 6 => .float32 <$> readU32
    | 7 => (fun v => .bool (v != 0)) <$> readU8
    | 8 => .string <$> readString
    | 9 => do
      let elemType ← readU32
      let count ← readU64
      logEvent (.alloc (count.toNat * ggufValueSize))
      let arr ← readMany (readValueOfType depth elemType) count.toNat
      pure (.array arr)
    | 10 => .uint64 <$> readU64
    | 11 => .int64 <$> Scalar.i64.read .io
    | 12 => .float64 <$> readU64
    | _ => throw (.unknownValueType vtype)

/-- `read_value`. -/
def readValue (depth : Nat) : GgufReader GgufValue := do
  let vtype ← readU32
  readValueOfType depth vtype

/-! ### Reading the header -/

/-- `parse_layer_index`: matches names like `blk.5.xxx` or `layers.5.xxx`. -/
def parseLayerIndex (name : String) : Option Nat :=
  match Rust.split name '.' with
  | p₀ :: p₁ :: _ =>
    if p₀ = "blk".toList ∨ p₀ = "layers".toList then Rust.parseU32 p₁ else none
  | _ => none

/-- One `u64` multiplication: the product wraps, and the wrap is logged. -/
def mulU64 (a b : Nat) : GgufReader Nat := do
  if 2 ^ 64 ≤ a * b then logEvent .overflow
  pure (a * b % 2 ^ 64)

/-- `dimensions.iter().product()`. -/
def product : Nat → List Nat → GgufReader Nat
  | acc, [] => pure acc
  | acc, d :: ds => do
    let acc ← mulU64 acc d
    product acc ds

/-- The body of the metadata loop. -/
def readKv (depth : Nat) : GgufReader (String × GgufValue) := do
  let key ← readString
  let value ← readValue depth
  pure (key, value)

/-- The body of the tensor loop. -/
def readTensorInfo : GgufReader TensorInfo := do
  let name ← readString
  let nDims ← readU32
  logEvent (.alloc (nDims.toNat * 8))
  let dims ← readMany readU64 nDims.toNat
  let dtypeRaw ← readU32
  let offset ← readU64
  let dtype := GgmlType.fromU32 dtypeRaw
  let dimensions := dims.map UInt64.toNat
  let numElements ← product 1 dimensions
  let sizeBytes ← mulU64 (numElements / dtype.blockSize.1) dtype.blockSize.2
  pure {
    name, dimensions, dtype, sizeBytes
    offset := offset.toNat
    layerIndex := parseLayerIndex name }

/-- `metadata.insert` over the pairs in order: the last value of a key wins. -/
def insertAll : List (String × GgufValue) → (String → Option GgufValue) →
    String → Option GgufValue
  | [], m => m
  | (k, v) :: kvs, m => insertAll kvs (Function.update m k (some v))

/-- `reader.stream_position()`. -/
def streamPosition : GgufReader Nat := fun c => .ok c.pos c

/-- The first multiple of the default alignment not below `pos`. -/
def alignOffset (pos : Nat) : Nat := (pos + 32 - 1) / 32 * 32

def checkMagic (magic : UInt32) : GgufReader Unit :=
  if magic ≠ ggufMagic then throw (.invalidMagic magic) else pure ()

def checkVersion (version : UInt32) : GgufReader Unit :=
  if version < 2 ∨ version > 3 then throw (.unsupportedVersion version) else pure ()

/-- The reads of `GgufFile::parse`: the version, the key/value pairs and the tensors. -/
def readHeader (depth : Nat) :
    GgufReader (UInt32 × List (String × GgufValue) × List TensorInfo) := do
  let magic ← readU32
  checkMagic magic
  let version ← readU32
  checkVersion version
  let tensorCount ← readU64
  let metadataKvCount ← readU64
  let kvs ← readMany (readKv depth) metadataKvCount.toNat
  logEvent (.alloc (tensorCount.toNat * tensorInfoSize))
  let tensors ← readMany readTensorInfo tensorCount.toNat
  pure (version, kvs, tensors)

/-- The body of `GgufFile::parse`, with the bound on array nesting. -/
def parseHeader (depth : Nat) : GgufReader GgufFile := do
  let (version, kvs, tensors) ← readHeader depth
  let currentPos ← streamPosition
  pure {
    version, tensors
    metadata := insertAll kvs fun _ => none
    dataOffset := alignOffset currentPos }

namespace GgufFile

/-- `GgufFile::parse` on a byte string, with the events it logged. -/
def parseWithEvents (bytes : List UInt8) : Except GgufError GgufFile × List GgufEvent :=
  match parseHeader bytes.length ⟨bytes, 0, []⟩ with
  | .ok file c => (.ok file, c.events)
  | .error e c => (.error e, c.events)

/-- `GgufFile::parse` on a byte string. -/
def parse (bytes : List UInt8) : Except GgufError GgufFile :=
  (parseWithEvents bytes).1

/-- `total_tensor_bytes`. -/
def totalTensorBytes (file : GgufFile) : Nat :=
  (file.tensors.map TensorInfo.sizeBytes).sum

/-- `get_string`: the key itself, then `general.` and the key. -/
def getString (file : GgufFile) (key : String) : Option String :=
  ((file.metadata key).bind GgufValue.asStr).or
    ((file.metadata ("general." ++ key)).bind GgufValue.asStr)

/-- The lookup `get_u32` and `get_u32_array` share: the key itself, then the key
prefixed with the architecture. -/
def getWith {α : Type} (file : GgufFile) (as : GgufValue → Option α) (key : String) : Option α :=
  ((file.metadata key).bind as).or
    ((file.getString "general.architecture").bind fun arch =>
      (file.metadata (arch ++ "." ++ key)).bind as)

/-- `get_u32`. -/
def getU32 (file : GgufFile) (key : String) : Option Nat := file.getWith GgufValue.asU32 key

/-- `get_u32_array`. -/
def getU32Array (file : GgufFile) (key : String) : Option (List Nat) :=
  file.getWith GgufValue.asU32Array key

end GgufFile

end Hypura
