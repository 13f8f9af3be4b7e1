import Hypura.Cli.OptimizeRun

/-!
# Hypura.Cli.DataStart

Where the tensor data of a GGUF file begins, as the format has it, against `data_offset`,
from which the loaders and `optimize` count (`model/gguf.rs`, `compute/nvme_backend.rs`,
`cli/optimize.rs`).

The format rounds the end of the header up to `general.alignment`, and to 32 where the key
is absent; the parser always rounds up to 32.
-/

namespace Hypura

open Hypura.Core

/-- The least multiple of `a` that is not below `n`. -/
def roundUp (a n : Nat) : Nat := (n + a - 1) / a * a

theorem roundUp_isLeast {a : Nat} (ha : 0 < a) (n : Nat) :
    IsLeast {m | a ∣ m ∧ n ≤ m} (roundUp a n) := by
  have hdiv := Nat.div_add_mod (n + a - 1) a
  have hmod := Nat.mod_lt (n + a - 1) ha
  rw [Nat.mul_comm] at hdiv
  refine ⟨⟨Nat.dvd_mul_left _ _, ?_⟩, ?_⟩
  · unfold roundUp
    omega
  · rintro m ⟨⟨k, rfl⟩, hk⟩
    have hlt : n + a - 1 < a * (k + 1) := by
      rw [Nat.mul_succ]
      omega
    rw [roundUp, Nat.mul_comm]
    exact Nat.mul_le_mul_left a (Nat.lt_succ_iff.mp (Nat.div_lt_of_lt_mul hlt))

/-! ### The layout of a file -/

namespace WireHeader

/-- `general.alignment`: a positive `uint32`, 32 where the key is absent. -/
def alignment (h : WireHeader) : Option Nat :=
  match h.lastValue "general.alignment" with
  | none => some 32
  | some (.uint32 v) => if v = 0 then none else some v.toNat
  | some _ => none

/-- The position at which the tensor data begins. -/
def dataStart (h : WireHeader) (alignment : Nat) : Nat := roundUp alignment h.encode.length

/-- The bytes of a file with this header: it is laid out from the alignment it declares, and
holds the bytes of every tensor. -/
structure LaidOut (h : WireHeader) (alignment : Nat) (bytes : List UInt8) : Prop where
  header : ∃ rest, bytes = h.encode ++ rest
  declared : h.alignment = some alignment
  names : (h.tensors.map WireTensor.name).Nodup
  data : ∀ t ∈ h.tensors, h.dataStart alignment + t.offset.toNat + t.byteSize ≤ bytes.length

/-- What the program takes for the file offset of a tensor is where its data begin. -/
structure Located (h : WireHeader) (start : Nat) (f : GgufFile) : Prop where
  tensors : f.tensors = h.tensors.map WireTensor.info
  absolute : ∀ t ∈ h.tensors, f.dataOffset + t.info.offset = start + t.offset.toNat
  /-- The offset that the loaders read from. -/
  loaded : ∀ t ∈ h.tensors, ∀ map loc, (locateTensors f map).lookup t.name = some loc →
    loc.fileOffset = start + t.offset.toNat
  /-- The bytes that `optimize` moves. -/
  optimized : ∀ t ∈ h.tensors, ∀ numExperts perm s u s',
    Optimize.rewriteTensor f numExperts t.info perm s = .ok u s' →
      ∃ bytes bytes', s.disk.output = some bytes ∧
        s'.disk = { s.disk with output := some bytes' } ∧
        Optimize.Rearranged (start + t.offset.toNat) t.byteSize (t.byteSize / numExperts) perm
          bytes bytes'

end WireHeader

/-! ### What the parser makes of it -/

section Parsed
variable {h : WireHeader} {alignment start : Nat} {bytes : List UInt8} {f : GgufFile}

/-- With the right data offset every tensor is located. -/
theorem located_of_dataOffset (htensors : f.tensors = h.tensors.map WireTensor.info)
    (hnames : (h.tensors.map WireTensor.name).Nodup)
    (hstart : h.tensors = [] ∨ f.dataOffset = start) : h.Located start f := by
  have hoffset : ∀ t ∈ h.tensors, f.dataOffset = start := fun t ht =>
    hstart.resolve_left (List.ne_nil_of_mem ht)
  have hmem : ∀ t ∈ h.tensors, t.info ∈ f.tensors := fun t ht =>
    htensors ▸ List.mem_map_of_mem ht
  have hnodup : (f.tensors.map (·.name)).Nodup := by
    rw [htensors, List.map_map]
    exact hnames
  refine ⟨htensors, fun t ht => ?_, fun t ht map loc hloc => ?_,
    fun t ht numExperts perm s u s' hrun => ?_⟩
  · rw [hoffset t ht]
    rfl
  · have hlookup := lookup_locateTensors hnodup (hmem t ht) map
    obtain ⟨loc', -, rfl⟩ := Option.map_eq_some_iff.mp (hlookup.symm.trans hloc)
    rw [hoffset t ht]
    rfl
  · have hmoved := Optimize.rewriteTensor_ok hrun
    rwa [hoffset t ht] at hmoved

/-- **Tensors are located where the file puts them**, if and only if the file has none or
the end of its header, rounded up to the alignment it declares, is what it is rounded up
to 32. -/
theorem parse_located_iff (hh : h.InGrammar) (hfile : h.LaidOut alignment bytes) :
    (∃ f, GgufFile.parse bytes = .ok f ∧ h.Located (h.dataStart alignment) f) ↔
      h.tensors = [] ∨ roundUp alignment h.encode.length = roundUp 32 h.encode.length := by
  obtain ⟨rest, rfl⟩ := hfile.header
  have hparse := parse_encode hh.toReadable rest
  have htensors := (h.describes_parsed hh.toWellFormed).tensors
  constructor
  · rintro ⟨f, hf, hlocated⟩
    rw [hparse] at hf
    cases hf
    by_cases hnil : h.tensors = []
    · exact .inl hnil
    · obtain ⟨t, ht⟩ := List.exists_mem_of_ne_nil _ hnil
      have habs := hlocated.absolute t ht
      have hoffset : h.parsed.dataOffset = h.dataStart alignment := Nat.add_right_cancel habs
      exact .inr hoffset.symm
  · intro hcond
    exact ⟨_, hparse, located_of_dataOffset htensors hfile.names (hcond.imp_right Eq.symm)⟩

end Parsed

/-! ### Two files -/

/-- One tensor of four bytes. -/
def oneTensor (kvs : List (String × WireValue)) : WireHeader where
  version := 3
  kvs := kvs
  tensors := [{ name := "w", dims := [4], dtype := 24, offset := 0 }]

/-- The file of a header: zeros for the padding and the data. -/
def zeroFile (h : WireHeader) : List UInt8 := h.encode ++ List.replicate 256 0

theorem oneTensor_inGrammar {kvs : List (String × WireValue)} (hlen : kvs.length < 2 ^ 64)
    (hkvs : ∀ kv ∈ kvs, FitsLength kv.1 ∧ kv.2.Readable ∧ kv.2.KnownTypes) :
    (oneTensor kvs).InGrammar where
  version := .inr rfl
  tensorCount := by simp [oneTensor]
  kvCount := hlen
  kvs kv hkv := ⟨(hkvs kv hkv).1, (hkvs kv hkv).2.1⟩
  tensors t ht := by
    obtain rfl := List.mem_singleton.mp ht
    decide +kernel
  knownTypes kv hkv := (hkvs kv hkv).2.2
  sizesFit t ht := by
    obtain rfl := List.mem_singleton.mp ht
    exact ⟨by decide +kernel, by decide +kernel⟩

theorem zeroFile_laidOut {kvs : List (String × WireValue)} {alignment : Nat}
    (hdeclared : (oneTensor kvs).alignment = some alignment) (hpos : 0 < alignment)
    (hle : alignment ≤ 128) : (oneTensor kvs).LaidOut alignment (zeroFile (oneTensor kvs)) where
  header := ⟨_, rfl⟩
  declared := hdeclared
  names := List.nodup_singleton _
  data t ht := by
    obtain rfl := List.mem_singleton.mp ht
    have hsize : WireTensor.byteSize { name := "w", dims := [4], dtype := 24, offset := 0 } = 4 := by
      decide +kernel
    have hstart : (oneTensor kvs).dataStart alignment ≤ (oneTensor kvs).encode.length + 128 := by
      have hmul := Nat.div_mul_le_self ((oneTensor kvs).encode.length + alignment - 1) alignment
      simp only [WireHeader.dataStart, roundUp]
      omega
    rw [hsize, zeroFile, List.length_append, List.length_replicate]
    simp only [UInt64.toNat_ofNat]
    omega

/-- Without the key the data are where the parser takes them to be. -/
theorem oneTensor_located : ∃ f, GgufFile.parse (zeroFile (oneTensor [])) = .ok f ∧
    (oneTensor []).Located ((oneTensor []).dataStart 32) f :=
  (parse_located_iff (oneTensor_inGrammar (by decide) (by simp))
    (zeroFile_laidOut rfl (by decide) (by decide))).mpr (.inr rfl)

/-- A header of 90 bytes that declares an alignment of 64. -/
def aligned64 : WireHeader := oneTensor [("general.alignment", .uint32 64)]

/-- Its data begin at 128, and the parser takes them to begin at 96. -/
theorem aligned64_not_located : aligned64.InGrammar ∧ aligned64.LaidOut 64 (zeroFile aligned64) ∧
    ¬ ∃ f, GgufFile.parse (zeroFile aligned64) = .ok f ∧
      aligned64.Located (aligned64.dataStart 64) f := by
  have hgrammar : aligned64.InGrammar := by
    refine oneTensor_inGrammar (by decide) fun kv hkv => ?_
    obtain rfl := List.mem_singleton.mp hkv
    exact ⟨by decide +kernel, .uint32 _, .leaf _ fun t vs => by simp⟩
  refine ⟨hgrammar, zeroFile_laidOut (by decide +kernel) (by decide) (by decide), ?_⟩
  rintro ⟨f, hf, hlocated⟩
  rw [zeroFile, parse_encode hgrammar.toReadable] at hf
  cases hf
  have habs := hlocated.absolute _ (List.mem_singleton.mpr rfl)
  have hlen : aligned64.encode.length = 90 := by decide +kernel
  rw [WireHeader.parsed, WireHeader.dataStart, hlen] at habs
  exact absurd habs (by decide)

end Hypura
