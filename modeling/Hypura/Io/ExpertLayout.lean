import Hypura.Rust.Text

/-!
# Hypura.Io.ExpertLayout

Where the slices of a fused expert tensor lie in the file and in the buffer
(`io/expert_layout.rs`), and what a read of one region does to the memory.
-/

namespace Hypura

open Hypura.Rust

/-! ### Regions -/

/-- One region to `pread`: `(buffer_offset, size, file_offset)`. -/
structure Region where
  dst : Nat
  size : Nat
  fileOffset : Nat
  deriving DecidableEq, Repr

/-- Memory, as the bytes at each offset from a base pointer. -/
abbrev Memory := Nat → UInt8

/-- The memory after `count` bytes of the region were read from the file. Past the end
of the file there is nothing to read, and the old byte stays. -/
def Region.readUpTo (file : List UInt8) (r : Region) (count : Nat) (mem : Memory) : Memory :=
  fun a =>
    if r.dst ≤ a ∧ a < r.dst + count then file[r.fileOffset + (a - r.dst)]?.getD (mem a)
    else mem a

/-- The memory after the whole region was read. -/
def Region.read (file : List UInt8) (r : Region) (mem : Memory) : Memory :=
  r.readUpTo file r.size mem

/-- The memory after several regions were read, one after the other. -/
def readRegions (file : List UInt8) (rs : List Region) (mem : Memory) : Memory :=
  rs.foldl (fun mem r => r.read file mem) mem

theorem Region.read_of_mem {file : List UInt8} {r : Region} {mem : Memory} {k : Nat}
    (hk : k < r.size) :
    r.read file mem (r.dst + k) = file[r.fileOffset + k]?.getD (mem (r.dst + k)) := by
  unfold Region.read Region.readUpTo
  rw [if_pos ⟨by omega, by omega⟩, Nat.add_sub_cancel_left]

theorem Region.read_of_not_mem {file : List UInt8} {r : Region} {mem : Memory} {a : Nat}
    (ha : a < r.dst ∨ r.dst + r.size ≤ a) : r.read file mem a = mem a :=
  if_neg (by omega)

/-- Where every region over an address brings the same byte, that byte is there in the
end, whatever the order of the reads. -/
theorem readRegions_eq {file : List UInt8} {a : Nat} {b : UInt8} :
    ∀ {rs : List Region} {mem : Memory},
      (∀ r ∈ rs, r.dst ≤ a → a < r.dst + r.size → file[r.fileOffset + (a - r.dst)]? = some b) →
      ((∃ r ∈ rs, r.dst ≤ a ∧ a < r.dst + r.size) ∨ mem a = b) →
      readRegions file rs mem a = b
  | [], mem, _, hcov => by
      rcases hcov with ⟨r, hr, -⟩ | hmem
      · cases hr
      · exact hmem
  | r :: rs, mem, hagree, hcov => by
      have ih := @readRegions_eq file a b rs (r.read file mem)
        fun r' hr' => hagree r' (List.mem_cons_of_mem _ hr')
      by_cases hr : r.dst ≤ a ∧ a < r.dst + r.size
      · refine ih (.inr ?_)
        have hbyte := hagree r List.mem_cons_self hr.1 hr.2
        obtain ⟨k, rfl⟩ : ∃ k, a = r.dst + k := ⟨a - r.dst, by omega⟩
        rw [Nat.add_sub_cancel_left] at hbyte
        rw [Region.read_of_mem (by omega), hbyte, Option.getD_some]
      · refine ih ?_
        rcases hcov with ⟨r', hr', hin⟩ | hmem
        · rcases List.mem_cons.mp hr' with rfl | hr'
          · exact absurd hin hr
          · exact .inl ⟨r', hr', hin⟩
        · exact .inr (by rw [Region.read_of_not_mem (by omega), hmem])

/-! ### Expert slices -/

/-- `ExpertTensorType`: which of the expert FFN tensors this is. -/
inductive ExpertTensorType
  | gate
  | up
  | down
  /-- Fused gate+up tensor. -/
  | gateUp
  deriving DecidableEq, Repr

/-- `ExpertTensorType::from_name`. -/
def ExpertTensorType.fromName (name : String) : Option ExpertTensorType :=
  if contains name "ffn_gate_up_exps" then some gateUp
  else if contains name "ffn_gate_exps" then some gate
  else if contains name "ffn_up_exps" then some up
  else if contains name "ffn_down_exps" then some down
  else none

/-- `ExpertLayout`: a fused expert tensor, each expert a contiguous stride of it. -/
structure ExpertLayout where
  tensorName : String
  layerIndex : Nat
  numExperts : Nat
  /-- Size of one expert's data. -/
  expertStride : Nat
  /-- Absolute byte offset of the fused tensor in the file. -/
  fileOffset : Nat
  /-- Offset of the fused tensor within the buffer. -/
  bufferOffset : Nat
  /-- Total size of the fused tensor (all experts). -/
  totalSize : Nat
  /-- Inverse permutation from an optimized model: logical expert id to physical position. -/
  expertPermutation : Option (List Nat)
  deriving DecidableEq, Repr

namespace ExpertLayout

/-- `map_expert_id`. -/
def mapExpertId (layout : ExpertLayout) (expertId : Nat) : Nat :=
  match layout.expertPermutation with
  | some perm => perm[expertId]?.getD expertId
  | none => expertId

/-- `expert_file_offset`. -/
def expertFileOffset (layout : ExpertLayout) (expertId : Nat) : Nat :=
  layout.fileOffset + layout.mapExpertId expertId * layout.expertStride

/-- `expert_buffer_offset`. -/
def expertBufferOffset (layout : ExpertLayout) (expertId : Nat) : Nat :=
  layout.bufferOffset + layout.mapExpertId expertId * layout.expertStride

/-- The cache key's tensor type: `from_name(&layout.tensor_name).unwrap_or(Gate)`. -/
def tensorType (layout : ExpertLayout) : ExpertTensorType :=
  (ExpertTensorType.fromName layout.tensorName).getD .gate

/-- The region `submit_layer_load` and `submit_expert_load` read for one expert. -/
def bufferRegion (layout : ExpertLayout) (eid : Nat) : Region where
  dst := layout.expertBufferOffset eid
  size := layout.expertStride
  fileOffset := layout.expertFileOffset eid

/-- The region `load_experts_pooled` reads for one expert, into the slot at `slotOffset`. -/
def pooledRegion (layout : ExpertLayout) (slotOffset eid : Nat) : Region where
  dst := slotOffset + layout.mapExpertId eid * layout.expertStride
  size := layout.expertStride
  fileOffset := layout.expertFileOffset eid

end ExpertLayout

end Hypura
