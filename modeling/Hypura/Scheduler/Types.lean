import Mathlib.Data.List.AList
import Hypura.Rust.F64

/-!
# Hypura.Scheduler.Types

The data of a placement (`scheduler/types.rs`), the parts of the hardware profile the
scheduler reads (`profiler/types.rs`), and the accounting of bytes per tier.
-/

namespace Hypura

/-! ### Hardware -/

structure MemoryProfile where
  totalBytes : Nat
  bandwidthBytesPerSec : Nat

structure GpuProfile where
  vramBytes : Nat
  bandwidthBytesPerSec : Nat

structure StorageProfile where
  /-- `sequential_read.peak_sequential`: best sustained sequential read (bytes/sec). -/
  peakSequential : Nat

structure HardwareProfile where
  memory : MemoryProfile
  gpu : Option GpuProfile
  storage : List StorageProfile

/-! ### Plans -/

/-- Memory/storage tier for tensor placement. -/
inductive StorageTier
  | gpu
  | ram
  | nvme
  deriving DecidableEq, Repr

/-- User experience classification based on predicted tok/s. -/
inductive ExperienceTier
  | fast
  | usable
  | slow
  deriving DecidableEq, Repr

def ExperienceTier.fromTokPerSec {F : Type} [Rust.F64 F] (tps : F) : ExperienceTier :=
  if (10.0 : F) < tps then fast else if (2.0 : F) < tps then usable else slow

/-- Inference mode determined by model size, MoE structure, and hardware capacity. -/
inductive InferenceMode
  | fullResident
  | keepResident
  | expertStreaming
  | denseFfnStreaming
  | sparseMoeMmap
  | fullStreaming
  deriving DecidableEq, Repr

/-- KV cache quantization type. -/
inductive KvQuantization
  | f16
  | q8_0
  | q4_0
  deriving DecidableEq, Repr

/-- Plan for KV cache allocation across tiers. -/
structure KvCachePlan where
  hotWindowTokens : Nat
  warmWindowTokens : Nat
  hotTier : StorageTier
  warmTier : StorageTier
  hotBytes : Nat
  warmBytes : Nat
  /-- Auto-selected KV quantization (`none` = F16 default). -/
  kvQuantization : Option KvQuantization
  deriving DecidableEq, Repr

/-- tensor_name → tier. -/
abbrev Assignments := AList fun _ : String => StorageTier

/-- The parts of a placement plan that a later computation reads. -/
structure PlacementPlan (F : Type) where
  tierAssignments : Assignments
  estimatedTokPerSec : F
  kvCachePlan : KvCachePlan
  experienceTier : ExperienceTier
  inferenceMode : InferenceMode

namespace Assignments

/-- `assignments.get(name).unwrap_or(&StorageTier::Nvme)`. -/
def tierOf (m : Assignments) (name : String) : StorageTier := (m.lookup name).getD .nvme

/-- The bytes of the named tensors whose tier satisfies `p`. -/
def bytesWhere (m : Assignments) (p : StorageTier → Bool) (sizes : List (String × Nat)) : Nat :=
  (sizes.map fun e => if (m.lookup e.1).any p then e.2 else 0).sum

/-- The bytes of the named tensors on one tier. -/
def bytesOn (m : Assignments) (tier : StorageTier) (sizes : List (String × Nat)) : Nat :=
  m.bytesWhere (· = tier) sizes

section Accounting
variable {m m' : Assignments} {p : StorageTier → Bool} {l l' : List (String × Nat)}

theorem bytesWhere_cons (e : String × Nat) :
    m.bytesWhere p (e :: l) = (if (m.lookup e.1).any p then e.2 else 0) + m.bytesWhere p l :=
  List.sum_cons

theorem bytesWhere_append : m.bytesWhere p (l ++ l') = m.bytesWhere p l + m.bytesWhere p l' := by
  rw [bytesWhere, List.map_append, List.sum_append]
  rfl

theorem bytesWhere_perm (h : l.Perm l') : m.bytesWhere p l = m.bytesWhere p l' :=
  (h.map _).sum_eq

/-- The bytes depend on the tiers of the named tensors only. -/
theorem bytesWhere_congr (h : ∀ e ∈ l, m.lookup e.1 = m'.lookup e.1) :
    m.bytesWhere p l = m'.bytesWhere p l := by
  refine congrArg List.sum (List.map_congr_left fun e he => ?_)
  rw [h e he]

theorem bytesWhere_le_sum : m.bytesWhere p l ≤ (l.map Prod.snd).sum := by
  induction l with
  | nil => exact le_rfl
  | cons e l ih =>
      rw [bytesWhere_cons, List.map_cons, List.sum_cons]
      split <;> omega

theorem bytesWhere_eq_zero (h : ∀ e ∈ l, (m.lookup e.1).any p = false) :
    m.bytesWhere p l = 0 := by
  induction l with
  | nil => rfl
  | cons e l ih =>
      rw [bytesWhere_cons, h e List.mem_cons_self,
        ih fun e he => h e (List.mem_cons_of_mem _ he)]
      rfl

/-- A tensor counted by `p` is at most all the bytes counted. -/
theorem le_bytesWhere {e : String × Nat} (he : e ∈ l) (hp : (m.lookup e.1).any p = true) :
    e.2 ≤ m.bytesWhere p l := by
  have hmem : e.2 ∈ l.map fun e => if (m.lookup e.1).any p then e.2 else 0 :=
    List.mem_map.mpr ⟨e, he, if_pos hp⟩
  exact List.le_sum_of_mem hmem

/-- Resident bytes are the GPU bytes and the RAM bytes. -/
theorem bytesWhere_resident :
    m.bytesWhere (· ≠ .nvme) l = m.bytesOn .gpu l + m.bytesOn .ram l := by
  induction l with
  | nil => rfl
  | cons e l ih =>
      simp only [bytesOn, bytesWhere_cons] at ih ⊢
      rw [ih]
      cases h : m.lookup e.1 with
      | none => simp
      | some tier => cases tier <;> simp <;> omega

end Accounting

end Assignments

end Hypura
