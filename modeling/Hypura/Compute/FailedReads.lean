import Hypura.Compute.PoolStep
import Hypura.Compute.StandardMode

/-!
# Hypura.Compute.FailedReads

What becomes of reads that fail, whatever the mode and the kind of load.

`io_worker` drops the result of `pread_region`: a batch reports when its tasks are through,
whatever they have read, and the slices it was to read were marked in the neuron cache when
it was submitted. So a failed read goes unreported only where nothing depends on it: where
the batch stores no status, and where the slice is no longer marked.
-/

namespace Hypura

open Hypura.Core Hypura.Core.Countdown

/-! ### Reading one region -/

/-- A region is read in full exactly when the results before the first failure add up to its
size. -/
theorem size_le_preadRegion_iff {size : Nat} {results : List Int} {read : Nat} :
    size ≤ Machine.preadRegion size results read ↔
      size ≤ read + ((results.takeWhile (0 < ·)).map Int.toNat).sum := by
  induction results generalizing read with
  | nil => simp [Machine.preadRegion]
  | cons n ns ih =>
      rw [Machine.preadRegion]
      by_cases hdone : size ≤ read
      · rw [if_pos hdone]
        exact iff_of_true hdone (hdone.trans (Nat.le_add_right _ _))
      · rw [if_neg hdone]
        by_cases hfail : n ≤ 0
        · rw [if_pos hfail, List.takeWhile_cons_of_neg (by simpa using hfail)]
          simp
        · rw [if_neg hfail, ih, List.takeWhile_cons_of_pos (by simpa using hfail), List.map_cons,
            List.sum_cons, Nat.add_assoc]

instance (cfg : PrefetchConfig) (key : CacheKey) (rs : List Region) : Decidable (KeyIn cfg key rs) :=
  inferInstanceAs (Decidable (∃ layout ∈ _, _))

namespace Machine

/-! ### Failed reads -/

/-- All bytes of the region were read for batch `b`. -/
def ReadInFull (m : Machine) (b : Nat) (r : Region) : Prop :=
  ∃ count, (b, r, count) ∈ m.preads ∧ r.size ≤ count

/-- Some read for batch `b` failed. -/
def shortRead (m : Machine) (b : Nat) : Bool :=
  m.preads.any fun p => decide (p.1 = b) && decide (p.2.2 < p.2.1.size)

/-- A batch after `b` was submitted to read the slice, and marked it again. -/
def remarked (cfg : PrefetchConfig) (m : Machine) (b : Nat) (key : CacheKey) : Bool :=
  (m.submitted.drop (b + 1)).any fun tasks => decide (KeyIn cfg key tasks.flatten)

/-- The region, read for batch `b`, is no slice that is marked, but for those marked again
since. -/
def unmarked (cfg : PrefetchConfig) (m : Machine) (b : Nat) (r : Region) : Bool :=
  m.neuronCache.entries.all fun key => !decide (KeyIn cfg key [r]) || m.remarked cfg b key

/-- Nothing depends on the reads that failed: a batch about to store `Loaded` has none, and
the slice of a read that fails is not marked. -/
def failsafe (rt : Runtime) (m : Machine) : Label → Bool
  | .fire w =>
    match m.io.workers[w]? with
    | some (.firing b) => (m.io.tag? b).all fun tag => !tag.updateStatus || !m.shortRead b
    | _ => true
  | .pread w count =>
    match m.io.workers[w]? with
    | some (.busy j) =>
      match j.payload.regions with
      | r :: _ => decide (r.size ≤ count) || m.unmarked rt.config j.batch r
      | [] => true
    | _ => true
  | _ => true

section FailedReads
variable {rt : Runtime} {m m' : Machine} {b l : Nat} {r : Region}

theorem readInFull_of_not_shortRead (h : m.shortRead b = false) {count : Nat}
    (hp : (b, r, count) ∈ m.preads) : m.ReadInFull b r := by
  refine ⟨count, hp, ?_⟩
  have hnot := List.any_eq_false.mp h _ hp
  simpa using hnot

theorem not_short_of_failsafe {w : Nat} {tag : IoCompletion} (h : m.failsafe rt (.fire w))
    (hw : m.io.workers[w]? = some (.firing b)) (htag : m.io.tag? b = some tag)
    (hupdate : tag.updateStatus = true) : m.shortRead b = false := by
  simpa [failsafe, hw, htag, hupdate] using h

theorem unmarked_of_failsafe {w count : Nat} {j : Job IoPoolTask} {rs : List Region}
    (h : m.failsafe rt (.pread w count)) (hw : m.io.workers[w]? = some (.busy j))
    (hregions : j.payload.regions = r :: rs) (hshort : count < r.size) :
    m.unmarked rt.config j.batch r := by
  have hnot : ¬ r.size ≤ count := by omega
  simpa [failsafe, hw, hregions, hnot] using h

/-! ### The invariant -/

/-- Where every region submitted has got to. -/
structure Accounted (rt : Runtime) (m : Machine) : Prop where
  balanced : m.io.Balanced
  batches : m.submitted.length = m.io.batches.length
  grounded : ∀ op ∈ m.pending, op.Grounded rt
  /-- Every `pread` was for a batch submitted. -/
  preads : ∀ p ∈ m.preads, p.1 < m.submitted.length
  /-- A region submitted is in an unfinished task still, or was read one way or another. -/
  attempted : ∀ b tasks, m.submitted[b]? = some tasks → ∀ r ∈ tasks.flatten,
    m.InBatch b r ∨ ∃ count, (b, r, count) ∈ m.preads
  /-- No batch that stored a status had a failed read. -/
  reported : ∀ b ∈ m.io.fired, ∀ tag, m.io.tag? b = some tag → tag.updateStatus = true →
    m.shortRead b = false
  /-- No slice whose read failed is marked still. -/
  unmarked : ∀ p ∈ m.preads, p.2.2 < p.2.1.size → m.unmarked rt.config p.1 p.2.1

/-- With its tasks through, what a batch was to read was read. -/
theorem Accounted.readInFull (h : m.Accounted rt) (hjobs : m.io.jobsOf b = [])
    (hshort : m.shortRead b = false) {tasks : List (List Region)}
    (hb : m.submitted[b]? = some tasks) (hr : r ∈ tasks.flatten) : m.ReadInFull b r := by
  rcases h.attempted b tasks hb r hr with ⟨j, hj, hjb, -⟩ | ⟨count, hp⟩
  · have hmem : j ∈ m.io.jobsOf b := List.mem_filter.mpr ⟨hj, by simpa using hjb⟩
    rw [hjobs] at hmem
    cases hmem
  · exact readInFull_of_not_shortRead hshort hp

/-- The marks of fewer slices, with more batches submitted. -/
theorem unmarked_mono {cfg : PrefetchConfig} (h : m.unmarked cfg b r)
    (hcache : ∀ key ∈ m'.neuronCache.entries, KeyIn cfg key [r] →
      key ∈ m.neuronCache.entries ∨ m'.remarked cfg b key)
    (hsubmitted : ∀ key, m.remarked cfg b key → m'.remarked cfg b key) : m'.unmarked cfg b r := by
  refine List.all_eq_true.mpr fun key hkey => ?_
  by_cases hin : KeyIn cfg key [r]
  · rcases hcache key hkey hin with hold | hnew
    · have hmarked := List.all_eq_true.mp h key hold
      simp only [hin, decide_true, Bool.not_true, Bool.false_or] at hmarked ⊢
      exact hsubmitted key hmarked
    · simp [hnew]
  · simp [hin]

namespace Accounted

/-- Nothing is submitted or read. -/
theorem still (h : m.Accounted rt) (hs : Still rt m m') : m'.Accounted rt where
  balanced := hs.io ▸ h.balanced
  batches := by rw [hs.submitted, hs.io, h.batches]
  grounded op hop := (hs.ops op hop).elim (h.grounded op) id
  preads p hp := by
    rw [hs.preads] at hp
    rw [hs.submitted]
    exact h.preads p hp
  attempted b tasks hb r hr := by
    rw [hs.submitted] at hb
    rw [hs.preads]
    exact (h.attempted b tasks hb r hr).imp_left
      (inBatch_of_perm (List.Perm.of_eq (by rw [hs.io]))).mpr
  reported b hb tag htag hupdate := by
    rw [hs.io] at hb htag
    rw [shortRead, hs.preads]
    exact h.reported b hb tag htag hupdate
  unmarked p hp hshort := by
    rw [hs.preads] at hp
    refine unmarked_mono (h.unmarked p hp hshort) (fun key hkey _ => .inl (hs.cache key hkey))
      fun key hkey => ?_
    rw [remarked, hs.submitted]
    exact hkey

/-- Jobs are moved about, and none fires. -/
theorem moved (h : m.Accounted rt) {io : IoPool} (hq : Pool.Quiet m.io io)
    (hperm : io.jobs.Perm m.io.jobs) (hlen : io.batches.length = m.io.batches.length) :
    { m with io := io }.Accounted rt where
  balanced := hq.balanced h.balanced
  batches := h.batches.trans hlen.symm
  grounded := h.grounded
  preads := h.preads
  attempted b tasks hb r hr := (h.attempted b tasks hb r hr).imp_left (inBatch_of_perm hperm).mpr
  reported b hb tag htag hupdate := by
    change io.tag? b = some tag at htag
    change b ∈ io.fired at hb
    rw [hq.tag?_eq] at htag
    rw [hq.fired_eq] at hb
    exact h.reported b hb tag htag hupdate
  unmarked := h.unmarked

theorem submit (h : m.Accounted rt) {c : IoCompletion} {base : Base} {tasks : List (List Region)}
    (hs : Submits rt m c base tasks m') : m'.Accounted rt := by
  have hjobs := Pool.jobs_openBatch m.io c (tasks.map fun rs => (⟨rs, base, []⟩ : IoPoolTask))
  rw [← hs.io] at hjobs
  have hinBatch : ∀ {b r}, m.InBatch b r → m'.InBatch b r := fun ⟨j, hj, hrest⟩ =>
    ⟨j, hjobs.mem_iff.mpr (List.mem_append_right _ hj), hrest⟩
  have hremarked : ∀ {b key}, m.remarked rt.config b key → m'.remarked rt.config b key := by
    intro b key hkey
    obtain ⟨ts, hts, hin⟩ := List.any_eq_true.mp hkey
    refine List.any_eq_true.mpr ⟨ts, ?_, hin⟩
    rw [hs.submitted, List.drop_append]
    exact List.mem_append_left _ hts
  constructor
  · rw [hs.io]
    exact h.balanced.openBatch c fun hnil => hs.nonempty (List.map_eq_nil_iff.mp hnil)
  · rw [hs.submitted, hs.io, List.length_append, h.batches]
    simp [Pool.openBatch]
  · exact fun op hop => (hs.ops op hop).elim (h.grounded op) id
  · intro p hp
    rw [hs.preads] at hp
    rw [hs.submitted, List.length_append]
    exact Nat.lt_add_right _ (h.preads p hp)
  · intro b ts hb r hr
    rw [hs.preads]
    rw [hs.submitted, List.getElem?_append] at hb
    split at hb
    · exact (h.attempted b ts hb r hr).imp_left hinBatch
    · next hge =>
        -- the batch just submitted
        obtain ⟨hlt, hts⟩ := List.getElem?_eq_some_iff.mp hb
        have hb' : b = m.io.batches.length := by
          rw [List.length_singleton] at hlt
          rw [← h.batches]
          omega
        rw [List.getElem_singleton] at hts
        subst hts
        obtain ⟨rs, hrs, hr⟩ := List.mem_flatten.mp hr
        refine .inl ⟨⟨b, ⟨rs, base, []⟩⟩, hjobs.mem_iff.mpr (List.mem_append_left _ ?_), rfl, hr⟩
        rw [hb', List.map_map]
        exact List.mem_map.mpr ⟨rs, hrs, rfl⟩
  · intro b hb tag htag hupdate
    have hold : b ∈ m.io.fired := by
      rw [hs.io] at hb
      exact hb
    have hlt := h.balanced.fired_lt b (List.mem_append_right _ hold)
    rw [hs.io, Pool.tag?_openBatch, if_neg (by omega)] at htag
    rw [shortRead, hs.preads]
    exact h.reported b hold tag htag hupdate
  · intro p hp hshort
    rw [hs.preads] at hp
    have hlt := h.preads p hp
    refine unmarked_mono (h.unmarked p hp hshort) (fun key hkey _ => ?_) fun _ => hremarked
    refine (hs.cache key hkey).imp_right fun hin => List.any_eq_true.mpr ⟨tasks, ?_, by simpa using hin⟩
    rw [hs.submitted, List.drop_append, Nat.sub_eq_zero_of_le hlt, List.drop_zero]
    exact List.mem_append_right _ (List.mem_singleton_self _)

/-- A `pread`, failed or not. -/
theorem pread (h : m.Accounted rt) {w count : Nat} (hsafe : m.failsafe rt (.pread w count))
    (hpread : m.preadStep rt w count = some m') : m'.Accounted rt := by
  obtain ⟨j, r, rs, _, io, hw, hregions, -, hio, rfl⟩ := preadStep_spec hpread
  obtain ⟨j', rest, hw', hjobs, hjobs', hbatches, -, -, -, -⟩ := Pool.work_spec hio
  have hjj : j' = j := by
    rw [hw] at hw'
    exact (Worker.busy.inj (Option.some.inj hw')).symm
  subst hjj
  have hq := Pool.work_quiet hio
  have hj : j' ∈ m.io.jobs := hjobs.mem_iff.mpr List.mem_cons_self
  have hlive : m.io.Live j'.batch := h.balanced.live_iff.mpr (.inl ⟨j', hj, rfl⟩)
  constructor
  · exact hq.balanced h.balanced
  · rw [h.batches]
    exact congrArg List.length hbatches.symm
  · exact h.grounded
  · intro p hp
    rcases List.mem_cons.mp hp with rfl | hp
    · show j'.batch < m.submitted.length
      rw [h.batches]
      exact hlive.1
    · exact h.preads p hp
  · intro b tasks hb r' hr'
    rcases h.attempted b tasks hb r' hr' with ⟨j₁, hj₁, hjb, hin⟩ | ⟨count', hp⟩
    · rcases List.mem_cons.mp (hjobs.mem_iff.mp hj₁) with rfl | hrest
      · rw [hregions] at hin
        rcases List.mem_cons.mp hin with rfl | hin
        · -- the region just read
          exact .inr ⟨count, hjb ▸ List.mem_cons_self⟩
        · exact .inl ⟨_, hjobs'.mem_iff.mpr List.mem_cons_self, hjb, hin⟩
      · exact .inl ⟨j₁, hjobs'.mem_iff.mpr (List.mem_cons_of_mem _ hrest), hjb, hin⟩
    · exact .inr ⟨count', List.mem_cons_of_mem _ hp⟩
  · intro b hb tag htag hupdate
    change b ∈ io.fired at hb
    change io.tag? b = some tag at htag
    rw [hq.fired_eq] at hb
    rw [hq.tag?_eq] at htag
    have hne : j'.batch ≠ b := fun heq => hlive.2 (heq ▸ hb)
    have hold := h.reported b hb tag htag hupdate
    rw [shortRead] at hold ⊢
    rw [List.any_cons, hold]
    simp [hne]
  · intro p hp hshort
    rcases List.mem_cons.mp hp with rfl | hp
    · have hfree := unmarked_of_failsafe hsafe hw hregions hshort
      exact hfree
    · have hold := h.unmarked p hp hshort
      exact hold

/-- A task without regions left is finished. -/
theorem finish (h : m.Accounted rt) {w : Nat} (hfinish : m.finishStep w = some m') :
    m'.Accounted rt := by
  have hc := carries_of_finish hfinish
  obtain ⟨j, io, hw, hnil, hio, rfl⟩ := finishStep_spec hfinish
  obtain ⟨j', x, hw', -, hjobs, hbatches, -, -, -, -⟩ := Pool.finish_spec hio
  have hjj : j' = j := by
    rw [hw] at hw'
    exact (Worker.busy.inj (Option.some.inj hw')).symm
  subst hjj
  have hq := Pool.finish_quiet hio
  constructor
  · exact hq.balanced h.balanced
  · rw [h.batches]
    show _ = io.batches.length
    rw [hbatches, List.length_set]
  · exact h.grounded
  · exact h.preads
  · intro b tasks hb r hr
    refine (h.attempted b tasks hb r hr).imp_left fun ⟨j₁, hj₁, hjb, hin⟩ => ?_
    rcases List.mem_cons.mp (hjobs.mem_iff.mp hj₁) with rfl | hrest
    · rw [hnil] at hin
      cases hin
    · exact ⟨j₁, hrest, hjb, hin⟩
  · intro b hb tag htag hupdate
    change b ∈ io.fired at hb
    change io.tag? b = some tag at htag
    rw [hq.fired_eq] at hb
    rw [hq.tag?_eq] at htag
    exact h.reported b hb tag htag hupdate
  · exact h.unmarked

/-- A batch fires. -/
theorem fire (h : m.Accounted rt) {w : Nat} (hsafe : m.failsafe rt (.fire w))
    (hfire : m.fireStep w = some m') : m'.Accounted rt := by
  obtain ⟨b, tag, io, hw, htag, hio, rfl⟩ := fireStep_spec hfire
  obtain ⟨b', hw', hjobs, hbatches, -, hfired, -, -⟩ := Pool.fire_spec hio
  have hbb : b' = b := by
    rw [hw] at hw'
    exact (Worker.firing.inj (Option.some.inj hw')).symm
  subst hbb
  have hfired : ∀ m'' : Machine, m''.io = io → m''.submitted = m.submitted →
      m''.preads = m.preads → m''.pending = m.pending → m''.neuronCache = m.neuronCache →
      m''.Accounted rt := by
    intro m'' hio'' hsubmitted hpreads hpending hcache
    constructor
    · rw [hio'']
      exact h.balanced.fire hio
    · rw [hsubmitted, hio'', hbatches, h.batches]
    · rw [hpending]
      exact h.grounded
    · rw [hpreads, hsubmitted]
      exact h.preads
    · intro b₁ tasks hb₁ r hr
      rw [hsubmitted] at hb₁
      rw [hpreads]
      refine (h.attempted b₁ tasks hb₁ r hr).imp_left (inBatch_of_perm ?_).mpr
      rw [hio'']
      exact hjobs
    · intro b₁ hb₁ tag₁ htag₁ hupdate
      rw [hio'', hfired] at hb₁
      rw [hio'', Pool.tag?_of_batches hbatches] at htag₁
      rw [shortRead, hpreads]
      rcases List.mem_cons.mp hb₁ with rfl | hb₁
      · exact not_short_of_failsafe hsafe hw htag₁ hupdate
      · exact h.reported b₁ hb₁ tag₁ htag₁ hupdate
    · intro p hp hshort
      rw [hpreads] at hp
      refine unmarked_mono (h.unmarked p hp hshort) (fun key hkey _ => .inl (hcache ▸ hkey))
        fun key hkey => ?_
      rw [remarked, hsubmitted]
      exact hkey
  split
  · exact hfired _ rfl rfl rfl rfl rfl
  · exact hfired _ rfl rfl rfl rfl rfl

/-- **A step in which nothing depends on a failed read keeps the account.** -/
theorem step (h : m.Accounted rt) {lab : Label} (hsafe : m.failsafe rt lab)
    (hstep : PoolStep rt m lab m') : m'.Accounted rt := by
  cases hstep with
  | still hs => exact h.still hs
  | submit hs => exact h.submit hs
  | nothing _ _ hs _ =>
      have hkept := h.still hs
      exact ⟨hkept.balanced, hkept.batches, hkept.grounded, hkept.preads, hkept.attempted,
        hkept.reported, hkept.unmarked⟩
  | send hio =>
      have hspec := Pool.send_spec hio
      exact h.moved (Pool.send_quiet hio) hspec.1 (congrArg List.length hspec.2.1)
  | recv hio =>
      have hspec := Pool.recv_spec hio
      exact h.moved (Pool.recv_quiet hio) hspec.1 (congrArg List.length hspec.2.1)
  | pread hpread => exact h.pread hsafe hpread
  | finish hfinish => exact h.finish hfinish
  | fire hfire => exact h.fire hsafe hfire

end Accounted

theorem accounted_start (coActivation : CoActivationMatrix) (expertPool : Option ExpertPool)
    (workers : Nat) : (start rt coActivation expertPool workers).Accounted rt where
  balanced := Pool.balanced_start workers
  batches := rfl
  grounded op hop := by cases hop
  preads p hp := by cases hp
  attempted b tasks hb := by cases hb
  reported b hb := by cases hb
  unmarked p hp := by cases hp

/-! ### Runs -/

/-- No failed read was reported as loaded, and none is about to be. -/
structure FailuresUnreported (rt : Runtime) (m : Machine) : Prop where
  /-- A batch that stored `Loaded` read each of its regions in full. -/
  reported : ∀ b ∈ m.io.fired, ∀ l, m.io.tag? b = some ⟨l, true⟩ →
    ∀ tasks, m.submitted[b]? = some tasks → ∀ r ∈ tasks.flatten, m.ReadInFull b r
  /-- A layer becomes loaded by such a batch, or when its load has nothing to read. -/
  loads : ∀ lab m' l, m.failsafe rt lab → m.step rt lab = some m' → m.layerStatus l ≠ .loaded →
    m'.layerStatus l = .loaded →
      (∃ w b tasks, lab = .fire w ∧ m.io.workers[w]? = some (.firing b) ∧
        m.io.tag? b = some ⟨l, true⟩ ∧ m.submitted[b]? = some tasks ∧
        ∀ r ∈ tasks.flatten, m.ReadInFull b r) ∨
      ∃ ops, m.pending = .submitLayer l :: ops ∧ (planLayer rt m l).tasks = []
  /-- The slice of a read that failed is not marked, unless for a later read. -/
  unmarked : ∀ b r count, (b, r, count) ∈ m.preads → count < r.size →
    ∀ key ∈ m.neuronCache.entries, KeyIn rt.config key [r] →
      ∃ b' > b, ∃ tasks, m.submitted[b']? = some tasks ∧ KeyIn rt.config key tasks.flatten

namespace Accounted

theorem exists_submitted (h : m.Accounted rt) (hb : b < m.io.batches.length) :
    ∃ tasks, m.submitted[b]? = some tasks :=
  ⟨_, List.getElem?_eq_getElem (h.batches ▸ hb)⟩

/-- A batch about to fire was submitted, and none of its tasks is left. -/
theorem firing (h : m.Accounted rt) {w : Nat} (hw : m.io.workers[w]? = some (.firing b)) :
    m.io.jobsOf b = [] ∧ ∃ tasks, m.submitted[b]? = some tasks := by
  have hfiring : b ∈ m.io.firing := List.mem_filterMap.mpr ⟨_, List.mem_of_getElem? hw, rfl⟩
  obtain ⟨hlive, hjobs⟩ := h.balanced.firing_live hfiring
  exact ⟨hjobs, h.exists_submitted hlive.1⟩

theorem failuresUnreported (hpool : rt.ioPoolStarted = true) (h : m.Accounted rt) :
    m.FailuresUnreported rt where
  reported b hb l htag tasks htasks r hr :=
    h.readInFull (h.balanced.fired_once hb).2.1 (h.reported b hb _ htag rfl) htasks hr
  loads lab m' l hsafe hstep hnot hloaded := by
    cases poolStep hpool h.grounded hstep with
    | still hs => exact absurd (hs.loaded l hloaded) hnot
    | submit hs => exact absurd (hs.loaded l hloaded) hnot
    | @nothing l' ops _ hpending hnil hs hstatus =>
        rw [hstatus] at hloaded
        by_cases hl : l = l'
        · subst hl
          exact .inr ⟨ops, hpending, hnil⟩
        · rw [Function.update_of_ne hl] at hloaded
          exact absurd hloaded hnot
    | send _ => exact absurd hloaded hnot
    | recv _ => exact absurd hloaded hnot
    | pread hpread =>
        obtain ⟨j, r, rs, _, io, -, -, -, -, rfl⟩ := preadStep_spec hpread
        exact absurd hloaded hnot
    | finish hfinish =>
        obtain ⟨j, io, -, -, -, rfl⟩ := finishStep_spec hfinish
        exact absurd hloaded hnot
    | @fire w _ hfire =>
        obtain ⟨b, tag, io, hw, htag, -, rfl⟩ := fireStep_spec hfire
        obtain ⟨hjobs, tasks, htasks⟩ := h.firing hw
        by_cases hupdate : tag.updateStatus = true
        · rw [if_pos hupdate] at hloaded
          change Function.update m.layerStatus tag.layerIdx .loaded l = .loaded at hloaded
          by_cases hl : l = tag.layerIdx
          · have htag' : m.io.tag? b = some ⟨l, true⟩ := by rw [htag, hl, ← hupdate]
            refine .inl ⟨w, b, tasks, rfl, hw, htag', htasks, fun r hr => ?_⟩
            exact h.readInFull hjobs (not_short_of_failsafe hsafe hw htag hupdate) htasks hr
          · rw [Function.update_of_ne hl] at hloaded
            exact absurd hloaded hnot
        · rw [if_neg hupdate] at hloaded
          exact absurd hloaded hnot
  unmarked b r count hp hshort key hkey hin := by
    have hmarked := List.all_eq_true.mp (h.unmarked _ hp hshort) key hkey
    simp only [hin, decide_true, Bool.not_true, Bool.false_or] at hmarked
    obtain ⟨tasks, htasks, hlater⟩ := List.any_eq_true.mp hmarked
    obtain ⟨k, hk⟩ := List.mem_iff_getElem?.mp htasks
    rw [List.getElem?_drop] at hk
    exact ⟨b + 1 + k, by omega, tasks, hk, of_decide_eq_true hlater⟩

end Accounted

/-- **No failed read is reported as loaded in a run in which nothing depends on one**,
whatever the mode, the loads and their tasks, and the results of the reads. -/
theorem failedReads_unreported {coActivation : CoActivationMatrix}
    {expertPool : Option ExpertPool} {workers : Nat} (hpool : rt.ioPoolStarted = true)
    (h : Reaches (Machine.step rt) (fun m lab => m.failsafe rt lab)
      (start rt coActivation expertPool workers) m) : m.FailuresUnreported rt := by
  refine Accounted.failuresUnreported hpool (h.invariant (P := fun m => m.Accounted rt) ?_ ?_)
  · exact accounted_start coActivation expertPool workers
  · intro m lab m' hacc hsafe hstep
    exact hacc.step hsafe (poolStep hpool hacc.grounded hstep)

end FailedReads

end Machine

/-! ### Failed reads that are reported -/

/-- Both layers are loaded, layer 1 by two calls. The read of a slice of layer 0 begins, layer 1 is
computed, which releases layer 0, and the read fails. -/
def failReleased : List Label :=
  loadLayer 0 4 ++ [.event (.done 0)] ++ loadLayer 1 (Machine.preadRegion 4 [3, 1] 0) ++
    [.event (.requestSlices 0 [0]), .thread, .thread, .thread, .recv 0, .event (.done 0), .thread,
      .pread 0 (Machine.preadRegion 2 [-1] 0), .finish 0, .fire 0]

/-- The slice was evicted before its read failed, and layer 1 was read in full. -/
theorem gate_failuresUnreported : ∃ m, exec (Machine.step gateRuntime)
    (Machine.failsafe gateRuntime) gateStart failReleased = some m ∧ m.layerStatus 1 = .loaded ∧
      (2, ⟨0, 2, 128⟩, 0) ∈ m.preads ∧ m.FailuresUnreported gateRuntime := by
  have hrun : (exec (Machine.step gateRuntime) (Machine.failsafe gateRuntime) gateStart
      failReleased).map (fun m => (m.layerStatus 1, decide ((2, ⟨0, 2, 128⟩, 0) ∈ m.preads))) =
        some (.loaded, true) := by decide +kernel
  obtain ⟨m, hm, heq⟩ := Option.map_eq_some_iff.mp hrun
  obtain ⟨hst, hfailed⟩ := Prod.mk.inj heq
  exact ⟨m, hm, hst, of_decide_eq_true hfailed,
    Machine.failedReads_unreported rfl (Reaches.exec (fun _ _ => id) .refl hm)⟩

/-- The read of a slice of layer 0 fails, and then the file ends in layer 1. -/
def failBoth : List Label :=
  [.event (.requestSlices 0 [0]), .thread, .thread, .thread, .recv 0,
    .pread 0 (Machine.preadRegion 2 [-1] 0), .finish 0, .fire 0] ++
    loadLayer 1 (Machine.preadRegion 4 [2, 0] 0)

/-- The slice is marked in the cache all the same, and the layer loaded. -/
theorem gate_failures_reported : ∃ m, Reaches (Machine.step gateRuntime) (fun _ _ => True)
    gateStart m ∧ m.layerStatus 1 = .loaded ∧
      (1 ∈ m.io.fired ∧ m.io.tag? 1 = some ⟨1, true⟩ ∧ m.submitted[1]? = some [[⟨32, 4, 160⟩]] ∧
        ¬ m.ReadInFull 1 ⟨32, 4, 160⟩) ∧
      (0, 0, .gate) ∈ m.neuronCache.entries ∧
        KeyIn gateRuntime.config (0, 0, .gate) [⟨0, 2, 128⟩] ∧ ¬ m.ReadInFull 0 ⟨0, 2, 128⟩ ∧
        m.submitted.length = 2 ∧ ¬ KeyIn gateRuntime.config (0, 0, .gate) [⟨32, 4, 160⟩] := by
  have hrun : (exec (Machine.step gateRuntime) (fun _ _ => true) gateStart failBoth).map
      (fun m => (m.layerStatus 1, m.io.fired, m.io.tag? 1)) =
        some (.loaded, [1, 0], some ⟨1, true⟩) := by decide +kernel
  have hreads : (exec (Machine.step gateRuntime) (fun _ _ => true) gateStart failBoth).map
      (fun m => (m.neuronCache.entries, m.preads)) =
        some ([(0, 0, .gate)], [(1, ⟨32, 4, 160⟩, 2), (0, ⟨0, 2, 128⟩, 0)]) := by decide +kernel
  have htasks : (exec (Machine.step gateRuntime) (fun _ _ => true) gateStart failBoth).map
      Machine.submitted = some [[[⟨0, 2, 128⟩]], [[⟨32, 4, 160⟩]]] := by decide +kernel
  obtain ⟨m, hm, heq⟩ := Option.map_eq_some_iff.mp hrun
  simp only [Prod.mk.injEq] at heq
  obtain ⟨hst, hfired, htag⟩ := heq
  rw [hm, Option.map_some] at hreads htasks
  obtain ⟨hcache, hpreads⟩ := Prod.mk.inj (Option.some.inj hreads)
  have hsubmitted := Option.some.inj htasks
  refine ⟨m, Reaches.exec (fun _ _ _ => trivial) .refl hm, hst,
    ⟨by simp [hfired], htag, by simp [hsubmitted], ?_⟩, by simp [hcache], by decide +kernel, ?_,
    by simp [hsubmitted], by decide +kernel⟩
  · rintro ⟨count, hp, hsize⟩
    simp only [hpreads, List.mem_cons, Prod.mk.injEq, List.not_mem_nil, or_false] at hp
    rcases hp with ⟨-, -, rfl⟩ | ⟨hb, -⟩
    · exact absurd hsize (by decide)
    · cases hb
  · rintro ⟨count, hp, hsize⟩
    simp only [hpreads, List.mem_cons, Prod.mk.injEq, List.not_mem_nil, or_false] at hp
    rcases hp with ⟨hb, -⟩ | ⟨-, -, rfl⟩
    · cases hb
    · exact absurd hsize (by decide)

end Hypura
