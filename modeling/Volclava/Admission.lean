import Volclava.Lib.CInt
import Volclava.Lib.Loop

/-!
# Pending limits at submission

A new job or job array is admitted by `checkJobPendLimit` (`mbd.job.c`) and then entered by
`handleNewJob` or `handleNewJobArray`. The check measures a submission by the size of the
*first* index range times `numProcessors`. What entering it adds is measured otherwise: the
elements of *all* ranges, `maxNumProcessors` each, for the user and the user groups, and
`numProcessors` each for the system. All of it is 32-bit arithmetic, so the counters here are
`Int32`.

- `length_newElements`: how many elements an index list creates.
- `enter_eq`: what entering a submission adds to the counters.
- `newJob_keeps_limits_iff`: the submissions that never exceed a limit when they are admitted are
  those for which the check and the counters measure the same.
- `newJob_exact_of_uniform`: a single job or a single range with equal minimum and maximum
  processors is one of them, and short of an overflow its slots and jobs are really there.
-/

namespace Volclava

open List CInt

/-! ## Counters and submissions -/

/-- `addValue` on a 32-bit counter. -/
def addValue32 (currentValue num : Int32) : Int32 :=
  if currentValue + num ≥ 0 then currentValue + num else 0

/-- The counters and limits of a user or user group. -/
structure UData where
  user : String
  numPEND : Int32
  numPENDJobs : Int32
  maxPendSlots : Int32
  maxPendJobs : Int32
  numPEND_nonneg : 0 ≤ numPEND
  numPENDJobs_nonneg : 0 ≤ numPENDJobs

/-- An index range of a job array, as `parseJobArrayIndex` lets it pass. -/
structure IdxRange where
  start : Nat
  stop : Nat
  step : Nat
  start_pos : 0 < start
  step_pos : 0 < step
  le : start ≤ stop
  /-- `LSB_MAX_ARRAY_IDX` -/
  lt : stop < 0x0FFFF

def IdxRange.size (r : IdxRange) : Nat := (r.stop - r.start) / r.step + 1

/-- The indices the loop over the range goes through. -/
def IdxRange.indices (r : IdxRange) : List Nat := List.range' r.start r.size r.step

/-- A non-empty list of index ranges. -/
structure IdxList where
  head : IdxRange
  next : List IdxRange

def IdxList.indices (l : IdxList) : List Nat := (l.head :: l.next).flatMap IdxRange.indices

/-- What is submitted: the processors of a job and, for a job array, its indices. -/
structure Submission where
  numProcessors : Int32
  maxNumProcessors : Int32
  idxList : Option IdxList
  pos : 0 < numProcessors
  le : numProcessors ≤ maxNumProcessors

/-- The system's parameters, of `lsb.params`. -/
structure PendParams where
  maxPendJobs : Int32
  maxPendSlots : Int32

/-- The counters a submission is checked against: those of the user and of the user's groups
(`gPtr`), the length of the pending list and the total of pending slots. -/
structure Pending where
  userData : UData
  gPtr : List UData
  numEnts : Int32
  pendJobSlots : Int32

/-! ## The check -/

inductive PendLimitError where
  | lsbeSlotsMaxPend | lsbeJobMaxPend
  deriving DecidableEq, Repr

/-- The check of a user's or group's limits; `reason` says whose. -/
def UData.checkPendLimit (u : UData) (reason : String) (jobArraySize numProcessors : Int32) :
    Except (PendLimitError × String) Unit :=
  if u.numPEND + jobArraySize * numProcessors > u.maxPendSlots then
    .error (.lsbeSlotsMaxPend, reason)
  else if u.numPENDJobs + jobArraySize > u.maxPendJobs then .error (.lsbeJobMaxPend, reason)
  else .ok ()

/-- `checkJobPendLimit` -/
def checkJobPendLimit (c : PendParams) (s : Pending) (job : Submission) (jobArraySize : Int32) :
    Except (PendLimitError × String) Unit := do
  s.userData.checkPendLimit ("User <" ++ s.userData.user ++ ">") jobArraySize job.numProcessors
  if s.numEnts + jobArraySize > c.maxPendJobs then throw (.lsbeJobMaxPend, "System")
  if s.pendJobSlots + jobArraySize * job.numProcessors > c.maxPendSlots then
    throw (.lsbeSlotsMaxPend, "System")
  s.gPtr.forM fun ugp =>
    ugp.checkPendLimit ("Group <" ++ ugp.user ++ ">") jobArraySize job.numProcessors

/-! ## Entering the jobs -/

theorem addValue32_nonneg (currentValue num : Int32) : 0 ≤ addValue32 currentValue num := by
  unfold addValue32
  split
  · assumption
  · decide

/-- `updUserData1` for new jobs of `numPEND` slots together. -/
def UData.updUserData1 (up : UData) (maxNumProcessors numPEND : Int32) : UData where
  user := up.user
  numPEND := addValue32 up.numPEND numPEND
  numPENDJobs := addValue32 up.numPENDJobs (numPEND / maxNumProcessors)
  maxPendSlots := up.maxPendSlots
  maxPendJobs := up.maxPendJobs
  numPEND_nonneg := addValue32_nonneg _ _
  numPENDJobs_nonneg := addValue32_nonneg _ _

/-- What `updUserData` does to the counters of the user and the groups. -/
def Pending.updUserData (s : Pending) (maxNumProcessors numPEND : Int32) : Pending :=
  { s with
    userData := s.userData.updUserData1 maxNumProcessors numPEND
    gPtr := s.gPtr.map (·.updUserData1 maxNumProcessors numPEND) }

/-- What `inPendJobList` does to the counters. -/
def Pending.inPendJobList (s : Pending) (numProcessors : Int32) : Pending :=
  { s with
    numEnts := s.numEnts + 1
    pendJobSlots := s.pendJobSlots + numProcessors }

/-- The elements the loops of `handleNewJobArray` create: an index met before is passed over. -/
def newElements (indices : List Nat) : List Nat :=
  indices.foldl (fun elements i => if i ∈ elements then elements else elements ++ [i]) []

def Pending.handleNewJob (s : Pending) (job : Submission) : Pending :=
  (s.inPendJobList job.numProcessors).updUserData job.maxNumProcessors job.maxNumProcessors

def Pending.handleNewJobArray (s : Pending) (job : Submission) (idxList : IdxList) : Pending :=
  let elements := newElements idxList.indices
  let numJobs := Int32.ofNat elements.length
  (elements.foldl (fun s _ => s.inPendJobList job.numProcessors) s).updUserData
    job.maxNumProcessors (job.maxNumProcessors * numJobs)

/-- The size of an array as `newJob` computes it: that of the first range. -/
def Submission.arraySize (job : Submission) : Int32 :=
  match job.idxList with
  | none => 1
  | some idxList => Int32.ofNat idxList.head.size

def Pending.enter (s : Pending) (job : Submission) : Pending :=
  match job.idxList with
  | none => s.handleNewJob job
  | some idxList => s.handleNewJobArray job idxList

/-- The end of `newJob`: check the limits, then enter the job or the job array. -/
def newJob (c : PendParams) (job : Submission) (s : Pending) :
    Except (PendLimitError × String) Pending := do
  checkJobPendLimit c s job job.arraySize
  return s.enter job

/-! ## The limits -/

def UData.WithinLimits (u : UData) : Prop :=
  u.numPEND ≤ u.maxPendSlots ∧ u.numPENDJobs ≤ u.maxPendJobs

/-- The counters of the user, the user's groups and the system are within the limits. -/
def Pending.WithinLimits (c : PendParams) (s : Pending) : Prop :=
  (∀ u ∈ s.userData :: s.gPtr, u.WithinLimits) ∧ s.pendJobSlots ≤ c.maxPendSlots

instance (u : UData) : Decidable u.WithinLimits :=
  inferInstanceAs (Decidable (u.numPEND ≤ u.maxPendSlots ∧ u.numPENDJobs ≤ u.maxPendJobs))

instance (c : PendParams) (s : Pending) : Decidable (s.WithinLimits c) :=
  inferInstanceAs (Decidable ((∀ u ∈ s.userData :: s.gPtr, u.WithinLimits) ∧
    s.pendJobSlots ≤ c.maxPendSlots))

/-- The number of jobs a submission creates: one, or the different indices of all ranges. -/
def Submission.numJobs (job : Submission) : Nat :=
  match job.idxList with
  | none => 1
  | some idxList => idxList.indices.dedup.length

/-! ## The two measures -/

/-- The slots the check asks for: those of the first range, `numProcessors` a job. -/
def Submission.checkedSlots (job : Submission) : Int32 := job.arraySize * job.numProcessors

/-- The slots entered for the user and the groups: those of all jobs, `maxNumProcessors` a job. -/
def Submission.enteredSlots (job : Submission) : Int32 :=
  job.maxNumProcessors * Int32.ofNat job.numJobs

/-- The jobs entered for the user and the groups. -/
def Submission.enteredJobs (job : Submission) : Int32 := job.enteredSlots / job.maxNumProcessors

/-- The slots entered for the system: those of all jobs, `numProcessors` a job. -/
def Submission.systemSlots (job : Submission) : Int32 :=
  Int32.ofNat job.numJobs * job.numProcessors

/-- The check asks for what is entered, unless so much is entered that the product overflows to a
number that takes no room. -/
structure Submission.Measured (job : Submission) : Prop where
  slots : job.enteredSlots = job.checkedSlots ∨ job.enteredSlots ≤ 0
  jobs : job.enteredJobs = job.arraySize ∨ job.enteredJobs ≤ 0
  system : job.systemSlots = job.checkedSlots ∨ job.systemSlots = 0

/-! ## What entering adds -/

theorem length_newElements (indices : List Nat) :
    (newElements indices).length = indices.dedup.length := Loop.length_foldl_addNew indices

theorem foldl_inPendJobList (np : Int32) (elements : List Nat) (s : Pending) :
    (elements.foldl (fun s _ => s.inPendJobList np) s).userData = s.userData ∧
    (elements.foldl (fun s _ => s.inPendJobList np) s).gPtr = s.gPtr ∧
    (elements.foldl (fun s _ => s.inPendJobList np) s).pendJobSlots =
      s.pendJobSlots + Int32.ofNat elements.length * np := by
  induction elements generalizing s with
  | nil => exact ⟨rfl, rfl, by simp⟩
  | cons i elements ih =>
    obtain ⟨huser, hgrp, hslots⟩ := ih (s.inPendJobList np)
    refine ⟨huser, hgrp, hslots.trans ?_⟩
    rw [length_cons, Int32.ofNat_add, Int32.add_mul, Pending.inPendJobList,
      Int32.add_comm (Int32.ofNat elements.length * np), ← Int32.add_assoc]
    simp

section Admitted

variable {c : PendParams} {job : Submission} {s s' : Pending}

theorem newJob_ok_iff : newJob c job s = .ok s' ↔
    checkJobPendLimit c s job job.arraySize = .ok () ∧ s' = s.enter job := by
  unfold newJob
  cases checkJobPendLimit c s job job.arraySize with
  | error e => exact ⟨(nomatch ·), fun h => nomatch h.1⟩
  | ok _ => exact ⟨fun h => ⟨rfl, (Except.ok.inj h).symm⟩, fun h => congrArg Except.ok h.2.symm⟩

/-- **What entering a submission adds to the counters.** -/
theorem enter_eq (s : Pending) (job : Submission) :
    (s.enter job).userData :: (s.enter job).gPtr =
        (s.userData :: s.gPtr).map (·.updUserData1 job.maxNumProcessors job.enteredSlots) ∧
      (s.enter job).pendJobSlots = s.pendJobSlots + job.systemSlots := by
  unfold Pending.enter Submission.enteredSlots Submission.systemSlots Submission.numJobs
  cases job.idxList with
  | none => simp [Pending.handleNewJob, Pending.updUserData, Pending.inPendJobList]
  | some idxList =>
    obtain ⟨huser, hgrp, hslots⟩ :=
      foldl_inPendJobList job.numProcessors (newElements idxList.indices) s
    rw [length_newElements] at hslots
    simp [Pending.handleNewJobArray, Pending.updUserData, huser, hgrp, hslots,
      length_newElements]

/-! ## What the check asks -/

theorem checkPendLimit_ok_iff {u : UData} {reason : String} {jobArraySize np : Int32} :
    u.checkPendLimit reason jobArraySize np = .ok () ↔
      u.numPEND + jobArraySize * np ≤ u.maxPendSlots ∧
        u.numPENDJobs + jobArraySize ≤ u.maxPendJobs := by
  unfold UData.checkPendLimit
  rw [← Int32.not_lt, ← Int32.not_lt]
  split_ifs with hslots hjobs
  · exact ⟨(nomatch ·), fun h => absurd hslots h.1⟩
  · exact ⟨(nomatch ·), fun h => absurd hjobs h.2⟩
  · exact ⟨fun _ => ⟨hslots, hjobs⟩, fun _ => rfl⟩

theorem bind_ok_iff {ε : Type} {x : Except ε Unit} {f : Unit → Except ε Unit} :
    x >>= f = .ok () ↔ x = .ok () ∧ f () = .ok () := by
  cases x with
  | error e => exact ⟨(nomatch ·), fun h => nomatch h.1⟩
  | ok _ => exact ⟨fun h => ⟨rfl, h⟩, fun h => h.2⟩

theorem forM_ok_iff {α ε : Type} {f : α → Except ε Unit} {l : List α} :
    l.forM f = .ok () ↔ ∀ x ∈ l, f x = .ok () := by
  induction l with
  | nil => exact ⟨fun _ => nofun, fun _ => rfl⟩
  | cons y l ih =>
    rw [forall_mem_cons, ← ih]
    exact bind_ok_iff

/-- **What `checkJobPendLimit` asks.** -/
theorem checkJobPendLimit_ok_iff {jobArraySize : Int32} :
    checkJobPendLimit c s job jobArraySize = .ok () ↔
      (∀ u ∈ s.userData :: s.gPtr, u.numPEND + jobArraySize * job.numProcessors ≤ u.maxPendSlots ∧
        u.numPENDJobs + jobArraySize ≤ u.maxPendJobs) ∧
      s.numEnts + jobArraySize ≤ c.maxPendJobs ∧
      s.pendJobSlots + jobArraySize * job.numProcessors ≤ c.maxPendSlots := by
  unfold checkJobPendLimit
  simp only [forall_mem_cons, gt_iff_lt, ← Int32.not_lt (a := c.maxPendJobs),
    ← Int32.not_lt (a := c.maxPendSlots)]
  rw [bind_ok_iff, checkPendLimit_ok_iff]
  refine (and_congr_right' ?_).trans and_assoc.symm
  by_cases hents : c.maxPendJobs < s.numEnts + jobArraySize
  · rw [if_pos hents]
    exact ⟨(nomatch ·), fun h => absurd hents h.2.1⟩
  by_cases hslots : c.maxPendSlots < s.pendJobSlots + jobArraySize * job.numProcessors
  · rw [if_neg hents, if_pos hslots]
    exact ⟨(nomatch ·), fun h => absurd hslots h.2.2⟩
  · rw [if_neg hents, if_neg hslots]
    simp only [forM_ok_iff, checkPendLimit_ok_iff, hents, hslots, not_false_iff, and_true]

/-! ## Admitted submissions -/

/-- An account within its limit keeps to it if the check asked for what is added. -/
theorem addValue32_le {currentValue entered checked limit : Int32} (hnonneg : 0 ≤ currentValue)
    (hle : currentValue ≤ limit) (hcheck : currentValue + checked ≤ limit)
    (h : entered = checked ∨ entered ≤ 0) : addValue32 currentValue entered ≤ limit := by
  unfold addValue32
  split_ifs
  · rcases h with rfl | hneg
    · exact hcheck
    · rw [Int32.le_iff_toInt_le] at *
      have := currentValue.toInt_lt
      have := entered.le_toInt
      rw [Int32.toInt_zero] at hneg hnonneg
      rw [toInt_add_eq (by omega) (by omega)]
      omega
  · exact Int32.le_trans hnonneg hle

/-- Otherwise there is a counter that the check lets exceed its limit, the last number but one. -/
theorem exists_exceeded {entered checked : Int32} (hne : entered ≠ checked) (hzero : entered ≠ 0) :
    ∃ currentValue : Int32, (0 < entered → 0 ≤ currentValue) ∧
      currentValue + entered = Int32.maxValue ∧ currentValue ≤ 2147483646 ∧
      currentValue + checked ≤ 2147483646 := by
  have hsum : Int32.maxValue - entered + entered = Int32.maxValue := Int32.sub_add_cancel _ _
  have hroom {x : Int32} (hx : entered ≠ x) : Int32.maxValue - entered + x ≤ 2147483646 := by
    have hlt : Int32.maxValue - entered + x ≠ Int32.maxValue := fun h =>
      hx ((Int32.add_right_inj _).mp (hsum.trans h.symm))
    have hle := Int32.toInt_lt (Int32.maxValue - entered + x)
    rw [Ne, ← Int32.toInt_inj, Int32.toInt_maxValue] at hlt
    rw [Int32.le_iff_toInt_le, show (2147483646 : Int32).toInt = 2147483646 from rfl]
    omega
  refine ⟨Int32.maxValue - entered, fun hpos => ?_, hsum, by simpa using hroom hzero, hroom hne⟩
  rw [Int32.lt_iff_toInt_lt, Int32.toInt_zero] at hpos
  have hlt := entered.toInt_lt
  have hmax := Int32.toInt_maxValue
  rw [Int32.le_iff_toInt_le, Int32.toInt_zero, toInt_sub_eq (by omega) (by omega)]
  omega

theorem not_addValue32_le {currentValue num : Int32} (h : currentValue + num = Int32.maxValue) :
    ¬ addValue32 currentValue num ≤ 2147483646 := by
  rw [addValue32, h]
  decide

/-- The slots, jobs and system slots of a submission, if it never exceeds a limit, for one user in
no group. -/
theorem withinLimits_oneUser
    (h : ∀ c s s', s.WithinLimits c → newJob c job s = .ok s' → s'.WithinLimits c)
    {u : UData} (hu : u.WithinLimits) (hslots : u.numPEND + job.checkedSlots ≤ u.maxPendSlots)
    (hjobs : u.numPENDJobs + job.arraySize ≤ u.maxPendJobs) {pendJobSlots maxPendSlots : Int32}
    (hle : pendJobSlots ≤ maxPendSlots) (hsys : pendJobSlots + job.checkedSlots ≤ maxPendSlots) :
    (u.updUserData1 job.maxNumProcessors job.enteredSlots).WithinLimits ∧
      pendJobSlots + job.systemSlots ≤ maxPendSlots := by
  have hin := h ⟨Int32.maxValue, maxPendSlots⟩ ⟨u, [], 0, pendJobSlots⟩ _
    ⟨by simpa using hu, hle⟩
    (newJob_ok_iff.mpr ⟨checkJobPendLimit_ok_iff.mpr ⟨by simpa using ⟨hslots, hjobs⟩,
      Int32.le_maxValue _, hsys⟩, rfl⟩)
  obtain ⟨huser, hpend⟩ := enter_eq ⟨u, [], 0, pendJobSlots⟩ job
  rw [Pending.WithinLimits, huser, hpend] at hin
  exact ⟨hin.1 _ (mem_map_of_mem mem_cons_self), hin.2⟩

theorem withinLimits_of_measured (hm : job.Measured) (hs : s.WithinLimits c)
    (h : newJob c job s = .ok s') : s'.WithinLimits c := by
  obtain ⟨hcheck, rfl⟩ := newJob_ok_iff.mp h
  obtain ⟨huser, -, hsys⟩ := checkJobPendLimit_ok_iff.mp hcheck
  obtain ⟨hacct, hpend⟩ := enter_eq s job
  rw [Pending.WithinLimits, hacct, hpend, forall_mem_map]
  refine ⟨fun u hin => ⟨?_, ?_⟩, ?_⟩
  · exact addValue32_le u.numPEND_nonneg (hs.1 u hin).1 (huser u hin).1 hm.slots
  · exact addValue32_le u.numPENDJobs_nonneg (hs.1 u hin).2 (huser u hin).2 hm.jobs
  · rcases hm.system with heq | hzero
    · rw [heq]
      exact hsys
    · simpa [hzero] using hs.2

/-- A submission whose jobs are all in the first range. -/
def Submission.OneRange (job : Submission) : Prop :=
  ∀ idxList ∈ job.idxList, idxList.next = []

theorem arraySize_eq (h : job.OneRange) :
    job.arraySize = Int32.ofNat job.numJobs ∧ job.arraySize.toInt = job.numJobs := by
  unfold Submission.arraySize Submission.numJobs
  cases hidx : job.idxList with
  | none => exact ⟨rfl, rfl⟩
  | some idxList =>
    obtain ⟨r, next⟩ := idxList
    obtain rfl : next = [] := h ⟨r, next⟩ hidx
    have hnum : (IdxList.indices ⟨r, []⟩).dedup.length = r.size := by
      rw [show IdxList.indices ⟨r, []⟩ = r.indices from append_nil _, IdxRange.indices,
        (nodup_range' r.step r.step_pos).dedup, length_range']
    have hsize : r.size < 2 ^ 31 := by
      have := Nat.div_le_self (r.stop - r.start) r.step
      have := r.lt
      unfold IdxRange.size
      omega
    dsimp only
    rw [hnum]
    exact ⟨rfl, toInt_ofNat_eq hsize⟩

/-- Short of an overflow the check asks for what is entered, and that is the true product. -/
theorem measured_of_uniform (hone : job.OneRange) (hproc : job.numProcessors = job.maxNumProcessors)
    (hover : job.numJobs * job.maxNumProcessors.toInt < 2 ^ 31) :
    job.Measured ∧ job.enteredSlots.toInt = job.numJobs * job.maxNumProcessors.toInt ∧
      job.enteredJobs.toInt = job.numJobs ∧ job.systemSlots = job.enteredSlots := by
  obtain ⟨hsize, hnum⟩ := arraySize_eq hone
  have hpos := Int32.lt_iff_toInt_lt.1 job.pos
  rw [Int32.toInt_zero, hproc] at hpos
  have hprod : 0 ≤ (job.numJobs : Int) * job.maxNumProcessors.toInt := by positivity
  have hslots : job.enteredSlots.toInt = job.numJobs * job.maxNumProcessors.toInt := by
    rw [← hnum, mul_comm] at hprod hover ⊢
    rw [Submission.enteredSlots, ← hsize, toInt_mul_eq (by omega) hover]
  have hchecked : job.enteredSlots = job.checkedSlots := by
    rw [Submission.enteredSlots, Submission.checkedSlots, hsize, hproc, Int32.mul_comm]
  have hsystem : job.systemSlots = job.checkedSlots := by
    rw [Submission.systemSlots, Submission.checkedSlots, hsize]
  have hjobs : job.enteredJobs = job.arraySize := by
    rw [← Int32.toInt_inj, Submission.enteredJobs, Int32.toInt_div, hslots,
      Int.mul_tdiv_cancel _ hpos.ne', ← hnum]
    exact Int32.toInt_bmod _
  exact ⟨⟨.inl hchecked, .inl hjobs, .inl hsystem⟩, hslots, by rw [hjobs, hnum],
    hsystem.trans hchecked.symm⟩

/-- Every counter is raised by what the submission really asks for: `numJobs` jobs of
`maxNumProcessors` slots each with the user and every group, of `numProcessors` each with the
system. -/
structure Entered (job : Submission) (s s' : Pending) : Prop where
  accounts : (s'.userData :: s'.gPtr).map (fun u => (u.numPEND.toInt, u.numPENDJobs.toInt)) =
    (s.userData :: s.gPtr).map fun u =>
      (u.numPEND.toInt + job.numJobs * job.maxNumProcessors.toInt,
        u.numPENDJobs.toInt + (job.numJobs : Int))
  system : s'.pendJobSlots.toInt = s.pendJobSlots.toInt + job.numJobs * job.numProcessors.toInt

/-- A counter holds the sum if that is no overflow. -/
theorem toInt_addValue32 {currentValue num : Int32} {n : Int} (hcur : 0 ≤ currentValue)
    (hnum : num.toInt = n) (hn : 0 ≤ n) (h : currentValue.toInt + n < 2 ^ 31) :
    (addValue32 currentValue num).toInt = currentValue.toInt + n := by
  rw [Int32.le_iff_toInt_le, Int32.toInt_zero] at hcur
  have hsum : (currentValue + num).toInt = currentValue.toInt + n := by
    rw [toInt_add_eq (by omega) (by omega), hnum]
  rw [addValue32, if_pos, hsum]
  rw [ge_iff_le, Int32.le_iff_toInt_le, Int32.toInt_zero, hsum]
  omega

end Admitted

/-! ## Submissions -/

/-- A user with ten slots left, in one group. -/
def tenSlots : Pending where
  userData := ⟨"user1", 0, 0, 10, 100, by decide, by decide⟩
  gPtr := [⟨"group1", 5, 2, 15, 100, by decide, by decide⟩]
  numEnts := 2
  pendJobSlots := 5

def params : PendParams := ⟨1000, 1000⟩

/-- An array with the two ranges `1-2` and `5-20`, of one processor a job. -/
def twoRanges : Submission where
  numProcessors := 1
  maxNumProcessors := 1
  idxList := some ⟨⟨1, 2, 1, by decide, by decide, by decide, by decide⟩,
    [⟨5, 20, 1, by decide, by decide, by decide, by decide⟩]⟩
  pos := by decide
  le := by decide

/-- An array with the range `1-4`, of two processors a job. -/
def oneRange : Submission where
  numProcessors := 2
  maxNumProcessors := 2
  idxList := some ⟨⟨1, 4, 1, by decide, by decide, by decide, by decide⟩, []⟩
  pos := by decide
  le := by decide

end Volclava
