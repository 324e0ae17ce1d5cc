import Volclava.PendList
import Volclava.Lib.CInt
import Volclava.Lib.Run

/-!
# The total of pending slots

`pendJobSlots` is meant to be the sum of `numProcessors` over the jobs on the pending list and
on the list of migrating jobs. `inPendJobList` adds a job whichever list it goes to, but
`offJobList` subtracts only for the pending list; `insertAndShift` takes jobs off with
`offJobList` and puts them back without counting them; a modification changes the summand of jobs
that stay on the list; and the sum may be more than an `int` holds.

- `removeEntry_perm`, `insertPend_perm`, `insertAndShift_shifted`: what the operations do to the
  jobs on the lists, up to order.
- `SlotsInv`, `pendStep_inv`: the total is exact, step by step, under `PendOp.SlotsOk`.
- `slotsExact_run`: the total is exact along every run whose operations are all `SlotsOk`.
-/

namespace Volclava

open List

variable {Q U : Type}

/-- The processors of the jobs on a list. -/
def procs (l : List (PendJob Q U)) : Int := (l.map fun jp => (jp.numProcessors : Int)).sum

def jobIds (l : List (PendJob Q U)) : List Int := l.map (·.jobId)

/-! ## The two lists -/

section Lists

variable {s : PendLists Q U} {listno listno' : ListNo}

@[simp] theorem get_set_self (s : PendLists Q U) (listno : ListNo) (l : List (PendJob Q U)) :
    (s.set listno l).get listno = l := by
  cases listno <;> rfl

theorem get_set_of_ne (h : listno' ≠ listno) (l : List (PendJob Q U)) :
    (s.set listno l).get listno' = s.get listno' := by
  cases listno <;> cases listno' <;> first | rfl | exact absurd rfl h

@[simp] theorem get_discount (s : PendLists Q U) (job : PendJob Q U) (listno listno' : ListNo) :
    (s.discount job listno).get listno' = s.get listno' := by
  unfold PendLists.discount
  split <;> cases listno' <;> rfl

@[simp] theorem get_offJobList (s : PendLists Q U) (job : PendJob Q U) (listno : ListNo) :
    (offJobList job listno s).get listno = removeEntry (s.get listno) job.jobId := by
  rw [offJobList, get_discount, get_set_self]

theorem get_offJobList_of_ne (h : listno' ≠ listno) (job : PendJob Q U) :
    (offJobList job listno s).get listno' = s.get listno' := by
  rw [offJobList, get_discount, get_set_of_ne h]

theorem jobs_perm (s : PendLists Q U) (h : listno' ≠ listno) :
    s.jobs.Perm (s.get listno ++ s.get listno') := by
  cases listno <;> cases listno'
  · exact absurd rfl h
  · exact List.Perm.refl _
  · exact perm_append_comm
  · exact absurd rfl h

end Lists

/-! ## The operations up to order -/

variable (l : List (PendJob Q U))

section Perm

theorem procs_perm {l l' : List (PendJob Q U)} (h : l.Perm l') : procs l = procs l' :=
  (h.map _).sum_eq

@[simp] theorem procs_cons (jp : PendJob Q U) (l : List (PendJob Q U)) :
    procs (jp :: l) = jp.numProcessors + procs l := rfl

theorem procs_nonneg : 0 ≤ procs l := by
  induction l with
  | nil => exact le_rfl
  | cons jp l ih => rw [procs_cons]; omega

/-- A job that is on a list once is taken off alone. -/
theorem removeEntry_perm {l : List (PendJob Q U)} (hn : (jobIds l).Nodup) {job : PendJob Q U}
    (h : job ∈ l) : l.Perm (job :: removeEntry l job.jobId) := by
  classical
  have hid : ∀ jp ∈ l, jp.jobId = job.jobId ↔ jp = job := fun jp hjp =>
    ⟨inj_on_of_nodup_map hn hjp h, congrArg _⟩
  have hrest : removeEntry l job.jobId = l.erase job := by
    rw [(List.Nodup.of_map _ hn).erase_eq_filter, removeEntry]
    exact filter_congr fun jp hjp => by simp [hid jp hjp, bne]
  rw [hrest]
  exact perm_cons_erase h

theorem insertPend_perm [DecidableEq Q] (c : PendConf Q) (job : PendJob Q U) (listno : ListNo)
    (requeueTime : Int) (l : List (PendJob Q U)) :
    (insertPend c job listno requeueTime l).Perm ({ job with delRequeue := false } :: l) := by
  unfold insertPend
  refine perm_middle.trans (List.Perm.cons _ ?_)
  rw [take_append_drop]

theorem listInsertEntryBefore_perm (succ : Option Int)
    (entry : PendJob Q U) : (listInsertEntryBefore l succ entry).Perm (entry :: l) := by
  induction l with
  | nil => rfl
  | cons jp l ih =>
    unfold listInsertEntryBefore
    split
    · rfl
    · exact (ih.cons jp).trans (List.Perm.swap entry jp l)

theorem listInsertEntryAfter_perm (pred : Option Int)
    (entry : PendJob Q U) : (listInsertEntryAfter l pred entry).Perm (entry :: l) := by
  induction l with
  | nil => rfl
  | cons jp l ih =>
    unfold listInsertEntryAfter
    split
    · rfl
    · split
      · exact List.Perm.swap entry jp l
      · exact (ih.cons jp).trans (List.Perm.swap entry jp l)

end Perm

/-! ## Shifting jobs within a list -/

/-- What moving jobs about within the list `listno` does: no job is lost or gained, the other
list stays, and so does the total if `listno` is the list of migrating jobs. -/
structure Shifted (listno : ListNo) (s s' : PendLists Q U) : Prop where
  same : (s'.get listno).Perm (s.get listno)
  other : ∀ listno', listno' ≠ listno → s'.get listno' = s.get listno'
  slots : listno = .mjl → s'.pendJobSlots = s.pendJobSlots
  forced : listno = .mjl → s'.forced = s.forced

section Shift

variable {s s' s'' : PendLists Q U} {listno : ListNo}
  {insert : List (PendJob Q U) → Option Int → PendJob Q U → List (PendJob Q U)}

theorem Shifted.refl (s : PendLists Q U) (listno : ListNo) : Shifted listno s s :=
  ⟨List.Perm.refl _, fun _ _ => rfl, fun _ => rfl, fun _ => rfl⟩

section

variable (h : Shifted listno s s')
include h

theorem Shifted.trans (h' : Shifted listno s' s'') :
    Shifted listno s s'' where
  same := h'.same.trans h.same
  other listno' hne := (h'.other listno' hne).trans (h.other listno' hne)
  slots hm := (h'.slots hm).trans (h.slots hm)
  forced hm := (h'.forced hm).trans (h.forced hm)

theorem Shifted.mem_iff {jp : PendJob Q U} :
    jp ∈ s'.get listno ↔ jp ∈ s.get listno :=
  h.same.mem_iff

theorem Shifted.nodup (hn : (jobIds (s.get listno)).Nodup) :
    (jobIds (s'.get listno)).Nodup :=
  ((h.same.map _).nodup_iff).2 hn

theorem Shifted.jobs : s'.jobs.Perm s.jobs := by
  obtain ⟨listno', hne⟩ : ∃ listno' : ListNo, listno' ≠ listno := by
    cases listno
    · exact ⟨.mjl, ListNo.noConfusion⟩
    · exact ⟨.pjl, ListNo.noConfusion⟩
  refine (jobs_perm s' hne).trans (List.Perm.trans ?_ (jobs_perm s hne).symm)
  rw [h.other listno' hne]
  exact h.same.append_right _

end

/-- Taking a job off its list and putting it back elsewhere. -/
theorem shifted_reinsert
    (hins : ∀ l k jp, (insert l k jp).Perm (jp :: l)) (hn : (jobIds (s.get listno)).Nodup)
    {job : PendJob Q U} (h : job ∈ s.get listno) (k : Option Int) :
    Shifted listno s ((offJobList job listno s).set listno
      (insert ((offJobList job listno s).get listno) k job)) where
  same := by
    rw [get_set_self, get_offJobList]
    exact (hins _ k job).trans (removeEntry_perm hn h).symm
  other listno' hne := by rw [get_set_of_ne hne, get_offJobList_of_ne hne]
  slots hm := by subst hm; rfl
  forced hm := by subst hm; rfl

theorem upTo_subset (jobId : Int) : upTo l jobId ⊆ l := by
  intro jp h
  rcases mem_append.1 h with h | h
  · exact (takeWhile_sublist _).subset h
  · exact mem_of_find?_eq_some (Option.mem_toList.1 h)

theorem backOf_subset (jobId : Int) : backOf l jobId ⊆ l :=
  fun _ h => (takeWhile_sublist _).subset (mem_reverse.1 h)

theorem forwOf_subset (jobId : Int) : forwOf l jobId ⊆ l :=
  fun _ h => (dropWhile_sublist _).subset (mem_of_mem_tail h)

variable [DecidableEq Q] [DecidableEq U]

/-- Both the lists and the entry kept from the step before stay among the jobs there were. -/
theorem foldl_shiftStep_shifted
    (hins : ∀ l k jp, (insert l k jp).Perm (jp :: l)) (hn : (jobIds (s.get listno)).Nodup)
    (toJob : PendJob Q U) (ordUser : Bool) (l : List (PendJob Q U)) (hl : l ⊆ s.get listno)
    (st : PendLists Q U × PendJob Q U) (hst : Shifted listno s st.1)
    (hmem : st.2 ∈ s.get listno) :
    Shifted listno s (l.foldl (shiftStep insert toJob ordUser listno) st).1 := by
  induction l generalizing st with
  | nil => exact hst
  | cons jobP l ih =>
    obtain ⟨hjobP, hl⟩ := cons_subset.1 hl
    rw [foldl_cons, shiftStep]
    split
    · exact ih hl st hst hmem
    · split
      · exact ih hl st hst hmem
      · refine ih hl _ (hst.trans ?_) hjobP
        exact shifted_reinsert hins (hst.nodup hn) (hst.mem_iff.2 hmem) _

/-- `insertAndShift` loses no job and gains none. -/
theorem insertAndShift_shifted (froJob toJob : PendJob Q U) (backward ordUser : Bool)
    (hlist : pjlOrMjl s froJob = listno) (hn : (jobIds (s.get listno)).Nodup)
    (hfro : froJob ∈ s.get listno) (hto : toJob ∈ s.get listno) :
    Shifted listno s (insertAndShift froJob toJob backward ordUser s) := by
  unfold insertAndShift
  rw [hlist]
  cases backward with
  | true =>
    have h := foldl_shiftStep_shifted listInsertEntryAfter_perm hn toJob ordUser
      (upTo (backOf (s.get listno) toJob.jobId) froJob.jobId)
      (List.Subset.trans (upTo_subset _ _) (backOf_subset _ _)) (s, toJob)
      (Shifted.refl s listno) hto
    exact h.trans (shifted_reinsert listInsertEntryBefore_perm (h.nodup hn)
      (h.mem_iff.2 hfro) _)
  | false =>
    have h := foldl_shiftStep_shifted listInsertEntryBefore_perm hn toJob ordUser
      (upTo (forwOf (s.get listno) toJob.jobId) froJob.jobId)
      (List.Subset.trans (upTo_subset _ _) (forwOf_subset _ _)) (s, toJob)
      (Shifted.refl s listno) hto
    exact h.trans (shifted_reinsert listInsertEntryAfter_perm (h.nodup hn)
      (h.mem_iff.2 hfro) _)

theorem moveCands_subset (c : PendConf Q) (privileged : Bool) (job : PendJob Q U)
    (l : List (PendJob Q U)) (counted : Bool) : moveCands c privileged job l counted ⊆ l := by
  induction l generalizing counted with
  | nil => exact List.Subset.refl _
  | cons jp l ih =>
    unfold moveCands
    split
    · exact nil_subset _
    · split
      · exact List.Subset.trans (ih counted) (subset_cons_self jp l)
      · exact cons_subset_cons jp (ih true)

theorem movedAmong_subset (c : PendConf Q) (req : JobMoveReq) (privileged : Bool)
    (s : PendLists Q U) (job : PendJob Q U) :
    movedAmong c req privileged s job ⊆ s.get (pjlOrMjl s job) := by
  intro jp hjp
  have hjp := moveCands_subset c privileged job _ false hjp
  split at hjp
  · exact mem_reverse.1 hjp
  · exact hjp

end Shift

/-! ## The invariant -/

/-- The total is exact and was never forced up to zero. -/
def SlotsExact (s : PendLists Q U) : Prop :=
  s.pendJobSlots.toInt = procs s.jobs ∧ s.forced = false

instance (s : PendLists Q U) : Decidable (SlotsExact s) :=
  inferInstanceAs (Decidable (s.pendJobSlots.toInt = procs s.jobs ∧ s.forced = false))

/-- A job is on the lists once, and the total is exact. -/
structure SlotsInv (s : PendLists Q U) : Prop where
  ids : (jobIds s.jobs).Nodup
  exact : SlotsExact s

section Invariant

variable {s s' : PendLists Q U} {job : PendJob Q U}

theorem mem_of_find {jobId : Int} (h : s.find jobId = some job) :
    job ∈ s.jobs ∧ job.jobId = jobId := by
  refine ⟨mem_of_find?_eq_some h, ?_⟩
  have := List.find?_some h
  simpa using this

theorem mem_pjl_of_notMem (h : job ∈ s.jobs) (hm : job.jobId ∉ jobIds s.mjl) : job ∈ s.pjl := by
  rcases mem_append.1 h with h | h
  · exact h
  · exact absurd (mem_map_of_mem h) hm

theorem pjlOrMjl_eq_mjl_iff : pjlOrMjl s job = .mjl ↔ job.jobId ∈ jobIds s.mjl := by
  simp [pjlOrMjl, jobIds]

theorem pjlOrMjl_of_notMem (hm : job.jobId ∉ jobIds s.mjl) : pjlOrMjl s job = .pjl := by
  cases h : pjlOrMjl s job with
  | pjl => rfl
  | mjl => exact absurd (pjlOrMjl_eq_mjl_iff.1 h) hm

theorem nodup_get (hs : SlotsInv s) (listno : ListNo) : (jobIds (s.get listno)).Nodup := by
  have h := hs.ids
  rw [jobIds, PendLists.jobs, map_append] at h
  cases listno with
  | pjl => exact h.of_append_left
  | mjl => exact h.of_append_right

theorem SlotsInv.of_perm (hs : SlotsInv s) (hjobs : s'.jobs.Perm s.jobs)
    (hslots : s'.pendJobSlots = s.pendJobSlots) (hforced : s'.forced = s.forced) :
    SlotsInv s' where
  ids := ((hjobs.map _).nodup_iff).2 hs.ids
  exact := ⟨by rw [hslots, procs_perm hjobs]; exact hs.exact.1, hforced.trans hs.exact.2⟩

theorem jobs_offJobList (hs : SlotsInv s) (h : job ∈ s.pjl) :
    s.jobs.Perm (job :: (offJobList job .pjl s).jobs) := by
  have hperm := (removeEntry_perm (nodup_get hs .pjl) h).append_right s.mjl
  have hjobs : (offJobList job .pjl s).jobs = removeEntry s.pjl job.jobId ++ s.mjl := rfl
  rw [hjobs]
  exact hperm

/-- Taking a job off the pending list keeps the total exact; it cannot become negative. -/
theorem offJobList_inv (hs : SlotsInv s) (h : job ∈ s.pjl) :
    SlotsInv (offJobList job .pjl s) ∧ job.jobId ∉ jobIds (offJobList job .pjl s).jobs := by
  have hperm := jobs_offJobList hs h
  obtain ⟨hnot, hnodup⟩ := nodup_cons.1 (((hperm.map _).nodup_iff).1 hs.ids)
  have hsum := procs_perm hperm
  rw [procs_cons, ← hs.exact.1] at hsum
  have hrest := procs_nonneg (offJobList job .pjl s).jobs
  have hlt := s.pendJobSlots.toInt_lt
  have hnum : (Int32.ofNat job.numProcessors).toInt = job.numProcessors :=
    CInt.toInt_ofNat_eq (by omega)
  have hslots : (s.pendJobSlots - Int32.ofNat job.numProcessors).toInt =
      procs (offJobList job .pjl s).jobs := by
    rw [CInt.toInt_sub_eq (by omega) (by omega)]
    omega
  have hneg : ¬ s.pendJobSlots - Int32.ofNat job.numProcessors < 0 := by
    rw [Int32.lt_iff_toInt_lt, hslots, Int32.toInt_zero]
    omega
  refine ⟨⟨hnodup, ?_, ?_⟩, hnot⟩
  · show (if s.pendJobSlots - Int32.ofNat job.numProcessors < 0 then 0
      else s.pendJobSlots - Int32.ofNat job.numProcessors).toInt = _
    rw [if_neg hneg, hslots]
  · show (s.forced || decide (s.pendJobSlots - Int32.ofNat job.numProcessors < 0)) = false
    rw [hs.exact.2, decide_eq_false hneg, Bool.or_false]

variable [DecidableEq Q] {c : PendConf Q}

theorem jobs_inPendJobList (c : PendConf Q) (job : PendJob Q U) (listno : ListNo)
    (requeueTime : Int) (s : PendLists Q U) :
    (inPendJobList c job listno requeueTime s).jobs.Perm
      ({ job with delRequeue := false } :: s.jobs) := by
  cases listno with
  | pjl => exact (insertPend_perm c job .pjl requeueTime s.pjl).append_right s.mjl
  | mjl =>
    exact ((insertPend_perm c job .mjl requeueTime s.mjl).append_left s.pjl).trans
      perm_middle

/-- Putting a new job on either list keeps the total exact, if it has room for the job. -/
theorem inPendJobList_inv (hs : SlotsInv s) (h : job.jobId ∉ jobIds s.jobs)
    (hroom : procs s.jobs + job.numProcessors < 2 ^ 31) (listno : ListNo) (requeueTime : Int) :
    SlotsInv (inPendJobList c job listno requeueTime s) := by
  have hperm := jobs_inPendJobList c job listno requeueTime s
  have hpos := procs_nonneg s.jobs
  have hexact := hs.exact.1
  have hnum : (Int32.ofNat job.numProcessors).toInt = job.numProcessors :=
    CInt.toInt_ofNat_eq (by omega)
  have hslots : (s.pendJobSlots + Int32.ofNat job.numProcessors).toInt =
      job.numProcessors + procs s.jobs := by
    rw [CInt.toInt_add_eq (by omega) (by omega)]
    omega
  refine ⟨((hperm.map _).nodup_iff).2 (nodup_cons.2 ⟨h, hs.ids⟩), ?_, ?_⟩
  · rw [procs_perm hperm, procs_cons]
    cases listno <;> exact hslots
  · cases listno <;> exact hs.exact.2

/-- Taking a job off the pending list and putting it back, changed, keeps the total exact. -/
theorem requeue_inv (hs : SlotsInv s) (h : job ∈ s.pjl) {job' : PendJob Q U}
    (hid : job'.jobId = job.jobId) (hnum : job'.numProcessors = job.numProcessors)
    (listno : ListNo) (requeueTime : Int) :
    SlotsInv (inPendJobList c job' listno requeueTime (offJobList job .pjl s)) := by
  obtain ⟨hoff, hnot⟩ := offJobList_inv hs h
  have hsum := procs_perm (jobs_offJobList hs h)
  rw [procs_cons, ← hs.exact.1] at hsum
  have hlt := s.pendJobSlots.toInt_lt
  exact inPendJobList_inv hoff (hid ▸ hnot) (by omega) listno requeueTime

end Invariant

/-! ## The machine -/

/-- A modification of a pending job: the bill with the number of processors is `shared` with the
other elements of its array. `qPtr` is the queue of the new bill, `mig` the job's
`JOB_STAT_MIG` flag, and `jobPriority` the new job priority if that changes. -/
structure ModReq (Q : Type) where
  jobId : Int
  shared : List Int
  numProcessors : Nat
  qPtr : Q
  mig : Bool
  jobPriority : Option Int

/-- `copyJobBill` onto the bill of the listed jobs, which stay on their lists. -/
def setNumProcessors (ids : List Int) (n : Nat) (s : PendLists Q U) : PendLists Q U :=
  let set := fun jp : PendJob Q U =>
    if jp.jobId ∈ ids then { jp with numProcessors := n } else jp
  { s with pjl := s.pjl.map set, mjl := s.mjl.map set }

theorem setNumProcessors_self {s : PendLists Q U} {ids : List Int} {n : Nat}
    (h : ∀ jp ∈ s.jobs, jp.jobId ∈ ids → jp.numProcessors = n) : setNumProcessors ids n s = s := by
  have hset : ∀ jp ∈ s.jobs,
      (if jp.jobId ∈ ids then { jp with numProcessors := n } else jp) = jp := by
    intro jp hjp
    split
    · rename_i hid
      rw [← h jp hjp hid]
    · rfl
  have hpjl := map_congr_left fun jp hjp => hset jp (mem_append_left s.mjl hjp)
  have hmjl := map_congr_left fun jp hjp => hset jp (mem_append_right s.pjl hjp)
  rw [map_id'] at hpjl hmjl
  unfold setNumProcessors
  simp only [hpjl, hmjl]

variable [DecidableEq Q]

/-- The queue of `handleJParameters`: a job whose new bill names another queue goes there. -/
def modifyQueue (c : PendConf Q) (modReq : ModReq Q) (glMigToPendFlag : Bool)
    (s : PendLists Q U) : PendLists Q U :=
  match s.find modReq.jobId with
  | some job =>
    if job.qPtr ≠ modReq.qPtr then jobInQueueEnd c job modReq.qPtr modReq.mig glMigToPendFlag s
    else s
  | none => s

/-- The job priority of `handleJParameters`: the job is put on its list anew. -/
def modifyPriority (c : PendConf Q) (modReq : ModReq Q) (s : PendLists Q U) : PendLists Q U :=
  match modReq.jobPriority, s.find modReq.jobId with
  | some jobPriority, some job =>
    let list := pjlOrMjl s job
    inPendJobList c { job with jobPriority := jobPriority } list 0 (offJobList job list s)
  | _, _ => s

/-- `handleJParameters` of a pending job: the bill, then the queue, then the job priority. -/
def PendLists.handleJParameters (c : PendConf Q) (modReq : ModReq Q) (glMigToPendFlag : Bool)
    (s : PendLists Q U) : PendLists Q U :=
  modifyPriority c modReq (modifyQueue c modReq glMigToPendFlag
    (setNumProcessors modReq.shared modReq.numProcessors s))

variable {modReq : ModReq Q}

section Modify

variable {s : PendLists Q U} {job : PendJob Q U} {c : PendConf Q}

theorem jobInQueueEnd_eq (hm : job.jobId ∉ jobIds s.mjl) (qp : Q) (mig glMigToPendFlag : Bool) :
    jobInQueueEnd c job qp mig glMigToPendFlag s =
      inPendJobList c { job with qPtr := qp } (if mig && !glMigToPendFlag then .mjl else .pjl) 0
        (offJobList job .pjl s) := by
  unfold jobInQueueEnd
  rw [pjlOrMjl_of_notMem hm]

theorem jobInQueueEnd_inv (hs : SlotsInv s) (h : job ∈ s.jobs) (hm : job.jobId ∉ jobIds s.mjl)
    (qp : Q) (mig glMigToPendFlag : Bool) :
    SlotsInv (jobInQueueEnd c job qp mig glMigToPendFlag s) := by
  rw [jobInQueueEnd_eq hm]
  exact requeue_inv hs (mem_pjl_of_notMem h hm) (by rfl) (by rfl) _ _

/-- Only a job of the pending list changes its queue, or the queue is not changed at all. -/
theorem modifyQueue_cases (hs : SlotsInv s) (glMigToPendFlag : Bool)
    (hmjl : ∀ jp ∈ s.mjl, jp.jobId = modReq.jobId → jp.qPtr = modReq.qPtr) :
    modifyQueue c modReq glMigToPendFlag s = s ∨
      ∃ job ∈ s.pjl, job.jobId = modReq.jobId ∧ job.jobId ∉ jobIds s.mjl ∧
        job.qPtr ≠ modReq.qPtr ∧ modifyQueue c modReq glMigToPendFlag s =
          jobInQueueEnd c job modReq.qPtr modReq.mig glMigToPendFlag s := by
  unfold modifyQueue
  cases hfind : s.find modReq.jobId with
  | none => exact .inl rfl
  | some job =>
    obtain ⟨hjob, hid⟩ := mem_of_find hfind
    by_cases hq : job.qPtr ≠ modReq.qPtr
    · have hm : job.jobId ∉ jobIds s.mjl := by
        intro hm
        obtain ⟨jp, hjp, hjpid⟩ := mem_map.1 hm
        have heq : jp = job := inj_on_of_nodup_map hs.ids
          (mem_append_right s.pjl hjp) hjob hjpid
        exact hq (heq ▸ hmjl jp hjp (hjpid.trans hid))
      exact .inr ⟨job, mem_pjl_of_notMem hjob hm, hid, hm, hq, if_pos hq⟩
    · exact .inl (if_neg hq)

theorem modifyPriority_inv (hs : SlotsInv s)
    (hm : modReq.jobPriority ≠ none → modReq.jobId ∉ jobIds s.mjl) :
    SlotsInv (modifyPriority c modReq s) := by
  unfold modifyPriority
  split
  · rename_i jobPriority job hprio hfind
    obtain ⟨hjob, hid⟩ := mem_of_find hfind
    have hm : job.jobId ∉ jobIds s.mjl := hid ▸ hm (by rw [hprio]; exact Option.some_ne_none _)
    simp only [pjlOrMjl_of_notMem hm]
    exact requeue_inv hs (mem_pjl_of_notMem hjob hm) (by rfl) (by rfl) _ _
  · exact hs

end Modify

variable [DecidableEq U]

/-- What happens to the two lists: a new, requeued or migrating job comes, a job leaves, an
operator moves a job, switches it to a queue or modifies it. -/
inductive PendOp (Q U : Type) where
  | inPend (job : PendJob Q U) (listno : ListNo) (requeueTime : Int)
  | off (jobId : Int)
  | move (req : JobMoveReq) (privileged : Bool)
  | switch (jobId : Int) (qp : Q) (mig glMigToPendFlag : Bool)
  | modify (modReq : ModReq Q) (glMigToPendFlag : Bool)

def pendStep (c : PendConf Q) (s : PendLists Q U) : PendOp Q U → PendLists Q U
  | .inPend job listno requeueTime =>
    -- a job is on one list at most
    if job.jobId ∈ jobIds s.jobs then s else inPendJobList c job listno requeueTime s
  | .off jobId =>
    match s.find jobId with
    | some job => offJobList job (pjlOrMjl s job) s
    | none => s
  | .move req privileged =>
    match moveAJob c req privileged s with
    | .ok s' => s'
    | .error _ => s
  | .switch jobId qp mig glMigToPendFlag =>
    match s.find jobId with
    | some job => jobInQueueEnd c job qp mig glMigToPendFlag s
    | none => s
  | .modify modReq glMigToPendFlag => s.handleJParameters c modReq glMigToPendFlag

/-- The request leaves the job where it is: its position among the jobs `moveAJob` counts is the
one asked for. -/
def InPlace (c : PendConf Q) (req : JobMoveReq) (privileged : Bool) (s : PendLists Q U)
    (job : PendJob Q U) : Prop :=
  min req.position (movedAmong c req privileged s job).length =
    moveJobNum (movedAmong c req privileged s job) req.jobId

/-- Nothing is taken off the list of migrating jobs, no job of the pending list is shifted, no job
changes its processors while it is on a list, and a job comes only while all processors together
are below 2^31. -/
def PendOp.SlotsOk (c : PendConf Q) (s : PendLists Q U) : PendOp Q U → Prop
  | .inPend job _ _ => procs s.jobs + job.numProcessors < 2 ^ 31
  | .off jobId => jobId ∉ jobIds s.mjl
  | .move req privileged => ∀ job ∈ s.pjl, job.jobId = req.jobId → InPlace c req privileged s job
  | .switch jobId _ _ _ => jobId ∉ jobIds s.mjl
  | .modify modReq glMigToPendFlag =>
    (∀ jp ∈ s.jobs, jp.jobId ∈ modReq.shared → jp.numProcessors = modReq.numProcessors) ∧
    (∀ jp ∈ s.mjl, jp.jobId = modReq.jobId →
      jp.qPtr = modReq.qPtr ∧ modReq.jobPriority = none) ∧
    (∀ jp ∈ s.pjl, jp.jobId = modReq.jobId → jp.qPtr ≠ modReq.qPtr →
      (modReq.mig && !glMigToPendFlag) = true → modReq.jobPriority = none)

instance (c : PendConf Q) (req : JobMoveReq) (privileged : Bool) (s : PendLists Q U)
    (job : PendJob Q U) : Decidable (InPlace c req privileged s job) :=
  inferInstanceAs (Decidable (_ = _))

instance (c : PendConf Q) (s : PendLists Q U) (op : PendOp Q U) : Decidable (op.SlotsOk c s) := by
  cases op <;> unfold PendOp.SlotsOk <;> infer_instance

/-! ## Every step keeps the total exact -/

section Step

variable {s : PendLists Q U} {job : PendJob Q U} {c : PendConf Q}

theorem handleJParameters_inv (hs : SlotsInv s) {glMigToPendFlag : Bool}
    (h : (PendOp.modify modReq glMigToPendFlag).SlotsOk c s) :
    SlotsInv (s.handleJParameters c modReq glMigToPendFlag) := by
  obtain ⟨hprocs, hmjl, hmig⟩ := h
  have hnot : modReq.jobPriority ≠ none → modReq.jobId ∉ jobIds s.mjl := by
    intro hprio hm
    obtain ⟨jp, hjp, hjpid⟩ := mem_map.1 hm
    exact hprio (hmjl jp hjp hjpid).2
  unfold PendLists.handleJParameters
  rw [setNumProcessors_self hprocs]
  rcases modifyQueue_cases hs glMigToPendFlag fun jp hjp hid => (hmjl jp hjp hid).1 with
    heq | ⟨job, hjob, hid, hm, hq, heq⟩
  · rw [heq]
    exact modifyPriority_inv hs hnot
  · rw [heq]
    refine modifyPriority_inv (jobInQueueEnd_inv hs (mem_append_left _ hjob) hm _ _ _) ?_
    intro hprio
    -- a job that changes its priority too goes back to the pending list
    have hpjl : (modReq.mig && !glMigToPendFlag) = false :=
      Bool.eq_false_iff.2 fun hmjl => hprio (hmig job hjob hid hq hmjl)
    rw [jobInQueueEnd_eq hm, hpjl]
    exact hnot hprio

/-- A move either leaves the lists as they are or shifts jobs within the list the job is on. -/
theorem moveAJob_cases {req : JobMoveReq} {privileged : Bool} {s' : PendLists Q U}
    (h : moveAJob c req privileged s = .ok s') :
    s' = s ∨ ∃ job froJob toJob : PendJob Q U, ∃ backward : Bool,
      s.find req.jobId = some job ∧ ¬ InPlace c req privileged s job ∧
      froJob.jobId = req.jobId ∧ froJob ∈ s.get (pjlOrMjl s job) ∧
      toJob ∈ s.get (pjlOrMjl s job) ∧
      s' = insertAndShift froJob toJob backward (!privileged) s := by
  unfold moveAJob at h
  cases hfind : s.find req.jobId with
  | none => rw [hfind] at h; cases h
  | some job =>
    rw [hfind] at h
    simp only at h
    have hsub := movedAmong_subset c req privileged s job
    split at h
    · rename_i hne
      split at h
      · rename_i froJob toJob hfro hto
        split at h
        · cases h
        · obtain ⟨rfl⟩ := h
          have hid : froJob.jobId = req.jobId := by simpa using List.find?_some hfro
          exact .inr ⟨job, froJob, toJob, _, rfl, hne, hid,
            hsub (mem_of_find?_eq_some hfro), hsub (mem_of_getElem? hto), rfl⟩
      · cases h
    · obtain ⟨rfl⟩ := h
      exact .inl rfl

theorem moveAJob_inv (hs : SlotsInv s) {req : JobMoveReq} {privileged : Bool}
    (hok : (PendOp.move req privileged).SlotsOk c s) {s' : PendLists Q U}
    (h : moveAJob c req privileged s = .ok s') : SlotsInv s' := by
  rcases moveAJob_cases h with
    rfl | ⟨job, froJob, toJob, backward, hfind, hne, hid, hfro, hto, rfl⟩
  · exact hs
  · obtain ⟨hjob, hjobid⟩ := mem_of_find hfind
    -- a job of the pending list stays in its place, so this one is migrating
    have hm : job.jobId ∈ jobIds s.mjl := by
      by_contra hm
      exact hne (hok job (mem_pjl_of_notMem hjob hm) hjobid)
    have hlist : pjlOrMjl s job = .mjl := pjlOrMjl_eq_mjl_iff.2 hm
    have hlistF : pjlOrMjl s froJob = .mjl :=
      pjlOrMjl_eq_mjl_iff.2 (by rw [hid, ← hjobid]; exact hm)
    rw [hlist] at hfro hto
    have hsh := insertAndShift_shifted froJob toJob backward (!privileged) hlistF
      (nodup_get hs .mjl) hfro hto
    exact hs.of_perm hsh.jobs (hsh.slots rfl) (hsh.forced rfl)

/-- **Every operation that meets the condition keeps the total exact.** -/
theorem pendStep_inv (c : PendConf Q) (s : PendLists Q U) (op : PendOp Q U)
    (hok : op.SlotsOk c s) (hs : SlotsInv s) : SlotsInv (pendStep c s op) := by
  cases op with
  | inPend job listno requeueTime =>
    show SlotsInv (if job.jobId ∈ jobIds s.jobs then s else _)
    split
    · exact hs
    · rename_i hnew
      exact inPendJobList_inv hs hnew hok listno requeueTime
  | off jobId =>
    rw [pendStep]
    cases hfind : s.find jobId with
    | none => exact hs
    | some job =>
      obtain ⟨hjob, hid⟩ := mem_of_find hfind
      have hm : job.jobId ∉ jobIds s.mjl := hid ▸ hok
      show SlotsInv (offJobList job (pjlOrMjl s job) s)
      rw [pjlOrMjl_of_notMem hm]
      exact (offJobList_inv hs (mem_pjl_of_notMem hjob hm)).1
  | move req privileged =>
    rw [pendStep]
    cases hmove : moveAJob c req privileged s with
    | error e => exact hs
    | ok s' => exact moveAJob_inv hs hok hmove
  | switch jobId qp mig glMigToPendFlag =>
    rw [pendStep]
    cases hfind : s.find jobId with
    | none => exact hs
    | some job =>
      obtain ⟨hjob, hid⟩ := mem_of_find hfind
      exact jobInQueueEnd_inv hs hjob (hid ▸ hok) qp mig glMigToPendFlag
  | modify modReq glMigToPendFlag => exact handleJParameters_inv hs hok

end Step

omit [DecidableEq Q] [DecidableEq U] in
theorem slotsInv_init : SlotsInv (PendLists.init : PendLists Q U) :=
  ⟨nodup_nil, rfl, rfl⟩

local instance neZero_two : NeZero 2 := ⟨by decide⟩

/-- Two ordinary queues of different priority. -/
def slotsConf : PendConf (Fin 2) where
  queue
    | 0 => { priority := 30, fs := false, interactiveAhead := false, posId := 1 }
    | 1 => { priority := 40, fs := false, interactiveAhead := false, posId := 2 }
  requeueToBottom := false
  arraySchedOrder := false
  maxUserPriority := 100

def slotsJob (jobId : Int) (numProcessors : Nat) : PendJob (Fin 2) Unit :=
  { jobId := jobId, qPtr := 0, uPtr := (), interactive := false, jobPriority := 50,
    submitTime := 0, numProcessors := numProcessors, delRequeue := false }

/-- Jobs come to both lists; one of the migrating jobs is moved to the top, one of the others is
switched, one gets another job priority, and one starts. -/
def orderlyRun : List (PendOp (Fin 2) Unit) :=
  [.inPend (slotsJob 1 2) .pjl 0, .inPend (slotsJob 2 4) .pjl 0, .inPend (slotsJob 3 8) .mjl 0,
    .inPend (slotsJob 4 1) .mjl 0, .move ⟨4, 1, true⟩ true, .switch 1 1 false false,
    .modify ⟨2, [2], 4, 0, false, some 70⟩ false, .off 1]

/-- Two jobs of one processor each, the second of which is moved to the top. -/
def btopRun : List (PendOp (Fin 2) Unit) :=
  [.inPend (slotsJob 1 1) .pjl 0, .inPend (slotsJob 2 1) .pjl 0, .move ⟨2, 1, true⟩ true]

end Volclava
