import Volclava.Lib.Run
import Volclava.Lib.Contiguous

/-!
# The pending job lists

mbatchd keeps pending jobs on two doubly linked lists, the pending list `PJL` and the list of
migrating jobs `MJL` (`mbd.job.c`). A list is given here in `forw` order, so the scheduler,
which starts at `back`, reads it from the end.

- `inPendJobList`: insert a job at its place in the order of queues and jobs.
- `moveAJob`, `insertAndShift`: `btop` and `bbot`.
- `jobInQueueEnd`: a pending job changes queue.

Besides its place on a list a job is known by what these functions read of it.
-/

namespace Volclava

/-- What `inPendJobList` reads of a queue. -/
structure QData where
  priority : Int
  /-- `Q_ATTRIB_FS` -/
  fs : Bool
  /-- `Q_ATTRIB_ENQUE_INTERACTIVE_AHEAD` -/
  interactiveAhead : Bool
  posId : Int
  deriving DecidableEq, Repr

/-- A pending job. -/
structure PendJob (Q U : Type) where
  jobId : Int
  qPtr : Q
  uPtr : U
  /-- `SUB_INTERACTIVE` -/
  interactive : Bool
  jobPriority : Int
  submitTime : Int
  numProcessors : Nat
  /-- `DEL_ACTION_REQUEUE` -/
  delRequeue : Bool
  deriving DecidableEq, Repr

/-- The configuration: the queues, and the parameters of `lsb.params` and `lsf.conf`. -/
structure PendConf (Q : Type) where
  queue : Q → QData
  requeueToBottom : Bool
  arraySchedOrder : Bool
  maxUserPriority : Int

inductive ListNo where
  | pjl | mjl
  deriving DecidableEq, Repr

/-- `LSB_ARRAY_IDX` -/
def arrayIdx (jobId : Int) : Nat :=
  if jobId = -1 then 0 else ((jobId % 2 ^ 64).toNat >>> 32) &&& 0xFFFF

variable {Q U : Type} [DecidableEq Q]

/-! ## Segments -/

/-- `jobsOnSameSegment`, by the queues of the two jobs. -/
def onSameSegment (queue : Q → QData) (q1 q2 : Q) : Bool :=
  if q2 = q1 then true
  else if (queue q2).fs || (queue q1).fs then false
  else (queue q2).priority == (queue q1).priority

def jobsOnSameSegment (queue : Q → QData) (j1 j2 : PendJob Q U) : Bool :=
  onSameSegment queue j1.qPtr j2.qPtr

theorem onSameSegment_equiv (queue : Q → QData) :
    Equivalence fun q1 q2 => onSameSegment queue q1 q2 = true := by
  refine ⟨fun q => by simp [onSameSegment], fun {a b} h => ?_, fun {a b c} h₁ h₂ => ?_⟩
  · unfold onSameSegment at h ⊢
    split_ifs at h ⊢ <;> simp_all
  · unfold onSameSegment at h₁ h₂ ⊢
    split_ifs at h₁ h₂ ⊢ <;> simp_all

variable {queue : Q → QData}

theorem priority_of_onSameSegment {q1 q2 : Q}
    (h : onSameSegment queue q1 q2 = true) : (queue q1).priority = (queue q2).priority := by
  unfold onSameSegment at h
  split_ifs at h <;> simp_all

theorem not_onSameSegment_symm {q1 q2 : Q}
    (h : onSameSegment queue q1 q2 = false) : onSameSegment queue q2 q1 = false := by
  cases h' : onSameSegment queue q2 q1 with
  | false => rfl
  | true => rw [(onSameSegment_equiv queue).symm h'] at h; cases h

theorem not_onSameSegment {q1 q2 q3 : Q}
    (h12 : onSameSegment queue q1 q2 = true) (h13 : onSameSegment queue q1 q3 = false) :
    onSameSegment queue q2 q3 = false := by
  cases h23 : onSameSegment queue q2 q3 with
  | false => rfl
  | true => rw [(onSameSegment_equiv queue).trans h12 h23] at h13; cases h13

/-- Two queues of one priority are on different segments only if one has a fairshare policy. -/
theorem fs_of_not_onSameSegment {q1 q2 : Q}
    (hp : (queue q1).priority = (queue q2).priority) (h : onSameSegment queue q1 q2 = false) :
    ((queue q1).fs || (queue q2).fs) = true := by
  unfold onSameSegment at h
  split_ifs at h <;> simp_all [Bool.or_comm]

/-! ## Inserting a job -/

/-- What one step of the loop of `inPendJobList` does at the list entry `jp`. -/
inductive Visit where
  /-- Leave the loop and insert before `jp`. -/
  | stop
  | skip
  /-- `jp` has the same priority but is on another segment, and neither queue is fairshare. -/
  | other
  /-- `jp` is on the segment of the job and stays behind it. -/
  | own
  deriving DecidableEq, Repr

/-- Of two jobs of one segment and priority: whether `job` comes before `jp` in the list. -/
def laterThan (c : PendConf Q) (job jp : PendJob Q U) (compareTime : Int) : Bool :=
  decide (jp.submitTime < compareTime) ||
    (compareTime == jp.submitTime &&
      ((c.arraySchedOrder && arrayIdx job.jobId != 0) || job.jobId == -1 || jp.jobId == -1 ||
        decide (jp.jobId < job.jobId)))

/-- One step of the loop of `inPendJobList`. -/
def visit (c : PendConf Q) (job jp : PendJob Q U) (compareTime : Int) : Visit :=
  let qp := c.queue job.qPtr
  let qp' := c.queue jp.qPtr
  if qp.priority < qp'.priority then .stop
  else if qp.priority = qp'.priority then
    if !jobsOnSameSegment c.queue job jp then
      if qp.fs || qp'.fs then
        if qp'.posId < qp.posId then .stop else .skip
      else .other
    else if qp.interactiveAhead && (job.interactive && !jp.interactive) then .skip
    else if job.jobPriority < jp.jobPriority then .stop
    else if job.jobPriority = jp.jobPriority ∧ laterThan c job jp compareTime = true then .stop
    else .own
  else .skip

/-- What becomes of `lastJob` at an entry of another segment: entry number `i`, followed by
`next`. -/
def lastJobAfter (c : PendConf Q) (job jp : PendJob Q U) (next : Option (PendJob Q U)) (i : Nat)
    (lastJob : Option Nat) : Option Nat :=
  let lastJob :=
    if lastJob.isNone && decide (jp.submitTime < job.submitTime) then some i
    else if lastJob.isNone && job.submitTime == jp.submitTime &&
      (job.jobId == -1 || jp.jobId == -1 || decide (jp.jobId < job.jobId)) then some i
    else lastJob
  match next with
  | some jp' => if jobsOnSameSegment c.queue jp' job then none else lastJob
  | none => lastJob

/-- The loop of `inPendJobList` from entry number `i` on: the number of the entry to insert
before, and `lastJob`. -/
def scan (c : PendConf Q) (job : PendJob Q U) (compareTime : Int) :
    List (PendJob Q U) → Nat → Option Nat → Nat × Option Nat
  | [], i, lastJob => (i, lastJob)
  | jp :: rest, i, lastJob =>
    match visit c job jp compareTime with
    | .stop => (i, lastJob)
    | .skip => scan c job compareTime rest (i + 1) lastJob
    | .other => scan c job compareTime rest (i + 1) (lastJobAfter c job jp rest.head? i lastJob)
    | .own =>
      if rest.head?.all (jobsOnSameSegment c.queue job) then
        scan c job compareTime rest (i + 1) lastJob
      else (i + 1, lastJob)

/-- The first entry of the segment run that entry number `k` is in. -/
def segmentStart (queue : Q → QData) (l : List (PendJob Q U)) : Nat → Nat
  | 0 => 0
  | k + 1 =>
    match l[k + 1]?, l[k]? with
    | some j1, some j2 => if jobsOnSameSegment queue j1 j2 then segmentStart queue l k else k + 1
    | _, _ => k + 1

/-- The number of the entry a job is inserted before. -/
def insertPos (c : PendConf Q) (job : PendJob Q U) (compareTime : Int)
    (l : List (PendJob Q U)) : Nat :=
  match scan c job compareTime l 0 none with
  | (i, none) => i
  | (_, some k) =>
    if l[k]?.all (jobsOnSameSegment c.queue job) then k else segmentStart c.queue l k

/-- The time a job is compared by: a requeued job may have to go to the end of its queue. -/
def compareTime (c : PendConf Q) (job : PendJob Q U) (listno : ListNo) (requeueTime : Int) : Int :=
  if requeueTime ≠ 0 ∧ listno = .pjl ∧ (c.requeueToBottom || job.delRequeue) = true then
    requeueTime
  else job.submitTime

/-- The list after `inPendJobList`. -/
def insertPend (c : PendConf Q) (job : PendJob Q U) (listno : ListNo) (requeueTime : Int)
    (l : List (PendJob Q U)) : List (PendJob Q U) :=
  let i := insertPos c job (compareTime c job listno requeueTime) l
  l.take i ++ { job with delRequeue := false } :: l.drop i

/-- The list after `listRemoveEntry`. -/
def removeEntry (l : List (PendJob Q U)) (jobId : Int) : List (PendJob Q U) :=
  l.filter fun jp => jp.jobId != jobId

/-! ## The two lists and the total of pending slots -/

/-- The pending list, the list of migrating jobs, and `pendJobSlots`. `forced` tells whether
`offJobList` ever had to raise the total to zero. -/
structure PendLists (Q U : Type) where
  pjl : List (PendJob Q U)
  mjl : List (PendJob Q U)
  pendJobSlots : Int32
  forced : Bool

def PendLists.init : PendLists Q U := ⟨[], [], 0, false⟩

def PendLists.get (s : PendLists Q U) : ListNo → List (PendJob Q U)
  | .pjl => s.pjl
  | .mjl => s.mjl

def PendLists.set (s : PendLists Q U) (listno : ListNo) (l : List (PendJob Q U)) : PendLists Q U :=
  match listno with
  | .pjl => { s with pjl := l }
  | .mjl => { s with mjl := l }

/-- The jobs on both lists. -/
def PendLists.jobs (s : PendLists Q U) : List (PendJob Q U) := s.pjl ++ s.mjl

def PendLists.find (s : PendLists Q U) (jobId : Int) : Option (PendJob Q U) :=
  s.jobs.find? fun jp => jp.jobId == jobId

/-- `PJLorMJL` -/
def pjlOrMjl (s : PendLists Q U) (job : PendJob Q U) : ListNo :=
  if s.mjl.any fun jp => jp.jobId == job.jobId then .mjl else .pjl

/-- `inPendJobList`: the job is counted whichever list it is put on. -/
def inPendJobList (c : PendConf Q) (job : PendJob Q U) (listno : ListNo) (requeueTime : Int)
    (s : PendLists Q U) : PendLists Q U :=
  let s := s.set listno (insertPend c job listno requeueTime (s.get listno))
  { s with pendJobSlots := s.pendJobSlots + Int32.ofNat job.numProcessors }

/-- The total after a job has been taken off the list `listno`. -/
def PendLists.discount (s : PendLists Q U) (job : PendJob Q U) (listno : ListNo) : PendLists Q U :=
  if listno = .pjl then
    let slots := s.pendJobSlots - Int32.ofNat job.numProcessors
    { s with pendJobSlots := if slots < 0 then 0 else slots, forced := s.forced || slots < 0 }
  else s

/-- `offJobList`: the job is discounted only when it is taken off the pending list. -/
def offJobList (job : PendJob Q U) (listno : ListNo) (s : PendLists Q U) : PendLists Q U :=
  (s.set listno (removeEntry (s.get listno) job.jobId)).discount job listno

/-! ## Moving a job within its list -/

/-- `listInsertEntryBefore`; the list itself as successor (`none`) puts the entry at the end. -/
def listInsertEntryBefore (l : List (PendJob Q U)) (succ : Option Int) (entry : PendJob Q U) :
    List (PendJob Q U) :=
  match l with
  | [] => [entry]
  | jp :: l =>
    if succ = some jp.jobId then entry :: jp :: l else jp :: listInsertEntryBefore l succ entry

/-- `listInsertEntryAfter` -/
def listInsertEntryAfter (l : List (PendJob Q U)) (pred : Option Int) (entry : PendJob Q U) :
    List (PendJob Q U) :=
  match l with
  | [] => [entry]
  | jp :: l =>
    if pred = none then entry :: jp :: l
    else if pred = some jp.jobId then jp :: entry :: l
    else jp :: listInsertEntryAfter l pred entry

/-- The entries met going `back` from an entry, and those met going `forw`. -/
def backOf (l : List (PendJob Q U)) (jobId : Int) : List (PendJob Q U) :=
  (l.takeWhile fun jp => jp.jobId != jobId).reverse

def forwOf (l : List (PendJob Q U)) (jobId : Int) : List (PendJob Q U) :=
  (l.dropWhile fun jp => jp.jobId != jobId).tail

/-- The entries up to and with the given one. -/
def upTo (l : List (PendJob Q U)) (jobId : Int) : List (PendJob Q U) :=
  (l.takeWhile fun jp => jp.jobId != jobId) ++ (l.find? fun jp => jp.jobId == jobId).toList

variable [DecidableEq U]

/-- One step of a loop of `insertAndShift`: the entry kept from the step before is taken off and
put next to `jobP`, which is kept instead. -/
def shiftStep (insert : List (PendJob Q U) → Option Int → PendJob Q U → List (PendJob Q U))
    (toJob : PendJob Q U) (ordUser : Bool) (listno : ListNo)
    (st : PendLists Q U × PendJob Q U) (jobP : PendJob Q U) : PendLists Q U × PendJob Q U :=
  if jobP.qPtr ≠ toJob.qPtr then st
  else if ordUser = true ∧ jobP.uPtr ≠ toJob.uPtr then st
  else
    let s := offJobList st.2 listno st.1
    (s.set listno (insert (s.get listno) (some jobP.jobId) st.2), jobP)

/-- `insertAndShift`: `froJob` takes the place of `toJob`, and the jobs of the queue between
them each take the place of their neighbour. -/
def insertAndShift (froJob toJob : PendJob Q U) (backward ordUser : Bool) (s : PendLists Q U) :
    PendLists Q U :=
  let listno := pjlOrMjl s froJob
  let l := s.get listno
  if backward then
    let oldJobP := (forwOf l toJob.jobId).head?.map (·.jobId)
    let st := (upTo (backOf l toJob.jobId) froJob.jobId).foldl
      (shiftStep listInsertEntryAfter toJob ordUser listno) (s, toJob)
    let s := offJobList froJob listno st.1
    s.set listno (listInsertEntryBefore (s.get listno) oldJobP froJob)
  else
    let oldJobP := (backOf l toJob.jobId).head?.map (·.jobId)
    let st := (upTo (forwOf l toJob.jobId) froJob.jobId).foldl
      (shiftStep listInsertEntryBefore toJob ordUser listno) (s, toJob)
    let s := offJobList froJob listno st.1
    s.set listno (listInsertEntryAfter (s.get listno) oldJobP froJob)

/-- A request to move a job to a position among the jobs of its queue, counted from the top or
from the bottom. -/
structure JobMoveReq where
  jobId : Int
  position : Int
  toTop : Bool
  deriving DecidableEq, Repr

/-- The entries `moveAJob` counts: the jobs of the queue, of the same job priority if those are
in use, and of the same user unless an administrator asks. -/
def moveCands (c : PendConf Q) (privileged : Bool) (job : PendJob Q U) :
    List (PendJob Q U) → Bool → List (PendJob Q U)
  | [], _ => []
  | jp :: l, counted =>
    if counted = true ∧ (c.queue jp.qPtr).priority ≠ (c.queue job.qPtr).priority then []
    else if jp.qPtr ≠ job.qPtr ∨
      (c.maxUserPriority > 0 ∧ jp.jobPriority ≠ job.jobPriority) ∨
      (privileged = false ∧ jp.uPtr ≠ job.uPtr) then moveCands c privileged job l counted
    else jp :: moveCands c privileged job l true

inductive LsbError where
  | lsbeNoJob | lsbeMbatchd
  deriving DecidableEq, Repr

/-- The position of the job among the entries counted, zero if it is not one of them. -/
def moveJobNum (cands : List (PendJob Q U)) (jobId : Int) : Int :=
  match cands.findIdx? fun jp => jp.jobId == jobId with
  | some i => i + 1
  | none => 0

/-- The entries counted for a request: from the end of the job's list if it goes to the top. -/
def movedAmong (c : PendConf Q) (req : JobMoveReq) (privileged : Bool) (s : PendLists Q U)
    (job : PendJob Q U) : List (PendJob Q U) :=
  let l := s.get (pjlOrMjl s job)
  moveCands c privileged job (if req.toTop then l.reverse else l) false

/-- `moveAJob`. A position beyond the last entry means the last one. -/
def moveAJob (c : PendConf Q) (req : JobMoveReq) (privileged : Bool) (s : PendLists Q U) :
    Except LsbError (PendLists Q U) :=
  match s.find req.jobId with
  | none => .error .lsbeNoJob
  | some job =>
    let cands := movedAmong c req privileged s job
    let position := min req.position cands.length
    let num := moveJobNum cands req.jobId
    if position ≠ num then
      match cands.find? (fun jp => jp.jobId == req.jobId), cands[(position - 1).toNat]? with
      | some froJob, some toJob =>
        if position < 1 then .error .lsbeMbatchd
        else
          let backward := if req.toTop then decide (position < num) else decide (num < position)
          .ok (insertAndShift froJob toJob backward (!privileged) s)
      | _, _ => .error .lsbeMbatchd
    else .ok s

/-- `jobInQueueEnd` of a pending job: `mig` is its `JOB_STAT_MIG` flag. -/
def jobInQueueEnd (c : PendConf Q) (job : PendJob Q U) (qp : Q) (mig glMigToPendFlag : Bool)
    (s : PendLists Q U) : PendLists Q U :=
  let s := offJobList job (pjlOrMjl s job) s
  inPendJobList c { job with qPtr := qp } (if mig && !glMigToPendFlag then .mjl else .pjl) 0 s

end Volclava
