import Volclava.Lib.CInt
import Volclava.Lib.Ledger
import Volclava.Lib.Run
import Volclava.Status

/-!
# Slot accounts

mbatchd keeps running totals of job slots for every queue, user, user group and host
(`mbd.misc.c`). They are never recomputed: each status change, reservation, switch or
modification of a job adds a movement to them, and `addValue` raises a total that would become
negative to zero, after logging it. This module embeds the functions that move the totals and
the operations of `mbd.job.c` and `mbd.policy.c` that call them.

- `updQaccount`, `updUserData`, `updHostData`: post one movement of a job.
- `counterMovement`, `updCounters`: the movement of a status change.
- `resMovement`, `updResCounters`: the movement of a reservation made or given up.
- `changeJobParams`: the bill left for the next execution is taken.
- `jStatusChange`, `handleNewJob`, `updSwitchJob`, ...: the operations.
- `Mbd`, `Op`, `step`: the machine whose runs the invariants are about.

The totals are of type `int`; how their sums are stored is a parameter (`Books.arith`). The account
tables per queue and user or host (`uAcct`, `hAcct`), pending reasons and logging other than the
negative-counter message are left out: no total is computed from them.
-/

namespace Volclava

open Ledger

/-! ## Totals -/

/-- The totals kept for a queue, a user, a user group or a host. -/
inductive SlotCounter where
  | numJobs | numPEND | numRUN | numSSUSP | numUSUSP | numRESERVE
  deriving DecidableEq, Repr

def SlotCounter.all : List SlotCounter :=
  [.numJobs, .numPEND, .numRUN, .numSSUSP, .numUSUSP, .numRESERVE]

abbrev Slots := SlotCounter → Int

/-- The six totals in the order in which the source passes them. -/
def slots (numJobs numPEND numRUN numSSUSP numUSUSP numRESERVE : Int) : Slots
  | .numJobs => numJobs
  | .numPEND => numPEND
  | .numRUN => numRUN
  | .numSSUSP => numSSUSP
  | .numUSUSP => numUSUSP
  | .numRESERVE => numRESERVE

/-- A host has no total of pending slots. -/
def hostSlots (numJobs numRUN numSSUSP numUSUSP numRESERVE : Int) : Slots :=
  slots numJobs 0 numRUN numSSUSP numUSUSP numRESERVE

/-- The totals of a user or user group: the slot totals and the number of pending jobs. -/
inductive UserCounter where
  | numPENDJobs
  | slot (c : SlotCounter)
  deriving DecidableEq, Repr

def UserCounter.all : List UserCounter := .numPENDJobs :: SlotCounter.all.map .slot

/-- The function that posted a movement, as named in the negative-counter message. -/
inductive Poster where
  | updQaccount | updUserData1 | updHostData
  deriving DecidableEq, Repr

/-- What a job asks for: at least one processor, and no more than an `int` holds. -/
structure JobBill (Q : Type) where
  queue : Q
  maxNumProcessors : Nat
  /-- The bill is for one execution (`SUB_MODIFY_ONCE`, the option `-O` of bmod). -/
  modifyOnce : Bool
  /-- The hosts asked for, if any, pass `chkAskedHosts`. -/
  hostsOk : Bool
  pos : 0 < maxNumProcessors
  lt : maxNumProcessors < 2 ^ 31
  deriving DecidableEq

/-- A plain bill for `n` processors, if that is a number a bill can have. -/
def JobBill.plain {Q : Type} (queue : Q) (n : Nat) : JobBill Q :=
  ⟨queue, max 1 (min n (2 ^ 31 - 1)), false, true, by omega, by omega⟩

/-- Whose bill a job has: that of an array, known by a number, which the elements share until they
are localized, or its own. Only a job with its own bill is given one for its next execution. -/
inductive Sharing (Q : Type) where
  | array (a : Nat)
  | own (newSub : Option (JobBill Q))
  deriving DecidableEq

/-- A job. `hPtr` has one entry per slot, so `numHostPtr` is its length. -/
structure JData (Q U H : Type) where
  jStatus : Status
  qPtr : Q
  uPtr : U
  hPtr : List H
  jobBill : JobBill Q
  shared : Sharing Q
  deriving DecidableEq

variable {Q U H : Type}

def JData.num (jp : JData Q U H) : Int := jp.hPtr.length
def JData.numReq (jp : JData Q U H) : Int := jp.jobBill.maxNumProcessors

/-- The bill left for the next execution. -/
def JData.newSub (jp : JData Q U H) : Option (JobBill Q) :=
  match jp.shared with
  | .array _ => none
  | .own newSub => newSub

/-- The user groups a user belongs to (`uData.gPtr`). -/
structure UserGroups (U : Type) where
  gPtr : U → List U
  nodup : ∀ u, (u :: gPtr u).Nodup

/-- Users in no group. -/
def noGroups : UserGroups Unit := ⟨fun _ => [], by simp⟩

/-- What the totals depend on: the user groups, and how an `int` is stored. -/
structure Books (U : Type) extends UserGroups U where
  arith : CInt.Arith

/-- Totals that do not overflow. -/
def UserGroups.exact {U : Type} (g : UserGroups U) : Books U := ⟨g, .exact⟩

/-- The totals. `negative` holds the messages of `addValue`, oldest first. -/
structure Totals (Q U H : Type) where
  queue : Q → Slots
  user : U → UserCounter → Int
  host : H → Slots
  numDispJobs : H → Int
  negative : List Poster

def Totals.zero : Totals Q U H where
  queue := fun _ _ => 0
  user := fun _ _ => 0
  host := fun _ _ => 0
  numDispJobs := fun _ => 0
  negative := []

/-- A job together with the totals: what the functions below work on. -/
structure Cur (Q U H : Type) where
  totals : Totals Q U H
  jp : JData Q U H

/-! ## Posting a movement -/

section Post

variable [DecidableEq Q] [DecidableEq U] [DecidableEq H] (g : Books U)

/-- Add a movement to the totals of the job's queue. -/
def updQaccount (t : Totals Q U H) (jp : JData Q U H) (d : Slots) : Totals Q U H :=
  { t with
    queue := post g.arith.int t.queue [jp.qPtr] d
    negative := t.negative ++
      (floored g.arith.int SlotCounter.all t.queue [jp.qPtr] d).map fun _ => .updQaccount }

/-- The movement of a user's totals: pending jobs are counted by the quotient of the pending
slots moved and the processors of the job. -/
def userMovement (jp : JData Q U H) (d : Slots) : UserCounter → Int
  | .numPENDJobs => (d .numPEND).tdiv jp.numReq
  | .slot c => d c

/-- Add a movement to the totals of the job's user and of the groups the user is in. -/
def updUserData (t : Totals Q U H) (jp : JData Q U H) (d : Slots) : Totals Q U H :=
  { t with
    user := post g.arith.int t.user (jp.uPtr :: g.gPtr jp.uPtr) (userMovement jp d)
    negative := t.negative ++ (floored g.arith.int UserCounter.all t.user
      (jp.uPtr :: g.gPtr jp.uPtr) (userMovement jp d)).map fun _ => .updUserData1 }

/-- Add a movement to the totals of each host of the job, once per slot. -/
def updHostData (t : Totals Q U H) (jp : JData Q U H) (d : Slots) : Totals Q U H :=
  { t with
    host := post g.arith.int t.host jp.hPtr d
    negative := t.negative ++
      (floored g.arith.int SlotCounter.all t.host jp.hPtr d).map fun _ => .updHostData }

/-- A movement of the queue's and user's totals, and one of the hosts' totals where the
source posts it. -/
structure Movement where
  acct : Slots
  host : Option Slots

/-- Post a movement of the job to queue, user and hosts, if there is one. -/
def updAll (c : Cur Q U H) : Option Movement → Cur Q U H
  | none => c
  | some ⟨d, none⟩ => { c with totals := updUserData g (updQaccount g c.totals c.jp d) c.jp d }
  | some ⟨d, some dh⟩ => { c with
      totals := updHostData g (updUserData g (updQaccount g c.totals c.jp d) c.jp d) c.jp dh }

end Post

/-! ## Movements of a status change -/

/-- The movement `updCounters` posts when a job has gone from `oldStatus` to `jStatus`. Where
the source only logs the transition, nothing is posted. -/
def counterMovement (oldStatus jStatus : Status) (num numReq : Int) : Option Movement :=
  if isFinish oldStatus then none
  else if knownStatus jStatus = knownStatus oldStatus then none
  else if isPend jStatus && isPend oldStatus then none
  else if knownStatus jStatus = jobStatRun then
    if has oldStatus jobStatPend || has oldStatus jobStatPsusp then
      some ⟨slots (-numReq + num) (-numReq) num 0 0 0, hostSlots 1 1 0 0 0⟩
    else if has oldStatus jobStatSsusp then
      some ⟨slots 0 0 num (-num) 0 0, hostSlots 0 1 (-1) 0 0⟩
    else if has oldStatus jobStatUsusp then
      some ⟨slots 0 0 num 0 (-num) 0, hostSlots 0 1 0 (-1) 0⟩
    else none
  else if knownStatus jStatus = jobStatSsusp then
    if has oldStatus jobStatRun then
      some ⟨slots 0 0 (-num) num 0 0, hostSlots 0 (-1) 1 0 0⟩
    else if has oldStatus jobStatUsusp then
      some ⟨slots 0 0 0 num (-num) 0, hostSlots 0 0 1 (-1) 0⟩
    else if has oldStatus jobStatPend then
      some ⟨slots (-numReq + num) (-numReq) 0 num 0 0, hostSlots 1 0 1 0 0⟩
    else none
  else if knownStatus jStatus = jobStatUsusp then
    if has oldStatus jobStatRun then
      some ⟨slots 0 0 (-num) 0 num 0, hostSlots 0 (-1) 0 1 0⟩
    else if has oldStatus jobStatSsusp then
      some ⟨slots 0 0 0 (-num) num 0, hostSlots 0 0 (-1) 1 0⟩
    else if has oldStatus jobStatPend then
      some ⟨slots (-numReq + num) (-numReq) 0 0 num 0, hostSlots 1 0 0 1 0⟩
    else none
  else if knownStatus jStatus = jobStatExit ∨ knownStatus jStatus = jobStatDone then
    if has oldStatus jobStatWait then
      some ⟨slots (-num) 0 (-num) 0 0 0, hostSlots (-1) (-1) 0 0 0⟩
    else if has oldStatus jobStatRun then
      some ⟨slots (-num) 0 (-num) 0 0 0, hostSlots (-1) (-1) 0 0 0⟩
    else if has oldStatus jobStatUsusp then
      some ⟨slots (-num) 0 0 0 (-num) 0, hostSlots (-1) 0 0 (-1) 0⟩
    else if has oldStatus jobStatSsusp then
      some ⟨slots (-num) 0 0 (-num) 0 0, hostSlots (-1) 0 (-1) 0 0⟩
    else if isPend oldStatus then
      some ⟨slots (-numReq) (-numReq) 0 0 0 0, none⟩
    else none
  else if knownStatus jStatus = jobStatPend then
    if has oldStatus jobStatRun then
      some ⟨slots (numReq - num) numReq (-num) 0 0 0, hostSlots (-1) (-1) 0 0 0⟩
    else if has oldStatus jobStatUsusp then
      some ⟨slots (-num + numReq) numReq 0 0 (-num) 0, hostSlots (-1) 0 0 (-1) 0⟩
    else if has oldStatus jobStatSsusp then
      some ⟨slots (-num + numReq) numReq 0 (-num) 0 0, hostSlots (-1) 0 (-1) 0 0⟩
    else none
  else
    -- `RUN|WAIT` and every other word: the source logs the transition and moves nothing.
    none

/-- The movement `updResCounters` posts when a job with status `jStatus` takes `newStatus`,
which differs from it in the reservation flag. -/
def resMovement (jStatus newStatus : Status) (num numReq : Int) : Option Movement :=
  let reserved := has jStatus jobStatReserve
  let reserves := has newStatus jobStatReserve
  if !isPend jStatus && !isStart jStatus then none
  else if knownStatus jStatus = jobStatSsusp then
    if !reserved && reserves && isStart newStatus then
      some ⟨slots 0 0 0 (-num) 0 num, hostSlots 0 0 (-1) 0 1⟩
    else if reserved && !reserves && (isStart newStatus || has newStatus jobStatPend) then
      some ⟨slots 0 0 0 num 0 (-num), hostSlots 0 0 1 0 (-1)⟩
    else if reserved && isFinish newStatus then
      some ⟨slots (-num) 0 0 0 0 (-num), hostSlots (-1) 0 0 0 (-1)⟩
    else none
  else if knownStatus jStatus = jobStatUsusp then
    if !reserved && reserves && isStart newStatus then
      some ⟨slots 0 0 0 0 (-num) num, hostSlots 0 0 0 (-1) 1⟩
    else if reserved && !reserves && isStart newStatus then
      some ⟨slots 0 0 0 0 num (-num), hostSlots 0 0 0 1 (-1)⟩
    else if reserved && isFinish newStatus then
      some ⟨slots (-num) 0 0 0 0 (-num), hostSlots (-1) 0 0 0 (-1)⟩
    else none
  else if knownStatus jStatus = jobStatPend ∨ knownStatus jStatus = jobStatPsusp then
    if reserved && !reserves && isPend newStatus then
      some ⟨slots 0 num 0 0 0 (-num), hostSlots (-1) 0 0 0 (-1)⟩
    else if !reserved && reserves && isPend newStatus then
      some ⟨slots 0 (-num) 0 0 0 num, hostSlots 1 0 0 0 1⟩
    else if isPend jStatus && reserved && isFinish newStatus then
      some ⟨slots (-numReq) (-numReq + num) 0 0 0 (-num), hostSlots (-1) 0 0 0 (-1)⟩
    else none
  else none

/-! ## Operations -/

section Operations

/-- Do `f` when the condition holds. -/
def doWhen (b : Bool) (f : Cur Q U H → Cur Q U H) (c : Cur Q U H) : Cur Q U H :=
  if b then f c else c

theorem doWhen_of {P : Cur Q U H → Prop} {b : Bool} {f : Cur Q U H → Cur Q U H} {c : Cur Q U H}
    (h : P c) (hf : b = true → P (f c)) : P (doWhen b f c) := by
  cases b with
  | true => exact hf rfl
  | false => exact h

/-- The job with another status word, queue, host list or bill, or with its own bill and one for
the next execution. -/
def Cur.setStatus (c : Cur Q U H) (s : Status) : Cur Q U H :=
  { c with jp := { c.jp with jStatus := s } }

def Cur.setQueue (c : Cur Q U H) (q : Q) : Cur Q U H := { c with jp := { c.jp with qPtr := q } }

def Cur.setHosts (c : Cur Q U H) (hPtr : List H) : Cur Q U H :=
  { c with jp := { c.jp with hPtr := hPtr } }

def Cur.setBill (c : Cur Q U H) (bill : JobBill Q) : Cur Q U H :=
  { c with jp := { c.jp with jobBill := bill } }

def Cur.setNewSub (c : Cur Q U H) (newSub : Option (JobBill Q)) : Cur Q U H :=
  { c with jp := { c.jp with shared := .own newSub } }

variable [DecidableEq Q] [DecidableEq U] [DecidableEq H] (g : Books U)

/-- Post the movement of a status change; the job carries the new status already. -/
def updCounters (oldStatus : Status) (c : Cur Q U H) : Cur Q U H :=
  updAll g c (counterMovement oldStatus c.jp.jStatus c.jp.num c.jp.numReq)

/-- Post the movement of a reservation; the job still carries the old status. -/
def updResCounters (newStatus : Status) (c : Cur Q U H) : Cur Q U H :=
  updAll g c (resMovement c.jp.jStatus newStatus c.jp.num c.jp.numReq)

/-- `updResCounters` and `jp->jStatus |= JOB_STAT_RESERVE`. -/
def reserve (c : Cur Q U H) : Cur Q U H :=
  (updResCounters g (c.jp.jStatus ||| jobStatReserve) c).setStatus (c.jp.jStatus ||| jobStatReserve)

/-- `updResCounters` and `jp->jStatus &= ~JOB_STAT_RESERVE`. -/
def unreserve (c : Cur Q U H) : Cur Q U H :=
  (updResCounters g (c.jp.jStatus &&& ~~~jobStatReserve) c).setStatus
    (c.jp.jStatus &&& ~~~jobStatReserve)

/-- `allocHosts`: the hosts chosen for the job, one entry per slot. -/
def allocHosts (hPtr : List H) (c : Cur Q U H) : Cur Q U H :=
  { totals := { c.totals with numDispJobs := fun h => c.totals.numDispJobs h + hPtr.count h }
    jp := { c.jp with hPtr := hPtr } }

def deallocHosts (c : Cur Q U H) : Cur Q U H :=
  { totals := { c.totals with
      numDispJobs := fun h => c.totals.numDispJobs h - c.jp.hPtr.count h }
    jp := { c.jp with hPtr := [] } }

/-- Give up the slots reserved for a job. -/
def freeReserveSlots (c : Cur Q U H) : Cur Q U H :=
  doWhen (has c.jp.jStatus jobStatReserve) (fun c => deallocHosts (unreserve g c)) c

/-- Release the reservation of a job that is about to take the state `newStatus`, in the
cases in which the source does so. -/
def resetReserve (newStatus : Status) (c : Cur Q U H) : Cur Q U H :=
  let c := doWhen ((has newStatus jobStatPsusp || isFinish newStatus) &&
    has c.jp.jStatus jobStatPend) (freeReserveSlots g) c
  doWhen (isStart c.jp.jStatus && (has newStatus jobStatRun || isFinish newStatus ||
    has newStatus jobStatUsusp || has newStatus jobStatPend)) (unreserve g) c

/-- The flags a status change clears besides the state bits: a job that starts or finishes is
no longer migrating, a job sent back to pending is no longer in its pre-exec command. -/
def clearFlags (oldStatus newStatus jStatus : Status) : Status :=
  if isStart newStatus && isPend oldStatus then jStatus &&& ~~~jobStatMig
  else if isFinish newStatus then jStatus &&& ~~~jobStatMig
  else if has newStatus jobStatPend && isStart oldStatus then jStatus &&& ~~~jobStatPreExec
  else jStatus

/-- Whether a status change ends with `freeExecParams`, which takes the hosts away. -/
def freeExec (oldStatus newStatus : Status) : Bool :=
  !(isStart newStatus && isPend oldStatus) && !isFinish newStatus &&
    (has newStatus jobStatPend && isStart oldStatus)

/-- The bill left for the next execution is taken, with its queue. One that is for one execution
leaves the old bill for the execution after it. Where the hosts asked for are not accepted, the
source returns before the last two steps. -/
def changeJobParams (c : Cur Q U H) : Cur Q U H :=
  match c.jp.newSub with
  | none => c
  | some newSub =>
    let once := newSub.modifyOnce && !has c.jp.jStatus jobStatModifyOnce
    let oldSub := if once then some c.jp.jobBill else none
    let c := c.setStatus (if once then c.jp.jStatus ||| jobStatModifyOnce
      else c.jp.jStatus &&& ~~~jobStatModifyOnce)
    let c := (c.setNewSub none).setBill newSub
    if newSub.hostsOk then (c.setNewSub oldSub).setQueue newSub.queue else c

/-- Whether a status change ends with `handleFinishJob`. -/
def finishes (oldStatus newStatus : Status) : Bool :=
  !(isStart newStatus && isPend oldStatus) && isFinish newStatus

/-- `jStatusChange`, outside log replay and with `eventTime == LOG_IT`. -/
def jStatusChange (newStatus : Status) (c : Cur Q U H) : Cur Q U H :=
  let oldStatus := c.jp.jStatus
  if knownStatus newStatus = knownStatus oldStatus then c
  else
    let newStatus := maskStatus newStatus
    let c := doWhen (has c.jp.jStatus jobStatReserve) (resetReserve g newStatus) c
    let c := c.setStatus (clearFlags oldStatus newStatus (setState c.jp.jStatus newStatus))
    -- `handleFinishJob`
    let c := doWhen (finishes oldStatus newStatus && c.jp.jobBill.modifyOnce) changeJobParams c
    let c := updCounters g oldStatus c
    doWhen (freeExec oldStatus newStatus) (·.setHosts []) c

/-- The movement with which `updSwitchJob` takes a job out of a queue (`one = -1` and the
counts negated) or puts it into one (`one = 1`). -/
def switchMovement (jStatus : Status) (one num numReq : Int) : Option Movement :=
  let st := maskStatus jStatus
  if st = jobStatPend ∨ st = jobStatPsusp then
    some ⟨slots numReq numReq 0 0 0 0, none⟩
  else if st = jobStatRun ∨ st = jobStatRun ||| jobStatUnkwn then
    some ⟨slots num 0 num 0 0 0, hostSlots one one 0 0 0⟩
  else if st = jobStatSsusp ∨ st = jobStatSsusp ||| jobStatUnkwn then
    some ⟨slots num 0 0 num 0 0, hostSlots one 0 one 0 0⟩
  else if st = jobStatUsusp ∨ st = jobStatUsusp ||| jobStatUnkwn then
    some ⟨slots num 0 0 0 num 0, hostSlots one 0 0 one 0⟩
  else none

/-- Move a job's slots from queue `qfp` to queue `qtp`; a job in no state known to
`switchMovement` stays where it is. -/
def moveSlots (qfp qtp : Q) (oldNumReq : Int) (c : Cur Q U H) : Cur Q U H :=
  match switchMovement c.jp.jStatus (-1) (-c.jp.num) (-oldNumReq),
      switchMovement c.jp.jStatus 1 c.jp.num c.jp.numReq with
  | some mvOut, some mvIn =>
    updAll g ((updAll g (c.setQueue qfp) (some mvOut)).setQueue qtp) (some mvIn)
  | _, _ => c

/-- `updSwitchJob`: a reservation is released in the old queue and taken again in the new. -/
def updSwitchJob (qfp qtp : Q) (oldNumReq : Int) (c : Cur Q U H) : Cur Q U H :=
  if has c.jp.jStatus jobStatReserve then
    reserve g (moveSlots g qfp qtp oldNumReq ((unreserve g (c.setQueue qfp)).setQueue qtp))
  else moveSlots g qfp qtp oldNumReq c

/-- An element of an array gets its own copy of the bill. -/
def localizeJobElement (c : Cur Q U H) : Cur Q U H := c.setNewSub c.jp.newSub

/-- A job moved to the end of a queue. A finished job stays in its own. -/
def Cur.jobInQueueEnd (q : Q) (c : Cur Q U H) : Cur Q U H :=
  doWhen (!isFinish c.jp.jStatus)
    (fun c => (c.setBill { c.jp.jobBill with queue := q }).setQueue q) c

/-- `switchAJob`, once its checks have accepted the switch. The bill of a started job is kept for
its next execution, too. -/
def switchAJob (qtp : Q) (c : Cur Q U H) : Cur Q U H :=
  let c := localizeJobElement c
  if isFinish c.jp.jStatus then c
  else
    let c := doWhen (isPend c.jp.jStatus) (freeReserveSlots g) c
    let c := updSwitchJob g c.jp.qPtr qtp c.jp.numReq (Cur.jobInQueueEnd qtp c)
    c.setNewSub (if isStart c.jp.jStatus then some c.jp.jobBill else none)

/-- What a modification does to a started job: nothing but new resource requirements, a new bill
at once, or a bill for the next execution. The options of bmod and `LSB_MOD_ALL_JOBS` decide. -/
inductive RunMod where
  | resReq | atOnce | next
  deriving DecidableEq

/-- The old bill is kept for the execution after the next. -/
def saveOldParameters (c : Cur Q U H) : Cur Q U H :=
  (c.setStatus (c.jp.jStatus ||| jobStatModifyOnce)).setNewSub (some c.jp.jobBill)

/-- The new bill of a pending or finished job. One that is for one execution (`once`) leaves the
old one behind, and a finished job gets it for its next execution only. -/
def takeBill (bill : JobBill Q) (once : Bool) (c : Cur Q U H) : Cur Q U H :=
  if !c.jp.jobBill.modifyOnce && once then
    if isFinish c.jp.jStatus then c.setNewSub (some bill)
    else (saveOldParameters c).setBill bill
  else c.setBill bill

/-- `handleJParameters`. The source's branch for a whole array is never reached: `modifyJob` calls
the function for the elements. -/
def handleJParameters (bill : JobBill Q) (once : Bool) (run : RunMod) (c : Cur Q U H) : Cur Q U H :=
  if isPend c.jp.jStatus || isFinish c.jp.jStatus then
    let oldMaxCpus := c.jp.numReq
    let c := takeBill bill once c
    if c.jp.qPtr ≠ bill.queue ∨ c.jp.numReq ≠ oldMaxCpus then
      let c := doWhen (isPend c.jp.jStatus) (freeReserveSlots g) c
      updSwitchJob g c.jp.qPtr bill.queue oldMaxCpus
        (doWhen (c.jp.qPtr ≠ bill.queue) (Cur.jobInQueueEnd bill.queue) c)
    else c
  else
    match run with
    | .resReq => c
    | .atOnce => (doWhen once saveOldParameters c).setBill bill
    | .next => c.setNewSub (some bill)

/-- `modifyJob` for one job or element. All elements of an array are localized before when one of
them is started, or when the bill is for one execution. -/
def modifyJob (bill : JobBill Q) (once : Bool) (run : RunMod) (c : Cur Q U H) : Cur Q U H :=
  handleJParameters g bill once run
    (doWhen (once || !(isPend c.jp.jStatus || isFinish c.jp.jStatus)) localizeJobElement c)

/-- A job as it enters the system. -/
def newJData (u : U) (bill : JobBill Q) (shared : Sharing Q) : JData Q U H :=
  { jStatus := jobStatPend, qPtr := bill.queue, uPtr := u, hPtr := [], jobBill := bill,
    shared := shared }

/-- Post the slots of `numJobs` jobs like this one becoming pending. -/
def enterSlots (numJobs : Nat) (c : Cur Q U H) : Cur Q U H :=
  let n := g.arith.int (c.jp.numReq * numJobs)
  updAll g c (some ⟨slots n n 0 0 0 0, none⟩)

/-- `handleNewJob`: a job submitted on hold is suspended at once. -/
def handleNewJob (u : U) (bill : JobBill Q) (hold : Bool) (t : Totals Q U H) : Cur Q U H :=
  doWhen hold (jStatusChange g jobStatPsusp) (enterSlots g 1 ⟨t, newJData u bill (.own none)⟩)

/-- `handleNewJobArray`: all elements, which are alike and share a bill, enter with one movement. -/
def handleNewJobArray (u : U) (bill : JobBill Q) (a numJobs : Nat) (hold : Bool)
    (t : Totals Q U H) : Cur Q U H :=
  doWhen hold (·.setStatus jobStatPsusp) (enterSlots g numJobs ⟨t, newJData u bill (.array a)⟩)

/-- `handleRequeueJob`: a finished job becomes pending again. -/
def handleRequeueJob (psusp : Bool) (c : Cur Q U H) : Cur Q U H :=
  if isFinish c.jp.jStatus then
    let c := changeJobParams c
    enterSlots g 1 ((c.setStatus (if psusp then jobStatPsusp else jobStatPend)).setHosts [])
  else c

/-! ## The machine -/

/-- What can happen to one job. -/
inductive JobOp (Q H : Type) where
  /-- The scheduler chooses hosts for a pending job, or takes them back. -/
  | alloc (hPtr : List H)
  | dealloc
  /-- sbatchd reports a pending job without hosts as started (`statusJob`). -/
  | assumeHost (host : H)
  /-- Slots are reserved for a pending job or for a suspended job to be resumed. -/
  | reserve
  | unreserve
  | statusChange (newStatus : Status)
  | requeue (psusp : Bool)
  | switch (q : Q)
  /-- `modifyJob` localizes the element it is called for, and for an array all of them if one has
  a bill of its own. -/
  | localize
  /-- Flags above the state bits change, the reservation flag excepted. -/
  | flags (on off : Status)
  /-- The execution host of a started job becomes unreachable or comes back. -/
  | unkwn (on : Bool)
  /-- The post-exec command of a finished job ends (`statusJob`). -/
  | postDone (newStatus : Status)

/-- The flags that `JobOp.flags` may change. -/
def freeFlags : Status := ~~~(maskIntJobStat ||| jobStatReserve)

/-- One operation on a job. -/
def jobStep (c : Cur Q U H) : JobOp Q H → Cur Q U H
  | .alloc hPtr =>
    doWhen (isPend c.jp.jStatus && !has c.jp.jStatus jobStatReserve && c.jp.hPtr.isEmpty)
      (allocHosts hPtr) c
  | .dealloc => doWhen (isPend c.jp.jStatus && !has c.jp.jStatus jobStatReserve) deallocHosts c
  | .assumeHost host => doWhen (isPend c.jp.jStatus && c.jp.hPtr.isEmpty) (·.setHosts [host]) c
  | .reserve =>
    doWhen ((isPend c.jp.jStatus || isStart c.jp.jStatus) && !has c.jp.jStatus jobStatReserve)
      (Volclava.reserve g) c
  | .unreserve =>
    if isPend c.jp.jStatus then freeReserveSlots g c
    else doWhen (has c.jp.jStatus jobStatReserve) (Volclava.unreserve g) c
  | .statusChange newStatus => jStatusChange g newStatus c
  | .requeue psusp => handleRequeueJob g psusp c
  | .switch q => switchAJob g q c
  | .localize => localizeJobElement c
  | .flags on off =>
    c.setStatus ((c.jp.jStatus ||| (on &&& freeFlags)) &&& ~~~(off &&& freeFlags))
  | .unkwn on =>
    doWhen (isStart c.jp.jStatus) (·.setStatus (if on then c.jp.jStatus ||| jobStatUnkwn
      else c.jp.jStatus &&& ~~~jobStatUnkwn)) c
  | .postDone newStatus =>
    doWhen (has c.jp.jStatus jobStatDone) (·.setStatus (c.jp.jStatus ||| newStatus)) c

/-- The job table and the totals. A job is known by its index in the table. -/
structure Mbd (Q U H : Type) where
  jobs : List (JData Q U H)
  totals : Totals Q U H

def Mbd.init : Mbd Q U H := ⟨[], .zero⟩

/-- What can happen: a submission, or an operation on or a modification of the job with index `h`. A
modification of an array is one of each element. -/
inductive Op (Q U H : Type) where
  | newJob (u : U) (bill : JobBill Q) (hold : Bool)
  | newJobArray (u : U) (bill : JobBill Q) (numJobs : Nat) (hold : Bool)
  | job (h : Nat) (op : JobOp Q H)
  | modify (h : Nat) (bill : JobBill Q) (once : Bool) (run : RunMod)

/-- Two jobs share a bill. -/
def JData.shares (jp jp' : JData Q U H) : Bool :=
  match jp.shared, jp'.shared with
  | .array a, .array b => a = b
  | _, _ => false

/-- A job that shares the bill of the job `jp` has the bill `jp` has. -/
def JData.follow (jp jp' : JData Q U H) : JData Q U H :=
  if jp.shares jp' then { jp' with jobBill := jp.jobBill } else jp'

/-- One operation. An operation on a job that does not exist does nothing. An array is known by the
index of its first element. Only a modification changes a bill that is shared. -/
def step (m : Mbd Q U H) : Op Q U H → Mbd Q U H
  | .newJob u bill hold =>
    let c := handleNewJob g u bill hold m.totals
    ⟨m.jobs ++ [c.jp], c.totals⟩
  | .newJobArray u bill numJobs hold =>
    let c := handleNewJobArray g u bill m.jobs.length numJobs hold m.totals
    ⟨m.jobs ++ List.replicate numJobs c.jp, c.totals⟩
  | .job h op =>
    match m.jobs[h]? with
    | none => m
    | some jp =>
      let c := jobStep g ⟨m.totals, jp⟩ op
      ⟨m.jobs.set h c.jp, c.totals⟩
  | .modify h bill once run =>
    match m.jobs[h]? with
    | none => m
    | some jp =>
      let c := modifyJob g bill once run ⟨m.totals, jp⟩
      ⟨(m.jobs.map c.jp.follow).set h c.jp, c.totals⟩

end Operations

end Volclava
