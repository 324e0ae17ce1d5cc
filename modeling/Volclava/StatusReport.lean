import Volclava.Accounts
import Volclava.FSUsage

/-!
# Status reports

`statusJob` (`mbd.job.c`) takes a status report of sbatchd: it finds the job, stores the usage in
the report, and moves the job to the reported state. A report from a host that is not the first
execution host of the job, or with an old sequence number, is obsolete and is to be discarded. The
test for that stands in the middle of the function, after several updates and early returns.

- `StatusReq`, `SbdJob`, `SbdState`: a report, a job, and the state of mbatchd.
- `jStatusChange`, `hStatChange`: what the function calls.
- `statusJob`: the function, in the parts between its early returns.

The part of the function after the staleness test is `handleJobJCCA`, the label of the source.
Mail, messages to the system log, the memory left on the hosts and the history CPU time of share
accounts are left out.
-/

namespace Volclava

/-! ## Reports and jobs -/

/-- The largest sequence number; sbatchd starts again from 1 when it gets there. -/
def maxSeqNum : Int := 0x7fffffff

structure JRusage where
  mem : Int
  swap : Int
  utime : Int
  stime : Int
  pidInfo : List (Int × Int × Int × Int)
  pgid : List Int
  deriving DecidableEq

/-- The fields of `lsfRusage` that are added up, and those of which the largest is kept. -/
inductive RuSum where
  | utime | stime | minflt | majflt | nswap | inblock | oublock | ioch | msgsnd | msgrcv
  | nsignals | nvcsw | nivcsw | exutime
  deriving DecidableEq

inductive RuMax where
  | maxrss | ixrss | ismrss | idrss | isrss
  deriving DecidableEq

structure LsfRusage where
  sum : RuSum → ℚ
  max : RuMax → ℚ

def cleanLsfRusage : LsfRusage := ⟨fun _ => -1, fun _ => -1⟩

def acumulateValue (statusValue jobValue : ℚ) : ℚ :=
  if statusValue > 0 ∧ jobValue > 0 then jobValue + statusValue
  else if statusValue ≥ 0 ∧ jobValue < 0 then statusValue
  else jobValue

abbrev Reason := BitVec 32

def suspMbdLock : Reason := 0x00010000#32
def pendJobMig : Reason := 5#32
def pendJobPreExec : Reason := 6#32
def pendJobNoFile : Reason := 7#32
def pendJobNoPasswd : Reason := 17#32
def pendQuePreFail : Reason := 306#32
def pendSbdJobRequeue : Reason := 311#32
def pendUserStop : Reason := 607#32
def pendNoMapping : Reason := 608#32
def pendRmtPermission : Reason := 609#32
def pendJobStartFail : Reason := 1603#32
def exitNormal : Reason := 0#32
def exitRestart : Reason := 0x1#32
def exitKillZombie : Reason := 0x8#32
def exitZombieJob : Reason := 0x10#32
def exitRerun : Reason := 0x20#32
def exitNoMapping : Reason := 0x40#32
def exitInitEnviron : Reason := 0x100#32
def exitPreExec : Reason := 0x200#32

def jobStatZombie : Status := 0x02000000#32
def jobStatSignal : Status := 0x08000000#32
def jobStatChkpntedOnce : Status := 0x10000000#32

/-- `IS_RUN_JOB_CMD`: the job itself runs, not its pre-execution command. -/
def isRunJobCmd (s : Status) : Bool := has s jobStatRun && !has s jobStatPreExec

/-- A job in its pre-execution command is reported to run itself. -/
def endsPreExec (jStatus newStatus : Status) : Bool :=
  has jStatus jobStatPreExec && isRunJobCmd newStatus

def sigNull : Int := -65535
def sigChkpnt : Int := -1
def sigChkpntCopy : Int := -2

inductive ActStatus where
  | no | start | done | fail
  | other (n : Nat)
  deriving DecidableEq

structure StatusReq where
  jobPid : Int
  jobPGid : Int
  actPid : Int
  newStatus : Status
  reason : Reason
  subreasons : Reason
  errHostBoot : Bool
  errNoError : Bool
  exitStatus : Int
  execUid : Int
  execHome : String
  execCwd : String
  execUsername : String
  runRusage : JRusage
  lsfRusage : LsfRusage
  actStatus : ActStatus
  sigValue : Int
  maxMem : Int
  avgMem : Int
  seq : Int

/-- A job, with what status reports read and change of it. `ususpPending` and `terminatePending`
say that a request to suspend or to end it is waiting to be sent to sbatchd. -/
structure SbdJob (Q U H : Type) where
  jobId : Nat
  jp : JData Q U H
  rerunnable : Bool
  chkpntable : Bool
  restart : Bool
  preExec : Bool
  waitSwitch : Bool
  nextSeq : Int
  runRusage : JRusage
  maxMem : Int
  avgMem : Int
  jRusageUpdateTime : Int
  newReason : Reason
  subreasons : Reason
  jobPid : Int
  jobPGid : Int
  actPid : Int
  restartPid : Int
  sigValue : Int
  schedHost : String
  execHome : Option String
  execCwd : Option String
  execUsername : Option String
  execUid : Int
  exitStatus : Int
  cpuTime : ℚ
  lsfRusage : Option LsfRusage
  ssuspTime : Int
  dispTime : Int
  dispCount : Int
  initFailCount : Int
  excluded : List H
  ususpPending : Bool
  terminatePending : Bool
  reserveDuration : Int
  resBitMaps : Int
  sa : Option (Q × Nat)
  runTime : Int
  updStateTime : Int

/-- The event records that a status report can lead to. -/
inductive StatusEvent (H : Type) where
  | jobStatus (jobId : Nat) (jStatus : Status) (reason subreasons : Reason) (exitStatus : Int)
  | jobStart (jobId : Nat) (preExec : Bool) (hosts : List H)
  | jobStartAccept (jobId : Nat) (jobPid jobPGid : Int)
  | jobExecute (jobId : Nat) (execHome execCwd execUsername : Option String) (execUid : Int)
  | jobSigact (jobId : Nat) (actStatus : ActStatus) (sigValue actPid : Int) (mig kill : Bool)

/-- The state of mbatchd with one job taken out. `accepted` is the sequence number of the last
report accepted for this execution of the job; the source does not keep it. -/
structure Rep (Q U H : Type) where
  job : SbdJob Q U H
  sjl : List Nat
  zjl : List (SbdJob Q U H)
  totals : Totals Q U H
  shares : FSUsage Q
  log : List (StatusEvent H)
  accepted : Option Int

/-- What the configuration gives: fairshare factors, user groups, the place of a job in the list of
started jobs, the exit values for which a queue requeues a job away from the host, delays, and host
types. -/
structure SbdEnv (Q U H : Type) where
  inStartJobList : Nat → List Nat → List Nat
  P : Q → FSParams
  groups : Books U
  requeExclude : Q → Int → Bool
  preExecDelay : Option Int
  msleeptime : Int
  hostType : H → String

variable {Q U H : Type} [DecidableEq Q] [DecidableEq U] [DecidableEq H]

namespace Rep

def status (c : Rep Q U H) : Status := c.job.jp.jStatus

def setStatus (s : Status) (c : Rep Q U H) : Rep Q U H :=
  { c with job := { c.job with jp := { c.job.jp with jStatus := s } } }

def setReason (reason : Reason) (c : Rep Q U H) : Rep Q U H :=
  { c with job := { c.job with newReason := reason } }

def write (e : StatusEvent H) (c : Rep Q U H) : Rep Q U H := { c with log := c.log ++ [e] }

/-- `log_newstatus`. -/
def logNewstatus (c : Rep Q U H) : Rep Q U H :=
  c.write (.jobStatus c.job.jobId (maskStatus c.status) c.job.newReason c.job.subreasons
    c.job.exitStatus)

/-- `log_startjob`. -/
def logStartjob (preExec : Bool) (c : Rep Q U H) : Rep Q U H :=
  c.write (.jobStart c.job.jobId preExec c.job.jp.hPtr)

/-- `log_jobsigact`. -/
def logJobsigact (r : StatusReq) (mig kill : Bool) (c : Rep Q U H) : Rep Q U H :=
  c.write (.jobSigact c.job.jobId r.actStatus r.sigValue r.actPid mig kill)

variable (E : SbdEnv Q U H)

/-- A charge to the share account of the job, with the priorities on its path. -/
def charge (u : ShareAcctUpd) (c : Rep Q U H) : Rep Q U H :=
  match c.job.sa with
  | none => c
  | some sa =>
    { c with
      shares := (c.shares.atTree sa.1
        (·.updShareAcctStats (E.P sa.1).arith sa.2 u)).updSAcctPriorityByPath E.P sa }

/-- `accumRunTime`. -/
def accumRunTime (newStatus : Status) (now : Int) (c : Rep Q U H) : Rep Q U H :=
  let acc := FSJob.accumRunTime (E.P c.job.jp.qPtr).arith
    { userName := "", jStatus := c.status, queue := c.job.jp.qPtr, runTime := c.job.runTime,
      updStateTime := c.job.updStateTime } newStatus now
  let c := if acc.2 ≠ 0 then c.charge E (.runTime acc.2) else c
  { c with
    job := { c.job with runTime := acc.1.runTime, updStateTime := acc.1.updStateTime } }

/-- `detachedJobFromFSTree`. -/
def detachedJobFromFSTree (c : Rep Q U H) : Rep Q U H :=
  let c := c.charge E (.numStartJobs (-c.job.jp.num))
  { c with job := { c.job with sa := none } }

/-- `jStatusChange` outside log replay. The slot counters, the status word and the hosts are those
of `Accounts`. -/
def jStatusChange (newStatus : Status) (now : Int) (c : Rep Q U H) : Rep Q U H :=
  let oldStatus := c.status
  if knownStatus newStatus = knownStatus oldStatus then c
  else
    let newStatus := maskStatus newStatus
    let hosts := c.job.jp.hPtr
    let c := c.accumRunTime E newStatus now
    let cur := Volclava.jStatusChange E.groups newStatus ⟨c.totals, c.job.jp⟩
    let c := { c with totals := cur.totals, job := { c.job with jp := cur.jp } }
    if isStart newStatus && isPend oldStatus then
      let c := { c with
        job := { c.job with newReason := 0#32, subreasons := 0#32 }
        sjl := E.inStartJobList c.job.jobId c.sjl }
      c.write (.jobStart c.job.jobId (has oldStatus jobStatPreExec) hosts)
    else if isFinish newStatus then
      let keep := has oldStatus jobStatZombie || c.job.newReason = exitInitEnviron ||
        c.job.newReason = exitNoMapping || c.job.newReason = exitPreExec
      let c := if keep then c else c.setReason exitNormal
      let c := (c.logNewstatus.detachedJobFromFSTree E)
      { c with
        sjl := c.sjl.erase c.job.jobId
        job := { c.job with ususpPending := false, terminatePending := false } }
    else if has newStatus jobStatPend && isStart oldStatus then
      let c := (c.logNewstatus.detachedJobFromFSTree E)
      -- `freeExecParams`: the next execution starts afresh.
      { c with
        sjl := c.sjl.erase c.job.jobId
        job := { c.job with nextSeq := 1, execHome := none }
        accepted := none }
    else
      let c := c.logNewstatus
      if has newStatus jobStatRun then
        { c with job := { c.job with newReason := 0#32, subreasons := 0#32 } }
      else c

def accumulateRU (r : StatusReq) (c : Rep Q U H) : Rep Q U H :=
  let cpuTime := r.lsfRusage.sum .utime + r.lsfRusage.sum .stime
  { c with
    job := { c.job with
      cpuTime :=
        if c.job.cpuTime ≥ 0 ∧ cpuTime > 1 / 10000 then c.job.cpuTime + cpuTime
        else c.job.cpuTime
      lsfRusage := c.job.lsfRusage.map fun ru =>
        { sum := fun f => acumulateValue (r.lsfRusage.sum f) (ru.sum f)
          max := fun f => if r.lsfRusage.max f > ru.max f then r.lsfRusage.max f else ru.max f } } }

/-- The record of an earlier execution that the report is about. -/
def isZombie (c : Rep Q U H) (h : H) (r : StatusReq) (z : SbdJob Q U H) : Bool :=
  z.jobId = c.job.jobId && (z.jp.hPtr = [] || z.jp.hPtr.head? = some h) && z.jobPid = r.jobPid

def isInZomJobList (c : Rep Q U H) (h : H) (r : StatusReq) : Option (SbdJob Q U H) :=
  c.zjl.find? (c.isZombie h r)

/-! ## Before the staleness test -/

/-- A post-execution state is added to a job that is done. -/
def postReport (r : StatusReq) (c : Rep Q U H) : Rep Q U H :=
  if has c.status jobStatDone then (c.setStatus (c.status ||| r.newStatus)).logNewstatus else c

/-- The CPU time used since the last report. -/
def diffTime (r : StatusReq) (c : Rep Q U H) : Int :=
  (if c.job.runRusage.stime < 0 then r.runRusage.stime
    else r.runRusage.stime - c.job.runRusage.stime) +
  if c.job.runRusage.utime < 0 then r.runRusage.utime
  else r.runRusage.utime - c.job.runRusage.utime

/-- The usage in the report is stored, and the CPU time charged. -/
def takeUsage (r : StatusReq) (now : Int) (c : Rep Q U H) : Rep Q U H :=
  let charged := if c.diffTime r > 0 then c.charge E (.newUsedCpuTime (c.diffTime r)) else c
  { charged with
    job := { c.job with
      maxMem := if r.maxMem > c.job.maxMem then r.maxMem else c.job.maxMem
      avgMem := r.avgMem
      jRusageUpdateTime := now
      runRusage := r.runRusage } }

/-- sbatchd could not start the job. -/
def startFailed (r : StatusReq) (h : H) (now : Int) (c : Rep Q U H) : Rep Q U H :=
  let c := c.setReason r.reason
  if isStart c.status && c.job.jp.hPtr.head? = some h then c.jStatusChange E jobStatPend now
  else c

/-- sbatchd runs a job that is pending for mbatchd. -/
def startPending (r : StatusReq) (h : H) (now : Int) (c : Rep Q U H) : Rep Q U H :=
  let c := { c with
    job := { c.job with
      jp := { c.job.jp with
        hPtr := if c.job.jp.hPtr = [] then [h] else c.job.jp.hPtr
        jStatus := if c.job.preExec then c.status ||| jobStatPreExec else c.status }
      jobPid := r.jobPid
      jobPGid := r.jobPGid } }
  c.jStatusChange E jobStatRun now

/-- The process of a job whose process is not known yet. -/
def learnPid (r : StatusReq) (c : Rep Q U H) : Rep Q U H :=
  if c.job.jobPid = 0 then
    let c := { c with job := { c.job with jobPid := r.jobPid, jobPGid := r.jobPGid } }
    c.write (.jobStartAccept c.job.jobId c.job.jobPid c.job.jobPGid)
  else c

/-- The report tells the execution environment, which is not known yet. -/
def newExec (r : StatusReq) (c : Rep Q U H) : Bool :=
  c.job.execHome.isNone && r.execCwd ≠ "" && r.execHome ≠ ""

def learnExec (r : StatusReq) (c : Rep Q U H) : Rep Q U H :=
  let c := { c with
    job := { c.job with
      execCwd := some r.execCwd
      execHome := some r.execHome
      execUsername := some r.execUsername
      execUid := r.execUid
      jobPid := r.jobPid
      jobPGid := r.jobPGid } }
  c.write (.jobExecute c.job.jobId c.job.execHome c.job.execCwd c.job.execUsername c.job.execUid)

/-- The reports for which the zombie list is looked through. -/
def mayEndZombie (r : StatusReq) (newStatus : Status) (h : H) (c : Rep Q U H) : Bool :=
  isFinish newStatus || isPostFinish newStatus || isPend newStatus ||
    (r.actStatus ≠ .no && (isPend c.status || isFinish c.status || c.job.jp.hPtr.head? ≠ some h) &&
      c.job.rerunnable)

/-- An action on a job that is pending again is forgotten. -/
def forgetAction (r : StatusReq) (c : Rep Q U H) : Rep Q U H :=
  if r.actStatus ≠ .no && isPend c.status && c.job.rerunnable then
    let c := c.setStatus (c.status &&& ~~~jobStatMig)
    { c with job := { c.job with actPid := 0, sigValue := sigNull } }
  else c

/-- The report ends the zombie `z`. -/
def endZombie (r : StatusReq) (h : H) (z : SbdJob Q U H) (c : Rep Q U H) : Rep Q U H :=
  let c := { c with zjl := c.zjl.eraseP (c.isZombie h r) }.write
    (.jobStatus z.jobId (maskStatus z.jp.jStatus) exitZombieJob z.subreasons z.exitStatus)
  if c.job.newReason = exitKillZombie && has c.status jobStatZombie &&
      c.zjl.all (·.jobId ≠ c.job.jobId) then
    (c.setStatus (c.status &&& ~~~jobStatZombie)).setReason 0#32
  else c

/-- The staleness test. -/
def discards (r : StatusReq) (h : H) (c : Rep Q U H) : Bool :=
  c.job.jp.hPtr.head? ≠ some h ||
    (r.seq < c.job.nextSeq && c.job.nextSeq - r.seq < maxSeqNum / 2)

/-- What the job expects after the report has been accepted. -/
def nextSeq (r : StatusReq) (newStatus : Status) : Int :=
  if r.seq ≥ maxSeqNum || has newStatus jobStatPend then 1 else r.seq

def accept (r : StatusReq) (newStatus : Status) (c : Rep Q U H) : Rep Q U H :=
  { c with
    job := { c.job with nextSeq := nextSeq r newStatus }
    accepted := some r.seq }

/-! ## After the staleness test -/

def setMig (on : Bool) (c : Rep Q U H) : Rep Q U H :=
  c.setStatus (if on then c.status ||| jobStatMig else c.status &&& ~~~jobStatMig)

/-- A checkpoint of the job has started, is done or has failed. -/
def chkpntAction (r : StatusReq) (newStatus : Status) (c : Rep Q U H) : Rep Q U H :=
  let mig := has newStatus jobStatMig
  let c := { c with job := { c.job with sigValue := r.sigValue } }
  if r.actStatus = .start then
    let c := c.setMig mig
    if c.job.actPid ≠ r.actPid then
      { c with job := { c.job with actPid := r.actPid } }.logJobsigact r mig mig
    else c
  else
    let c :=
      if r.actStatus = .done then
        let c := c.setMig mig
        let c :=
          if mig then
            { c with
              job := { c.job with
                schedHost := (c.job.jp.hPtr.head?.map E.hostType).getD c.job.schedHost
                restartPid := c.job.jobPid
                lsfRusage := some (c.job.lsfRusage.getD cleanLsfRusage) } }
          else c
        if r.errNoError then c.setStatus (c.status ||| jobStatChkpntedOnce) else c
      else if has c.status jobStatReserve then
        let cur := unreserve E.groups ⟨c.totals, c.job.jp⟩
        { c with totals := cur.totals, job := { c.job with jp := cur.jp } }
      else c
    let c := if mig then c else c.setMig false
    let c := c.setStatus (c.status &&& ~~~jobStatSignal)
    let c := c.logJobsigact r (r.actStatus = .done && mig) false
    { c with job := { c.job with actPid := 0, sigValue := sigNull } }

/-- Another signal action has started or ended. -/
def signalAction (r : StatusReq) (c : Rep Q U H) : Rep Q U H :=
  if r.actStatus = .start then
    { c with job := { c.job with actPid := r.actPid, sigValue := r.sigValue } }.logJobsigact r
      false false
  else if r.actStatus = .done || r.actStatus = .fail then
    let c := c.setStatus (c.status &&& ~~~jobStatSignal)
    let c := c.logJobsigact r false false
    { c with job := { c.job with actPid := 0, sigValue := sigNull } }
  else c

def action (r : StatusReq) (newStatus : Status) (c : Rep Q U H) : Rep Q U H :=
  if r.actStatus = .no then c
  else if r.sigValue = sigChkpnt || r.sigValue = sigChkpntCopy then c.chkpntAction E r newStatus
  else c.signalAction r

def shouldLockJob (newStatus : Status) (c : Rep Q U H) : Bool :=
  has newStatus jobStatUsusp || (c.job.reserveDuration - c.job.runTime > 0 && c.job.resBitMaps ≠ 0)

/-- The reason of a suspended job that mbatchd has not locked before. -/
def suspReason (r : StatusReq) (newStatus : Status) (c : Rep Q U H) : Reason :=
  if !has r.reason suspMbdLock && c.shouldLockJob newStatus then r.reason ||| suspMbdLock
  else r.reason

/-- The reasons of a suspended job. -/
def suspReasons (r : StatusReq) (newStatus : Status) (now : Int) (c : Rep Q U H) : Rep Q U H :=
  if isSusp newStatus then
    let locked := has c.job.newReason suspMbdLock
    { c with
      job := { c.job with
        newReason := if locked then c.job.newReason else c.suspReason r newStatus
        subreasons := if locked then c.job.subreasons else r.subreasons
        ssuspTime := if has c.status jobStatSsusp then c.job.ssuspTime else now } }
  else c

/-- The `MIG` flag and the reasons of the job, once the action is over. -/
def settle (r : StatusReq) (newStatus : Status) (now : Int) (c : Rep Q U H) : Rep Q U H :=
  (if has newStatus jobStatMig then c else c.setMig false).suspReasons r newStatus now

/-- A host on which the job is not tried again. -/
def exclude (h : H) (c : Rep Q U H) : Rep Q U H :=
  { c with job := { c.job with excluded := if h ∈ c.job.excluded then c.job.excluded
      else c.job.excluded ++ [h] } }

/-- The job is held after it has gone back to pending. -/
def holdPending (newStatus : Status) (reason : Reason) (now : Int) (c : Rep Q U H) : Rep Q U H :=
  let c := (c.jStatusChange E newStatus now).setReason reason
  { c with job := { c.job with initFailCount := 0 } }

/-- The reason for which the job goes back to pending, and the state to which it goes in the end.
There is none if nothing more is done. -/
def pendReason (r : StatusReq) (newStatus : Status) (h : H) (now : Int) (c : Rep Q U H) :
    Rep Q U H × Option Status :=
  if has c.status jobStatPreExec || r.reason = pendQuePreFail then
    let wait := match E.preExecDelay with
      | none => min 1800 (c.job.dispCount / 50 * E.msleeptime)
      | some d => d * E.msleeptime
    ({ c with
        job := { c.job with newReason := r.reason, dispTime := c.job.dispTime + wait } },
      some newStatus)
  else if has c.status jobStatMig then (c.setReason pendJobMig, some newStatus)
  else if has c.status jobStatPsusp then (c, none)
  else
    let c := c.setReason r.reason
    if r.reason = pendNoMapping || r.reason = pendRmtPermission then
      (c.exclude h, some newStatus)
    else if c.job.ususpPending then (c.jStatusChange E jobStatPend now, some jobStatPsusp)
    else if r.reason = pendSbdJobRequeue then
      (if E.requeExclude c.job.jp.qPtr (r.exitStatus / 256) then c.exclude h else c, some newStatus)
    else if c.job.terminatePending then (c.jStatusChange E jobStatPend now, some jobStatExit)
    else if r.reason = pendJobNoPasswd then
      (c.holdPending E newStatus pendJobNoPasswd now, some jobStatPsusp)
    else
      let c := { c with
        job := { c.job with
          dispTime := c.job.dispTime + min 1800 (c.job.dispCount / 3 * E.msleeptime) } }
      if r.reason ≠ pendJobPreExec then
        let c := { c with job := { c.job with initFailCount := c.job.initFailCount + 1 } }
        if c.job.initFailCount ≥ 20 then
          (c.holdPending E newStatus pendUserStop now, some jobStatPsusp)
        else (c, some newStatus)
      else (c, some newStatus)

/-- The job has ended. -/
def finishReport (r : StatusReq) (newStatus : Status) (c : Rep Q U H) : Rep Q U H :=
  let c := (c.setReason exitNormal).accumulateRU r
  let c := { c with job := { c.job with exitStatus := r.exitStatus } }
  if has newStatus jobStatExit && r.errHostBoot && c.job.rerunnable then
    let c := c.setStatus (c.status ||| jobStatZombie)
    if c.job.chkpntable && has c.status jobStatChkpntedOnce then
      { c with job := { c.job with restart := true, newReason := exitRestart } }
    else c.setReason exitRerun
  else { c with job := { c.job with restart := false } }

inductive LsbErr where
  | noError | noJob | sbatchd | stopJob | lockJob
  deriving DecidableEq

def lockReply (c : Rep Q U H) : LsbErr :=
  if has c.job.newReason suspMbdLock then .lockJob else .noError

/-- The change to the reported state. -/
def changeStatus (oldStatus newStatus : Status) (stopit : Bool) (r : StatusReq) (now : Int)
    (c : Rep Q U H) : Rep Q U H × LsbErr :=
  let c :=
    if isFinish newStatus || isPend newStatus then
      -- `cleanSbdNode`
      { c with job := { c.job with ususpPending := false, terminatePending := false } }
    else c
  let c := c.jStatusChange E newStatus now
  let c :=
    if endsPreExec oldStatus newStatus then
      let c := c.setStatus (c.status &&& ~~~jobStatPreExec)
      let c := { c with
        job := { c.job with
          jobPid := r.jobPid
          jobPGid := r.jobPGid
          execUid := r.execUid
          execUsername := some r.execUsername } }
      c.logStartjob false
    else c
  (c, if stopit then .stopJob else c.lockReply)

/-- The usage and the exit status of a job that goes back to pending. -/
def pendUsage (r : StatusReq) (c : Rep Q U H) : Rep Q U H :=
  let c :=
    if isStart c.status then
      { c with
        job := { c.job with
          lsfRusage := some (c.job.lsfRusage.getD cleanLsfRusage) } }.accumulateRU r
    else c
  { c with job := { c.job with exitStatus := r.exitStatus } }

/-- A report of another state than the job has. -/
def newState (oldStatus newStatus : Status) (stopit : Bool) (r : StatusReq) (h : H) (now : Int)
    (c : Rep Q U H) : Rep Q U H × LsbErr :=
  if has newStatus jobStatPend then
    match (c.pendUsage r).pendReason E r newStatus h now with
    | (c, none) => (c, .noError)
    | (c, some newStatus) => c.changeStatus E oldStatus newStatus stopit r now
  else if isFinish newStatus then
    (c.finishReport r newStatus).changeStatus E oldStatus newStatus stopit r now
  else c.changeStatus E oldStatus newStatus stopit r now

/-- The job has the reported state already. -/
def stays (newStatus : Status) (c : Rep Q U H) : Bool :=
  knownStatus c.status = knownStatus newStatus && !endsPreExec c.status newStatus

/-- The rest of the function: signal actions, reasons, and the new state. -/
def handleJobJCCA (oldStatus newStatus : Status) (stopit : Bool) (r : StatusReq) (h : H)
    (now : Int) (c : Rep Q U H) : Rep Q U H × LsbErr :=
  let c := c.action E r newStatus
  if r.actStatus ≠ .no && isPend c.status && (c.isInZomJobList h r).isSome && isStart newStatus then
    (c, .noError)
  else
    let c := c.settle r newStatus now
    if c.stays newStatus then (c, c.lockReply)
    else c.newState E oldStatus newStatus stopit r h now

/-! ## The function -/

/-- From the zombie list to the end: the staleness test is here. -/
def checkSeq (oldStatus newStatus : Status) (stopit : Bool) (r : StatusReq) (h : H) (now : Int)
    (c : Rep Q U H) : Rep Q U H × LsbErr :=
  let look := c.mayEndZombie r newStatus h
  let c := if look then c.forgetAction r else c
  match if look then c.isInZomJobList h r else none with
  | some z => (c.endZombie r h z, .noError)
  | none =>
    if c.discards r h then (c, .noError)
    else
      let c := c.accept r newStatus
      if isFinish c.status then (c, .noError)
      else c.handleJobJCCA E oldStatus newStatus stopit r h now

/-- What a report on a running job tells about its processes, and the rest. -/
def learn (oldStatus newStatus : Status) (stopit : Bool) (r : StatusReq) (h : H) (now : Int)
    (c : Rep Q U H) : Rep Q U H × LsbErr :=
  if isStart c.status && isStart newStatus then
    let c := c.learnPid r
    if c.newExec r then
      let c := c.learnExec r
      if oldStatus = newStatus then (c, .noError)
      else c.checkSeq E oldStatus newStatus stopit r h now
    else c.checkSeq E oldStatus newStatus stopit r h now
  else c.checkSeq E oldStatus newStatus stopit r h now

/-- A valid report that is not about a failed start, or one about a zombie that failed to start. -/
def received (oldStatus newStatus : Status) (r : StatusReq) (h : H) (now : Int) (c : Rep Q U H) :
    Rep Q U H × LsbErr :=
  if isPend c.status && isStart newStatus then
    if (c.isInZomJobList h r).isSome then c.handleJobJCCA E oldStatus newStatus false r h now
    else
      (c.startPending E r h now).learn E oldStatus newStatus
        (has oldStatus jobStatPsusp && !isFinish newStatus) r h now
  else c.learn E oldStatus newStatus false r h now

/-- The report is about a job that sbatchd could not start. -/
def startFails (r : StatusReq) : Bool :=
  has r.newStatus jobStatPend && (r.reason = pendJobStartFail || r.reason = pendJobNoFile)

/-- The report is rejected: it has no state, or a migration without a process. -/
def invalid (r : StatusReq) : Bool :=
  (!isStart r.newStatus && !isFinish r.newStatus && !has r.newStatus jobStatPend) ||
    (has r.newStatus jobStatMig && r.actPid = 0)

/-- The function once the usage has been stored. -/
def checked (oldStatus : Status) (r : StatusReq) (h : H) (now : Int) (c : Rep Q U H) :
    Rep Q U H × LsbErr :=
  if invalid r then (c, .sbatchd)
  else if startFails r then
    let c := c.startFailed E r h now
    if (c.isInZomJobList h r).isSome then c.received E oldStatus jobStatExit r h now
    else (c, .noError)
  else c.received E oldStatus r.newStatus r h now

/-- `statusJob` for a job that has been found, once the reporting host is known to be up. -/
def statusJob (r : StatusReq) (h : H) (now : Int) (c : Rep Q U H) : Rep Q U H × LsbErr :=
  if isPostFinish r.newStatus then (c.postReport r, .noError)
  else (c.takeUsage E r now).checked E c.status r h now

end Rep

/-! ## The state of mbatchd -/

structure SbdState (Q U H : Type) where
  jobs : Nat → Option (SbdJob Q U H)
  sjl : List Nat
  zjl : List (SbdJob Q U H)
  totals : Totals Q U H
  shares : FSUsage Q
  log : List (StatusEvent H)
  unreach : H → Bool
  unavail : H → Bool
  accepted : Nat → Option Int

namespace SbdState

def focus (s : SbdState Q U H) (id : Nat) (job : SbdJob Q U H) : Rep Q U H where
  job := job
  sjl := s.sjl
  zjl := s.zjl
  totals := s.totals
  shares := s.shares
  log := s.log
  accepted := s.accepted id

def unfocus (s : SbdState Q U H) (id : Nat) (c : Rep Q U H) : SbdState Q U H :=
  { s with
    jobs := Function.update s.jobs id (some c.job)
    sjl := c.sjl
    zjl := c.zjl
    totals := c.totals
    shares := c.shares
    log := c.log
    accepted := Function.update s.accepted id c.accepted }

/-- The started jobs on the host whose state is unknown, as far as `hostJobs` looks: it stops after
as many jobs as the host has slots in use. -/
def recovered (s : SbdState Q U H) (h : H) : List Nat :=
  let numJobs := s.totals.host h .numRUN + s.totals.host h .numSSUSP + s.totals.host h .numUSUSP
  ((s.sjl.filter fun id => (s.jobs id).any (·.jp.hPtr.head? = some h)).take numJobs.toNat).filter
    fun id => (s.jobs id).any (has ·.jp.jStatus jobStatUnkwn)

def clearUnkwn (s : SbdState Q U H) (id : Nat) : SbdState Q U H :=
  match s.jobs id with
  | none => s
  | some job =>
    let c := s.focus id job
    s.unfocus id (c.setStatus (c.status &&& ~~~jobStatUnkwn)).logNewstatus

/-- `hostJobs` for a host that is up again. -/
def hostJobs (s : SbdState Q U H) (h : H) : SbdState Q U H := (s.recovered h).foldl clearUnkwn s

/-- `hStatChange` with the new status 0. -/
def hStatChange (s : SbdState Q U H) (h : H) : SbdState Q U H :=
  if s.unreach h then
    { s with unreach := Function.update s.unreach h false }.hostJobs h
  else if s.unavail h then
    { s with unavail := Function.update s.unavail h false }.hostJobs h
  else s

/-- `statusJob`: `h` is the reporting host, none if it is not configured. -/
def statusJob (E : SbdEnv Q U H) (s : SbdState Q U H) (id : Nat) (r : StatusReq) (h : Option H)
    (now : Int) : SbdState Q U H × Rep.LsbErr :=
  match s.jobs id with
  | none => (s, .noJob)
  | some job =>
    if isPend job.jp.jStatus && job.waitSwitch then
      if isFinish r.newStatus then
        (s.unfocus id { s.focus id job with job := { job with waitSwitch := false } }, .noError)
      else (s, .noError)
    else
      match h with
      | none => (s, .sbatchd)
      | some h =>
        let s := s.hStatChange h
        match s.jobs id with
        | none => (s, .noJob)
        | some job =>
          let out := (s.focus id job).statusJob E r h now
          (s.unfocus id out.1, out.2)

end SbdState

end Volclava
