import Volclava.StatusLog

/-!
# Obsolete status reports

An obsolete report should change nothing. The test of `statusJob` that discards obsolete reports
comes after the usage in the report has been stored, after post-execution states and failed starts
have been dealt with, and after the process of the job has been learnt; and it lets through a
report with the number of the last one accepted, since `nextSeq` is that number and not the next.

- `Rep.Quiet`: the reports that change nothing, obsolete or not.
- `Rep.same_statusJob`: a report changes nothing just if it is quiet, where the stale reports are
  those that the test discards.
-/

namespace Volclava

variable {Q U H : Type}

namespace Rep

/-! ## Quiet actions and reasons -/

/-- Everything that an obsolete report must not change. -/
structure Same (c d : Rep Q U H) : Prop where
  job : d.job = c.job
  totals : d.totals = c.totals
  shares : d.shares = c.shares
  log : d.log = c.log

theorem Same.refl (c : Rep Q U H) : Same c c := ⟨rfl, rfl, rfl, rfl⟩

theorem Same.not_lt {c d : Rep Q U H} (h : Same c d) : ¬ c.log.length < d.log.length := by
  rw [h.log]
  exact lt_irrefl _

/-- The report is about a checkpoint. -/
def isChkpnt (r : StatusReq) : Bool := r.sigValue = sigChkpnt || r.sigValue = sigChkpntCopy

/-- The report tells of no action, or of one whose state is unknown. -/
def idleAction (r : StatusReq) : Bool :=
  r.actStatus = .no || (!isChkpnt r && r.actStatus ≠ .start && r.actStatus ≠ .done &&
    r.actStatus ≠ .fail)

/-- The report tells once more that a checkpoint has started. -/
def repeatsChkpnt (r : StatusReq) (c : Rep Q U H) : Bool :=
  isChkpnt r && r.actStatus = .start && c.job.actPid = r.actPid

variable {r : StatusReq} {c : Rep Q U H} {old : Status} {h : H}

theorem and_not_eq_self {s f : Status} : s &&& ~~~f = s ↔ has s f = false := by
  refine ⟨fun h => h ▸ has_and_not_self s f, fun h => ?_⟩
  have hzero : s &&& f = 0#32 := by simpa [has] using h
  ext i hi
  have hbit : (s &&& f)[i] = (0#32)[i] := by rw [hzero]
  simp only [BitVec.getElem_and, BitVec.getElem_zero] at hbit
  simp only [BitVec.getElem_and, BitVec.getElem_not]
  cases hs : s[i] <;> cases hf : f[i] <;> simp_all

theorem or_mig_eq_self {s : Status} : s ||| jobStatMig = s ↔ has s jobStatMig = true := by
  refine ⟨fun h => h ▸ has_or_self s (by decide), fun h => ?_⟩
  have hand : s &&& jobStatMig = jobStatMig := and_eq_of_has (i := 30) (by decide) h
  ext i hi
  have hbit : (s &&& jobStatMig)[i] = jobStatMig[i] := by rw [hand]
  simp only [BitVec.getElem_and] at hbit
  simp only [BitVec.getElem_or]
  cases hs : s[i] <;> cases hf : jobStatMig[i] <;> simp_all

/-- The reasons in the report are those of the job, or the job is locked by mbatchd. -/
def KeepsReasons (r : StatusReq) (new : Status) (now : Int) (c : Rep Q U H) : Prop :=
  isSusp new = true →
    (has c.job.newReason suspMbdLock = true ∨
      (c.job.newReason = r.reason ∧ c.job.subreasons = r.subreasons ∧
        c.shouldLockJob new = false)) ∧
    (has c.status jobStatSsusp = true ∨ c.job.ssuspTime = now)

theorem suspReason_eq_iff {new : Status} (hl : has c.job.newReason suspMbdLock = false) :
    c.suspReason r new = c.job.newReason ↔
      c.job.newReason = r.reason ∧ c.shouldLockJob new = false := by
  constructor
  · intro heq
    unfold suspReason at heq
    split_ifs at heq with hc
    · rw [← heq, has_or_self _ (by decide)] at hl
      simp at hl
    · refine ⟨heq.symm, ?_⟩
      rw [← heq] at hl
      simpa [hl] using hc
  · rintro ⟨heq, hlock⟩
    rw [suspReason, hlock, Bool.and_false, if_neg (by simp), heq]

/-- **The actions and reasons** of a report that repeats the value `v` of the signal and gives the
job the flags `st`: nothing changes just if they are those of the job, and so are the reasons. -/
theorem same_settle_iff (c : Rep Q U H) (v : Int) (st : Status) (r : StatusReq) (new : Status)
    (now : Int) :
    Same c (Rep.settle r new now { c with
        job := { c.job with sigValue := v, jp := { c.job.jp with jStatus := st } } }) ↔
      v = c.job.sigValue ∧ settledStatus new st = c.status ∧ c.KeepsReasons r new now := by
  rw [settle_eq]
  -- The fields of the job that may change.
  have hjob : ∀ (s : Status) (reason sub : Reason) (t : Int),
      Same c { c with
        job := { c.job with
          sigValue := v
          jp := { c.job.jp with jStatus := s }
          newReason := reason
          subreasons := sub
          ssuspTime := t } } ↔ v = c.job.sigValue ∧ s = c.status ∧
        (reason = c.job.newReason ∧ sub = c.job.subreasons) ∧ t = c.job.ssuspTime := by
    intro s reason sub t
    constructor
    · intro h
      have hj := h.job
      exact ⟨congrArg SbdJob.sigValue hj, congrArg (·.jp.jStatus) hj,
        ⟨congrArg SbdJob.newReason hj, congrArg SbdJob.subreasons hj⟩,
        congrArg SbdJob.ssuspTime hj⟩
    · rintro ⟨rfl, rfl, ⟨rfl, rfl⟩, rfl⟩
      exact .refl c
  refine (hjob _ _ _ _).trans (and_congr_right fun _ => and_congr_right fun hst => ?_)
  unfold KeepsReasons
  by_cases hs : isSusp new = true
  · simp only [hs, if_true, forall_const]
    refine and_congr ?_ ?_
    · cases hl : has c.job.newReason suspMbdLock with
      | true => simp
      | false =>
        simp only [Bool.false_eq_true, if_false, false_or]
        rw [← and_assoc, and_right_comm, ← suspReason_eq_iff hl, eq_comm (a := r.subreasons)]
        rfl
    · rw [hst]
      cases has c.status jobStatSsusp <;> simp [eq_comm]
  · simp [hs]

/-- The signal action of the report changes nothing. -/
def QuietAction (r : StatusReq) (new : Status) (c : Rep Q U H) : Prop :=
  (idleAction r = true ∧ (has c.status jobStatMig = true → has new jobStatMig = true)) ∨
    (c.repeatsChkpnt r = true ∧ r.sigValue = c.job.sigValue ∧
      has c.status jobStatMig = has new jobStatMig)

theorem settledStatus_eq_iff {new s : Status} :
    settledStatus new s = s ↔ (has s jobStatMig = true → has new jobStatMig = true) := by
  unfold settledStatus
  split_ifs with hm
  · simp [hm]
  · rw [and_not_eq_self]
    simp [hm]

theorem settledStatus_setMig {new s : Status} :
    settledStatus new (if has new jobStatMig then s ||| jobStatMig else s &&& ~~~jobStatMig) = s ↔
      has s jobStatMig = has new jobStatMig := by
  unfold settledStatus
  cases has new jobStatMig with
  | true =>
    simp only [if_true]
    exact or_mig_eq_self
  | false =>
    simp only [Bool.false_eq_true, if_false]
    rw [BitVec.and_assoc, BitVec.and_self]
    exact and_not_eq_self

/-! ## The usage in the report -/

/-- The usage stored with the job is the same. -/
structure SameUsage (c d : Rep Q U H) : Prop where
  maxMem : d.job.maxMem = c.job.maxMem
  avgMem : d.job.avgMem = c.job.avgMem
  time : d.job.jRusageUpdateTime = c.job.jRusageUpdateTime
  runRusage : d.job.runRusage = c.job.runRusage

theorem SameUsage.refl (c : Rep Q U H) : SameUsage c c := ⟨rfl, rfl, rfl, rfl⟩

/-- The report has the usage that the job has already, and comes in the second in which that was
stored. -/
structure RepeatsUsage (r : StatusReq) (now : Int) (c : Rep Q U H) : Prop where
  maxMem : r.maxMem ≤ c.job.maxMem
  avgMem : r.avgMem = c.job.avgMem
  runRusage : r.runRusage = c.job.runRusage
  time : c.job.jRusageUpdateTime = now

theorem diffTime_of_eq (h : r.runRusage = c.job.runRusage) :
    c.diffTime r ≤ 0 := by
  unfold diffTime
  rw [h]
  split_ifs <;> omega

section Usage

variable [DecidableEq Q] (E : SbdEnv Q U H) {now : Int}

theorem takeUsage_of_repeats (h : c.RepeatsUsage r now) : c.takeUsage E r now = c := by
  have hdiff : ¬ c.diffTime r > 0 := by
    have := diffTime_of_eq h.runRusage
    omega
  have hmax : ¬ r.maxMem > c.job.maxMem := by
    have := h.maxMem
    omega
  unfold takeUsage
  dsimp only
  rw [if_neg hdiff, if_neg hmax, h.avgMem, h.runRusage, ← h.time]

theorem log_takeUsage (r : StatusReq) (now : Int) (c : Rep Q U H) :
    (c.takeUsage E r now).log = c.log := by
  unfold takeUsage
  dsimp only
  split_ifs
  · rw [(charge_eq E c _).choose_spec]
  · rfl

theorem repeatsUsage_of_sameUsage (h : SameUsage (c.takeUsage E r now) c) :
    c.RepeatsUsage r now := by
  refine ⟨?_, h.avgMem.symm, h.runRusage.symm, h.time⟩
  have hmax : c.job.maxMem = if r.maxMem > c.job.maxMem then r.maxMem else c.job.maxMem := h.maxMem
  split_ifs at hmax <;> omega

theorem zjl_takeUsage (r : StatusReq) (now : Int) (c : Rep Q U H) :
    (c.takeUsage E r now).zjl = c.zjl := by
  unfold takeUsage
  dsimp only
  split_ifs
  · rw [(charge_eq E c _).choose_spec]
  · rfl

end Usage

theorem isInZomJobList_congr [DecidableEq H] {c d : Rep Q U H} (hz : d.zjl = c.zjl)
    (hid : d.job.jobId = c.job.jobId) (h : H) (r : StatusReq) :
    d.isInZomJobList h r = c.isInZomJobList h r := by
  unfold isInZomJobList isZombie
  rw [hz, hid]

theorem isInZomJobList_takeUsage [DecidableEq Q] [DecidableEq H] (E : SbdEnv Q U H)
    (r : StatusReq) (h : H) (now : Int) (c : Rep Q U H) :
    (c.takeUsage E r now).isInZomJobList h r = c.isInZomJobList h r :=
  isInZomJobList_congr (zjl_takeUsage E r now c) rfl h r

variable [DecidableEq Q] [DecidableEq U] [DecidableEq H] (E : SbdEnv Q U H)

/-! ## Actions -/

theorem action_idle (h : idleAction r = true) (new : Status) (c : Rep Q U H) :
    c.action E r new = c := by
  simp only [idleAction, Bool.or_eq_true, Bool.and_eq_true, decide_eq_true_eq,
    Bool.not_eq_true'] at h
  unfold action
  rcases h with h | ⟨⟨⟨hchk, h1⟩, h2⟩, h3⟩
  · rw [if_pos h]
  · unfold isChkpnt at hchk
    rw [hchk]
    simp [signalAction, h1, h2, h3]

theorem action_repeats (h : c.repeatsChkpnt r = true) (new : Status) :
    c.action E r new =
      { c with job := { c.job with sigValue := r.sigValue } }.setMig (has new jobStatMig) := by
  simp only [repeatsChkpnt, Bool.and_eq_true, decide_eq_true_eq] at h
  obtain ⟨⟨hchk, hstart⟩, hpid⟩ := h
  have hne : r.actStatus ≠ .no := by simp [hstart]
  unfold isChkpnt at hchk
  unfold action chkpntAction
  rw [if_neg hne, if_pos hchk]
  dsimp only
  rw [if_pos hstart, if_neg]
  simpa [setMig, setStatus] using hpid

/-- Every other action is logged. -/
theorem lt_action (hidle : idleAction r = false) (hrep : c.repeatsChkpnt r = false) (new : Status) :
    c.log.length < (c.action E r new).log.length := by
  have hne : r.actStatus ≠ .no := by
    intro hno
    simp [idleAction, hno] at hidle
  unfold action
  rw [if_neg hne]
  by_cases hchk : isChkpnt r = true
  · have hchk' := hchk
    unfold isChkpnt at hchk'
    rw [if_pos hchk']
    unfold chkpntAction
    dsimp only
    by_cases hstart : r.actStatus = .start
    · rw [if_pos hstart, if_pos]
      · simp [setMig, setStatus]
      · intro hpid
        have hpid : c.job.actPid = r.actPid := hpid
        simp [repeatsChkpnt, hchk, hstart, hpid] at hrep
    · rw [if_neg hstart]
      split_ifs <;> simp [setMig, setStatus, write, logJobsigact]
  · have hchk' := hchk
    unfold isChkpnt at hchk'
    rw [if_neg hchk']
    unfold signalAction
    split_ifs with h1 h2
    · simp
    · simp
    · simp only [Bool.or_eq_true, decide_eq_true_eq, not_or] at h2
      simp [idleAction, hchk, h1, h2.1, h2.2] at hidle

theorem le_action (r : StatusReq) (new : Status) (c : Rep Q U H) :
    c.log.length ≤ (c.action E r new).log.length := by
  cases hidle : idleAction r with
  | true => rw [action_idle E hidle]
  | false =>
    cases hrep : c.repeatsChkpnt r with
    | true =>
      rw [action_repeats E hrep]
      exact le_refl _
    | false => exact (lt_action E hidle hrep new).le

section Accepted

variable (hp : isPend c.status = false)
  (hold : has old jobStatPreExec = has c.status jobStatPreExec) (new : Status) (stop : Bool)
  (r : StatusReq) (h : H) (now : Int)
include hp hold

/-- **A report that passes the staleness test**, on a job that is neither pending nor finished. -/
theorem same_handleJobJCCA : Same c (c.handleJobJCCA E old new stop r h now).1 ↔
      c.stays new = true ∧ c.QuietAction r new ∧ c.KeepsReasons r new now := by
  rcases handleJobJCCA_cases E r new now c hp hold stop h with ⟨hs, heq⟩ | ⟨hs, hlt⟩
  · rw [heq]
    cases hidle : idleAction r with
    | true =>
      have hsettle := same_settle_iff c c.job.sigValue c.status r new now
      rw [action_idle E hidle, settledStatus_eq_iff] at *
      refine hsettle.trans ⟨fun ⟨_, hm, hk⟩ => ⟨hs, .inl ⟨hidle, hm⟩, hk⟩, fun ⟨_, ha, hk⟩ => ?_⟩
      refine ⟨rfl, ?_, hk⟩
      rcases ha with ⟨-, hm⟩ | ⟨-, -, hm⟩
      · exact hm
      · intro h1
        rw [← hm, h1]
    | false =>
      cases hrep : c.repeatsChkpnt r with
      | true =>
        have hsettle := same_settle_iff c r.sigValue
          (if has new jobStatMig then c.status ||| jobStatMig
            else c.status &&& ~~~jobStatMig) r new now
        rw [settledStatus_setMig] at hsettle
        rw [action_repeats E hrep]
        refine hsettle.trans ⟨fun ⟨h1, hm, hk⟩ => ⟨hs, .inr ⟨hrep, h1, hm⟩, hk⟩, ?_⟩
        rintro ⟨-, ha, hk⟩
        rcases ha with ⟨hno, -⟩ | ⟨-, h1, hm⟩
        · simp [hidle] at hno
        · exact ⟨h1, hm, hk⟩
      | false =>
        have hlt := lt_action E hidle hrep new
        refine ⟨fun hsame => ?_, fun ⟨_, ha, _⟩ => ?_⟩
        · refine absurd ?_ hsame.not_lt
          rw [log_settle]
          exact hlt
        · rcases ha with ⟨hno, -⟩ | ⟨hno, -⟩
          · simp [hidle] at hno
          · simp [hrep] at hno
  · refine ⟨fun hsame => absurd ((le_action E r new c).trans_lt hlt) hsame.not_lt, ?_⟩
    rintro ⟨hs', -⟩
    simp [hs] at hs'

/-- After the staleness test the usage and the expected number stay as they are, unless an event
record is written. -/
theorem handleJobJCCA_keeps :
    c.log.length < (c.handleJobJCCA E old new stop r h now).1.log.length ∨
      ((c.handleJobJCCA E old new stop r h now).1.log.length = c.log.length ∧
        SameUsage c (c.handleJobJCCA E old new stop r h now).1 ∧
        (c.handleJobJCCA E old new stop r h now).1.job.nextSeq = c.job.nextSeq) := by
  rcases handleJobJCCA_cases E r new now c hp hold stop h with ⟨-, heq⟩ | ⟨-, hlt⟩
  · rw [heq]
    cases hidle : idleAction r with
    | true =>
      rw [action_idle E hidle, settle_eq]
      exact .inr ⟨rfl, ⟨rfl, rfl, rfl, rfl⟩, rfl⟩
    | false =>
      cases hrep : c.repeatsChkpnt r with
      | true =>
        rw [action_repeats E hrep, settle_eq]
        exact .inr ⟨rfl, ⟨rfl, rfl, rfl, rfl⟩, rfl⟩
      | false =>
        refine .inl ?_
        rw [log_settle]
        exact lt_action E hidle hrep new
  · exact .inl ((le_action E r new c).trans_lt hlt)

end Accepted

/-! ## Quiet reports -/

/-- A report that passes the staleness test changes nothing. -/
structure AcceptsQuietly (r : StatusReq) (now : Int) (c : Rep Q U H) : Prop where
  seq : nextSeq r r.newStatus = c.job.nextSeq
  quiet : isFinish c.status = true ∨
    (c.stays r.newStatus = true ∧ c.QuietAction r r.newStatus ∧ c.KeepsReasons r r.newStatus now)

/-- The report tells nothing new about the processes of the job. -/
def KnowsProcess (r : StatusReq) (c : Rep Q U H) : Prop :=
  isStart c.status = true → isStart r.newStatus = true →
    c.job.jobPid ≠ 0 ∧ c.newExec r = false

theorem learn_of_knows (hk : c.KnowsProcess r) (old : Status) (stop : Bool) (h : H) (now : Int) :
    c.learn E old r.newStatus stop r h now = c.checkSeq E old r.newStatus stop r h now := by
  unfold learn
  by_cases hs : (isStart c.status && isStart r.newStatus) = true
  · rw [if_pos hs]
    simp only [Bool.and_eq_true] at hs
    obtain ⟨hpid, hexec⟩ := hk hs.1 hs.2
    rw [learnPid, if_neg hpid]
    dsimp only
    rw [if_neg (by simp [hexec])]
  · rw [if_neg hs]

/-- **The reports that change nothing.** A post-execution state is ignored only if the job is not
done. Any other report has the usage of the job, and then it is invalid; or it is about a failed
start, but not of this execution; or it tells nothing new about the processes of the job, and it
is `stale` or what it says of actions, reasons and state is known. -/
def Quiet (stale : Prop) (r : StatusReq) (h : H) (now : Int) (c : Rep Q U H) : Prop :=
  if isPostFinish r.newStatus then has c.status jobStatDone = false
  else c.RepeatsUsage r now ∧ (invalid r = true ∨
    if startFails r then
      c.job.newReason = r.reason ∧ ¬ (isStart c.status = true ∧ c.job.jp.hPtr.head? = some h)
    else c.KnowsProcess r ∧ (stale ∨ c.AcceptsQuietly r now))

variable {now : Int}

theorem startFailed_of_not
    (hno : ¬ (isStart c.status = true ∧ c.job.jp.hPtr.head? = some h)) :
    c.startFailed E r h now = c.setReason r.reason := by
  unfold startFailed
  refine if_neg ?_
  rw [Bool.and_eq_true, decide_eq_true_eq]
  exact hno

theorem isInZomJobList_startFailed (r : StatusReq) (h : H) (now : Int) (c : Rep Q U H) :
    (c.startFailed E r h now).isInZomJobList h r = c.isInZomJobList h r := by
  unfold startFailed
  dsimp only
  split_ifs
  · obtain ⟨hzjl, hid, -⟩ := jStatusChange_keeps E jobStatPend now (c.setReason r.reason)
    exact isInZomJobList_congr hzjl hid h r
  · exact isInZomJobList_congr (c := c) rfl rfl h r

/-! ## The staleness test -/

section Checked

variable (hp : isPend c.status = false) (hz : c.isInZomJobList h r = none)
include hp hz

/-- The report ends no zombie, so it comes to the staleness test. -/
theorem checkSeq_eq (old new : Status) (stop : Bool) (now : Int) :
    c.checkSeq E old new stop r h now =
      if c.discards r h then (c, .noError)
      else if isFinish c.status then (c.accept r new, .noError)
      else (c.accept r new).handleJobJCCA E old new stop r h now := by
  have hforget : c.forgetAction r = c := by
    unfold forgetAction
    rw [hp]
    simp
  unfold checkSeq
  simp only [hforget, ite_self, hz]
  rfl

theorem same_checkSeq
    (hold : has old jobStatPreExec = has c.status jobStatPreExec) (stop : Bool) (now : Int) :
    Same c (c.checkSeq E old r.newStatus stop r h now).1 ↔
      c.discards r h = true ∨ c.AcceptsQuietly r now := by
  rw [checkSeq_eq E hp hz]
  by_cases hd : c.discards r h = true
  · rw [if_pos hd]
    exact ⟨fun _ => .inl hd, fun _ => .refl c⟩
  rw [if_neg hd]
  by_cases hseq : nextSeq r r.newStatus = c.job.nextSeq
  · -- The job itself is not changed by the acceptance.
    have hjob : (c.accept r r.newStatus).job = c.job := by
      show ({ c.job with nextSeq := nextSeq r r.newStatus } : SbdJob Q U H) = c.job
      rw [hseq]
    have hsame : ∀ x : Rep Q U H, Same c x ↔ Same (c.accept r r.newStatus) x := by
      intro x
      constructor
      · exact fun hx => { hx with job := hx.job.trans hjob.symm }
      · exact fun hx => { hx with job := hx.job.trans hjob }
    have hquiet : c.AcceptsQuietly r now ↔ (isFinish c.status = true ∨
        (c.stays r.newStatus = true ∧ c.QuietAction r r.newStatus ∧
          c.KeepsReasons r r.newStatus now)) := ⟨fun h => h.quiet, fun h => ⟨hseq, h⟩⟩
    rw [hquiet]
    by_cases hf : isFinish c.status = true
    · rw [if_pos hf, hsame]
      exact ⟨fun _ => .inr (.inl hf), fun _ => .refl _⟩
    · rw [if_neg hf, hsame, same_handleJobJCCA E (c := c.accept r r.newStatus) hp hold]
      have hcongr : (c.accept r r.newStatus).stays r.newStatus = c.stays r.newStatus ∧
          ((c.accept r r.newStatus).QuietAction r r.newStatus ↔ c.QuietAction r r.newStatus) ∧
          ((c.accept r r.newStatus).KeepsReasons r r.newStatus now ↔
            c.KeepsReasons r r.newStatus now) := ⟨rfl, Iff.rfl, Iff.rfl⟩
      rw [hcongr.1, hcongr.2.1, hcongr.2.2]
      simp [hd, hf]
  · have hno : ¬ (c.discards r h = true ∨ c.AcceptsQuietly r now) := by
      rintro (hd' | hq)
      · exact hd hd'
      · exact hseq hq.seq
    refine ⟨fun hsame => ?_, fun hq => absurd hq hno⟩
    exfalso
    by_cases hf : isFinish c.status = true
    · rw [if_pos hf] at hsame
      exact hseq (congrArg SbdJob.nextSeq hsame.job)
    · rw [if_neg hf] at hsame
      have hkeep := handleJobJCCA_keeps E (c := c.accept r r.newStatus) hp hold r.newStatus stop r h
        now
      rcases hkeep with hlt | ⟨-, -, hnext⟩
      · exact hsame.not_lt hlt
      · exact hseq (hnext.symm.trans (congrArg SbdJob.nextSeq hsame.job))

/-- The staleness test and what comes after it keep the usage, unless an event record is written. -/
theorem checkSeq_keeps
    (hold : has old jobStatPreExec = has c.status jobStatPreExec) (new : Status) (stop : Bool)
    (now : Int) :
    c.log.length < (c.checkSeq E old new stop r h now).1.log.length ∨
      ((c.checkSeq E old new stop r h now).1.log.length = c.log.length ∧
        SameUsage c (c.checkSeq E old new stop r h now).1) := by
  rw [checkSeq_eq E hp hz]
  split_ifs
  · exact .inr ⟨rfl, .refl c⟩
  · exact .inr ⟨rfl, ⟨rfl, rfl, rfl, rfl⟩⟩
  · have hkeep := handleJobJCCA_keeps E (c := c.accept r new) hp hold new stop r h now
    exact hkeep.imp_right fun ⟨heq, hu, _⟩ => ⟨heq, { hu with }⟩

omit hz in
/-- A report on a job that is not pending comes to `learn`. -/
theorem received_eq (old new : Status) (r : StatusReq) (h : H) (now : Int) :
    c.received E old new r h now = c.learn E old new false r h now := by
  unfold received
  rw [if_neg (by simp [hp])]

/-- What is learnt about the processes is logged. -/
theorem lt_learn
    (hk : ¬ c.KnowsProcess r) (hold : has old jobStatPreExec = has c.status jobStatPreExec)
    (stop : Bool) (now : Int) :
    c.log.length < (c.learn E old r.newStatus stop r h now).1.log.length := by
  unfold KnowsProcess at hk
  push Not at hk
  obtain ⟨hs1, hs2, hk⟩ := hk
  obtain ⟨d, hd⟩ : ∃ d, c.learnPid r = d := ⟨_, rfl⟩
  -- Neither step changes the state of the job or the zombies.
  have hst : d.status = c.status := by
    rw [← hd, learnPid]
    split_ifs <;> rfl
  have hzd : d.isInZomJobList h r = none := by
    rw [← hd, learnPid]
    split_ifs
    · exact hz
    · exact hz
  have hle : c.log.length ≤ d.log.length ∧ (c.job.jobPid = 0 → c.log.length < d.log.length) := by
    rw [← hd, learnPid]
    split_ifs with hpid
    · simp
    · exact ⟨le_refl _, fun h0 => absurd h0 hpid⟩
  have hrest : ∀ x : Rep Q U H, x.status = c.status → x.isInZomJobList h r = none →
      x.log.length ≤ (x.checkSeq E old r.newStatus stop r h now).1.log.length := by
    intro x hx hzx
    have hkeep := checkSeq_keeps E (c := x) (hx ▸ hp) hzx (hx ▸ hold) r.newStatus stop now
    rcases hkeep with hlt | ⟨heq, -⟩
    · exact hlt.le
    · exact heq.ge
  unfold learn
  rw [if_pos (by simp [hs1, hs2])]
  dsimp only
  rw [hd]
  by_cases hexec : d.newExec r = true
  · rw [if_pos hexec]
    have hlearn : d.log.length < (d.learnExec r).log.length := by simp [learnExec]
    split_ifs
    · exact hle.1.trans_lt hlearn
    · exact (hle.1.trans_lt hlearn).trans_le (hrest (d.learnExec r) hst hzd)
  · rw [if_neg hexec]
    refine lt_of_lt_of_le ?_ (hrest d hst hzd)
    by_cases hpid : c.job.jobPid = 0
    · exact hle.2 hpid
    · have hdc : d = c := by rw [← hd, learnPid, if_neg hpid]
      rw [hdc] at hexec
      exact absurd (by simpa using hk hpid) hexec

omit hz in
/-- A failed start of the job is logged. -/
theorem lt_startFailed (hyes : isStart c.status = true ∧ c.job.jp.hPtr.head? = some h) (now : Int) :
    c.log.length < (c.startFailed E r h now).log.length := by
  unfold startFailed
  dsimp only
  rw [if_pos]
  · refine lt_jStatusChange E _ now _ ?_ ?_ (known_ne_of_pend hp (by decide)) <;> rfl
  · rw [Bool.and_eq_true, decide_eq_true_eq]
    exact hyes

/-- The function once the usage is stored, for a report that matches no zombie. -/
theorem checked_eq (old : Status) (now : Int) :
    (c.checked E old r h now).1 =
      if invalid r then c
      else if startFails r then c.startFailed E r h now
      else (c.learn E old r.newStatus false r h now).1 := by
  unfold checked
  split_ifs with hi hf
  · rfl
  · dsimp only
    rw [isInZomJobList_startFailed, hz, if_neg (by simp)]
  · rw [received_eq E hp]

theorem checked_keeps (hold : has old jobStatPreExec = has c.status jobStatPreExec) (now : Int) :
    c.log.length < (c.checked E old r h now).1.log.length ∨
      ((c.checked E old r h now).1.log.length = c.log.length ∧
        SameUsage c (c.checked E old r h now).1) := by
  rw [checked_eq E hp hz]
  split_ifs with hi hf
  · exact .inr ⟨rfl, .refl c⟩
  · by_cases hyes : isStart c.status = true ∧ c.job.jp.hPtr.head? = some h
    · exact .inl (lt_startFailed E hp hyes now)
    · rw [startFailed_of_not E hyes]
      exact .inr ⟨rfl, ⟨rfl, rfl, rfl, rfl⟩⟩
  · by_cases hk : c.KnowsProcess r
    · rw [learn_of_knows E hk]
      exact checkSeq_keeps E hp hz hold r.newStatus false now
    · exact .inl (lt_learn E hp hz hk hold false now)

theorem same_checked (now : Int) :
    Same c (c.checked E c.status r h now).1 ↔ invalid r = true ∨
      if startFails r then
        c.job.newReason = r.reason ∧ ¬ (isStart c.status = true ∧ c.job.jp.hPtr.head? = some h)
      else c.KnowsProcess r ∧ (c.discards r h = true ∨ c.AcceptsQuietly r now) := by
  rw [checked_eq E hp hz]
  by_cases hi : invalid r = true
  · rw [if_pos hi]
    exact ⟨fun _ => .inl hi, fun _ => .refl c⟩
  rw [if_neg hi, or_iff_right hi]
  by_cases hf : startFails r = true
  · rw [if_pos hf, if_pos hf]
    by_cases hyes : isStart c.status = true ∧ c.job.jp.hPtr.head? = some h
    · refine ⟨fun hsame => absurd (lt_startFailed E hp hyes now) hsame.not_lt, ?_⟩
      exact fun hno => absurd hyes hno.2
    · rw [startFailed_of_not E hyes]
      constructor
      · exact fun hsame => ⟨(congrArg SbdJob.newReason hsame.job).symm, hyes⟩
      · rintro ⟨heq, -⟩
        refine ⟨?_, rfl, rfl, rfl⟩
        show ({ c.job with newReason := r.reason } : SbdJob Q U H) = c.job
        rw [← heq]
  · rw [if_neg hf, if_neg hf]
    by_cases hk : c.KnowsProcess r
    · rw [learn_of_knows E hk, same_checkSeq E hp hz rfl]
      exact ⟨fun h => ⟨hk, h⟩, fun h => h.2⟩
    · refine ⟨fun hsame => absurd (lt_learn E hp hz hk rfl false now) hsame.not_lt, ?_⟩
      exact fun h => absurd h.1 hk

theorem le_statusJob (now : Int) : c.log.length ≤ (c.statusJob E r h now).1.log.length := by
  unfold statusJob
  split_ifs
  · unfold postReport
    split_ifs
    · simp
    · exact le_refl _
  · have hzu := (isInZomJobList_takeUsage E r h now c).trans hz
    rw [← log_takeUsage E r now c]
    have hkeep := checked_keeps E (c := c.takeUsage E r now) hp hzu rfl now
    rcases hkeep with hlt | ⟨heq, -⟩
    · exact hlt.le
    · exact heq.ge

/-- **A report changes nothing just if it is quiet**, on a job that is not pending, if it matches no
zombie. -/
theorem same_statusJob (now : Int) :
    Same c (c.statusJob E r h now).1 ↔ c.Quiet (c.discards r h = true) r h now := by
  unfold statusJob Quiet
  by_cases hpost : isPostFinish r.newStatus = true
  · rw [if_pos hpost, if_pos hpost]
    unfold postReport
    by_cases hdone : has c.status jobStatDone = true
    · rw [if_pos hdone]
      refine ⟨fun hsame => absurd ?_ hsame.not_lt, fun hno => ?_⟩
      · simp
      · simp [hdone] at hno
    · rw [if_neg hdone]
      exact ⟨fun _ => by simpa using hdone, fun _ => .refl c⟩
  rw [if_neg hpost, if_neg hpost]
  have hzu := (isInZomJobList_takeUsage E r h now c).trans hz
  by_cases hu : c.RepeatsUsage r now
  · rw [takeUsage_of_repeats E hu, same_checked E hp hz]
    exact ⟨fun h => ⟨hu, h⟩, fun h => h.2⟩
  · -- The usage of the report is stored and stays, whatever comes after it.
    refine ⟨fun hsame => absurd ?_ hu, fun h => absurd h.1 hu⟩
    have hkeeps := checked_keeps E (c := c.takeUsage E r now) hp hzu rfl now
    rcases hkeeps with hlt | ⟨-, hkeep⟩
    · rw [log_takeUsage] at hlt
      exact absurd hlt hsame.not_lt
    · refine repeatsUsage_of_sameUsage E ⟨?_, ?_, ?_, ?_⟩
      · exact (congrArg SbdJob.maxMem hsame.job).symm.trans hkeep.maxMem
      · exact (congrArg SbdJob.avgMem hsame.job).symm.trans hkeep.avgMem
      · exact (congrArg SbdJob.jRusageUpdateTime hsame.job).symm.trans hkeep.time
      · exact (congrArg SbdJob.runRusage hsame.job).symm.trans hkeep.runRusage

end Checked

end Rep

end Volclava
