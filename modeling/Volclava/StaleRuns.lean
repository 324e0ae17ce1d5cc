import Volclava.StaleReport
import Volclava.Lib.Run

/-!
# Obsolete status reports in the state of mbatchd

What `StaleReport` says about one job is carried to the state of mbatchd, where a report also shows
that its host is up: jobs of the host whose state was unknown are then logged. The second half is
about whole executions: the reports of one execution arrive more than once and in any order.

- `SbdState.Obsolete`: a report from another host, or one that is not newer than the last accepted.
- `SbdState.applies`: the report comes to the staleness test and passes it.
- `obsolete_reports`: which obsolete reports change nothing; and in a run in which the newest report
  applied does not come again, and older ones come in the same turn of the numbers and less than
  half a turn late, each report is applied at most once.
-/

namespace Volclava

open Function

variable {Q U H : Type} {c : Rep Q U H} {r : StatusReq} {h : H} {now : Int}

/-! ## The number of the last report accepted -/

namespace Rep

/-- The number of the last report, and the number expected next, are the same. -/
structure SameSeq (c d : Rep Q U H) : Prop where
  accepted : d.accepted = c.accepted
  nextSeq : d.job.nextSeq = c.job.nextSeq

theorem SameSeq.trans {c d e : Rep Q U H} (h : SameSeq c d) (h' : SameSeq d e) : SameSeq c e :=
  ⟨h'.accepted.trans h.accepted, h'.nextSeq.trans h.nextSeq⟩

theorem sameSeq_settle (r : StatusReq) (new : Status) (now : Int) (c : Rep Q U H) :
    SameSeq c (c.settle r new now) := by
  rw [settle_eq]
  exact ⟨rfl, rfl⟩

theorem sameSeq_finishReport (r : StatusReq) (new : Status) (c : Rep Q U H) :
    SameSeq c (c.finishReport r new) := by
  unfold finishReport
  dsimp only
  split_ifs <;> exact ⟨rfl, rfl⟩

/-- The report comes to the staleness test and passes it: it is no post-execution state, it is
valid, it is not about a failed start, and it does not only tell the execution environment. -/
def passes [DecidableEq H] (r : StatusReq) (h : H) (c : Rep Q U H) : Bool :=
  !isPostFinish r.newStatus && !invalid r && !startFails r &&
    !(isStart c.status && isStart r.newStatus && c.newExec r && c.status = r.newStatus) &&
    !c.discards r h

/-- What is read before the staleness test has not changed when the report comes to it. -/
structure Before (c d : Rep Q U H) : Prop extends SameSeq c d where
  status : d.status = c.status
  zjl : d.zjl = c.zjl
  jobId : d.job.jobId = c.job.jobId
  hosts : d.job.jp.hPtr = c.job.jp.hPtr

theorem before_takeUsage [DecidableEq Q] (E : SbdEnv Q U H) (r : StatusReq) (now : Int)
    (c : Rep Q U H) : Before c (c.takeUsage E r now) := by
  refine ⟨⟨?_, rfl⟩, rfl, zjl_takeUsage E r now c, rfl, rfl⟩
  unfold takeUsage
  dsimp only
  split_ifs
  · rw [(charge_eq E c _).choose_spec]
  · rfl

theorem before_learnPid {d : Rep Q U H} (h : Before c d) (r : StatusReq) :
    Before c (d.learnPid r) := by
  unfold learnPid
  split_ifs
  · exact { h with }
  · exact h

theorem before_learnExec {d : Rep Q U H} (h : Before c d) (r : StatusReq) :
    Before c (d.learnExec r) :=
  { h with }

theorem newExec_learnPid (r : StatusReq) (c : Rep Q U H) :
    (c.learnPid r).newExec r = c.newExec r := by
  unfold learnPid
  split_ifs <;> rfl

variable [DecidableEq Q] [DecidableEq U] [DecidableEq H] (E : SbdEnv Q U H)

theorem sameSeq_changeStatus (old : Status) {new : Status} (hnew : has new jobStatPend = false)
    (stop : Bool) (r : StatusReq) (now : Int) (c : Rep Q U H) :
    SameSeq c (c.changeStatus E old new stop r now).1 := by
  have hchange : ∀ d : Rep Q U H, SameSeq c d → SameSeq c (d.jStatusChange E new now) :=
    fun d hd =>
      have hkeep := (jStatusChange_keeps E new now d).2.2 hnew
      hd.trans ⟨hkeep.1, hkeep.2⟩
  unfold changeStatus
  dsimp only
  split_ifs
  · refine ⟨(hchange _ ?_).accepted, (hchange _ ?_).nextSeq⟩ <;> exact ⟨rfl, rfl⟩
  · refine ⟨(hchange _ ?_).accepted, (hchange _ ?_).nextSeq⟩ <;> exact ⟨rfl, rfl⟩
  · exact hchange _ ⟨rfl, rfl⟩
  · exact hchange _ ⟨rfl, rfl⟩

theorem sameSeq_action (r : StatusReq) (new : Status) (c : Rep Q U H) :
    SameSeq c (c.action E r new) := by
  unfold action chkpntAction signalAction
  dsimp only
  split_ifs <;> exact ⟨rfl, rfl⟩

theorem sameSeq_handleJobJCCA (old : Status) {new : Status}
    (hnew : has new jobStatPend = false) (stop : Bool) (r : StatusReq) (h : H) (now : Int) :
    SameSeq c (c.handleJobJCCA E old new stop r h now).1 := by
  have hact := sameSeq_action E r new c
  have hset : SameSeq c ((c.action E r new).settle r new now) :=
    hact.trans (sameSeq_settle r new now _)
  unfold handleJobJCCA
  dsimp only
  split_ifs
  · exact hact
  · exact hset
  · unfold newState
    rw [if_neg (by simp [hnew])]
    split_ifs
    · exact (hset.trans (sameSeq_finishReport r new _)).trans
        (sameSeq_changeStatus E old hnew stop r now _)
    · exact hset.trans (sameSeq_changeStatus E old hnew stop r now _)

/-- The last report is `r`, if it is applied, and otherwise the one it was. -/
def Numbers (r : StatusReq) (applied : Bool) (c d : Rep Q U H) : Prop :=
  if applied then d.accepted = some r.seq ∧ d.job.nextSeq = nextSeq r r.newStatus
  else SameSeq c d

section Report

variable (hp : isPend c.status = false) (hz : c.isInZomJobList h r = none)
  (hnew : has r.newStatus jobStatPend = false)
include hp hz hnew

theorem numbers_checkSeq {d : Rep Q U H} (hb : Before c d) (old : Status) (stop : Bool)
    (now : Int) :
    Numbers r (!c.discards r h) c (d.checkSeq E old r.newStatus stop r h now).1 := by
  have hd : d.discards r h = c.discards r h := by
    unfold discards
    rw [hb.hosts, hb.nextSeq]
  rw [checkSeq_eq E (hb.status ▸ hp) ((isInZomJobList_congr hb.zjl hb.jobId h r).trans hz), hd]
  cases c.discards r h with
  | true => exact hb.toSameSeq
  | false =>
    show _ = some r.seq ∧ _ = nextSeq r r.newStatus
    rw [if_neg (by simp)]
    split_ifs
    · exact ⟨rfl, rfl⟩
    · have hs := sameSeq_handleJobJCCA E (c := d.accept r r.newStatus) old hnew stop r h now
      exact ⟨hs.accepted, hs.nextSeq⟩

/-- **What a report does to the numbers**, on a job that is not pending: it is the last one if it
passes the staleness test, and otherwise they stay. -/
theorem numbers_statusJob (now : Int) :
    Numbers r (c.passes r h) c (c.statusJob E r h now).1 := by
  have hu := before_takeUsage E r now c
  have hrest {d : Rep Q U H} (hb : Before c d) :=
    numbers_checkSeq E hp hz hnew hb c.status false now
  have hf : startFails r = false := by simp [startFails, hnew]
  unfold statusJob passes
  cases hpost : isPostFinish r.newStatus with
  | true =>
    show SameSeq c _
    rw [if_pos rfl]
    unfold postReport
    split_ifs <;> exact ⟨rfl, rfl⟩
  | false =>
    rw [if_neg (by simp)]
    rw [checked_eq E (c := c.takeUsage E r now) hp
      ((isInZomJobList_takeUsage E r h now c).trans hz), hf]
    cases hi : invalid r with
    | true => exact hu.toSameSeq
    | false =>
      rw [if_neg (by simp), if_neg (by simp)]
      unfold learn
      by_cases hs : (isStart c.status && isStart r.newStatus) = true
      · rw [if_pos (by exact hs), hs]
        dsimp only
        have hexec : ((c.takeUsage E r now).learnPid r).newExec r = c.newExec r :=
          newExec_learnPid r (c.takeUsage E r now)
        rw [hexec]
        cases c.newExec r with
        | true =>
          rw [if_pos rfl]
          have hlearn := before_learnExec (before_learnPid hu r) r
          by_cases heq : c.status = r.newStatus
          · -- The early return.
            rw [if_pos heq]
            simpa [Numbers, heq] using hlearn.toSameSeq
          · rw [if_neg heq]
            simpa [heq] using hrest hlearn
        | false =>
          rw [if_neg (by simp)]
          simpa using hrest (before_learnPid hu r)
      · rw [if_neg (by exact hs)]
        simpa [hs] using hrest hu

end Report

end Rep

variable {job : SbdJob Q U H} {s : SbdState Q U H} {id : Nat}

namespace SbdState

/-! ## Hosts that are up again -/

/-- The job is there, with another status word but the same state, and so are the zombies. -/
structure Holds (s : SbdState Q U H) (id : Nat) (job : SbdJob Q U H) (s' : SbdState Q U H) :
    Prop where
  zjl : s'.zjl = s.zjl
  accepted : s'.accepted = s.accepted
  job : ∃ st, s'.jobs id = some { job with jp := { job.jp with jStatus := st } } ∧
    knownStatus st = knownStatus job.jp.jStatus

theorem holds_clearUnkwn {s' : SbdState Q U H} (h : Holds s id job s') (k : Nat) :
    Holds s id job (s'.clearUnkwn k) := by
  unfold clearUnkwn
  cases hk : s'.jobs k with
  | none => exact h
  | some x =>
    obtain ⟨hz, ha, st, hj, hst⟩ := h
    have hacc : Function.update s'.accepted k (s'.accepted k) = s.accepted := by
      rw [update_eq_self, ha]
    by_cases heq : id = k
    · subst heq
      obtain rfl := Option.some.inj (hk.symm.trans hj)
      refine ⟨hz, hacc, _, update_self .., ?_⟩
      exact (known_and_not_flag st rfl).trans hst
    · exact ⟨hz, hacc, st, (update_of_ne heq ..).trans hj, hst⟩

theorem length_clearUnkwn {k : Nat} (hk : (s.jobs k).isSome = true) :
    (s.clearUnkwn k).log.length = s.log.length + 1 := by
  unfold clearUnkwn
  obtain ⟨x, hx⟩ := Option.isSome_iff_exists.mp hk
  rw [hx]
  exact Rep.length_logNewstatus _

theorem isSome_clearUnkwn (s : SbdState Q U H) (k id : Nat) :
    ((s.clearUnkwn k).jobs id).isSome = (s.jobs id).isSome := by
  unfold clearUnkwn
  cases hk : s.jobs k with
  | none => rfl
  | some x =>
    by_cases heq : id = k
    · subst heq
      simp [unfocus, hk]
    · simp [unfocus, update_of_ne heq]

/-- Each job that is known again is logged. -/
theorem length_foldl_clearUnkwn (ks : List Nat) (s : SbdState Q U H)
    (h : ∀ k ∈ ks, (s.jobs k).isSome = true) :
    (ks.foldl clearUnkwn s).log.length = s.log.length + ks.length := by
  induction ks generalizing s with
  | nil => rfl
  | cons k ks ih =>
    rw [List.foldl_cons, ih, length_clearUnkwn (h k (by simp)), List.length_cons]
    · omega
    · intro x hx
      rw [isSome_clearUnkwn]
      exact h x (by simp [hx])

/-- A state that differs from `s` in what is known of the hosts only. -/
structure SameJobs (s s' : SbdState Q U H) : Prop where
  jobs : s'.jobs = s.jobs
  sjl : s'.sjl = s.sjl
  zjl : s'.zjl = s.zjl
  totals : s'.totals = s.totals
  shares : s'.shares = s.shares
  log : s'.log = s.log
  accepted : s'.accepted = s.accepted

theorem focus_congr {s' : SbdState Q U H} (h : SameJobs s s') (id : Nat) (job : SbdJob Q U H) :
    s'.focus id job = s.focus id job := by
  unfold focus
  rw [h.sjl, h.zjl, h.totals, h.shares, h.log, h.accepted]

variable [DecidableEq H]

/-- Jobs whose state was unknown are known to run when the host reports. -/
def Recovers (s : SbdState Q U H) (h : H) : Prop :=
  (s.unreach h = true ∨ s.unavail h = true) ∧ s.recovered h ≠ []

theorem isSome_of_mem_recovered {k : Nat} (hk : k ∈ s.recovered h) :
    (s.jobs k).isSome = true := by
  unfold recovered at hk
  have hk := (List.mem_filter.mp hk).2
  cases hj : s.jobs k with
  | none => simp [hj] at hk
  | some x => rfl

theorem holds_hostJobs (s : SbdState Q U H) (h : H) (hj : s.jobs id = some job) :
    Holds s id job (s.hostJobs h) :=
  List.foldlRecOn (s.recovered h) _ ⟨rfl, rfl, _, hj, rfl⟩ fun _ hs k _ => holds_clearUnkwn hs k

theorem hStatChange_cases (s : SbdState Q U H) (h : H) (hj : s.jobs id = some job) :
    (s.Recovers h ∧ s.log.length < (s.hStatChange h).log.length ∧
        Holds s id job (s.hStatChange h)) ∨
      (¬ s.Recovers h ∧ SameJobs s (s.hStatChange h)) := by
  -- `hostJobs` after a flag of the host has been cleared.
  have hhost : ∀ s' : SbdState Q U H, s.unreach h = true ∨ s.unavail h = true → SameJobs s s' →
      s'.recovered h = s.recovered h →
      (s.Recovers h ∧ s.log.length < (s'.hostJobs h).log.length ∧ Holds s id job (s'.hostJobs h)) ∨
        (¬ s.Recovers h ∧ SameJobs s (s'.hostJobs h)) := by
    intro s' hflag hs hrec
    by_cases hnil : s.recovered h = []
    · refine .inr ⟨fun hr => hr.2 hnil, ?_⟩
      unfold hostJobs
      rw [hrec, hnil]
      exact hs
    · refine .inl ⟨⟨hflag, hnil⟩, ?_, ?_⟩
      · unfold hostJobs
        rw [length_foldl_clearUnkwn _ _ fun k hk => isSome_of_mem_recovered hk, hs.log, hrec]
        have := List.length_pos_iff.mpr hnil
        omega
      · have hh := holds_hostJobs s' h (hs.jobs.symm ▸ hj : s'.jobs id = some job)
        exact ⟨hh.zjl.trans hs.zjl, hh.accepted.trans hs.accepted, hh.job⟩
  unfold hStatChange
  split_ifs with h1 h2
  · exact hhost _ (.inl h1) ⟨rfl, rfl, rfl, rfl, rfl, rfl, rfl⟩ rfl
  · exact hhost _ (.inr h2) ⟨rfl, rfl, rfl, rfl, rfl, rfl, rfl⟩ rfl
  · exact .inr ⟨fun hr => hr.1.elim h1 h2, rfl, rfl, rfl, rfl, rfl, rfl, rfl⟩

/-! ## Obsolete reports -/

/-- Everything that an obsolete report must not change. -/
structure Same (s s' : SbdState Q U H) : Prop where
  jobs : s'.jobs = s.jobs
  totals : s'.totals = s.totals
  shares : s'.shares = s.shares
  log : s'.log = s.log

/-- The sequence number `a` comes after `b`, in the cycle from 1 to `maxSeqNum - 1`: at most half a
cycle lies between them. -/
def newer (a b : Int) : Prop :=
  0 < (a - b) % (maxSeqNum - 1) ∧ (a - b) % (maxSeqNum - 1) ≤ maxSeqNum / 2

instance (a b : Int) : Decidable (newer a b) := by unfold newer; infer_instance

/-- A report on a started or finished job that matches no zombie. -/
structure OnJob (s : SbdState Q U H) (id : Nat) (job : SbdJob Q U H) (r : StatusReq) (h : H) :
    Prop where
  found : s.jobs id = some job
  state : isStart job.jp.jStatus = true ∨ isFinish job.jp.jStatus = true
  notPend : isPend job.jp.jStatus = false
  zombie : (s.focus id job).isInZomJobList h r = none

/-- The report is from another host than the first execution host of the job, or not newer than the
last one accepted for this execution. -/
def Obsolete (s : SbdState Q U H) (id : Nat) (job : SbdJob Q U H) (r : StatusReq) (h : H) : Prop :=
  job.jp.hPtr.head? ≠ some h ∨ ∃ a, s.accepted id = some a ∧ ¬ newer r.seq a

/-- sbatchd sends the numbers below `maxSeqNum`, and the job expects the number of the last report
accepted. -/
structure Numbered (s : SbdState Q U H) (id : Nat) (job : SbdJob Q U H) (r : StatusReq) : Prop where
  seq : 1 ≤ r.seq ∧ r.seq < maxSeqNum
  next : ∀ a, s.accepted id = some a → job.nextSeq = a ∧ 1 ≤ a ∧ a < maxSeqNum

/-- The host brings back no job whose state was unknown, and the report is quiet for the job. It is
stale if it is from another host, or if its number is below the expected one. -/
def Quiet (s : SbdState Q U H) (id : Nat) (job : SbdJob Q U H) (r : StatusReq) (h : H) (now : Int) :
    Prop :=
  ¬ s.Recovers h ∧
    (s.focus id job).Quiet (job.jp.hPtr.head? ≠ some h ∨ r.seq < job.nextSeq) r h now

/-- The staleness test has one half of the numbers to look at only: an obsolete number cannot be
below the expected one by more than half a cycle. -/
theorem discards_of_obsolete (hnum : s.Numbered id job r) (hob : s.Obsolete id job r h) :
    (s.focus id job).discards r h = true ↔ job.jp.hPtr.head? ≠ some h ∨ r.seq < job.nextSeq := by
  unfold Rep.discards
  simp only [Bool.or_eq_true, Bool.and_eq_true, decide_eq_true_eq]
  refine or_congr_right' fun hhost => and_iff_left_of_imp fun hlt => ?_
  rcases hob with hother | ⟨a, ha, hnot⟩
  · exact absurd hother hhost
  · obtain ⟨hnext, ha⟩ := hnum.next a ha
    have hseq := hnum.seq
    unfold newer at hnot
    change r.seq < job.nextSeq at hlt
    show job.nextSeq - r.seq < _
    rw [hnext] at hlt ⊢
    unfold maxSeqNum at *
    omega

/-- The report is applied: it comes to the staleness test, once the host is known to be up, and
passes it. -/
def applies (s : SbdState Q U H) (id : Nat) (r : StatusReq) (h : H) : Bool :=
  ((s.hStatChange h).jobs id).any fun job => ((s.hStatChange h).focus id job).passes r h

/-- The host may bring the job itself back, which changes no more than its status word. -/
theorem OnJob.hStatChange (hon : s.OnJob id job r h) :
    ∃ job', job'.nextSeq = job.nextSeq ∧ (s.hStatChange h).accepted = s.accepted ∧
      (s.hStatChange h).OnJob id job' r h := by
  have hkeep : ∀ st, (s.hStatChange h).jobs id =
      some { job with jp := { job.jp with jStatus := st } } →
      knownStatus st = knownStatus job.jp.jStatus → (s.hStatChange h).zjl = s.zjl →
      (s.hStatChange h).OnJob id { job with jp := { job.jp with jStatus := st } } r h := by
    intro st hj hst hz
    refine ⟨hj, ?_, (isPend_congr hst).trans hon.notPend, ?_⟩
    · rw [isStart_congr hst, isFinish_congr hst]
      exact hon.state
    · exact (Rep.isInZomJobList_congr (c := s.focus id job) (d := (s.hStatChange h).focus id _)
        hz rfl h r).trans hon.zombie
  rcases hStatChange_cases s h hon.found with ⟨-, -, hz, ha, st, hj, hst⟩ | ⟨-, hs⟩
  · refine ⟨_, ?_, ha, hkeep st hj hst hz⟩
    rfl
  · refine ⟨_, ?_, hs.accepted, hkeep _ (by rw [hs.jobs, hon.found]) rfl hs.zjl⟩
    rfl

variable [DecidableEq Q] [DecidableEq U] (E : SbdEnv Q U H)

theorem statusJob_eq {job' : SbdJob Q U H} (hj : s.jobs id = some job)
    (hp : isPend job.jp.jStatus = false) (hj' : (s.hStatChange h).jobs id = some job')
    (r : StatusReq) (now : Int) :
    (s.statusJob E id r (some h) now).1 =
      (s.hStatChange h).unfocus id (((s.hStatChange h).focus id job').statusJob E r h now).1 := by
  unfold statusJob
  rw [hj]
  dsimp only
  rw [if_neg (by simp [hp]), hj']

/-- **An obsolete report changes nothing just if it is quiet.** -/
theorem same_statusJob (hon : s.OnJob id job r h) (hnum : s.Numbered id job r)
    (hob : s.Obsolete id job r h) (now : Int) :
    s.Same (s.statusJob E id r (some h) now).1 ↔ s.Quiet id job r h now := by
  unfold Quiet
  rw [← discards_of_obsolete hnum hob]
  rcases hStatChange_cases s h hon.found with ⟨hr, hlt, -⟩ | ⟨hr, hs⟩
  · -- The log has grown already.
    refine ⟨fun hsame => ?_, fun hq => absurd hr hq.1⟩
    obtain ⟨job', -, -, hon'⟩ := hon.hStatChange
    rw [statusJob_eq E hon.found hon.notPend hon'.found] at hsame
    have hle := Rep.le_statusJob E (c := (s.hStatChange h).focus id _) hon'.notPend hon'.zombie now
    have hge : s.log.length < s.log.length := by
      calc s.log.length < (s.hStatChange h).log.length := hlt
        _ ≤ (((s.hStatChange h).focus id _).statusJob E r h now).1.log.length := hle
        _ = s.log.length := congrArg List.length hsame.log
    exact absurd hge (lt_irrefl _)
  · have hj' : (s.hStatChange h).jobs id = some job := by rw [hs.jobs, hon.found]
    rw [statusJob_eq E hon.found hon.notPend hj', focus_congr hs]
    rw [and_iff_right hr, ← Rep.same_statusJob E (c := s.focus id job) hon.notPend hon.zombie]
    constructor
    · intro hx
      refine { hx with job := ?_ }
      have hjobs : Function.update (s.hStatChange h).jobs id _ = s.jobs := hx.jobs
      have hval := congrFun hjobs id
      rw [update_self, hon.found] at hval
      exact Option.some.inj hval
    · intro hx
      refine { hx with jobs := ?_ }
      show Function.update (s.hStatChange h).jobs id (some _) = s.jobs
      rw [hx.job, hs.jobs]
      exact update_eq_self_iff.mpr hon.found.symm

/-- A report that does not send the job back to pending is the last one if it is applied. -/
theorem numbers_statusJob (hon : s.OnJob id job r h) (hnew : has r.newStatus jobStatPend = false)
    (now : Int) :
    ∃ job', (s.statusJob E id r (some h) now).1.jobs id = some job' ∧
      if s.applies id r h then
        (s.statusJob E id r (some h) now).1.accepted id = some r.seq ∧
          job'.nextSeq = Rep.nextSeq r r.newStatus
      else (s.statusJob E id r (some h) now).1.accepted id = s.accepted id ∧
        job'.nextSeq = job.nextSeq := by
  obtain ⟨job', hnext, hacc, hon'⟩ := hon.hStatChange
  have hnum := Rep.numbers_statusJob E (c := (s.hStatChange h).focus id job') hon'.notPend
    hon'.zombie hnew now
  have happ : s.applies id r h = ((s.hStatChange h).focus id job').passes r h := by
    unfold applies
    rw [hon'.found]
    rfl
  rw [statusJob_eq E hon.found hon.notPend hon'.found, happ]
  refine ⟨_, update_self .., ?_⟩
  show if _ then Function.update _ id _ id = _ ∧ _ else Function.update _ id _ id = _ ∧ _
  rw [update_self]
  unfold Rep.Numbers at hnum
  split_ifs at hnum ⊢
  · exact hnum
  · exact ⟨hnum.accepted.trans (congrFun hacc id), hnum.nextSeq.trans hnext⟩

end SbdState

/-! ## The reports of one execution -/

/-- mbatchd while the reports of one execution of a job arrive. `top` is the number, in the count of
sbatchd, of the last report applied; `ended` says that a report has sent the job back to pending,
which ends the execution. -/
structure Exec (Q U H : Type) where
  mbd : SbdState Q U H
  top : Option Nat
  ended : Bool

/-- A report arrives, or mbatchd does something else. -/
inductive ExecEvent (Q U H : Type) where
  | report (n : Nat) (now : Int)
  | other (s : SbdState Q U H)

/-- The sequence number of the report that sbatchd counts as number `n`: `status_job` goes back to
1 when it comes to `maxSeqNum`. -/
def seqOf (n : Nat) : Int := n % (maxSeqNum - 1) + 1

theorem seqOf_bounds (n : Nat) : 1 ≤ seqOf n ∧ seqOf n < maxSeqNum := by
  unfold seqOf
  unfold maxSeqNum
  omega

namespace Exec

section Defs

variable [DecidableEq Q] [DecidableEq U] [DecidableEq H] (E : SbdEnv Q U H) (id : Nat) (h : H)
  (sent : Nat → StatusReq)

def step (x : Exec Q U H) : ExecEvent Q U H → Exec Q U H
  | .report n now =>
    { mbd := (x.mbd.statusJob E id (sent n) (some h) now).1
      top := if x.mbd.applies id (sent n) h then some n else x.top
      ended := x.ended || has (sent n).newStatus jobStatPend }
  | .other s => { x with mbd := s }

/-- A report comes while the execution lasts. It is not the newest one applied, and an older one
comes in the same turn of the numbers, less than half a turn late. What else mbatchd does keeps the
sequence numbers of the job. -/
def Ok (x : Exec Q U H) : ExecEvent Q U H → Prop
  | .report n _ =>
    x.ended = false ∧ (∃ job, x.mbd.OnJob id job (sent n) h) ∧
      ∀ m, x.top = some m → n ≠ m ∧
        (n < m → (n : Int) / (maxSeqNum - 1) = m / (maxSeqNum - 1) ∧
          (m : Int) - n < maxSeqNum / 2)
  | .other s =>
    ∃ job job', x.mbd.jobs id = some job ∧ s.jobs id = some job' ∧
      s.accepted id = x.mbd.accepted id ∧ job'.nextSeq = job.nextSeq

/-- The job has just been started: no report has been accepted. -/
structure Begins (x : Exec Q U H) (job : SbdJob Q U H) : Prop where
  found : x.mbd.jobs id = some job
  accepted : x.mbd.accepted id = none
  nextSeq : job.nextSeq = 1
  top : x.top = none
  ended : x.ended = false

/-- The last report applied is the last one accepted, and its number is the one that the job
expects. -/
def Inv (x : Exec Q U H) : Prop :=
  x.ended = true ∨ ∃ job, x.mbd.jobs id = some job ∧
    x.mbd.accepted id = x.top.map seqOf ∧ job.nextSeq = (x.top.map seqOf).getD 1

end Defs

variable {id : Nat} {sent : Nat → StatusReq} {x : Exec Q U H} {n : Nat}

theorem inv_of_begins {job : SbdJob Q U H} (hb : Begins id x job) : Inv id x := by
  refine .inr ⟨job, hb.found, ?_, ?_⟩
  · rw [hb.accepted, hb.top]
    rfl
  · rw [hb.nextSeq, hb.top]
    rfl

/-- The number expected after an accepted report is its own. -/
theorem nextSeq_seqOf (hseq : r.seq = seqOf n)
    (hnew : has r.newStatus jobStatPend = false) : Rep.nextSeq r r.newStatus = seqOf n := by
  unfold Rep.nextSeq
  rw [hseq, if_neg (by simp [hnew, (seqOf_bounds n).2])]

/-- The hypotheses about numbers hold in every run. -/
theorem Inv.numbered (hinv : x.Inv id) (hend : x.ended = false) (hseq : r.seq = seqOf n)
    {job : SbdJob Q U H} (hj : x.mbd.jobs id = some job) : x.mbd.Numbered id job r := by
  rcases hinv with hend' | ⟨job₀, hj₀, ha, hn⟩
  · simp [hend] at hend'
  obtain rfl := Option.some.inj (hj.symm.trans hj₀)
  refine ⟨hseq ▸ seqOf_bounds n, fun a hacc => ?_⟩
  rw [hacc] at ha
  obtain ⟨m, hm, rfl⟩ := Option.map_eq_some_iff.mp ha.symm
  rw [hn, hm]
  exact ⟨rfl, seqOf_bounds m⟩

variable [DecidableEq H]

/-- **Only a report above the last one applied is applied.** -/
theorem lt_of_applies (hseq : (sent n).seq = seqOf n) (hok : x.Ok id h sent (.report n now))
    (hinv : x.Inv id) (happ : x.mbd.applies id (sent n) h = true) {m : Nat} (hm : x.top = some m) :
    m < n := by
  obtain ⟨hend, ⟨job, hon⟩, hwin⟩ := hok
  obtain ⟨hne, hold⟩ := hwin m hm
  by_contra hge
  obtain ⟨hturn, hhalf⟩ := hold (by omega)
  rcases hinv with hend' | ⟨job₀, hj₀, -, hn⟩
  · simp [hend] at hend'
  obtain rfl := Option.some.inj (hon.found.symm.trans hj₀)
  obtain ⟨job', hnext, -, hon'⟩ := hon.hStatChange
  have hd : ((x.mbd.hStatChange h).focus id job').discards (sent n) h = true := by
    rw [← hnext, hm] at hn
    unfold Rep.discards
    simp only [Bool.or_eq_true, Bool.and_eq_true, decide_eq_true_eq]
    right
    show (sent n).seq < job'.nextSeq ∧ job'.nextSeq - (sent n).seq < _
    rw [hseq, hn]
    show seqOf n < seqOf m ∧ seqOf m - seqOf n < _
    unfold seqOf
    unfold maxSeqNum at *
    omega
  unfold SbdState.applies at happ
  rw [hon'.found, Option.any_some] at happ
  simp [Rep.passes, hd] at happ

variable [DecidableEq Q] [DecidableEq U] (E : SbdEnv Q U H)

theorem inv_step (hsent : ∀ n, (sent n).seq = seqOf n) (x : Exec Q U H) (e : ExecEvent Q U H)
    (hok : x.Ok id h sent e) (hinv : x.Inv id) : (x.step E id h sent e).Inv id := by
  rcases hinv with hend | ⟨job₀, hj₀, ha, hn⟩
  · cases e with
    | other s => exact .inl hend
    | report n now => simp [hok.1] at hend
  cases e with
  | other s =>
    obtain ⟨job, job', hj, hj', hacc, hnext⟩ := hok
    obtain rfl := Option.some.inj (hj.symm.trans hj₀)
    exact .inr ⟨job', hj', hacc.trans ha, hnext.trans hn⟩
  | report n now =>
    obtain ⟨-, ⟨job, hon⟩, -⟩ := hok
    obtain rfl := Option.some.inj (hon.found.symm.trans hj₀)
    cases hnew : has (sent n).newStatus jobStatPend with
    | true => exact .inl (by simp [step, hnew])
    | false =>
      obtain ⟨job', hj', hnum⟩ := SbdState.numbers_statusJob E hon hnew now
      refine .inr ⟨job', hj', ?_⟩
      show _ = Option.map seqOf (if _ then _ else _) ∧
        _ = (Option.map seqOf (if _ then _ else _)).getD 1
      split_ifs at hnum ⊢
      · rw [hsent n, nextSeq_seqOf (hsent n) hnew] at hnum
        exact hnum
      · exact ⟨hnum.1.trans ha, hnum.2.trans hn⟩

/-- The last report applied has a growing number. -/
theorem top_step (hsent : ∀ n, (sent n).seq = seqOf n) {k : Nat} (x : Exec Q U H)
    (e : ExecEvent Q U H) (hok : x.Ok id h sent e)
    (hinv : x.Inv id ∧ ∃ m, x.top = some m ∧ k ≤ m) :
    (x.step E id h sent e).Inv id ∧ ∃ m, (x.step E id h sent e).top = some m ∧ k ≤ m := by
  obtain ⟨hinv, m, hm, hkm⟩ := hinv
  refine ⟨inv_step E hsent x e hok hinv, ?_⟩
  cases e with
  | other s => exact ⟨m, hm, hkm⟩
  | report n now =>
    show ∃ m, (if x.mbd.applies id (sent n) h then some n else x.top) = some m ∧ k ≤ m
    split_ifs with happ
    · exact ⟨n, rfl, hkm.trans (lt_of_applies (hsent n) hok hinv happ hm).le⟩
    · exact ⟨m, hm, hkm⟩

/-- A report that has been applied is not applied again. -/
theorem applies_again (hsent : ∀ n, (sent n).seq = seqOf n) (hinv : x.Inv id)
    {es : List (ExecEvent Q U H)} (hok : Run.Along (step E id h sent) (Ok id h sent) x es)
    {i j k : Nat} {now' : Int} (hij : i < j) (hi : es[i]? = some (.report k now))
    (hj : es[j]? = some (.report k now'))
    (happ : (Run.run (step E id h sent) x (es.take i)).mbd.applies id (sent k) h = true) :
    (Run.run (step E id h sent) x (es.take j)).mbd.applies id (sent k) h = false := by
  induction es generalizing x i j with
  | nil => simp at hi
  | cons e es ih =>
    obtain ⟨j, rfl⟩ : ∃ j', j = j' + 1 := ⟨j - 1, by omega⟩
    have hinv' := inv_step E hsent x e hok.1 hinv
    cases i with
    | succ i => exact ih hinv' hok.2 (by omega) (by simpa using hi) (by simpa using hj) happ
    | zero =>
      obtain rfl : e = .report k now := by simpa using hi
      have htop : (x.step E id h sent (.report k now)).top = some k := if_pos happ
      obtain ⟨hinvj, m, hm, hkm⟩ := Run.inv_take (top_step E hsent) ⟨hinv', k, htop, le_refl k⟩
        hok.2 j
      by_contra hagain
      have hlt := lt_of_applies (hsent k) (hok.2.at (by simpa using hj)) hinvj
        (by simpa using hagain) hm
      omega

end Exec

/-- **Obsolete reports.** A report that is obsolete changes nothing just if it is quiet. In a run of
one execution in which the newest report applied does not come again, and older ones come in the
same turn of the numbers and less than half a turn late, the numbers are in order at every delivery
and no report is applied twice. -/
theorem obsolete_reports [DecidableEq Q] [DecidableEq U] [DecidableEq H] (E : SbdEnv Q U H)
    (id : Nat) (h : H) :
    (∀ (s : SbdState Q U H) (job : SbdJob Q U H) (r : StatusReq) (now : Int),
      s.OnJob id job r h → s.Numbered id job r → s.Obsolete id job r h →
        (s.Same (s.statusJob E id r (some h) now).1 ↔ s.Quiet id job r h now)) ∧
    ∀ (sent : Nat → StatusReq) (x : Exec Q U H) (job : SbdJob Q U H)
      (es : List (ExecEvent Q U H)), (∀ n, (sent n).seq = seqOf n) → x.Begins id job →
      Run.Along (Exec.step E id h sent) (Exec.Ok id h sent) x es →
      let mbd := fun i => (Run.run (Exec.step E id h sent) x (es.take i)).mbd
      (∀ (i k : Nat) (now : Int), es[i]? = some (.report k now) →
        ∀ job, (mbd i).jobs id = some job → (mbd i).Numbered id job (sent k)) ∧
      ∀ (i j k : Nat) (now now' : Int), es[i]? = some (.report k now) →
        es[j]? = some (.report k now') → (mbd i).applies id (sent k) h = true →
        (mbd j).applies id (sent k) h = true → i = j := by
  refine ⟨fun s job r now hon hnum hob => SbdState.same_statusJob E hon hnum hob now, ?_⟩
  intro sent x job es hsent hb hok mbd
  have hinv := Exec.inv_of_begins hb
  constructor
  · intro i k now hi job' hj
    have hinvi := Run.inv_take (fun s e => Exec.inv_step E hsent s e) hinv hok i
    exact hinvi.numbered (hok.at hi).1 (hsent k) hj
  · intro i j k now now' hi hj hai haj
    rcases lt_trichotomy i j with hij | rfl | hji
    · have hno := Exec.applies_again E hsent hinv hok hij hi hj hai
      exact absurd haj (by simpa using hno)
    · rfl
    · have hno := Exec.applies_again E hsent hinv hok hji hj hi haj
      exact absurd hai (by simpa using hno)

/-! ## A running job and reports on it -/

/-- A job of one slot that runs on host `true`. -/
def runningJob (st : Status) : SbdJob Unit Unit Bool where
  jobId := 1
  jp := ⟨st, (), (), [true], .plain () 1, .own none⟩
  rerunnable := false
  chkpntable := false
  restart := false
  preExec := false
  waitSwitch := false
  nextSeq := 1
  runRusage := ⟨0, 0, 0, 0, [], []⟩
  maxMem := 0
  avgMem := 0
  jRusageUpdateTime := 5
  newReason := 0
  subreasons := 0
  jobPid := 7
  jobPGid := 7
  actPid := 0
  restartPid := 0
  sigValue := sigNull
  schedHost := ""
  execHome := some "/home"
  execCwd := some "/home"
  execUsername := some "ann"
  execUid := 1
  exitStatus := 0
  cpuTime := 0
  lsfRusage := none
  ssuspTime := 0
  dispTime := 0
  dispCount := 0
  initFailCount := 0
  excluded := []
  ususpPending := false
  terminatePending := false
  reserveDuration := 0
  resBitMaps := 0
  sa := none
  runTime := 0
  updStateTime := 0

def runningState (st : Status) : SbdState Unit Unit Bool where
  jobs := fun id => if id = 1 then some (runningJob st) else none
  sjl := [1]
  zjl := []
  totals := .zero
  shares := { policies := fun _ => none, jobs := [] }
  log := []
  unreach := fun _ => false
  unavail := fun _ => false
  accepted := fun _ => none

/-- The report number `n` on the job, with the average memory `avgMem`. -/
def reportOf (st : Status) (avgMem : Int) (n : Nat) : StatusReq where
  jobPid := 7
  jobPGid := 7
  actPid := 0
  newStatus := st
  reason := 0
  subreasons := 0
  errHostBoot := false
  errNoError := true
  exitStatus := 0
  execUid := 1
  execHome := "/home"
  execCwd := "/home"
  execUsername := "ann"
  runRusage := ⟨0, 0, 0, 0, [], []⟩
  lsfRusage := cleanLsfRusage
  actStatus := .no
  sigValue := sigNull
  maxMem := 0
  avgMem := avgMem
  seq := seqOf n

def plainEnv : SbdEnv Unit Unit Bool where
  inStartJobList := fun id l => id :: l
  P := fun _ => FSPolicy.defaultFactors (-1) (-1)
  groups := noGroups.exact
  requeExclude := fun _ _ => false
  preExecDelay := none
  msleeptime := 60
  hostType := fun _ => ""

theorem onJob_running {st : Status} (hst : isStart st = true ∨ isFinish st = true)
    (hp : isPend st = false) (r : StatusReq) (h : Bool) :
    (runningState st).OnJob 1 (runningJob st) r h :=
  ⟨rfl, hst, hp, rfl⟩

/-- A started job, while there are no zombies. -/
theorem exists_onJob {s : SbdState Unit Unit Bool}
    (hjob : ((s.jobs 1).any fun job => isStart job.jp.jStatus && !isPend job.jp.jStatus) = true)
    (hz : s.zjl.isEmpty = true) (r : StatusReq) : ∃ job, s.OnJob 1 job r true := by
  obtain ⟨job, hj, hst⟩ := Option.any_eq_true _ _ |>.mp hjob
  simp only [Bool.and_eq_true, Bool.not_eq_true'] at hst
  refine ⟨job, hj, .inl hst.1, hst.2, ?_⟩
  simp [Rep.isInZomJobList, SbdState.focus, List.isEmpty_iff.mp hz]

/-- The second report overtakes the first, and the first comes again: the second is applied, and the
first is not. -/
theorem overtaken_not_applied :
    let es : List (ExecEvent Unit Unit Bool) := [.report 1 5, .report 0 5, .report 2 6, .report 0 7]
    let x : Exec Unit Unit Bool := ⟨runningState jobStatRun, none, false⟩
    let mbd := fun i =>
      (Run.run (Exec.step plainEnv 1 true (reportOf jobStatRun 0)) x (es.take i)).mbd
    (mbd 0).applies 1 (reportOf jobStatRun 0 1) true = true ∧
      (mbd 1).applies 1 (reportOf jobStatRun 0 0) true = false ∧
      (∀ i j k now now', es[i]? = some (.report k now) → es[j]? = some (.report k now') →
        (mbd i).applies 1 (reportOf jobStatRun 0 k) true = true →
        (mbd j).applies 1 (reportOf jobStatRun 0 k) true = true → i = j) := by
  intro es x mbd
  refine ⟨by decide, by decide, ?_⟩
  refine ((obsolete_reports plainEnv 1 true).2 (reportOf jobStatRun 0) x (runningJob jobStatRun) es
    (fun n => rfl) ⟨rfl, rfl, rfl, rfl, rfl⟩ ?_).2
  have htop : ∀ {o : Option Nat} {P : Nat → Prop} (k : Nat), o = some k → P k →
      ∀ m, o = some m → P m := by
    rintro o P k rfl hk m hm
    cases hm
    exact hk
  refine ⟨⟨rfl, exists_onJob (by decide) (by decide) _, fun m hm => by cases hm⟩,
    ⟨rfl, exists_onJob (by decide) (by decide) _, htop 1 (by decide) (by decide)⟩,
    ⟨rfl, exists_onJob (by decide) (by decide) _, htop 1 (by decide) (by decide)⟩,
    ⟨rfl, exists_onJob (by decide) (by decide) _, htop 2 (by decide) (by decide)⟩, trivial⟩

/-- A report from another host sets the average memory of a running job, and a post-execution state
that arrives twice is logged twice. -/
theorem other_host_sets_avgMem :
    (let s := runningState jobStatRun
     let r := reportOf jobStatRun 9 0
     let s' := (s.statusJob plainEnv 1 r (some false) 6).1
     s.OnJob 1 (runningJob jobStatRun) r false ∧ s.Obsolete 1 (runningJob jobStatRun) r false ∧
       (s.jobs 1).map (·.avgMem) = some 0 ∧ (s'.jobs 1).map (·.avgMem) = some 9 ∧ ¬ s.Same s') ∧
    (let s := runningState jobStatDone
     let r := reportOf jobStatPdone 0 0
     let s' := (s.statusJob plainEnv 1 r (some true) 6).1
     let s'' := (s'.statusJob plainEnv 1 r (some true) 7).1
     s'.log.length = 1 ∧ s''.log.length = 2) := by
  constructor
  · intro s r s'
    refine ⟨onJob_running (.inl (by decide)) (by decide) _ _, .inl (by decide), rfl, ?_⟩
    have havg : (s'.jobs 1).map (·.avgMem) = some 9 := by decide
    refine ⟨havg, ?_⟩
    intro hsame
    rw [hsame.jobs] at havg
    exact absurd havg (by decide)
  · exact ⟨by decide, by decide⟩

end Volclava
