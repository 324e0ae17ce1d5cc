import Volclava.StatusReport

/-!
# Status reports and the event log

Every change of state that a status report leads to writes an event record, and no record is ever
taken back. So whether a report changes something can often be told from the length of the log.

- `Rep.SameState`: actions and reasons keep the state bits of a job.
- `Rep.handleJobJCCA_cases`: what happens to a report after the staleness test.
-/

namespace Volclava

variable {Q U H : Type}

namespace Rep

variable (E : SbdEnv Q U H) (r : StatusReq) (new : Status) (now : Int) (c : Rep Q U H)

/-! ## Event records

Every change of state writes an event record, and no record is taken back. -/

@[simp] theorem log_setStatus (s : Status) : (c.setStatus s).log = c.log := rfl

@[simp] theorem log_setReason (x : Reason) : (c.setReason x).log = c.log := rfl

@[simp] theorem log_setMig (on : Bool) : (c.setMig on).log = c.log := rfl

@[simp] theorem length_write (e : StatusEvent H) : (c.write e).log.length = c.log.length + 1 := by
  simp [write]

@[simp] theorem length_logNewstatus : c.logNewstatus.log.length = c.log.length + 1 :=
  length_write c _

@[simp] theorem length_logStartjob (preExec : Bool) :
    (c.logStartjob preExec).log.length = c.log.length + 1 := length_write c _

@[simp] theorem length_logJobsigact (mig kill : Bool) :
    (c.logJobsigact r mig kill).log.length = c.log.length + 1 := length_write c _

@[simp] theorem log_accumulateRU : (c.accumulateRU r).log = c.log := rfl

@[simp] theorem status_accumulateRU : (c.accumulateRU r).status = c.status := rfl

/-! ## The state bits

Signal actions and reasons change flags of the status word, but neither its state bits nor the
`PRE_EXEC` flag. -/

/-- The two status words are the same up to flags other than `PRE_EXEC`. -/
structure SameState (s t : Status) : Prop where
  known : knownStatus t = knownStatus s
  preExec : has t jobStatPreExec = has s jobStatPreExec

theorem SameState.refl (s : Status) : SameState s s := ⟨rfl, rfl⟩

theorem SameState.trans {s t u : Status} (h : SameState s t) (h' : SameState t u) :
    SameState s u :=
  ⟨h'.known.trans h.known, h'.preExec.trans h.preExec⟩

theorem SameState.setFlag (s : Status) {f : Status}
    (h : f &&& ~~~jobStatUnkwn &&& maskIntJobStat = 0#32) (hp : f &&& jobStatPreExec = 0#32) :
    SameState s (s ||| f) :=
  ⟨known_or_flag s h, has_or_other s hp⟩

theorem SameState.clearFlag (s : Status) {f : Status}
    (h : ~~~f &&& (~~~jobStatUnkwn &&& maskIntJobStat) = ~~~jobStatUnkwn &&& maskIntJobStat)
    (hp : ~~~f &&& jobStatPreExec = jobStatPreExec) : SameState s (s &&& ~~~f) :=
  ⟨known_and_not_flag s h, has_and_not_other s hp⟩

theorem sameState_setMig (on : Bool) : SameState c.status (c.setMig on).status := by
  cases on with
  | true => exact .setFlag c.status (by decide) (by decide)
  | false => exact .clearFlag c.status (by decide) (by decide)

/-- The status word after the `MIG` flag has been cleared, if it is not reported. -/
def settledStatus (new s : Status) : Status :=
  if has new jobStatMig then s else s &&& ~~~jobStatMig

theorem settle_eq : c.settle r new now =
      { c with
        job := { c.job with
          jp := { c.job.jp with jStatus := settledStatus new c.status }
          newReason := if isSusp new = true then
              if has c.job.newReason suspMbdLock then c.job.newReason else c.suspReason r new
            else c.job.newReason
          subreasons := if isSusp new = true then
              if has c.job.newReason suspMbdLock then c.job.subreasons else r.subreasons
            else c.job.subreasons
          ssuspTime := if isSusp new = true then
              if has (settledStatus new c.status) jobStatSsusp then c.job.ssuspTime else now
            else c.job.ssuspTime } } := by
  unfold settle suspReasons settledStatus
  cases has new jobStatMig <;> cases isSusp new <;> rfl

theorem sameState_settle : SameState c.status (c.settle r new now).status := by
  rw [settle_eq]
  show SameState c.status (settledStatus new c.status)
  unfold settledStatus
  split_ifs
  · exact .refl _
  · exact .clearFlag _ (by decide) (by decide)

theorem log_settle : (c.settle r new now).log = c.log := by
  rw [settle_eq]

theorem sameState_finishReport :
    SameState c.status (c.finishReport r new).status ∧ (c.finishReport r new).log = c.log := by
  unfold finishReport
  dsimp only
  split_ifs
  · exact ⟨.setFlag _ (by decide) (by decide), rfl⟩
  · exact ⟨.setFlag _ (by decide) (by decide), rfl⟩
  · exact ⟨.refl _, rfl⟩

theorem stays_congr {c d : Rep Q U H} (h : SameState c.status d.status) :
    d.stays new = c.stays new := by
  unfold stays endsPreExec
  rw [h.known, h.preExec]

theorem pendUsage_keeps : (c.pendUsage r).log = c.log ∧ (c.pendUsage r).status = c.status := by
  unfold pendUsage
  dsimp only
  split_ifs <;> exact ⟨rfl, rfl⟩

theorem isPend_eq_false {s : Status} (h : isPend s = false) :
    has s jobStatPend = false ∧ has s jobStatPsusp = false := Bool.or_eq_false_iff.mp h

/-- A started or finished job does not have the state of a word with the `PEND` bit. -/
theorem known_ne_of_pend {s new : Status} (hs : isPend s = false)
    (hnew : has new jobStatPend = true) : knownStatus new ≠ knownStatus s := by
  intro heq
  have hbit : has (knownStatus s) jobStatPend = true := by rw [← heq, has_pend_known, hnew]
  rw [has_pend_known, (isPend_eq_false hs).1] at hbit
  simp at hbit

/-! ## A change of state is logged -/

section Charge

variable [DecidableEq Q]

/-! Charges change the shares and what the job keeps about them. -/

theorem charge_eq (u : ShareAcctUpd) : ∃ sh, c.charge E u = { c with shares := sh } := by
  unfold charge
  split <;> exact ⟨_, rfl⟩

theorem accumRunTime_eq : ∃ sh rt ut, c.accumRunTime E new now =
      { c with shares := sh, job := { c.job with runTime := rt, updStateTime := ut } } := by
  unfold accumRunTime charge
  dsimp only
  split_ifs
  · split <;> exact ⟨_, _, _, rfl⟩
  · exact ⟨_, _, _, rfl⟩

theorem detachedJobFromFSTree_eq : ∃ sh, c.detachedJobFromFSTree E =
    { c with shares := sh, job := { c.job with sa := none } } := by
  unfold detachedJobFromFSTree charge
  split <;> exact ⟨_, rfl⟩

@[simp] theorem log_accumRunTime : (c.accumRunTime E new now).log = c.log := by
  obtain ⟨sh, rt, ut, heq⟩ := accumRunTime_eq E new now c
  rw [heq]

@[simp] theorem log_detachedJobFromFSTree : (c.detachedJobFromFSTree E).log = c.log := by
  obtain ⟨sh, heq⟩ := detachedJobFromFSTree_eq E c
  rw [heq]

end Charge

variable [DecidableEq Q] [DecidableEq U] [DecidableEq H]

theorem sameState_unreserve (c : Cur Q U H) :
    SameState c.jp.jStatus (unreserve E.groups c).jp.jStatus := by
  show SameState c.jp.jStatus (c.jp.jStatus &&& ~~~jobStatReserve)
  exact .clearFlag _ (by decide) (by decide)

theorem sameState_chkpntAction : SameState c.status (c.chkpntAction E r new).status := by
  unfold chkpntAction
  dsimp only
  by_cases hs : r.actStatus = .start
  · rw [if_pos hs]
    split_ifs <;> exact sameState_setMig c _
  · rw [if_neg hs]
    -- What the end of an action does to the status word before `SIGNAL` is cleared.
    have hclear : ∀ d : Rep Q U H, SameState c.status d.status →
        SameState c.status ((if has new jobStatMig = true then d else d.setMig false).status &&&
          ~~~jobStatSignal) := by
      intro d hd
      refine SameState.trans ?_ (.clearFlag _ (by decide) (by decide))
      split_ifs
      · exact hd
      · exact hd.trans (sameState_setMig d false)
    refine hclear _ ?_
    by_cases hd : r.actStatus = .done
    · rw [if_pos hd]
      have hmig : SameState c.status (c.setMig (has new jobStatMig)).status := sameState_setMig c _
      split_ifs
      · exact hmig.trans (.setFlag _ (by decide) (by decide))
      · exact hmig.trans (.setFlag _ (by decide) (by decide))
      · exact hmig
      · exact hmig
    · rw [if_neg hd]
      split_ifs
      · exact sameState_unreserve E ⟨c.totals, c.job.jp⟩
      · exact .refl _

theorem sameState_action : SameState c.status (c.action E r new).status := by
  unfold action
  by_cases hno : r.actStatus = .no
  · rw [if_pos hno]
    exact .refl _
  · rw [if_neg hno]
    by_cases hchk : (r.sigValue = sigChkpnt || r.sigValue = sigChkpntCopy) = true
    · rw [if_pos hchk]
      exact sameState_chkpntAction E r new c
    · rw [if_neg hchk]
      unfold signalAction
      split_ifs
      · exact .refl _
      · exact .clearFlag c.status (by decide) (by decide)
      · exact .refl _

theorem jStatusChange_of_eq (h : knownStatus new = knownStatus c.status) :
    c.jStatusChange E new now = c :=
  if_pos h

theorem length_jStatusChange : (c.jStatusChange E new now).log.length =
    c.log.length + if knownStatus new = knownStatus c.status then 0 else 1 := by
  by_cases h : knownStatus new = knownStatus c.status
  · rw [jStatusChange_of_eq E _ _ _ h, if_pos h]
    rfl
  · unfold jStatusChange
    rw [if_neg h, if_neg h]
    dsimp only
    split_ifs <;> simp

/-- A change of state keeps the zombies and the number of the job. Only a job that goes back to
pending starts a new execution. -/
theorem jStatusChange_keeps : (c.jStatusChange E new now).zjl = c.zjl ∧
      (c.jStatusChange E new now).job.jobId = c.job.jobId ∧
      (has new jobStatPend = false → (c.jStatusChange E new now).accepted = c.accepted ∧
        (c.jStatusChange E new now).job.nextSeq = c.job.nextSeq) := by
  obtain ⟨sh, rt, ut, hacc⟩ := accumRunTime_eq E (maskStatus new) now c
  have hdet : ∀ x : Rep Q U H, (x.detachedJobFromFSTree E).zjl = x.zjl ∧
      (x.detachedJobFromFSTree E).job.jobId = x.job.jobId ∧
      (x.detachedJobFromFSTree E).accepted = x.accepted ∧
      (x.detachedJobFromFSTree E).job.nextSeq = x.job.nextSeq := by
    intro x
    obtain ⟨sh, heq⟩ := detachedJobFromFSTree_eq E x
    rw [heq]
    exact ⟨rfl, rfl, rfl, rfl⟩
  unfold jStatusChange
  dsimp only
  rw [hacc]
  split_ifs with h1 h2 h3 h4 h5
  · simp
  · simp [write]
  · simp [hdet, logNewstatus, write]
  · simp [hdet, logNewstatus, write, setReason]
  · have hpend : has new jobStatPend = true := by
      rw [← has_pend_known, ← known_maskStatus, has_pend_known]
      exact (Bool.and_eq_true_iff.mp h5).1
    simp [hdet, logNewstatus, write, hpend]
  · simp [logNewstatus, write]
  · simp [logNewstatus, write]

theorem length_changeStatus (old : Status) (stop : Bool) :
    (c.changeStatus E old new stop r now).1.log.length =
      c.log.length + (if knownStatus new = knownStatus c.status then 0 else 1) +
        if endsPreExec old new then 1 else 0 := by
  unfold changeStatus
  dsimp only
  split_ifs <;> simp_all [length_jStatusChange, status]

theorem le_changeStatus (old : Status) (stop : Bool) :
    c.log.length ≤ (c.changeStatus E old new stop r now).1.log.length := by
  rw [length_changeStatus]
  omega

variable {old : Status}

theorem lt_changeStatus
    (h : knownStatus new ≠ knownStatus c.status ∨ endsPreExec old new = true) (stop : Bool) :
    c.log.length < (c.changeStatus E old new stop r now).1.log.length := by
  rw [length_changeStatus]
  rcases h with h | h
  · rw [if_neg h]
    omega
  · rw [if_pos h]
    omega

theorem lt_jStatusChange {d : Rep Q U H} (hlog : d.log = c.log)
    (hst : d.status = c.status) (hne : knownStatus new ≠ knownStatus c.status) :
    c.log.length < (d.jStatusChange E new now).log.length := by
  rw [length_jStatusChange, if_neg (hst ▸ hne), hlog]
  exact Nat.lt_succ_self _

theorem lt_holdPending {d : Rep Q U H} (hlog : d.log = c.log) (hst : d.status = c.status)
    (hne : knownStatus new ≠ knownStatus c.status) (reason : Reason) :
    c.log.length < (d.holdPending E new reason now).log.length :=
  lt_jStatusChange E new now c hlog hst hne

/-- `pendReason` for a started job: either the job has gone back to pending already, or the state
it goes to is the one reported. -/
theorem pendReason_left (hp : isPend c.status = false)
    (hne : knownStatus new ≠ knownStatus c.status) (h : H) :
    ∃ d n, c.pendReason E r new h now = (d, some n) ∧
      (c.log.length < d.log.length ∨ (n = new ∧ d.log = c.log ∧ d.status = c.status)) := by
  have hps : ¬ has c.status jobStatPsusp = true := by simp [(isPend_eq_false hp).2]
  have hpend : knownStatus jobStatPend ≠ knownStatus c.status := known_ne_of_pend hp (by decide)
  unfold pendReason
  by_cases h1 : (has c.status jobStatPreExec || r.reason = pendQuePreFail) = true
  · rw [if_pos h1]
    exact ⟨_, _, rfl, .inr ⟨rfl, rfl, rfl⟩⟩
  rw [if_neg h1]
  by_cases h2 : has c.status jobStatMig = true
  · rw [if_pos h2]
    exact ⟨_, _, rfl, .inr ⟨rfl, rfl, rfl⟩⟩
  rw [if_neg h2, if_neg hps]
  dsimp only
  split_ifs
  · exact ⟨_, _, rfl, .inr ⟨rfl, rfl, rfl⟩⟩
  · refine ⟨_, _, rfl, .inl (lt_jStatusChange E _ now c ?_ ?_ hpend)⟩ <;> rfl
  · exact ⟨_, _, rfl, .inr ⟨rfl, rfl, rfl⟩⟩
  · exact ⟨_, _, rfl, .inr ⟨rfl, rfl, rfl⟩⟩
  · refine ⟨_, _, rfl, .inl (lt_jStatusChange E _ now c ?_ ?_ hpend)⟩ <;> rfl
  · refine ⟨_, _, rfl, .inl (lt_holdPending E new now c ?_ ?_ hne _)⟩ <;> rfl
  · refine ⟨_, _, rfl, .inl (lt_holdPending E new now c ?_ ?_ hne _)⟩ <;> rfl
  · exact ⟨_, _, rfl, .inr ⟨rfl, rfl, rfl⟩⟩
  · exact ⟨_, _, rfl, .inr ⟨rfl, rfl, rfl⟩⟩

/-- A report of another state is logged: the state changes, or the pre-execution command ends. -/
theorem lt_newState (hp : isPend c.status = false)
    (hold : has old jobStatPreExec = has c.status jobStatPreExec) (hs : c.stays new = false)
    (stop : Bool) (h : H) :
    c.log.length < (c.newState E old new stop r h now).1.log.length := by
  have hwrite : knownStatus new ≠ knownStatus c.status ∨ endsPreExec old new = true := by
    by_cases hk : knownStatus new = knownStatus c.status
    · refine .inr ?_
      simp only [stays, hk, decide_true, Bool.true_and, Bool.not_eq_false'] at hs
      unfold endsPreExec at hs ⊢
      rw [hold, hs]
    · exact .inl hk
  unfold newState
  by_cases hn : has new jobStatPend = true
  · rw [if_pos hn]
    have hne := known_ne_of_pend hp hn
    obtain ⟨husage, hst⟩ := pendUsage_keeps r c
    obtain ⟨d, n, hd, hleft⟩ :=
      pendReason_left E r new now (c.pendUsage r) (hst ▸ hp) (hst ▸ hne) h
    rw [hd]
    dsimp only
    rcases hleft with hlt | ⟨rfl, hlog, hdst⟩
    · rw [husage] at hlt
      exact hlt.trans_le (le_changeStatus E r n now d old stop)
    · rw [← husage, ← hlog]
      refine lt_changeStatus E r n now d (.inl ?_) stop
      rw [hdst, hst]
      exact hne
  · rw [if_neg hn]
    by_cases hf : isFinish new = true
    · rw [if_pos hf]
      obtain ⟨hst, hlog⟩ := sameState_finishReport r new c
      rw [← hlog]
      refine lt_changeStatus E r new now _ ?_ stop
      rwa [hst.known]
    · rw [if_neg hf]
      exact lt_changeStatus E r new now c hwrite stop

/-- **The function after the staleness test**, for a job that is not pending: the actions and the
reasons, and an event record if the job does not stay in its state. -/
theorem handleJobJCCA_cases (hp : isPend c.status = false)
    (hold : has old jobStatPreExec = has c.status jobStatPreExec) (stop : Bool) (h : H) :
    (c.stays new = true ∧
        (c.handleJobJCCA E old new stop r h now).1 = (c.action E r new).settle r new now) ∨
      (c.stays new = false ∧
        (c.action E r new).log.length < (c.handleJobJCCA E old new stop r h now).1.log.length) := by
  obtain ⟨a, ha⟩ : ∃ a, c.action E r new = a := ⟨_, rfl⟩
  have hact : SameState c.status a.status := ha ▸ sameState_action E r new c
  have hpa : isPend a.status = false := (isPend_congr hact.known).trans hp
  have hset : SameState c.status (a.settle r new now).status :=
    hact.trans (sameState_settle r new now a)
  have hstay : (a.settle r new now).stays new = c.stays new := stays_congr new hset
  have hzom : ¬ (r.actStatus ≠ .no && isPend a.status && (a.isInZomJobList h r).isSome &&
      isStart new) = true := by simp [hpa]
  unfold handleJobJCCA
  dsimp only
  rw [ha, if_neg hzom, hstay]
  cases hs : c.stays new with
  | true => exact .inl ⟨rfl, rfl⟩
  | false =>
    refine .inr ⟨rfl, ?_⟩
    rw [if_neg (by simp), ← log_settle r new now a]
    refine lt_newState E r new now _ ?_ ?_ (hstay.trans hs) stop h
    · exact (isPend_congr hset.known).trans hp
    · exact hold.trans hset.preExec.symm

end Rep

end Volclava
