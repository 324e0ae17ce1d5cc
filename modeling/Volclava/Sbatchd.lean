import Volclava.Status
import Volclava.Lib.Run

/-!
# The job list of sbatchd and its host locks

sbatchd (`sbd.serv.c`, `sbd.job.c`) keeps the jobs of its host in one list and locks all hosts of
an exclusive job in the LIM. The bit `Q_ATTRIB_EXCLUSIVE` of a job also records that its locks are
held. The handlers below are those that change the list, the bit, the hosts of a job or the locks.

- `lockHosts`, `unlockHosts`: all hosts of a job, with failures in the middle.
- `doNewjob`, `doSwitchjob`, `doProbe`, `jobFinish`, `doJobSetup`: the handlers.
- `SbdEvent`, `Sbd.step`: everything that may happen, one event at a time.
- `ListStep`, `listStep_step`: what one event does to the list.
-/

namespace Volclava

open List

variable {H : Type}

/-! ## Jobs -/

/-- What mbatchd sends about a job. -/
structure JobSpecs (H : Type) where
  jobId : Nat
  jStatus : Status
  priority : Int
  toHosts : List H
  /-- The bit `Q_ATTRIB_EXCLUSIVE` of `jAttrib`. -/
  exclusive : Bool
  reasons : Status
  /-- The option `SUB_PRE_EXEC`. -/
  preExec : Bool
  deriving DecidableEq

/-- A job of sbatchd. -/
structure JobCard (H : Type) where
  jobId : Nat
  jStatus : Status
  priority : Int
  startTime : Int
  toHosts : List H
  exclusive : Bool
  reasons : Status
  /-- Whether an action on the job is in progress (`actPid`). -/
  actPid : Bool
  postJobStarted : Bool
  userJobSucc : Bool
  /-- History: `job_finish` has dealt with the job. -/
  finished : Bool
  deriving DecidableEq

/-- The jobs of sbatchd from head to tail, and the locks the LIMs hold for it. -/
structure Sbd (H : Type) where
  jobs : List (JobCard H)
  locked : H → Bool

/-- No job, no lock. -/
def Sbd.init : Sbd H := ⟨[], fun _ => false⟩

namespace JobCard

/-- The order of the list: lower priority first, later start first within a priority. -/
def Before (a b : JobCard H) : Prop :=
  a.priority < b.priority ∨ a.priority = b.priority ∧ b.startTime ≤ a.startTime

instance : DecidableRel (Before (H := H)) := fun _ _ => inferInstanceAs (Decidable (_ ∨ _))

end JobCard

/-- Puts the job before the first one it does not have to follow. -/
def inJobLink (jp : JobCard H) (jobs : List (JobCard H)) : List (JobCard H) :=
  jobs.orderedInsert JobCard.Before jp

/-- Takes the job off the list. -/
def offList (jobId : Nat) (jobs : List (JobCard H)) : List (JobCard H) :=
  jobs.filter (·.jobId != jobId)

/-- Writes a job back to its place in the list. -/
def setCard (jp : JobCard H) (jobs : List (JobCard H)) : List (JobCard H) :=
  jobs.map fun k => if k.jobId = jp.jobId then jp else k

variable {jobs : List (JobCard H)} {jp jp' : JobCard H}

theorem mem_inJobLink {k : JobCard H} :
    k ∈ inJobLink jp jobs ↔ k = jp ∨ k ∈ jobs := mem_orderedInsert ..

theorem mem_offList {jobId : Nat} {k : JobCard H} :
    k ∈ offList jobId jobs ↔ k ∈ jobs ∧ k.jobId ≠ jobId := by
  simp [offList]

theorem offList_inJobLink (jp : JobCard H) (h : ∀ k ∈ jobs, k.jobId ≠ jp.jobId) :
    offList jp.jobId (inJobLink jp jobs) = jobs := by
  have hall : ∀ l : List (JobCard H), (∀ k ∈ l, k.jobId ≠ jp.jobId) → offList jp.jobId l = l :=
    fun l hl => filter_eq_self.mpr fun k hk => by simpa using hl k hk
  induction jobs with
  | nil => simp [inJobLink, offList]
  | cons k jobs ih =>
    obtain ⟨hk, hjobs⟩ := forall_mem_cons.mp h
    rw [inJobLink, orderedInsert_cons]
    split_ifs
    · rw [offList, filter_cons_of_neg (by simp)]
      exact hall _ h
    · rw [offList, filter_cons_of_pos (by simpa using hk)]
      exact congrArg (k :: ·) (ih hjobs)

theorem offList_setCard (jp : JobCard H) (jobs : List (JobCard H)) :
    offList jp.jobId (setCard jp jobs) = offList jp.jobId jobs := by
  induction jobs with
  | nil => rfl
  | cons k jobs ih =>
    by_cases hid : k.jobId = jp.jobId
    · simpa [offList, setCard, hid] using ih
    · simpa [offList, setCard, hid] using ih

theorem setCard_setCard {a b : JobCard H} (hid : a.jobId = b.jobId) (jobs : List (JobCard H)) :
    setCard a (setCard b jobs) = setCard a jobs := by
  rw [setCard, setCard, map_map]
  refine map_congr_left fun k _ => ?_
  by_cases hk : k.jobId = b.jobId
  · simp [hid, hk]
  · simp [hid, hk]

theorem setCard_offList (a : JobCard H) (jobs : List (JobCard H)) :
    setCard a (offList a.jobId jobs) = offList a.jobId jobs := by
  refine (map_congr_left fun k hk => ?_).trans (map_id _)
  exact if_neg (mem_offList.mp hk).2

theorem mem_setCard (hjp : jp ∈ jobs) (hid : jp'.jobId = jp.jobId) {k : JobCard H} :
    k ∈ setCard jp' jobs ↔ k = jp' ∨ k ∈ jobs ∧ k.jobId ≠ jp.jobId := by
  simp only [setCard, mem_map, hid]
  constructor
  · rintro ⟨j, hj, rfl⟩
    by_cases hj' : j.jobId = jp.jobId
    · exact .inl (if_pos hj')
    · exact .inr (by rw [if_neg hj']; exact ⟨hj, hj'⟩)
  · rintro (rfl | ⟨hk, hk'⟩)
    · exact ⟨jp, hjp, if_pos rfl⟩
    · exact ⟨k, hk, if_neg hk'⟩

/-- The ids of the jobs are distinct. -/
def Sbd.Distinct (s : Sbd H) : Prop := (s.jobs.map (·.jobId)).Nodup

theorem nodup_map (h : (jobs.map (·.jobId)).Nodup) {f : JobCard H → JobCard H}
    (hf : ∀ j ∈ jobs, (f j).jobId = j.jobId) :
    ((jobs.map f).map (·.jobId)).Nodup := by
  rw [map_map]
  exact (map_congr_left hf : jobs.map (JobCard.jobId ∘ f) = _) ▸ h

theorem nodup_setCard (h : (jobs.map (·.jobId)).Nodup) (jp : JobCard H) :
    ((setCard jp jobs).map (·.jobId)).Nodup := by
  refine nodup_map h fun j _ => ?_
  split_ifs with hid
  · exact hid.symm
  · rfl

variable {s : Sbd H}

/-- Two jobs with one id are one job. -/
theorem Sbd.Distinct.eq_of_jobId (hd : s.Distinct) {j k : JobCard H} (hj : j ∈ s.jobs)
    (hk : k ∈ s.jobs) (hid : j.jobId = k.jobId) : j = k := inj_on_of_nodup_map hd hj hk hid

/-- Writing back a card that agrees with the old one in what `R` reads keeps a relation. -/
theorem pairwise_setCard (hd : s.Distinct) {R : JobCard H → JobCard H → Prop}
    (hjp : jp ∈ s.jobs) (hid : jp'.jobId = jp.jobId) (hl : ∀ k, R jp k → R jp' k)
    (hr : ∀ k, R k jp → R k jp') (h : s.jobs.Pairwise R) : (setCard jp' s.jobs).Pairwise R := by
  rw [setCard, pairwise_map]
  refine h.imp_of_mem fun {a b} ha hb hab => ?_
  rw [hid]
  have hpa : a.jobId = jp.jobId → a = jp := hd.eq_of_jobId ha hjp
  have hpb : b.jobId = jp.jobId → b = jp := hd.eq_of_jobId hb hjp
  split_ifs with ha' hb' hb'
  · rw [hpa ha', hpb hb'] at hab
    exact hl _ (hr _ hab)
  · rw [hpa ha'] at hab
    exact hl _ hab
  · rw [hpb hb'] at hab
    exact hr _ hab
  · exact hab

theorem nodup_offList (h : (jobs.map (·.jobId)).Nodup) (jobId : Nat) :
    ((offList jobId jobs).map (·.jobId)).Nodup :=
  h.sublist (filter_sublist.map _)

theorem nodup_inJobLink (h : (jobs.map (·.jobId)).Nodup)
    (hjp : ∀ k ∈ jobs, k.jobId ≠ jp.jobId) :
    ((inJobLink jp jobs).map (·.jobId)).Nodup := by
  have hperm := (perm_orderedInsert JobCard.Before jp jobs).map (·.jobId)
  refine (hperm.nodup_iff).mpr (nodup_cons.mpr ⟨fun hmem => ?_, h⟩)
  obtain ⟨k, hk, hid⟩ := mem_map.mp hmem
  exact hjp k hk hid

/-- The job found under an id. -/
theorem find?_jobId {jobId : Nat} (h : jobs.find? (·.jobId = jobId) = some jp) :
    jp ∈ jobs ∧ jp.jobId = jobId :=
  ⟨mem_of_find?_eq_some h, by simpa using List.find?_some h⟩

/-! ## Locks -/

variable [DecidableEq H]

/-- The loop of `lockHosts` from index `i` on, where `prev` is the host before. `fails` says which
calls of `lockHost_` fail other than with `LSE_LIM_ALOCKED`; the second component is the index of
the call that did. -/
def lockLoop (fails : Nat → Bool) :
    Nat → Option H → List H → (H → Bool) → (H → Bool) × Option Nat
  | _, _, [], locked => (locked, none)
  | i, prev, h :: hs, locked =>
    if prev = some h then lockLoop fails (i + 1) (some h) hs locked
    else if fails i then (locked, some i)
    else lockLoop fails (i + 1) (some h) hs (Function.update locked h true)

/-- The loop of `unlockHosts`, which goes on after a failed `unlockHost_`. -/
def unlockLoop (fails : Nat → Bool) : Nat → Option H → List H → (H → Bool) → (H → Bool)
  | _, _, [], locked => locked
  | i, prev, h :: hs, locked =>
    if prev = some h then unlockLoop fails (i + 1) (some h) hs locked
    else if fails i then unlockLoop fails (i + 1) (some h) hs locked
    else unlockLoop fails (i + 1) (some h) hs (Function.update locked h false)

/-- Unlocks the first `num` hosts of an exclusive job and clears the bit. -/
def unlockHosts (fails : Nat → Bool) (jp : JobCard H) (num : Nat) (locked : H → Bool) :
    JobCard H × (H → Bool) :=
  if num = 0 then (jp, locked)
  else if jp.exclusive then
    ({ jp with exclusive := false }, unlockLoop fails 0 none (jp.toHosts.take num) locked)
  else (jp, locked)

/-- Locks the hosts of an exclusive job. When a call fails, those before it are unlocked again. -/
def lockHosts (fails undoFails : Nat → Bool) (jp : JobCard H) (locked : H → Bool) :
    JobCard H × (H → Bool) × Bool :=
  if jp.exclusive then
    match lockLoop fails 0 none jp.toHosts locked with
    | (locked, none) => (jp, locked, true)
    | (locked, some i) =>
      let r := unlockHosts undoFails jp i locked
      (r.1, r.2, false)
  else (jp, locked, true)

/-- A call that succeeds every time. -/
def never : Nat → Bool := fun _ => false

/-! ## Handlers -/

/-- What `do_newjob` meets: the calls that fail, and the time. -/
structure NewEnv where
  now : Int
  calloc : Bool
  lockFails : Nat → Bool
  /-- Failures of `unlockHost_` inside `lockHosts`. -/
  undoFails : Nat → Bool
  initJobCard : Bool
  jobExec : Bool
  /-- Failures of `unlockHost_` in the clean-up of `do_newjob` itself. -/
  unlockFails : Nat → Bool

/-- The card `do_newjob` fills in. -/
def newCard (specs : JobSpecs H) (now : Int) : JobCard H where
  jobId := specs.jobId
  jStatus := specs.jStatus &&& ~~~jobStatMig
  priority := specs.priority
  startTime := now
  toHosts := specs.toHosts
  exclusive := specs.exclusive
  reasons := 0
  actPid := false
  postJobStarted := false
  userJobSucc := false
  finished := false

/-- The card with the status a new job starts with. -/
def startCard (specs : JobSpecs H) (jp : JobCard H) : JobCard H :=
  { jp with
    jStatus := setState jp.jStatus
      (if specs.preExec then jobStatRun ||| jobStatPreExec else jobStatRun) }

/-- The clean-up of `do_newjob`. -/
def cleanup (env : NewEnv) (jp : JobCard H) (locked : H → Bool) : H → Bool :=
  (unlockHosts env.unlockFails jp jp.toHosts.length locked).2

/-- Starts a job. A job that is already there is only reported back. -/
def doNewjob (s : Sbd H) (specs : JobSpecs H) (env : NewEnv) : Sbd H :=
  if s.jobs.any (·.jobId = specs.jobId) then s
  else if env.calloc then
    let r := lockHosts env.lockFails env.undoFails (newCard specs env.now) s.locked
    if r.2.2 then
      if env.initJobCard then
        let jp := startCard specs r.1
        let jobs := inJobLink jp s.jobs
        if env.jobExec then ⟨jobs, r.2.1⟩
        else ⟨offList jp.jobId jobs, cleanup env jp r.2.1⟩
      else { s with locked := cleanup env r.1 r.2.1 }
    else { s with locked := cleanup env r.1 r.2.1 }
  else s

/-- The job as a switch to another queue leaves it. -/
def switchCard (jp : JobCard H) (specs : JobSpecs H) : JobCard H :=
  { jp with priority := specs.priority, exclusive := specs.exclusive }

/-- Switches a job to another queue. The locks are given up when the new queue is not exclusive;
nothing is locked when only the new queue is. -/
def doSwitchjob (s : Sbd H) (specs : JobSpecs H) (windowsOk : Bool) : Sbd H :=
  match s.jobs.reverse.find? (·.jobId = specs.jobId) with
  | none => s
  | some jp =>
    if isFinish jp.jStatus then s
    else if windowsOk then
      let locked :=
        if jp.exclusive && !specs.exclusive then
          jp.toHosts.foldl (fun l h => Function.update l h false) s.locked
        else s.locked
      ⟨inJobLink (switchCard jp specs) (offList jp.jobId s.jobs), locked⟩
    else s

/-- The job as a refresh leaves it, before its status is renewed. Its place in the list stays. -/
def refreshCard (specs : JobSpecs H) (jp : JobCard H) : JobCard H :=
  { jp with
    reasons := specs.reasons
    jStatus :=
      if !jp.postJobStarted && jp.jStatus != specs.jStatus then
        (specs.jStatus &&& ~~~jobStatMig) ||| (jp.jStatus &&& jobStatMig)
      else jp.jStatus
    priority := specs.priority
    toHosts := specs.toHosts
    exclusive := specs.exclusive }

/-- Refreshes the jobs with this id. The hosts they had before are forgotten, not unlocked. -/
def refreshJob (s : Sbd H) (specs : JobSpecs H) : Sbd H where
  jobs := s.jobs.map fun jp => if jp.jobId = specs.jobId then refreshCard specs jp else jp
  locked :=
    if s.jobs.any (·.jobId = specs.jobId) && specs.exclusive then
      (lockLoop never 0 none specs.toHosts s.locked).1
    else s.locked

/-- Refreshes every job of a probe. -/
def doProbe (s : Sbd H) (specs : List (JobSpecs H)) : Sbd H := specs.foldl refreshJob s

def Sbd.pendJobNoFile : Status := 7#32
def Sbd.pendJobStartFail : Status := 1603#32

/-- Whether the calls `job_finish` makes succeed. -/
structure FinishEnv where
  /-- `status_job`, the report to mbatchd. -/
  statusJob : Bool
  fork : Bool

/-- What `job_finish` does with the card of a job whose locks are given up: it is kept, with its
post execution command started or because a call failed, or dropped. The second component is whether
`job_finish` returns `0`. -/
def finishCard (jp : JobCard H) (report : Bool) (env : FinishEnv) : Option (JobCard H) × Bool :=
  if report && !env.statusJob then (some jp, false)
  else if has jp.jStatus jobStatPend &&
      (jp.reasons == Sbd.pendJobStartFail || jp.reasons == Sbd.pendJobNoFile) then (none, true)
  else if jp.postJobStarted then (none, true)
  else if !env.fork then (some jp, false)
  else if jp.userJobSucc then
    (some { jp with postJobStarted := true, jStatus := jobStatRun }, true)
  else (none, true)

/-- Finishes the job `jp` of the list, unless an action on it is in progress. -/
def jobFinish (s : Sbd H) (jp : JobCard H) (report : Bool) (env : FinishEnv) : Sbd H × Bool :=
  if report && jp.actPid then (s, false)
  else
    let r := unlockHosts never jp jp.toHosts.length s.locked
    let c := finishCard { r.1 with finished := true } report env
    (⟨match c.1 with
      | some jp' => setCard jp' s.jobs
      | none => offList jp.jobId s.jobs, r.2⟩, c.2)

/-- What the job's own process reports after its set-up. -/
structure JobSetup where
  jobId : Nat
  jStatus : Status
  reason : Status

/-- Takes in the set-up report of a job. When the report of its end cannot be passed on, the card is
put back as it was before, with its exclusive bit. -/
def doJobSetup (s : Sbd H) (setup : JobSetup) (env : FinishEnv) : Sbd H :=
  match s.jobs.find? (·.jobId = setup.jobId) with
  | none => s
  | some jp =>
    if jp.actPid then s
    else if has setup.jStatus jobStatRun then
      if env.statusJob then
        let jStatus :=
          if has setup.jStatus jobStatPreExec then jp.jStatus else jp.jStatus &&& ~~~jobStatPreExec
        { s with jobs := setCard { jp with jStatus := jStatus } s.jobs }
      else s
    else
      let ended := { jp with reasons := setup.reason, jStatus := setup.jStatus }
      let r := jobFinish { s with jobs := setCard ended s.jobs } ended true env
      if r.2 then r.1 else { r.1 with jobs := setCard jp r.1.jobs }

/-! ## Runs -/

/-- What may happen to sbatchd. `runs` stands for everything that changes neither the list nor a
lock: signals, actions and exits of processes. -/
inductive SbdEvent (H : Type) where
  | newjob (specs : JobSpecs H) (env : NewEnv)
  | switchjob (specs : JobSpecs H) (windowsOk : Bool)
  | probe (specs : List (JobSpecs H))
  | finish (jobId : Nat) (report : Bool) (env : FinishEnv)
  | jobSetup (setup : JobSetup) (env : FinishEnv)
  | runs (jobId : Nat) (jStatus reasons : Status) (actPid userJobSucc : Bool)

/-- One event. -/
def Sbd.step (s : Sbd H) : SbdEvent H → Sbd H
  | .newjob specs env => doNewjob s specs env
  | .switchjob specs windowsOk => doSwitchjob s specs windowsOk
  | .probe specs => doProbe s specs
  | .finish jobId report env =>
    match s.jobs.find? (·.jobId = jobId) with
    | none => s
    | some jp => (jobFinish s jp report env).1
  | .jobSetup setup env => doJobSetup s setup env
  | .runs jobId jStatus reasons actPid userJobSucc =>
    match s.jobs.find? (·.jobId = jobId) with
    | none => s
    | some jp =>
      let jp := { jp with
        jStatus := jStatus, reasons := reasons, actPid := actPid, userJobSucc := userJobSucc }
      { s with jobs := setCard jp s.jobs }

/-- A start in which nothing fails. -/
def NewEnv.fine (now : Int) : NewEnv where
  now := now
  calloc := true
  lockFails := never
  undoFails := never
  initJobCard := true
  jobExec := true
  unlockFails := never

/-- A running job on the given hosts. -/
def plainSpecs (jobId : Nat) (priority : Int) (toHosts : List Nat) (exclusive : Bool) :
    JobSpecs Nat where
  jobId := jobId
  jStatus := jobStatRun
  priority := priority
  toHosts := toHosts
  exclusive := exclusive
  reasons := 0
  preExec := false

/-! ## What the lock functions do -/

/-- What `lockLoop` has done when it ends: the first `n` hosts are locked, and `n` is where it
failed, if it did. -/
theorem lockLoop_spec (fails : Nat → Bool) (hs : List H) (i : Nat) (prev : Option H)
    (locked : H → Bool) (hprev : ∀ p, prev = some p → locked p = true) :
    ∃ n ≤ hs.length, ((lockLoop fails i prev hs locked).2 = none ∧ n = hs.length ∨
        (lockLoop fails i prev hs locked).2 = some (i + n) ∧ n < hs.length ∧
          fails (i + n) = true) ∧
      ∀ x, (lockLoop fails i prev hs locked).1 x = true ↔ locked x = true ∨ x ∈ hs.take n := by
  induction hs generalizing i prev locked with
  | nil => exact ⟨0, le_rfl, .inl ⟨rfl, rfl⟩, by simp [lockLoop]⟩
  | cons h hs ih =>
    -- One more host is dealt with, and it is locked afterwards.
    have hmore : ∀ locked' : H → Bool, locked' h = true →
        (∀ x, locked' x = true ↔ locked x = true ∨ x = h) →
        ∃ n ≤ (h :: hs).length, ((lockLoop fails (i + 1) (some h) hs locked').2 = none ∧
            n = (h :: hs).length ∨
          (lockLoop fails (i + 1) (some h) hs locked').2 = some (i + n) ∧
            n < (h :: hs).length ∧ fails (i + n) = true) ∧
          ∀ x, (lockLoop fails (i + 1) (some h) hs locked').1 x = true ↔
            locked x = true ∨ x ∈ (h :: hs).take n := by
      intro locked' hh hl
      obtain ⟨n, hn, hres, hx⟩ := ih (i + 1) (some h) locked' (by rintro p ⟨⟩; exact hh)
      refine ⟨n + 1, by simpa using hn, ?_, fun x => ?_⟩
      · have hi : i + 1 + n = i + (n + 1) := by omega
        rw [hi] at hres
        rcases hres with ⟨hnone, rfl⟩ | ⟨hsome, hlt, hf⟩
        · exact .inl ⟨hnone, rfl⟩
        · exact .inr ⟨hsome, Nat.succ_lt_succ hlt, hf⟩
      · rw [hx x, hl x, take_succ_cons, mem_cons, or_assoc]
    rw [lockLoop]
    split_ifs with hp hf
    · have hh := hprev h hp
      exact hmore locked hh fun x => ⟨.inl, fun hx => hx.elim id fun hx => hx ▸ hh⟩
    · exact ⟨0, Nat.zero_le _, .inr ⟨rfl, Nat.succ_pos _, hf⟩, by simp⟩
    · refine hmore _ (Function.update_self ..) fun x => ?_
      by_cases hx : x = h
      · simp [hx]
      · simp [hx]

variable (hs : List H)

theorem lockLoop_never (locked : H → Bool) (i : Nat) (prev : Option H) :
    (lockLoop never i prev hs locked).2 = none := by
  induction hs generalizing i prev locked with
  | nil => rfl
  | cons h hs ih =>
    rw [lockLoop]
    split_ifs with hp hf
    · exact ih ..
    · cases hf
    · exact ih ..

/-- All hosts are locked when no call fails. -/
theorem lockLoop_never_iff (locked : H → Bool) (x : H) :
    (lockLoop never 0 none hs locked).1 x = true ↔ locked x = true ∨ x ∈ hs := by
  obtain ⟨n, -, hres, hx⟩ := lockLoop_spec never hs 0 none locked (by simp)
  rcases hres with ⟨-, rfl⟩ | ⟨hsome, -, -⟩
  · simpa using hx x
  · rw [lockLoop_never] at hsome
    cases hsome

/-- All hosts are unlocked when no call fails. -/
theorem unlockLoop_eq {fails : Nat → Bool} (i : Nat) (prev : Option H)
    (locked : H → Bool) (hf : ∀ j < hs.length, fails (i + j) = false)
    (hprev : ∀ p, prev = some p → locked p = false) (x : H) :
    unlockLoop fails i prev hs locked x = (locked x && decide (x ∉ hs)) := by
  induction hs generalizing i prev locked with
  | nil => simp [unlockLoop]
  | cons h hs ih =>
    have hf' : ∀ j < hs.length, fails (i + 1 + j) = false := fun j hj => by
      rw [Nat.add_assoc, Nat.add_comm 1]
      exact hf (j + 1) (Nat.succ_lt_succ hj)
    rw [unlockLoop]
    split_ifs with hp hfail
    · have hh := hprev h hp
      rw [ih (i + 1) (some h) locked hf' (by rintro p ⟨⟩; exact hh)]
      by_cases hx : x = h
      · simp [hx, hh]
      · simp [hx]
    · rw [show fails i = false from hf 0 (Nat.succ_pos _)] at hfail
      cases hfail
    · rw [ih (i + 1) (some h) _ hf' (by rintro p ⟨⟩; exact Function.update_self ..)]
      by_cases hx : x = h
      · simp [hx]
      · simp [hx]

/-- What `unlockHosts` does when no call fails. -/
theorem unlockHosts_snd {fails : Nat → Bool} (jp : JobCard H) {num : Nat}
    (hnum : num ≤ jp.toHosts.length) (locked : H → Bool)
    (hf : jp.exclusive = true → ∀ j < num, fails j = false) (x : H) :
    (unlockHosts fails jp num locked).2 x =
      (locked x && !(jp.exclusive && decide (x ∈ jp.toHosts.take num))) := by
  unfold unlockHosts
  split_ifs with h0 he
  · simp [h0]
  · have hfails : ∀ j < (jp.toHosts.take num).length, fails (0 + j) = false := fun j hj => by
      rw [length_take, Nat.min_eq_left hnum] at hj
      rw [Nat.zero_add]
      exact hf he j hj
    refine (unlockLoop_eq _ _ _ _ hfails (by simp) x).trans ?_
    simp [he]
  · simp [he]

theorem unlockHosts_fst (fails : Nat → Bool) (jp : JobCard H) (num : Nat) (locked : H → Bool) :
    (unlockHosts fails jp num locked).1 = { jp with exclusive := jp.exclusive && num = 0 } := by
  unfold unlockHosts
  split_ifs with h0 he
  · simp [h0]
  · simp [h0]
  · simp only [Bool.not_eq_true] at he
    simp only [he, Bool.false_and]
    cases jp
    simp_all

/-- `lockHosts` locks all hosts of an exclusive job, or fails at one of them. -/
theorem lockHosts_cases (fails undoFails : Nat → Bool) (jp : JobCard H) (locked : H → Bool) :
    (∃ l : H → Bool, lockHosts fails undoFails jp locked = (jp, l, true) ∧
      ∀ x, l x = true ↔ locked x = true ∨ jp.exclusive = true ∧ x ∈ jp.toHosts) ∨
    (jp.exclusive = true ∧ ∃ n < jp.toHosts.length, ∃ l : H → Bool, fails n = true ∧
      lockHosts fails undoFails jp locked =
        ((unlockHosts undoFails jp n l).1, (unlockHosts undoFails jp n l).2, false) ∧
      ∀ x, l x = true ↔ locked x = true ∨ x ∈ jp.toHosts.take n) := by
  by_cases he : jp.exclusive = true
  · obtain ⟨n, -, hres, hx⟩ := lockLoop_spec fails jp.toHosts 0 none locked (by simp)
    generalize hr : lockLoop fails 0 none jp.toHosts locked = r at hres hx
    rcases hres with ⟨hnone, rfl⟩ | ⟨hsome, hlt, hf⟩
    · refine .inl ⟨r.1, ?_, fun x => ?_⟩
      · rw [lockHosts, if_pos he, hr, ← Prod.mk.eta (p := r), hnone]
      · rw [hx x, take_length, and_iff_right he]
    · rw [Nat.zero_add] at hsome hf
      refine .inr ⟨he, n, hlt, r.1, hf, ?_, hx⟩
      rw [lockHosts, if_pos he, hr, ← Prod.mk.eta (p := r), hsome]
  · refine .inl ⟨locked, ?_, fun x => ?_⟩
    · rw [lockHosts, if_neg he]
    · simp [he]

omit [DecidableEq H] in
/-- A card that `job_finish` keeps. -/
theorem finishCard_some {report : Bool} {env : FinishEnv}
    (h : (finishCard jp report env).1 = some jp') :
    jp' = jp ∨ jp' = { jp with postJobStarted := true, jStatus := jobStatRun } := by
  unfold finishCard at h
  split_ifs at h <;> simp_all

omit [DecidableEq H] in
/-- When `job_finish` fails a call has failed and the card is kept. -/
theorem finishCard_false {report : Bool} {env : FinishEnv}
    (h : (finishCard jp report env).2 = false) :
    (finishCard jp report env).1 = some jp ∧ (env.statusJob = true → env.fork = false) := by
  unfold finishCard at h ⊢
  split_ifs at h ⊢ <;> simp_all

theorem foldl_unlock (locked : H → Bool) (x : H) :
    hs.foldl (fun l h => Function.update l h false) locked x = (locked x && decide (x ∉ hs)) := by
  induction hs generalizing locked with
  | nil => simp
  | cons h hs ih =>
    rw [foldl_cons, ih]
    by_cases hx : x = h
    · simp [hx]
    · simp [hx]

/-! ## What one event does to the list -/

/-- The cards agree in what the list is ordered by. -/
structure JobCard.SameKey (a b : JobCard H) : Prop where
  jobId : a.jobId = b.jobId
  priority : a.priority = b.priority
  startTime : a.startTime = b.startTime

omit [DecidableEq H] in
theorem JobCard.SameKey.refl (a : JobCard H) : a.SameKey a := ⟨rfl, rfl, rfl⟩

omit [DecidableEq H] in
theorem JobCard.SameKey.trans {a b c : JobCard H} (h : a.SameKey b) (h' : b.SameKey c) :
    a.SameKey c := ⟨h.1.trans h'.1, h.2.trans h'.2, h.3.trans h'.3⟩

/-- The job as all refreshes of a probe leave it. -/
def probeCard (specs : List (JobSpecs H)) (jp : JobCard H) : JobCard H :=
  specs.foldl (fun jp sp => if jp.jobId = sp.jobId then refreshCard sp jp else jp) jp

/-- The ways an event changes the list: a new job is linked, a job is dropped or linked anew, cards
are written in place with their keys kept, or a probe refreshes them. -/
inductive ListStep (jobs : List (JobCard H)) : SbdEvent H → List (JobCard H) → Prop
  | link {e} (jp : JobCard H) (hnew : ∀ k ∈ jobs, k.jobId ≠ jp.jobId) :
      ListStep jobs e (inJobLink jp jobs)
  | drop {e} (jobId : Nat) : ListStep jobs e (offList jobId jobs)
  | relink {e} (jp : JobCard H) : ListStep jobs e (inJobLink jp (offList jp.jobId jobs))
  | write {e} (f : JobCard H → JobCard H) (hf : ∀ j ∈ jobs, (f j).SameKey j) :
      ListStep jobs e (jobs.map f)
  | probe (specs : List (JobSpecs H)) : ListStep jobs (.probe specs) (jobs.map (probeCard specs))

omit [DecidableEq H] in
theorem ListStep.same {e : SbdEvent H} : ListStep jobs e jobs := by
  have h : ListStep jobs e (jobs.map id) := .write id fun j _ => .refl j
  rwa [map_id] at h

omit [DecidableEq H] in
/-- A card written back with its key kept. -/
theorem sameKey_setCard (hd : s.Distinct) (hjp : jp ∈ s.jobs) (hk : jp'.SameKey jp) :
    ∀ j ∈ s.jobs, (if j.jobId = jp'.jobId then jp' else j).SameKey j := by
  intro j hj
  split_ifs with hid
  · rw [hd.eq_of_jobId hj hjp (hid.trans hk.jobId)]
    exact hk
  · exact .refl j

/-- `job_finish` writes the card back or drops it. -/
theorem jobFinish_jobs (s : Sbd H) (jp : JobCard H) (report : Bool) (env : FinishEnv) :
    (∃ jp' : JobCard H, jp'.SameKey jp ∧ (jobFinish s jp report env).1.jobs = setCard jp' s.jobs) ∨
      (jobFinish s jp report env).1.jobs = s.jobs ∨
      (jobFinish s jp report env).1.jobs = offList jp.jobId s.jobs := by
  unfold jobFinish
  split_ifs
  · exact .inr (.inl rfl)
  · dsimp only
    generalize hended : ({ (unlockHosts never jp jp.toHosts.length s.locked).1 with
      finished := true } : JobCard H) = ended
    have hkey : ended.SameKey jp := by
      rw [← hended, unlockHosts_fst]
      exact ⟨rfl, rfl, rfl⟩
    cases hc : (finishCard ended report env).1 with
    | none => exact .inr (.inr rfl)
    | some jp' =>
      refine .inl ⟨jp', ?_, rfl⟩
      rcases finishCard_some hc with rfl | rfl
      · exact hkey
      · exact { hkey with }

theorem doProbe_jobs (s : Sbd H) (specs : List (JobSpecs H)) :
    (doProbe s specs).jobs = s.jobs.map (probeCard specs) := by
  induction specs generalizing s with
  | nil => exact (map_id _).symm
  | cons sp specs ih =>
    refine (ih (refreshJob s sp)).trans ?_
    rw [refreshJob, map_map]
    rfl

theorem doNewjob_jobs (s : Sbd H) (specs : JobSpecs H) (env : NewEnv) :
    (doNewjob s specs env).jobs = s.jobs ∨ ∃ jp : JobCard H, (∀ k ∈ s.jobs, k.jobId ≠ jp.jobId) ∧
      (doNewjob s specs env).jobs = inJobLink jp s.jobs := by
  by_cases hany : s.jobs.any (·.jobId = specs.jobId) = true
  · rw [doNewjob, if_pos hany]
    exact .inl rfl
  by_cases hcalloc : env.calloc = true
  swap
  · rw [doNewjob, if_neg hany, if_neg hcalloc]
    exact .inl rfl
  have hid : (lockHosts env.lockFails env.undoFails (newCard specs env.now) s.locked).1.jobId =
      specs.jobId := by
    rcases lockHosts_cases env.lockFails env.undoFails (newCard specs env.now) s.locked with
      ⟨l, h, -⟩ | ⟨-, n, -, l, -, h, -⟩
    · rw [h]
      rfl
    · rw [h, unlockHosts_fst]
      rfl
  rw [doNewjob, if_neg hany, if_pos hcalloc]
  obtain ⟨r, hr⟩ : ∃ r,
    lockHosts env.lockFails env.undoFails (newCard specs env.now) s.locked = r := ⟨_, rfl⟩
  rw [hr] at hid ⊢
  have hnew : ∀ k ∈ s.jobs, k.jobId ≠ (startCard specs r.1).jobId := fun k hk heq =>
    hany (any_eq_true.mpr ⟨k, hk, by simpa using heq.trans hid⟩)
  simp only
  split_ifs
  · exact .inr ⟨_, hnew, rfl⟩
  · exact .inl (offList_inJobLink _ hnew)
  · exact .inl rfl
  · exact .inl rfl

/-- **What one event does to the list.** -/
theorem listStep_step (hd : s.Distinct) (e : SbdEvent H) :
    ListStep s.jobs e (s.step e).jobs := by
  cases e with
  | newjob specs env =>
    rcases doNewjob_jobs s specs env with h | ⟨jp, hnew, h⟩
    · exact h ▸ .same
    · exact h ▸ .link jp hnew
  | switchjob specs windowsOk =>
    simp only [Sbd.step, doSwitchjob]
    split
    · exact .same
    next jp hfind =>
      split_ifs
      · exact .same
      · exact .relink (switchCard jp specs)
      · exact .relink (switchCard jp specs)
      · exact .same
  | probe specs => exact doProbe_jobs s specs ▸ .probe specs
  | finish jobId report env =>
    simp only [Sbd.step]
    split
    · exact .same
    next jp hfind =>
      rcases jobFinish_jobs s jp report env with ⟨jp', hkey, h⟩ | h | h
      · exact h ▸ .write _ (sameKey_setCard hd (find?_jobId hfind).1 hkey)
      · exact h ▸ .same
      · exact h ▸ .drop jp.jobId
  | jobSetup setup env =>
    simp only [Sbd.step, doJobSetup]
    split
    · exact .same
    next jp hfind =>
      have hjp := (find?_jobId hfind).1
      split_ifs
      · exact .same
      · exact .write _ (sameKey_setCard hd hjp ⟨rfl, rfl, rfl⟩)
      · exact .write _ (sameKey_setCard hd hjp ⟨rfl, rfl, rfl⟩)
      · exact .same
      all_goals
        -- Whatever `job_finish` makes of the card with the reported end, its key is kept.
        generalize hended : ({ jp with reasons := setup.reason, jStatus := setup.jStatus } :
          JobCard H) = ended
        have hkey : ended.SameKey jp := hended ▸ ⟨rfl, rfl, rfl⟩
        have hfin := jobFinish_jobs { s with jobs := setCard ended s.jobs } ended true env
      · rcases hfin with ⟨jp', hkey', h⟩ | h | h
        · rw [h, setCard_setCard hkey'.jobId]
          exact .write _ (sameKey_setCard hd hjp (hkey'.trans hkey))
        · exact h ▸ .write _ (sameKey_setCard hd hjp hkey)
        · rw [h, offList_setCard]
          exact .drop ended.jobId
      · rcases hfin with ⟨jp', hkey', h⟩ | h | h
        · rw [h, setCard_setCard (hkey.jobId.symm.trans hkey'.jobId.symm),
            setCard_setCard hkey.jobId.symm]
          exact .write _ (sameKey_setCard hd hjp (.refl jp))
        · rw [h, setCard_setCard hkey.jobId.symm]
          exact .write _ (sameKey_setCard hd hjp (.refl jp))
        · rw [h, offList_setCard, hkey.jobId, setCard_offList]
          exact .drop jp.jobId
  | runs jobId jStatus reasons actPid userJobSucc =>
    simp only [Sbd.step]
    split
    · exact .same
    next jp hfind => exact .write _ (sameKey_setCard hd (find?_jobId hfind).1 ⟨rfl, rfl, rfl⟩)

omit [DecidableEq H] in
theorem probeCard_jobId (specs : List (JobSpecs H)) (jp : JobCard H) :
    (probeCard specs jp).jobId = jp.jobId := by
  induction specs generalizing jp with
  | nil => rfl
  | cons sp specs ih =>
    refine (ih _).trans ?_
    show (if jp.jobId = sp.jobId then refreshCard sp jp else jp).jobId = _
    split_ifs <;> rfl

omit [DecidableEq H] in
theorem ListStep.nodup {jobs jobs' : List (JobCard H)} {e : SbdEvent H} (h : ListStep jobs e jobs')
    (hd : (jobs.map (·.jobId)).Nodup) : (jobs'.map (·.jobId)).Nodup := by
  cases h with
  | link jp hnew => exact nodup_inJobLink hd hnew
  | drop jobId => exact nodup_offList hd jobId
  | relink jp => exact nodup_inJobLink (nodup_offList hd _) fun k hk => (mem_offList.mp hk).2
  | write f hf => exact nodup_map hd fun j hj => (hf j hj).jobId
  | probe specs => exact nodup_map hd fun j _ => probeCard_jobId specs j

/-- Every event keeps the ids distinct. -/
theorem Sbd.Distinct.step (hd : s.Distinct) (e : SbdEvent H) : (s.step e).Distinct :=
  (listStep_step hd e).nodup hd

/-- **No job has two cards**, in any run of sbatchd. -/
theorem one_card_per_job (es : List (SbdEvent H)) : (Run.run Sbd.step Sbd.init es).Distinct :=
  have h0 : (Sbd.init : Sbd H).Distinct := nodup_nil
  Run.inv_all (fun _ e h => h.step e) h0 es

end Volclava
