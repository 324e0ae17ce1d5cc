import Volclava.Sbatchd

/-!
# Which job sbatchd suspends and resumes

The job list should be ordered by priority, and by falling start time within a priority. `tryStop`
walks it from the head and `tryResume` from the tail, so the order decides whom they take. A refresh
changes the priority of a job and leaves its place in the list. Besides, `tryResume` passes over a
job that `shouldResume` accepts when `jobResumeAction` refuses it.

- `tryStop`, `tryResume`: the walks, for any load and any outcome of the checks.
- `ordered_and_fair`: in every run whose probes keep the order of the priorities, the list is
  ordered, the first job suspended has the lowest priority and the job resumed the highest.
- `refresh_breaks_order`: a probe with one changed priority.
-/

namespace Volclava

open List

variable {H : Type}

/-! ## The walks -/

def Sbd.suspUserStop : Status := 0x00000002#32
def Sbd.suspQueueWindow : Status := 0x00000008#32
def Sbd.suspMbdLock : Status := 0x00010000#32

/-- `LOAD_REASONS`: load, stop and resume conditions, paging, missing load, and host locks. -/
def Sbd.loadReasons : Status :=
  0x00000040#32 ||| 0x00000200#32 ||| 0x00000400#32 ||| 0x00000800#32 ||| 0x00002000#32 |||
    0x00000020#32 ||| 0x00080000#32

/-- What `tryStop` reads besides the list. -/
structure StopEnv (H : Type) where
  now : Int
  sbdSleepTime : Int
  lastTryStopTime : Int
  /-- Whether the load of the job's hosts can be had. -/
  load : JobCard H → Bool
  /-- The result of `shouldStop`, after the jobs in the list were suspended, and whether it set
  `stopmore`. -/
  shouldStop : List (JobCard H) → JobCard H → Bool × Bool

/-- The tests of `tryStop` before it asks `shouldStop`. -/
def StopEnv.asks (env : StopEnv H) (jp : JobCard H) : Bool :=
  (jp.toHosts.length = 1 || env.load jp) && has jp.jStatus jobStatRun &&
    decide (jp.startTime + env.sbdSleepTime ≤ env.now)

/-- `shouldStop` accepts the job. -/
def StopEnv.Accepts (env : StopEnv H) (jp : JobCard H) : Prop :=
  env.asks jp = true ∧ (env.shouldStop [] jp).1 = true

/-- The loop of `tryStop`: the jobs it calls `jobSuspendAction` for. `stopmore` is never reset, and
a job on several hosts ends the loop in any case. -/
def StopEnv.stopLoop (env : StopEnv H) :
    Bool → List (JobCard H) → List (JobCard H) → List (JobCard H)
  | _, done, [] => done
  | stopmore, done, jp :: rest =>
    if env.asks jp then
      if (env.shouldStop done jp).1 then
        if jp.toHosts.length = 1 && (stopmore || (env.shouldStop done jp).2) then
          env.stopLoop true (done ++ [jp]) rest
        else done ++ [jp]
      else env.stopLoop (stopmore || (env.shouldStop done jp).2) done rest
    else env.stopLoop stopmore done rest

/-- The jobs `tryStop` suspends, in order. -/
def StopEnv.tryStop (env : StopEnv H) (jobs : List (JobCard H)) : List (JobCard H) :=
  if env.now - env.lastTryStopTime < env.sbdSleepTime then [] else env.stopLoop false [] jobs

/-- What `tryResume` reads besides the list. -/
structure ResumeEnv (H : Type) where
  now : Int
  sbdSleepTime : Int
  lastTryResumeTime : Int
  load : JobCard H → Bool
  checkResumeByLoad : JobCard H → Bool
  /-- Whether the resume action can be started. -/
  jobSigStart : JobCard H → Bool
  /-- Whether the processes of the job are still there. -/
  jobsig : JobCard H → Bool

namespace ResumeEnv

variable (env : ResumeEnv H)

def shouldResume (jp : JobCard H) : Bool :=
  has jp.jStatus jobStatSsusp && !has jp.reasons Sbd.suspQueueWindow &&
    !has jp.reasons Sbd.suspUserStop && !has jp.reasons Sbd.suspMbdLock && env.checkResumeByLoad jp

/-- Whether `jobResumeAction` returns `0`. -/
def jobResumeAction (jp : JobCard H) : Bool :=
  if has jp.reasons Sbd.suspMbdLock then false
  else if jp.actPid then true
  else if !has jp.reasons Sbd.loadReasons then false
  else env.jobSigStart jp || env.jobsig jp

/-- `shouldResume` is asked about the job and accepts it. -/
def accepts (jp : JobCard H) : Bool :=
  has jp.jStatus jobStatSsusp && !jp.actPid && (jp.toHosts.length = 1 || env.load jp) &&
    env.shouldResume jp

/-- The job `tryResume` resumes: the first one from the tail that is accepted and not refused. -/
def tryResume (jobs : List (JobCard H)) : Option (JobCard H) :=
  if env.now - env.lastTryResumeTime < env.sbdSleepTime then none
  else jobs.reverse.find? fun jp => env.accepts jp && env.jobResumeAction jp

end ResumeEnv

/-! ## The order of the list -/

/-- The list is ordered by priority, and by falling start time within a priority. -/
def Ordered (jobs : List (JobCard H)) : Prop := jobs.Pairwise JobCard.Before

instance : IsTrans (JobCard H) JobCard.Before where
  trans a b c hab hbc := by
    simp only [JobCard.Before] at *
    omega

instance : Std.Total (JobCard.Before (H := H)) where
  total a b := by
    simp only [JobCard.Before]
    omega

/-- The priority a probe leaves a job with. -/
def newPriority (specs : List (JobSpecs H)) (jobId : Nat) (priority : Int) : Int :=
  specs.foldl (fun p sp => if jobId = sp.jobId then sp.priority else p) priority

theorem probeCard_priority (specs : List (JobSpecs H)) (jp : JobCard H) :
    (probeCard specs jp).priority = newPriority specs jp.jobId jp.priority := by
  induction specs generalizing jp with
  | nil => rfl
  | cons sp specs ih =>
    refine (ih _).trans ?_
    show newPriority specs (if jp.jobId = sp.jobId then refreshCard sp jp else jp).jobId
      (if jp.jobId = sp.jobId then refreshCard sp jp else jp).priority =
        newPriority specs jp.jobId (if jp.jobId = sp.jobId then sp.priority else jp.priority)
    split_ifs <;> rfl

theorem probeCard_startTime (specs : List (JobSpecs H)) (jp : JobCard H) :
    (probeCard specs jp).startTime = jp.startTime := by
  induction specs generalizing jp with
  | nil => rfl
  | cons sp specs ih =>
    refine (ih _).trans ?_
    show (if jp.jobId = sp.jobId then refreshCard sp jp else jp).startTime = _
    split_ifs <;> rfl

/-- A probe leaves every two jobs in the order their priorities had. -/
def Sbd.OrderOk (s : Sbd H) : SbdEvent H → Prop
  | .probe specs => ∀ j ∈ s.jobs, ∀ k ∈ s.jobs, j.priority < k.priority ↔
      newPriority specs j.jobId j.priority < newPriority specs k.jobId k.priority
  | _ => True

/-- One event keeps the order. -/
theorem Ordered.listStep {s : Sbd H} {e : SbdEvent H} {jobs' : List (JobCard H)}
    (h : Ordered s.jobs) (hstep : ListStep s.jobs e jobs') (hok : s.OrderOk e) : Ordered jobs' := by
  cases hstep with
  | link jp hnew => exact h.orderedInsert jp _
  | drop jobId => exact h.sublist filter_sublist
  | relink jp =>
    have hoff : Ordered (offList jp.jobId s.jobs) := h.sublist filter_sublist
    exact hoff.orderedInsert jp _
  | write f hf =>
    refine pairwise_map.mpr (h.imp_of_mem fun {a b} ha hb hab => ?_)
    rw [JobCard.Before, (hf a ha).priority, (hf b hb).priority, (hf a ha).startTime,
      (hf b hb).startTime]
    exact hab
  | probe specs =>
    refine pairwise_map.mpr (h.imp_of_mem fun {a b} ha hb hab => ?_)
    have hlt := hok a ha b hb
    have hgt := hok b hb a ha
    rw [← probeCard_priority, ← probeCard_priority] at hlt hgt
    rw [JobCard.Before, probeCard_startTime, probeCard_startTime]
    rw [JobCard.Before] at hab
    omega

/-! ## Whom the walks take -/

variable {jp : JobCard H}

/-- What `stopLoop` has done before it stays at the front. -/
theorem StopEnv.stopLoop_head (env : StopEnv H) (jobs : List (JobCard H)) (stopmore : Bool)
    {done : List (JobCard H)} (h : done.head? = some jp) :
    (env.stopLoop stopmore done jobs).head? = some jp := by
  induction jobs generalizing stopmore done with
  | nil => exact h
  | cons j jobs ih =>
    have happ : (done ++ [j]).head? = some jp := by
      rw [List.head?_append, h]
      rfl
    rw [stopLoop]
    split_ifs
    · exact ih true happ
    · exact happ
    · exact ih _ h
    · exact ih stopmore h

/-- The first job suspended is the first one accepted. -/
theorem StopEnv.stopLoop_first (env : StopEnv H) (jobs : List (JobCard H)) (stopmore : Bool)
    (h : (env.stopLoop stopmore [] jobs).head? = some jp) :
    ∃ pre post, jobs = pre ++ jp :: post ∧ ∀ k ∈ pre, ¬ env.Accepts k := by
  induction jobs generalizing stopmore with
  | nil => cases h
  | cons j jobs ih =>
    -- A job that is not accepted is passed over.
    have hskip : ¬ env.Accepts j → ∀ more, (env.stopLoop more [] jobs).head? = some jp →
        ∃ pre post, j :: jobs = pre ++ jp :: post ∧ ∀ k ∈ pre, ¬ env.Accepts k := by
      intro hj more hmore
      obtain ⟨pre, post, rfl, hpre⟩ := ih more hmore
      exact ⟨j :: pre, post, rfl, forall_mem_cons.mpr ⟨hj, hpre⟩⟩
    have hfirst : some j = some jp →
        ∃ pre post, j :: jobs = pre ++ jp :: post ∧ ∀ k ∈ pre, ¬ env.Accepts k := by
      intro heq
      obtain rfl := Option.some.inj heq
      exact ⟨[], jobs, rfl, nofun⟩
    rw [stopLoop] at h
    split_ifs at h with hasks hst hmore
    · exact hfirst ((env.stopLoop_head jobs true rfl).symm.trans h)
    · exact hfirst h
    · exact hskip (fun hacc => hst hacc.2) _ h
    · exact hskip (fun hacc => hasks hacc.1) _ h

variable {jobs : List (JobCard H)}

/-- In an ordered list the first job suspended has the lowest priority of those accepted. -/
theorem Ordered.tryStop (h : Ordered jobs) (env : StopEnv H)
    (hjp : (env.tryStop jobs).head? = some jp) :
    ∀ k ∈ jobs, env.Accepts k → jp.priority ≤ k.priority := by
  rw [StopEnv.tryStop] at hjp
  split_ifs at hjp
  · cases hjp
  · obtain ⟨pre, post, rfl, hpre⟩ := env.stopLoop_first jobs false hjp
    intro k hk hacc
    rcases mem_append.mp hk with hk | hk
    · exact absurd hacc (hpre k hk)
    · rcases mem_cons.mp hk with rfl | hk
      · exact le_rfl
      · have hbefore := (pairwise_cons.mp (pairwise_append.mp h).2.1).1 k hk
        rw [JobCard.Before] at hbefore
        omega

/-- In an ordered list the job resumed has the highest priority of those accepted, if none of them
is refused. -/
theorem Ordered.tryResume (h : Ordered jobs) (env : ResumeEnv H)
    (hact : ∀ k ∈ jobs, env.accepts k = true → env.jobResumeAction k = true)
    (hjp : env.tryResume jobs = some jp) :
    ∀ k ∈ jobs, env.accepts k = true → k.priority ≤ jp.priority := by
  rw [ResumeEnv.tryResume] at hjp
  split_ifs at hjp
  obtain ⟨-, pre, post, hsplit, hpre⟩ := List.find?_eq_some_iff_append.mp hjp
  intro k hk hacc
  have hrev : jobs.reverse.Pairwise fun a b => JobCard.Before b a := pairwise_reverse.mpr h
  rw [hsplit] at hrev
  rw [← mem_reverse, hsplit] at hk
  rcases mem_append.mp hk with hk' | hk'
  · have hno := hpre k hk'
    rw [hacc, hact k (mem_reverse.mp (hsplit ▸ hk)) hacc] at hno
    cases hno
  · rcases mem_cons.mp hk' with rfl | hk'
    · exact le_rfl
    · have hbefore := (pairwise_cons.mp (pairwise_append.mp hrev).2.1).1 k hk'
      rw [JobCard.Before] at hbefore
      omega

/-! ## Runs -/

/-- The list is ordered, the first job `tryStop` suspends has the lowest priority among those
`shouldStop` accepts, and the job `tryResume` resumes the highest among those `shouldResume`
accepts, whatever the loads are. -/
structure Fair (jobs : List (JobCard H)) : Prop where
  ordered : Ordered jobs
  stops : ∀ (env : StopEnv H) jp, (env.tryStop jobs).head? = some jp →
    ∀ k ∈ jobs, env.Accepts k → jp.priority ≤ k.priority
  resumes : ∀ (env : ResumeEnv H) jp,
    (∀ k ∈ jobs, env.accepts k = true → env.jobResumeAction k = true) →
    env.tryResume jobs = some jp → ∀ k ∈ jobs, env.accepts k = true → k.priority ≤ jp.priority

theorem Ordered.fair (h : Ordered jobs) : Fair jobs where
  ordered := h
  stops env _ hjp := h.tryStop env hjp
  resumes env _ hact hjp := h.tryResume env hact hjp

variable [DecidableEq H]

/-- **Low priorities stop first, high priorities resume first.** In every state of a run whose
probes keep the order of the priorities. -/
theorem ordered_and_fair {es : List (SbdEvent H)}
    (h : Run.Along Sbd.step Sbd.OrderOk Sbd.init es) (n : Nat) :
    Fair (Run.run Sbd.step Sbd.init (es.take n)).jobs := by
  have hinit : Ordered (Sbd.init : Sbd H).jobs ∧ (Sbd.init : Sbd H).Distinct :=
    ⟨List.Pairwise.nil, nodup_nil⟩
  have hstep : ∀ (s : Sbd H) e, s.OrderOk e → Ordered s.jobs ∧ s.Distinct →
      Ordered (s.step e).jobs ∧ (s.step e).Distinct := fun s e hok h =>
    ⟨h.1.listStep (listStep_step h.2 e) hok, h.2.step e⟩
  exact (Run.inv_take hstep hinit h n).1.fair

/-! ## A changed priority, and a job that is not resumed -/

/-- A job on one host with the given priority. -/
def queueSpecs (jobId : Nat) (priority : Int) : JobSpecs Nat := plainSpecs jobId priority [0] false

/-- `shouldStop` accepts every job. -/
def stopAll : StopEnv Nat where
  now := 1000
  sbdSleepTime := 30
  lastTryStopTime := 0
  load := fun _ => true
  shouldStop := fun _ _ => (true, false)

/-- Loads are low and every signal arrives. -/
def resumeAll : ResumeEnv Nat where
  now := 1000
  sbdSleepTime := 30
  lastTryResumeTime := 0
  load := fun _ => true
  checkResumeByLoad := fun _ => true
  jobSigStart := fun _ => true
  jobsig := fun _ => true

instance (s : Sbd H) : (e : SbdEvent H) → Decidable (s.OrderOk e) := by
  rintro ⟨⟩ <;> unfold Sbd.OrderOk <;> infer_instance

/-- Two jobs start, both get other priorities in the same order, and the first is switched. -/
def orderedRun : List (SbdEvent Nat) :=
  [.newjob (queueSpecs 1 5) (.fine 10), .newjob (queueSpecs 2 10) (.fine 20),
    .probe [queueSpecs 1 7, queueSpecs 2 9], .switchjob (queueSpecs 1 20) true]

theorem switched_job_last :
    Run.Along Sbd.step Sbd.OrderOk Sbd.init orderedRun ∧
      ∀ n, Fair (Run.run Sbd.step Sbd.init (orderedRun.take n)).jobs :=
  have h : Run.Along Sbd.step Sbd.OrderOk Sbd.init orderedRun := by decide
  ⟨h, ordered_and_fair h⟩

/-- The run in which a probe raises the priority of the first job above that of the second. -/
def raisedRun : List (SbdEvent Nat) :=
  [.newjob (queueSpecs 1 5) (.fine 10), .newjob (queueSpecs 2 10) (.fine 20),
    .probe [queueSpecs 1 20]]

/-- The run in which the job with the higher priority is suspended because of a limit
(`SUSP_RES_LIMIT`) and the other one because of the load. -/
def limitRun : List (SbdEvent Nat) :=
  [.newjob (queueSpecs 1 5) (.fine 10), .newjob (queueSpecs 2 10) (.fine 20),
    .runs 1 jobStatSsusp 0x40#32 false false, .runs 2 jobStatSsusp 0x20000#32 false false]

/-- After the raise the list is not ordered, and the job `tryStop` suspends has the higher priority
of the two. In the other run `shouldResume` accepts both jobs and the one with the lower priority is
resumed. -/
theorem refresh_breaks_order :
    ¬ Ordered (Run.run Sbd.step Sbd.init raisedRun).jobs ∧
    (stopAll.tryStop (Run.run Sbd.step Sbd.init raisedRun).jobs).map (·.priority) = [20] ∧
    (Run.run Sbd.step Sbd.init raisedRun).jobs.map
      (fun jp => (jp.priority, stopAll.asks jp && (stopAll.shouldStop [] jp).1)) =
        [(20, true), (10, true)] ∧
    (resumeAll.tryResume (Run.run Sbd.step Sbd.init limitRun).jobs).map (·.priority) = some 5 ∧
    (Run.run Sbd.step Sbd.init limitRun).jobs.map
      (fun jp => (jp.priority, resumeAll.accepts jp)) = [(5, true), (10, true)] := by
  refine ⟨fun h => ?_, by decide, by decide, by decide, by decide⟩
  have hno : ¬ (Run.run Sbd.step Sbd.init raisedRun).jobs.Pairwise JobCard.Before := by decide
  exact hno h

end Volclava
