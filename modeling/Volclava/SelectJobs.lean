import Mathlib
import Volclava.Status

/-!
# Selecting the jobs of a query

`selectJobs` (`mbd.job.c`) lists the jobs that match a request: the job or the elements of the array
whose id is given, or the jobs on the lists that the options ask for. With `LAST_JOB` the most
recent of them is wanted. Of an array all elements that match are returned then, and on the lists
ids that are far apart are taken for ids that have wrapped.

- `findLastJob`, `selectJobs`: the selection.
- `selects_iff`: when the right jobs are selected, in whatever order they come.
-/

namespace Volclava.Query

open List

def allJob : Status := 0x0001#32
def doneJob : Status := 0x0002#32
def pendJob : Status := 0x0004#32
def suspJob : Status := 0x0008#32
def curJob : Status := 0x0010#32
def lastJob : Status := 0x0020#32
def runJob : Status := 0x0040#32
def jobidOnlyAll : Status := 0x2000#32
def zombieJob : Status := 0x4000#32

def maxInternalJobId : ℤ := 299999999999999

@[ext] structure Job where
  jobId : ℤ
  submitTime : ℤ
  deriving DecidableEq

inductive JList where
  | sjl | mjl | pjl | fjl
  deriving DecidableEq

inductive LsbErr where
  | noJob | badQueue

/-- A request. `target` is there for a request with a job id: the job or the elements of the array
that `getJobData` finds. `unknownQueue` is a queue that does not exist. -/
structure JobInfoReq where
  options : Status
  target : Option (Option (List Job))
  checkJobMatch : Job → Bool
  unknownQueue : Bool

def skipJobListByReq (options : Status) (joblist : JList) : Bool :=
  if has options (allJob ||| jobidOnlyAll) then false
  else if has options (curJob ||| lastJob) &&
      (joblist == .sjl || joblist == .pjl || joblist == .mjl) then false
  else if has options pendJob && (joblist == .pjl || joblist == .mjl) then false
  else if has options (suspJob ||| runJob) && joblist == .sjl then false
  else if has options doneJob && joblist == .fjl then false
  else if has options zombieJob && joblist == .fjl then false
  else true

def jobIdDiff (r j : Job) : ℤ :=
  if r.jobId - j.jobId < 0 then r.jobId - j.jobId + maxInternalJobId else r.jobId - j.jobId

/-- The job of two that `findLastJob` takes for the more recent one. -/
def recent (r j : Job) : Job :=
  if j.submitTime < r.submitTime then r
  else if j.submitTime = r.submitTime ∧ jobIdDiff r j < maxInternalJobId / 2 then r
  else j

/-- Whether the job is to be listed, and the new `recentJob`. -/
def findLastJob (options : Status) (j : Job) (recentJob : Option Job) : Bool × Option Job :=
  if has options lastJob then
    match recentJob with
    | none => (true, some j)
    | some r => (false, some (recent r j))
  else (true, recentJob)

/-- `joblist` and `recentJob`. -/
structure Listing where
  joblist : List Job
  recentJob : Option Job

def Listing.byId (s : Listing) (j : Job) : Listing := ⟨s.joblist ++ [j], some j⟩

def Listing.fromList (options : Status) (s : Listing) (j : Job) : Listing where
  joblist := if (findLastJob options j s.recentJob).1 then s.joblist ++ [j] else s.joblist
  recentJob := (findLastJob options j s.recentJob).2

namespace JobInfoReq

variable (req : JobInfoReq)

/-- The jobs on the lists that are not skipped. -/
def scanned (jDataList : JList → List Job) : List Job :=
  ([.sjl, .mjl, .pjl, .fjl].filter (!skipJobListByReq req.options ·)).flatMap jDataList

def loop (f : Listing → Job → Listing) (jobs : List Job) : Listing :=
  jobs.foldl (fun s j => if req.checkJobMatch j then f s j else s) ⟨[], none⟩

/-- The end of `selectJobs`, which returns as many jobs as have been listed. -/
def finish (s : Listing) : Except LsbErr (List Job) :=
  match s.joblist with
  | [] => .error (if req.unknownQueue then .badQueue else .noJob)
  | j :: rest => .ok (if has req.options lastJob then s.recentJob.getD j :: rest else j :: rest)

/-- `selectJobs`, with the jobs that are scanned. -/
def selectJobs (scanned : List Job) : Except LsbErr (List Job) :=
  match req.target with
  | some none => .error .noJob
  | some (some jobs) => req.finish (req.loop .byId jobs)
  | none => req.finish (req.loop (.fromList req.options) scanned)

/-- The jobs that match. -/
def matching (scanned : List Job) : List Job :=
  (match req.target with
    | some found => found.getD []
    | none => scanned).filter req.checkJobMatch

/-- The job submitted last, with the largest id where several are. -/
def Latest (jobs : List Job) (b : Job) : Prop :=
  b ∈ jobs ∧ ∀ x ∈ jobs, x.submitTime < b.submitTime ∨
    x.submitTime = b.submitTime ∧ x.jobId ≤ b.jobId

/-- With `LAST_JOB` the latest of the jobs is returned, otherwise each of them. -/
def Right (jobs : List Job) (r : Except LsbErr (List Job)) : Prop :=
  ∃ l, r = .ok l ∧ if has req.options lastJob then ∃ b, Latest jobs b ∧ l = [b] else l.Perm jobs

/-- If jobs match, the right ones are selected, in whatever order the lists hold them. -/
def Selects (jDataList : JList → List Job) : Prop :=
  ∀ jobs, jobs.Perm (req.scanned jDataList) → req.matching jobs ≠ [] →
    req.Right (req.matching jobs) (req.selectJobs jobs)

/-- The ids of the jobs that were submitted last are not far apart. -/
def CloseIds (jobs : List Job) : Prop :=
  ∀ a ∈ jobs, ∀ b ∈ jobs, a.submitTime = b.submitTime → (∀ x ∈ jobs, x.submitTime ≤ a.submitTime) →
    b.jobId - a.jobId < maxInternalJobId / 2

/-- With `LAST_JOB`, at most one job with the id asked for matches, or the ids are close. -/
def Close (jDataList : JList → List Job) : Prop :=
  has req.options lastJob = true →
    if req.target.isSome then (req.matching []).length ≤ 1
    else CloseIds (req.matching (req.scanned jDataList))

end JobInfoReq

/-! ## The more recent job -/

variable {b r x : Job} {l : List Job}

theorem recent_cases (r j : Job) : recent r j = r ∨ recent r j = j := by
  unfold recent
  split_ifs <;> simp

/-- A job that is preferred to every other one comes out. -/
theorem foldl_recent (hb : b ∈ r :: l) (h : ∀ x ∈ r :: l, recent b x = b ∧ recent x b = b) :
    l.foldl recent r = b := by
  induction l generalizing r with
  | nil => exact (mem_singleton.mp hb).symm
  | cons j l ih =>
    obtain ⟨hr, hj, hl⟩ : _ ∧ _ ∧ _ := by simpa only [forall_mem_cons] using h
    refine ih ?_ (forall_mem_cons.mpr ⟨?_, hl⟩)
    · rcases mem_cons.mp hb with rfl | hb
      · rw [hj.1]
        exact mem_cons_self ..
      · rcases mem_cons.mp hb with rfl | hb
        · rw [hr.2]
          exact mem_cons_self ..
        · exact mem_cons_of_mem _ hb
    · rcases recent_cases r j with heq | heq <;> rw [heq]
      · exact hr
      · exact hj

theorem recent_of_close (hx : x.submitTime < b.submitTime ∨
    x.submitTime = b.submitTime ∧ x.jobId ≤ b.jobId)
    (hclose : x.submitTime = b.submitTime → b.jobId - x.jobId < maxInternalJobId / 2) :
    recent b x = b ∧ recent x b = b := by
  unfold recent jobIdDiff maxInternalJobId at *
  refine ⟨?_, ?_⟩
  · split_ifs <;> first | rfl | omega
  · by_cases hne : x = b
    · rw [hne, ite_self, ite_self]
    · have hid : x.submitTime = b.submitTime → x.jobId ≠ b.jobId :=
        fun ht hid => hne (Job.ext hid ht)
      rw [if_neg (by omega), if_neg (by grind)]

theorem recent_of_far (hx : x.submitTime = b.submitTime)
    (hfar : maxInternalJobId / 2 ≤ b.jobId - x.jobId) : recent b x = x := by
  unfold recent jobIdDiff maxInternalJobId at *
  rw [if_neg (by omega), if_neg (by grind)]

namespace JobInfoReq

variable {req : JobInfoReq} {jobs : List Job}

theorem latest_of_close (h : CloseIds jobs) (hjobs : r :: l = jobs) :
    Latest jobs (l.foldl recent r) := by
  obtain ⟨b, hb, hmax⟩ := Finset.exists_max_image jobs.toFinset
    (fun j => toLex (j.submitTime, j.jobId)) ⟨r, by simp [← hjobs]⟩
  simp only [mem_toFinset, Prod.Lex.toLex_le_toLex] at hb hmax
  have hfold : l.foldl recent r = b := by
    refine foldl_recent (hjobs ▸ hb) fun x hx => ?_
    rw [hjobs] at hx
    refine recent_of_close (hmax x hx) fun ht => h x hx b hb ht fun y hy => ?_
    have := hmax y hy
    omega
  rw [hfold]
  exact ⟨hb, hmax⟩

/-- A job that comes last takes the place of one whose id is far larger. -/
theorem not_latest_of_far {a : Job} (hb : b ∈ jobs) (ht : a.submitTime = b.submitTime)
    (hmax : ∀ x ∈ jobs, x.submitTime ≤ a.submitTime)
    (hfar : maxInternalJobId / 2 ≤ b.jobId - a.jobId) :
    ¬ Latest jobs (recent r a) := by
  intro hlatest
  have hpos : (0 : ℤ) < maxInternalJobId / 2 := by decide
  have hne : recent r a ≠ a := by
    intro heq
    have hba := (heq ▸ hlatest).2 b hb
    omega
  rw [(recent_cases r a).resolve_right hne] at hlatest
  have hle := hmax _ hlatest.1
  have hba := hlatest.2 b hb
  exact hne (recent_of_far (by omega) (by omega))

/-! ## The loops -/

theorem loop_eq (f : Listing → Job → Listing) (jobs : List Job) :
    req.loop f jobs = (jobs.filter req.checkJobMatch).foldl f ⟨[], none⟩ := foldl_filter.symm

theorem foldl_byId (jobs : List Job) (s : Listing) : jobs.foldl Listing.byId s =
    ⟨s.joblist ++ jobs, jobs.getLast?.or s.recentJob⟩ := by
  induction jobs generalizing s with
  | nil => simp
  | cons j jobs ih => simp [ih, Listing.byId, List.getLast?_cons]

theorem foldl_fromList (h : has req.options lastJob = false) (jobs : List Job) (s : Listing) :
    jobs.foldl (Listing.fromList req.options) s = ⟨s.joblist ++ jobs, s.recentJob⟩ := by
  induction jobs generalizing s with
  | nil => simp
  | cons j jobs ih => simp [ih, Listing.fromList, findLastJob, h]

theorem foldl_fromList_last (h : has req.options lastJob = true) (jobs l : List Job) (r : Job) :
    jobs.foldl (Listing.fromList req.options) ⟨l, some r⟩ = ⟨l, some (jobs.foldl recent r)⟩ := by
  induction jobs generalizing r with
  | nil => rfl
  | cons j jobs ih => simp [ih, Listing.fromList, findLastJob, h]

theorem right_finish {j : Job} {rest : List Job} {recentJob : Option Job} :
    req.Right jobs (req.finish ⟨j :: rest, recentJob⟩) ↔
      if has req.options lastJob then rest = [] ∧ Latest jobs (recentJob.getD j)
      else (j :: rest).Perm jobs := by
  unfold Right finish
  split_ifs <;> simp [and_comm]

theorem right_byId (hne : jobs ≠ []) :
    req.Right jobs (req.finish (jobs.foldl Listing.byId ⟨[], none⟩)) ↔
      (has req.options lastJob = true → jobs.length ≤ 1) := by
  obtain ⟨j, rest, rfl⟩ := exists_cons_of_ne_nil hne
  rw [foldl_byId, nil_append, right_finish]
  split_ifs with hlast
  · refine ⟨fun h _ => by simp [h.1], fun h => ?_⟩
    obtain rfl : rest = [] := by simpa using h hlast
    exact ⟨rfl, by simp [Latest]⟩
  · simp [hlast]

theorem right_fromList (hlast : has req.options lastJob = true) :
    req.Right jobs (req.finish ((r :: l).foldl (Listing.fromList req.options) ⟨[], none⟩)) ↔
      Latest jobs (l.foldl recent r) := by
  have hfirst : Listing.fromList req.options ⟨[], none⟩ r = ⟨[r], some r⟩ := by
    simp [Listing.fromList, findLastJob, hlast]
  rw [foldl_cons, hfirst, foldl_fromList_last hlast, right_finish, if_pos hlast]
  simp

/-- On the lists, with `LAST_JOB`. -/
theorem forall_right_iff (hlast : has req.options lastJob = true) :
    (∀ l : List Job, l.Perm jobs → l ≠ [] →
      req.Right l (req.finish (l.foldl (Listing.fromList req.options) ⟨[], none⟩))) ↔
      CloseIds jobs := by
  constructor
  · intro h a ha b hb ht hmax
    by_contra hfar
    -- The job with the small id comes last.
    have hperm : (jobs.erase a ++ [a]).Perm jobs :=
      (perm_append_singleton ..).trans (perm_cons_erase ha).symm
    have hright := h _ hperm (by simp)
    cases hrest : jobs.erase a with
    | nil =>
      rw [hrest] at hperm
      obtain rfl := mem_singleton.mp (hperm.mem_iff.mpr hb)
      exact hfar (by rw [sub_self]; decide)
    | cons j rest =>
      rw [hrest] at hperm
      rw [hrest, cons_append, right_fromList hlast, foldl_append] at hright
      exact not_latest_of_far (hperm.mem_iff.mpr hb) ht
        (fun x hx => hmax x (hperm.mem_iff.mp hx)) (not_lt.mp hfar) hright
  · intro h l hperm hne
    obtain ⟨j, rest, rfl⟩ := exists_cons_of_ne_nil hne
    rw [right_fromList hlast]
    refine latest_of_close (fun a ha b hb ht hmax => ?_) rfl
    exact h a (hperm.mem_iff.mp ha) b (hperm.mem_iff.mp hb) ht
      fun x hx => hmax x (hperm.mem_iff.mpr hx)

/-- **The right jobs are selected exactly when their ids are close**, and of an array at most one
element matches. -/
theorem selects_iff (req : JobInfoReq) (jDataList : JList → List Job) :
    req.Selects jDataList ↔ req.Close jDataList := by
  unfold Selects Close matching selectJobs
  simp only [loop_eq]
  cases req.target with
  | some found =>
    cases found with
    | none => simp
    | some jobs =>
      by_cases hne : jobs.filter req.checkJobMatch = []
      · simp [hne]
      · simp only [Option.getD_some, right_byId hne]
        exact ⟨fun h => h _ (.refl _) hne, fun h _ _ _ => h⟩
  | none =>
    cases hlast : has req.options lastJob with
    | false =>
      refine iff_of_true (fun jobs _ hne => ?_) nofun
      obtain ⟨j, rest, hj⟩ := exists_cons_of_ne_nil hne
      rw [hj, foldl_fromList hlast, nil_append, right_finish, if_neg (by simp [hlast])]
    | true =>
      simp only [Option.isSome_none, true_implies, ← forall_right_iff hlast]
      constructor
      · intro h l hl hne
        -- The jobs that do not match come after the others.
        have hfilter : (l ++ (req.scanned jDataList).filter (!req.checkJobMatch ·)).filter
            req.checkJobMatch = l := by
          rw [filter_append, filter_filter]
          simpa using fun j hj => (mem_filter.mp (hl.mem_iff.mp hj)).2
        have hperm := (hl.append_right _).trans (filter_append_perm _ _)
        exact hfilter ▸ h _ hperm (by rwa [hfilter])
      · intro h jobs hperm hne
        exact h _ (hperm.filter _) hne

/-- An array of two elements, asked for with `LAST_JOB`. -/
def lastOfArray : JobInfoReq where
  options := lastJob
  target := some (some [⟨4294967303, 100⟩, ⟨8589934599, 100⟩])
  checkJobMatch := fun _ => true
  unknownQueue := false

/-- Both elements are returned, the second one twice. -/
theorem array_listed_whole : ¬ lastOfArray.Selects (fun _ => []) := by
  intro h
  exact absurd ((right_byId (by decide)).mp (h [] (.refl _) (by decide)) rfl) (by decide)

end JobInfoReq

end Volclava.Query
