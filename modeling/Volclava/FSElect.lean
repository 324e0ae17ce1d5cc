import Volclava.Fairshare

/-!
# Electing jobs from a fairshare queue

The scheduler puts the jobs of a fairshare queue into a job set, one list for each user, and takes
them out again one at a time with `sch_fs_electJob`: down the tree to the leaf with the highest
priority that has a job, or, for users outside the tree, the oldest job. A leaf that has nothing
to give is flagged and skipped from then on. The lists of users whose jobs are all gone stay in
the table, and the search of a group leaf does not expect them.

- `search_isSome`: when the search of a group leaf does not follow a null job.
- `FSSched.drained_once`: the job set is drained exactly once if no call meets such a list.
-/

namespace Volclava

open List

/-! ## The job set -/

/-- A job in the job set and its place among all jobs put in. -/
structure JobFSRef where
  job : Nat
  idx : Nat
  deriving DecidableEq, Repr

/-- The jobs of a fairshare queue by user. `usersTab` is in the order in which the hash table is
gone through, and a user's list begins with its back entry, the oldest job. -/
structure FSJobSet where
  usersTab : List (String × List JobFSRef)
  nJobs : Nat
  deriving DecidableEq

namespace FSJobSet

/-- The entry of a user. -/
def getEnt (js : FSJobSet) (userName : String) : Option (String × List JobFSRef) :=
  js.usersTab.find? (·.1 = userName)

/-- `addToFSJobSet`. A new user comes into the table at a place that depends on the hash
function: `rank` gives the order of the table. -/
def addToFSJobSet (rank : String → Nat) (js : FSJobSet) (j : String × Nat) : FSJobSet where
  nJobs := js.nJobs + 1
  usersTab :=
    if (js.getEnt j.1).isSome then
      js.usersTab.map fun e => if e.1 = j.1 then (e.1, e.2 ++ [⟨j.2, js.nJobs + 1⟩]) else e
    else
      js.usersTab.orderedInsert (fun a b => rank a.1 ≤ rank b.1) (j.1, [⟨j.2, js.nJobs + 1⟩])

/-- The job set of a list of jobs with their users. -/
def fill (rank : String → Nat) (jobs : List (String × Nat)) : FSJobSet :=
  jobs.foldl (addToFSJobSet rank) ⟨[], 0⟩

/-- The entries a group leaf goes through. -/
def groupEnts (js : FSJobSet) (outOthers : Bool) (usersTab : List String) :
    List (String × List JobFSRef) :=
  if outOthers then js.usersTab.filter (·.1 ∉ usersTab)
  else if usersTab = [] then js.usersTab
  else usersTab.filterMap js.getEnt

end FSJobSet

/-- The loop of a group leaf over the entries it goes through: the oldest of their back entries.
`none` stands for following a null job, which happens when an empty list comes after one that is
not. -/
def search : Option (JobFSRef × String) → List (String × List JobFSRef) →
    Option (Option (JobFSRef × String))
  | job0, [] => some job0
  | none, (u, l) :: es => search (l.head?.map (·, u)) es
  | some _, (_, []) :: _ => none
  | some job0, (u, job :: _) :: es =>
    search (if job.idx < job0.1.idx then some (job, u) else some job0) es

/-- `getJobFromFSJobSet` for a leaf: the job and the user it is taken from. -/
def FSJobSet.getJobFromFSJobSet (js : FSJobSet) : FSTree → Option (Option (JobFSRef × String))
  | .user a => some ((js.getEnt a.name).bind fun e => e.2.head?.map (·, e.1))
  | .group _ out tab => search none (js.groupEnts out tab)
  | .inner a _ => some ((js.getEnt a.name).bind fun e => e.2.head?.map (·, e.1))

/-! ## Skip flags -/

namespace FSTree

/-- `updSAcctSkippedFlag` at a leaf, with the number of times it goes on to the parent. -/
def skipLeaf (t : FSTree) : FSTree × Nat :=
  if t.acct.numSkippedChild = 1 then (t, 0)
  else (t.setAcct fun a => { a with numSkippedChild := 1, skipable := true }, 1)

/-- What `n` children that become skipable do to their parent, one after the other. -/
def climb (numEnts : Nat) : Nat → ShareAcct → ShareAcct × Nat
  | 0, a => (a, 0)
  | n + 1, a =>
    if a.numSkippedChild + 1 = numEnts then
      let r := climb numEnts n { a with numSkippedChild := a.numSkippedChild + 1, skipable := true }
      (r.1, r.2 + 1)
    else climb numEnts n { a with numSkippedChild := a.numSkippedChild + 1 }

mutual

/-- `updSAcctSkippedFlag` for the account `target`. -/
def updSAcctSkippedFlag (target : Nat) : FSTree → Option (FSTree × Nat)
  | user a => if a.ptr = target then some (skipLeaf (user a)) else none
  | group a out tab => if a.ptr = target then some (skipLeaf (group a out tab)) else none
  | inner a kids =>
    if a.ptr = target then
      some (if kids.isEmpty then skipLeaf (inner a kids) else (inner a kids, 0))
    else (skipKids target kids).map fun r =>
      (inner (climb kids.length r.2 a).1 r.1, (climb kids.length r.2 a).2)

def skipKids (target : Nat) : List FSTree → Option (List FSTree × Nat)
  | [] => none
  | k :: ks =>
    match updSAcctSkippedFlag target k with
    | some r => some (r.1 :: ks, r.2)
    | none => (skipKids target ks).map fun r => (k :: r.1, r.2)

end

mutual

/-- `sch_fs_init`: all flags are taken away. -/
def schFsInit : FSTree → FSTree
  | user a => user { a with numSkippedChild := 0, skipable := false }
  | group a out tab => group { a with numSkippedChild := 0, skipable := false } out tab
  | inner a kids => inner { a with numSkippedChild := 0, skipable := false } (schFsInitList kids)

def schFsInitList : List FSTree → List FSTree
  | [] => []
  | k :: ks => schFsInit k :: schFsInitList ks

end

/-! ## Election -/

/-- An elected job: the reference, the user whose list it is in, and the leaf. -/
structure Pick where
  ref : JobFSRef
  user : String
  sAcct : Nat
  deriving DecidableEq

/-- What has been found among some children: the children, how many of them have become
skipable, the best job so far with the priority of its child, and whether the loop has ended. -/
structure KidsPick where
  kids : List FSTree
  skipped : Nat
  best : Option (Pick × ℚ)
  stopped : Bool

def electLeaf (js : FSJobSet) (t : FSTree) : Option (FSTree × Nat × Option Pick) :=
  if t.acct.skipable then some (t, 0, none)
  else if t.acct.isDefault then some (t.skipLeaf.1, t.skipLeaf.2, none)
  else
    match js.getJobFromFSJobSet t with
    | none => none
    | some none => some (t.skipLeaf.1, t.skipLeaf.2, none)
    | some (some j) => some (t, 0, some ⟨j.1, j.2, t.acct.ptr⟩)

/-- The better of the job so far and one of another child with the same priority. -/
def olderPick (best : Pick × ℚ) (new : Option Pick) (priority : ℚ) : Pick × ℚ :=
  match new with
  | none => best
  | some p => if p.ref.idx < best.1.ref.idx then (p, priority) else best

mutual

/-- `electAJob`, with the number of times the skip flag goes on to the parent. -/
def electAJob (js : FSJobSet) : FSTree → Option (FSTree × Nat × Option Pick)
  | user a => electLeaf js (user a)
  | group a out tab => electLeaf js (group a out tab)
  | inner a kids =>
    if kids.isEmpty then electLeaf js (inner a kids)
    else if a.skipable ∨ a.isDefault then some (inner a kids, 0, none)
    else (electKids js kids).map fun r =>
      (inner (climb kids.length r.skipped a).1 r.kids, (climb kids.length r.skipped a).2,
        r.best.map (·.1))

/-- The loop of `electAJob` over the children, from the last one to the first. -/
def electKids (js : FSJobSet) : List FSTree → Option KidsPick
  | [] => some ⟨[], 0, none, false⟩
  | k :: ks =>
    (electKids js ks).bind fun r =>
      match r.best with
      | none => (electAJob js k).map fun e =>
        ⟨e.1 :: r.kids, r.skipped + e.2.1, e.2.2.map (·, k.priority), false⟩
      | some best =>
        if r.stopped then some { r with kids := k :: r.kids }
        else if k.priority = best.2 then (electAJob js k).map fun e =>
          ⟨e.1 :: r.kids, r.skipped + e.2.1, some (olderPick best e.2.2 k.priority), false⟩
        else some { r with kids := k :: r.kids, stopped := true }

end

end FSTree

/-- The loop of `sch_fs_electJob` over all users, for jobs whose user is not in the tree. -/
def oldest : Option (JobFSRef × String) → List (String × List JobFSRef) →
    Option (JobFSRef × String)
  | job0, [] => job0
  | none, (u, l) :: es => oldest (l.head?.map (·, u)) es
  | some job0, (_, []) :: es => oldest (some job0) es
  | some job0, (u, job :: _) :: es =>
    oldest (if job.idx < job0.1.idx then some (job, u) else some job0) es

/-- `rmJobFromFSJobSet` on the table. -/
def FSJobSet.rmJob (js : FSJobSet) (ref : JobFSRef) (userName : String) : FSJobSet where
  nJobs := js.nJobs - 1
  usersTab := js.usersTab.map fun e => if e.1 = userName then (e.1, e.2.erase ref) else e

/-- The scheduler with one fairshare queue: what the calls so far have returned, each job with
its leaf, and whether a call has followed a null job. -/
structure FSSched where
  root : FSTree
  jobSet : FSJobSet
  out : List (Option (JobFSRef × Option Nat)) := []
  crashed : Bool := false

namespace FSSched

/-- Takes the elected job out of the job set; the leaf is flagged if the list is empty then. -/
def take (s : FSSched) (root : FSTree) (ref : JobFSRef) (userName : String) (sa : Option Nat) :
    FSSched where
  jobSet := s.jobSet.rmJob ref userName
  root :=
    if ∃ e ∈ (s.jobSet.rmJob ref userName).usersTab, e.1 = userName ∧ e.2 = [] then
      ((sa.bind fun t => root.updSAcctSkippedFlag t).map (·.1)).getD root
    else root
  out := s.out ++ [some (ref, sa)]
  crashed := false

def schFsElectJob (s : FSSched) : FSSched :=
  if s.crashed then s
  else if s.jobSet.nJobs < 1 then { s with out := s.out ++ [none] }
  else
    match s.root.electAJob s.jobSet with
    | none => { s with crashed := true }
    | some (root, _, some p) => s.take root p.ref p.user (some p.sAcct)
    | some (root, _, none) =>
      match oldest none s.jobSet.usersTab with
      | some j => s.take root j.1 j.2 none
      | none => { s with root := root, out := s.out ++ [none] }

end FSSched

/-! ## When the search of a group leaf is safe -/

/-- In the order of the entries no empty list comes after one that is not. -/
def EmptyFirst (es : List (String × List JobFSRef)) : Prop :=
  es.Pairwise fun a b => b.2 = [] → a.2 = []

instance (es : List (String × List JobFSRef)) : Decidable (EmptyFirst es) := by
  unfold EmptyFirst; infer_instance

theorem search_some_isSome (job0 : JobFSRef × String) (es : List (String × List JobFSRef))
    (h : ∀ e ∈ es, e.2 ≠ []) : (search (some job0) es).isSome := by
  induction es generalizing job0 with
  | nil => rfl
  | cons e es ih =>
    obtain ⟨u, l⟩ := e
    cases l with
    | nil => exact absurd rfl (h (u, []) (by simp))
    | cons job l =>
      rw [search]
      split_ifs
      · exact ih _ fun e he => h e (by simp [he])
      · exact ih _ fun e he => h e (by simp [he])

variable (es : List (String × List JobFSRef))

/-- The search does not follow a null job if empty lists come first. -/
theorem search_isSome (h : EmptyFirst es) :
    (search none es).isSome := by
  induction es with
  | nil => rfl
  | cons e es ih =>
    obtain ⟨u, l⟩ := e
    obtain ⟨hl, hes⟩ := pairwise_cons.mp h
    cases l with
    | nil => exact ih hes
    | cons job l =>
      rw [search]
      refine search_some_isSome _ es fun e he hnil => ?_
      exact absurd (hl e he hnil) (by simp)

/-- Where it follows no null job, the loop of a group leaf does what the loop over all users
does. -/
theorem oldest_of_search {job0 : Option (JobFSRef × String)} {es : List (String × List JobFSRef)}
    {j : Option (JobFSRef × String)} (h : search job0 es = some j) : oldest job0 es = j := by
  induction es generalizing job0 with
  | nil => cases job0 <;> exact Option.some.inj h
  | cons e es ih =>
    obtain ⟨u, l⟩ := e
    cases job0 with
    | none => exact ih h
    | some job0 =>
      cases l with
      | nil => simp [search] at h
      | cons job l => exact ih h

/-- No job of the entries is older than `j`. -/
def Oldest (es : List (String × List JobFSRef)) (j : JobFSRef) : Prop :=
  ∀ e ∈ es, ∀ r ∈ e.2.head?, j.idx ≤ r.idx

instance (es : List (String × List JobFSRef)) (j : JobFSRef) : Decidable (Oldest es j) := by
  unfold Oldest; infer_instance

theorem oldest_some (job0 : JobFSRef × String) (es : List (String × List JobFSRef)) :
    ∃ j, oldest (some job0) es = some j ∧ (j = job0 ∨ ∃ l, (j.2, j.1 :: l) ∈ es) ∧
      j.1.idx ≤ job0.1.idx ∧ Oldest es j.1 := by
  induction es generalizing job0 with
  | nil => exact ⟨job0, rfl, .inl rfl, le_refl _, by simp [Oldest]⟩
  | cons e es ih =>
    obtain ⟨u, l⟩ := e
    have hmore : ∀ j : JobFSRef × String, (∃ l', (j.2, j.1 :: l') ∈ es) →
        ∃ l', (j.2, j.1 :: l') ∈ (u, l) :: es :=
      fun j ⟨l', hl'⟩ => ⟨l', mem_cons_of_mem _ hl'⟩
    cases l with
    | nil =>
      obtain ⟨j, hj, hmem, hle, hold⟩ := ih job0
      exact ⟨j, hj, hmem.imp_right (hmore j), hle, by simpa [Oldest] using hold⟩
    | cons job l =>
      rw [oldest]
      split_ifs with hlt
      · obtain ⟨j, hj, hmem, hle, hold⟩ := ih (job, u)
        refine ⟨j, hj, .inr ?_, hle.trans hlt.le, forall_mem_cons.mpr ⟨?_, hold⟩⟩
        · rcases hmem with rfl | hmem
          · exact ⟨l, by simp⟩
          · exact hmore j hmem
        · simpa using hle
      · obtain ⟨j, hj, hmem, hle, hold⟩ := ih job0
        refine ⟨j, hj, hmem.imp_right (hmore j), hle, forall_mem_cons.mpr ⟨?_, hold⟩⟩
        simpa using hle.trans (not_lt.mp hlt)

/-- The loop over all users finds the oldest of the back entries, or there is no job left. -/
theorem oldest_cases :
    (oldest none es = none ∧ ∀ e ∈ es, e.2 = []) ∨
      ∃ j l, oldest none es = some j ∧ (j.2, j.1 :: l) ∈ es ∧ Oldest es j.1 := by
  induction es with
  | nil => exact .inl ⟨rfl, by simp⟩
  | cons e es ih =>
    obtain ⟨u, l⟩ := e
    cases l with
    | nil =>
      rcases ih with ⟨hnone, hall⟩ | ⟨j, l', hj, hl', hold⟩
      · exact .inl ⟨hnone, by simpa using hall⟩
      · exact .inr ⟨j, l', hj, by simp [hl'], by simpa [Oldest] using hold⟩
    | cons job l =>
      obtain ⟨j, hj, hmem, hle, hold⟩ := oldest_some (job, u) es
      have hold' : Oldest ((u, job :: l) :: es) j.1 :=
        forall_mem_cons.mpr ⟨by simpa using hle, hold⟩
      rcases hmem with rfl | ⟨l', hl'⟩
      · exact .inr ⟨_, l, hj, by simp, hold'⟩
      · exact .inr ⟨j, l', hj, by simp [hl'], hold'⟩

/-- The lists a leaf takes its jobs from. -/
def FSJobSet.leafEnts (js : FSJobSet) : FSTree → List (String × List JobFSRef)
  | .user a => (js.getEnt a.name).toList
  | .group _ out tab => js.groupEnts out tab
  | .inner a _ => (js.getEnt a.name).toList

variable {js : FSJobSet}

theorem FSJobSet.mem_usersTab_of_leafEnts {t : FSTree} {e : String × List JobFSRef}
    (h : e ∈ js.leafEnts t) : e ∈ js.usersTab := by
  have hent : ∀ {u}, js.getEnt u = some e → e ∈ js.usersTab :=
    fun hu => mem_of_find?_eq_some hu
  cases t with
  | user a => exact hent (Option.mem_toList.mp h)
  | inner a kids => exact hent (Option.mem_toList.mp h)
  | group a out tab =>
    simp only [leafEnts, groupEnts] at h
    split_ifs at h
    · exact (mem_filter.mp h).1
    · exact h
    · obtain ⟨u, -, hu⟩ := mem_filterMap.mp h
      exact hent hu

/-- What a leaf gives: nothing if its lists are empty, or the oldest job at the back of one. -/
theorem FSJobSet.getJob_oldest {t : FSTree} {j : Option (JobFSRef × String)}
    (h : js.getJobFromFSJobSet t = some j) :
    (j = none ∧ ∀ e ∈ js.leafEnts t, e.2 = []) ∨
      ∃ j' l, j = some j' ∧ (j'.2, j'.1 :: l) ∈ js.leafEnts t ∧ Oldest (js.leafEnts t) j'.1 := by
  have hname : ∀ u, oldest none (js.getEnt u).toList =
      (js.getEnt u).bind fun e => e.2.head?.map (·, e.1) := by
    intro u
    cases js.getEnt u with
    | none => rfl
    | some e => simp [oldest]
  obtain rfl : oldest none (js.leafEnts t) = j := by
    cases t with
    | user a => exact (hname a.name).trans (Option.some.inj h)
    | inner a kids => exact (hname a.name).trans (Option.some.inj h)
    | group a out tab => exact oldest_of_search h
  exact oldest_cases (js.leafEnts t)

namespace FSTree

mutual

/-- The group leaves of a tree. -/
def groupLeaves : FSTree → List (ShareAcct × Bool × List String)
  | user _ => []
  | group a out tab => [(a, out, tab)]
  | inner _ kids => groupLeavesList kids

def groupLeavesList : List FSTree → List (ShareAcct × Bool × List String)
  | [] => []
  | k :: ks => groupLeaves k ++ groupLeavesList ks

end

variable {ks : List FSTree}

theorem mem_groupLeavesList {g : ShareAcct × Bool × List String} :
    g ∈ groupLeavesList ks ↔ ∃ k ∈ ks, g ∈ k.groupLeaves := by
  induction ks with
  | nil => simp [groupLeavesList]
  | cons k ks ih => simp [groupLeavesList, ih]

/-- No group leaf that is not flagged has an empty list after one that is not in its way. -/
def Safe (js : FSJobSet) (t : FSTree) : Prop :=
  ∀ g ∈ t.groupLeaves, g.1.skipable = false → EmptyFirst (js.groupEnts g.2.1 g.2.2)

instance (js : FSJobSet) (t : FSTree) : Decidable (t.Safe js) := by unfold Safe; infer_instance

variable {k : FSTree}

theorem Safe.kid {a : ShareAcct} {kids : List FSTree} (h : (inner a kids).Safe js)
    (hk : k ∈ kids) : k.Safe js := by
  intro g hg
  refine h g ?_
  rw [groupLeaves, mem_groupLeavesList]
  exact ⟨k, hk, hg⟩

/-- What an election in a leaf can do. -/
theorem electLeaf_cases (js : FSJobSet) (t : FSTree) :
    (t.acct.skipable = true ∧ electLeaf js t = some (t, 0, none)) ∨
    (t.acct.skipable = false ∧ (t.acct.isDefault = true ∨ js.getJobFromFSJobSet t = some none) ∧
      electLeaf js t = some (t.skipLeaf.1, t.skipLeaf.2, none)) ∨
    (t.acct.skipable = false ∧ t.acct.isDefault = false ∧ js.getJobFromFSJobSet t = none ∧
      electLeaf js t = none) ∨
    (t.acct.skipable = false ∧ t.acct.isDefault = false ∧
      ∃ j, js.getJobFromFSJobSet t = some (some j) ∧
        electLeaf js t = some (t, 0, some ⟨j.1, j.2, t.acct.ptr⟩)) := by
  unfold electLeaf
  cases hs : t.acct.skipable with
  | true => exact .inl ⟨rfl, by simp⟩
  | false =>
    cases hd : t.acct.isDefault with
    | true => exact .inr (.inl ⟨rfl, .inl rfl, by simp⟩)
    | false =>
      cases hj : js.getJobFromFSJobSet t with
      | none => exact .inr (.inr (.inl ⟨rfl, rfl, rfl, by simp⟩))
      | some j =>
        cases j with
        | none => exact .inr (.inl ⟨rfl, .inr rfl, by simp⟩)
        | some j => exact .inr (.inr (.inr ⟨rfl, rfl, j, rfl, by simp⟩))

variable {r : KidsPick}

theorem electKids_of_cons
    (h : electKids js (k :: ks) = some r) : ∃ r', electKids js ks = some r' := by
  rw [electKids] at h
  obtain ⟨r', hr', -⟩ := Option.bind_eq_some_iff.mp h
  exact ⟨r', hr'⟩

/-- What looking at one more child can do to what has been found so far. -/
theorem electKids_cons (hr : electKids js ks = some r) :
    (∃ best, r.best = some best ∧ electKids js (k :: ks) =
      some { r with kids := k :: r.kids, stopped := true } ∧
      (r.stopped = true ∨ k.priority ≠ best.2)) ∨
    (r.best = none ∧ electKids js (k :: ks) = (electAJob js k).map fun e =>
      ⟨e.1 :: r.kids, r.skipped + e.2.1, e.2.2.map (·, k.priority), false⟩) ∨
    (∃ best, r.best = some best ∧ r.stopped = false ∧ k.priority = best.2 ∧
      electKids js (k :: ks) = (electAJob js k).map fun e =>
        ⟨e.1 :: r.kids, r.skipped + e.2.1, some (olderPick best e.2.2 k.priority), false⟩) := by
  rw [electKids, hr, Option.bind_some]
  cases hb : r.best with
  | none => exact .inr (.inl ⟨rfl, rfl⟩)
  | some best =>
    dsimp only
    split_ifs with hst hp
    · refine .inl ⟨best, rfl, ?_, .inl hst⟩
      rw [← hst, ← hb]
    · exact .inr (.inr ⟨best, rfl, by simpa using hst, hp, rfl⟩)
    · refine .inl ⟨best, rfl, ?_, .inr hp⟩
      rw [← hb]

theorem electKids_isSome (h : ∀ k ∈ ks, (electAJob js k).isSome) : (electKids js ks).isSome := by
  induction ks with
  | nil => rfl
  | cons k ks ih =>
    obtain ⟨r, hr⟩ := Option.isSome_iff_exists.mp (ih fun x hx => h x (by simp [hx]))
    have hk := h k (by simp)
    rcases electKids_cons (k := k) hr with ⟨_, _, heq, _⟩ | ⟨_, heq⟩ | ⟨_, _, _, _, heq⟩
    · rw [heq]
      rfl
    · rw [heq, Option.isSome_map]
      exact hk
    · rw [heq, Option.isSome_map]
      exact hk

/-- In a safe tree an election does not follow a null job. -/
theorem electAJob_isSome (t : FSTree) (h : t.Safe js) :
    (electAJob js t).isSome := by
  have hleaf : ∀ t : FSTree, (t.acct.skipable = false → js.getJobFromFSJobSet t ≠ none) →
      (electLeaf js t).isSome := by
    intro t ht
    rcases electLeaf_cases js t with ⟨_, h⟩ | ⟨_, _, h⟩ | ⟨hs, _, hn, _⟩ | ⟨_, _, j, _, h⟩
    · rw [h]
      rfl
    · rw [h]
      rfl
    · exact absurd hn (ht hs)
    · rw [h]
      rfl
  induction t using FSTree.induction with
  | user a => exact hleaf _ fun _ => by simp [FSJobSet.getJobFromFSJobSet]
  | group a out tab =>
    refine hleaf _ fun hs => ?_
    have hsearch := search_isSome _ (h (a, out, tab) (by simp [groupLeaves]) hs)
    exact Option.isSome_iff_ne_none.mp hsearch
  | inner a kids ih =>
    rw [electAJob]
    split_ifs
    · exact hleaf _ fun _ => by simp [FSJobSet.getJobFromFSJobSet]
    · rfl
    · rw [Option.isSome_map]
      exact electKids_isSome fun k hk => ih k hk (h.kid hk)

theorem olderPick_cases (best : Pick × ℚ) (new : Option Pick) (priority : ℚ) :
    olderPick best new priority = best ∨
      ∃ p, new = some p ∧ olderPick best new priority = (p, priority) := by
  cases new with
  | none => exact .inl rfl
  | some p =>
    rw [olderPick]
    split_ifs
    · exact .inr ⟨p, rfl, rfl⟩
    · exact .inl rfl

/-- The job found among the children was elected from one of them. -/
theorem electKids_best {best : Pick × ℚ}
    (hr : electKids js ks = some r) (hb : r.best = some best) :
    ∃ k ∈ ks, ∃ t n, electAJob js k = some (t, n, some best.1) ∧ k.priority = best.2 := by
  induction ks generalizing r best with
  | nil =>
    obtain rfl := Option.some.inj hr
    simp at hb
  | cons k ks ih =>
    obtain ⟨r', hr'⟩ := electKids_of_cons hr
    have hold : ∀ best', r'.best = some best' →
        ∃ x ∈ k :: ks, ∃ t n, electAJob js x = some (t, n, some best'.1) ∧
          x.priority = best'.2 := by
      intro best' hb'
      obtain ⟨x, hx, hx'⟩ := ih hr' hb'
      exact ⟨x, by simp [hx], hx'⟩
    rcases electKids_cons (k := k) hr' with
      ⟨best', hb', heq, -⟩ | ⟨-, heq⟩ | ⟨best', hb', -, hp, heq⟩
    · rw [heq] at hr
      obtain rfl := Option.some.inj hr
      exact hold best hb
    · rw [heq] at hr
      obtain ⟨⟨t, n, p⟩, he, rfl⟩ := Option.map_eq_some_iff.mp hr
      obtain ⟨q, hq, rfl⟩ := Option.map_eq_some_iff.mp hb
      dsimp only at hq
      subst hq
      exact ⟨k, by simp, t, n, he, rfl⟩
    · rw [heq] at hr
      obtain ⟨⟨t, n, p⟩, he, rfl⟩ := Option.map_eq_some_iff.mp hr
      have hb := Option.some.inj hb
      rcases olderPick_cases best' p k.priority with hold' | ⟨q, rfl, hnew⟩
      · rw [hold'] at hb
        exact hb ▸ hold best' hb'
      · rw [hnew] at hb
        subst hb
        exact ⟨k, by simp, t, n, he, rfl⟩

theorem electLeaf_mem {t t' : FSTree} {n : Nat} {p : Pick}
    (ht : electLeaf js t = some (t', n, some p)) : ∃ l, (p.user, p.ref :: l) ∈ js.usersTab := by
  rcases electLeaf_cases js t with ⟨_, h⟩ | ⟨_, _, h⟩ | ⟨_, _, _, h⟩ | ⟨_, _, j, hj, h⟩
  · simp [h] at ht
  · simp [h] at ht
  · simp [h] at ht
  · rw [h] at ht
    obtain ⟨-, -, rfl⟩ : t = t' ∧ 0 = n ∧ _ = p := by simpa using ht
    rcases FSJobSet.getJob_oldest hj with ⟨hnone, -⟩ | ⟨j', l, heq, hl, -⟩
    · cases hnone
    · obtain rfl := Option.some.inj heq
      exact ⟨l, FSJobSet.mem_usersTab_of_leafEnts hl⟩

/-- An elected job is the back entry of a user's list. -/
theorem electAJob_mem (t : FSTree) {t' : FSTree} {n : Nat} {p : Pick}
    (h : electAJob js t = some (t', n, some p)) : ∃ l, (p.user, p.ref :: l) ∈ js.usersTab := by
  induction t using FSTree.induction generalizing t' n p with
  | user a => exact electLeaf_mem h
  | group a out tab => exact electLeaf_mem h
  | inner a kids ih =>
    rw [electAJob] at h
    split_ifs at h
    · exact electLeaf_mem h
    · simp at h
    · obtain ⟨r, hr, he⟩ := Option.map_eq_some_iff.mp h
      obtain ⟨best, hb, rfl⟩ : ∃ best, r.best = some best ∧ best.1 = p := by
        simpa using congrArg (fun x => x.2.2) he
      obtain ⟨k, hk, t, n, hek, -⟩ := electKids_best hr hb
      exact ih k hk hek

end FSTree

/-! ## The jobs that are left -/

namespace FSJobSet

/-- The jobs in the lists. -/
def refs (js : FSJobSet) : List JobFSRef := js.usersTab.flatMap (·.2)

/-- Each user has one list, and the jobs in the lists are counted. -/
structure WF (js : FSJobSet) : Prop where
  nodup : (js.usersTab.map (·.1)).Nodup
  count : js.nJobs = js.refs.length

variable {js : FSJobSet}

theorem refs_eq_nil : js.refs = [] ↔ ∀ e ∈ js.usersTab, e.2 = [] := by
  simp [refs, flatMap_eq_nil_iff]

variable {u : String}

theorem getEnt_isSome :
    (js.getEnt u).isSome ↔ u ∈ js.usersTab.map (·.1) := by
  simp [getEnt]

/-- A list of entries in which the list of one user is changed. -/
theorem flatMap_change {es : List (String × List JobFSRef)} (hn : (es.map (·.1)).Nodup)
    (f : List JobFSRef → List JobFSRef) {l : List JobFSRef} (h : (u, l) ∈ es) :
    ∃ rest : List JobFSRef, (es.flatMap (·.2)).Perm (l ++ rest) ∧
      ((es.map fun e => if e.1 = u then (e.1, f e.2) else e).flatMap (·.2)).Perm (f l ++ rest) := by
  induction es with
  | nil => simp at h
  | cons e es ih =>
    obtain ⟨hnot, hn⟩ := nodup_cons.mp hn
    rcases mem_cons.mp h with rfl | h
    · refine ⟨es.flatMap (·.2), by simp, ?_⟩
      have hsame : (es.map fun e => if e.1 = u then (e.1, f e.2) else e) = es := by
        conv_rhs => rw [← map_id es]
        refine map_congr_left fun e he => if_neg fun heq => ?_
        exact hnot (mem_map.mpr ⟨e, he, heq⟩)
      simp [hsame]
    · obtain ⟨rest, h1, h2⟩ := ih hn h
      have hne : e.1 ≠ u := fun heq => hnot (mem_map.mpr ⟨(u, l), h, heq.symm⟩)
      refine ⟨e.2 ++ rest, ?_, ?_⟩
      · rw [flatMap_cons]
        exact (h1.append_left e.2).trans (by simpa using perm_append_comm_assoc e.2 l rest)
      · rw [map_cons, if_neg hne, flatMap_cons]
        exact (h2.append_left e.2).trans (perm_append_comm_assoc e.2 (f l) rest)

theorem map_fst_change (f : List JobFSRef → List JobFSRef)
    (u : String) :
    (es.map fun e => if e.1 = u then (e.1, f e.2) else e).map (·.1) = es.map (·.1) := by
  rw [map_map]
  refine map_congr_left fun e _ => ?_
  rw [Function.comp_apply]
  split_ifs
  · rfl
  · rfl

/-- Taking the back entry out of a user's list takes it out of the job set. -/
theorem WF.rmJob (hwf : js.WF) {ref : JobFSRef} {l : List JobFSRef}
    (h : (u, ref :: l) ∈ js.usersTab) :
    (js.rmJob ref u).WF ∧ js.refs.Perm (ref :: (js.rmJob ref u).refs) := by
  obtain ⟨rest, hold, hnew⟩ := flatMap_change hwf.nodup (·.erase ref) h
  rw [erase_cons_head] at hnew
  have hperm : js.refs.Perm (ref :: (js.rmJob ref u).refs) := hold.trans (hnew.symm.cons ref)
  refine ⟨⟨?_, ?_⟩, hperm⟩
  · have hkeys := map_fst_change js.usersTab (·.erase ref) u
    exact (congrArg List.Nodup hkeys).mpr hwf.nodup
  · have hlen := hperm.length_eq
    rw [length_cons, ← hwf.count] at hlen
    exact (congrArg (· - 1) hlen).trans (Nat.add_sub_cancel _ 1)

theorem WF.addToFSJobSet (hwf : js.WF) (rank : String → Nat) (j : String × Nat) :
    (js.addToFSJobSet rank j).WF ∧
      (js.addToFSJobSet rank j).refs.Perm (⟨j.2, js.nJobs + 1⟩ :: js.refs) := by
  have hfirst : ((js.addToFSJobSet rank j).usersTab.map (·.1)).Nodup ∧
      (js.addToFSJobSet rank j).refs.Perm (⟨j.2, js.nJobs + 1⟩ :: js.refs) := by
    unfold FSJobSet.addToFSJobSet FSJobSet.refs
    dsimp only
    split_ifs with hent
    · have hkeys := map_fst_change js.usersTab (fun l => l ++ [⟨j.2, js.nJobs + 1⟩]) j.1
      rw [hkeys]
      refine ⟨hwf.nodup, ?_⟩
      obtain ⟨⟨u, l⟩, he, hu⟩ := mem_map.mp (getEnt_isSome.mp hent)
      dsimp only at hu
      subst hu
      obtain ⟨rest, hold, hnew⟩ := flatMap_change hwf.nodup (· ++ [⟨j.2, js.nJobs + 1⟩]) he
      refine hnew.trans (List.Perm.trans ?_ (hold.symm.cons _))
      rw [append_assoc]
      exact perm_middle
    · have hperm := perm_orderedInsert
        (fun a b : String × List JobFSRef => rank a.1 ≤ rank b.1)
        (j.1, [⟨j.2, js.nJobs + 1⟩]) js.usersTab
      refine ⟨(hperm.map (·.1)).nodup_iff.mpr ?_, hperm.flatMap_right _⟩
      exact nodup_cons.mpr ⟨fun hmem => hent (getEnt_isSome.mpr hmem), hwf.nodup⟩
  refine ⟨⟨hfirst.1, ?_⟩, hfirst.2⟩
  rw [hfirst.2.length_eq, length_cons, ← hwf.count]
  rfl

/-- A filled job set holds the jobs put in. -/
theorem fill_wf (rank : String → Nat) (jobs : List (String × Nat)) :
    (fill rank jobs).WF ∧ ((fill rank jobs).refs.map (·.job)).Perm (jobs.map (·.2)) := by
  induction jobs using List.reverseRecOn with
  | nil => exact ⟨⟨by simp [fill], rfl⟩, by simp [fill, refs]⟩
  | append_singleton jobs j ih =>
    rw [fill, foldl_append]
    obtain ⟨hwf, hperm⟩ := ih.1.addToFSJobSet rank j
    refine ⟨hwf, (hperm.map (·.job)).trans ?_⟩
    rw [map_append, map_cons]
    exact (ih.2.cons j.2).trans (perm_append_singleton _ _).symm

end FSJobSet

/-! ## The calls -/

namespace FSSched

variable {s : FSSched}

@[simp] theorem take_out (s : FSSched) (root : FSTree) (ref : JobFSRef) (u : String)
    (sa : Option Nat) : (s.take root ref u sa).out = s.out ++ [some (ref, sa)] := rfl

@[simp] theorem take_jobSet (s : FSSched) (root : FSTree) (ref : JobFSRef) (u : String)
    (sa : Option Nat) : (s.take root ref u sa).jobSet = s.jobSet.rmJob ref u := rfl

/-- A call on an empty job set returns no job. -/
theorem schFsElectJob_empty (hc : s.crashed = false) (hwf : s.jobSet.WF)
    (hnil : s.jobSet.refs = []) : s.schFsElectJob = { s with out := s.out ++ [none] } := by
  have hn : s.jobSet.nJobs < 1 := by rw [hwf.count, hnil]; exact Nat.one_pos
  rw [schFsElectJob, if_neg (by simp [hc]), if_pos hn]

/-- A call on a job set with jobs takes out the job that is elected, or the oldest one if there is
none, if the search is safe. -/
theorem schFsElectJob_cases (hc : s.crashed = false) (hwf : s.jobSet.WF)
    (hne : s.jobSet.refs ≠ []) (hsafe : s.root.Safe s.jobSet) :
    ∃ root n, (∃ p, s.root.electAJob s.jobSet = some (root, n, some p) ∧
        s.schFsElectJob = s.take root p.ref p.user (some p.sAcct)) ∨
      s.root.electAJob s.jobSet = some (root, n, none) ∧ ∃ ref u l,
        (u, ref :: l) ∈ s.jobSet.usersTab ∧ s.schFsElectJob = s.take root ref u none := by
  have hn : ¬ s.jobSet.nJobs < 1 := by
    rw [hwf.count, Nat.lt_one_iff, length_eq_zero_iff]
    exact hne
  obtain ⟨⟨root, n, p⟩, he⟩ := Option.isSome_iff_exists.mp (s.root.electAJob_isSome hsafe)
  rw [schFsElectJob, if_neg (by simp [hc]), if_neg hn, he]
  cases p with
  | some p => exact ⟨root, n, .inl ⟨p, rfl, rfl⟩⟩
  | none =>
    rcases oldest_cases s.jobSet.usersTab with ⟨-, hall⟩ | ⟨j, l, hj, hl, -⟩
    · exact absurd (FSJobSet.refs_eq_nil.mpr hall) hne
    · refine ⟨root, n, .inr ⟨rfl, j.1, j.2, l, hl, ?_⟩⟩
      dsimp only
      rw [hj]

/-- The session that begins with `sch_fs_init` and a filled job set, after `m` calls. -/
def session (root : FSTree) (rank : String → Nat) (jobs : List (String × Nat)) (m : Nat) :
    FSSched :=
  schFsElectJob^[m] { root := root.schFsInit, jobSet := FSJobSet.fill rank jobs }

/-- After `m` calls on a job set of the jobs `all`: the calls have returned `rs` and then no job
any more, and what is left is what they have not returned. -/
structure Drained (all : List JobFSRef) (m : Nat) (rs : List (JobFSRef × Option Nat))
    (s : FSSched) : Prop where
  crashed : s.crashed = false
  wf : s.jobSet.WF
  out : s.out = rs.map some ++ List.replicate (m - all.length) none
  length : rs.length = min m all.length
  perm : (rs.map (·.1) ++ s.jobSet.refs).Perm all

theorem Drained.length_refs {all : List JobFSRef} {m : Nat} {rs : List (JobFSRef × Option Nat)}
    (h : Drained all m rs s) : s.jobSet.refs.length = all.length - m := by
  have hlen := h.perm.length_eq
  rw [length_append, length_map, h.length] at hlen
  omega

/-- One more call. -/
theorem Drained.call {all : List JobFSRef} {m : Nat} {rs : List (JobFSRef × Option Nat)}
    (h : Drained all m rs s) (hsafe : s.root.Safe s.jobSet) :
    ∃ rs', Drained all (m + 1) rs' s.schFsElectJob := by
  have hlen := h.length_refs
  by_cases hnil : s.jobSet.refs = []
  · rw [hnil, length_nil] at hlen
    rw [schFsElectJob_empty h.crashed h.wf hnil]
    refine ⟨rs, h.crashed, h.wf, ?_, ?_, h.perm⟩
    · have hsucc : m + 1 - all.length = (m - all.length) + 1 := by omega
      dsimp only
      rw [h.out, append_assoc, hsucc, replicate_succ']
    · rw [h.length]
      omega
  · have hpos : 0 < s.jobSet.refs.length := length_pos_iff.mpr hnil
    obtain ⟨root, ref, u, l, sa, hmem, heq⟩ : ∃ root ref u l sa,
        (u, ref :: l) ∈ s.jobSet.usersTab ∧ s.schFsElectJob = s.take root ref u sa := by
      obtain ⟨root, n, ⟨p, he, heq⟩ | ⟨-, ref, u, l, hmem, heq⟩⟩ :=
        schFsElectJob_cases h.crashed h.wf hnil hsafe
      · obtain ⟨l, hl⟩ := s.root.electAJob_mem he
        exact ⟨root, p.ref, p.user, l, _, hl, heq⟩
      · exact ⟨root, ref, u, l, none, hmem, heq⟩
    obtain ⟨hwf, hperm⟩ := h.wf.rmJob hmem
    rw [heq]
    refine ⟨rs ++ [(ref, sa)], rfl, hwf, ?_, ?_, ?_⟩
    · have hzero : m - all.length = 0 := by omega
      have hzero' : m + 1 - all.length = 0 := by omega
      rw [take_out, h.out, hzero, hzero', map_append]
      simp
    · rw [length_append, h.length, length_singleton]
      omega
    · rw [take_jobSet, map_append, append_assoc]
      exact (hperm.symm.append_left _).trans h.perm

theorem session_drained (t : FSTree) (rank : String → Nat) (jobs : List (String × Nat)) (m : Nat)
    (hsafe : ∀ i < m, (session t rank jobs i).root.Safe (session t rank jobs i).jobSet) :
    ∃ rs, Drained (FSJobSet.fill rank jobs).refs m rs (session t rank jobs m) := by
  induction m with
  | zero =>
    refine ⟨[], rfl, (FSJobSet.fill_wf rank jobs).1, ?_, ?_, List.Perm.refl _⟩
    · simp [session]
    · simp
  | succ m ih =>
    obtain ⟨rs, hrs⟩ := ih fun i hi => hsafe i (by omega)
    have hnext : session t rank jobs (m + 1) = (session t rank jobs m).schFsElectJob :=
      Function.iterate_succ_apply' _ _ _
    rw [hnext]
    exact hrs.call (hsafe m (by omega))

/-- **If no call meets an emptied list behind one that is not in a group leaf that is not
flagged, the first calls return the jobs of the set, each once, and the later calls no job.** -/
theorem drained_once (t : FSTree) (rank : String → Nat) (jobs : List (String × Nat))
    (hjobs : (jobs.map (·.2)).Nodup) (m : Nat)
    (hsafe : ∀ i < m, (session t rank jobs i).root.Safe (session t rank jobs i).jobSet) :
    (session t rank jobs m).crashed = false ∧
      ∃ rs : List (JobFSRef × Option Nat),
        (session t rank jobs m).out = rs.map some ++ List.replicate (m - jobs.length) none ∧
        rs.length = min m jobs.length ∧ (rs.map (·.1.job)).Nodup ∧
        (rs.map (·.1.job)).Subperm (jobs.map (·.2)) := by
  obtain ⟨rs, h⟩ := session_drained t rank jobs m hsafe
  obtain ⟨-, hfill⟩ := FSJobSet.fill_wf rank jobs
  have hlen : (FSJobSet.fill rank jobs).refs.length = jobs.length := by
    simpa using hfill.length_eq
  have hperm := (h.perm.map (·.job)).trans hfill
  rw [map_append, map_map] at hperm
  have hsub : (rs.map (·.1.job)).Subperm (jobs.map (·.2)) :=
    (sublist_append_left _ _).subperm.trans hperm.subperm
  refine ⟨h.crashed, rs, hlen ▸ h.out, hlen ▸ h.length, ?_, hsub⟩
  obtain ⟨l, hl, hsl⟩ := hsub
  exact hl.nodup_iff.mp (hjobs.sublist hsl)

/-- A user, a group with a user of its own and three jobs. -/
theorem drained_three :
    (session (addFSPolicy (FSPolicy.defaultFactors (-1) (-1)) "normal"
        [.user "b" 10, .group "g" 1 ["a"]] []).root String.length
        [("b", 1), ("a", 2), ("b", 3)] 4).crashed = false ∧
      ∃ rs : List (JobFSRef × Option Nat),
        (session (addFSPolicy (FSPolicy.defaultFactors (-1) (-1)) "normal"
          [.user "b" 10, .group "g" 1 ["a"]] []).root String.length
          [("b", 1), ("a", 2), ("b", 3)] 4).out = rs.map some ++ List.replicate 1 none ∧
        rs.length = 3 ∧ (rs.map (·.1.job)).Nodup ∧ (rs.map (·.1.job)).Subperm [1, 2, 3] := by
  refine drained_once _ _ [("b", 1), ("a", 2), ("b", 3)] (by decide) 4 ?_
  decide +kernel

/-- The user `b` has a leaf of its own and is in a group with `a`. The first call takes the only
job of `b`; the search of the group in the second call follows the null job at the end of the
empty list. -/
theorem emptied_member_crashes :
    let s := session (addFSPolicy (FSPolicy.defaultFactors (-1) (-1)) "normal"
      [.user "b" 10, .group "g" 1 ["a", "b"]] []).root String.length [("b", 1), ("a", 2)]
    (s 1).out = [some (⟨1, 1⟩, some 1)] ∧ (s 1).crashed = false ∧
      (s 1).jobSet.refs = [⟨2, 2⟩] ∧ (s 2).crashed = true := by
  decide +kernel

end FSSched

end Volclava
