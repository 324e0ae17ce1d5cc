import Volclava.FSFlags
import Volclava.Status
import Volclava.Lib.Ledger

/-!
# Usage charged to share accounts

A job that has been dispatched from a fairshare queue is attached to a share account. Its slots are
charged to the account and its ancestors when it is attached and taken back when it is detached;
its run time is charged as it accumulates. The additions and subtractions are made at different
moments of a job's life, and a counter that has become negative is set to zero. This module has
the charging; whether the counters are the sums over the attached jobs is in the next one.

- `FSUsage.accumRunTime`, `attachJob2FSTree`, `detachedJobFromFSTree`, `jStatusChange`,
  `updJobSAcctForSwitch`: what charges usage.
- `nodes_updShareAcctStats`: a charge changes the accounts above its leaf and no others.
-/

namespace Volclava

open List

/-! ## The two counters -/

/-- The counters of an account that are charged for attached jobs. -/
inductive Counter where
  | numStartJobs | runTime
  deriving DecidableEq

namespace Counter

def of : Counter → ShareAcct → Int
  | numStartJobs, a => a.numStartJobs
  | runTime, a => a.runTime

def upd : Counter → Int → ShareAcctUpd
  | numStartJobs, d => .numStartJobs d
  | runTime, d => .runTime d

/-- A charge that takes its counter neither below zero nor out of the range of an `int` adds to
it. -/
theorem of_apply (r : CInt.Arith) (c : Counter) {c' : Counter} {d : Int} {a : ShareAcct}
    (hpos : 0 ≤ c'.of a + d) (hfit : c'.of a + d < 2 ^ 31) :
    c.of ((c'.upd d).apply r a) = c.of a + if c = c' then d else 0 := by
  have hint := r.int_of_nonneg hpos hfit
  cases c' with
  | numStartJobs =>
    change r.int (a.numStartJobs + d) = _ at hint
    cases c with
    | numStartJobs =>
      simp only [of, upd, ShareAcctUpd.apply, hint, if_pos]
      exact if_neg hpos.not_gt
    | runTime => exact (add_zero _).symm
  | runTime =>
    change r.int (a.runTime + d) = _ at hint
    cases c with
    | numStartJobs => exact (add_zero _).symm
    | runTime =>
      simp only [of, upd, ShareAcctUpd.apply, hint, if_pos]
      exact if_neg hpos.not_gt

end Counter

namespace FSTree

/-- The charge takes a counter of an account on the path below zero. -/
def clamps (r : CInt.Arith) (target : Nat) (c : Counter) (d : Int) (t : FSTree) : Bool :=
  t.nodes.any fun n => decide (target ∈ n.ptrs) && decide (r.int (c.of n.acct + d) < 0)

/-! ## Which accounts a walk up a path changes -/

theorem ptrs_subset_of_nodes (t : FSTree) {n : FSTree} (hn : n ∈ t.nodes) : n.ptrs ⊆ t.ptrs := by
  induction t using FSTree.induction with
  | user a => rw [mem_singleton.mp hn]; exact List.Subset.refl _
  | group a out tab => rw [mem_singleton.mp hn]; exact List.Subset.refl _
  | inner a kids ih =>
    rw [mem_nodes_inner] at hn
    rcases hn with rfl | ⟨k, hk, hn⟩
    · exact List.Subset.refl _
    · rw [ptrs_inner]
      intro x hx
      exact mem_cons.mpr (.inr (mem_flatMap.mpr ⟨k, hk, ih k hk hn hx⟩))

theorem self_mem_nodes (t : FSTree) : t ∈ t.nodes := by cases t <;> simp [nodes]

variable {target : Nat}

theorem mem_ptrs_of_updPath {f : ShareAcct → ShareAcct}
    {place : List FSTree → FSTree → List FSTree → List FSTree} {t t' : FSTree}
    (hu : t.updPath f place target = some t') : target ∈ t.ptrs := by
  by_contra hno
  have hhas : ¬ t.Has target := fun ⟨a, ha, hp⟩ => hno (mem_map.mpr ⟨a, ha, hp⟩)
  rw [(updPath_eq_none t).mpr hhas] at hu
  simp at hu

/-- **A walk up a path changes the accounts above its end and no others.** -/
theorem nodes_updPath {f : ShareAcct → ShareAcct} (hf : ∀ a, (f a).ptr = a.ptr)
    {place : List FSTree → FSTree → List FSTree → List FSTree}
    (hperm : ∀ l k r, (place l k r).Perm (l ++ k :: r)) (t : FSTree)
    (hnd : t.ptrs.Nodup) {t' : FSTree} (hu : t.updPath f place target = some t') :
    ∀ n' ∈ t'.nodes, ∃ n ∈ t.nodes, n'.ptrs.Perm n.ptrs ∧
      n'.acct = if target ∈ n.ptrs then f n.acct else n.acct := by
  have hroot : ∀ t t' : FSTree, t.updPath f place target = some t' →
      ∃ n ∈ t.nodes, t'.ptrs.Perm n.ptrs ∧
        t'.acct = if target ∈ n.ptrs then f n.acct else n.acct := fun t t' hu =>
    ⟨t, self_mem_nodes t, ptrs_updPath hf hperm hu, by
      rw [if_pos (mem_ptrs_of_updPath hu), acct_updPath hu]⟩
  have hkid : ∀ a kids, ∀ k ∈ kids, target ∉ k.ptrs → ∀ n' ∈ k.nodes, ∃ n ∈ (inner a kids).nodes,
      n'.ptrs.Perm n.ptrs ∧ n'.acct = if target ∈ n.ptrs then f n.acct else n.acct := by
    intro a kids k hk hno n' hn'
    refine ⟨n', mem_nodes_inner.mpr (.inr ⟨k, hk, hn'⟩), .refl _, ?_⟩
    rw [if_neg fun hmem => hno (ptrs_subset_of_nodes k hn' hmem)]
  refine updPath_induction (motive := fun t t' => t.updPath f place target = some t' →
    t.ptrs.Nodup → ∀ n' ∈ t'.nodes, ∃ n ∈ t.nodes, n'.ptrs.Perm n.ptrs ∧
      n'.acct = if target ∈ n.ptrs then f n.acct else n.acct) (fun a _ hu _ n' hn' => ?_)
    (fun a out tab _ hu _ n' hn' => ?_) (fun a kids ha hu hnd n' hn' => ?_)
    (fun a l k k' r _ _ hk ih hu hnd n' hn' => ?_) t hu hu hnd
  · rw [mem_singleton.mp hn']
    exact hroot _ _ hu
  · rw [mem_singleton.mp hn']
    exact hroot _ _ hu
  · rcases mem_nodes_inner.mp hn' with rfl | ⟨k, hk, hn'⟩
    · exact hroot _ _ hu
    · refine hkid a kids k hk (fun hmem => ?_) n' hn'
      rw [ptrs_inner, nodup_cons, ha] at hnd
      exact hnd.1 (mem_flatMap.mpr ⟨k, hk, hmem⟩)
  · have hin := mem_ptrs_of_updPath hk
    rw [ptrs_inner, nodup_cons, nodup_flatMap, pairwise_append,
      pairwise_cons] at hnd
    obtain ⟨-, hkids, hdisj⟩ := hnd
    rcases mem_nodes_inner.mp hn' with rfl | ⟨x, hx, hnx⟩
    · exact hroot _ _ hu
    · have hx := (hperm l k' r).mem_iff.mp hx
      rw [mem_append, mem_cons] at hx
      rcases hx with hx | rfl | hx
      · refine hkid a _ x (by simp [hx]) (fun hmem => ?_) n' hnx
        exact hdisj.2.2 x hx k (by simp) hmem hin
      · obtain ⟨n, hn, hp, hacct⟩ := ih hk (hkids k (by simp)) n' hnx
        exact ⟨n, mem_nodes_inner.mpr (.inr ⟨k, by simp, hn⟩), hp, hacct⟩
      · refine hkid a _ x (by simp [hx]) (fun hmem => ?_) n' hnx
        exact hdisj.2.1.1 x hx hin hmem

theorem nodes_updShareAcctStats {t : FSTree} (hnd : t.ptrs.Nodup) (r : CInt.Arith) (target : Nat)
    (u : ShareAcctUpd) :
    ∀ n' ∈ (t.updShareAcctStats r target u).nodes, ∃ n ∈ t.nodes, n'.ptrs.Perm n.ptrs ∧
      n'.acct = if target ∈ n.ptrs then u.apply r n.acct else n.acct := by
  unfold updShareAcctStats
  cases hu : t.updPath (u.apply r) keep target with
  | some t' => exact nodes_updPath (keepsId_apply r u).ptr keep_perm t hnd hu
  | none =>
    intro n' hn'
    have hno : target ∉ t.ptrs := by
      intro hmem
      obtain ⟨a, ha, hp⟩ := mem_map.mp hmem
      exact (updPath_eq_none t).mp hu ⟨a, ha, hp⟩
    refine ⟨n', hn', .refl _, ?_⟩
    rw [if_neg fun hmem => hno (ptrs_subset_of_nodes t hn' hmem)]

/-- Storing priorities leaves the counters as they are. -/
theorem nodes_updSAcctPriorityByPath {t : FSTree} (hnd : t.ptrs.Nodup) (P : FSParams)
    (target : Nat) :
    ∀ n' ∈ (t.updSAcctPriorityByPath P target).nodes, ∃ n ∈ t.nodes, n'.ptrs.Perm n.ptrs ∧
      ∀ c : Counter, c.of n'.acct = c.of n.acct := by
  unfold updSAcctPriorityByPath
  cases hu : t.updPath P.setPriority adjustOrderByPriority target with
  | none => exact fun n' hn' => ⟨n', hn', .refl _, fun _ => rfl⟩
  | some t' =>
    intro n' hn'
    obtain ⟨n, hn, hp, hacct⟩ :=
      nodes_updPath (keepsId_setPriority P).ptr adjustOrderByPriority_perm t hnd hu n' hn'
    refine ⟨n, hn, hp, fun c => ?_⟩
    rw [hacct]
    split_ifs
    · cases c <;> rfl
    · rfl

/-- A new account is the only one that comes to the accounts below another one. -/
theorem mem_ptrs_insertAfter {next : Nat} {new : ShareAcct → FSTree}
    (hnew : ∀ a, (new a).ptrs = [next]) (t : FSTree) {x : Nat} (hx : x ≠ next) :
    x ∈ (t.insertAfter target new).ptrs ↔ x ∈ t.ptrs := by
  induction t using FSTree.induction with
  | user a => rfl
  | group a out tab => rfl
  | inner a kids ih =>
    rw [insertAfter, ptrs_inner, ptrs_inner, mem_cons, mem_cons]
    refine or_congr_right ?_
    simp only [mem_flatMap]
    rcases insertAfterKids_eq target new kids with heq | ⟨l, y, r, rfl, -, heq⟩
    · simp only [heq, mem_map, exists_exists_and_eq_and]
      exact exists_congr fun k => and_congr_right (ih k)
    · have hl : (∃ k ∈ l, x ∈ (k.insertAfter target new).ptrs) ↔ ∃ k ∈ l, x ∈ k.ptrs :=
        exists_congr fun k => and_congr_right fun hk => ih k (by simp [hk])
      simp [heq, hl, hnew, hx, or_and_right, exists_or]

/-- A new account leaves the others as they are, except that it is below some of them. -/
theorem nodes_insertAfter {next : Nat} {new : ShareAcct → FSTree}
    (hnew : ∀ a, (new a).ptrs = [next] ∧ (new a).nodes = [new a]) (t : FSTree) :
    ∀ n' ∈ (t.insertAfter target new).nodes,
      (∃ n ∈ t.nodes, n'.acct = n.acct ∧ ∀ x, x ≠ next → (x ∈ n'.ptrs ↔ x ∈ n.ptrs)) ∨
        ∃ a, n' = new a := by
  induction t using FSTree.induction with
  | user a => exact fun n' hn' => .inl ⟨n', hn', rfl, fun _ _ => .rfl⟩
  | group a out tab => exact fun n' hn' => .inl ⟨n', hn', rfl, fun _ _ => .rfl⟩
  | inner a kids ih =>
    have hup : ∀ k ∈ kids, ∀ n ∈ k.nodes, n ∈ (inner a kids).nodes := by
      intro k hk n hn
      exact mem_nodes_inner.mpr (.inr ⟨k, hk, hn⟩)
    intro n' hn'
    rw [insertAfter, mem_nodes_inner] at hn'
    rcases hn' with rfl | ⟨y, hy, hn'⟩
    · refine .inl ⟨inner a kids, self_mem_nodes _, rfl, fun x hx => ?_⟩
      exact mem_ptrs_insertAfter (fun a => (hnew a).1) (inner a kids) hx
    · rcases mem_insertAfterKids hy with ⟨k, hk, rfl⟩ | hy | ⟨k, -, -, rfl⟩
      · rcases ih k hk n' hn' with ⟨n, hn, hacct⟩ | hnew'
        · exact .inl ⟨n, hup k hk n hn, hacct⟩
        · exact .inr hnew'
      · exact .inl ⟨n', hup y hy n' hn', rfl, fun _ _ => .rfl⟩
      · rw [(hnew _).2, mem_singleton] at hn'
        exact .inr ⟨_, hn'⟩

end FSTree

/-! ## Jobs and queues -/

/-- What the charging reads and writes of a job. The run time is -1 until a pending job starts. -/
structure FSJob (Q : Type*) where
  userName : String
  jStatus : Status
  queue : Q
  sa : Option (Q × Nat) := none
  runTime : Int := -1
  updStateTime : Int := 0
  numHostPtr : Nat := 0

/-- The fairshare policies, the jobs, and whether a charge has ever taken a counter below zero. -/
structure FSUsage (Q : Type*) where
  policies : Q → Option FSPolicy
  jobs : List (FSJob Q)
  clamped : Bool := false

def isSusp (s : Status) : Bool :=
  has s jobStatPsusp || has s jobStatSsusp || has s jobStatUsusp

/-- `accumRunTime` for the job itself, with the run time to charge. -/
def FSJob.accumRunTime {Q : Type*} (r : CInt.Arith) (j : FSJob Q) (newStatus : Status)
    (currentTime : Int) : FSJob Q × Int :=
  if has newStatus jobStatRun && has j.jStatus jobStatPend then
    ({ j with runTime := 0, updStateTime := currentTime }, 0)
  else if has newStatus jobStatRun && isSusp j.jStatus then
    ({ j with updStateTime := currentTime }, 0)
  else if !isStart newStatus && isStart j.jStatus then
    ({ j with runTime := 0, updStateTime := currentTime }, r.int (-j.runTime))
  else if has j.jStatus jobStatRun then
    let diffTime := r.int (currentTime - j.updStateTime)
    ({ j with
        runTime := r.int (j.runTime + diffTime)
        updStateTime := currentTime }, diffTime)
  else ({ j with updStateTime := currentTime }, 0)

namespace FSUsage

variable {Q : Type*} [DecidableEq Q]

/-- Changes the tree of a queue. -/
def atTree (s : FSUsage Q) (q : Q) (f : FSTree → FSTree) : FSUsage Q :=
  { s with
    policies := Function.update s.policies q
      ((s.policies q).map fun p => { p with root := f p.root }) }

variable (P : Q → FSParams)

/-- `updShareAcctStats` for one counter. -/
def updShareAcctStats (s : FSUsage Q) (sa : Q × Nat) (c : Counter) (d : Int) : FSUsage Q :=
  { s.atTree sa.1 (·.updShareAcctStats (P sa.1).arith sa.2 (c.upd d)) with
    clamped := s.clamped || (s.policies sa.1).any (·.root.clamps (P sa.1).arith sa.2 c d) }

def updSAcctPriorityByPath (s : FSUsage Q) (sa : Q × Nat) : FSUsage Q :=
  s.atTree sa.1 (·.updSAcctPriorityByPath (P sa.1) sa.2)

def setJob (s : FSUsage Q) (i : Nat) (j : FSJob Q) : FSUsage Q :=
  { s with jobs := s.jobs.set i j }

/-- `accumRunTime` for the job `i`, which is `j`. -/
def accumRunTime (s : FSUsage Q) (i : Nat) (j : FSJob Q) (newStatus : Status)
    (currentTime : Int) : FSUsage Q :=
  let acc := j.accumRunTime (P j.queue).arith newStatus currentTime
  match j.sa with
  | some sa =>
    if acc.2 ≠ 0 then
      ((s.setJob i acc.1).updShareAcctStats P sa .runTime acc.2).updSAcctPriorityByPath P sa
    else s.setJob i acc.1
  | none => s.setJob i acc.1

/-- `attachJob2FSTree` with a given account. -/
def attachJob2FSTree (s : FSUsage Q) (i : Nat) (j : FSJob Q) (sa : Q × Nat) : FSUsage Q :=
  ((s.updShareAcctStats P sa .numStartJobs j.numHostPtr).setJob i
    { j with sa := some sa }).updSAcctPriorityByPath P sa

def detachedJobFromFSTree (s : FSUsage Q) (i : Nat) (j : FSJob Q) : FSUsage Q :=
  match j.sa with
  | none => s
  | some sa =>
    ((s.updShareAcctStats P sa .numStartJobs (-j.numHostPtr)).updSAcctPriorityByPath P sa).setJob i
      { j with sa := none }

/-- The states that the callers of `jStatusChange` set a job to. Only a pending job is set to
`PSUSP`. -/
inductive NewState where
  | pend | psusp | run | rwait | ssusp | ususp | exit | done
  deriving DecidableEq

def NewState.word : NewState → Status
  | .pend => jobStatPend
  | .psusp => jobStatPsusp
  | .run => jobStatRun
  | .rwait => jobStatRun ||| jobStatWait
  | .ssusp => jobStatSsusp
  | .ususp => jobStatUsusp
  | .exit => jobStatExit
  | .done => jobStatDone

/-- `jStatusChange` after log replay, as far as it charges usage; `j` is the job `i`. -/
def jStatusChange (s : FSUsage Q) (i : Nat) (j : FSJob Q) (new : NewState) (currentTime : Int) :
    FSUsage Q :=
  if knownStatus new.word = knownStatus j.jStatus then s
  else
    let job := { (j.accumRunTime (P j.queue).arith new.word currentTime).1 with
      jStatus := setState j.jStatus new.word }
    let s := (s.accumRunTime P i j new.word currentTime).setJob i job
    if isStart new.word && isPend j.jStatus then s
    else if isFinish new.word then
      -- `updCounters` detaches the job, unless it had finished before.
      if isFinish j.jStatus then s else s.detachedJobFromFSTree P i job
    else if has new.word jobStatPend && isStart j.jStatus then
      -- `freeExecParams` at the end forgets the hosts.
      (s.detachedJobFromFSTree P i job).setJob i { job with sa := none, numHostPtr := 0 }
    else s

/-- An account that a look-up has returned: `getSAcctForJob` and elections return accounts of the
queue's tree. -/
def locate (s : FSUsage Q) (q : Q) (found : Option Nat) : Option (Q × Nat) :=
  match s.policies q with
  | none => none
  | some p => (found.filter (· ∈ p.root.ptrs)).map (q, ·)

def updAliveUserInFSTree (s : FSUsage Q) (q : Q) (userName : String) : FSUsage Q :=
  { s with
    policies := Function.update s.policies q
      ((s.policies q).map (·.updAliveUserInFSTree (P q) userName)) }

variable (fs : Q → Bool)

/-- The first half of `updJobSAcctForSwitch`: the job takes the run time it has from the account of
the queue `qfp` and is detached. -/
def leaveQueue (s : FSUsage Q) (i : Nat) (j : FSJob Q) (qfp : Q) : FSUsage Q :=
  match j.sa with
  | some sa =>
    if fs qfp then
      let s := s.updShareAcctStats P sa .runTime ((P qfp).arith.int (-j.runTime))
      s.detachedJobFromFSTree P i j
    else s
  | none => s

/-- The second half: the job brings its run time to an account of the queue `qtp` and is attached
to it. `found` is what `getSAcctForJob` returns. -/
def enterQueue (s : FSUsage Q) (i : Nat) (j : FSJob Q) (qtp : Q) (found : Option Nat) :
    FSUsage Q :=
  if fs qtp then
    let s := s.updAliveUserInFSTree P qtp j.userName
    match s.locate qtp found with
    | none => s
    | some sa => (s.updShareAcctStats P sa .runTime j.runTime).attachJob2FSTree P i j sa
  else s

/-- `updJobSAcctForSwitch`: the job `i`, which is `j` and has just been moved from the queue `qfp`
to the queue `qtp`. -/
def updJobSAcctForSwitch (s : FSUsage Q) (i : Nat) (j : FSJob Q) (qfp qtp : Q)
    (found : Option Nat) : FSUsage Q :=
  if isPend j.jStatus then
    if fs qtp then s.updAliveUserInFSTree P qtp j.userName else s
  else if isStart j.jStatus || has j.jStatus jobStatUnkwn then
    let left := s.leaveQueue P fs i j qfp
    match left.jobs[i]? with
    | none => left
    | some j => left.enterQueue P fs i j qtp found
  else s

/-- What happens to a job: it is submitted; it is dispatched to some hosts by the scheduler, with
the account it was elected from, or forced to run; its state changes; a user holds it while it is
pending; its run time is accumulated; its host is lost or found again; it is switched to another
queue. -/
inductive UsageOp (Q : Type*) where
  | newJob (userName : String) (queue : Q) (hold : Bool)
  | dispatch (i : Nat) (numHostPtr : Nat) (found : Option Nat) (time : Int)
  | runJob (i : Nat) (numHostPtr : Nat) (time : Int)
  | jStatusChange (i : Nat) (new : NewState) (time : Int)
  | accumRunTime (i : Nat) (time : Int)
  | hostJobs (i : Nat) (reachable : Bool)
  | switchJob (i : Nat) (qtp : Q) (found : Option Nat)

def step (s : FSUsage Q) : UsageOp Q → FSUsage Q
  | .newJob userName queue hold =>
    let s := if fs queue then s.updAliveUserInFSTree P queue userName else s
    { s with
      jobs := s.jobs ++
        [{ userName, jStatus := if hold then jobStatPsusp else jobStatPend, queue }] }
  | .dispatch i n found time =>
    match s.jobs[i]? with
    | none => s
    | some j =>
      if has j.jStatus jobStatPend then
        let s := (s.setJob i { j with numHostPtr := n }).jStatusChange P i
          { j with numHostPtr := n } .run time
        match s.jobs[i]?, if fs j.queue then s.locate j.queue found else none with
        | some j, some sa => if has j.jStatus jobStatRun then s.attachJob2FSTree P i j sa else s
        | _, _ => s
      else s
  | .runJob i n time =>
    match s.jobs[i]? with
    | none => s
    | some j =>
      if isPend j.jStatus then
        let j := { j with numHostPtr := n }
        (s.setJob i j).jStatusChange P i j .run time
      else s
  | .jStatusChange i new time =>
    match s.jobs[i]? with
    | none => s
    | some j =>
      if new = .psusp ∧ !has j.jStatus jobStatPend then s else s.jStatusChange P i j new time
  | .accumRunTime i time =>
    match s.jobs[i]? with
    | none => s
    | some j => if has j.jStatus jobStatRun then s.accumRunTime P i j j.jStatus time else s
  | .hostJobs i reachable =>
    match s.jobs[i]? with
    | none => s
    | some j =>
      if isStart j.jStatus then
        s.setJob i { j with
          jStatus :=
            if reachable then j.jStatus &&& ~~~jobStatUnkwn else j.jStatus ||| jobStatUnkwn }
      else s
  | .switchJob i qtp found =>
    match s.jobs[i]? with
    | none => s
    | some j =>
      if isFinish j.jStatus ∨ j.queue = qtp then s
      else (s.setJob i { j with queue := qtp }).updJobSAcctForSwitch P fs i
        { j with queue := qtp } j.queue qtp found

/-- The state after configuration, with the entries of `USER_SHARES` of each fairshare queue. -/
def start (conf : Q → Option (String × List FSEntry × List (String × Int))) : FSUsage Q where
  policies q := (conf q).map fun c => addFSPolicy (P q) c.1 c.2.1 c.2.2
  jobs := []

end FSUsage

end Volclava
