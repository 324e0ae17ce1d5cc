import Volclava.Lib.Run
import Volclava.Movements

/-!
# Counters of job groups and job arrays

The root job group and every job array count their jobs by state (`mbd.jgrp.c`, `mbd.jarray.c`). The
counters are never recomputed: creating a job, changing its status, requeueing and removing it move
one unit from the index of the old status to that of the new one, in the array of the job and in
the root. `NJOBS` moves along. The words that are counted are passed by the caller, next to the
assignment of the status.

- `getIndexOfJStatus`, `updJgrpCountByJStatus`, `updJgrpCountByOp`: the counters.
- `jStatusChange`, `handleRequeueJob`, `arrayRequeue`, `removeJob`, ...: the operations.
- `Tree.Exact`: every counter is the number of jobs with a status of that index.
- `counters_exact`: so it is in every run that keeps away from four kinds of steps.

Single jobs and arrays are children of the root; the names of the nodes, the observers and the lists
the jobs are on are left out. So is the modification of the name or the command of a whole job or
array, which takes its node off the tree and puts a new one on (`treeClip`, `treeFree`,
`putOntoTree`).
-/

namespace Volclava.Jgrp

open Ledger List

/-! ## Counting -/

/-- An index into `counts[NUM_JGRP_COUNTERS+1]`; the last one is for words out of bounds. -/
abbrev CountIndex := Fin 9

def njobs : CountIndex := 0

abbrev Counts := CountIndex → Int

/-- The bits `getIndexOfJStatus` looks at. -/
def stateBits (s : Status) : Status :=
  maskStatus (s &&& ~~~jobStatUnkwn &&& ~~~jobStatPdone &&& ~~~jobStatPerr)

def getIndexOfJStatus (s : Status) : CountIndex :=
  if stateBits s = jobStatPend ∨ stateBits s = jobStatRun ||| jobStatWait then 1
  else if stateBits s = jobStatPsusp then 2
  else if stateBits s = jobStatRun then 3
  else if stateBits s = jobStatSsusp then 4
  else if stateBits s = jobStatUsusp then 5
  else if stateBits s = jobStatExit ∨ stateBits s = jobStatExit ||| jobStatWait then 6
  else if stateBits s = jobStatDone ∨ stateBits s = jobStatDone ||| jobStatWait then 7
  else 8

/-- What a job with a status puts on the counters. -/
def unit (s : Status) (k : CountIndex) : Int :=
  (if k = njobs then 1 else 0) + if k = getIndexOfJStatus s then 1 else 0

/-- The counters of one node after a change of status. `JOB_STAT_NULL` stands for no job. -/
def counted (oldStatus newStatus : Status) (c : Counts) : Counts := fun k =>
  c k - (if oldStatus ≠ jobStatNull then unit oldStatus k else 0) +
    (if newStatus ≠ jobStatNull then unit newStatus k else 0)

/-! ## The tree -/

/-- A job. `array` is the array it is an element of; `sig1Flags` is that of its `pendEvent`. The id
of an element is negative if its index has overflowed. -/
structure Job where
  jobId : Int
  jStatus : Status
  sig1Flags : Status
  array : Option Nat
  deriving DecidableEq

/-- The jobs, the counters of the arrays, and those of the root group. -/
structure Tree where
  jobs : List Job
  arrays : Nat → Option Counts
  root : Counts

def Tree.empty : Tree := ⟨[], fun _ => none, fun _ => 0⟩

/-- Walks up from the node of a job: its array, if it is in one, and the root. -/
def updJgrpCountByJStatus (array : Option Nat) (oldStatus newStatus : Status) (t : Tree) :
    Tree where
  jobs := t.jobs
  arrays := match array with
    | none => t.arrays
    | some a => Function.update t.arrays a ((t.arrays a).map (counted oldStatus newStatus))
  root := counted oldStatus newStatus t.root

/-- Adds the counters of an array to the root, or takes them off, up to `NUM_JGRP_COUNTERS`. -/
def updJgrpCountByOp (c : Counts) (factor : Int) (t : Tree) : Tree :=
  { t with root := fun k => if k < 8 then t.root k + factor * c k else t.root k }

def Tree.setJob (t : Tree) (n : Nat) (j : Job) : Tree := { t with jobs := t.jobs.set n j }

/-! ## Operations -/

/-- The status word that `resetReserve` leaves, if it is called. -/
def afterResetReserve (o n : Status) (logIt : Bool) : Status :=
  if logIt && has o jobStatReserve && resets o n then o &&& ~~~jobStatReserve else o

/-- The status word after `jStatusChange`, for a word `n` of state bits. -/
def changedWord (o n : Status) (replay logIt : Bool) : Status :=
  if replay && !logIt && has o jobStatRun && has o jobStatWait &&
      (has n jobStatSsusp || has n jobStatUsusp) then
    -- A job that was suspended before it ran goes back to the pending jobs.
    if has n jobStatSsusp then jobStatPend else jobStatPsusp
  else clearFlags o n (setState (afterResetReserve o n logIt) n)

/-- `jStatusChange` of a job; `replay` while the log is replayed, `logIt` for `LOG_IT`. A job with a
negative id is not counted. -/
def jStatusChange (n : Nat) (newStatus : Status) (replay logIt : Bool) (t : Tree) : Tree :=
  match t.jobs[n]? with
  | none => t
  | some j =>
    if knownStatus newStatus = knownStatus j.jStatus then t
    else
      (if 0 ≤ j.jobId then
        updJgrpCountByJStatus j.array (afterResetReserve j.jStatus (maskStatus newStatus) logIt)
          (maskStatus newStatus) t
      else t).setJob n
        { j with jStatus := changedWord j.jStatus (maskStatus newStatus) replay logIt }

/-- `handleNewJob`: a single job, which `hold` suspends at once. -/
def newJob (jobId : Int) (hold : Bool) (t : Tree) : Tree :=
  let t' := updJgrpCountByJStatus none jobStatNull jobStatPend
    { t with jobs := t.jobs ++ [⟨jobId, jobStatPend, 0, none⟩] }
  if hold then jStatusChange t.jobs.length jobStatPsusp false false t' else t'

/-- `handleNewJobArray`: an array with the elements `ids`. -/
def newArray (a : Nat) (ids : List Int) (hold : Bool) (t : Tree) : Tree :=
  match t.arrays a with
  | some _ => t
  | none =>
    let status := if hold then jobStatPsusp else jobStatPend
    let c : Counts := fun k =>
      if k = njobs then ids.length else if k = getIndexOfJStatus status then ids.length else 0
    updJgrpCountByOp c 1
      { t with
        jobs := t.jobs ++ ids.map fun jobId => ⟨jobId, status, 0, some a⟩
        arrays := Function.update t.arrays a (some c) }

def handleRequeueJob (n : Nat) (t : Tree) : Tree :=
  match t.jobs[n]? with
  | none => t
  | some j =>
    let t' := (updJgrpCountByJStatus j.array j.jStatus jobStatPend t).setJob n
      { j with jStatus := jobStatPend }
    if j.sig1Flags = jobStatPsusp then
      (updJgrpCountByJStatus j.array jobStatPend jobStatPsusp t').setJob n
        { j with jStatus := jobStatPsusp, sig1Flags := 0 }
    else t'

/-- Which finished and started jobs a requeue request is for. -/
structure RequeueReq where
  done : Bool
  exit : Bool
  run : Bool
  /-- `chkPeriod`: the status that the jobs get. -/
  chkPeriod : Status
  deriving DecidableEq

/-- A finished job that the request is for. -/
def RequeueReq.takes (req : RequeueReq) (j : Job) : Bool :=
  (has j.jStatus jobStatDone && req.done) || (has j.jStatus jobStatExit && req.exit)

/-- One round of `arrayRequeue`. -/
def requeueRound (req : RequeueReq) (t : Tree) (n : Nat) : Tree :=
  match t.jobs[n]? with
  | none => t
  | some j =>
    if req.takes j then
      match (handleRequeueJob n t).jobs[n]? with
      | none => t
      | some j' =>
        if req.chkPeriod = jobStatPsusp then
          (updJgrpCountByJStatus j.array jobStatPend jobStatPsusp (handleRequeueJob n t)).setJob n
            { j' with jStatus := setState j'.jStatus jobStatPsusp }
        else (handleRequeueJob n t).setJob n { j' with jStatus := setState j'.jStatus jobStatPend }
    else if (isStart j.jStatus || has j.jStatus jobStatUnkwn) && req.run then
      t.setJob n { j with sig1Flags := req.chkPeriod }
    else t

/-- The positions of the elements of an array. -/
def Tree.elementsOf (t : Tree) (a : Nat) : List Nat :=
  (List.range t.jobs.length).filter fun n => (t.jobs[n]?.bind (·.array)) = some a

/-- The job or array a request is about. -/
inductive Target where
  | element (n : Nat)
  | array (a : Nat)
  deriving DecidableEq

/-- The jobs a request is about. -/
def Tree.targets (t : Tree) : Target → List Nat
  | .element n => [n]
  | .array a => t.elementsOf a

/-- `arrayRequeue`. An array whose counters show none of the jobs asked for is left alone. -/
def arrayRequeue (req : RequeueReq) (target : Target) (t : Tree) : Tree :=
  match target with
  | .element n => requeueRound req t n
  | .array a =>
    match t.arrays a with
    | none => t
    | some c =>
      if (c 3 = 0 ∧ req.run = true) ∧ (c 7 = 0 ∧ req.done = true) ∧
          (c 6 = 0 ∧ req.exit = true) then t
      else (t.elementsOf a).foldl (requeueRound req) t

/-- `removeJob`: the element leaves its array, and the last one takes the array along. -/
def removeJob (n : Nat) (t : Tree) : Tree :=
  match t.jobs[n]? with
  | none => t
  | some j =>
    let t' := updJgrpCountByJStatus j.array j.jStatus jobStatNull
      { t with jobs := t.jobs.eraseIdx n }
    match j.array with
    | none => t'
    | some a =>
      match t'.arrays a with
      | none => t'
      | some c =>
        if c njobs ≤ 0 then
          updJgrpCountByOp c (-1) { t' with arrays := Function.update t'.arrays a none }
        else t'

/-- The flags that code outside of these functions sets and clears. -/
def freeBits : Status :=
  ~~~(maskIntJobStat &&& ~~~jobStatUnkwn &&& ~~~jobStatPdone &&& ~~~jobStatPerr)

inductive Op where
  | newJob (jobId : Int) (hold : Bool)
  | newArray (a : Nat) (ids : List Int) (hold : Bool)
  | jStatusChange (n : Nat) (newStatus : Status) (replay logIt : Bool)
  | handleRequeueJob (n : Nat)
  | arrayRequeue (req : RequeueReq) (target : Target)
  /-- A signal or checkpoint request leaves flags in the job's `pendEvent`. -/
  | sig1Flags (n : Nat) (flags : Status)
  /-- `UNKWN`, `PDONE`, `PERR` and the flags above the state bits come and go. -/
  | flags (n : Nat) (on off : Status)
  | removeJob (n : Nat)
  deriving DecidableEq

def step (t : Tree) : Op → Tree
  | .newJob jobId hold => newJob jobId hold t
  | .newArray a ids hold => newArray a ids hold t
  | .jStatusChange n newStatus replay logIt => jStatusChange n newStatus replay logIt t
  | .handleRequeueJob n => handleRequeueJob n t
  | .arrayRequeue req target => arrayRequeue req target t
  | .sig1Flags n flags =>
    match t.jobs[n]? with
    | none => t
    | some j => t.setJob n { j with sig1Flags := flags }
  | .flags n on off =>
    match t.jobs[n]? with
    | none => t
    | some j => t.setJob n
        { j with jStatus := (j.jStatus ||| (on &&& freeBits)) &&& ~~~(off &&& freeBits) }
  | .removeJob n => removeJob n t

/-! ## Exact counters -/

/-- The jobs counted at a node: all of them at the root, its elements at an array. -/
def Tree.elements (t : Tree) (node : Option Nat) : List Job :=
  t.jobs.filter fun j => node = none ∨ j.array = node

def Tree.counts (t : Tree) : Option Nat → Option Counts
  | none => some t.root
  | some a => t.arrays a

/-- **The counters are exact**: at the root and at every array, `NJOBS` is the number of jobs, and
every other counter the number of jobs whose status has that index. -/
def Tree.Exact (t : Tree) : Prop :=
  ∀ node c, t.counts node = some c →
    c njobs = (t.elements node).length ∧
    ∀ k, k ≠ njobs →
      c k = ((t.elements node).filter fun j => getIndexOfJStatus j.jStatus = k).length

/-- Steps that keep the counters exact. -/
def Op.Careful (t : Tree) : Op → Prop
  | .newJob jobId hold => hold = true → 0 ≤ jobId
  | .jStatusChange n newStatus replay logIt => stateBits newStatus ≠ 0 ∧
      ∀ j ∈ t.jobs[n]?, 0 ≤ j.jobId ∧ ¬ (replay = true ∧ logIt = false ∧
        has j.jStatus jobStatRun = true ∧ has j.jStatus jobStatWait = true ∧
        (has newStatus jobStatSsusp = true ∨ has newStatus jobStatUsusp = true))
  | .arrayRequeue req target => ∀ n ∈ t.targets target, ∀ j ∈ t.jobs[n]?,
      req.takes j = true → j.sig1Flags ≠ jobStatPsusp
  | _ => True

instance (t : Tree) (op : Op) : Decidable (op.Careful t) := by
  unfold Op.Careful
  split <;> infer_instance

/-! ## Status words -/

variable (s : Status)

theorem stateBits_eq : stateBits s = s &&& ~~~freeBits := by
  have h : stateBits s = s &&& (~~~jobStatUnkwn &&& ~~~jobStatPdone &&& ~~~jobStatPerr &&&
      maskIntJobStat) := by
    simp only [stateBits, maskStatus]
    ac_rfl
  rw [h]
  rfl

theorem stateBits_setState (s n : Status) : stateBits (setState s n) = stateBits n := by
  have h0 : ~~~maskIntJobStat &&& ~~~freeBits = 0#32 := rfl
  rw [stateBits_eq, stateBits_eq, setState, BitVec.and_or_distrib_right, BitVec.and_assoc, h0,
    BitVec.and_zero, BitVec.zero_or]

theorem stateBits_maskStatus : stateBits (maskStatus s) = stateBits s := by
  have h : maskIntJobStat &&& ~~~freeBits = ~~~freeBits := rfl
  rw [stateBits_eq, stateBits_eq, maskStatus, BitVec.and_assoc, h]

theorem stateBits_and_not {s f : Status} (hf : ~~~f &&& ~~~freeBits = ~~~freeBits) :
    stateBits (s &&& ~~~f) = stateBits s := by
  rw [stateBits_eq, stateBits_eq, BitVec.and_assoc, hf]

theorem stateBits_flags (s on off : Status) :
    stateBits ((s ||| (on &&& freeBits)) &&& ~~~(off &&& freeBits)) = stateBits s := by
  have h : freeBits &&& ~~~freeBits = 0#32 := rfl
  rw [stateBits_and_not (not_and_mask rfl off), stateBits_eq, stateBits_eq,
    BitVec.and_or_distrib_right, BitVec.and_assoc, h, BitVec.and_zero, BitVec.or_zero]

theorem stateBits_clearFlags (o n s : Status) : stateBits (clearFlags o n s) = stateBits s := by
  unfold clearFlags
  split_ifs
  · exact stateBits_and_not rfl
  · exact stateBits_and_not rfl
  · exact stateBits_and_not rfl
  · rfl

theorem ne_null_of_stateBits {s : Status} (h : stateBits s ≠ 0) : s ≠ jobStatNull := by
  intro h0
  subst h0
  exact h rfl

theorem has_maskStatus {f : Status} (hf : maskIntJobStat &&& f = f) :
    has (maskStatus s) f = has s f := by
  rw [has, has, maskStatus, BitVec.and_assoc, hf]

theorem getIndexOfJStatus_ne_njobs : getIndexOfJStatus s ≠ njobs := by
  unfold getIndexOfJStatus
  split_ifs <;> decide

theorem unit_congr {s s' : Status} (h : stateBits s = stateBits s') : unit s = unit s' := by
  have hidx : getIndexOfJStatus s = getIndexOfJStatus s' := by
    simp only [getIndexOfJStatus, h]
  funext k
  simp only [unit, hidx]

/-! ## Exact counters are balanced -/

/-- What a job puts on the counters of a node. -/
def weightAt (node : Option Nat) (j : Job) (k : CountIndex) : Int :=
  if node = none ∨ j.array = node then unit j.jStatus k else 0

theorem sum_weightAt (node : Option Nat) (k : CountIndex) (l : List Job) :
    (l.map (weightAt node · k)).sum =
      if k = njobs then ((l.filter fun j => node = none ∨ j.array = node).length : Int)
      else ((l.filter fun j => node = none ∨ j.array = node).filter
        fun j => getIndexOfJStatus j.jStatus = k).length := by
  induction l with
  | nil => simp
  | cons j l ih =>
    have hne := getIndexOfJStatus_ne_njobs j.jStatus
    rw [map_cons, sum_cons, ih]
    by_cases hj : node = none ∨ j.array = node
    · by_cases hk : k = njobs
      · subst hk
        simp [weightAt, unit, hj, Ne.symm hne]
        ring
      · by_cases hidx : getIndexOfJStatus j.jStatus = k
        · simp [weightAt, unit, hj, hk, hidx]
          ring
        · simp [weightAt, unit, hj, hk, hidx, Ne.symm hidx]
    · simp [weightAt, hj]

/-- The counters of every node are the sums of what the jobs put on them. -/
def Tree.Balanced (t : Tree) : Prop :=
  ∀ node c, t.counts node = some c → Ledger.Balanced c (weightAt node) t.jobs

variable {t : Tree} {n : Nat}

theorem Tree.Balanced.exact (h : t.Balanced) : t.Exact := by
  intro node c hc
  constructor
  · rw [h node c hc njobs, sum_weightAt, if_pos rfl]
    rfl
  · intro k hk
    rw [h node c hc k, sum_weightAt, if_neg hk]
    rfl

/-- The invariant: balanced counters, every job has a state, and its array exists. -/
structure Tree.Kept (t : Tree) : Prop where
  balanced : t.Balanced
  states : ∀ j ∈ t.jobs, stateBits j.jStatus ≠ 0
  live : ∀ j ∈ t.jobs, ∀ a, j.array = some a → t.arrays a ≠ none

theorem Tree.kept_empty : Tree.empty.Kept := by
  refine ⟨?_, fun j hj => (nomatch hj), fun j hj => (nomatch hj)⟩
  intro node c hc
  cases node with
  | none =>
    cases hc
    exact Ledger.Balanced.nil _
  | some a => cases hc

/-! ## One job changes -/

theorem counts_updJgrpCountByJStatus (array node : Option Nat) (old new : Status) (t : Tree) :
    (updJgrpCountByJStatus array old new t).counts node = (t.counts node).map fun c =>
      if node = none ∨ array = node then counted old new c else c := by
  cases node with
  | none => rfl
  | some a =>
    show (updJgrpCountByJStatus array old new t).arrays a = (t.arrays a).map _
    unfold updJgrpCountByJStatus
    cases array with
    | none => simp
    | some b =>
      by_cases hab : b = a
      · subst hab
        simp
      · have hba : a ≠ b := fun h => hab h.symm
        simp [hab, hba]

theorem arrays_updJgrpCountByJStatus (array : Option Nat) (old new : Status) (t : Tree) (a : Nat) :
    (updJgrpCountByJStatus array old new t).arrays a = none ↔ t.arrays a = none := by
  have h := counts_updJgrpCountByJStatus array (some a) old new t
  change (updJgrpCountByJStatus array old new t).arrays a = _ at h
  rw [h, Option.map_eq_none_iff]
  rfl

theorem mem_set_cases {j' x : Job} (h : x ∈ (t.setJob n j').jobs) :
    x ∈ t.jobs ∨ x = j' := mem_or_eq_of_mem_set h

variable {j : Job}

/-- **A job is counted out with its old status and in with its new one.** -/
theorem Tree.Kept.recount (h : t.Kept) {j' : Job} (hj : t.jobs[n]? = some j) {old new : Status}
    (hold : stateBits old = stateBits j.jStatus) (hnew : stateBits new ≠ 0)
    (hst : stateBits j'.jStatus = stateBits new) (harr : j'.array = j.array) :
    ((updJgrpCountByJStatus j.array old new t).setJob n j').Kept := by
  obtain ⟨hn, hget⟩ := List.getElem?_eq_some_iff.mp hj
  have hmem : j ∈ t.jobs := mem_of_getElem? hj
  have hold0 : old ≠ jobStatNull := ne_null_of_stateBits (by rw [hold]; exact h.states j hmem)
  have hcount : ∀ c k, counted old new c k = c k - unit j.jStatus k + unit j'.jStatus k := by
    intro c k
    rw [counted, if_pos hold0, if_pos (ne_null_of_stateBits hnew), unit_congr hold, unit_congr hst]
  refine ⟨?_, ?_, ?_⟩
  · intro node c hc k
    have hc' := (counts_updJgrpCountByJStatus j.array node old new t).symm.trans hc
    obtain ⟨c₀, hc₀, rfl⟩ := Option.map_eq_some_iff.mp hc'
    show _ = ((t.jobs.set n j').map (weightAt node · k)).sum
    rw [sum_map_set hn, hget, ← h.balanced node c₀ hc₀ k, weightAt, weightAt, harr]
    by_cases hnode : node = none ∨ j.array = node
    · rw [if_pos hnode, if_pos hnode, if_pos hnode, hcount]
    · rw [if_neg hnode, if_neg hnode, if_neg hnode]
      ring
  · intro x hx
    rcases mem_set_cases hx with hx | rfl
    · exact h.states x hx
    · rw [hst]
      exact hnew
  · intro x hx a ha
    have hlive : t.arrays a ≠ none := by
      rcases mem_set_cases hx with hx | rfl
      · exact h.live x hx a ha
      · exact h.live j hmem a (harr ▸ ha)
    exact fun h0 => hlive ((arrays_updJgrpCountByJStatus j.array old new t a).mp h0)

/-- A change that the counters do not see. -/
theorem Tree.Kept.setJob (h : t.Kept) {j' : Job} (hj : t.jobs[n]? = some j)
    (hst : stateBits j'.jStatus = stateBits j.jStatus) (harr : j'.array = j.array) :
    (t.setJob n j').Kept := by
  have hid : counted j.jStatus j.jStatus = id := by
    funext c k
    simp [counted]
  have hsame : updJgrpCountByJStatus j.array j.jStatus j.jStatus t = t := by
    unfold updJgrpCountByJStatus
    rw [hid]
    cases j.array <;> simp
  have hcount : ((updJgrpCountByJStatus j.array j.jStatus j.jStatus t).setJob n j').Kept :=
    h.recount hj rfl (h.states j (mem_of_getElem? hj)) hst harr
  rwa [hsame] at hcount

/-! ## The operations -/

theorem stateBits_changedWord {o n : Status} {replay logIt : Bool}
    (h : ¬ (replay = true ∧ logIt = false ∧ has o jobStatRun = true ∧ has o jobStatWait = true ∧
      (has n jobStatSsusp = true ∨ has n jobStatUsusp = true))) :
    stateBits (changedWord o n replay logIt) = stateBits n := by
  unfold changedWord
  rw [if_neg, stateBits_clearFlags, stateBits_setState]
  simpa [and_assoc] using h

theorem Tree.Kept.jStatusChange (h : t.Kept) {newStatus : Status} {replay logIt : Bool}
    (hnew : stateBits newStatus ≠ 0) (hcare : ∀ j ∈ t.jobs[n]?, 0 ≤ j.jobId ∧ ¬ (replay = true ∧
      logIt = false ∧ has j.jStatus jobStatRun = true ∧ has j.jStatus jobStatWait = true ∧
      (has newStatus jobStatSsusp = true ∨ has newStatus jobStatUsusp = true))) :
    (Jgrp.jStatusChange n newStatus replay logIt t).Kept := by
  unfold Jgrp.jStatusChange
  split
  · exact h
  · next j hj =>
      split
      · exact h
      · rw [if_pos (hcare j hj).1]
        refine h.recount hj ?_ ?_ ?_ rfl
        · unfold afterResetReserve
          split
          · exact stateBits_and_not rfl
          · rfl
        · rw [stateBits_maskStatus]
          exact hnew
        · refine stateBits_changedWord ?_
          rw [has_maskStatus _ rfl, has_maskStatus _ rfl]
          exact (hcare j hj).2

theorem Tree.Kept.handleRequeueJob (h : t.Kept) (n : Nat) :
    (Jgrp.handleRequeueJob n t).Kept := by
  unfold Jgrp.handleRequeueJob
  split
  · exact h
  · next j hj =>
      have hpend : ((updJgrpCountByJStatus j.array j.jStatus jobStatPend t).setJob n
          { j with jStatus := jobStatPend }).Kept :=
        h.recount hj rfl (by decide) rfl rfl
      have hn : n < t.jobs.length := (List.getElem?_eq_some_iff.mp hj).1
      dsimp only
      split
      · refine hpend.recount (j := { j with jStatus := jobStatPend }) ?_ rfl (by decide) rfl rfl
        show (t.jobs.set n _)[n]? = _
        rw [List.getElem?_set_self hn]
      · exact hpend

/-- A requeued job that was not told to stay suspended is pending. -/
theorem handleRequeueJob_get (hj : t.jobs[n]? = some j)
    (hsig : j.sig1Flags ≠ jobStatPsusp) :
    (handleRequeueJob n t).jobs[n]? = some { j with jStatus := jobStatPend } := by
  have hn : n < t.jobs.length := (List.getElem?_eq_some_iff.mp hj).1
  unfold handleRequeueJob
  rw [hj]
  simp only [hsig, if_false]
  show (t.jobs.set n _)[n]? = _
  rw [List.getElem?_set_self hn]

variable {req : RequeueReq}

theorem Tree.Kept.requeueRound (h : t.Kept)
    (hcare : ∀ j ∈ t.jobs[n]?, req.takes j = true → j.sig1Flags ≠ jobStatPsusp) :
    (Jgrp.requeueRound req t n).Kept := by
  unfold Jgrp.requeueRound
  split
  · exact h
  · next j hj =>
      split
      · next htake =>
          have hget := handleRequeueJob_get hj (hcare j hj htake)
          have hreq := h.handleRequeueJob n
          rw [hget]
          dsimp only
          split
          · exact hreq.recount hget rfl (by decide) (stateBits_setState _ _) rfl
          · exact hreq.setJob hget (stateBits_setState _ _) rfl
      · split
        · exact h.setJob hj rfl rfl
        · exact h

theorem handleRequeueJob_other (t : Tree) {m n : Nat} (hm : m ≠ n) :
    (handleRequeueJob n t).jobs[m]? = t.jobs[m]? := by
  unfold handleRequeueJob
  split
  · rfl
  · dsimp only
    split
    · show ((t.jobs.set n _).set n _)[m]? = _
      rw [List.getElem?_set_ne (Ne.symm hm), List.getElem?_set_ne (Ne.symm hm)]
    · show (t.jobs.set n _)[m]? = _
      rw [List.getElem?_set_ne (Ne.symm hm)]

/-- A round leaves the other jobs alone. -/
theorem requeueRound_other (req : RequeueReq) (t : Tree) {m n : Nat} (hm : m ≠ n) :
    (requeueRound req t n).jobs[m]? = t.jobs[m]? := by
  unfold requeueRound
  split
  · rfl
  · split
    · split
      · rfl
      · split
        · show ((handleRequeueJob n t).jobs.set n _)[m]? = _
          rw [List.getElem?_set_ne (Ne.symm hm), handleRequeueJob_other t hm]
        · show ((handleRequeueJob n t).jobs.set n _)[m]? = _
          rw [List.getElem?_set_ne (Ne.symm hm), handleRequeueJob_other t hm]
    · split
      · show (t.jobs.set n _)[m]? = _
        rw [List.getElem?_set_ne (Ne.symm hm)]
      · rfl

theorem Tree.Kept.requeueRounds {ns : List Nat} (hnd : ns.Nodup) (h : t.Kept)
    (hcare : ∀ n ∈ ns, ∀ j ∈ t.jobs[n]?, req.takes j = true → j.sig1Flags ≠ jobStatPsusp) :
    (ns.foldl (Jgrp.requeueRound req) t).Kept := by
  induction ns generalizing t with
  | nil => exact h
  | cons n ns ih =>
    obtain ⟨hn, hns⟩ := nodup_cons.mp hnd
    refine ih hns (h.requeueRound (hcare n (mem_cons_self ..))) ?_
    intro m hm
    have hne : m ≠ n := by
      rintro rfl
      exact hn hm
    rw [requeueRound_other req t hne]
    exact hcare m (mem_cons_of_mem _ hm)

theorem Tree.Kept.arrayRequeue (h : t.Kept) {target : Target}
    (hcare : ∀ n ∈ t.targets target, ∀ j ∈ t.jobs[n]?, req.takes j = true →
      j.sig1Flags ≠ jobStatPsusp) : (Jgrp.arrayRequeue req target t).Kept := by
  cases target with
  | element n => exact h.requeueRound (hcare n (mem_singleton_self n))
  | array a =>
    show (match t.arrays a with
      | none => t
      | some c => _).Kept
    split
    · exact h
    · split
      · exact h
      · exact h.requeueRounds (nodup_range.filter _) hcare

/-- New jobs that are added to the counters of the root, and of their array if they have one. -/
theorem Tree.Kept.append {t t' : Tree} (h : t.Kept) (xs : List Job)
    (hjobs : t'.jobs = t.jobs ++ xs) (hst : ∀ x ∈ xs, stateBits x.jStatus ≠ 0)
    (hlive : ∀ x ∈ xs, ∀ a, x.array = some a → t'.arrays a ≠ none)
    (hroot : ∀ k, t'.root k = t.root k + (xs.map (weightAt none · k)).sum)
    (harr : ∀ a, t'.arrays a = t.arrays a ∧ (∀ x ∈ xs, x.array ≠ some a) ∨
      t.arrays a = none ∧ ∃ c, t'.arrays a = some c ∧
        ∀ k, c k = (xs.map (weightAt (some a) · k)).sum) : t'.Kept := by
  refine ⟨?_, ?_, ?_⟩
  · intro node c hc
    rw [hjobs]
    cases node with
    | none =>
      cases hc
      exact (h.balanced none t.root rfl).append xs hroot
    | some a =>
      rcases harr a with ⟨hsame, hnone⟩ | ⟨hnew, c', hc', hsum⟩
      · refine (h.balanced (some a) c (hsame.symm.trans hc)).append xs ?_
        intro k
        rw [sum_eq_zero, add_zero]
        simpa [weightAt] using fun x hx ha => absurd ha (hnone x hx)
      · -- An array that did not exist has no elements yet.
        have hcc : c' = c := by
          have hc'' : t'.arrays a = some c := hc
          rw [hc'] at hc''
          exact Option.some.inj hc''
        subst hcc
        intro k
        rw [map_append, sum_append, sum_eq_zero, hsum k, zero_add]
        simpa [weightAt] using fun x hx ha => absurd hnew (h.live x hx a ha)
  · rw [hjobs]
    exact forall_mem_append.mpr ⟨h.states, hst⟩
  · rw [hjobs]
    refine forall_mem_append.mpr ⟨fun x hx a ha => ?_, hlive⟩
    rcases harr a with ⟨hsame, -⟩ | ⟨-, c, hc, -⟩
    · rw [hsame]
      exact h.live x hx a ha
    · rw [hc]
      exact Option.some_ne_none c

theorem Tree.Kept.newJob (h : t.Kept) {jobId : Int} {hold : Bool}
    (hcare : hold = true → 0 ≤ jobId) : (Jgrp.newJob jobId hold t).Kept := by
  have hadd : (updJgrpCountByJStatus none jobStatNull jobStatPend
      { t with jobs := t.jobs ++ [⟨jobId, jobStatPend, 0, none⟩] }).Kept := by
    refine h.append [⟨jobId, jobStatPend, 0, none⟩] rfl ?_ ?_ ?_ ?_
    · intro x hx
      obtain rfl := mem_singleton.mp hx
      exact show stateBits jobStatPend ≠ 0 by decide
    · intro x hx a ha
      obtain rfl := mem_singleton.mp hx
      cases ha
    · intro k
      show counted jobStatNull jobStatPend t.root k = _
      simp [counted, weightAt, show jobStatPend ≠ jobStatNull by decide]
    · intro a
      refine Or.inl ⟨rfl, ?_⟩
      intro x hx
      obtain rfl := mem_singleton.mp hx
      exact nofun
  unfold Jgrp.newJob
  cases hold with
  | false => exact hadd
  | true =>
    refine hadd.jStatusChange (by decide) ?_
    intro j hj
    have hget : (t.jobs ++ [⟨jobId, jobStatPend, 0, none⟩])[t.jobs.length]? = some j := hj
    rw [getElem?_concat_length] at hget
    cases hget
    exact ⟨hcare rfl, fun hbad => nomatch hbad.1⟩

theorem Tree.Kept.newArray (h : t.Kept) (a : Nat) (ids : List Int) (hold : Bool) :
    (Jgrp.newArray a ids hold t).Kept := by
  unfold Jgrp.newArray
  split
  · exact h
  · next hfree =>
      dsimp only
      generalize hstatus : (if hold then jobStatPsusp else jobStatPend) = status
      have hidx : stateBits status ≠ 0 ∧ getIndexOfJStatus status < 8 ∧
          getIndexOfJStatus status ≠ njobs := by
        subst hstatus
        cases hold <;> decide
      have hsum : ∀ node k, node = none ∨ some a = node →
          ((ids.map fun jobId => (⟨jobId, status, 0, some a⟩ : Job)).map (weightAt node · k)).sum =
            if k = njobs then (ids.length : Int)
            else if k = getIndexOfJStatus status then ids.length else 0 := by
        intro node k hnode
        have hconst : (weightAt node · k) ∘ (fun jobId => (⟨jobId, status, 0, some a⟩ : Job)) =
            Function.const Int (unit status k) := by
          funext jobId
          simp [weightAt, hnode]
        rw [map_map, hconst, map_const, sum_replicate, unit]
        by_cases hk : k = njobs
        · simp [hk, Ne.symm hidx.2.2]
        · simp [hk]
      refine h.append (ids.map fun jobId => ⟨jobId, status, 0, some a⟩) rfl ?_ ?_ ?_ ?_
      · intro x hx
        obtain ⟨jobId, -, rfl⟩ := mem_map.mp hx
        exact hidx.1
      · intro x hx b hb
        obtain ⟨jobId, -, rfl⟩ := mem_map.mp hx
        cases hb
        simp [updJgrpCountByOp]
      · intro k
        rw [hsum none k (Or.inl rfl)]
        show (if k < 8 then t.root k + 1 * _ else t.root k) = _
        by_cases hk : k < 8
        · rw [if_pos hk, one_mul]
        · have hk0 : k ≠ njobs := by
            rintro rfl
            exact hk (by decide)
          have hk1 : k ≠ getIndexOfJStatus status := by
            rintro rfl
            exact hk hidx.2.1
          rw [if_neg hk, if_neg hk0, if_neg hk1, add_zero]
      · intro b
        by_cases hb : b = a
        · subst hb
          refine Or.inr ⟨hfree, _, Function.update_self .., ?_⟩
          intro k
          exact (hsum (some b) k (Or.inr rfl)).symm
        · refine Or.inl ⟨Function.update_of_ne hb .., ?_⟩
          intro x hx
          obtain ⟨jobId, -, rfl⟩ := mem_map.mp hx
          intro hab
          exact hb (Option.some.inj hab).symm

theorem sum_map_eraseIdx {f : Job → Int} {l : List Job} (hj : l[n]? = some j) :
    ((l.eraseIdx n).map f).sum = (l.map f).sum - f j := by
  obtain ⟨hn, rfl⟩ := List.getElem?_eq_some_iff.mp hj
  have hsum := List.CommMonoid.add_sum_eraseIdx (l := l.map f) (i := n) (by simpa using hn)
  rw [getElem_map, eraseIdx_map] at hsum
  rw [← hsum, add_sub_cancel_left]

theorem Tree.Kept.countOut (h : t.Kept) (hj : t.jobs[n]? = some j) :
    (updJgrpCountByJStatus j.array j.jStatus jobStatNull
      { t with jobs := t.jobs.eraseIdx n }).Kept := by
  have hold : j.jStatus ≠ jobStatNull :=
    ne_null_of_stateBits (h.states j (mem_of_getElem? hj))
  refine ⟨?_, ?_, ?_⟩
  · intro node c hc k
    rw [counts_updJgrpCountByJStatus] at hc
    obtain ⟨c₀, hc₀, rfl⟩ := Option.map_eq_some_iff.mp hc
    have hc₁ : t.counts node = some c₀ := by
      cases node with
      | none => exact hc₀
      | some a => exact hc₀
    show _ = ((t.jobs.eraseIdx n).map (weightAt node · k)).sum
    rw [sum_map_eraseIdx (f := (weightAt node · k)) hj, ← h.balanced node c₀ hc₁ k, weightAt]
    by_cases hnode : node = none ∨ j.array = node
    · rw [if_pos hnode, if_pos hnode, counted, if_pos hold]
      simp
    · rw [if_neg hnode, if_neg hnode]
      ring
  · intro x hx
    exact h.states x (mem_of_mem_eraseIdx hx)
  · intro x hx a ha h0
    exact h.live x (mem_of_mem_eraseIdx hx) a ha
      ((arrays_updJgrpCountByJStatus ..).mp h0)

/-- An array that counts no jobs has no elements, and all of its counters are zero. -/
theorem Tree.Kept.unused (h : t.Kept) {a : Nat} {c : Counts} (hc : t.arrays a = some c)
    (h0 : c njobs ≤ 0) : (∀ j ∈ t.jobs, j.array ≠ some a) ∧ ∀ k, c k = 0 := by
  have hex := h.balanced.exact (some a) c hc
  have hnil : t.elements (some a) = [] := by
    refine eq_nil_of_length_eq_zero ?_
    have hlen := hex.1
    omega
  constructor
  · intro j hj ha
    have hmem : j ∈ t.elements (some a) := mem_filter.mpr ⟨hj, by simp [ha]⟩
    rw [hnil] at hmem
    cases hmem
  · intro k
    by_cases hk : k = njobs
    · rw [hk, hex.1, hnil]
      rfl
    · rw [hex.2 k hk, hnil]
      rfl

theorem Tree.Kept.removeJob (h : t.Kept) (n : Nat) : (Jgrp.removeJob n t).Kept := by
  unfold Jgrp.removeJob
  split
  · exact h
  · next j hj =>
      have hout := h.countOut hj
      dsimp only
      generalize updJgrpCountByJStatus j.array j.jStatus jobStatNull
        { t with jobs := t.jobs.eraseIdx n } = t' at hout ⊢
      split
      · exact hout
      · next a _ =>
          split
          · exact hout
          · next c hc =>
              split
              · next h0 =>
                  -- The last element is gone, so the root loses nothing with the array.
                  obtain ⟨hnone, hzero⟩ := hout.unused hc h0
                  have hroot : (updJgrpCountByOp c (-1)
                      { t' with arrays := Function.update t'.arrays a none }).root = t'.root := by
                    funext k
                    simp [updJgrpCountByOp, hzero k]
                  refine ⟨?_, hout.states, ?_⟩
                  · intro node d hd
                    cases node with
                    | none =>
                      cases hd
                      rw [hroot]
                      exact hout.balanced none t'.root rfl
                    | some b =>
                      have hb : b ≠ a := by
                        rintro rfl
                        simp [Tree.counts, updJgrpCountByOp] at hd
                      refine hout.balanced (some b) d ?_
                      simpa [Tree.counts, updJgrpCountByOp, hb] using hd
                  · intro x hx b hb
                    have hba : b ≠ a := by
                      rintro rfl
                      exact hnone x hx hb
                    simpa [updJgrpCountByOp, hba] using hout.live x hx b hb
              · exact hout

/-! ## Runs -/

theorem Tree.Kept.step {op : Op} (hcare : op.Careful t) (h : t.Kept) :
    (Jgrp.step t op).Kept := by
  cases op with
  | newJob jobId hold => exact h.newJob hcare
  | newArray a ids hold => exact h.newArray a ids hold
  | jStatusChange n newStatus replay logIt => exact h.jStatusChange hcare.1 hcare.2
  | handleRequeueJob n => exact h.handleRequeueJob n
  | arrayRequeue req target => exact h.arrayRequeue hcare
  | sig1Flags n flags =>
    unfold Jgrp.step
    dsimp only
    split
    · exact h
    · next hj => exact h.setJob hj rfl rfl
  | flags n on off =>
    unfold Jgrp.step
    dsimp only
    split
    · exact h
    · next hj => exact h.setJob hj (stateBits_flags _ on off) rfl
  | removeJob n => exact h.removeJob n

/-- **The counters of every array and of the root are exact in every state of a careful run.** -/
theorem counters_exact (ops : List Op) (h : Run.Along step (fun t op => op.Careful t) .empty ops)
    (n : Nat) : (Run.run step .empty (ops.take n)).Exact :=
  (Run.inv_take (fun _ _ hcare hk => hk.step hcare) Tree.kept_empty h n).balanced.exact

/-- An array of two whose first element runs, exits, is requeued and removed. -/
def requeuedRun : List Op :=
  [.newArray 0 [101, 102] false, .jStatusChange 0 jobStatRun false true,
    .jStatusChange 0 jobStatExit false true,
    .arrayRequeue ⟨false, true, false, jobStatPsusp⟩ (.array 0), .removeJob 0]

theorem requeued_run_exact : Run.Along step (fun t op => op.Careful t) .empty requeuedRun ∧
    ∀ n, (Run.run step .empty (requeuedRun.take n)).Exact :=
  ⟨by decide, counters_exact requeuedRun (by decide)⟩

/-- A running element is to be requeued in hold, but exits on its own and is requeued as pending. -/
def heldRequeue : List Op :=
  [.newArray 0 [101] false, .jStatusChange 0 jobStatRun false true,
    .arrayRequeue ⟨false, false, true, jobStatPsusp⟩ (.element 0),
    .jStatusChange 0 jobStatExit false true,
    .arrayRequeue ⟨false, true, false, jobStatPend⟩ (.element 0)]

/-- The element is pending, and the array and the root count it among the suspended jobs. -/
theorem pending_counted_suspended :
    (Run.run step .empty heldRequeue).jobs = [⟨101, jobStatPend, 0, some 0⟩] ∧
    ((Run.run step .empty heldRequeue).arrays 0).map (fun c => (c 1, c 2)) = some (0, 1) ∧
    (Run.run step .empty heldRequeue).root 1 = 0 ∧
    ¬ (Run.run step .empty heldRequeue).Exact := by
  refine ⟨by decide, by decide, by decide, ?_⟩
  intro hex
  have h1 := (hex none _ rfl).2 1 (by decide)
  revert h1
  decide

end Volclava.Jgrp
