import Volclava.Lib.Loop

/-!
# Giving slots to a job

What `dispatchAJob` (`mbd.policy.c`) does with the candidate hosts of a job: `getNumSlots` cuts
the slots of each host to the job's limits, `getNumProcs` chooses how many slots of which host
the job gets, and `allocHosts` writes the choice out, one host per slot.

`getNumProcs` has two branches. The plain one goes through the candidate array in order. The
backfill one, for a job that may borrow slots reserved by others (its backfillees), goes first
through the backfillees, sorted by how well the job fits before their start, then through what
is left on their hosts, then through the other hosts. Both go on with slots that are only
reserved when the slots at hand do not reach `numProcessors`. At the end `doBackfill` frees the
borrowed slots from the backfillees or, if the job did not get its `numProcessors`, gives them
back.

The reservations of the backfillees are the other jobs' state and do not appear here.
-/

namespace Volclava

open Loop

/-! ## The job and its candidates -/

/-- A host, with what is read of it here. -/
structure HData where
  host : String
  maxJobs : Int
  numRESERVE : Int
  deriving DecidableEq, Inhabited, Repr

/-- Slots of a candidate host that a pending job has reserved and that may be borrowed. -/
structure Backfillee where
  backfilleePtr : Nat
  predictedStartTime : Int
  indexInCandHostList : Nat
  backfillSlots : Int
  deriving DecidableEq, Repr

/-- A candidate host; `backfilleeList` is empty where the source has none. -/
structure CandHost where
  hData : HData
  numSlots : Int
  numAvailSlots : Int
  numNonBackfillSlots : Int
  numAvailNonBackfillSlots : Int
  backfilleeList : List Backfillee
  deriving DecidableEq, Inhabited, Repr

/-- The job to dispatch. `numSlots` and `numAvailSlots` are what the limits of the queue, the
user and the user's groups leave, with and without slots that have to be waited for. -/
structure AllocJob where
  numProcessors : Int
  maxNumProcessors : Int
  numSlots : Int
  numAvailSlots : Int
  /-- `JOB_CAN_BACKFILL` -/
  canBackfill : Bool
  /-- `HAS_HOST_PREFERNECE` -/
  hasHostPreference : Bool
  allInOne : Bool
  needHandleFirstHost : Bool
  /-- When the job would finish on the host: `now + RUN_LIMIT_OF_JOB / cpuFactor`. -/
  finishTimeOn : HData → Int
  candPtr : List CandHost
  /-- What lies in memory behind the candidate array. -/
  beyond : CandHost

/-- `candPtr[i]` -/
def AllocJob.candHost (jp : AllocJob) (i : Nat) : CandHost := jp.candPtr.getD i jp.beyond

/-! ## `getNumSlots` -/

/-- The slots of a host cut to the limits of the job. -/
def AllocJob.capSlots (jp : AllocJob) (c : CandHost) : CandHost :=
  let numSlots := min c.numSlots jp.numSlots
  { c with
    numSlots := numSlots
    numAvailSlots := min (min c.numAvailSlots numSlots) jp.numAvailSlots }

/-- The candidates gone through so far, and the slots counted on them. -/
structure SlotCount where
  candPtr : List CandHost
  numSlots : Int
  numAvailSlots : Int

/-- A round of `getNumSlots`, with the host `c` cut to the limits. For a job that has to run on
one host, the chosen host is moved to the front (`moveHostPos`) and only its slots count. -/
def AllocJob.countSlots (jp : AllocJob) (s : SlotCount) (c : CandHost) : SlotCount :=
  if jp.allInOne && !jp.needHandleFirstHost then
    if s.numSlots = 0 ∧ c.numSlots > 0 ∨
        s.numSlots ≠ 0 ∧ s.numSlots < jp.numProcessors ∧ c.numSlots ≥ jp.numProcessors then
      ⟨c :: s.candPtr, c.numSlots, c.numAvailSlots⟩
    else { s with candPtr := s.candPtr ++ [c] }
  else
    ⟨s.candPtr ++ [c], s.numSlots + c.numSlots, s.numAvailSlots + c.numAvailSlots⟩

/-- `getNumSlots` -/
def AllocJob.getNumSlots (jp : AllocJob) : AllocJob :=
  let s := (jp.candPtr.map jp.capSlots).foldl jp.countSlots ⟨[], 0, 0⟩
  { jp with
    candPtr := s.candPtr
    numSlots := min jp.numSlots s.numSlots
    numAvailSlots := min jp.numAvailSlots s.numAvailSlots }

/-! ## The backfillees in order -/

/-- `jobHasBackfillee` -/
def AllocJob.jobHasBackfillee (jp : AllocJob) : Bool :=
  jp.candPtr.any fun c => !c.backfilleeList.isEmpty

/-- The time between the end of the job on the backfillee's host and the backfillee's start. -/
def AllocJob.diff (jp : AllocJob) (b : Backfillee) : Int :=
  b.predictedStartTime - jp.finishTimeOn (jp.candHost b.indexInCandHostList).hData

/-- `insertIntoSortedBackfilleeList` -/
def AllocJob.insertIntoSortedBackfilleeList (jp : AllocJob) (item : Backfillee) :
    List Backfillee → List Backfillee
  | [] => [item]
  | entry :: l =>
    if jp.diff item < jp.diff entry then item :: entry :: l
    else entry :: jp.insertIntoSortedBackfilleeList item l

/-- `sortBackfillee` -/
def AllocJob.sortBackfillee (jp : AllocJob) : List Backfillee :=
  (jp.candPtr.zipIdx.flatMap fun ci =>
      ci.1.backfilleeList.map ({ · with indexInCandHostList := ci.2 })).foldl
    (fun l b => jp.insertIntoSortedBackfilleeList b l) []

/-! ## The backfill branch -/

/-- A candidate host chosen in the backfill branch. -/
structure BackfillCand where
  indexInCandHostList : Nat
  numSlots : Int
  numAvailSlots : Int
  backfilleeList : List Backfillee
  deriving DecidableEq, Repr

/-- The chosen hosts with the number of slots given so far: `numAvailEligProc` in the loops over
slots at hand, `numEligProc` in those over slots to be reserved. -/
structure Filling where
  total : Int
  backfillCandPtr : List BackfillCand

/-- The backfillee as it is kept with its host, unless nothing was borrowed from it. -/
def Backfillee.taken (b : Backfillee) (slotsToUse : Int) : List Backfillee :=
  if slotsToUse ≠ 0 then [{ b with backfillSlots := slotsToUse }] else []

/-- Enter slots borrowed from `b` at its host; also returns how many they are. -/
def enterBackfillee (b : Backfillee) (maxSlots slotsToUse : Int) :
    List BackfillCand → Int × List BackfillCand
  | [] => (slotsToUse, [⟨b.indexInCandHostList, slotsToUse, slotsToUse, b.taken slotsToUse⟩])
  | bc :: bcs =>
    if b.indexInCandHostList = bc.indexInCandHostList then
      let used := min slotsToUse (maxSlots - bc.numAvailSlots)
      (used,
        { bc with
          numSlots := bc.numAvailSlots + used
          numAvailSlots := bc.numAvailSlots + used
          backfilleeList := bc.backfilleeList ++ b.taken used } :: bcs)
    else
      let r := enterBackfillee b maxSlots slotsToUse bcs
      (r.1, bc :: r.2)

/-- First loop: slots of the backfillee `b`. -/
def AllocJob.takeBackfillee (jp : AllocJob) (f : Filling) (b : Backfillee) : Filling :=
  let backfillSlots := min b.backfillSlots (jp.maxNumProcessors - f.total)
  let maxSlots := (jp.candHost b.indexInCandHostList).numAvailSlots
  let r := enterBackfillee b maxSlots (min maxSlots backfillSlots) f.backfillCandPtr
  ⟨f.total + r.1, r.2⟩

/-- Second loop: the slots left at hand on a host of a backfillee. -/
def AllocJob.takeRest (jp : AllocJob) (n : Int) (bc : BackfillCand) : Int × BackfillCand :=
  let nAvailSlots :=
    min ((jp.candHost bc.indexInCandHostList).numAvailSlots - bc.numAvailSlots)
      (jp.maxNumProcessors - n)
  if nAvailSlots = 0 then (n, bc)
  else
    (n + nAvailSlots,
      { bc with
        numSlots := bc.numAvailSlots + nAvailSlots
        numAvailSlots := bc.numAvailSlots + nAvailSlots })

/-- `candHostInBackfillCandList` -/
def candHostInBackfillCandList (bcs : List BackfillCand) (candHostIndex : Nat) : Bool :=
  bcs.any (·.indexInCandHostList = candHostIndex)

/-- Third loop: the slots at hand on a host without backfillees. -/
def AllocJob.takeOther (jp : AllocJob) (f : Filling) (ci : CandHost × Nat) : Filling :=
  if candHostInBackfillCandList f.backfillCandPtr ci.2 then f
  else if ci.1.numAvailSlots = 0 then f
  else
    let nAvailSlots := min ci.1.numAvailSlots (jp.maxNumProcessors - f.total)
    ⟨f.total + nAvailSlots, f.backfillCandPtr ++ [⟨ci.2, nAvailSlots, nAvailSlots, []⟩]⟩

/-- Fourth loop: slots to be reserved on a host already chosen. -/
def AllocJob.reserveRest (jp : AllocJob) (n : Int) (bc : BackfillCand) : Int × BackfillCand :=
  let nSlots :=
    min ((jp.candHost bc.indexInCandHostList).numSlots - bc.numSlots) (jp.maxNumProcessors - n)
  if nSlots = 0 then (n, bc) else (n + nSlots, { bc with numSlots := bc.numSlots + nSlots })

/-- Fifth loop: slots to be reserved on another host. -/
def AllocJob.reserveOther (jp : AllocJob) (f : Filling) (ci : CandHost × Nat) : Filling :=
  if candHostInBackfillCandList f.backfillCandPtr ci.2 then f
  else if ci.1.numSlots = 0 then f
  else
    let nSlots := min ci.1.numSlots (jp.maxNumProcessors - f.total)
    ⟨f.total + nSlots,
      f.backfillCandPtr ++ [⟨ci.2, nSlots, min ci.1.numAvailSlots nSlots, []⟩]⟩

/-- The guard of the loops over slots at hand. -/
abbrev AllocJob.Wants (jp : AllocJob) {σ : Type} (total : σ → Int) (s : σ) : Prop :=
  Below jp.numAvailSlots jp.maxNumProcessors total s

/-- The guard of the loops over slots to be reserved. -/
abbrev AllocJob.Reserves (jp : AllocJob) {σ : Type} (total : σ → Int) (s : σ) : Prop :=
  Below jp.numSlots jp.numProcessors total s

def AllocJob.fillBackfillees (jp : AllocJob) : Filling :=
  loop (jp.Wants Filling.total) jp.takeBackfillee ⟨0, []⟩ jp.sortBackfillee

def AllocJob.fillRest (jp : AllocJob) (f : Filling) : Filling :=
  let r := update (jp.Wants id) jp.takeRest f.total f.backfillCandPtr
  ⟨r.1, r.2⟩

def AllocJob.fillOthers (jp : AllocJob) (f : Filling) : Filling :=
  loop (jp.Wants Filling.total) jp.takeOther f jp.candPtr.zipIdx

/-- The loops over slots at hand. -/
def AllocJob.fillAvail (jp : AllocJob) : Filling :=
  jp.fillOthers (jp.fillRest jp.fillBackfillees)

/-- The loops over slots to be reserved. -/
def AllocJob.fillReserve (jp : AllocJob) (f : Filling) : Filling :=
  if f.total < jp.numProcessors then
    let r := update (jp.Reserves id) jp.reserveRest f.total f.backfillCandPtr
    loop (jp.Reserves Filling.total) jp.reserveOther ⟨r.1, r.2⟩ jp.candPtr.zipIdx
  else f

/-- An entry of `execCandPtr`. -/
structure ExecCand where
  hData : Option HData
  numSlots : Int
  numAvailSlots : Int
  backfilleeList : List Backfillee
  deriving DecidableEq, Repr

/-- What `getNumProcs` leaves in the job. -/
structure Procs where
  numEligProc : Int
  numAvailEligProc : Int
  execCandPtr : List ExecCand
  deriving DecidableEq, Repr

def AllocJob.toExec (jp : AllocJob) (bc : BackfillCand) : ExecCand :=
  ⟨some (jp.candHost bc.indexInCandHostList).hData, bc.numSlots, bc.numAvailSlots,
    bc.backfilleeList⟩

def AllocJob.backfillProcs (jp : AllocJob) : Procs :=
  let f := jp.fillReserve jp.fillAvail
  ⟨f.total, jp.fillAvail.total, f.backfillCandPtr.map jp.toExec⟩

/-! ## The plain branch -/

/-- The entries of `execCandPtr` set so far, with the number of slots given. -/
structure ExecFilling where
  total : Int
  execCandPtr : List ExecCand

/-- First loop: the slots at hand on a host. -/
def AllocJob.takeAvail (jp : AllocJob) (f : ExecFilling) (c : CandHost) : ExecFilling :=
  let nAvailSlots :=
    min (min c.numAvailSlots (jp.maxNumProcessors - f.total)) (jp.numAvailSlots - f.total)
  ⟨f.total + nAvailSlots, f.execCandPtr ++ [⟨some c.hData, nAvailSlots, nAvailSlots, []⟩]⟩

/-- Second loop: slots to be reserved on a host already chosen. -/
def AllocJob.reserveMore (jp : AllocJob) (n : Int) (ce : CandHost × ExecCand) :
    Int × (CandHost × ExecCand) :=
  if ce.1.hData.maxJobs ≤ ce.1.hData.numRESERVE then (n, ce)
  else
    let nSlots := min (ce.1.numSlots - ce.2.numAvailSlots) (jp.numProcessors - n)
    (n + nSlots, ce.1, { ce.2 with numSlots := ce.2.numSlots + nSlots })

/-- Third loop: slots to be reserved on a further host. A host that is passed over leaves its
entry as it was set up. -/
def AllocJob.reserveCand (jp : AllocJob) (f : ExecFilling) (c : CandHost) : ExecFilling :=
  if c.hData.maxJobs ≤ c.hData.numRESERVE then
    { f with execCandPtr := f.execCandPtr ++ [⟨none, 0, 0, []⟩] }
  else
    let nSlots := min c.numSlots (jp.numProcessors - f.total)
    ⟨f.total + nSlots,
      f.execCandPtr ++ [⟨some c.hData, nSlots, min c.numAvailSlots nSlots, []⟩]⟩

def AllocJob.plainAvail (jp : AllocJob) : ExecFilling :=
  loop (jp.Wants ExecFilling.total) jp.takeAvail ⟨0, []⟩ jp.candPtr

def AllocJob.plainReserve (jp : AllocJob) (f : ExecFilling) : ExecFilling :=
  if f.total < jp.numProcessors then
    let r := update (jp.Reserves id) jp.reserveMore f.total (jp.candPtr.zip f.execCandPtr)
    loop (jp.Reserves ExecFilling.total) jp.reserveCand ⟨r.1, r.2.map Prod.snd⟩
      (jp.candPtr.drop f.execCandPtr.length)
  else f

def AllocJob.plainProcs (jp : AllocJob) : Procs :=
  let f := jp.plainReserve jp.plainAvail
  ⟨f.total, jp.plainAvail.total, f.execCandPtr⟩

/-! ## Freeing or giving back borrowed slots -/

/-- The backfillees of candidate `i` as far as they fill its `avail` slots, `nSlots` of which
are filled. -/
def backfillSlotsOn (i : Nat) (avail : Int) : Int → List Backfillee → List Backfillee
  | _, [] => []
  | nSlots, b :: bs =>
    let backfillSlots := min (avail - nSlots) b.backfillSlots
    { b with backfillSlots := backfillSlots, indexInCandHostList := i } ::
      if nSlots + backfillSlots = avail then []
      else backfillSlotsOn i avail (nSlots + backfillSlots) bs

/-- `getBackfillSlotsOnExecCandHost` -/
def AllocJob.getBackfillSlotsOnExecCandHost (jp : AllocJob) (p : Procs) : Procs :=
  { p with
    execCandPtr := p.execCandPtr.zipIdx.map fun ei =>
      { ei.1 with
        backfilleeList := ei.1.backfilleeList ++
          backfillSlotsOn ei.2 ei.1.numAvailSlots 0 (jp.candHost ei.2).backfilleeList } }

/-- The candidate with the host of an entry. An entry without a host has none, and the source
then reads behind the array. -/
def AllocJob.candOf (jp : AllocJob) (e : ExecCand) : CandHost :=
  (jp.candPtr.find? fun c => e.hData = some c.hData).getD jp.beyond

/-- An entry, with the slots taken from it so far. -/
structure Removal where
  entry : ExecCand
  totalSlots : Int
  totalAvailSlots : Int

/-- Give back slots borrowed from `b`. -/
def Removal.giveBack (c : CandHost) (r : Removal) (b : Backfillee) : Removal :=
  let numNonBackfillSlotsUsed := r.entry.numSlots - b.backfillSlots
  let numAvailNonBackfillSlotsUsed := r.entry.numAvailSlots - b.backfillSlots
  let numNonBackfillSlotsUnused := c.numNonBackfillSlots - numNonBackfillSlotsUsed
  let numAvailNonBackfillSlotsUnused := c.numAvailNonBackfillSlots - numAvailNonBackfillSlotsUsed
  let numSlotsToRemove := max 0 (b.backfillSlots - numNonBackfillSlotsUnused)
  let numAvailSlotsToRemove := max 0 (b.backfillSlots - numAvailNonBackfillSlotsUnused)
  { entry :=
      { r.entry with
        numSlots := r.entry.numSlots - numSlotsToRemove
        numAvailSlots := r.entry.numAvailSlots - numAvailSlotsToRemove }
    totalSlots := r.totalSlots + numSlotsToRemove
    totalAvailSlots := r.totalAvailSlots + numAvailSlotsToRemove }

def AllocJob.removal (jp : AllocJob) (e : ExecCand) : Removal :=
  e.backfilleeList.foldl (Removal.giveBack (jp.candOf e)) ⟨e, 0, 0⟩

/-- `removeBackfillSlotsFromBackfiller` -/
def AllocJob.removeBackfillSlotsFromBackfiller (jp : AllocJob) (p : Procs) : Procs :=
  let rs := p.execCandPtr.map jp.removal
  { numEligProc := p.numEligProc - (rs.map Removal.totalSlots).sum
    numAvailEligProc := p.numAvailEligProc - (rs.map Removal.totalAvailSlots).sum
    execCandPtr := rs.map Removal.entry }

/-- `doBackfill`; `freeBackfillSlotsFromBackfillee` changes the backfillees only. -/
def AllocJob.doBackfill (jp : AllocJob) (p : Procs) : Procs :=
  if p.numEligProc ≥ jp.numProcessors then p else jp.removeBackfillSlotsFromBackfiller p

/-! ## `getNumProcs` and `allocHosts` -/

/-- Whether the backfill branch is taken. -/
def AllocJob.backfills (jp : AllocJob) : Bool :=
  jp.canBackfill && !jp.hasHostPreference && jp.jobHasBackfillee && !jp.allInOne

/-- `getNumProcs` -/
def AllocJob.getNumProcs (jp : AllocJob) : Procs :=
  if jp.backfills then jp.doBackfill jp.backfillProcs
  else if jp.canBackfill && jp.jobHasBackfillee then
    jp.doBackfill (jp.getBackfillSlotsOnExecCandHost jp.plainProcs)
  else jp.plainProcs

/-- `allocHosts`: one host per slot, if the job got any. -/
def Procs.allocHosts (p : Procs) : Option (List (Option HData)) :=
  if p.numEligProc ≤ 0 then none
  else some (p.execCandPtr.flatMap fun e => List.replicate e.numSlots.toNat e.hData)

end Volclava
