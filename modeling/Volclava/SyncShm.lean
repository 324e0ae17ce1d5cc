import Volclava.Lib.Ring
import Volclava.Lib.Run
import Volclava.Lib.Xdr

/-!
# The shared-memory segment of the query daemons

mbd publishes submitted jobs in a shared-memory segment (`mbd.syncshm.c`): a circular queue of
metadata and two circular byte buffers, one for the encoded job information and one for full job
names. Consecutive jobs with the same job-tree node share one name; `addJobToSyncShm` remembers the
node, the place and the length of the last name in static variables.

- `Shm.addJobToSyncShm`, `Shm.removeHead`: publishing at the tail and dropping at the head.
- `Shm.getShmJobName`, `Shm.chanWriteQmbdShmJobXdr`: what a reader gets for an entry.
- `Shm.registerReaderToShm`, `Shm.pruneOldJobs`, `Shm.selectQmbdShmSyncJobs`: the readers.
-/

namespace Volclava

open Xdr

/-! ## Data -/

/-- The capacities of the three circular buffers. -/
structure ShmSizes where
  jobs : Nat
  xdr : Nat
  names : Nat
  jobs_pos : 0 < jobs
  xdr_pos : 0 < xdr
  names_pos : 0 < names

/-- A node of the job tree: where it stands in memory, and its name. -/
structure JgTreeNode where
  addr : Nat
  name : List Byte
  deriving DecidableEq

/-- A job as mbd hands it over; `xdr` is what `packJobInfo` makes of it. -/
structure ShmJob where
  jobId : Nat
  userName : List Byte
  queue : Option (List Byte)
  jStatus : Nat
  submitTime : Int
  isArray : Bool
  jgrpNode : Option JgTreeNode
  xdr : Option (List Byte)
  deriving DecidableEq

/-- `fullJobName_r`. -/
def ShmJob.fullJobName (job : ShmJob) : List Byte :=
  match job.jgrpNode with
  | some node => node.name
  | none => []

/-- The name with its terminating byte. -/
def ShmJob.nameBytes (job : ShmJob) : List Byte := job.fullJobName ++ [0]

inductive BlockStatus where
  | unused | writing | used
  deriving DecidableEq

structure JobMetaData where
  jobId : Nat
  userName : List Byte
  queue : List Byte
  jStatus : Nat
  submitTime : Int
  readerPids : List Nat
  jobNameOffset : Nat
  jobNameLen : Nat
  xdrOffset : Nat
  xdrLen : Nat
  state : BlockStatus
  isArray : Bool
  nextJgrpIndex : Nat
  deriving DecidableEq

def JobMetaData.zero : JobMetaData := ⟨0, [], [], 0, 0, [], 0, 0, 0, 0, .unused, false, 0⟩

/-- A circular byte buffer. -/
structure BufferQueue where
  head : Nat
  tail : Nat
  buff : Nat → Byte

/-- A slot of `queryReaderInfo`. -/
structure ReaderInfo where
  pid : Nat
  forkTime : Int
  readStartIndex : Nat
  valid : Bool
  deriving DecidableEq

def ReaderInfo.zero : ReaderInfo := ⟨0, 0, 0, false⟩

def maxQmbdNums : Nat := 12
def maxPathLen : Nat := 4096
def maxLsfNameLen : Nat := 40

/-- A published job with the positions of its bytes, counted from the first byte ever published. -/
structure Published where
  job : ShmJob
  namePos : Nat
  xdrPos : Nat
  deriving DecidableEq

/-- The segment and the static variables of `addJobToSyncShm`. -/
structure Shm where
  head : Nat
  tail : Nat
  jobUnit : Nat → JobMetaData
  xdrBuffer : BufferQueue
  jobNameBuffer : BufferQueue
  queryReaderInfo : List ReaderInfo
  lastJgrpNode : Option Nat
  lastJobNameOffset : Option Nat
  lastJobNameLen : Nat
  lastMetaTail : Option Nat
  /-- History: the jobs published. -/
  published : List Published
  /-- History: how many of them were dropped again. -/
  dropped : Nat
  /-- History: the number of name bytes and of encoded bytes published. -/
  nameEnd : Nat
  xdrEnd : Nat
  /-- History: the name of `lastJgrpNode` when it was remembered. -/
  lastName : List Byte
  /-- History: a name was longer than the local buffer for it. -/
  overrun : Bool

namespace Shm

/-- The segment as it is created. -/
def init : Shm where
  head := 0
  tail := 0
  jobUnit := fun _ => .zero
  xdrBuffer := ⟨0, 0, fun _ => 0⟩
  jobNameBuffer := ⟨0, 0, fun _ => 0⟩
  queryReaderInfo := List.replicate maxQmbdNums .zero
  lastJgrpNode := none
  lastJobNameOffset := none
  lastJobNameLen := 0
  lastMetaTail := none
  published := []
  dropped := 0
  nameEnd := 0
  xdrEnd := 0
  lastName := []
  overrun := false

section Operations

variable (z : ShmSizes)

/-! ## Publishing -/

def getJobQueueCount (s : Shm) : Nat := (s.tail + z.jobs - s.head) % z.jobs

/-- The bytes in use in a buffer of a capacity. -/
def getBufferUsedBytes (q : BufferQueue) (capacity : Nat) : Nat :=
  (q.tail + capacity - q.head) % capacity

/-- Copies bytes behind those of a buffer, in two pieces when they reach its end. -/
def appendBytes (q : BufferQueue) (capacity : Nat) (bytes : List Byte) : BufferQueue :=
  { q with
    buff := Ring.put capacity q.buff q.tail bytes
    tail := (q.tail + bytes.length) % capacity }

/-- The job has the node of the job published last, and that one's entry is still there. -/
def reusesName (s : Shm) (job : ShmJob) : Bool :=
  match job.jgrpNode, s.lastMetaTail with
  | some node, some lastMetaTail =>
    decide (some node.addr = s.lastJgrpNode ∧ s.lastJobNameOffset ≠ none ∧
      lastMetaTail = (s.tail + z.jobs - 1) % z.jobs ∧ (s.jobUnit lastMetaTail).state = .used)
  | _, _ => false

/-- Copies the name of a job and remembers it. -/
def copyName (s : Shm) (job : ShmJob) : Shm :=
  { s with
    jobNameBuffer := appendBytes s.jobNameBuffer z.names job.nameBytes
    lastJgrpNode := job.jgrpNode.map (·.addr)
    lastJobNameOffset := if job.jgrpNode = none then none else some s.jobNameBuffer.tail
    lastJobNameLen := if job.jgrpNode = none then s.lastJobNameLen else job.nameBytes.length
    lastName := job.fullJobName
    nameEnd := s.nameEnd + job.nameBytes.length }

/-- The metadata of a job for the entry at the tail. -/
def newEntry (s : Shm) (job : ShmJob) (xdr : List Byte) (nameOffset nameLen : Nat) :
    JobMetaData where
  jobId := job.jobId
  userName := job.userName.take (maxLsfNameLen - 1)
  queue := (job.queue.getD []).take (maxLsfNameLen - 1)
  jStatus := job.jStatus
  submitTime := job.submitTime
  readerPids := (s.queryReaderInfo.filter (·.valid)).map (·.pid)
  jobNameOffset := nameOffset
  jobNameLen := nameLen
  xdrOffset := s.xdrBuffer.tail
  xdrLen := xdr.length
  state := .used
  isArray := job.isArray
  nextJgrpIndex := (s.tail + 1) % z.jobs

/-- Fills the metadata entry at the tail and copies the encoded job. -/
def storeEntry (s : Shm) (job : ShmJob) (xdr : List Byte) (nameOffset nameLen namePos : Nat)
    (parentIndex : Option Nat) : Shm :=
  let units := Function.update s.jobUnit s.tail (newEntry z s job xdr nameOffset nameLen)
  let next := (s.tail + 1) % z.jobs
  { s with
    lastMetaTail := some s.tail
    jobUnit :=
      match parentIndex with
      | some i => Function.update units i { units i with nextJgrpIndex := next }
      | none => units
    xdrBuffer := appendBytes s.xdrBuffer z.xdr xdr
    tail := next
    published := s.published ++ [⟨job, namePos, s.xdrEnd⟩]
    xdrEnd := s.xdrEnd + xdr.length }

/-- The place and the length of the last name, and the position of its first byte. -/
def lastNamePos (s : Shm) : Nat := s.nameEnd - s.lastJobNameLen

/-- Publishes one job; the index of its entry on success. `attached` is the number of processes
attached to the segment. -/
def addJobToSyncShm (s : Shm) (job : ShmJob) (parentIndex : Option Nat) (attached : Nat) :
    Option Nat × Shm :=
  if attached ≤ 1 then (none, s)
  else
    match job.xdr with
    | none => (none, s)
    | some xdr =>
      if z.jobs < getJobQueueCount z s + 1 + 1 then (none, s)
      else if z.xdr < getBufferUsedBytes s.xdrBuffer z.xdr + xdr.length + 1 then (none, s)
      else
        let s := { s with overrun := s.overrun || decide (maxPathLen ≤ job.fullJobName.length) }
        if reusesName z s job then
          (some s.tail, storeEntry z s job xdr (s.lastJobNameOffset.getD 0) s.lastJobNameLen
            s.lastNamePos parentIndex)
        else if z.names < getBufferUsedBytes s.jobNameBuffer z.names + job.nameBytes.length + 1 then
          (none, s)
        else
          (some s.tail, storeEntry z (copyName z s job) job xdr s.jobNameBuffer.tail
            job.nameBytes.length s.nameEnd parentIndex)

/-- Publishes the elements of an array one after the other. -/
def addElements (s : Shm) (parentIndex : Option Nat) (attached : Nat) : List ShmJob → Shm
  | [] => s
  | elem :: elems =>
    addElements (addJobToSyncShm z s elem parentIndex attached).2 parentIndex attached elems

/-- `qmbdShmSyncSubmitJob` for a job or for an array with its elements. -/
def qmbdShmSyncSubmitJob (s : Shm) (job : ShmJob) (elems : List ShmJob) (attached : Nat) : Shm :=
  let r := addJobToSyncShm z s job none attached
  if job.isArray then addElements z r.2 r.1 attached elems else r.2

/-- The buffer of names without the entry at the head. The name is given back unless the next entry
stands for the same place. -/
def namesAfterHead (s : Shm) : BufferQueue :=
  let entry := s.jobUnit s.head
  let next := (s.head + 1) % z.jobs
  let names := s.jobNameBuffer
  if next ≠ s.tail ∧ (s.jobUnit next).jobNameOffset = entry.jobNameOffset then names
  else { names with head := (names.head + entry.jobNameLen) % z.names }

/-- Drops the entry at the head. -/
def removeHead (s : Shm) : Shm :=
  if s.head = s.tail then s
  else
    let entry := s.jobUnit s.head
    { s with
      jobUnit := Function.update s.jobUnit s.head { entry with state := .unused }
      xdrBuffer := { s.xdrBuffer with head := (s.xdrBuffer.head + entry.xdrLen) % z.xdr }
      jobNameBuffer := namesAfterHead z s
      head := (s.head + 1) % z.jobs
      dropped := s.dropped + 1 }

/-! ## Reading -/

/-- Copies the name of an entry out of the buffer. -/
def getShmJobName (s : Shm) (entry : JobMetaData) : List Byte :=
  Ring.fetch z.names s.jobNameBuffer.buff entry.jobNameOffset entry.jobNameLen

/-- What is written for an entry: the bytes up to the end of the buffer, and the rest from its
beginning. -/
def chanWriteQmbdShmJobXdr (s : Shm) (entry : JobMetaData) : List Byte :=
  let res : Int := entry.xdrOffset + entry.xdrLen - z.xdr
  let len := if 0 < res then entry.xdrLen - res.toNat else entry.xdrLen
  (List.range len).map (fun i => s.xdrBuffer.buff (entry.xdrOffset + i)) ++
    if 0 < res then (List.range res.toNat).map s.xdrBuffer.buff else []

/-! ## Readers -/

/-- Registers a query daemon in the first free slot. -/
def registerReaderToShm (s : Shm) (pid : Nat) (forkTime : Int) : Option Nat × Shm :=
  match s.queryReaderInfo.findIdx? (fun r => !r.valid) with
  | none => (none, s)
  | some slot =>
    (some slot, { s with
      queryReaderInfo := s.queryReaderInfo.set slot ⟨pid, forkTime, s.tail, true⟩ })

/-- No registered query daemon needs the entry. -/
def isJobStale (s : Shm) (entry : JobMetaData) : Bool :=
  !entry.readerPids.any fun pid => s.queryReaderInfo.any fun r => r.valid && pid == r.pid

/-- Gives up the slots of query daemons that `kill(pid, 0)` does not reach. -/
def dropReaders (readers : List ReaderInfo) (alive : Nat → Bool) : List ReaderInfo :=
  readers.map fun r =>
    if r.valid && !alive r.pid then { r with valid := false, forkTime := 0 } else r

/-- The smallest fork time of the query daemons that are left; `0` counts as not yet set. -/
def minForkTime (readers : List ReaderInfo) : Int :=
  (readers.filter (·.valid)).foldl
    (fun earliest r => if earliest = 0 ∨ r.forkTime < earliest then r.forkTime else earliest) 0

/-- The largest fork time of the query daemons that are given up. -/
def latestExitTime (readers : List ReaderInfo) (alive : Nat → Bool) : Int :=
  (readers.filter fun r => r.valid && !alive r.pid).foldl (fun latest r => max latest r.forkTime) 0

/-- The entry at the head can go. -/
def prunable (s : Shm) (hasValid : Bool) (earliest latest : Int) : Bool :=
  let entry := s.jobUnit s.head
  (hasValid && decide (entry.submitTime < earliest)) ||
    (!hasValid && decide (entry.submitTime < latest)) || isJobStale s entry

/-- Drops entries from the head on while they can go; there are at most as many as slots. -/
def pruneLoop (hasValid : Bool) (earliest latest : Int) : Nat → Shm → Shm
  | 0, s => s
  | fuel + 1, s =>
    if s.head ≠ s.tail ∧ prunable s hasValid earliest latest then
      pruneLoop hasValid earliest latest fuel (removeHead z s)
    else s

def pruneOldJobs (s : Shm) (alive : Nat → Bool) : Shm :=
  let readers := dropReaders s.queryReaderInfo alive
  let hasValid := readers.any (·.valid)
  pruneLoop z hasValid (if hasValid then minForkTime readers else 0)
    (latestExitTime s.queryReaderInfo alive) z.jobs { s with queryReaderInfo := readers }

/-- The slot a query daemon takes for its own: the last one with its process id. -/
def readerIndex (readers : List ReaderInfo) (pid : Nat) : Option Nat :=
  (List.range readers.length).foldl
    (fun found i => if (readers[i]?).any (·.pid == pid) then some i else found) none

/-- The static variable `currentReaderIndex` of a query daemon: looked up until it is found. -/
def findReader (s : Shm) (pid : Nat) (currentReaderIndex : Option Nat) : Option Nat :=
  match currentReaderIndex with
  | some i => some i
  | none => readerIndex s.queryReaderInfo pid

/-- The loop of `selectQmbdShmSyncJobs`: the slots from an index on up to the tail that are in use,
not arrays, and match. With `lastJob` only the last of them is kept. -/
def selectLoop (s : Shm) (matching : JobMetaData → Bool) (lastJob : Bool) :
    Nat → Nat → List Nat → List Nat
  | 0, _, joblist => joblist
  | fuel + 1, index, joblist =>
    if index = s.tail then joblist
    else
      let entry := s.jobUnit index
      let next := (index + 1) % z.jobs
      if entry.state ≠ .used ∨ entry.isArray = true then
        selectLoop s matching lastJob fuel next joblist
      else if matching entry then
        selectLoop s matching lastJob fuel next (if lastJob then [index] else joblist ++ [index])
      else selectLoop s matching lastJob fuel next joblist

/-- The slots a query daemon selects; `none` when it has no slot of its own to start from. -/
def selectQmbdShmSyncJobs (s : Shm) (pid : Nat) (currentReaderIndex : Option Nat)
    (matching : JobMetaData → Bool) (lastJob : Bool) : Option (List Nat) :=
  match findReader s pid currentReaderIndex with
  | none => none
  | some i =>
    (s.queryReaderInfo[i]?).map fun r =>
      selectLoop z s matching lastJob (z.jobs - 1) r.readStartIndex []

end Operations

end Shm

end Volclava
