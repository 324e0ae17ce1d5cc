import Mathlib
import Volclava.SubmitXdr

/-!
# The room for a job record

`packJobInfo` allocates a buffer for a job record from the estimate of `jobInfoReplyXdrBufLen` and
1024 bytes more, and encodes the record into it with `xdr_jobInfoReply`. The model keeps the lengths
of the strings and of the arrays, and compares the two sums. The sizes of the structures are those
of a 64-bit machine; the estimate is added up in an `int`.

- `jobInfoReplyXdrBufLen`, `JobInfoReply.encodedLen`: the estimate and the bytes written.
- `JobInfoReply.Fits`, `JobInfoReply.Covered`: the record fits; what it has to keep to for that.
-/

namespace Volclava

namespace JobInfo

open SubmitXdr (maxHostNameLen maxLsfNameLen maxFileNameLen lsfRlimNlimits xFileSize)

/-! ## The record -/

def numJgrpCounters : Nat := 8
def sizeofJobInfoReply : Nat := 328
def sizeofSubmitReq : Nat := 352
def sizeofJRusage : Nat := 48
def sizeofPidInfo : Nat := 16

/-- The lengths of the strings of a `submitReq`, and of the two names of each of its files. -/
structure SubmitReq where
  (queue resReq fromHost dependCond jobName command jobFile inFile outFile : Nat)
  (errFile preExecCmd postExecCmd hostSpec chkpntDir subHomeDir cwd : Nat)
  (mailUser projectName loginShell schedHostType inFileSpool commandSpool jobDesc : Nat)
  askedHosts : List Nat
  xf : List (Nat × Nat)

/-- The lengths of the strings and arrays of a `jobInfoReply`. -/
structure JobInfoReply where
  (parentGroup jName userName execHome execCwd execUsername : Nat)
  (chargedSAAP mergedResReq effeResReq : Nat)
  (nIdx numReasons npids npgids : Nat)
  toHosts : List Nat
  jobBill : SubmitReq

/-! ## The bytes written -/

/-- The bytes of a string: its length, then its characters in whole words. -/
def strLen (n : Nat) : Nat := 4 + (n + 3) / 4 * 4

/-- What the encoders write: words, strings with a limit, strings without. -/
inductive Item where
  | words (k : Nat)
  | string (len max : Nat)
  | varString (len : Nat)

def Item.size : Item → Nat
  | words k => 4 * k
  | string len _ => strLen len
  | varString len => strLen len

/-- `xdr_string` refuses a string that is longer than its limit. -/
def Item.accepted : Item → Bool
  | string len max => len ≤ max
  | _ => true

def fileName (len : Nat) : Item := .string len maxFileNameLen
def hostName (len : Nat) : Item := .string len maxHostNameLen

/-- An element of the files, behind the word `xdr_arrayElement` puts before it. -/
def xdrXFile (f : Nat × Nat) : List Item := [.words 1, fileName f.1, fileName f.2, .words 1]

def xdrSubmitReq (b : SubmitReq) : List Item := List.flatten [
  [.words 1, .varString b.queue, .varString b.resReq, .words 1, hostName b.fromHost,
    .varString b.dependCond, .varString b.jobName, .varString b.command, fileName b.jobFile,
    fileName b.inFile, fileName b.outFile, fileName b.errFile, .varString b.preExecCmd,
    .varString b.postExecCmd, hostName b.hostSpec, .words 1],
  b.askedHosts.map .varString,
  [.words (1 + lsfRlimNlimits), .words 7, fileName b.chkpntDir, fileName b.subHomeDir,
    fileName b.cwd, .words 1],
  b.xf.flatMap xdrXFile,
  [.varString b.mailUser, .varString b.projectName, .words 2, .varString b.loginShell,
    .varString b.schedHostType, .words 1, fileName b.inFileSpool, fileName b.commandSpool, .words 1,
    .varString b.jobDesc]]

/-- The processes and the process groups are array elements: each has a word before it. -/
def xdrJRusage (r : JobInfoReply) : List Item := List.flatten [
  [.words 5], List.replicate r.npids (.words 5), [.words 1], List.replicate r.npgids (.words 2)]

def xdrJobInfoReply (r : JobInfoReply) : List Item := List.flatten [
  [.words 1, .varString r.parentGroup, .varString r.jName, .words numJgrpCounters, .words 11,
    .string r.userName maxLsfNameLen, .words (2 * r.nIdx), .words r.numReasons],
  r.toHosts.map hostName, [.words 1], xdrSubmitReq r.jobBill,
  [.words 2, .varString r.execHome, .varString r.execCwd, .varString r.execUsername, .words 3],
  xdrJRusage r,
  [.words 4, .varString r.chargedSAAP, .varString r.mergedResReq, .varString r.effeResReq,
    .words 2]]

/-- The bytes of a list of items. -/
def size (items : List Item) : Nat := (items.map Item.size).sum

/-- The bytes `xdr_encodeMsg` writes, the header first; `none` if a string is refused. -/
def JobInfoReply.encodedLen (r : JobInfoReply) : Option Nat :=
  if (xdrJobInfoReply r).all Item.accepted then some (16 + size (xdrJobInfoReply r)) else none

/-! ## The estimate -/

/-- `ALIGNWORD_`. -/
def alignWord (s : Nat) : Nat := s / 4 * 4 + 4

/-- What is added up. -/
def JobInfoReply.estimate (r : JobInfoReply) : Nat :=
  sizeofJobInfoReply + r.numReasons * 4 + r.toHosts.length * alignWord maxHostNameLen +
  2 * r.nIdx * 4 + alignWord maxLsfNameLen + alignWord (r.execUsername + 1) +
  alignWord (r.execHome + 1) + alignWord (r.execCwd + 1) + alignWord (r.parentGroup + 1) +
  alignWord (r.jName + 1) + sizeofJRusage + r.npgids * 4 + r.npids * (4 + sizeofPidInfo) +
  sizeofSubmitReq + alignWord (r.jobBill.jobName + 1) + alignWord (r.jobBill.queue + 1) +
  (r.jobBill.askedHosts.map fun len => alignWord (len + 1)).sum +
  alignWord (r.jobBill.resReq + 1) + alignWord maxHostNameLen +
  alignWord (r.jobBill.dependCond + 1) + 4 * alignWord maxFileNameLen +
  alignWord (r.jobBill.command + 1) + alignWord maxFileNameLen + r.jobBill.xf.length * xFileSize +
  alignWord maxFileNameLen + alignWord maxHostNameLen + alignWord maxFileNameLen +
  alignWord (r.jobBill.preExecCmd + 1) + alignWord (r.jobBill.postExecCmd + 1) +
  alignWord (r.jobBill.mailUser + 1) + alignWord (r.jobBill.projectName + 1) +
  alignWord (r.jobBill.loginShell + 1) + alignWord (r.jobBill.schedHostType + 1) +
  alignWord (r.jobBill.jobDesc + 1) + alignWord (r.mergedResReq + 1) + alignWord (r.effeResReq + 1)

/-- Each sum is stored in an `int`, so the result is the whole sum cut to one. -/
def jobInfoReplyXdrBufLen (r : JobInfoReply) : Int32 := .ofNat r.estimate

/-- The record fits the buffer of `packJobInfo`. -/
def JobInfoReply.Fits (r : JobInfoReply) : Prop :=
  ∀ bytes : Nat, r.encodedLen = some bytes → bytes ≤ (jobInfoReplyXdrBufLen r + 1024).toInt

/-! ## What the estimate leaves out -/

/-- The strings whose own length is counted. -/
def JobInfoReply.counted (r : JobInfoReply) : List Nat :=
  [r.execUsername, r.execHome, r.execCwd, r.parentGroup, r.jName, r.jobBill.jobName,
    r.jobBill.queue, r.jobBill.resReq, r.jobBill.dependCond, r.jobBill.command,
    r.jobBill.preExecCmd, r.jobBill.postExecCmd, r.jobBill.mailUser, r.jobBill.projectName,
    r.jobBill.loginShell, r.jobBill.schedHostType, r.jobBill.jobDesc, r.mergedResReq,
    r.effeResReq] ++ r.jobBill.askedHosts

/-- The host names, with a fixed room for each. -/
def JobInfoReply.hosts (r : JobInfoReply) : List Nat :=
  [r.jobBill.fromHost, r.jobBill.hostSpec] ++ r.toHosts

/-- The file names: nine of the job, for seven of which there is room, and two of a transfer. -/
def JobInfoReply.files (r : JobInfoReply) : List Nat :=
  [r.jobBill.jobFile, r.jobBill.inFile, r.jobBill.outFile, r.jobBill.errFile, r.jobBill.chkpntDir,
    r.jobBill.subHomeDir, r.jobBill.cwd, r.jobBill.inFileSpool, r.jobBill.commandSpool] ++
  r.jobBill.xf.flatMap fun f => [f.1, f.2]

/-- The strings with a limit keep to it. -/
def JobInfoReply.WithinLimits (r : JobInfoReply) : Prop :=
  r.userName ≤ maxLsfNameLen ∧ (∀ len ∈ r.hosts, len ≤ maxHostNameLen) ∧
    ∀ len ∈ r.files, len ≤ maxFileNameLen

/-- What is counted too little (the account's path, a word for each process group and for each
string of such a length), and the names. -/
def JobInfoReply.uncounted (r : JobInfoReply) : Nat :=
  strLen r.chargedSAAP + 4 * r.npgids +
    4 * r.counted.countP (fun len => len % 4 = 1 ∨ len % 4 = 2) +
    ((r.userName :: r.hosts ++ r.files).map strLen).sum

/-- How often the `int` runs over; not at all while the sum is below 2^31. -/
def JobInfoReply.overflows (r : JobInfoReply) : Nat := (r.estimate + 1024 + 2 ^ 31) / 2 ^ 32

/-- They take no more than the room for the names, from which every overflow takes 2^32 bytes. -/
def JobInfoReply.Covered (r : JobInfoReply) : Prop :=
  r.uncounted + 2 ^ 32 * r.overflows ≤
    30356 + 68 * r.toHosts.length + 8188 * r.jobBill.xf.length

theorem accepted_iff (r : JobInfoReply) :
    (xdrJobInfoReply r).all Item.accepted = true ↔ r.WithinLimits := by
  simp [xdrJobInfoReply, xdrSubmitReq, xdrJRusage, xdrXFile, Item.accepted, fileName, hostName,
    JobInfoReply.WithinLimits, JobInfoReply.hosts, JobInfoReply.files, or_imp, forall_and]
  grind

theorem strLen_eq (n : Nat) :
    strLen n = alignWord (n + 1) + if n % 4 = 1 ∨ n % 4 = 2 then 4 else 0 := by
  simp only [strLen, alignWord]
  split <;> omega

theorem sum_strLen (lens : List Nat) :
    (lens.map strLen).sum = (lens.map fun len => alignWord (len + 1)).sum +
      4 * lens.countP (fun len => len % 4 = 1 ∨ len % 4 = 2) := by
  induction lens with
  | nil => rfl
  | cons len lens ih =>
    simp only [List.map_cons, List.sum_cons, List.countP_cons, ih, strLen_eq len, decide_eq_true_eq]
    split <;> omega

theorem size_flatten (ls : List (List Item)) : size ls.flatten = (ls.map size).sum := by
  simp only [size, List.map_flatten, List.sum_flatten, List.map_map]
  rfl

theorem size_cons (it : Item) (l : List Item) : size (it :: l) = it.size + size l := by
  simp [size]

theorem size_names (name : Nat → Item) (h : ∀ len, (name len).size = strLen len)
    (lens : List Nat) : size (lens.map name) = (lens.map strLen).sum := by
  simp [size, h, Function.comp_def]

theorem size_replicate (n k : Nat) : size (List.replicate n (.words k)) = n * (4 * k) := by
  simp [size, Item.size]

theorem size_files (xf : List (Nat × Nat)) : size (xf.flatMap xdrXFile) =
    ((xf.flatMap fun f => [f.1, f.2]).map strLen).sum + 8 * xf.length := by
  induction xf with
  | nil => rfl
  | cons f xf ih =>
    simp [xdrXFile, fileName, Item.size, size_cons, ih]
    omega

/-- The bytes written and the estimate differ by what the estimate leaves out. -/
theorem size_add (r : JobInfoReply) : 16 + size (xdrJobInfoReply r) +
    (30356 + 68 * r.toHosts.length + 8188 * r.jobBill.xf.length) =
      r.estimate + 1024 + r.uncounted := by
  have hcounted := sum_strLen r.counted
  rw [JobInfoReply.uncounted]
  generalize r.counted.countP _ = short at hcounted ⊢
  simp only [JobInfoReply.counted, List.map_append, List.map_cons, List.map_nil, List.sum_append,
    List.sum_cons, List.sum_nil] at hcounted
  simp only [xdrJobInfoReply, xdrSubmitReq, xdrJRusage, JobInfoReply.hosts, JobInfoReply.files,
    size_flatten, size_cons, show size [] = 0 from rfl, size_names hostName fun _ => rfl,
    size_names .varString fun _ => rfl, size_replicate, size_files, Item.size, fileName, hostName,
    List.map_append, List.map_cons, List.map_nil, List.sum_append, List.sum_cons, List.sum_nil,
    JobInfoReply.estimate]
  rw [show alignWord maxHostNameLen = 68 from rfl, show alignWord maxFileNameLen = 4100 from rfl,
    show alignWord maxLsfNameLen = 44 from rfl, show xFileSize = 8196 from rfl]
  simp only [numJgrpCounters, lsfRlimNlimits, sizeofJobInfoReply, sizeofSubmitReq, sizeofJRusage,
    sizeofPidInfo]
  linear_combination hcounted

/-- The size of the buffer. -/
theorem toInt_bufLen (r : JobInfoReply) : (jobInfoReplyXdrBufLen r + 1024).toInt =
    r.estimate + 1024 - 2 ^ 32 * r.overflows := by
  have h1024 : (1024 : Int32).toInt = 1024 := rfl
  rw [jobInfoReplyXdrBufLen, Int32.toInt_add, Int32.toInt_ofNat', h1024, Int.bmod_add_bmod,
    Int.bmod_def, JobInfoReply.overflows, show Int32.size = 2 ^ 32 from rfl]
  split <;> omega

/-- **The record fits exactly when what the estimate leaves out is covered.** -/
theorem JobInfoReply.fits_iff (r : JobInfoReply) : r.Fits ↔ (r.WithinLimits → r.Covered) := by
  have hsize := size_add r
  have hbuf := toInt_bufLen r
  rw [← accepted_iff, Fits, encodedLen, Covered]
  split
  · simp only [Option.some.injEq, forall_eq', *, forall_const]
    omega
  · simp [*]

/-- A job whose strings are empty but for the path of the share account it is charged to. -/
def longPath : JobInfoReply :=
  ⟨0, 0, 0, 0, 0, 0, 30400, 0, 0, 0, 0, 0, 0, [],
    ⟨0, 0, 0, 0, 0, 0, 0, 0, 0, 0, 0, 0, 0, 0, 0, 0, 0, 0, 0, 0, 0, 0, 0, [], []⟩⟩

theorem long_path_cut : ¬ longPath.Fits := by
  intro h
  exact absurd (h _ rfl) (by decide)

end JobInfo

end Volclava
