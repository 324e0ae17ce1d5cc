import Volclava.JobFiles

/-!
# Packed submissions

`do_submitPackReq` decodes a packed request, receives and unpacks the job files, submits the jobs
one by one and answers all of them at once. Every failure jumps to the one place where the answer is
sent, with whatever the job count and the array of answers are at that point.

The answer copies as many entries as there are jobs. After most failures there is a job count but no
array yet, and when the message ends before the job count, not even that is set.

- `SubmitPack.submitLoop_spec`: what the loop over the jobs answers.
- `SubmitPack.encodable_of_withinLimits`: when the answers fit into the buffer of the reply.
- `SubmitPack.Answerable`: the requests after whose handling array and count belong together.
- `answers_safely_iff`: these are exactly the requests that are answered safely.
- `count_mismatch_faults`: a request with more files than jobs.
-/

namespace Volclava

open Xdr JobFiles List

namespace SubmitPack

/-! ## Data -/

/-- The fields of a decoded job that the handler touches. -/
structure SubmitReq where
  maxNumProcessors : Int
  numProcessors : Int
  unitIsKB : Bool
  rLimits : List Int
  queue : List Byte
  deriving DecidableEq

structure SubmitMbdReply where
  jobId : Int
  queue : List Byte
  badReqIndx : Int
  subTryInterval : Int
  badJobName : List Byte
  pendLimitReason : List Byte
  replyCode : Int
  deriving DecidableEq

def lsbeNoError : Int := 0
def lsbeBadArg : Int := 35
def lsbeEof : Int := 46
def lsbeNoMem : Int := 52
def lsbeXdr : Int := 58
def lsbeNotHandled : Int := 139

def maxLsbNameLen : Nat := 60
def maxCmdDescLen : Nat := 256
def lsfHeaderLen : Nat := 16

/-- What the handler calls: the decoders of strings and jobs, memory, and the submission of the
`i`-th job with its file, which returns a code and may change the answer and the job. -/
structure PackEnv where
  varString : List Byte → Option (List Byte)
  submitReq : List Byte → Option (SubmitReq × List Byte)
  callocJobs : Bool
  mallocFields : Bool
  callocReplies : Bool
  callocCopies : Bool
  convertRLimit : List Int → List Int
  subTryInterval : Int
  packSkipErrFlag : Bool
  newJobWithFile : Nat → SubmitReq → LenData → SubmitMbdReply → Int × SubmitMbdReply × SubmitReq

/-- The message and what arrives on the channel behind it. -/
structure PackInput where
  msg : List Byte
  chan : List Byte

inductive Fault where
  /-- A variable was read before it was set. -/
  | uninitialised
  /-- An array was read that was not allocated, or behind its end. -/
  | unallocated
  /-- The daemon exits because memory of a negative size was asked for. -/
  | died
  deriving DecidableEq

/-- An answer as it is built. -/
structure PackReply where
  opCode : Int
  numJobs : Int
  numSuccess : Nat
  numFailed : Nat
  replies : List SubmitMbdReply
  deriving DecidableEq

/-- What became of a request: the answers that were built, and the first fault. -/
structure Outcome where
  replies : List PackReply
  fault : Option Fault
  deriving DecidableEq

section Handler

variable (e : PackEnv)

/-! ## Decoding -/

/-- The decoded request; the job count is not set before it is decoded. -/
structure SubmitPackReq where
  jobCount : Option Int
  jobs : List SubmitReq

def packCount (msg : List Byte) : Option (Int × List Byte) :=
  (uInt msg).map fun r => (r.1.toInt, r.2)

/-- `options`, `maxConcurrency`, `clientTimestamp`. -/
def packHeader (bs : List Byte) : Option (List Byte) := do
  let r ← uInt bs
  let r ← uInt r.2
  let r ← uInt r.2
  return r.2

def decodeJobs : Nat → List Byte → Option (List SubmitReq)
  | 0, _ => some []
  | n + 1, bs => do
    let r ← e.submitReq bs
    let jobs ← decodeJobs n r.2
    return r.1 :: jobs

/-- What lies before the jobs: the header, the source file, and memory for the array. -/
def packFront (bs : List Byte) : Option (List Byte) := do
  let bs ← packHeader bs
  let bs ← e.varString bs
  if e.callocJobs then some bs else none

/-- `xdr_submitPackReq`: only the last error exit resets the job count. -/
def xdrSubmitPackReq (msg : List Byte) : Bool × SubmitPackReq :=
  match packCount msg with
  | none => (false, ⟨none, []⟩)
  | some (count, bs) =>
    match packHeader bs with
    | none => (false, ⟨some count, []⟩)
    | some bs' =>
      if count ≤ 0 then (false, ⟨some count, []⟩)
      else
        match e.varString bs' with
        | none => (false, ⟨some count, []⟩)
        | some bs'' =>
          if e.callocJobs = false then (false, ⟨some count, []⟩)
          else if e.mallocFields = false then (false, ⟨some 0, []⟩)
          else
            match decodeJobs e count.toNat bs'' with
            | none => (false, ⟨some 0, []⟩)
            | some jobs => (true, ⟨some count, jobs⟩)

inductive Received where
  | failed
  | died
  | file (packed : LenData)

/-- `mbdRcvJobFile`. -/
def mbdRcvJobFile (chan : List Byte) : Received :=
  match uInt chan with
  | none => .failed
  | some (w, rest) =>
    if w.toInt < 0 then .died
    else if rest.length < w.toInt.toNat then .failed
    else .file ⟨w.toInt, some (rest.take w.toInt.toNat)⟩

/-! ## Submitting -/

structure PackState where
  replyArray : List SubmitMbdReply
  successCount : Nat
  failedCount : Nat
  firstError : Int
  fault : Option Fault

/-- An answer before its job is handled. -/
def initReply : SubmitMbdReply := ⟨0, [], 0, e.subTryInterval, [], [], lsbeNotHandled⟩

/-- The job as it is handed to `newJobWithFile`. -/
def prepare (job : SubmitReq) : SubmitReq :=
  { job with
    maxNumProcessors := if job.maxNumProcessors ≤ 0 then 1 else job.maxNumProcessors
    numProcessors := if job.numProcessors ≤ 0 then 1 else job.numProcessors
    rLimits := if job.unitIsKB then job.rLimits else e.convertRLimit job.rLimits }

/-- The code of a job. -/
def codeOf (i : Nat) (job : SubmitReq) (jf : LenData) : Int :=
  (e.newJobWithFile i (prepare e job) jf (initReply e)).1

/-- The answer to a job. -/
def ownReply (i : Nat) (job : SubmitReq) (jf : LenData) : SubmitMbdReply :=
  let r := e.newJobWithFile i (prepare e job) jf (initReply e)
  if r.1 = lsbeNoError then { r.2.1 with replyCode := r.1 }
  else { r.2.1 with replyCode := r.1, jobId := 0, queue := r.2.2.queue }

/-- The loop over the jobs, from the `i`-th on. -/
def submitLoop (jobs : List SubmitReq) (jfArray : List LenData) : Nat → Nat → PackState → PackState
  | 0, _, s => s
  | n + 1, i, s =>
    match jobs[i]?, jfArray[i]?, s.replyArray[i]? with
    | some job, some jf, some reply =>
      let r := e.newJobWithFile i (prepare e job) jf reply
      if r.1 = lsbeNoError then
        submitLoop jobs jfArray n (i + 1) { s with
          replyArray := s.replyArray.set i { r.2.1 with replyCode := r.1 }
          successCount := s.successCount + 1 }
      else
        let s' := { s with
          replyArray := s.replyArray.set i
            { r.2.1 with replyCode := r.1, jobId := 0, queue := r.2.2.queue }
          firstError := if s.firstError = lsbeNoError then r.1 else s.firstError
          failedCount := s.failedCount + 1 }
        if e.packSkipErrFlag then submitLoop jobs jfArray n (i + 1) s' else s'
    | _, _, _ => { s with fault := some .unallocated }

/-! ## Answering -/

/-- The bytes a string takes; `none` if it is longer than its limit. -/
def xdrString (s : List Byte) (maxsize : Nat) : Option Nat :=
  if s.length ≤ maxsize then some (4 + (s.length + 3) / 4 * 4) else none

/-- The bytes of one answer, with the offset of the next one before it. -/
def xdrSubmitMbdEnt (r : SubmitMbdReply) : Option Nat := do
  let queue ← xdrString r.queue maxLsbNameLen
  let reason ← xdrString r.pendLimitReason maxCmdDescLen
  let name ← xdrString r.badJobName maxCmdDescLen
  return 4 + 16 + queue + reason + name + 4

/-- The bytes of the whole answer. -/
def encodedLen (replies : List SubmitMbdReply) : Option Nat :=
  (replies.mapM xdrSubmitMbdEnt).map fun lens => lsfHeaderLen + 12 + lens.sum

/-- The size of the buffer for an answer, a C `int`. -/
def replyBufSize (jobCount : Int) : Int :=
  Int.bmod ((24 + jobCount * 4096 + lsfHeaderLen + 100) % 2 ^ 32 / 4 * 4 + 4 + 4) (2 ^ 32)

/-- The answers fit into the buffer and keep to the limits of their strings. -/
def Encodable (jobCount : Int) (replies : List SubmitMbdReply) : Prop :=
  ∃ len, encodedLen replies = some len ∧ (len : Int) ≤ replyBufSize jobCount

instance (jobCount : Int) (replies : List SubmitMbdReply) :
    Decidable (Encodable jobCount replies) :=
  match h : encodedLen replies with
  | none => isFalse fun ⟨_, hlen, _⟩ => by rw [h] at hlen; cases hlen
  | some len => decidable_of_iff ((len : Int) ≤ replyBufSize jobCount)
      ⟨fun hle => ⟨len, h, hle⟩, fun ⟨len', hlen, hle⟩ => by
        rw [h] at hlen
        obtain rfl := Option.some.inj hlen
        exact hle⟩

/-- `sendBackPack`: whether it succeeds, and what becomes of the request. -/
def sendBackPack (overallReply : Int) (successCount failedCount : Nat)
    (replyArray : Option (List SubmitMbdReply)) (jobCount : Option Int) : Bool × Outcome :=
  match jobCount with
  | none => (false, ⟨[], some .uninitialised⟩)
  | some n =>
    if replyBufSize n < 0 then (false, ⟨[], some .died⟩)
    else if n < 0 ∨ e.callocCopies = false then (false, ⟨[], none⟩)
    else if n = 0 then
      if Encodable 0 [] then (true, ⟨[⟨overallReply, 0, successCount, failedCount, []⟩], none⟩)
      else (false, ⟨[], none⟩)
    else
      match replyArray with
      | none => (false, ⟨[], some .unallocated⟩)
      | some replies =>
        if replies.length < n.toNat then (false, ⟨[], some .unallocated⟩)
        else if Encodable n (replies.take n.toNat) then
          (true, ⟨[⟨overallReply, n, successCount, failedCount, replies.take n.toNat⟩], none⟩)
        else (false, ⟨[], none⟩)

/-- The common end: the answer, and after it the entries of the array are freed, one for every
file. -/
def sendback (overallReply : Int) (successCount failedCount : Nat)
    (replyArray : Option (List SubmitMbdReply)) (jobCount : Option Int) (fileCount : Nat) :
    Outcome :=
  let r := sendBackPack e overallReply successCount failedCount replyArray jobCount
  if r.1 = true ∧ (replyArray.getD []).length < fileCount then
    { r.2 with fault := some .unallocated }
  else r.2

def doSubmitPackReq (inp : PackInput) : Outcome :=
  match xdrSubmitPackReq e inp.msg with
  | (false, req) => sendback e lsbeXdr 0 0 none req.jobCount 0
  | (true, req) =>
    match mbdRcvJobFile inp.chan with
    | .died => ⟨[], some .died⟩
    | .failed => sendback e lsbeEof 0 0 none req.jobCount 0
    | .file packed =>
      match unpackJobFiles packed with
      | .overread => ⟨[], some .unallocated⟩
      | .failed => sendback e lsbeEof 0 0 none req.jobCount 0
      | .files jfArray =>
        if some (jfArray.length : Int) ≠ req.jobCount then
          sendback e lsbeBadArg 0 0 none req.jobCount jfArray.length
        else if e.callocReplies = false then
          sendback e lsbeNoMem 0 0 none req.jobCount jfArray.length
        else
          let s := submitLoop e req.jobs jfArray jfArray.length 0
            ⟨List.replicate jfArray.length (initReply e), 0, 0, lsbeNoError, none⟩
          match s.fault with
          | some f => ⟨[], some f⟩
          | none =>
            sendback e lsbeNoError s.successCount s.failedCount (some s.replyArray) req.jobCount
              jfArray.length

/-! ## What has to be answered -/

/-- Every job before the `i`-th one is submitted, or errors are skipped. -/
def Handled (jobs : List SubmitReq) (jfArray : List LenData) (i : Nat) : Prop :=
  e.packSkipErrFlag = true ∨ ∀ j < i, ∀ job ∈ jobs[j]?, ∀ jf ∈ jfArray[j]?,
    codeOf e j job jf = lsbeNoError

/-- Every job has its own result, or is reported as not handled behind the first failure. -/
def Reports (jobs : List SubmitReq) (jfArray : List LenData) (replies : List SubmitMbdReply) :
    Prop :=
  replies.length = jobs.length ∧ ∀ i job jf, jobs[i]? = some job → jfArray[i]? = some jf →
    (Handled e jobs jfArray i → replies[i]? = some (ownReply e i job jf)) ∧
    (¬ Handled e jobs jfArray i → replies[i]? = some (initReply e))

/-- **The handler is safe on a request**: no fault, exactly one answer, and a success reports every
job. -/
def AnswersSafely (inp : PackInput) : Prop :=
  (doSubmitPackReq e inp).fault = none ∧ ∃ reply, (doSubmitPackReq e inp).replies = [reply] ∧
    (reply.opCode = lsbeNoError → ∃ jobs jfArray packed,
      xdrSubmitPackReq e inp.msg = (true, ⟨some reply.numJobs, jobs⟩) ∧
      mbdRcvJobFile inp.chan = .file packed ∧ unpackJobFiles packed = .files jfArray ∧
      reply.numJobs = jobs.length ∧ jfArray.length = jobs.length ∧
      Reports e jobs jfArray reply.replies)

/-! ## The loop over the jobs -/

/-- The answers to the jobs from the `i`-th on. -/
def answersFrom (i : Nat) : List SubmitReq → List LenData → List SubmitMbdReply
  | job :: jobs, jf :: jfArray =>
    ownReply e i job jf ::
      if codeOf e i job jf = lsbeNoError ∨ e.packSkipErrFlag = true then
        answersFrom (i + 1) jobs jfArray
      else List.replicate jobs.length (initReply e)
  | jobs, _ => List.replicate jobs.length (initReply e)

variable {e}

theorem length_answersFrom (i : Nat) (jobs : List SubmitReq) (jfArray : List LenData) :
    (answersFrom e i jobs jfArray).length = jobs.length := by
  induction jobs generalizing i jfArray with
  | nil => rfl
  | cons job jobs ih =>
    cases jfArray with
    | nil => simp [answersFrom]
    | cons jf jfArray =>
      rw [answersFrom, length_cons, length_cons]
      split_ifs
      · rw [ih]
      · rw [length_replicate]

variable {jobs : List SubmitReq} {jfArray : List LenData} {inp : PackInput}

/-- **What the loop answers**, and that it stays inside its arrays. -/
theorem submitLoop_spec {n i : Nat} (hjobs : jobs.length = i + n) (hjf : jfArray.length = i + n)
    {s : PackState} {pre : List SubmitMbdReply} (hpre : pre.length = i)
    (hs : s.replyArray = pre ++ List.replicate n (initReply e)) :
    (submitLoop e jobs jfArray n i s).fault = s.fault ∧
    (submitLoop e jobs jfArray n i s).replyArray =
      pre ++ answersFrom e i (jobs.drop i) (jfArray.drop i) := by
  induction n generalizing i s pre with
  | zero =>
    rw [Nat.add_zero] at hjobs
    rw [submitLoop, hs, drop_eq_nil_of_le (le_of_eq hjobs)]
    exact ⟨rfl, rfl⟩
  | succ n ih =>
    have hi : i < jobs.length := by omega
    have hi' : i < jfArray.length := by omega
    obtain ⟨job, hjob⟩ : ∃ job, jobs[i]? = some job := ⟨_, List.getElem?_eq_getElem hi⟩
    obtain ⟨jf, hjfi⟩ : ∃ jf, jfArray[i]? = some jf := ⟨_, List.getElem?_eq_getElem hi'⟩
    have hdrop : jobs.drop i = job :: jobs.drop (i + 1) := by
      rw [drop_eq_getElem_cons hi, (List.getElem?_eq_some_iff.mp hjob).2]
    have hdrop' : jfArray.drop i = jf :: jfArray.drop (i + 1) := by
      rw [drop_eq_getElem_cons hi', (List.getElem?_eq_some_iff.mp hjfi).2]
    have hreply : s.replyArray[i]? = some (initReply e) := by
      rw [hs, List.getElem?_append_right (le_of_eq hpre), hpre, Nat.sub_self]
      rfl
    have hset : ∀ r, s.replyArray.set i r =
        (pre ++ [r]) ++ List.replicate n (initReply e) := by
      intro r
      rw [hs, set_append_right _ _ (le_of_eq hpre), hpre, Nat.sub_self,
        replicate_succ, set_cons_zero, append_assoc]
      rfl
    have hrest : (jobs.drop (i + 1)).length = n := by
      rw [length_drop]
      omega
    rw [submitLoop, hjob, hjfi, hreply, hdrop, hdrop', answersFrom, hrest, codeOf]
    simp only
    by_cases hok : (e.newJobWithFile i (prepare e job) jf (initReply e)).1 = lsbeNoError
    · rw [if_pos hok, if_pos (.inl hok), show ownReply e i job jf = _ from if_pos hok,
        ← singleton_append, ← append_assoc]
      exact ih (by omega) (by omega) (by rw [length_append, hpre]; rfl) (hset _)
    · rw [if_neg hok, show ownReply e i job jf = _ from if_neg hok, ← singleton_append,
        ← append_assoc]
      by_cases hskip : e.packSkipErrFlag = true
      · rw [if_pos hskip, if_pos (Or.inr hskip)]
        exact ih (by omega) (by omega) (by rw [length_append, hpre]; rfl) (hset _)
      · rw [if_neg hskip, if_neg (not_or.mpr ⟨hok, hskip⟩)]
        exact ⟨rfl, hset _⟩

/-- The answers by their index. -/
theorem getElem?_answersFrom (i : Nat) {k : Nat} {job : SubmitReq} {jf : LenData}
    (hjob : jobs[k]? = some job) (hjf : jfArray[k]? = some jf) :
    (answersFrom e i jobs jfArray)[k]? =
      some (if e.packSkipErrFlag = true ∨ ∀ j < k, ∀ job' ∈ jobs[j]?, ∀ jf' ∈ jfArray[j]?,
        codeOf e (i + j) job' jf' = lsbeNoError then ownReply e (i + k) job jf
      else initReply e) := by
  induction k generalizing i jobs jfArray with
  | zero =>
    match jobs, jfArray, hjob, hjf with
    | job' :: jobs, jf' :: jfArray, hjob, hjf =>
      obtain rfl : job' = job := Option.some.inj hjob
      obtain rfl : jf' = jf := Option.some.inj hjf
      simp [answersFrom]
  | succ k ih =>
    match jobs, jfArray, hjob, hjf with
    | job' :: jobs, jf' :: jfArray, hjob, hjf =>
      rw [List.getElem?_cons_succ] at hjob hjf
      have hown := ih (i + 1) hjob hjf
      have hidx : ∀ j, i + 1 + j = i + (j + 1) := fun j => by omega
      simp only [hidx] at hown
      -- The condition on the jobs before this one splits off the first of them.
      have hsplit : (∀ j < k + 1, ∀ q ∈ (job' :: jobs)[j]?, ∀ f ∈ (jf' :: jfArray)[j]?,
          codeOf e (i + j) q f = lsbeNoError) ↔ codeOf e i job' jf' = lsbeNoError ∧
          ∀ j < k, ∀ q ∈ jobs[j]?, ∀ f ∈ jfArray[j]?,
            codeOf e (i + (j + 1)) q f = lsbeNoError := by
        rw [Nat.forall_lt_succ_left']
        simp
      have hlen : k < jobs.length := (List.getElem?_eq_some_iff.mp hjob).1
      rw [answersFrom, List.getElem?_cons_succ]
      simp only [hsplit]
      by_cases hskip : e.packSkipErrFlag = true
      · simpa [hskip] using hown
      · by_cases hok : codeOf e i job' jf' = lsbeNoError
        · simpa [hskip, hok] using hown
        · simp [hskip, hok, hlen]

theorem reports_answersFrom (jobs : List SubmitReq) (jfArray : List LenData) :
    Reports e jobs jfArray (answersFrom e 0 jobs jfArray) := by
  refine ⟨length_answersFrom 0 jobs jfArray, fun i job jf hjob hjf => ?_⟩
  have h := getElem?_answersFrom (e := e) 0 hjob hjf
  simp only [Nat.zero_add] at h
  exact ⟨fun hh => h.trans (congrArg some (if_pos hh)),
    fun hh => h.trans (congrArg some (if_neg hh))⟩

/-! ## Requests that can be answered -/

/-- The array of answers and the job count belong together when the answer is sent: the announced
count is zero; or it is positive, what lies before the jobs decodes, and either the jobs do not, or
everything does, as many files as jobs arrive, and the answers can be encoded. -/
def Answerable (e : PackEnv) (inp : PackInput) : Prop :=
  ∃ count bs, packCount inp.msg = some (count, bs) ∧ e.callocCopies = true ∧
    (count = 0 ∨ 0 < count ∧ ∃ bs', packFront e bs = some bs' ∧
      (e.mallocFields = false ∨ decodeJobs e count.toNat bs' = none ∨
        ∃ jobs packed jfArray, e.mallocFields = true ∧ decodeJobs e count.toNat bs' = some jobs ∧
          mbdRcvJobFile inp.chan = .file packed ∧ unpackJobFiles packed = .files jfArray ∧
          (jfArray.length : Int) = count ∧ e.callocReplies = true ∧
          Encodable count (answersFrom e 0 jobs jfArray)))

theorem length_decodeJobs {n : Nat} {bs : List Byte} (h : decodeJobs e n bs = some jobs) :
    jobs.length = n := by
  induction n generalizing bs jobs with
  | zero =>
    obtain rfl := Option.some.inj h
    rfl
  | succ n ih =>
    simp only [decodeJobs, Option.bind_eq_bind, Option.bind_eq_some_iff, Option.pure_def,
      Option.some.injEq] at h
    obtain ⟨r, -, rest, hrest, rfl⟩ := h
    rw [length_cons, ih hrest]

/-- Without an array, a positive job count gets no answer. -/
theorem replies_sendback_none {n : Int} (hn : n ≠ 0) (overall : Int) (ok bad k : Nat) :
    (sendback e overall ok bad none (some n) k).replies = [] := by
  have hsend : (sendBackPack e overall ok bad none (some n)).2.replies = [] := by
    rw [sendBackPack]
    split_ifs
    · rfl
    · rfl
    · rfl
  rw [sendback]
  split_ifs
  · exact hsend
  · exact hsend

theorem replies_sendback_of_calloc (hcopies : e.callocCopies = false) (overall : Int)
    (ok bad k : Nat) (replyArray : Option (List SubmitMbdReply)) (jobCount : Option Int) :
    (sendback e overall ok bad replyArray jobCount k).replies = [] := by
  have hsend : (sendBackPack e overall ok bad replyArray jobCount).2.replies = [] := by
    cases jobCount with
    | none => rfl
    | some n =>
      rw [sendBackPack.eq_def]
      simp only
      by_cases hsize : replyBufSize n < 0
      · rw [if_pos hsize]
      · rw [if_neg hsize, if_pos (Or.inr hcopies)]
  rw [sendback]
  split_ifs
  · exact hsend
  · exact hsend

/-- A job count of zero is answered without an array. -/
theorem sendback_zero (hcopies : e.callocCopies = true) (overall : Int) :
    sendback e overall 0 0 none (some 0) 0 = ⟨[⟨overall, 0, 0, 0, []⟩], none⟩ := by
  have hsize : ¬ replyBufSize 0 < 0 := by decide
  have hfits : Encodable 0 [] := by decide
  rw [sendback, sendBackPack, if_neg hsize]
  simp [hcopies, hfits]

variable {replies : List SubmitMbdReply}

/-- A full array is answered exactly when it can be encoded. -/
theorem sendback_full (hcopies : e.callocCopies = true)
    (hne : replies ≠ []) (overall : Int) (ok bad : Nat) :
    sendback e overall ok bad (some replies) (some replies.length) replies.length =
      if Encodable replies.length replies then
        ⟨[⟨overall, replies.length, ok, bad, replies⟩], none⟩
      else if replyBufSize replies.length < 0 then ⟨[], some .died⟩
      else ⟨[], none⟩ := by
  have hpos : (replies.length : Int) ≠ 0 := by
    rw [Ne, Int.natCast_eq_zero, length_eq_zero_iff]
    exact hne
  have hnonneg : ¬ (replies.length : Int) < 0 := not_lt.mpr (Int.natCast_nonneg _)
  rw [sendback, sendBackPack]
  by_cases hsize : replyBufSize replies.length < 0
  · have hnot : ¬ Encodable replies.length replies := by
      rintro ⟨len, -, hlen⟩
      omega
    simp [hsize, hnot]
  · by_cases henc : Encodable replies.length replies
    · simp [hsize, henc, hcopies, hne, hnonneg]
    · simp [hsize, henc, hcopies, hne]

/-! ## The buffer -/

/-- The strings of an answer keep to their limits. -/
def WithinLimits (r : SubmitMbdReply) : Prop :=
  r.queue.length ≤ maxLsbNameLen ∧ r.pendLimitReason.length ≤ maxCmdDescLen ∧
    r.badJobName.length ≤ maxCmdDescLen

theorem xdrSubmitMbdEnt_le {r : SubmitMbdReply} (h : WithinLimits r) :
    ∃ len, xdrSubmitMbdEnt r = some len ∧ len ≤ 4096 := by
  obtain ⟨hqueue, hreason, hname⟩ := h
  refine ⟨_, by simp only [xdrSubmitMbdEnt, xdrString, if_pos hqueue, if_pos hreason, if_pos hname]
                rfl, ?_⟩
  simp only [maxLsbNameLen, maxCmdDescLen] at hqueue hreason hname
  omega

theorem encodedLen_le (h : ∀ r ∈ replies, WithinLimits r) :
    ∃ len, encodedLen replies = some len ∧ len ≤ 28 + replies.length * 4096 := by
  obtain ⟨lens, hlens, hle⟩ : ∃ lens, replies.mapM xdrSubmitMbdEnt = some lens ∧
      lens.sum ≤ replies.length * 4096 := by
    induction replies with
    | nil => exact ⟨[], rfl, le_refl _⟩
    | cons r replies ih =>
      obtain ⟨len, hlen, hle⟩ := xdrSubmitMbdEnt_le (h r mem_cons_self)
      obtain ⟨lens, hlens, hsum⟩ := ih fun r' hr' => h r' (mem_cons_of_mem r hr')
      refine ⟨len :: lens, by rw [mapM_cons, hlen, hlens]; rfl, ?_⟩
      rw [sum_cons, length_cons]
      omega
  refine ⟨lsfHeaderLen + 12 + lens.sum, by rw [encodedLen, hlens]; rfl, ?_⟩
  rw [lsfHeaderLen]
  omega

theorem replyBufSize_eq {n : Nat} (hn : n < 2 ^ 19) :
    replyBufSize n = (24 + (n : Int) * 4096 + lsfHeaderLen + 100) / 4 * 4 + 4 + 4 := by
  rw [replyBufSize, lsfHeaderLen, Int.emod_eq_of_lt (by omega) (by omega)]
  exact Int.bmod_eq_of_le (by omega) (by omega)

/-- Below 2^19 jobs the size of the buffer does not overflow, and answers within their limits fit
into it. -/
theorem encodable_of_withinLimits
    (h : ∀ r ∈ replies, WithinLimits r) (hlen : replies.length < 2 ^ 19) :
    replyBufSize replies.length =
        (24 + (replies.length : Int) * 4096 + lsfHeaderLen + 100) / 4 * 4 + 4 + 4 ∧
      Encodable replies.length replies := by
  have hsize := replyBufSize_eq hlen
  obtain ⟨len, henc, hle⟩ := encodedLen_le h
  refine ⟨hsize, len, henc, ?_⟩
  rw [lsfHeaderLen] at hsize
  omega

/-! ## The decoder -/

/-- **How decoding ends.** -/
theorem xdrSubmitPackReq_cases (msg : List Byte) :
    (packCount msg = none ∧ xdrSubmitPackReq e msg = (false, ⟨none, []⟩)) ∨
    ∃ count bs, packCount msg = some (count, bs) ∧
      (((count ≤ 0 ∨ packFront e bs = none) ∧
          xdrSubmitPackReq e msg = (false, ⟨some count, []⟩)) ∨
        0 < count ∧ ∃ bs', packFront e bs = some bs' ∧
          (((e.mallocFields = false ∨ decodeJobs e count.toNat bs' = none) ∧
              xdrSubmitPackReq e msg = (false, ⟨some 0, []⟩)) ∨
            ∃ jobs, e.mallocFields = true ∧ decodeJobs e count.toNat bs' = some jobs ∧
              xdrSubmitPackReq e msg = (true, ⟨some count, jobs⟩))) := by
  rw [xdrSubmitPackReq]
  cases hcount : packCount msg with
  | none => exact .inl ⟨rfl, rfl⟩
  | some r =>
    obtain ⟨count, bs⟩ := r
    refine .inr ⟨count, bs, rfl, ?_⟩
    simp only
    cases hheader : packHeader bs with
    | none =>
      refine .inl ⟨.inr ?_, rfl⟩
      simp [packFront, hheader]
    | some mid =>
      simp only
      by_cases hle : count ≤ 0
      · rw [if_pos hle]
        exact .inl ⟨.inl hle, rfl⟩
      · rw [if_neg hle]
        cases hstring : e.varString mid with
        | none =>
          refine .inl ⟨.inr ?_, rfl⟩
          simp [packFront, hheader, hstring]
        | some bs' =>
          simp only
          by_cases hcalloc : e.callocJobs = true
          · have hfront : packFront e bs = some bs' := by
              simp [packFront, hheader, hstring, hcalloc]
            rw [if_neg (by simp [hcalloc])]
            refine .inr ⟨not_le.mp hle, bs', hfront, ?_⟩
            by_cases hmalloc : e.mallocFields = true
            · rw [if_neg (by simp [hmalloc])]
              cases hjobs : decodeJobs e count.toNat bs' with
              | none => exact .inl ⟨.inr rfl, rfl⟩
              | some jobs => exact .inr ⟨jobs, hmalloc, rfl, rfl⟩
            · rw [Bool.not_eq_true] at hmalloc
              rw [if_pos hmalloc]
              exact .inl ⟨.inl hmalloc, rfl⟩
          · rw [Bool.not_eq_true] at hcalloc
            rw [if_pos hcalloc]
            refine .inl ⟨.inr ?_, rfl⟩
            simp [packFront, hheader, hcalloc]

/-! ## The handler -/

/-- With as many files as jobs the answers are sent. -/
theorem doSubmitPackReq_files {count : Int} {packed : LenData}
    (hreq : xdrSubmitPackReq e inp.msg = (true, ⟨some count, jobs⟩))
    (hjobs : (jobs.length : Int) = count) (hrcv : mbdRcvJobFile inp.chan = .file packed)
    (hunpack : unpackJobFiles packed = .files jfArray) (hlen : (jfArray.length : Int) = count)
    (hcalloc : e.callocReplies = true) : ∃ ok bad, doSubmitPackReq e inp =
      sendback e lsbeNoError ok bad (some (answersFrom e 0 jobs jfArray)) (some count)
        jfArray.length := by
  have hjobs' : jobs.length = 0 + jfArray.length := by omega
  obtain ⟨s₀, hs₀⟩ : ∃ s₀ : PackState, s₀ =
    ⟨List.replicate jfArray.length (initReply e), 0, 0, lsbeNoError, none⟩ := ⟨_, rfl⟩
  have harray : s₀.replyArray = [] ++ List.replicate jfArray.length (initReply e) := by
    rw [hs₀, nil_append]
  obtain ⟨hfault, hreplies⟩ :=
    submitLoop_spec hjobs' (Nat.zero_add _).symm (length_nil) harray
  rw [drop_zero, drop_zero, nil_append] at hreplies
  have hnone : (submitLoop e jobs jfArray jfArray.length 0 s₀).fault = none := by
    rw [hfault, hs₀]
  refine ⟨(submitLoop e jobs jfArray jfArray.length 0 s₀).successCount,
    (submitLoop e jobs jfArray jfArray.length 0 s₀).failedCount, ?_⟩
  rw [doSubmitPackReq, hreq]
  simp only [hrcv, hunpack]
  rw [if_neg (by simp [hlen]), if_neg (by simp [hcalloc]), ← hs₀]
  simp only [hnone, hreplies]

/-- Without them there is no answer. -/
theorem doSubmitPackReq_decoded {count : Int}
    (hreq : xdrSubmitPackReq e inp.msg = (true, ⟨some count, jobs⟩)) (hne : count ≠ 0) :
    (doSubmitPackReq e inp).replies = [] ∨
    ∃ packed jfArray, mbdRcvJobFile inp.chan = .file packed ∧
      unpackJobFiles packed = .files jfArray ∧ (jfArray.length : Int) = count ∧
      e.callocReplies = true := by
  rw [doSubmitPackReq, hreq]
  simp only
  cases hrcv : mbdRcvJobFile inp.chan with
  | died => exact .inl rfl
  | failed => exact .inl (replies_sendback_none hne _ _ _ _)
  | file packed =>
    simp only
    cases hunpack : unpackJobFiles packed with
    | overread => exact .inl rfl
    | failed => exact .inl (replies_sendback_none hne _ _ _ _)
    | files jfArray =>
      simp only
      by_cases hlen : (jfArray.length : Int) = count
      · rw [if_neg (by simp [hlen])]
        by_cases hcalloc : e.callocReplies = true
        · exact .inr ⟨packed, jfArray, rfl, hunpack, hlen, hcalloc⟩
        · rw [Bool.not_eq_true] at hcalloc
          rw [if_pos hcalloc]
          exact .inl (replies_sendback_none hne _ _ _ _)
      · rw [if_pos (by simpa using hlen)]
        exact .inl (replies_sendback_none hne _ _ _ _)

theorem not_answersSafely_of_nil (h : (doSubmitPackReq e inp).replies = []) :
    ¬ AnswersSafely e inp := by
  rintro ⟨-, reply, hreply, -⟩
  rw [h] at hreply
  cases hreply

/-- A request that fails to decode. -/
theorem doSubmitPackReq_undecoded {jobCount : Option Int}
    (hreq : xdrSubmitPackReq e inp.msg = (false, ⟨jobCount, []⟩)) :
    doSubmitPackReq e inp = sendback e lsbeXdr 0 0 none jobCount 0 := by
  rw [doSubmitPackReq, hreq]

theorem answersSafely_of_zero (hcopies : e.callocCopies = true)
    (hreq : xdrSubmitPackReq e inp.msg = (false, ⟨some 0, []⟩)) : AnswersSafely e inp := by
  have hout := doSubmitPackReq_undecoded hreq
  rw [sendback_zero hcopies] at hout
  refine ⟨by rw [hout], _, by rw [hout], fun hok => ?_⟩
  exact absurd hok (by decide)

section Answers

variable {count : Int} {packed : LenData}
  (hreq : xdrSubmitPackReq e inp.msg = (true, ⟨some count, jobs⟩)) (hpos : 0 < count)
  (hjobs : jobs.length = count.toNat) (hrcv : mbdRcvJobFile inp.chan = .file packed)
  (hunpack : unpackJobFiles packed = .files jfArray) (hlen : (jfArray.length : Int) = count)
  (hcalloc : e.callocReplies = true) (hcopies : e.callocCopies = true)
include hreq hpos hjobs hrcv hunpack hlen hcalloc hcopies

/-- The answers to a decoded request, as `sendback` gets them. -/
theorem doSubmitPackReq_answers :
    ∃ ok bad, doSubmitPackReq e inp =
      if Encodable count (answersFrom e 0 jobs jfArray) then
        ⟨[⟨lsbeNoError, count, ok, bad, answersFrom e 0 jobs jfArray⟩], none⟩
      else if replyBufSize count < 0 then ⟨[], some .died⟩
      else ⟨[], none⟩ := by
  have hnum : ((answersFrom e 0 jobs jfArray).length : Int) = count := by
    rw [length_answersFrom]
    omega
  have hfiles : (answersFrom e 0 jobs jfArray).length = jfArray.length := by omega
  have hne : answersFrom e 0 jobs jfArray ≠ [] := by
    intro hnil
    rw [hnil, length_nil] at hnum
    omega
  obtain ⟨ok, bad, hout⟩ := doSubmitPackReq_files hreq (by omega) hrcv hunpack hlen hcalloc
  refine ⟨ok, bad, ?_⟩
  have hsend := sendback_full hcopies hne lsbeNoError ok bad
  rw [hnum, hfiles] at hsend
  rw [hout, hsend]

theorem answersSafely_of_files
    (henc : Encodable count (answersFrom e 0 jobs jfArray)) : AnswersSafely e inp := by
  obtain ⟨ok, bad, hout⟩ :=
    doSubmitPackReq_answers hreq hpos hjobs hrcv hunpack hlen hcalloc hcopies
  rw [if_pos henc] at hout
  refine ⟨by rw [hout], _, by rw [hout], fun _ => ?_⟩
  refine ⟨jobs, jfArray, packed, hreq, hrcv, hunpack, ?_, ?_, reports_answersFrom jobs jfArray⟩
  · show count = jobs.length
    omega
  · omega

theorem replies_of_unencodable
    (henc : ¬ Encodable count (answersFrom e 0 jobs jfArray)) :
    (doSubmitPackReq e inp).replies = [] := by
  obtain ⟨ok, bad, hout⟩ :=
    doSubmitPackReq_answers hreq hpos hjobs hrcv hunpack hlen hcalloc hcopies
  rw [if_neg henc] at hout
  rw [hout]
  split_ifs
  · rfl
  · rfl

end Answers

/-- Without memory for the copies nothing is answered. -/
theorem replies_of_calloc (hcopies : e.callocCopies = false) (inp : PackInput) :
    (doSubmitPackReq e inp).replies = [] := by
  have hback := @replies_sendback_of_calloc e hcopies
  rw [doSubmitPackReq]
  split
  · exact hback ..
  · split
    · rfl
    · exact hback ..
    · split
      · rfl
      · exact hback ..
      · split_ifs
        · exact hback ..
        · exact hback ..
        · simp only
          split
          · rfl
          · exact hback ..

theorem answersSafely_of_answerable (h : Answerable e inp) :
    AnswersSafely e inp := by
  obtain ⟨count, bs, hcount, hcopies, hcase⟩ := h
  rcases xdrSubmitPackReq_cases (e := e) inp.msg with ⟨hnone, -⟩ | ⟨count', bs₁, hcount', hdec⟩
  · rw [hnone] at hcount
    cases hcount
  · obtain ⟨rfl, rfl⟩ : count' = count ∧ bs₁ = bs := by
      rw [hcount'] at hcount
      exact Prod.mk.inj (Option.some.inj hcount)
    rcases hcase with rfl | ⟨hpos, bs', hfront, hcase⟩
    · rcases hdec with ⟨-, hreq⟩ | ⟨hpos, -⟩
      · exact answersSafely_of_zero hcopies hreq
      · exact absurd hpos (lt_irrefl _)
    · rcases hdec with ⟨hbad, -⟩ | ⟨-, bs₂, hfront', hdec⟩
      · rcases hbad with hle | hnone
        · omega
        · rw [hnone] at hfront
          cases hfront
      · obtain rfl : bs₂ = bs' := Option.some.inj (hfront'.symm.trans hfront)
        rcases hdec with ⟨-, hreq⟩ | ⟨jobs, hmalloc, hjobs, hreq⟩
        · exact answersSafely_of_zero hcopies hreq
        · rcases hcase with hno | hno | ⟨jobs', packed, jfArray, -, hjobs', hrcv, hunpack, hlen,
            hcalloc, henc⟩
          · rw [hmalloc] at hno
            cases hno
          · rw [hjobs] at hno
            cases hno
          · obtain rfl : jobs = jobs' := Option.some.inj (hjobs.symm.trans hjobs')
            exact answersSafely_of_files hreq hpos (length_decodeJobs hjobs) hrcv hunpack hlen
              hcalloc hcopies henc

theorem answerable_of_answersSafely (h : AnswersSafely e inp) :
    Answerable e inp := by
  have hnil : ¬ (doSubmitPackReq e inp).replies = [] :=
    fun hnil => not_answersSafely_of_nil hnil h
  have hcopies : e.callocCopies = true := by
    by_contra hcopies
    rw [Bool.not_eq_true] at hcopies
    exact hnil (replies_of_calloc hcopies inp)
  rcases xdrSubmitPackReq_cases (e := e) inp.msg with ⟨-, hreq⟩ | ⟨count, bs, hcount, hdec⟩
  · rw [doSubmitPackReq_undecoded hreq] at hnil
    exact absurd rfl hnil
  · refine ⟨count, bs, hcount, hcopies, ?_⟩
    rcases hdec with ⟨-, hreq⟩ | ⟨hpos, bs', hfront, hdec⟩
    · rw [doSubmitPackReq_undecoded hreq] at hnil
      by_contra hnot
      exact hnil (replies_sendback_none (fun h0 => hnot (.inl h0)) _ _ _ _)
    · refine .inr ⟨hpos, bs', hfront, ?_⟩
      rcases hdec with ⟨hbad, -⟩ | ⟨jobs, hmalloc, hjobs, hreq⟩
      · exact hbad.imp_right .inl
      · have hlenJobs := length_decodeJobs hjobs
        rcases doSubmitPackReq_decoded hreq (ne_of_gt hpos) with
          hnil' | ⟨packed, jfArray, hrcv, hunpack, hlen, hcalloc⟩
        · exact absurd hnil' hnil
        · refine .inr (.inr
            ⟨jobs, packed, jfArray, hmalloc, hjobs, hrcv, hunpack, hlen, hcalloc, ?_⟩)
          by_contra henc
          exact hnil (replies_of_unencodable hreq hpos hlenJobs hrcv hunpack hlen hcalloc hcopies
            henc)

end Handler

/-- **A packed submission is answered safely exactly if it is answerable.** -/
theorem answers_safely_iff (e : PackEnv) (inp : PackInput) :
    AnswersSafely e inp ↔ Answerable e inp :=
  ⟨answerable_of_answersSafely, answersSafely_of_answerable⟩

/-- A daemon with memory whose jobs are read as one word each and always accepted. -/
def plainEnv : PackEnv where
  varString bs := (uInt bs).map Prod.snd
  submitReq bs := (uInt bs).map fun r => (⟨1, 1, true, [], []⟩, r.2)
  callocJobs := true
  mallocFields := true
  callocReplies := true
  callocCopies := true
  convertRLimit lims := lims
  subTryInterval := 60
  packSkipErrFlag := false
  newJobWithFile i job _ reply := (lsbeNoError, { reply with jobId := i + 1 }, job)

/-- An accepted job, one that is over a pend limit, one whose dependency names no job, and one that
was not handled. -/
def fourReplies : List SubmitMbdReply :=
  [⟨101, [110, 105, 103, 104, 116], 0, 60, [], [], lsbeNoError⟩,
    ⟨0, [110, 105, 103, 104, 116], 2, 60, [], [108, 105, 109, 105, 116], 140⟩,
    ⟨0, [115, 104, 111, 114, 116], 0, 60, [98, 117, 105, 108, 100], [], lsbeBadArg⟩,
    initReply plainEnv]

theorem fourReplies_encodable :
    replyBufSize (4 : Nat) = 16532 ∧ Encodable (4 : Nat) fourReplies := by
  have hlimits : ∀ r ∈ fourReplies, WithinLimits r := by
    simp [fourReplies, WithinLimits, maxLsbNameLen, maxCmdDescLen, initReply]
  obtain ⟨hsize, henc⟩ := encodable_of_withinLimits hlimits (by decide)
  rw [show fourReplies.length = 4 from rfl] at hsize henc
  exact ⟨hsize.trans (by norm_num [lsfHeaderLen]), henc⟩

/-- One job, and the channel of two empty files. -/
def mismatchInput : PackInput where
  msg := putUInt 1 ++ putUInt 0 ++ putUInt 0 ++ putUInt 0 ++ putUInt 0 ++ putUInt 0
  chan := putUInt 12 ++ putUInt 2 ++ putUInt 0 ++ putUInt 0

/-- The announced job decodes and so do the two files; the array that is copied into the answer was
never allocated. -/
theorem count_mismatch_faults :
    (∃ jobs, xdrSubmitPackReq plainEnv mismatchInput.msg = (true, ⟨some 1, jobs⟩)) ∧
    (∃ packed jfArray, mbdRcvJobFile mismatchInput.chan = .file packed ∧
      unpackJobFiles packed = .files jfArray ∧ jfArray.length = 2) ∧
    doSubmitPackReq plainEnv mismatchInput = ⟨[], some .unallocated⟩ ∧
    ¬ AnswersSafely plainEnv mismatchInput := by
  have hout : doSubmitPackReq plainEnv mismatchInput = ⟨[], some .unallocated⟩ := by
    decide +kernel
  refine ⟨⟨_, rfl⟩, ⟨_, _, rfl, rfl, rfl⟩, hout, ?_⟩
  exact not_answersSafely_of_nil (by rw [hout])

end SubmitPack

end Volclava
