import Volclava.EventType
import Volclava.Lib.Run
import Volclava.Lib.Scan

/-!
# The index of the rotated event files

mbatchd rotates `lsb.events` into `lsb.events.1`, and `lsb.events.1` into `lsb.events.2`, and so
on. After each rotation it writes, with `updateJobIdIndexFile`, which jobs the rotated files
have events of: a header of 80 characters and one row for each file, the oldest file first.
`bhist` walks the rows with `getNextFileNumFromIndexS` to read only the files it needs. The walk
stops *at* the last row instead of behind it, so the newest rotated file is never read. And a row
gives the same number for its smallest and its largest job, because both are formatted in the one
buffer of `lsb_jobidinstr`: only that job is looked for in the row. Which of the two it is depends
on the order in which the compiler evaluates the arguments, `minLast` here.

- `readRow_rowText`: a row is read back as it was written.
- `index_describes`: the index describes the files it was written for, after any rotations.
- `bhist_eq_iff`: when the indexed search finds the same events as a search of all files.
-/

namespace Volclava

open Scan List

/-! ## Event files -/

/-- A record of an event file, with the job it names if it is about a job. -/
structure EventRec (α : Type) where
  type : EventType
  jobId : Int
  pos : type.jobRelated = true → 0 < jobId
  data : α
  deriving DecidableEq

structure EventFile (α : Type) where
  timeStamp : Int
  events : List (EventRec α)

variable {α : Type}

/-- `getJobIdFromEvent`: zero stands for no job. -/
def getJobIdFromEvent (e : EventRec α) : Int := if e.type.jobRelated then e.jobId else 0

/-- `LSB_ARRAY_JOBID` -/
def arrayJobId (jobId : Int) : Int := if jobId = -1 then -1 else (jobId % 2 ^ 32).bmod (2 ^ 32)

/-- `checkJobEventAndJobId`: the submission of any job is of interest. -/
def checkJobEventAndJobId (jobIds : List Int) (e : EventRec α) : Bool :=
  e.type.jobRelated &&
    (jobIds.isEmpty || e.type = .jobNew || jobIds.any fun jobId => arrayJobId jobId == e.jobId)

/-! ## Writing the index -/

/-- The entry `x` comes after `value`. -/
def comesAfter (increased : Bool) (x value : Int) : Bool :=
  if increased then decide (x > value) else decide (x < value)

/-- `insertSortIntList` -/
def insertSortIntList (increased : Bool) : List Int → Int → List Int
  | [], value => [value]
  | x :: l, value =>
    if x = value then x :: l
    else if comesAfter increased x value then value :: x :: l
    else x :: insertSortIntList increased l value

/-- `getJobIdIndexFromEventFile`: the jobs of a file, the largest first. -/
def getJobIdIndexFromEventFile (file : EventFile α) : List Int :=
  file.events.foldl (fun l e =>
    if getJobIdFromEvent e = 0 then l else insertSortIntList false l (getJobIdFromEvent e)) []

/-- The jobs of a row, ten on a line. -/
def writeIds : List Int → Nat → List Char
  | [], col => if col = 0 then [] else ['\n']
  | jobId :: ids, col =>
    (if col = 0 then [] else [' ']) ++ printInt jobId ++
      if col + 1 = 10 then '\n' :: writeIds ids 0 else writeIds ids (col + 1)

/-- The number in the buffer of `lsb_jobidinstr` after it was called for the smallest and the
largest job of a row, zero if there is none; for the smallest last if `minLast`. -/
def jobidinstr (minLast : Bool) (ids : List Int) : Int :=
  if minLast then ids.getLast?.getD 0 else ids.head?.getD 0

/-- `writeJobIdIndexToIndexFile` -/
def writeJobIdIndexToIndexFile (minLast : Bool) (ids : List Int) (timeStamp : Int) : List Char :=
  '#' :: printInt timeStamp ++ ' ' :: printInt ids.length ++
    ' ' :: printInt (jobidinstr minLast ids) ++ ' ' :: printInt (jobidinstr minLast ids) ++
    '\n' :: writeIds ids 0

variable (minLast : Bool)

def rowText (file : EventFile α) : List Char :=
  writeJobIdIndexToIndexFile minLast (getJobIdIndexFromEventFile file) file.timeStamp

/-- `LSF_JOBIDINDEX_FILETAG` -/
def indexFileTag : List Char := "#LSF_JOBID_INDEX_FILE".toList

/-- `VOLCLAVA_VERSION` -/
def volclavaVersion : Int := 22

/-- The header before it is written: 79 blanks and a newline. -/
def blankHeader : List Char := List.replicate 79 ' ' ++ ['\n']

def headerText (indexVersion : List Char) (rows lastUpdate : Int) : List Char :=
  indexFileTag ++ ' ' :: indexVersion ++ ' ' :: printInt rows ++ ' ' :: printInt lastUpdate

/-- Writing over the beginning of a file. -/
def overwrite (file text : List Char) : List Char := text ++ file.drop text.length

/-- The fields of the header: tag, version, number of rows and time of the last update. -/
def scanHeader (file : List Char) : Option (List Char × List Char × Int × Int) := do
  let (tag, s) ← scanWord file
  let (version, s) ← scanWord s
  let (rows, s) ← scanInt s
  let (lastUpdate, _) ← scanInt s
  return (tag, version, rows, lastUpdate)

/-- The file before the rows are added, with the version, the rows it has and the rotated files
to add, of which the first in the list is `lsb.events.1`. -/
def openIndex (indexFile : Option (List Char)) (files : List (EventFile α)) :
    Option (List Char × List Char × Int × List (EventFile α)) :=
  let rebuilt := (blankHeader, printInt volclavaVersion, 0, files)
  match indexFile with
  | none => some rebuilt
  | some file =>
    match scanHeader file with
    | none => none
    | some (tag, indexVersion, rows, _) =>
      if tag ≠ indexFileTag then none
      else if (files.length : Int) = rows + 1 then some (file, indexVersion, rows, files.take 1)
      else some rebuilt

/-- Add the rows and write the header. -/
def writeIndex (opened : List Char × List Char × Int × List (EventFile α)) (now : Int32) :
    List Char :=
  let (file, indexVersion, rows, added) := opened
  overwrite (file ++ added.reverse.flatMap (rowText minLast))
    (headerText indexVersion (rows + added.length) now.toInt)

/-- `updateJobIdIndexFile`. An index with a bad header is removed. -/
def updateJobIdIndexFile (indexFile : Option (List Char)) (files : List (EventFile α))
    (now : Int32) : Option (List Char) :=
  (openIndex indexFile files).map (writeIndex minLast · now)

/-! ## Reading the index -/

structure JobIdIndexS where
  fp : List Char
  totalRows : Int
  curRow : Int

/-- `initJobIdIndexS` -/
def initJobIdIndexS (file : List Char) : Option JobIdIndexS :=
  match scanHeader file with
  | none => none
  | some (tag, _, totalRows, _) =>
    if tag ≠ indexFileTag then none else some ⟨file.drop 80, totalRows, 0⟩

/-- Ten jobs and a line end, as often as given. -/
def scanLines : Nat → List Char → Option (List Int × List Char)
  | 0, s => some ([], s)
  | n + 1, s => do
    let (ids, s) ← scanInts 10 s
    let (ids', s) ← scanLines n (skipSpace s)
    return (ids ++ ids', s)

/-- The jobs of a row. -/
def scanIds (totalJobIds : Nat) (s : List Char) : Option (List Int × List Char) := do
  let (ids, s) ← scanLines (totalJobIds / 10) s
  let (ids', s) ← scanInts (totalJobIds % 10) s
  return (ids ++ ids', if totalJobIds % 10 = 0 then s else skipSpace s)

structure IndexRow where
  minJobId : Int
  maxJobId : Int
  jobIds : List Int
  deriving DecidableEq

/-- One row, as `getNextFileNumFromIndexS` reads it. -/
def readRow (s : List Char) : Option (IndexRow × List Char) := do
  let s ← scanChar '#' s
  let (_, s) ← scanInt s
  let (totalJobIds, s) ← scanInt s
  let (minJobId, s) ← scanInt s
  let (maxJobId, s) ← scanInt s
  let (jobIds, s) ← scanIds totalJobIds.toNat (skipSpace s)
  return (⟨minJobId, maxJobId, jobIds⟩, s)

/-- The search of a row for a job: the jobs come in descending order. -/
def searchIds (jobId : Int) : List Int → Bool
  | [] => false
  | x :: ids => if jobId = x then true else if jobId > x then false else searchIds jobId ids

def IndexRow.has (row : IndexRow) (jobIds : List Int) : Bool :=
  jobIds.any fun q =>
    let jobId := arrayJobId q
    !(jobId > row.maxJobId || jobId < row.minJobId) && searchIds jobId row.jobIds

/-- `getNextFileNumFromIndexS`: the number of the next file with events of the jobs, zero when
there is none, and -1 when a row cannot be read. -/
def getNextFileNumFromIndexS (jobIds : List Int) : Nat → JobIdIndexS → Int × JobIdIndexS
  | 0, indexS => (-1, indexS)
  | fuel + 1, indexS =>
    let curRow := indexS.curRow + 1
    if curRow = indexS.totalRows then (0, { indexS with curRow := curRow })
    else
      match readRow indexS.fp with
      | none => (-1, { indexS with curRow := curRow })
      | some (row, fp) =>
        let indexS := { indexS with fp := fp, curRow := curRow }
        if row.has jobIds then (indexS.totalRows - curRow + 1, indexS)
        else getNextFileNumFromIndexS jobIds fuel indexS

/-! ## Searching the files -/

/-- The files of the log directory. `rotated` holds `lsb.events.1`, `lsb.events.2` and so on. -/
structure LogDir (α : Type) where
  rotated : List (EventFile α)
  index : Option (List Char)

def LogDir.init : LogDir α := ⟨[], none⟩

/-- The events of `lsb.events.n`. -/
def LogDir.file (d : LogDir α) (n : Int) : List (EventRec α) :=
  ((d.rotated[(n - 1).toNat]?).map (·.events)).getD []

/-- The number of the file `lsbGetNextJobEvent` opens after file `curOpenFile`. -/
def nextOpenFile (jobIds : List Int) (curOpenFile : Int) (indexS : JobIdIndexS) :
    Int × JobIdIndexS :=
  if curOpenFile = 1 then (0, indexS)
  else
    -- every row read takes at least one character
    let (nextFileNumber, indexS) := getNextFileNumFromIndexS jobIds (indexS.fp.length + 1) indexS
    (if nextFileNumber = -1 then curOpenFile - 1 else nextFileNumber, indexS)

/-- The events `lsbGetNextJobEvent` returns one after another. -/
def readIndexed (d : LogDir α) (live : List (EventRec α)) (jobIds : List Int) :
    Nat → Int → JobIdIndexS → List (EventRec α)
  | 0, _, _ => []
  | fuel + 1, curOpenFile, indexS =>
    let (curOpenFile, indexS) := nextOpenFile jobIds curOpenFile indexS
    if curOpenFile = 0 then live.filter (checkJobEventAndJobId jobIds)
    else (d.file curOpenFile).filter (checkJobEventAndJobId jobIds) ++
      readIndexed d live jobIds fuel curOpenFile indexS

/-- The events a search of all files returns: from the oldest rotated file to `lsb.events`. -/
def readAll (d : LogDir α) (live : List (EventRec α)) (jobIds : List Int) : List (EventRec α) :=
  (d.rotated.reverse.flatMap (·.events) ++ live).filter (checkJobEventAndJobId jobIds)

/-- The events `bhist` goes through for the jobs. `lsb.events` is taken from the position in its
first line on, which is where the events carried over by the rotation end. -/
def bhist (d : LogDir α) (live : List (EventRec α)) (jobIds : List Int) : List (EventRec α) :=
  match d.index.bind initJobIdIndexS with
  | none => readAll d live jobIds
  | some indexS => readIndexed d live jobIds (d.rotated.length + 101) 100 indexS

/-- A rotation of `lsb.events`; the index is updated by a child process, if that can be
started. -/
structure Rotation (α : Type) where
  file : EventFile α
  update : Option Int32

def logStep (d : LogDir α) (r : Rotation α) : LogDir α :=
  let rotated := r.file :: d.rotated
  match r.update with
  | none => { d with rotated := rotated }
  | some now => ⟨rotated, updateJobIdIndexFile minLast d.index rotated now⟩

/-- The event is one of the jobs'. -/
def OfJobs (jobIds : List Int) (e : EventRec α) : Prop :=
  e.type.jobRelated = true ∧ ∃ jobId ∈ jobIds, arrayJobId jobId = e.jobId

instance (jobIds : List Int) (e : EventRec α) : Decidable (OfJobs jobIds e) :=
  inferInstanceAs (Decidable (_ ∧ _))

/-- The event is about the smallest, or the largest, of the jobs the file has events of. -/
def Outermost (file : EventFile α) (e : EventRec α) : Prop :=
  ∀ e' ∈ file.events, e'.type.jobRelated = true →
    if minLast then e.jobId ≤ e'.jobId else e'.jobId ≤ e.jobId

instance (file : EventFile α) (e : EventRec α) : Decidable (Outermost minLast file e) := by
  unfold Outermost
  infer_instance

/-! ## The jobs of a row -/

variable {minLast : Bool} {file : EventFile α} (ids : List Int)

section Ids

variable {x : Int} {l : List Int}

theorem mem_insertSortIntList {increased : Bool} {v : Int} :
    x ∈ insertSortIntList increased l v ↔ x = v ∨ x ∈ l := by
  induction l with
  | nil => simp [insertSortIntList]
  | cons y l ih =>
    rw [insertSortIntList]
    split
    · rename_i h
      subst h
      simp
    · split
      · simp
      · rw [mem_cons, ih, mem_cons]
        tauto

/-- The jobs stay in descending order. -/
theorem pairwise_insertSortIntList (h : l.Pairwise (· > ·)) (v : Int) :
    (insertSortIntList false l v).Pairwise (· > ·) := by
  induction l with
  | nil => exact pairwise_singleton _ v
  | cons y l ih =>
    obtain ⟨hy, hl⟩ := pairwise_cons.1 h
    rw [insertSortIntList]
    split
    · exact h
    · rename_i hne
      split
      · rename_i hlt
        refine pairwise_cons.2 ⟨?_, h⟩
        intro x hx
        rcases mem_cons.1 hx with rfl | hx
        · exact of_decide_eq_true hlt
        · exact (hy x hx).trans (of_decide_eq_true hlt)
      · rename_i hge
        refine pairwise_cons.2 ⟨?_, ih hl⟩
        intro x hx
        rcases mem_insertSortIntList.1 hx with rfl | hx
        · have := of_decide_eq_false (Bool.eq_false_iff.2 hge)
          omega
        · exact hy x hx

theorem foldl_insertSortIntList (hl : l.Pairwise (· > ·)) :
    (ids.foldl (insertSortIntList false) l).Pairwise (· > ·) ∧
      ∀ x, x ∈ ids.foldl (insertSortIntList false) l ↔ x ∈ l ∨ x ∈ ids := by
  induction ids generalizing l with
  | nil => exact ⟨hl, fun x => by simp⟩
  | cons v ids ih =>
    obtain ⟨hp, hmem⟩ := ih (pairwise_insertSortIntList hl v)
    refine ⟨hp, fun x => (hmem x).trans ?_⟩
    rw [mem_insertSortIntList, mem_cons]
    tauto

/-- Events that are not about a job are passed over. -/
theorem index_eq_foldl (file : EventFile α) : getJobIdIndexFromEventFile file =
    ((file.events.map getJobIdFromEvent).filter (· ≠ 0)).foldl (insertSortIntList false) [] := by
  rw [foldl_filter, foldl_map]
  simp [getJobIdIndexFromEventFile]

theorem pairwise_index (file : EventFile α) :
    (getJobIdIndexFromEventFile file).Pairwise (· > ·) :=
  index_eq_foldl file ▸ (foldl_insertSortIntList _ List.Pairwise.nil).1

theorem mem_index :
    x ∈ getJobIdIndexFromEventFile file ↔ ∃ e ∈ file.events, getJobIdFromEvent e = x ∧ x ≠ 0 := by
  rw [index_eq_foldl, (foldl_insertSortIntList _ List.Pairwise.nil).2]
  simp [← and_assoc]

variable {ids : List Int}

/-- The search finds what is there: the jobs come in descending order. -/
theorem searchIds_iff (h : ids.Pairwise (· > ·)) :
    searchIds x ids = true ↔ x ∈ ids := by
  induction ids with
  | nil => simp [searchIds]
  | cons y ids ih =>
    obtain ⟨hy, hids⟩ := pairwise_cons.1 h
    rw [searchIds, mem_cons]
    split
    · rename_i heq
      simp [heq]
    · rename_i hne
      split
      · rename_i hgt
        refine iff_of_false Bool.false_ne_true ?_
        rintro (rfl | hx)
        · exact hne rfl
        · have := hy x hx
          omega
      · rw [ih hids]
        exact (or_iff_right hne).symm

theorem le_head_of_mem (h : ids.Pairwise (· ≥ ·)) (hx : x ∈ ids) :
    x ≤ ids.head?.getD 0 := by
  rw [List.head?_eq_some_head (ne_nil_of_mem hx)]
  exact h.rel_head hx

theorem getLast_le_of_mem (h : ids.Pairwise (· ≥ ·)) (hx : x ∈ ids) :
    ids.getLast?.getD 0 ≤ x := by
  rw [List.getLast?_eq_some_getLast (ne_nil_of_mem hx)]
  exact h.rel_getLast hx

theorem jobidinstr_mem (minLast : Bool) (hne : ids ≠ []) : jobidinstr minLast ids ∈ ids := by
  unfold jobidinstr
  split
  · rw [List.getLast?_eq_some_getLast hne]
    exact getLast_mem hne
  · rw [List.head?_eq_some_head hne]
    exact head_mem hne

/-- The number in the buffer is that of the smallest or of the largest job. -/
theorem eq_jobidinstr_iff (h : ids.Pairwise (· ≥ ·)) (hx : x ∈ ids) :
    x = jobidinstr minLast ids ↔ ∀ y ∈ ids, if minLast then x ≤ y else y ≤ x := by
  have hmem := jobidinstr_mem minLast (ne_nil_of_mem hx)
  cases minLast with
  | true =>
    refine ⟨fun heq y hy => heq ▸ getLast_le_of_mem h hy, fun hall => ?_⟩
    exact le_antisymm (hall _ hmem) (getLast_le_of_mem h hx)
  | false =>
    refine ⟨fun heq y hy => heq ▸ le_head_of_mem h hy, fun hall => ?_⟩
    exact le_antisymm (le_head_of_mem h hx) (hall _ hmem)

end Ids

/-! ## Rows -/

section Rows

theorem noDigit_writeIds {col : Nat} (hcol : col ≠ 0) (rest : List Char) :
    NoDigit (writeIds ids col ++ rest) := by
  cases ids with
  | nil =>
    rw [writeIds, if_neg hcol]
    exact noDigit_cons.2 (by decide)
  | cons jobId ids =>
    rw [writeIds, if_neg hcol]
    exact noDigit_cons.2 (by decide)

/-- The jobs of a row are read as they were written, wherever the lines end. -/
theorem reads_writeIds (col : Nat) (rest : List Char) :
    Reads (writeIds ids col ++ rest) ids rest := by
  induction ids generalizing col with
  | nil =>
    rw [writeIds]
    split
    · exact .nil rfl
    · exact .nil (skipSpace_cons (by decide) rest)
  | cons jobId ids ih =>
    have hskip : ∀ tail, skipSpace ((if col = 0 then [] else [' ']) ++ printInt jobId ++ tail) =
        printInt jobId ++ tail := by
      intro tail
      split
      · exact skipSpace_printInt jobId tail
      · exact (skipSpace_cons (by decide) _).trans (skipSpace_printInt jobId tail)
    rw [writeIds, append_assoc]
    refine Reads.cons (hskip _) ?_ ?_
    · split
      · exact noDigit_cons.2 (by decide)
      · exact noDigit_writeIds ids (Nat.succ_ne_zero col) rest
    · split
      · exact Reads.of_skipSpace (skipSpace_cons (by decide) _) (ih 0)
      · exact ih (col + 1)

theorem scanLines_reads {t : List Char} (n : Nat) (ids : List Int) {s : List Char}
    (hlen : 10 * n ≤ ids.length) (hr : Reads s ids t) :
    ∃ s', scanLines n s = some (ids.take (10 * n), s') ∧ Reads s' (ids.drop (10 * n)) t ∧
      (n ≠ 0 → skipSpace s' = s') := by
  induction n generalizing s ids with
  | zero => exact ⟨s, rfl, hr, fun h => absurd rfl h⟩
  | succ n ih =>
    have hten : (ids.take 10).length = 10 := by
      rw [length_take]
      omega
    have hr' : Reads s (ids.take 10 ++ ids.drop 10) t := by rwa [take_append_drop]
    obtain ⟨s₁, hscan, hr₁⟩ := hr'.append
    rw [hten] at hscan
    obtain ⟨s₂, hlines, hr₂, hskip⟩ := ih (ids.drop 10)
      (by rw [length_drop]; omega) (Reads.of_skipSpace (skipSpace_skipSpace s₁) hr₁)
    refine ⟨s₂, ?_, ?_, fun _ => ?_⟩
    · simp only [scanLines, hscan, hlines, Option.bind_eq_bind, Option.bind_some,
        Option.pure_def, Option.some.injEq, Prod.mk.injEq, and_true]
      rw [Nat.mul_succ, Nat.add_comm, take_add]
    · rwa [drop_drop, Nat.add_comm, ← Nat.mul_succ] at hr₂
    · by_cases hn : n = 0
      · subst hn
        obtain ⟨-, rfl⟩ := Prod.mk.inj (Option.some.inj hlines)
        exact skipSpace_skipSpace s₁
      · exact hskip hn

/-- The jobs of a row are read, and nothing of what comes after them. -/
theorem scanIds_reads {s t : List Char} (hr : Reads s ids t)
    (ht : skipSpace t = t) (hnil : ids = [] → s = t) :
    scanIds ids.length s = some (ids, t) := by
  obtain ⟨s₁, hlines, hr₁, hskip⟩ :=
    scanLines_reads (ids.length / 10) ids (Nat.mul_div_le ids.length 10) hr
  have hlen : (ids.drop (10 * (ids.length / 10))).length = ids.length % 10 := by
    rw [length_drop]
    omega
  obtain ⟨s₂, hscan, hskip₂⟩ := hr₁
  rw [hlen] at hscan
  rw [ht] at hskip₂
  simp only [scanIds, hlines, hscan, Option.bind_eq_bind, Option.bind_some, Option.pure_def,
    take_append_drop, Option.some.injEq, Prod.mk.injEq, true_and]
  split
  · rename_i hmod
    rw [hmod] at hscan
    obtain ⟨-, rfl⟩ := Prod.mk.inj (Option.some.inj hscan)
    by_cases hdiv : ids.length / 10 = 0
    · have hids : ids = [] := length_eq_zero_iff.1 (by omega)
      rw [hdiv] at hlines
      obtain ⟨-, rfl⟩ := Prod.mk.inj (Option.some.inj hlines)
      exact hnil hids
    · exact (hskip hdiv).symm.trans hskip₂
  · exact hskip₂

theorem scanInt_space (n : Int) {s : List Char} (h : NoDigit s) :
    scanInt (' ' :: (printInt n ++ s)) = some (n, s) :=
  (scanInt_congr (skipSpace_cons (by decide) _)).trans (scanInt_printInt n h)

/-- The row of a file. -/
def rowOf (minLast : Bool) (file : EventFile α) : IndexRow :=
  let ids := getJobIdIndexFromEventFile file
  ⟨jobidinstr minLast ids, jobidinstr minLast ids, ids⟩

/-- **A row is read back as it was written.** -/
theorem readRow_rowText (file : EventFile α) {rest : List Char} (hrest : skipSpace rest = rest) :
    readRow (rowText minLast file ++ rest) = some (rowOf minLast file, rest) := by
  obtain ⟨ids, hids⟩ : ∃ ids, getJobIdIndexFromEventFile file = ids := ⟨_, rfl⟩
  have hskip : skipSpace ('\n' :: (writeIds ids 0 ++ rest)) = writeIds ids 0 ++ rest := by
    rw [skipSpace_cons (by decide)]
    cases ids with
    | nil => exact hrest
    | cons jobId ids =>
      rw [writeIds, if_pos rfl, nil_append, append_assoc]
      exact skipSpace_printInt jobId _
  have hscan : scanIds ids.length (writeIds ids 0 ++ rest) = some (ids, rest) := by
    refine scanIds_reads ids (reads_writeIds ids 0 rest) hrest ?_
    rintro rfl
    rfl
  unfold readRow rowText rowOf writeJobIdIndexToIndexFile
  rw [hids]
  simp only [cons_append, append_assoc, scanChar, if_true, Option.bind_eq_bind,
    Option.bind_some]
  rw [scanInt_printInt _ (by simp)]
  simp only [Option.bind_some]
  rw [scanInt_space _ (by simp)]
  simp only [Option.bind_some]
  rw [scanInt_space _ (by simp)]
  simp only [Option.bind_some]
  rw [scanInt_space _ (by simp)]
  simp only [Option.bind_some, hskip, Int.toNat_natCast, hscan, Option.pure_def]

theorem getJobIdFromEvent_of_ne {e : EventRec α} (h : getJobIdFromEvent e ≠ 0) :
    e.type.jobRelated = true ∧ getJobIdFromEvent e = e.jobId := by
  unfold getJobIdFromEvent at *
  split_ifs at h ⊢ with hrel
  · exact ⟨hrel, rfl⟩
  · exact absurd rfl h

theorem mem_index_of_related {e : EventRec α} (he : e ∈ file.events)
    (hrel : e.type.jobRelated = true) : e.jobId ∈ getJobIdIndexFromEventFile file :=
  mem_index.2 ⟨e, he, by rw [getJobIdFromEvent, if_pos hrel], (e.pos hrel).ne'⟩

/-- **A row is found for a job that is the smallest, or the largest, of its file.** -/
theorem rowOf_has_iff {jobIds : List Int} : (rowOf minLast file).has jobIds = true ↔
    ∃ e ∈ file.events, OfJobs jobIds e ∧ Outermost minLast file e := by
  have hp := pairwise_index file
  have hge := hp.imp (S := (· ≥ ·)) LT.lt.le
  have hsearch : ∀ x n : Int, (!(x > n || x < n) &&
      searchIds x (getJobIdIndexFromEventFile file)) = true ↔
        x = n ∧ x ∈ getJobIdIndexFromEventFile file := by
    intro x n
    have hanti : x ≤ n ∧ n ≤ x ↔ x = n := le_antisymm_iff.symm
    simp [searchIds_iff hp, hanti]
  rw [IndexRow.has, any_eq_true]
  constructor
  · rintro ⟨q, hq, hx⟩
    obtain ⟨heq, hmem⟩ := (hsearch _ _).1 hx
    have hall := (eq_jobidinstr_iff hge hmem).1 heq
    obtain ⟨e, he, hid, hne⟩ := mem_index.1 hmem
    obtain ⟨hrel, hjob⟩ := getJobIdFromEvent_of_ne (hid ▸ hne)
    rw [hjob] at hid
    refine ⟨e, he, ⟨hrel, q, hq, hid.symm⟩, fun e' he' hrel' => ?_⟩
    rw [hid]
    exact hall _ (mem_index_of_related he' hrel')
  · rintro ⟨e, he, ⟨hrel, q, hq, hid⟩, hout⟩
    have hmem := mem_index_of_related he hrel
    refine ⟨q, hq, (hsearch _ _).2 ?_⟩
    rw [hid]
    refine ⟨(eq_jobidinstr_iff hge hmem).2 fun y hy => ?_, hmem⟩
    obtain ⟨e', he', rfl, hne⟩ := mem_index.1 hy
    obtain ⟨hrel', hjob⟩ := getJobIdFromEvent_of_ne hne
    rw [hjob]
    exact hout e' he' hrel'

end Rows

/-! ## The index of the files -/

variable (files : List (EventFile α))

section Index

/-- The rows of the files, the oldest first. -/
def rowsText (minLast : Bool) (files : List (EventFile α)) : List Char :=
  files.reverse.flatMap (rowText minLast)

@[simp] theorem rowsText_cons (file : EventFile α) (files : List (EventFile α)) :
    rowsText minLast (file :: files) = rowsText minLast files ++ rowText minLast file := by
  simp [rowsText]

theorem skipSpace_rowsText :
    skipSpace (rowsText minLast files) = rowsText minLast files := by
  unfold rowsText
  cases files.reverse with
  | nil => rfl
  | cons file files => exact skipSpace_of_head (by decide) _

/-- The index is the one of the files: its first 80 characters begin with a header that gives
their number, and their rows follow. What an earlier header leaves behind it is `pad`. -/
def Describes (minLast : Bool) (index : List Char) (files : List (EventFile α)) : Prop :=
  ∃ (lastUpdate : Int) (pad : List Char),
    (headerText (printInt volclavaVersion) files.length lastUpdate ++ pad).length = 80 ∧
    index = headerText (printInt volclavaVersion) files.length lastUpdate ++ pad ++
      rowsText minLast files

theorem length_headerText_le {rows : Nat} (h : rows < 2 ^ 31) (now : Int32) :
    (headerText (printInt volclavaVersion) rows now.toInt).length ≤ 80 := by
  have hrows : (printInt rows).length ≤ 11 := length_printInt_le (k := 10) (by norm_num)
    (by rw [Int.natAbs_natCast]; omega)
  have hnow : (printInt now.toInt).length ≤ 11 := by
    refine length_printInt_le (k := 10) (by norm_num) ?_
    have := now.le_toInt
    have := now.toInt_lt
    omega
  have htag : indexFileTag.length = 21 := by decide
  have hver : (printInt volclavaVersion).length = 2 := by decide
  simp only [headerText, length_append, length_cons, htag, hver]
  omega

/-- Writing the header leaves the rows as they are. -/
theorem overwrite_describes (minLast : Bool) (files : List (EventFile α)) {head : List Char}
    (hhead : head.length = 80) (hlen : files.length < 2 ^ 31) (now : Int32) :
    Describes minLast (overwrite (head ++ rowsText minLast files)
      (headerText (printInt volclavaVersion) files.length now.toInt)) files := by
  have hle := length_headerText_le hlen now
  refine ⟨now.toInt, head.drop (headerText (printInt volclavaVersion) files.length
    now.toInt).length, ?_, ?_⟩
  · rw [length_append, length_drop]
    omega
  · rw [overwrite, drop_append_of_le_length (by omega), append_assoc]

variable {files : List (EventFile α)}

theorem scanHeader_describes {index : List Char}
    (h : Describes minLast index files) :
    ∃ lastUpdate, scanHeader index =
      some (indexFileTag, printInt volclavaVersion, (files.length : Int), lastUpdate) := by
  obtain ⟨lastUpdate, pad, -, rfl⟩ := h
  obtain ⟨r, hr⟩ := scanInt_isSome lastUpdate (pad ++ rowsText minLast files)
  refine ⟨r.1, ?_⟩
  have htag : ∀ s, scanWord (indexFileTag ++ ' ' :: s) = some (indexFileTag, ' ' :: s) :=
    scanWord_append (by decide) (by decide) (by decide)
  have hver : ∀ s, scanWord (' ' :: (printInt volclavaVersion ++ ' ' :: s)) =
      some (printInt volclavaVersion, ' ' :: s) := fun s =>
    (scanWord_space (by decide) _).trans
      (scanWord_append (by decide) (by decide) (by decide) s)
  unfold scanHeader headerText
  simp only [append_assoc, cons_append]
  rw [htag]
  simp only [Option.bind_eq_bind, Option.bind_some]
  rw [hver]
  simp only [Option.bind_some]
  rw [scanInt_space _ (by simp)]
  simp only [Option.bind_some]
  rw [scanInt_congr (skipSpace_cons (by decide) _), hr]
  rfl

theorem initJobIdIndexS_describes {index : List Char}
    (h : Describes minLast index files) :
    initJobIdIndexS index = some ⟨rowsText minLast files, files.length, 0⟩ := by
  obtain ⟨lastUpdate, hscan⟩ := scanHeader_describes h
  obtain ⟨n, pad, hlen, rfl⟩ := h
  unfold initJobIdIndexS
  rw [hscan]
  simp only [ne_eq, not_true_eq_false, if_false, Option.some.injEq, JobIdIndexS.mk.injEq, and_true]
  rw [← hlen, drop_left]

/-- Updating an index of all files but the newest, or of another number of files, or writing it
anew, gives the index of all files. -/
theorem updateJobIdIndexFile_describes {indexFile : Option (List Char)}
    (hlen : (file :: files).length < 2 ^ 31)
    (h : ∀ index ∈ indexFile, ∃ older, older <:+ files ∧ Describes minLast index older)
    (now : Int32) :
    ∃ index, updateJobIdIndexFile minLast indexFile (file :: files) now = some index ∧
      Describes minLast index (file :: files) := by
  have hblank : blankHeader.length = 80 := by decide
  have hrebuilt := overwrite_describes minLast (file :: files) hblank hlen now
  have hnew : Describes minLast
      (writeIndex minLast (blankHeader, printInt volclavaVersion, 0, file :: files) now)
      (file :: files) := by
    simpa [writeIndex, rowsText] using hrebuilt
  unfold updateJobIdIndexFile openIndex
  cases indexFile with
  | none => exact ⟨_, rfl, hnew⟩
  | some index =>
    obtain ⟨older, hsuff, hdesc⟩ := h index rfl
    obtain ⟨lastUpdate, hscan⟩ := scanHeader_describes hdesc
    simp only [hscan, ne_eq, not_true_eq_false, if_false]
    by_cases hrows : ((file :: files).length : Int) = older.length + 1
    · -- one row is added to those of all the other files
      rw [if_pos hrows]
      rw [length_cons] at hrows
      obtain rfl : older = files := hsuff.eq_of_length (by omega)
      obtain ⟨n, pad, hhead, rfl⟩ := hdesc
      refine ⟨_, rfl, ?_⟩
      have happ := overwrite_describes minLast (file :: older) hhead hlen now
      rw [rowsText_cons, ← append_assoc] at happ
      simpa [writeIndex] using happ
    · rw [if_neg hrows]
      exact ⟨_, rfl, hnew⟩

/-- The index, when there is one, describes the rotated files there were when it was last
updated. -/
def IndexInv (minLast : Bool) (d : LogDir α) : Prop :=
  d.rotated.length < 2 ^ 31 →
    ∀ index ∈ d.index, ∃ older, older <:+ d.rotated ∧ Describes minLast index older

theorem logStep_inv (d : LogDir α) (r : Rotation α) (h : IndexInv minLast d) :
    IndexInv minLast (logStep minLast d r) := by
  obtain ⟨file, update⟩ := r
  intro hlen index hindex
  have hprev : ∀ index ∈ d.index, ∃ older, older <:+ d.rotated ∧ Describes minLast index older :=
    h (by cases update <;> exact (Nat.lt_succ_self _).trans hlen)
  cases update with
  | none =>
    obtain ⟨older, hsuff, hdesc⟩ := hprev index hindex
    exact ⟨older, hsuff.trans (suffix_cons file d.rotated), hdesc⟩
  | some now =>
    have hlen : (file :: d.rotated).length < 2 ^ 31 := hlen
    obtain ⟨index', hupd, hdesc⟩ := updateJobIdIndexFile_describes hlen hprev now
    obtain rfl : index' = index := Option.some.inj (hupd.symm.trans hindex)
    exact ⟨_, suffix_rfl, hdesc⟩

theorem rotated_run (d : LogDir α) (rotations : List (Rotation α)) :
    (Run.run (logStep minLast) d rotations).rotated =
      (rotations.map (·.file)).reverse ++ d.rotated := by
  induction rotations generalizing d with
  | nil => rfl
  | cons r rotations ih =>
    have hstep : (logStep minLast d r).rotated = r.file :: d.rotated := by
      obtain ⟨file, update⟩ := r
      cases update <;> rfl
    rw [Run.run_cons, ih, hstep, map_cons, reverse_cons, append_assoc, singleton_append]

/-- After a rotation with its update the index describes all rotated files. -/
theorem logStep_describes {d : LogDir α} (h : IndexInv minLast d) (file : EventFile α) (now : Int32)
    (hlen : d.rotated.length + 1 < 2 ^ 31) :
    ∃ index, (logStep minLast d ⟨file, some now⟩).index = some index ∧
      Describes minLast index (file :: d.rotated) :=
  updateJobIdIndexFile_describes hlen (h (by omega)) now

end Index

/-! ## The walk over the rows -/

section Walk

variable {d : LogDir α} {jobIds : List Int} {live : List (EventRec α)}

/-- The rows of the files from number `m` on down are left to be read. -/
structure AtRow (minLast : Bool) (d : LogDir α) (m : Nat) (indexS : JobIdIndexS) : Prop where
  le : m ≤ d.rotated.length
  fp : indexS.fp = rowsText minLast (d.rotated.take m)
  totalRows : indexS.totalRows = d.rotated.length
  curRow : indexS.curRow = d.rotated.length - m

/-- The row of the file is found for one of the jobs. -/
def Found (minLast : Bool) (jobIds : List Int) (file : EventFile α) : Prop :=
  ∃ e ∈ file.events, OfJobs jobIds e ∧ Outermost minLast file e

instance (minLast : Bool) (jobIds : List Int) (file : EventFile α) :
    Decidable (Found minLast jobIds file) := by
  unfold Found
  infer_instance

/-- What is read from file number `m` on: the files with a row that is found for one of the jobs,
but not file number one, and `lsb.events`. -/
def hits (minLast : Bool) (d : LogDir α) (live : List (EventRec α)) (jobIds : List Int) (m : Nat) :
    List (EventRec α) :=
  (((d.rotated.take m).drop 1).reverse.filter (Found minLast jobIds ·)).flatMap
      (·.events.filter (checkJobEventAndJobId jobIds)) ++
    live.filter (checkJobEventAndJobId jobIds)

theorem file_eq {m : Nat} (h : d.rotated[m]? = some file) : d.file (m + 1 : Nat) = file.events := by
  have : ((m + 1 : Nat) - 1 : Int).toNat = m := by omega
  rw [LogDir.file, this, h]
  rfl

/-- File number one is not read. -/
theorem hits_one : hits minLast d live jobIds 1 = live.filter (checkJobEventAndJobId jobIds) := by
  have hnil : (d.rotated.take 1).drop 1 = [] := by
    rw [drop_eq_nil_iff, length_take]
    omega
  rw [hits, hnil]
  rfl

theorem hits_succ {m : Nat} (h : d.rotated[m + 1]? = some file) :
    hits minLast d live jobIds (m + 2) =
      (if Found minLast jobIds file then file.events.filter (checkJobEventAndJobId jobIds)
        else []) ++ hits minLast d live jobIds (m + 1) := by
  have hlt := (List.getElem?_eq_some_iff.1 h).1
  have hsplit : (d.rotated.take (m + 2)).drop 1 = (d.rotated.take (m + 1)).drop 1 ++ [file] := by
    rw [take_add_one, h, Option.toList_some, drop_append_of_le_length]
    rw [length_take]
    omega
  rw [hits, hits, hsplit, reverse_append, reverse_singleton, singleton_append, filter_cons]
  split_ifs <;> simp_all

theorem take_succ_rows {m : Nat} (h : d.rotated[m]? = some file) :
    rowsText minLast (d.rotated.take (m + 1)) =
      rowText minLast file ++ rowsText minLast (d.rotated.take m) := by
  rw [take_add_one, h]
  simp [rowsText]

theorem length_rowsText_le (minLast : Bool) (files : List (EventFile α)) :
    files.length ≤ (rowsText minLast files).length := by
  induction files with
  | nil => exact Nat.zero_le _
  | cons file files ih =>
    rw [rowsText_cons, length_append, length_cons]
    exact Nat.add_le_add ih (Nat.succ_le_succ (Nat.zero_le _))

/-- One call: it goes on to the next file with events of the jobs, or to `lsb.events`. -/
theorem getNextFileNumFromIndexS_spec (live : List (EventRec α)) (jobIds : List Int) (fuel m : Nat)
    {indexS : JobIdIndexS} (hat : AtRow minLast d (m + 1) indexS) (hfuel : m < fuel) :
    (∃ indexS', getNextFileNumFromIndexS jobIds fuel indexS = (0, indexS') ∧
      hits minLast d live jobIds (m + 1) = live.filter (checkJobEventAndJobId jobIds)) ∨
    ∃ k indexS', getNextFileNumFromIndexS jobIds fuel indexS = (((k + 2 : Nat) : Int), indexS') ∧
      k < m ∧ AtRow minLast d (k + 1) indexS' ∧ hits minLast d live jobIds (m + 1) =
        (d.file (k + 2 : Nat)).filter (checkJobEventAndJobId jobIds) ++
          hits minLast d live jobIds (k + 1) := by
  induction fuel generalizing m indexS with
  | zero => exact absurd hfuel (Nat.not_lt_zero m)
  | succ fuel ih =>
    obtain ⟨hle, hfp, htotal, hcur⟩ := hat
    rw [getNextFileNumFromIndexS]
    cases m with
    | zero =>
      -- the last row is not read
      have hlast : indexS.curRow + 1 = indexS.totalRows := by rw [htotal, hcur]; push_cast; ring
      rw [if_pos hlast]
      exact .inl ⟨_, rfl, hits_one⟩
    | succ m =>
      have hnot : ¬ indexS.curRow + 1 = indexS.totalRows := by
        rw [htotal, hcur]
        push_cast
        omega
      obtain ⟨file, hfile⟩ : ∃ file, d.rotated[m + 1]? = some file :=
        ⟨_, List.getElem?_eq_getElem (by omega)⟩
      have hread : readRow indexS.fp =
          some (rowOf minLast file, rowsText minLast (d.rotated.take (m + 1))) := by
        rw [hfp, take_succ_rows hfile]
        exact readRow_rowText file (skipSpace_rowsText _)
      have hat' : AtRow minLast d (m + 1) { indexS with
          fp := rowsText minLast (d.rotated.take (m + 1)), curRow := indexS.curRow + 1 } :=
        ⟨by omega, rfl, htotal, by show indexS.curRow + 1 = _; rw [hcur]; push_cast; ring⟩
      rw [if_neg hnot, hread]
      simp only
      by_cases hhas : Found minLast jobIds file
      · rw [if_pos (rowOf_has_iff.2 hhas)]
        refine .inr ⟨m, _, ?_, Nat.lt_succ_self m, hat', ?_⟩
        · rw [htotal, hcur]
          congr 1
          push_cast
          ring
        · rw [hits_succ hfile, file_eq hfile, if_pos hhas]
      · rw [if_neg fun h => hhas (rowOf_has_iff.1 h)]
        have hskip : hits minLast d live jobIds (m + 1 + 1) =
            hits minLast d live jobIds (m + 1) := by
          rw [hits_succ hfile, if_neg hhas, nil_append]
        rw [hskip]
        rcases ih m hat' (by omega) with hdone | ⟨k, indexS', hget, hk, hrest⟩
        · exact .inl hdone
        · exact .inr ⟨k, indexS', hget, Nat.lt_succ_of_lt hk, hrest⟩

/-- The calls together. -/
theorem readIndexed_eq_hits (m : Nat) {indexS : JobIdIndexS} (hat : AtRow minLast d (m + 1) indexS)
    {fuel : Nat} (hfuel : m < fuel) {curOpenFile : Int} (hcur : curOpenFile ≠ 1) :
    readIndexed d live jobIds fuel curOpenFile indexS = hits minLast d live jobIds (m + 1) := by
  induction fuel generalizing m indexS curOpenFile with
  | zero => exact absurd hfuel (Nat.not_lt_zero m)
  | succ fuel ih =>
    have hlen : m < indexS.fp.length + 1 := by
      have := length_rowsText_le minLast (d.rotated.take (m + 1))
      rw [hat.fp]
      rw [length_take, Nat.min_eq_left hat.le] at this
      omega
    rw [readIndexed, nextOpenFile, if_neg hcur]
    rcases getNextFileNumFromIndexS_spec live jobIds _ m hat hlen with
      ⟨indexS', hget, hhits⟩ | ⟨k, indexS', hget, hk, hat', hhits⟩
    · rw [hget, hhits]
      rfl
    · rw [hget, hhits]
      have hne : ¬ ((k + 2 : Nat) : Int) = -1 := by omega
      have hne0 : ¬ ((k + 2 : Nat) : Int) = 0 := by omega
      simp only [if_neg hne, if_neg hne0]
      rw [ih k hat' (by omega) (by omega)]

/-- The events of the jobs among others. -/
def jobEvents (jobIds : List Int) (events : List (EventRec α)) : List (EventRec α) :=
  events.filter fun e => OfJobs jobIds e

theorem jobEvents_append (jobIds : List Int) (l l' : List (EventRec α)) :
    jobEvents jobIds (l ++ l') = jobEvents jobIds l ++ jobEvents jobIds l' :=
  filter_append ..

/-- The events of the jobs are among those looked at. -/
theorem jobEvents_filter (jobIds : List Int) (events : List (EventRec α)) :
    jobEvents jobIds (events.filter (checkJobEventAndJobId jobIds)) = jobEvents jobIds events := by
  rw [jobEvents, filter_filter]
  refine filter_congr fun e _ => ?_
  rw [Bool.and_eq_left_iff_imp]
  intro h
  obtain ⟨hrel, q, hq, hid⟩ := of_decide_eq_true h
  have hany : jobIds.any (fun jobId => arrayJobId jobId == e.jobId) = true :=
    any_eq_true.2 ⟨q, hq, by simpa using hid⟩
  rw [checkJobEventAndJobId, hrel, hany, Bool.or_true]
  rfl

theorem jobEvents_eq_nil_iff {events : List (EventRec α)} :
    jobEvents jobIds events = [] ↔ ∀ e ∈ events, ¬OfJobs jobIds e := by
  rw [jobEvents, filter_eq_nil_iff]
  simp

/-- The walk finds the events of the jobs in the files whose rows are found, but file number one. -/
theorem jobEvents_hits (m : Nat) : jobEvents jobIds (hits minLast d live jobIds m) =
    jobEvents jobIds ((((d.rotated.take m).drop 1).reverse.filter
      (Found minLast jobIds ·)).flatMap (·.events)) ++ jobEvents jobIds live := by
  rw [hits, jobEvents_append, jobEvents_filter]
  congr 1
  generalize ((d.rotated.take m).drop 1).reverse.filter (Found minLast jobIds ·) = found
  induction found with
  | nil => rfl
  | cons file found ih =>
    rw [flatMap_cons, flatMap_cons, jobEvents_append, jobEvents_append, jobEvents_filter, ih]

/-- What is lost when only some files are read. -/
theorem length_jobEvents_filter (jobIds : List Int) (p : EventFile α → Bool)
    (files : List (EventFile α)) :
    (jobEvents jobIds (files.flatMap (·.events))).length =
      (jobEvents jobIds ((files.filter p).flatMap (·.events))).length +
        (jobEvents jobIds ((files.filter (!p ·)).flatMap (·.events))).length := by
  induction files with
  | nil => rfl
  | cons file files ih =>
    rw [flatMap_cons, jobEvents_append, length_append, ih]
    cases hp : p file <;> simp [hp, jobEvents_append] <;> omega

/-- Nothing is lost when the other files have no events of the jobs. -/
theorem jobEvents_filter_eq {p : EventFile α → Bool} {files : List (EventFile α)}
    (h : ∀ file ∈ files, p file = false → jobEvents jobIds file.events = []) :
    jobEvents jobIds ((files.filter p).flatMap (·.events)) =
      jobEvents jobIds (files.flatMap (·.events)) := by
  induction files with
  | nil => rfl
  | cons file files ih =>
    obtain ⟨hfile, hrest⟩ := forall_mem_cons.1 h
    rw [flatMap_cons, jobEvents_append, ← ih hrest]
    cases hp : p file with
    | true => rw [filter_cons_of_pos hp, flatMap_cons, jobEvents_append]
    | false =>
      rw [filter_cons_of_neg (by simp [hp]), hfile hp, nil_append]

/-- Reading some of the files, but not the newest one, finds everything exactly when the others have
no events of the jobs. -/
theorem kept_eq_iff {p : EventFile α → Bool} {files : List (EventFile α)}
    {newest rest : List (EventRec α)} :
    jobEvents jobIds ((files.filter p).flatMap (·.events)) ++ rest =
        jobEvents jobIds (files.flatMap (·.events)) ++ (newest ++ rest) ↔
      newest = [] ∧ ∀ file ∈ files, p file = false → jobEvents jobIds file.events = [] := by
  constructor
  · intro h
    have hlost := length_jobEvents_filter jobIds p files
    have hlength := congrArg List.length h
    rw [length_append, length_append, length_append] at hlength
    refine ⟨length_eq_zero_iff.1 (by omega), fun file hfile hp => ?_⟩
    have hnone : jobEvents jobIds ((files.filter (!p ·)).flatMap (·.events)) = [] :=
      length_eq_zero_iff.1 (by omega)
    refine jobEvents_eq_nil_iff.2 fun e he => jobEvents_eq_nil_iff.1 hnone e ?_
    exact mem_flatMap.2 ⟨file, mem_filter.2 ⟨hfile, by simp [hp]⟩, he⟩
  · rintro ⟨rfl, h⟩
    rw [jobEvents_filter_eq h, nil_append]

end Walk

def submitted (jobId : Int) (h : 0 < jobId) : EventRec Unit := ⟨.jobNew, jobId, fun _ => h, ()⟩

def finished (jobId : Int) (h : 0 < jobId) : EventRec Unit := ⟨.jobFinish, jobId, fun _ => h, ()⟩

end Volclava
