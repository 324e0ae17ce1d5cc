import Volclava.ShmRing

/-!
# Readers of the shared-memory segment

A query daemon registers when it is forked and then reads the jobs published since, from the tail at
its registration on. It finds its slot by its process id, and entries are dropped once no registered
daemon needs them.

Two tests are too coarse for that. The slot is looked up without asking whether it is valid, so a
slot that was given up and still records the same process id is taken if it stands behind the
daemon's own. And an entry goes as soon as its job was submitted before the oldest fork, although it
may have been published after it.

- `Shm.selectLoop_eq`: what the loop of a query collects.
- `Shm.ReaderInv`: every daemon has its slot, and the entries it needs are there.
- `readers_meet_published`: what every daemon selects in runs that avoid the two cases.
- `meets_old_or_misses_new`: a run of each kind in which a daemon does not meet what it should.
-/

namespace Volclava

open Xdr List

namespace Shm

variable {z : ShmSizes}

/-! ## Query daemons -/

/-- A live query daemon. `start` is the number of jobs published before it was registered, if that
succeeded; `currentReaderIndex` is its static variable. -/
structure QueryDaemon where
  pid : Nat
  forkTime : Int
  start : Option Nat
  currentReaderIndex : Option Nat
  deriving DecidableEq

/-- The segment with the live query daemons and the time of the last step. -/
structure ReaderSys where
  shm : Shm
  daemons : List QueryDaemon
  clock : Int

def ReaderSys.start : ReaderSys := ⟨init, [], 0⟩

inductive ReaderEvent where
  | register (pid : Nat) (now : Int)
  | submit (job : ShmJob) (elems : List ShmJob) (attached : Nat) (now : Int)
  | prune (alive : Nat → Bool)
  | query (pid : Nat)
  | exit (pid : Nat)

/-- The first query of a daemon sets its static variable. -/
def QueryDaemon.lookup (s : Shm) (d : QueryDaemon) : QueryDaemon :=
  { d with currentReaderIndex := findReader s d.pid d.currentReaderIndex }

def readerStep (z : ShmSizes) (sys : ReaderSys) : ReaderEvent → ReaderSys
  | .register pid now =>
    let r := registerReaderToShm sys.shm pid now
    { shm := r.2
      daemons := ⟨pid, now, r.1.map fun _ => sys.shm.published.length, none⟩ :: sys.daemons
      clock := now }
  | .submit job elems attached now =>
    { sys with shm := qmbdShmSyncSubmitJob z sys.shm job elems attached, clock := now }
  | .prune alive => { sys with shm := pruneOldJobs z sys.shm alive }
  | .query pid =>
    { sys with daemons := sys.daemons.map fun d => if d.pid = pid then d.lookup sys.shm else d }
  | .exit pid => { sys with daemons := sys.daemons.filter fun d => d.pid ≠ pid }

/-- Process ids are unique among live processes, `kill` reaches those, and no job is submitted after
it is published. -/
def Legal (sys : ReaderSys) : ReaderEvent → Prop
  | .register pid now => sys.clock ≤ now ∧ ∀ d ∈ sys.daemons, d.pid ≠ pid
  | .submit job elems _ now => sys.clock ≤ now ∧ ∀ j ∈ job :: elems, j.submitTime ≤ now
  | .prune alive => ∀ d ∈ sys.daemons, alive d.pid = true
  | .query _ => True
  | .exit _ => True

instance (sys : ReaderSys) (e : ReaderEvent) : Decidable (Legal sys e) := by
  cases e <;> unfold Legal <;> infer_instance

/-- The slots behind the one the next reader gets. -/
def laterSlots (readers : List ReaderInfo) : List ReaderInfo :=
  match readers.findIdx? fun r => !r.valid with
  | none => []
  | some slot => readers.drop (slot + 1)

/-- A new reader's process id is not recorded behind its slot and its fork time is set; jobs are not
submitted before the fork of a registered daemon that is still there when they are published. -/
def Traceable (sys : ReaderSys) : ReaderEvent → Prop
  | .register pid now => now ≠ 0 ∧ ∀ r ∈ laterSlots sys.shm.queryReaderInfo, r.pid ≠ pid
  | .submit job elems _ _ =>
    ∀ d ∈ sys.daemons, d.start ≠ none → ∀ j ∈ job :: elems, d.forkTime ≤ j.submitTime
  | .prune _ => True
  | .query _ => True
  | .exit _ => True

instance (sys : ReaderSys) (e : ReaderEvent) : Decidable (Traceable sys e) := by
  cases e <;> unfold Traceable <;> infer_instance

/-! ## The loop of a query -/

/-- The jobs published since there were `a` of them, without arrays, by their position. -/
def positionsSince (s : Shm) (a : Nat) : List Nat :=
  (List.range' a (s.published.length - a)).filter fun i =>
    (s.published[i]?).any fun p => !p.job.isArray

/-- Their slots. -/
def slotsSince (z : ShmSizes) (s : Shm) (a : Nat) : List Nat :=
  (positionsSince s a).map fun i => i % z.jobs

variable {s : Shm} {readers : List ReaderInfo} {d : QueryDaemon} {a : Nat}

theorem positionsSince_of_ge (h : s.published.length ≤ a) :
    positionsSince s a = [] := by
  rw [positionsSince, Nat.sub_eq_zero_of_le h]
  rfl

theorem positionsSince_cons {p : Published} (hp : s.published[a]? = some p) :
    positionsSince s a =
      if p.job.isArray then positionsSince s (a + 1) else a :: positionsSince s (a + 1) := by
  have hlt : a < s.published.length := (List.getElem?_eq_some_iff.mp hp).1
  have hlen : s.published.length - a = s.published.length - (a + 1) + 1 := by omega
  rw [positionsSince, hlen, range'_succ, filter_cons, hp, Option.any_some]
  cases p.job.isArray with
  | true => rfl
  | false => rfl

/-- How the loop keeps a slot that matches. -/
def keepSlot (lastJob : Bool) (joblist : List Nat) (slot : Nat) : List Nat :=
  if lastJob then [slot] else joblist ++ [slot]

/-- **The loop goes through the published jobs** from the position of its index on. -/
theorem selectLoop_eq (hm : MetaInv z s) (matching : JobMetaData → Bool) (lastJob : Bool)
    (fuel i : Nat) (joblist : List Nat) (hdrop : s.dropped ≤ i) (hi : i ≤ s.published.length)
    (hfuel : s.published.length ≤ i + fuel) :
    selectLoop z s matching lastJob fuel (i % z.jobs) joblist =
      ((slotsSince z s i).filter fun slot => matching (s.jobUnit slot)).foldl (keepSlot lastJob)
        joblist := by
  induction fuel generalizing i joblist with
  | zero =>
    have hend : s.published.length ≤ i := hfuel
    rw [slotsSince, positionsSince_of_ge hend]
    rfl
  | succ fuel ih =>
    rw [selectLoop]
    rcases Nat.lt_or_eq_of_le hi with hlt | heq
    · have hN := hm.lt
      have htail : i % z.jobs ≠ s.tail := by
        rw [hm.tail]
        exact Ring.slot_ne hlt (by omega)
      obtain ⟨p, hp⟩ : ∃ p, s.published[i]? = some p := ⟨_, List.getElem?_eq_getElem hlt⟩
      have hentry := hm.entry i p hdrop hp
      have hnext : (i % z.jobs + 1) % z.jobs = (i + 1) % z.jobs := Nat.mod_add_mod i z.jobs 1
      have hrest := fun l => ih (i + 1) l (by omega) (by omega) (by omega)
      rw [if_neg htail]
      simp only [hnext, hrest, hentry.used, hentry.isArray]
      rw [slotsSince, slotsSince, positionsSince_cons hp]
      cases harray : p.job.isArray with
      | true => simp
      | false =>
        cases hmatch : matching (s.jobUnit (i % z.jobs)) with
        | true => simp [hmatch, keepSlot]
        | false => simp [hmatch]
    · have htail : i % z.jobs = s.tail := by rw [hm.tail, heq]
      rw [if_pos htail, slotsSince, positionsSince_of_ge (le_of_eq heq.symm)]
      rfl

theorem foldl_keepSlot_all (slots joblist : List Nat) :
    slots.foldl (keepSlot false) joblist = joblist ++ slots := by
  induction slots generalizing joblist with
  | nil => rw [foldl_nil, append_nil]
  | cons slot slots ih =>
    rw [foldl_cons, ih]
    exact append_assoc joblist [slot] slots

theorem foldl_keepSlot_last (slots : List Nat) :
    slots.foldl (keepSlot true) [] = slots.getLast?.toList := by
  induction slots using List.reverseRecOn with
  | nil => rfl
  | append_singleton slots slot ih =>
    rw [foldl_append, List.getLast?_append_of_ne_nil _ (cons_ne_nil _ _)]
    rfl

/-! ## The slot of a daemon -/

/-- A daemon registered after `a` jobs has this slot, and will find it. -/
structure OwnSlot (z : ShmSizes) (readers : List ReaderInfo) (d : QueryDaemon) (a slot : Nat) :
    Prop where
  here : readers[slot]? = some ⟨d.pid, d.forkTime, a % z.jobs, true⟩
  last : ∀ j r, slot < j → readers[j]? = some r → r.pid ≠ d.pid
  cached : ∀ i, d.currentReaderIndex = some i → i = slot

/-- The last slot with a process id is the one that is looked up. -/
theorem readerIndex_eq {pid slot : Nat} {r : ReaderInfo} (hr : readers[slot]? = some r)
    (hpid : r.pid = pid) (hlast : ∀ j r', slot < j → readers[j]? = some r' → r'.pid ≠ pid) :
    readerIndex readers pid = some slot := by
  have hlen : slot < readers.length := (List.getElem?_eq_some_iff.mp hr).1
  -- Up to every bound behind the slot, nothing else was found.
  have hfold : ∀ n, slot + 1 ≤ n → n ≤ readers.length → (List.range n).foldl
      (fun found i => if (readers[i]?).any (·.pid == pid) then some i else found) none =
      some slot := by
    intro n hn
    induction n, hn using Nat.le_induction with
    | base =>
      intro _
      rw [range_succ, foldl_append, foldl_cons, foldl_nil, hr]
      simp [hpid]
    | succ n hn ih =>
      intro hle
      have hne : (readers[n]).pid ≠ pid := hlast n _ hn (List.getElem?_eq_getElem hle)
      rw [range_succ, foldl_append, ih (Nat.le_of_succ_le hle), foldl_cons,
        foldl_nil, List.getElem?_eq_getElem hle]
      simp [hne]
  exact hfold _ hlen le_rfl

variable {a slot : Nat}

theorem OwnSlot.findReader (h : OwnSlot z s.queryReaderInfo d a slot) :
    findReader s d.pid d.currentReaderIndex = some slot := by
  rw [Shm.findReader.eq_def]
  cases hc : d.currentReaderIndex with
  | none => exact readerIndex_eq h.here rfl h.last
  | some i => rw [h.cached i hc]

theorem OwnSlot.lookup (h : OwnSlot z s.queryReaderInfo d a slot) :
    OwnSlot z s.queryReaderInfo (d.lookup s) a slot := by
  refine ⟨h.here, h.last, ?_⟩
  intro i hi
  exact (Option.some.inj (h.findReader.symm.trans hi)).symm

/-- The slots of registered daemons are valid, so a new reader does not get one of them. -/
theorem OwnSlot.set {slot free pid : Nat} (h : OwnSlot z readers d a slot)
    (hfree : readers.findIdx? (fun r => !r.valid) = some free) (hne : d.pid ≠ pid) (now : Int)
    (index : Nat) :
    OwnSlot z (readers.set free ⟨pid, now, index, true⟩) d a slot := by
  have hslot : free ≠ slot := by
    intro heq
    subst heq
    obtain ⟨hlt, hvalid, -⟩ := List.findIdx?_eq_some_iff_getElem.mp hfree
    have hr := List.getElem?_eq_getElem hlt
    rw [h.here] at hr
    rw [← Option.some.inj hr] at hvalid
    cases hvalid
  refine ⟨?_, fun j r hj hr => ?_, h.cached⟩
  · rw [List.getElem?_set_ne hslot]
    exact h.here
  · rw [List.getElem?_set] at hr
    split_ifs at hr with heq hlt
    · rw [← Option.some.inj hr]
      exact hne.symm
    · exact h.last j r hj hr

/-- The slot a new reader gets. -/
theorem ownSlot_new {free pid : Nat} (hfree : readers.findIdx? (fun r => !r.valid) = some free)
    (hlater : ∀ r ∈ laterSlots readers, r.pid ≠ pid) (now : Int) (start : Option Nat) :
    OwnSlot z (readers.set free ⟨pid, now, a % z.jobs, true⟩) ⟨pid, now, start, none⟩ a free := by
  obtain ⟨hlt, -, -⟩ := List.findIdx?_eq_some_iff_getElem.mp hfree
  rw [laterSlots, hfree] at hlater
  refine ⟨?_, fun j r hj hr => ?_, nofun⟩
  · rw [List.getElem?_set_self hlt]
  · rw [List.getElem?_set_ne (Nat.ne_of_lt hj)] at hr
    apply hlater
    refine mem_of_getElem? (i := j - (free + 1)) ?_
    rw [List.getElem?_drop, show free + 1 + (j - (free + 1)) = j by omega]
    exact hr

theorem getElem?_dropReaders (readers : List ReaderInfo) (alive : Nat → Bool) (j : Nat) :
    (dropReaders readers alive)[j]? = (readers[j]?).map fun r =>
      if r.valid && !alive r.pid then { r with valid := false, forkTime := 0 } else r :=
  List.getElem?_map

theorem OwnSlot.dropReaders (h : OwnSlot z readers d a slot) {alive : Nat → Bool}
    (halive : alive d.pid = true) :
    OwnSlot z (dropReaders readers alive) d a slot := by
  refine ⟨?_, fun j r hj hr => ?_, h.cached⟩
  · rw [getElem?_dropReaders, h.here]
    simp [halive]
  · rw [getElem?_dropReaders, Option.map_eq_some_iff] at hr
    obtain ⟨r₀, hr₀, rfl⟩ := hr
    have hne := h.last j r₀ hj hr₀
    split_ifs
    · exact hne
    · exact hne

/-! ## The entries a daemon needs -/

/-- The jobs published since there were `a` of them are still there, and their entries say that the
daemon needs them. -/
structure Kept (z : ShmSizes) (s : Shm) (d : QueryDaemon) (a : Nat) : Prop where
  dropped : s.dropped ≤ a
  le : a ≤ s.published.length
  entry : ∀ i p, a ≤ i → s.published[i]? = some p →
    d.forkTime ≤ p.job.submitTime ∧ d.pid ∈ (s.jobUnit (i % z.jobs)).readerPids

variable {job : ShmJob}

/-- Publishing keeps the entries, and the new one records every valid reader. -/
theorem Kept.storeEntry (h : Kept z s d a) (hm : MetaInv z s)
    (hown : OwnSlot z s.queryReaderInfo d a slot)
    (hroom : s.published.length + 1 < s.dropped + z.jobs)
    (htime : d.forkTime ≤ job.submitTime) (xdr : List Byte) (o n np : Nat) (parent : Option Nat) :
    Kept z (storeEntry z s job xdr o n np parent) d a := by
  have hdrop := h.dropped
  refine ⟨h.dropped, ?_, fun i p hi hp => ?_⟩
  · show a ≤ (s.published ++ [_]).length
    rw [length_append]
    exact h.le.trans (Nat.le_add_right _ _)
  · obtain ⟨m, k, hk, ⟨hp', rfl⟩ | ⟨rfl, rfl⟩⟩ :=
      entry_storeEntry hm hroom xdr o n np parent (hdrop.trans hi) hp
    · rw [hk]
      exact h.entry i p hi hp'
    · rw [hk]
      refine ⟨htime, mem_map.mpr ⟨⟨d.pid, d.forkTime, a % z.jobs, true⟩, ?_, rfl⟩⟩
      exact mem_filter.mpr ⟨mem_of_getElem? hown.here, rfl⟩

/-- Dropping an entry from before the daemon's time keeps those it needs. -/
theorem Kept.remove (h : Kept z s d a) (hm : MetaInv z s) (hne : s.head ≠ s.tail)
    (hlt : s.dropped < a) : Kept z (removeHead z s) d a := by
  have hentry := fun i p hi hp => entry_removeHead hm hne (i := i) (p := p) (hlt.trans_le hi) hp
  rw [removeHead_of_ne hne] at hentry ⊢
  refine ⟨hlt, h.le, fun i p hi hp => ?_⟩
  rw [hentry i p hi hp]
  exact h.entry i p hi hp

/-- The first entry a daemon needs cannot go. -/
theorem Kept.not_prunable {earliest latest : Int} (h : Kept z s d a)
    (hm : MetaInv z s) (hown : OwnSlot z s.queryReaderInfo d a slot) (hne : s.head ≠ s.tail)
    (hearliest : earliest ≤ d.forkTime) (hda : s.dropped = a) :
    prunable s true earliest latest = false := by
  have hlt := hm.head_ne_tail.mp hne
  obtain ⟨p, hp⟩ : ∃ p, s.published[s.dropped]? = some p := ⟨_, List.getElem?_eq_getElem hlt⟩
  obtain ⟨htime, hpid⟩ := h.entry s.dropped p (le_of_eq hda.symm) hp
  have hsubmit := (hm.entry s.dropped p le_rfl hp).submitTime
  rw [← hm.head] at hpid hsubmit
  have hstale : isJobStale s (s.jobUnit s.head) = false := by
    rw [isJobStale, Bool.not_eq_false']
    apply any_eq_true.mpr
    refine ⟨d.pid, hpid, any_eq_true.mpr ⟨_, mem_of_getElem? hown.here, ?_⟩⟩
    simp
  have hlate : ¬ (s.jobUnit s.head).submitTime < earliest := by
    rw [hsubmit]
    omega
  simp [prunable, hstale, hlate]

/-! ## The oldest fork time -/

theorem foldl_earliest_le (readers : List ReaderInfo) (hset : ∀ r ∈ readers, r.forkTime ≠ 0)
    {e : Int} (he : e ≠ 0) :
    let m := readers.foldl
      (fun earliest r => if earliest = 0 ∨ r.forkTime < earliest then r.forkTime else earliest) e
    m ≤ e ∧ ∀ r ∈ readers, m ≤ r.forkTime := by
  induction readers generalizing e with
  | nil => exact ⟨le_rfl, nofun⟩
  | cons r readers ih =>
    have hr := hset r mem_cons_self
    have hrest := fun r' hr' => hset r' (mem_cons_of_mem _ hr')
    simp only [foldl_cons, he, false_or]
    by_cases hlt : r.forkTime < e
    · rw [if_pos hlt]
      obtain ⟨hm, hall⟩ := ih hrest hr
      exact ⟨hm.trans hlt.le, forall_mem_cons.mpr ⟨hm, hall⟩⟩
    · rw [if_neg hlt]
      obtain ⟨hm, hall⟩ := ih hrest he
      exact ⟨hm, forall_mem_cons.mpr ⟨hm.trans (not_lt.mp hlt), hall⟩⟩

/-- No valid reader was forked before the smallest fork time. -/
theorem minForkTime_le (hset : ∀ r ∈ readers, r.valid = true → r.forkTime ≠ 0) {r : ReaderInfo}
    (hr : r ∈ readers) (hvalid : r.valid = true) : minForkTime readers ≤ r.forkTime := by
  have hmem : r ∈ readers.filter (·.valid) := mem_filter.mpr ⟨hr, hvalid⟩
  have hset' : ∀ r' ∈ readers.filter (·.valid), r'.forkTime ≠ 0 :=
    forall_mem_filter.mpr hset
  rw [minForkTime]
  cases hl : readers.filter (·.valid) with
  | nil =>
    rw [hl] at hmem
    cases hmem
  | cons r₀ rest =>
    rw [hl] at hmem hset'
    -- The first one is taken because nothing is set yet.
    obtain ⟨hfirst, hall⟩ := foldl_earliest_le rest
      (fun r' hr' => hset' r' (mem_cons_of_mem _ hr')) (hset' r₀ mem_cons_self)
    rw [foldl_cons, if_pos (.inl rfl)]
    rcases mem_cons.mp hmem with rfl | hmem
    · exact hfirst
    · exact hall r hmem

/-! ## The invariant -/

/-- Every registered daemon has its slot, and the entries it needs are there. -/
structure ReaderInv (z : ShmSizes) (s : Shm) (daemons : List QueryDaemon) : Prop where
  queue : MetaInv z s
  fork : ∀ r ∈ s.queryReaderInfo, r.valid = true → r.forkTime ≠ 0
  slot : ∀ d ∈ daemons, ∀ a, d.start = some a → ∃ slot, OwnSlot z s.queryReaderInfo d a slot
  kept : ∀ d ∈ daemons, ∀ a, d.start = some a → Kept z s d a

variable {s : Shm} {daemons : List QueryDaemon}

section Steps

variable (h : ReaderInv z s daemons)
include h

theorem ReaderInv.add
    (htime : ∀ d ∈ daemons, d.start ≠ none → d.forkTime ≤ job.submitTime) (parent : Option Nat)
    (attached : Nat) : ReaderInv z (addJobToSyncShm z s job parent attached).2 daemons := by
  have hform : ReaderInv z (formName s job) daemons :=
    ⟨h.queue.formName job, h.fork, h.slot, fun d hd a ha =>
      ⟨(h.kept d hd a ha).dropped, (h.kept d hd a ha).le, (h.kept d hd a ha).entry⟩⟩
  have hcopy : ReaderInv z (copyName z (formName s job) job) daemons :=
    ⟨hform.queue.copyName job, h.fork, h.slot, fun d hd a ha =>
      ⟨(h.kept d hd a ha).dropped, (h.kept d hd a ha).le, (h.kept d hd a ha).entry⟩⟩
  have hstore : ∀ s', ReaderInv z s' daemons → s'.published.length + 1 < s'.dropped + z.jobs →
      ∀ xdr o n np, ReaderInv z (storeEntry z s' job xdr o n np parent) daemons := by
    intro s' h' hroom xdr o n np
    refine ⟨h'.queue.storeEntry hroom job xdr o n np parent, h'.fork, h'.slot,
      fun d hd a ha => ?_⟩
    obtain ⟨slot, hown⟩ := h'.slot d hd a ha
    exact (h'.kept d hd a ha).storeEntry h'.queue hown hroom (htime d hd (by simp [ha])) xdr _ _ _ _
  rcases addJobToSyncShm_cases (z := z) s job parent attached with
    (heq | heq) | ⟨xdr, -, hq, -, ⟨-, heq⟩ | ⟨-, heq⟩⟩
  · rw [heq]
    exact h
  · rw [heq]
    exact hform
  · rw [heq]
    exact hstore _ hform (h.queue.room hq) xdr _ _ _
  · rw [heq]
    exact hstore _ hcopy (h.queue.room hq) xdr _ _ _

theorem ReaderInv.addElements {elems : List ShmJob}
    (htime : ∀ d ∈ daemons, d.start ≠ none → ∀ j ∈ elems, d.forkTime ≤ j.submitTime)
    (parent : Option Nat) (attached : Nat) :
    ReaderInv z (addElements z s parent attached elems) daemons := by
  induction elems generalizing s with
  | nil => exact h
  | cons elem elems ih =>
    rw [Shm.addElements]
    apply ih
    · exact h.add (fun d hd hs => htime d hd hs elem mem_cons_self) parent attached
    · exact fun d hd hs j hj => htime d hd hs j (mem_cons_of_mem _ hj)

theorem ReaderInv.submit {elems : List ShmJob}
    (htime : ∀ d ∈ daemons, d.start ≠ none → ∀ j ∈ job :: elems, d.forkTime ≤ j.submitTime)
    (attached : Nat) : ReaderInv z (qmbdShmSyncSubmitJob z s job elems attached) daemons := by
  have hadd := h.add (fun d hd hs => htime d hd hs job mem_cons_self) none attached
  rw [qmbdShmSyncSubmitJob]
  split_ifs
  · exact hadd.addElements (fun d hd hs j hj => htime d hd hs j (mem_cons_of_mem _ hj)) _ _
  · exact hadd

theorem ReaderInv.pruneLoop {hasValid : Bool} {earliest : Int}
    (hmin : ∀ d ∈ daemons, d.start ≠ none → hasValid = true ∧ earliest ≤ d.forkTime) (latest : Int)
    (fuel : Nat) : ReaderInv z (pruneLoop z hasValid earliest latest fuel s) daemons := by
  induction fuel generalizing s with
  | zero => exact h
  | succ fuel ih =>
    rw [Shm.pruneLoop]
    split_ifs with hgo
    · obtain ⟨hne, hprune⟩ := hgo
      apply ih
      have hreaders : (removeHead z s).queryReaderInfo = s.queryReaderInfo := by
        rw [removeHead_of_ne hne]
      refine ⟨h.queue.remove hne, ?_, ?_, fun d hd a ha => ?_⟩
      · rw [hreaders]
        exact h.fork
      · rw [hreaders]
        exact h.slot
      · obtain ⟨slot, hown⟩ := h.slot d hd a ha
        obtain ⟨hvalid, hearliest⟩ := hmin d hd (by simp [ha])
        have hk := h.kept d hd a ha
        apply hk.remove h.queue hne
        refine lt_of_le_of_ne hk.dropped fun hda => ?_
        rw [hvalid, hk.not_prunable h.queue hown hne hearliest hda] at hprune
        cases hprune
    · exact h

theorem ReaderInv.prune {alive : Nat → Bool}
    (halive : ∀ d ∈ daemons, alive d.pid = true) :
    ReaderInv z (pruneOldJobs z s alive) daemons := by
  have hfork : ∀ r ∈ dropReaders s.queryReaderInfo alive, r.valid = true → r.forkTime ≠ 0 := by
    intro r hr hvalid
    obtain ⟨r₀, hr₀, rfl⟩ := mem_map.mp hr
    by_cases hdead : (r₀.valid && !alive r₀.pid) = true
    · rw [if_pos hdead] at hvalid
      cases hvalid
    · rw [if_neg hdead] at hvalid ⊢
      exact h.fork r₀ hr₀ hvalid
  have hslot : ∀ d ∈ daemons, ∀ a, d.start = some a →
      ∃ slot, OwnSlot z (dropReaders s.queryReaderInfo alive) d a slot := by
    intro d hd a ha
    obtain ⟨slot, hown⟩ := h.slot d hd a ha
    exact ⟨slot, hown.dropReaders (halive d hd)⟩
  have hinv : ReaderInv z { s with queryReaderInfo := dropReaders s.queryReaderInfo alive }
      daemons := by
    refine ⟨?_, hfork, hslot, fun d hd a ha => ?_⟩
    · have hq := h.queue
      exact { hq with }
    · have hk := h.kept d hd a ha
      exact { hk with }
  rw [pruneOldJobs]
  apply hinv.pruneLoop
  intro d hd hs
  obtain ⟨a, ha⟩ := Option.ne_none_iff_exists'.mp hs
  obtain ⟨slot, hown⟩ := hslot d hd a ha
  have hmem := mem_of_getElem? hown.here
  have hany : (dropReaders s.queryReaderInfo alive).any (·.valid) = true :=
    any_eq_true.mpr ⟨_, hmem, rfl⟩
  refine ⟨hany, ?_⟩
  rw [if_pos hany]
  exact minForkTime_le hfork hmem rfl

theorem ReaderInv.register {pid : Nat} {now : Int}
    (hpid : ∀ d ∈ daemons, d.pid ≠ pid) (hnow : now ≠ 0)
    (hlater : ∀ r ∈ laterSlots s.queryReaderInfo, r.pid ≠ pid) :
    ReaderInv z (registerReaderToShm s pid now).2
      (⟨pid, now, (registerReaderToShm s pid now).1.map fun _ => s.published.length, none⟩ ::
        daemons) := by
  rw [registerReaderToShm.eq_def]
  cases hfree : s.queryReaderInfo.findIdx? (fun r => !r.valid) with
  | none =>
    exact ⟨h.queue, h.fork, forall_mem_cons.mpr ⟨nofun, h.slot⟩,
      forall_mem_cons.mpr ⟨nofun, h.kept⟩⟩
  | some free =>
    have hq := h.queue
    refine ⟨{ hq with }, ?_,
      fun d hd a ha => ?_, fun d hd a ha => ?_⟩
    · intro r hr hvalid
      rcases mem_or_eq_of_mem_set hr with hr | rfl
      · exact h.fork r hr hvalid
      · exact hnow
    · rcases mem_cons.mp hd with rfl | hd
      · obtain rfl : s.published.length = a := Option.some.inj ha
        have hnew := ownSlot_new (z := z) (a := s.published.length) hfree hlater now
          (some s.published.length)
        rw [← hq.tail] at hnew
        refine ⟨free, ?_⟩
        exact ⟨hnew.here.trans (by rw [hq.tail]), hnew.last, hnew.cached⟩
      · obtain ⟨slot, hown⟩ := h.slot d hd a ha
        exact ⟨slot, hown.set hfree (hpid d hd) now s.tail⟩
    · rcases mem_cons.mp hd with rfl | hd
      · obtain rfl : s.published.length = a := Option.some.inj ha
        refine ⟨hq.le, le_rfl, fun i p hi hp => ?_⟩
        have := (List.getElem?_eq_some_iff.mp hp).1
        exact absurd this (not_lt.mpr hi)
      · have hk := h.kept d hd a ha
        exact { hk with }

theorem ReaderInv.query (pid : Nat) :
    ReaderInv z s (daemons.map fun d => if d.pid = pid then d.lookup s else d) := by
  refine ⟨h.queue, h.fork, fun d hd a ha => ?_, fun d hd a ha => ?_⟩
  · obtain ⟨d₀, hd₀, rfl⟩ := mem_map.mp hd
    split_ifs at ha ⊢
    · obtain ⟨slot, hown⟩ := h.slot d₀ hd₀ a ha
      exact ⟨slot, hown.lookup⟩
    · exact h.slot d₀ hd₀ a ha
  · obtain ⟨d₀, hd₀, rfl⟩ := mem_map.mp hd
    split_ifs at ha ⊢
    · have hk := h.kept d₀ hd₀ a ha
      exact { hk with }
    · exact h.kept d₀ hd₀ a ha

theorem ReaderInv.exit (pid : Nat) :
    ReaderInv z s (daemons.filter fun d => d.pid ≠ pid) :=
  ⟨h.queue, h.fork, fun d hd => h.slot d (mem_of_mem_filter hd),
    fun d hd => h.kept d (mem_of_mem_filter hd)⟩

end Steps

theorem readerInv_start : ReaderInv z ReaderSys.start.shm ReaderSys.start.daemons := by
  refine ⟨ringInv_init.queue, ?_, ?_, ?_⟩
  · intro r hr hvalid
    rw [(mem_replicate.mp hr).2] at hvalid
    cases hvalid
  · intro d hd
    cases hd
  · intro d hd
    cases hd

theorem ReaderInv.step (sys : ReaderSys) (e : ReaderEvent) (hok : Legal sys e ∧ Traceable sys e)
    (h : ReaderInv z sys.shm sys.daemons) :
    ReaderInv z (readerStep z sys e).shm (readerStep z sys e).daemons := by
  obtain ⟨hlegal, htrace⟩ := hok
  cases e with
  | register pid now => exact h.register hlegal.2 htrace.1 htrace.2
  | submit job elems attached now => exact h.submit htrace attached
  | prune alive => exact h.prune hlegal
  | query pid => exact h.query pid
  | exit pid => exact h.exit pid

/-! ## What a daemon meets -/

/-- A daemon meets the jobs published since there were `a` of them, without arrays, each once and in
order, and nothing else; a query selects among them. -/
structure Meets (z : ShmSizes) (s : Shm) (d : QueryDaemon) (a : Nat) : Prop where
  all : ∀ matching, selectQmbdShmSyncJobs z s d.pid d.currentReaderIndex matching false =
    some ((slotsSince z s a).filter fun slot => matching (s.jobUnit slot))
  last : ∀ matching, selectQmbdShmSyncJobs z s d.pid d.currentReaderIndex matching true =
    some ((slotsSince z s a).filter fun slot => matching (s.jobUnit slot)).getLast?.toList
  once : (slotsSince z s a).Nodup
  entry : ∀ i ∈ positionsSince s a, ∀ p, s.published[i]? = some p →
    EntryOf p (s.jobUnit (i % z.jobs))

theorem mem_positionsSince {i : Nat} (hi : i ∈ positionsSince s a) :
    a ≤ i ∧ i < s.published.length := by
  have := mem_range'_1.mp (mem_of_mem_filter hi)
  omega

/-- Published jobs that are not dropped have slots of their own. -/
theorem nodup_slotsSince (hm : MetaInv z s) (ha : s.dropped ≤ a) :
    (slotsSince z s a).Nodup := by
  have hN := hm.lt
  refine List.Nodup.map_on ?_ (List.Nodup.filter _ nodup_range')
  intro i hi j hj hij
  have hi := mem_positionsSince hi
  have hj := mem_positionsSince hj
  by_contra hne
  rcases Nat.lt_or_gt_of_ne hne with hlt | hlt
  · exact Ring.slot_ne hlt (by omega) hij
  · exact Ring.slot_ne hlt (by omega) hij.symm

theorem ReaderInv.select (h : ReaderInv z s daemons) (hd : d ∈ daemons)
    (ha : d.start = some a) (matching : JobMetaData → Bool) (lastJob : Bool) :
    selectQmbdShmSyncJobs z s d.pid d.currentReaderIndex matching lastJob =
      some (((slotsSince z s a).filter fun slot => matching (s.jobUnit slot)).foldl
        (keepSlot lastJob) []) := by
  obtain ⟨slot, hown⟩ := h.slot d hd a ha
  have hk := h.kept d hd a ha
  have hN := h.queue.lt
  have hdrop := hk.dropped
  rw [selectQmbdShmSyncJobs, hown.findReader]
  simp only [hown.here, Option.map_some]
  rw [selectLoop_eq h.queue matching lastJob _ a [] hdrop hk.le (by omega)]

theorem ReaderInv.meets (h : ReaderInv z s daemons) (hd : d ∈ daemons)
    (ha : d.start = some a) : Meets z s d a where
  all := by
    intro matching
    rw [h.select hd ha, foldl_keepSlot_all, nil_append]
  last := by
    intro matching
    rw [h.select hd ha, foldl_keepSlot_last]
  once := nodup_slotsSince h.queue (h.kept d hd a ha).dropped
  entry := by
    intro i hi p hp
    have hdrop := (h.kept d hd a ha).dropped
    exact h.queue.entry i p (hdrop.trans (mem_positionsSince hi).1) hp

end Shm

open Shm

/-- **Every live registered query daemon meets exactly the jobs published since its registration**,
in every state of a run in which no process id is recorded behind the slot of a new reader with that
id and no job is submitted before the fork of a daemon that needs it. -/
theorem readers_meet_published (z : ShmSizes) (events : List ReaderEvent)
    (h : Run.Along (readerStep z) (fun sys e => Legal sys e ∧ Traceable sys e) .start events)
    (n : Nat) :
    let sys := Run.run (readerStep z) .start (events.take n)
    ∀ d ∈ sys.daemons, ∀ a, d.start = some a → Meets z sys.shm d a := by
  intro sys d hd a ha
  have hinv : (fun sys : ReaderSys => ReaderInv z sys.shm sys.daemons) sys :=
    Run.inv_take ReaderInv.step readerInv_start h n
  exact ReaderInv.meets hinv hd ha

/-- A job without a name and with one encoded byte. -/
def unnamedJob (jobId : Nat) (submitTime : Int) (isArray : Bool) : ShmJob :=
  ⟨jobId, [], none, 1, submitTime, isArray, none, some [1]⟩

/-- The second of two daemons is registered before an array and another job; the first one exits and
the job only it needs is dropped. -/
def twoReaderEvents : List ReaderEvent :=
  [.register 10 100, .submit (unnamedJob 1 100 false) [] 2 101, .register 20 102,
    .submit (unnamedJob 2 103 true) [unnamedJob 3 103 false] 2 103, .query 20, .exit 10,
    .prune fun pid => pid == 20, .submit (unnamedJob 4 104 false) [] 2 104]

theorem two_readers_meet :
    Run.Along (readerStep smallSegment) (fun sys e => Legal sys e ∧ Traceable sys e) .start
      twoReaderEvents ∧
    Meets smallSegment (Run.run (readerStep smallSegment) .start (twoReaderEvents.take 8)).shm
      ⟨20, 102, some 1, some 1⟩ 1 ∧
    slotsSince smallSegment
      (Run.run (readerStep smallSegment) .start (twoReaderEvents.take 8)).shm 1 = [2, 3] := by
  have h : Run.Along (readerStep smallSegment) (fun sys e => Legal sys e ∧ Traceable sys e) .start
      twoReaderEvents := by
    decide +kernel
  refine ⟨h, readers_meet_published smallSegment twoReaderEvents h 8 _ ?_ 1 rfl, ?_⟩
  · decide +kernel
  · decide +kernel

/-- The slot of a daemon with process id 20 is given up; the next daemon with that id gets a slot
before it. -/
def oldSlotEvents : List ReaderEvent :=
  [.register 5 100, .register 10 100, .register 20 100, .submit (unnamedJob 1 101 false) [] 2 101,
    .exit 10, .exit 20, .prune fun pid => pid == 5, .register 20 102]

/-- A job is published after a daemon was forked, but was submitted before. -/
def earlyJobEvents : List ReaderEvent :=
  [.register 10 100, .submit (unnamedJob 1 99 false) [] 2 101, .prune fun pid => pid == 10]

/-- **A daemon meets a job from before its registration, and one misses a job published since.** -/
theorem meets_old_or_misses_new :
    (Run.Along (readerStep smallSegment) Legal .start oldSlotEvents ∧
      let sys := Run.run (readerStep smallSegment) .start oldSlotEvents
      ⟨20, 102, some 1, none⟩ ∈ sys.daemons ∧
      selectQmbdShmSyncJobs smallSegment sys.shm 20 none (fun _ => true) false = some [0] ∧
      ¬ Meets smallSegment sys.shm ⟨20, 102, some 1, none⟩ 1) ∧
    (Run.Along (readerStep smallSegment) Legal .start earlyJobEvents ∧
      let sys := Run.run (readerStep smallSegment) .start earlyJobEvents
      ⟨10, 100, some 0, none⟩ ∈ sys.daemons ∧
      selectQmbdShmSyncJobs smallSegment sys.shm 10 none (fun _ => true) false = some [] ∧
      ¬ Meets smallSegment sys.shm ⟨10, 100, some 0, none⟩ 0) := by
  refine ⟨⟨by decide +kernel, by decide +kernel, by decide +kernel, fun h => ?_⟩,
    by decide +kernel, by decide +kernel, by decide +kernel, fun h => ?_⟩
  · have hall := h.all fun _ => true
    revert hall
    decide +kernel
  · have hall := h.all fun _ => true
    revert hall
    decide +kernel

end Volclava
