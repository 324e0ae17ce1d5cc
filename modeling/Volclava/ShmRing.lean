import Volclava.Lib.Blocks
import Volclava.SyncShm

/-!
# Integrity of the shared-memory rings

Every entry between the head and the tail of the metadata queue reads back the name and the encoded
bytes of the job it was made for, as long as a remembered node stands for the same name. Nodes are
remembered by their address only: when the node of the last job was freed and another node came to
stand at its address, the new job gets the old name.

- `Shm.MetaInv`, `Shm.XdrInv`: hold in every run of publishing and dropping.
- `Shm.NameInv`: holds where a node's address stands for its name.
- `rings_intact`: what a reader gets in every run of that kind.
- `name_of_freed_node`: a job that is read back with the name of another one.
-/

namespace Volclava

open Xdr List

namespace Shm

variable {z : ShmSizes}

/-! ## Published jobs and their entries -/

/-- The encoded bytes of a published job. -/
def xdrBytes (p : Published) : List Byte := p.job.xdr.getD []

def xdrLen (p : Published) : Nat := (xdrBytes p).length

def nameLen (p : Published) : Nat := p.job.nameBytes.length

/-- The jobs that are published and not dropped. -/
def live (s : Shm) : List Published := s.published.drop s.dropped

/-- The entries of the live jobs. -/
def Entries (z : ShmSizes) (s : Shm) (P : Published → JobMetaData → Prop) : Prop :=
  ∀ i p, s.dropped ≤ i → s.published[i]? = some p → P p (s.jobUnit (i % z.jobs))

/-- The metadata of a job. -/
structure EntryOf (p : Published) (m : JobMetaData) : Prop where
  used : m.state = .used
  jobId : m.jobId = p.job.jobId
  userName : m.userName = p.job.userName.take (maxLsfNameLen - 1)
  queue : m.queue = (p.job.queue.getD []).take (maxLsfNameLen - 1)
  jStatus : m.jStatus = p.job.jStatus
  submitTime : m.submitTime = p.job.submitTime
  isArray : m.isArray = p.job.isArray

/-- The metadata queue holds the live jobs. -/
structure MetaInv (z : ShmSizes) (s : Shm) : Prop where
  head : s.head = s.dropped % z.jobs
  tail : s.tail = s.published.length % z.jobs
  le : s.dropped ≤ s.published.length
  lt : s.published.length < s.dropped + z.jobs
  entry : Entries z s EntryOf
  last : ∀ i, s.lastMetaTail = some i →
    s.published ≠ [] ∧ i = (s.published.length - 1) % z.jobs
  lastUnit : s.published ≠ [] → s.dropped = s.published.length →
    (s.jobUnit ((s.published.length - 1) % z.jobs)).state = .unused

/-- The buffer of encoded jobs holds the live ones, one behind the other. -/
structure XdrInv (z : ShmSizes) (s : Shm) : Prop where
  start : ∃ a, s.xdrBuffer.head = a % z.xdr ∧
    Blocks.Chain Published.xdrPos xdrLen a (live s) s.xdrEnd ∧ s.xdrEnd < a + z.xdr
  tail : s.xdrBuffer.tail = s.xdrEnd % z.xdr
  entry : Entries z s fun p m => m.xdrOffset = p.xdrPos % z.xdr ∧ m.xdrLen = xdrLen p
  holds : ∀ p ∈ live s, Ring.Holds z.xdr s.xdrBuffer.buff p.xdrPos (xdrBytes p)
  encoded : ∀ p ∈ live s, p.job.xdr = some (xdrBytes p)

/-- The buffer of names holds those of the live jobs, and the static variables describe the last
one. -/
structure NameInv (z : ShmSizes) (s : Shm) : Prop where
  start : ∃ a, s.jobNameBuffer.head = a % z.names ∧
    Blocks.Shared Published.namePos nameLen a (live s) s.nameEnd ∧ s.nameEnd < a + z.names
  tail : s.jobNameBuffer.tail = s.nameEnd % z.names
  entry : Entries z s fun p m => m.jobNameOffset = p.namePos % z.names ∧ m.jobNameLen = nameLen p
  holds : ∀ p ∈ live s, Ring.Holds z.names s.jobNameBuffer.buff p.namePos p.job.nameBytes
  static : ∀ o, s.lastJobNameOffset = some o → ∃ p, s.published.getLast? = some p ∧
    o = p.namePos % z.names ∧ s.lastJobNameLen = nameLen p ∧ p.job.fullJobName = s.lastName ∧
    s.nameEnd = p.namePos + nameLen p
  no_overrun : s.overrun = false

variable {s : Shm} {job : ShmJob} {k : Nat}

theorem getElem?_live : (live s)[k]? = s.published[s.dropped + k]? := by
  rw [live, List.getElem?_drop]

theorem MetaInv.length_live (h : MetaInv z s) :
    s.published.length = s.dropped + (live s).length := by
  have := h.le
  rw [live, length_drop]
  omega

/-! ## Publishing -/

/-- Apart from the link of an array, only the entry at the tail changes. -/
theorem jobUnit_storeEntry (s : Shm) (job : ShmJob) (xdr : List Byte) (o n np : Nat)
    (parent : Option Nat) (j : Nat) :
    ∃ k, (storeEntry z s job xdr o n np parent).jobUnit j = { Function.update s.jobUnit s.tail
      (newEntry z s job xdr o n) j with nextJgrpIndex := k } := by
  cases parent with
  | none => exact ⟨_, rfl⟩
  | some i =>
    by_cases hj : j = i
    · subst hj
      refine ⟨(s.tail + 1) % z.jobs, ?_⟩
      show Function.update _ j _ j = _
      rw [Function.update_self]
    · refine ⟨(Function.update s.jobUnit s.tail (newEntry z s job xdr o n) j).nextJgrpIndex, ?_⟩
      show Function.update _ i _ j = _
      rw [Function.update_of_ne hj]

variable {p : Published}

/-- The entry of a live job after one more is published: that of the job itself, or the new one. -/
theorem entry_storeEntry (hm : MetaInv z s) (hroom : s.published.length + 1 < s.dropped + z.jobs)
    (xdr : List Byte) (o n np : Nat) (parent : Option Nat) {i : Nat}
    (hi : s.dropped ≤ i) (hp : (s.published ++ [⟨job, np, s.xdrEnd⟩])[i]? = some p) :
    ∃ m k, (storeEntry z s job xdr o n np parent).jobUnit (i % z.jobs) =
        { m with nextJgrpIndex := k } ∧
      (s.published[i]? = some p ∧ m = s.jobUnit (i % z.jobs) ∨
        p = ⟨job, np, s.xdrEnd⟩ ∧ m = newEntry z s job xdr o n) := by
  obtain ⟨k, hk⟩ := jobUnit_storeEntry s job xdr o n np parent (i % z.jobs)
  refine ⟨_, k, hk, ?_⟩
  rcases Nat.lt_or_ge i s.published.length with hlt | hge
  · rw [List.getElem?_append_left hlt] at hp
    refine .inl ⟨hp, Function.update_of_ne ?_ _ _⟩
    rw [hm.tail]
    exact Ring.slot_ne hlt (by omega)
  · rw [List.getElem?_append_right hge, List.getElem?_singleton] at hp
    split_ifs at hp with h0
    have hi' : i = s.published.length := by omega
    refine .inr ⟨(Option.some.inj hp).symm, ?_⟩
    rw [hi', ← hm.tail, Function.update_self]

variable {P : Published → JobMetaData → Prop}

/-- What holds of the entries of live jobs still does after one more is published. -/
theorem Entries.store (h : Entries z s P) (hm : MetaInv z s)
    (hroom : s.published.length + 1 < s.dropped + z.jobs)
    (hlink : ∀ p m k, P p m → P p { m with nextJgrpIndex := k }) {xdr : List Byte} {o n np : Nat}
    (hnew : P ⟨job, np, s.xdrEnd⟩ (newEntry z s job xdr o n)) (parent : Option Nat) :
    Entries z (storeEntry z s job xdr o n np parent) P := by
  intro i p hi hp
  obtain ⟨m, k, hk, ⟨hp', rfl⟩ | ⟨rfl, rfl⟩⟩ := entry_storeEntry hm hroom xdr o n np parent hi hp
  · rw [hk]
    exact hlink _ _ _ (h i p hi hp')
  · rw [hk]
    exact hlink _ _ _ hnew

theorem MetaInv.storeEntry (h : MetaInv z s) (hroom : s.published.length + 1 < s.dropped + z.jobs)
    (job : ShmJob) (xdr : List Byte) (o n np : Nat) (parent : Option Nat) :
    MetaInv z (storeEntry z s job xdr o n np parent) := by
  have hle := h.le
  have hentry : Entries z (Shm.storeEntry z s job xdr o n np parent) EntryOf :=
    h.entry.store h hroom (fun _ _ _ hp => { hp with })
      ⟨rfl, rfl, rfl, rfl, rfl, rfl, rfl⟩ parent
  refine ⟨h.head, ?_, ?_, ?_, hentry, fun i hi => ?_, fun _ hd => ?_⟩
  · show (s.tail + 1) % z.jobs = (s.published ++ [_]).length % z.jobs
    rw [h.tail, Nat.mod_add_mod, length_append, length_singleton]
  · show s.dropped ≤ (s.published ++ [_]).length
    rw [length_append]
    omega
  · show (s.published ++ [_]).length < s.dropped + z.jobs
    rw [length_append, length_singleton]
    exact hroom
  · obtain rfl : s.tail = i := Option.some.inj hi
    refine ⟨append_ne_nil_of_right_ne_nil _ (cons_ne_nil _ _), ?_⟩
    show s.tail = ((s.published ++ [_]).length - 1) % z.jobs
    rw [h.tail, length_append, length_singleton, Nat.add_sub_cancel]
  · have hd' : s.dropped = (s.published ++ [_]).length := hd
    rw [length_append, length_singleton] at hd'
    omega

theorem live_storeEntry (h : MetaInv z s) (job : ShmJob) (xdr : List Byte) (o n np : Nat)
    (parent : Option Nat) :
    live (storeEntry z s job xdr o n np parent) = live s ++ [⟨job, np, s.xdrEnd⟩] := by
  show (s.published ++ [_]).drop s.dropped = _
  rw [drop_append_of_le_length h.le]
  rfl

theorem used_of_start {q : BufferQueue} {cap a b : Nat} (hhead : q.head = a % cap)
    (htail : q.tail = b % cap) (hle : a ≤ b) (hlt : b < a + cap) :
    getBufferUsedBytes q cap = b - a := by
  rw [getBufferUsedBytes, hhead, htail, Ring.count_eq hle hlt]

theorem XdrInv.storeEntry (h : XdrInv z s) (hm : MetaInv z s)
    (hroom : s.published.length + 1 < s.dropped + z.jobs) {xdr : List Byte}
    (hxdr : job.xdr = some xdr)
    (hfree : getBufferUsedBytes s.xdrBuffer z.xdr + xdr.length + 1 ≤ z.xdr) (o n np : Nat)
    (parent : Option Nat) : XdrInv z (storeEntry z s job xdr o n np parent) := by
  obtain ⟨a, hhead, hchain, hlt⟩ := h.start
  rw [used_of_start hhead h.tail hchain.le hlt] at hfree
  have hle := hchain.le
  have hbytes : xdrBytes ⟨job, np, s.xdrEnd⟩ = xdr := by simp [xdrBytes, hxdr]
  have hlen : xdrLen ⟨job, np, s.xdrEnd⟩ = xdr.length := by rw [xdrLen, hbytes]
  have hlive := live_storeEntry hm job xdr o n np parent
  refine ⟨⟨a, hhead, ?_, ?_⟩, ?_, ?_, fun p hp => ?_, fun p hp => ?_⟩
  · rw [hlive]
    have := hchain.snoc (x := ⟨job, np, s.xdrEnd⟩) rfl
    rw [hlen] at this
    exact this
  · show s.xdrEnd + xdr.length < a + z.xdr
    omega
  · show (s.xdrBuffer.tail + xdr.length) % z.xdr = (s.xdrEnd + xdr.length) % z.xdr
    rw [h.tail, Nat.mod_add_mod]
  · refine h.entry.store hm hroom (fun _ _ _ hp => hp) ⟨h.tail, ?_⟩ parent
    exact hlen.symm
  · show Ring.Holds z.xdr (Ring.put z.xdr s.xdrBuffer.buff s.xdrBuffer.tail xdr) _ _
    rw [h.tail]
    rw [hlive, mem_append, mem_singleton] at hp
    rcases hp with hp | rfl
    · have hb := hchain.bounds hp
      exact (h.holds p hp).put z.xdr_pos hb.2 (by omega)
    · rw [hbytes]
      exact Ring.holds_put z.xdr_pos (by omega)
  · rw [hlive, mem_append, mem_singleton] at hp
    rcases hp with hp | rfl
    · exact h.encoded p hp
    · rw [hbytes]
      exact hxdr

theorem nameLen_pos (p : Published) : 0 < nameLen p := by
  simp [nameLen, ShmJob.nameBytes]

theorem MetaInv.copyName (h : MetaInv z s) (job : ShmJob) :
    MetaInv z (copyName z s job) :=
  { h with }

theorem XdrInv.copyName (h : XdrInv z s) (job : ShmJob) : XdrInv z (copyName z s job) :=
  { h with }

/-- A name of its own is copied behind the others. -/
theorem NameInv.storeNew (h : NameInv z s) (hm : MetaInv z s)
    (hroom : s.published.length + 1 < s.dropped + z.jobs)
    (hfree : getBufferUsedBytes s.jobNameBuffer z.names + job.nameBytes.length + 1 ≤ z.names)
    (xdr : List Byte) (parent : Option Nat) :
    NameInv z (storeEntry z (copyName z s job) job xdr s.jobNameBuffer.tail job.nameBytes.length
      s.nameEnd parent) := by
  obtain ⟨a, hhead, hshared, hlt⟩ := h.start
  have hle := hshared.le
  rw [used_of_start hhead h.tail hle hlt] at hfree
  have hlive := live_storeEntry (hm.copyName job) job xdr s.jobNameBuffer.tail
    job.nameBytes.length s.nameEnd parent
  have hentry : Entries z (Shm.copyName z s job) fun p m => m.jobNameOffset = p.namePos % z.names ∧
    m.jobNameLen = nameLen p := h.entry
  refine ⟨⟨a, hhead, ?_, ?_⟩, ?_, ?_, fun p hp => ?_, fun o ho => ?_, h.no_overrun⟩
  · rw [hlive]
    exact hshared.snoc (x := ⟨job, s.nameEnd, s.xdrEnd⟩) rfl
  · show s.nameEnd + job.nameBytes.length < a + z.names
    omega
  · show (s.jobNameBuffer.tail + _) % z.names = (s.nameEnd + _) % z.names
    rw [h.tail, Nat.mod_add_mod]
  · exact hentry.store (hm.copyName job) hroom (fun _ _ _ hp => hp) ⟨h.tail, rfl⟩ parent
  · show Ring.Holds z.names (Ring.put z.names s.jobNameBuffer.buff s.jobNameBuffer.tail _) _ _
    rw [h.tail]
    rw [hlive, mem_append, mem_singleton] at hp
    rcases hp with hp | rfl
    · have hb := hshared.bounds hp
      exact (h.holds p hp).put z.names_pos hb.2 (by omega)
    · exact Ring.holds_put z.names_pos (by omega)
  · have ho' : (if job.jgrpNode = none then none else some s.jobNameBuffer.tail) = some o := ho
    split_ifs at ho' with hnode
    obtain rfl := Option.some.inj ho'
    refine ⟨⟨job, s.nameEnd, s.xdrEnd⟩, ?_, h.tail, ?_, rfl, rfl⟩
    · show (s.published ++ [_]).getLast? = _
      rw [List.getLast?_append_of_ne_nil _ (cons_ne_nil _ _)]
      rfl
    · show (if job.jgrpNode = none then s.lastJobNameLen else job.nameBytes.length) = _
      rw [if_neg hnode]
      rfl

/-- What `reusesName` has checked. -/
theorem reusesName_iff : reusesName z s job = true ↔
    ∃ node i o, job.jgrpNode = some node ∧ s.lastMetaTail = some i ∧ s.lastJobNameOffset = some o ∧
      some node.addr = s.lastJgrpNode ∧ i = (s.tail + z.jobs - 1) % z.jobs ∧
      (s.jobUnit i).state = .used := by
  rw [reusesName]
  constructor
  · intro h
    split at h
    next node i hnode hi =>
      rw [decide_eq_true_eq] at h
      obtain ⟨haddr, ho, hlast, hused⟩ := h
      obtain ⟨o, ho⟩ := Option.ne_none_iff_exists'.mp ho
      exact ⟨node, i, o, hnode, hi, ho, haddr, hlast, hused⟩
    · cases h
  · intro h
    obtain ⟨node, i, o, hnode, hi, ho, haddr, hlast, hused⟩ := h
    simp only [hnode, hi, decide_eq_true_eq]
    exact ⟨haddr, by simp [ho], hlast, hused⟩

/-- The entry of the last job is in use only as long as it is live. -/
theorem MetaInv.last_live (hm : MetaInv z s) {i : Nat} (hi : s.lastMetaTail = some i)
    (hused : (s.jobUnit i).state = .used) : s.dropped < s.published.length := by
  obtain ⟨hne, rfl⟩ := hm.last i hi
  refine lt_of_le_of_ne hm.le fun heq => ?_
  rw [hm.lastUnit hne heq] at hused
  cases hused

theorem MetaInv.head_ne_tail (hm : MetaInv z s) :
    s.head ≠ s.tail ↔ s.dropped < s.published.length := by
  rw [hm.head, hm.tail, Ne, Ring.eq_iff hm.le hm.lt]
  have := hm.le
  omega

theorem getLast?_live (h : s.dropped < s.published.length) :
    (live s).getLast? = s.published.getLast? := by
  rw [live, List.getLast?_drop, if_neg (by omega)]

/-- The name of the last job is used again. -/
theorem NameInv.storeShare (h : NameInv z s) (hm : MetaInv z s)
    (hroom : s.published.length + 1 < s.dropped + z.jobs) (hreuse : reusesName z s job = true)
    (hsame : ∀ node, job.jgrpNode = some node → some node.addr = s.lastJgrpNode →
      s.head ≠ s.tail → node.name = s.lastName) (xdr : List Byte) (parent : Option Nat) :
    NameInv z (storeEntry z s job xdr (s.lastJobNameOffset.getD 0) s.lastJobNameLen s.lastNamePos
      parent) := by
  obtain ⟨node, i, o, hnode, hi, ho, haddr, -, hused⟩ := reusesName_iff.mp hreuse
  have hlive' := hm.last_live hi hused
  have hname : job.fullJobName = s.lastName := by
    have := hsame node hnode haddr (hm.head_ne_tail.mpr hlive')
    rw [ShmJob.fullJobName, hnode]
    exact this
  obtain ⟨p, hp, hop, hlen, hpname, hend⟩ := h.static o ho
  have hlast : (live s).getLast? = some p := (getLast?_live hlive').trans hp
  have hpmem : p ∈ live s := mem_of_getLast? hlast
  have hbytes : job.nameBytes = p.job.nameBytes := by
    rw [ShmJob.nameBytes, hname, ← hpname]
    rfl
  have hpos : s.lastNamePos = p.namePos := by
    rw [lastNamePos, hend, hlen, Nat.add_sub_cancel]
  rw [ho, Option.getD_some, hpos]
  have hnewLen : ∀ xp, nameLen ⟨job, p.namePos, xp⟩ = nameLen p := fun xp => by
    simp only [nameLen, hbytes]
  obtain ⟨a, hhead, hshared, hlt⟩ := h.start
  have hlive := live_storeEntry hm job xdr o s.lastJobNameLen p.namePos parent
  refine ⟨⟨a, hhead, ?_, hlt⟩, h.tail, ?_, fun q hq => ?_, fun o' ho' => ?_, h.no_overrun⟩
  · rw [hlive]
    exact hshared.snoc_share hlast rfl (hnewLen _)
  · exact h.entry.store hm hroom (fun _ _ _ hp => hp) ⟨hop, hlen.trans (hnewLen _).symm⟩ parent
  · rw [hlive, mem_append, mem_singleton] at hq
    rcases hq with hq | rfl
    · exact h.holds q hq
    · show Ring.Holds z.names s.jobNameBuffer.buff p.namePos job.nameBytes
      rw [hbytes]
      exact h.holds p hpmem
  · obtain rfl : o = o' := Option.some.inj (ho.symm.trans ho')
    refine ⟨⟨job, p.namePos, s.xdrEnd⟩, ?_, hop, ?_, hname, ?_⟩
    · show (s.published ++ [_]).getLast? = _
      rw [List.getLast?_append_of_ne_nil _ (cons_ne_nil _ _)]
      rfl
    · rw [hnewLen]
      exact hlen
    · rw [hnewLen]
      exact hend

/-- The state after the name of a job was formed. -/
def formName (s : Shm) (job : ShmJob) : Shm :=
  { s with overrun := s.overrun || decide (maxPathLen ≤ job.fullJobName.length) }

/-- **What publishing can do**: nothing, an entry with the last name, or an entry with a new one. -/
theorem addJobToSyncShm_cases (s : Shm) (job : ShmJob) (parent : Option Nat) (attached : Nat) :
    (addJobToSyncShm z s job parent attached = (none, s) ∨
      addJobToSyncShm z s job parent attached = (none, formName s job)) ∨
    ∃ xdr, job.xdr = some xdr ∧ getJobQueueCount z s + 1 + 1 ≤ z.jobs ∧
      getBufferUsedBytes s.xdrBuffer z.xdr + xdr.length + 1 ≤ z.xdr ∧
      ((reusesName z (formName s job) job = true ∧
        addJobToSyncShm z s job parent attached = (some s.tail,
          storeEntry z (formName s job) job xdr (s.lastJobNameOffset.getD 0) s.lastJobNameLen
            s.lastNamePos parent)) ∨
      (getBufferUsedBytes s.jobNameBuffer z.names + job.nameBytes.length + 1 ≤ z.names ∧
        addJobToSyncShm z s job parent attached = (some s.tail,
          storeEntry z (copyName z (formName s job) job) job xdr s.jobNameBuffer.tail
            job.nameBytes.length s.nameEnd parent))) := by
  rw [addJobToSyncShm.eq_def]
  by_cases hatt : attached ≤ 1
  · rw [if_pos hatt]
    exact .inl (.inl rfl)
  · rw [if_neg hatt]
    cases hxdr : job.xdr with
    | none => exact .inl (.inl rfl)
    | some xdr =>
      simp only
      by_cases hq : z.jobs < getJobQueueCount z s + 1 + 1
      · rw [if_pos hq]
        exact .inl (.inl rfl)
      · rw [if_neg hq]
        by_cases hx : z.xdr < getBufferUsedBytes s.xdrBuffer z.xdr + xdr.length + 1
        · rw [if_pos hx]
          exact .inl (.inl rfl)
        · rw [if_neg hx]
          by_cases hreuse : reusesName z (formName s job) job = true
          · refine .inr ⟨xdr, rfl, not_lt.mp hq, not_lt.mp hx, .inl ⟨hreuse, ?_⟩⟩
            exact if_pos hreuse
          · by_cases hn : z.names <
                getBufferUsedBytes s.jobNameBuffer z.names + job.nameBytes.length + 1
            · refine .inl (.inr ?_)
              exact (if_neg hreuse).trans (if_pos hn)
            · refine .inr ⟨xdr, rfl, not_lt.mp hq, not_lt.mp hx, .inr ⟨not_lt.mp hn, ?_⟩⟩
              exact (if_neg hreuse).trans (if_neg hn)

theorem MetaInv.formName (h : MetaInv z s) (job : ShmJob) : MetaInv z (formName s job) :=
  { h with }

theorem XdrInv.formName (h : XdrInv z s) (job : ShmJob) : XdrInv z (formName s job) :=
  { h with }

theorem NameInv.formName (h : NameInv z s) (hlen : job.fullJobName.length < maxPathLen) :
    NameInv z (formName s job) := by
  refine { h with no_overrun := ?_ }
  show (s.overrun || decide (maxPathLen ≤ job.fullJobName.length)) = false
  rw [h.no_overrun, decide_eq_false (not_le.mpr hlen)]
  rfl

/-- A free entry leaves one slot unused. -/
theorem MetaInv.room (h : MetaInv z s) (hq : getJobQueueCount z s + 1 + 1 ≤ z.jobs) :
    s.published.length + 1 < s.dropped + z.jobs := by
  rw [getJobQueueCount, h.head, h.tail, Ring.count_eq h.le h.lt] at hq
  have := h.le
  omega

/-- The address of the remembered node stands for its name while its entry is there, and the name
fits into the buffer in which it is formed. -/
def NodeOk (s : Shm) (job : ShmJob) : Prop :=
  job.fullJobName.length < maxPathLen ∧ ∀ node ∈ job.jgrpNode,
    some node.addr = s.lastJgrpNode → s.head ≠ s.tail → node.name = s.lastName

instance (s : Shm) (job : ShmJob) : Decidable (NodeOk s job) := by
  unfold NodeOk; infer_instance

/-! ## Dropping -/

theorem namesAfterHead_buff (s : Shm) : (namesAfterHead z s).buff = s.jobNameBuffer.buff := by
  rw [namesAfterHead]
  split_ifs
  · rfl
  · rfl

theorem namesAfterHead_tail (s : Shm) : (namesAfterHead z s).tail = s.jobNameBuffer.tail := by
  rw [namesAfterHead]
  split_ifs
  · rfl
  · rfl

/-- What dropping does when there is something to drop. -/
theorem removeHead_of_ne (hne : s.head ≠ s.tail) : removeHead z s =
    { s with
      jobUnit := Function.update s.jobUnit s.head { s.jobUnit s.head with state := .unused }
      xdrBuffer :=
        { s.xdrBuffer with head := (s.xdrBuffer.head + (s.jobUnit s.head).xdrLen) % z.xdr }
      jobNameBuffer := namesAfterHead z s
      head := (s.head + 1) % z.jobs
      dropped := s.dropped + 1 } := by
  rw [removeHead, if_neg hne]

/-- The first live job and the others. -/
theorem live_eq_cons (h : s.dropped < s.published.length) :
    ∃ p, s.published[s.dropped]? = some p ∧ live s = p :: s.published.drop (s.dropped + 1) :=
  ⟨s.published[s.dropped], List.getElem?_eq_getElem h, drop_eq_getElem_cons h⟩

theorem mem_live_of_rest {q : Published} (h : q ∈ s.published.drop (s.dropped + 1)) :
    q ∈ live s := by
  rw [← drop_drop, drop_one] at h
  exact mem_of_mem_tail h

/-- Dropping the first job leaves the entries of the others alone. -/
theorem entry_removeHead (hm : MetaInv z s) (hne : s.head ≠ s.tail) {i : Nat}
    (hi : s.dropped < i) (hp : s.published[i]? = some p) :
    (removeHead z s).jobUnit (i % z.jobs) = s.jobUnit (i % z.jobs) := by
  have hlt : i < s.published.length := (List.getElem?_eq_some_iff.mp hp).1
  have := hm.lt
  rw [removeHead_of_ne hne]
  refine Function.update_of_ne ?_ _ _
  rw [hm.head]
  exact (Ring.slot_ne hi (by omega)).symm

section Remove

variable (hm : MetaInv z s) (hne : s.head ≠ s.tail)
include hm hne

/-- What holds of the entries of live jobs still does after the first one is dropped. -/
theorem Entries.remove (h : Entries z s P) :
    Entries z (removeHead z s) P := by
  intro i p hi hp
  rw [removeHead_of_ne hne] at hi hp
  rw [entry_removeHead hm hne hi hp]
  exact h i p (Nat.le_of_succ_le hi) hp

theorem MetaInv.remove : MetaInv z (removeHead z s) := by
  have hlt := hm.head_ne_tail.mp hne
  have hN := hm.lt
  have hentry := hm.entry.remove hm hne
  rw [removeHead_of_ne hne] at hentry ⊢
  refine ⟨?_, hm.tail, hlt, ?_, hentry, hm.last, fun _ hd => ?_⟩
  · show (s.head + 1) % z.jobs = (s.dropped + 1) % z.jobs
    rw [hm.head, Nat.mod_add_mod]
  · show s.published.length < s.dropped + 1 + z.jobs
    omega
  · have hd' : s.dropped + 1 = s.published.length := hd
    show (Function.update s.jobUnit s.head _ ((s.published.length - 1) % z.jobs)).state = _
    rw [← hd', Nat.add_sub_cancel, ← hm.head, Function.update_self]

theorem XdrInv.remove (h : XdrInv z s) : XdrInv z (removeHead z s) := by
  obtain ⟨p, hp, hlive⟩ := live_eq_cons (hm.head_ne_tail.mp hne)
  obtain ⟨a, hhead, hchain, hlt⟩ := h.start
  have hentry := h.entry.remove hm hne
  have hlen : (s.jobUnit s.head).xdrLen = xdrLen p := by
    rw [hm.head]
    exact (h.entry s.dropped p le_rfl hp).2
  rw [hlive] at hchain
  rw [removeHead_of_ne hne] at hentry ⊢
  refine ⟨⟨a + xdrLen p, ?_, hchain.2, ?_⟩, h.tail, hentry,
    fun q hq => h.holds q (mem_live_of_rest hq), fun q hq => h.encoded q (mem_live_of_rest hq)⟩
  · show (s.xdrBuffer.head + (s.jobUnit s.head).xdrLen) % z.xdr = _
    rw [hhead, hlen, Nat.mod_add_mod]
  · show s.xdrEnd < a + xdrLen p + z.xdr
    omega

/-- The names from the second live job on. The first name is kept exactly when the second job shares
it: a name of its own begins at another offset, since no name is empty. -/
theorem NameInv.start_remove (h : NameInv z s) :
    ∃ b, (namesAfterHead z s).head = b % z.names ∧
      Blocks.Shared Published.namePos nameLen b (s.published.drop (s.dropped + 1)) s.nameEnd ∧
      s.nameEnd < b + z.names := by
  have hdrop := hm.head_ne_tail.mp hne
  have hN := hm.lt
  obtain ⟨p, hp, hlive⟩ := live_eq_cons hdrop
  obtain ⟨a, hhead, hshared, hlt⟩ := h.start
  obtain ⟨hoff, hlen⟩ : (s.jobUnit s.head).jobNameOffset = p.namePos % z.names ∧
      (s.jobUnit s.head).jobNameLen = nameLen p := by
    rw [hm.head]
    exact h.entry s.dropped p le_rfl hp
  have hnext : (s.head + 1) % z.jobs = (s.dropped + 1) % z.jobs := by
    rw [hm.head, Nat.mod_add_mod]
  have hskip : (s.jobNameBuffer.head + (s.jobUnit s.head).jobNameLen) % z.names =
      (a + nameLen p) % z.names := by
    rw [hhead, hlen, Nat.mod_add_mod]
  rw [hlive] at hshared
  have hpa := hshared.head
  rw [namesAfterHead]
  cases hrest : s.published.drop (s.dropped + 1) with
  | nil =>
    rw [hrest] at hshared
    have hend : s.published.length = s.dropped + 1 := by
      have := congrArg List.length hrest
      rw [length_drop, length_nil] at this
      omega
    have htail : (s.head + 1) % z.jobs = s.tail := by rw [hnext, hm.tail, hend]
    rw [if_neg fun hc => hc.1 htail]
    exact ⟨a + nameLen p, hskip, hshared.2, by omega⟩
  | cons q qs =>
    rw [hrest] at hshared
    have hq : s.published[s.dropped + 1]? = some q := by
      rw [← List.head?_drop, hrest]
      rfl
    have hlt1 : s.dropped + 1 < s.published.length := (List.getElem?_eq_some_iff.mp hq).1
    have htail : (s.head + 1) % z.jobs ≠ s.tail := by
      rw [hnext, hm.tail]
      exact Ring.slot_ne hlt1 (by omega)
    have hqoff : (s.jobUnit ((s.head + 1) % z.jobs)).jobNameOffset = q.namePos % z.names := by
      rw [hnext]
      exact (h.entry (s.dropped + 1) q (Nat.le_succ _) hq).1
    rw [hqoff, hoff]
    rcases hshared.2 with ⟨hqa, -, hsh⟩ | hsh
    · rw [if_pos ⟨htail, by rw [hqa, hpa]⟩]
      exact ⟨a, hhead, hsh, hlt⟩
    · have hb := hsh.bounds (mem_cons_self (a := q))
      have hppos := nameLen_pos p
      have hqpos := nameLen_pos q
      have hqp : q.namePos % z.names ≠ p.namePos % z.names :=
        (Ring.slot_ne (by omega) (by omega)).symm
      rw [if_neg fun hc => hqp hc.2]
      exact ⟨a + nameLen p, hskip, hsh, by omega⟩

theorem NameInv.remove (h : NameInv z s) : NameInv z (removeHead z s) := by
  have hstart := h.start_remove hm hne
  have hentry := h.entry.remove hm hne
  rw [removeHead_of_ne hne] at hentry ⊢
  refine ⟨hstart, (namesAfterHead_tail s).trans h.tail, hentry, fun q hq => ?_, h.static,
    h.no_overrun⟩
  show Ring.Holds z.names (namesAfterHead z s).buff _ _
  rw [namesAfterHead_buff]
  exact h.holds q (mem_live_of_rest hq)

end Remove

/-! ## Runs -/

/-- The calls that change the segment. -/
inductive RingCall where
  | add (job : ShmJob) (parentIndex : Option Nat) (attached : Nat)
  | remove

def ringStep (z : ShmSizes) (s : Shm) : RingCall → Shm
  | .add job parentIndex attached => (addJobToSyncShm z s job parentIndex attached).2
  | .remove => removeHead z s

/-- Jobs are added with names that fit and with nodes whose address stands for their name. -/
def AddsKnownNodes (s : Shm) : RingCall → Prop
  | .add job _ _ => NodeOk s job
  | .remove => True

instance (s : Shm) (c : RingCall) : Decidable (AddsKnownNodes s c) := by
  cases c <;> unfold AddsKnownNodes <;> infer_instance

/-- The three buffers are in order. -/
structure RingInv (z : ShmSizes) (s : Shm) : Prop where
  queue : MetaInv z s
  xdr : XdrInv z s
  names : NameInv z s

theorem ringInv_init : RingInv z init where
  queue := by
    refine ⟨rfl, rfl, le_rfl, Nat.add_pos_right 0 z.jobs_pos, ?_, ?_, ?_⟩
    · intro i p _ hp
      cases hp
    · intro i hi
      cases hi
    · intro hne
      exact absurd rfl hne
  xdr := by
    refine ⟨⟨0, (Nat.zero_mod _).symm, rfl, Nat.add_pos_right 0 z.xdr_pos⟩,
      (Nat.zero_mod _).symm, ?_, ?_, ?_⟩
    · intro i p _ hp
      cases hp
    · intro p hp
      cases hp
    · intro p hp
      cases hp
  names := by
    refine ⟨⟨0, (Nat.zero_mod _).symm, rfl, Nat.add_pos_right 0 z.names_pos⟩,
      (Nat.zero_mod _).symm, ?_, ?_, ?_, rfl⟩
    · intro i p _ hp
      cases hp
    · intro p hp
      cases hp
    · intro o ho
      cases ho

theorem RingInv.add (h : RingInv z s) (hok : NodeOk s job) (parent : Option Nat)
    (attached : Nat) : RingInv z (addJobToSyncShm z s job parent attached).2 := by
  have hform : RingInv z (formName s job) :=
    ⟨h.queue.formName job, h.xdr.formName job, h.names.formName hok.1⟩
  have hcopy := hform.queue.copyName job
  rcases addJobToSyncShm_cases (z := z) s job parent attached with
    (heq | heq) | ⟨xdr, hxdr, hq, hx, hname⟩
  · rw [heq]
    exact h
  · rw [heq]
    exact hform
  · have hroom := h.queue.room hq
    rcases hname with ⟨hreuse, heq⟩ | ⟨hfree, heq⟩
    · rw [heq]
      exact ⟨hform.queue.storeEntry hroom job xdr _ _ _ parent,
        hform.xdr.storeEntry hform.queue hroom hxdr hx _ _ _ parent,
        hform.names.storeShare hform.queue hroom hreuse (fun node hnode => hok.2 node hnode) xdr
          parent⟩
    · rw [heq]
      exact ⟨hcopy.storeEntry hroom job xdr _ _ _ parent,
        (hform.xdr.copyName job).storeEntry hcopy hroom hxdr hx _ _ _ parent,
        hform.names.storeNew hform.queue hroom hfree xdr parent⟩

theorem RingInv.step (s : Shm) (c : RingCall) (hok : AddsKnownNodes s c) (h : RingInv z s) :
    RingInv z (ringStep z s c) := by
  cases c with
  | add job parent attached => exact h.add hok parent attached
  | remove =>
    show RingInv z (removeHead z s)
    by_cases hne : s.head = s.tail
    · rw [removeHead, if_pos hne]
      exact h
    · exact ⟨h.queue.remove hne, h.xdr.remove h.queue hne, h.names.remove h.queue hne⟩

/-! ## What readers get -/

/-- The metadata of the `k`-th live entry. -/
def entryAt (z : ShmSizes) (s : Shm) (k : Nat) : JobMetaData := s.jobUnit ((s.head + k) % z.jobs)

/-- Every live entry reads back the job that was added, the bytes of different entries do not
overlap, and without entries no bytes are in use. -/
structure Intact (z : ShmSizes) (s : Shm) : Prop where
  count : getJobQueueCount z s = (live s).length
  name : ∀ k p, (live s)[k]? = some p → getShmJobName z s (entryAt z s k) = p.job.nameBytes
  xdr : ∀ k p, (live s)[k]? = some p →
    p.job.xdr = some (chanWriteQmbdShmJobXdr z s (entryAt z s k))
  xdr_disjoint : ∀ k l, k < l → l < (live s).length →
    ∀ i < (entryAt z s k).xdrLen, ∀ j < (entryAt z s l).xdrLen,
      ((entryAt z s k).xdrOffset + i) % z.xdr ≠ ((entryAt z s l).xdrOffset + j) % z.xdr
  name_disjoint : ∀ k l, k < l → l < (live s).length →
    ((entryAt z s k).jobNameOffset = (entryAt z s l).jobNameOffset ∧
      (entryAt z s k).jobNameLen = (entryAt z s l).jobNameLen) ∨
    ∀ i < (entryAt z s k).jobNameLen, ∀ j < (entryAt z s l).jobNameLen,
      ((entryAt z s k).jobNameOffset + i) % z.names ≠ ((entryAt z s l).jobNameOffset + j) % z.names
  empty : s.head = s.tail → getBufferUsedBytes s.xdrBuffer z.xdr = 0 ∧
    getBufferUsedBytes s.jobNameBuffer z.names = 0
  no_overrun : s.overrun = false

/-- The two pieces are those of the circular buffer. -/
theorem chanWriteQmbdShmJobXdr_eq (s : Shm) (m : JobMetaData) (hm : m.xdrOffset < z.xdr) :
    chanWriteQmbdShmJobXdr z s m = Ring.fetch z.xdr s.xdrBuffer.buff m.xdrOffset m.xdrLen := by
  rw [chanWriteQmbdShmJobXdr, Ring.fetch]
  by_cases hwrap : z.xdr < m.xdrOffset + m.xdrLen
  · have hres : (0 : Int) < m.xdrOffset + m.xdrLen - z.xdr := by omega
    have hsecond : ((m.xdrOffset : Int) + m.xdrLen - z.xdr).toNat =
        m.xdrLen - (z.xdr - m.xdrOffset) := by omega
    have hfirst : m.xdrLen - (m.xdrLen - (z.xdr - m.xdrOffset)) = z.xdr - m.xdrOffset := by omega
    simp only [if_pos hres, if_pos hwrap, hsecond, hfirst]
  · have hres : ¬ (0 : Int) < m.xdrOffset + m.xdrLen - z.xdr := by omega
    simp only [if_neg hres, if_neg hwrap, append_nil]

/-- The metadata of the `k`-th live entry is what the invariants say of it. -/
theorem Entries.at (h : Entries z s P) (hm : MetaInv z s)
    (hp : (live s)[k]? = some p) :
    P p (entryAt z s k) := by
  rw [getElem?_live] at hp
  rw [entryAt, hm.head, Nat.mod_add_mod]
  exact h _ p (Nat.le_add_right _ _) hp

theorem XdrInv.window (h : XdrInv z s) {q : Published} (hp : p ∈ live s) (hq : q ∈ live s) :
    q.xdrPos + xdrLen q ≤ p.xdrPos + z.xdr := by
  obtain ⟨a, -, hchain, hlt⟩ := h.start
  have := hchain.bounds hp
  have := hchain.bounds hq
  omega

theorem NameInv.window (h : NameInv z s) {q : Published} (hp : p ∈ live s) (hq : q ∈ live s) :
    q.namePos + nameLen q ≤ p.namePos + z.names := by
  obtain ⟨a, -, hshared, hlt⟩ := h.start
  have := hshared.bounds hp
  have := hshared.bounds hq
  omega

section

variable (h : RingInv z s)
include h

theorem RingInv.name_intact (hp : (live s)[k]? = some p) :
    getShmJobName z s (entryAt z s k) = p.job.nameBytes := by
  have hmem := mem_of_getElem? hp
  obtain ⟨hoff, hlen⟩ := h.names.entry.at h.queue hp
  have hwin := h.names.window hmem hmem
  rw [getShmJobName, hoff, hlen]
  exact (h.names.holds p hmem).fetch z.names_pos (Nat.add_le_add_iff_left.mp hwin)

theorem RingInv.xdr_intact (hp : (live s)[k]? = some p) :
    p.job.xdr = some (chanWriteQmbdShmJobXdr z s (entryAt z s k)) := by
  have hmem := mem_of_getElem? hp
  obtain ⟨hoff, hlen⟩ := h.xdr.entry.at h.queue hp
  have hwin := h.xdr.window hmem hmem
  have hlt : (entryAt z s k).xdrOffset < z.xdr := by
    rw [hoff]
    exact Nat.mod_lt _ z.xdr_pos
  rw [chanWriteQmbdShmJobXdr_eq s _ hlt, hoff, hlen, h.xdr.encoded p hmem]
  exact congrArg some
    ((h.xdr.holds p hmem).fetch z.xdr_pos (Nat.add_le_add_iff_left.mp hwin)).symm

theorem RingInv.xdr_disjoint {l : Nat} (hkl : k < l) (hl : l < (live s).length) :
    ∀ i < (entryAt z s k).xdrLen, ∀ j < (entryAt z s l).xdrLen,
      ((entryAt z s k).xdrOffset + i) % z.xdr ≠ ((entryAt z s l).xdrOffset + j) % z.xdr := by
  intro i hi j hj
  obtain ⟨a, -, hchain, -⟩ := h.xdr.start
  have hpair := pairwise_iff_getElem.mp hchain.pairwise k l (by omega) hl hkl
  obtain ⟨hoffk, hlenk⟩ := h.xdr.entry.at h.queue (List.getElem?_eq_getElem (by omega : k < _))
  obtain ⟨hoffl, hlenl⟩ := h.xdr.entry.at h.queue (List.getElem?_eq_getElem hl)
  rw [hlenk] at hi
  rw [hlenl] at hj
  rw [hoffk, hoffl]
  exact Blocks.slots_disjoint hpair
    (h.xdr.window (getElem_mem _) (getElem_mem _)) hi hj

theorem RingInv.name_disjoint {l : Nat} (hkl : k < l) (hl : l < (live s).length) :
    ((entryAt z s k).jobNameOffset = (entryAt z s l).jobNameOffset ∧
      (entryAt z s k).jobNameLen = (entryAt z s l).jobNameLen) ∨
    ∀ i < (entryAt z s k).jobNameLen, ∀ j < (entryAt z s l).jobNameLen,
      ((entryAt z s k).jobNameOffset + i) % z.names ≠
        ((entryAt z s l).jobNameOffset + j) % z.names := by
  obtain ⟨a, -, hshared, -⟩ := h.names.start
  obtain ⟨hoffk, hlenk⟩ := h.names.entry.at h.queue (List.getElem?_eq_getElem (by omega : k < _))
  obtain ⟨hoffl, hlenl⟩ := h.names.entry.at h.queue (List.getElem?_eq_getElem hl)
  rw [hoffk, hoffl, hlenk, hlenl]
  rcases pairwise_iff_getElem.mp hshared.pairwise k l (by omega) hl hkl with
    ⟨hpos, hlen⟩ | hpair
  · exact .inl ⟨by rw [hpos], hlen⟩
  · refine .inr fun i hi j hj => ?_
    exact Blocks.slots_disjoint hpair
      (h.names.window (getElem_mem _) (getElem_mem _)) hi hj

theorem RingInv.empty (hempty : s.head = s.tail) :
    getBufferUsedBytes s.xdrBuffer z.xdr = 0 ∧ getBufferUsedBytes s.jobNameBuffer z.names = 0 := by
  have hnil : live s = [] := by
    have hge : ¬ s.dropped < s.published.length := fun hlt => h.queue.head_ne_tail.mpr hlt hempty
    exact drop_eq_nil_of_le (not_lt.mp hge)
  constructor
  · obtain ⟨a, hhead, hchain, hlt⟩ := h.xdr.start
    rw [used_of_start hhead h.xdr.tail hchain.le hlt]
    rw [hnil] at hchain
    exact Nat.sub_eq_zero_of_le (le_of_eq hchain.symm)
  · obtain ⟨a, hhead, hshared, hlt⟩ := h.names.start
    rw [used_of_start hhead h.names.tail hshared.le hlt]
    rw [hnil] at hshared
    exact Nat.sub_eq_zero_of_le (le_of_eq hshared.symm)

theorem RingInv.intact : Intact z s where
  count := by
    have := h.queue.length_live
    rw [getJobQueueCount, h.queue.head, h.queue.tail, Ring.count_eq h.queue.le h.queue.lt]
    omega
  name := fun _ _ hp => h.name_intact hp
  xdr := fun _ _ hp => h.xdr_intact hp
  xdr_disjoint := fun _ _ hkl hl => h.xdr_disjoint hkl hl
  name_disjoint := fun _ _ hkl hl => h.name_disjoint hkl hl
  empty := h.empty
  no_overrun := h.names.no_overrun

end

end Shm

open Shm

/-- **Every live entry reads back its job** in every state of a run from the empty segment whose
names fit and whose nodes keep their names while they are remembered. -/
theorem rings_intact (z : ShmSizes) (calls : List RingCall)
    (h : Run.Along (ringStep z) AddsKnownNodes init calls) (n : Nat) :
    Intact z (Run.run (ringStep z) init (calls.take n)) :=
  (Run.inv_take RingInv.step ringInv_init h n).intact

/-- A segment with room for three jobs, seven encoded bytes and five bytes of names. -/
def smallSegment : ShmSizes := ⟨4, 8, 6, by decide, by decide, by decide⟩

/-- A job with a node at an address and a name of one byte. -/
def namedJob (jobId addr : Nat) (name : Byte) (xdr : List Byte) : ShmJob :=
  ⟨jobId, [], none, 1, 0, false, some ⟨addr, [name]⟩, some xdr⟩

/-- Two jobs share a name; the names and the encoded bytes of later ones reach around the end. -/
def wrappingCalls : List RingCall :=
  [.add (namedJob 1 7 65 [1, 2, 3]) none 2, .add (namedJob 2 7 65 [4, 5]) none 2,
    .add (namedJob 3 8 66 [6, 7]) none 2, .remove, .remove,
    .add (namedJob 4 9 67 [8, 9, 10]) none 2]

theorem wrapping_calls_intact :
    Run.Along (ringStep smallSegment) AddsKnownNodes init wrappingCalls ∧
    Intact smallSegment (Run.run (ringStep smallSegment) init (wrappingCalls.take 6)) ∧
    (live (Run.run (ringStep smallSegment) init (wrappingCalls.take 6))).map (·.job.jobId) =
      [3, 4] := by
  have h : Run.Along (ringStep smallSegment) AddsKnownNodes init wrappingCalls := by
    decide +kernel
  exact ⟨h, rings_intact smallSegment wrappingCalls h 6, by decide +kernel⟩

/-- The second job's node stands where that of the first one stood before it was freed. -/
def freedNodeCalls : List RingCall :=
  [.add (namedJob 1 7 65 [1, 2]) none 2, .add (namedJob 2 7 66 [3]) none 2]

/-- **A job is read back with the name of another one.** -/
theorem name_of_freed_node :
    let s := Run.run (ringStep smallSegment) init freedNodeCalls
    ((live s)[1]?).map (·.job) = some (namedJob 2 7 66 [3]) ∧
    getShmJobName smallSegment s (entryAt smallSegment s 1) = [65, 0] ∧
    ¬ Intact smallSegment s := by
  have hname : getShmJobName smallSegment (Run.run (ringStep smallSegment) init freedNodeCalls)
      (entryAt smallSegment (Run.run (ringStep smallSegment) init freedNodeCalls) 1) = [65, 0] := by
    decide +kernel
  have hlive : (live (Run.run (ringStep smallSegment) init freedNodeCalls))[1]? =
      some ⟨namedJob 2 7 66 [3], 0, 2⟩ := by
    decide +kernel
  refine ⟨by rw [hlive]; rfl, hname, fun h => ?_⟩
  have hread := h.name 1 _ hlive
  rw [hname] at hread
  revert hread
  decide

end Volclava
