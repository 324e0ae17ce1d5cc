import Volclava.Accounts

/-!
# What the operations post

The movements of `mbd.misc.c` are chosen from the status words alone. Here the pending slots they
move are read off the states of the job before and after, and the job records that the operations
leave behind are described.

- `movedPend_counter`, `moved_res`, `switchMovement_cases`: the movements of a status change, of a
  reservation, and of a job that changes queue or bill.
- `jStatusChange_cases`, `handleRequeueJob_of_isFinish`, `modifyJob_shared`, ...: the records.
-/

namespace Volclava

variable {Q U H : Type}

theorem JData.num_nonneg (jp : JData Q U H) : 0 ≤ jp.num := Int.natCast_nonneg _

theorem JData.numReq_pos (jp : JData Q U H) : 0 < jp.numReq :=
  Int.natCast_pos.2 jp.jobBill.pos

/-- Whether a job is pending. -/
def JState.isPending : JState → Bool
  | .pend | .psusp => true
  | _ => false

/-- What a job adds to the number of pending jobs. -/
def JState.count (st : JState) : Int := if st.isPending then 1 else 0

/-- What a movement adds to the totals of the queue. -/
def moved : Option Movement → Slots
  | none => fun _ => 0
  | some mv => mv.acct

variable {s : Status}

/-! ## The words of a state -/

/-- A word of a state. Only `finish`, `postFinish` and `other` have more than one. -/
def JState.word : JState → Status
  | .pend => jobStatPend
  | .psusp => jobStatPsusp
  | .run => jobStatRun
  | .rwait => jobStatRun ||| jobStatWait
  | .ssusp => jobStatSsusp
  | .ususp => jobStatUsusp
  | .finish => jobStatExit
  | .postFinish => jobStatExit ||| jobStatDone
  | .other => jobStatNull

theorem known_word {st : JState} (h : jState s = st)
    (hst : st ≠ .finish ∧ st ≠ .postFinish ∧ st ≠ .other) : knownStatus s = st.word := by
  obtain ⟨hpend, hpsusp, hrun, hrwait, hssusp, hususp, -⟩ := known_of_jState (s := s)
  cases st with
  | pend => exact hpend h
  | psusp => exact hpsusp h
  | run => exact hrun h
  | rwait => exact hrwait h
  | ssusp => exact hssusp h
  | ususp => exact hususp h
  | _ => simp at hst

/-- The word of a state, `finish` apart. -/
theorem known_cases (h : jState s ≠ .postFinish ∧ jState s ≠ .other) :
    knownStatus s = (jState s).word ∨ (jState s = .finish ∧ knownStatus s = jobStatDone) := by
  by_cases hf : jState s = .finish
  · obtain ⟨-, -, -, -, -, -, hfin, -⟩ := known_of_jState (s := s)
    rcases hfin hf with hk | hk
    · left; rw [hf, hk]; rfl
    · exact .inr ⟨hf, hk⟩
  · exact .inl (known_word rfl ⟨hf, h⟩)

theorem isFinish_of_jState (h : jState s = .finish ∨ jState s = .postFinish) :
    isFinish s = true := by
  obtain ⟨-, -, -, -, -, -, hfin, hpost⟩ := known_of_jState (s := s)
  rcases h with h | h
  · rw [← isFinish_known]
    rcases hfin h with h | h <;> rw [h] <;> rfl
  · exact hpost h

theorem jState_of_isFinish (h : isFinish s = true) :
    jState s = .finish ∨ jState s = .postFinish := by
  have hk : ∀ w, knownStatus s = w → isFinish w = true := by
    intro w hw; rw [← hw, isFinish_known, h]
  obtain ⟨hpend, hpsusp, hrun, hrwait, hssusp, hususp, -⟩ := known_of_jState (s := s)
  cases hj : jState s with
  | pend => exact absurd (hk _ (hpend hj)) (by decide)
  | psusp => exact absurd (hk _ (hpsusp hj)) (by decide)
  | run => exact absurd (hk _ (hrun hj)) (by decide)
  | rwait => exact absurd (hk _ (hrwait hj)) (by decide)
  | ssusp => exact absurd (hk _ (hssusp hj)) (by decide)
  | ususp => exact absurd (hk _ (hususp hj)) (by decide)
  | other => unfold jState at hj; split_ifs at hj
  | _ => simp

theorem not_isPending_of_isFinish (h : isFinish s = true) : (jState s).isPending = false := by
  rcases jState_of_isFinish h with hj | hj <;> rw [hj] <;> rfl

theorem isPend_of_isPending (h : (jState s).isPending = true) : isPend s = true := by
  obtain ⟨hpend, hpsusp, -⟩ := known_of_jState (s := s)
  rw [← isPend_known]
  cases hj : jState s with
  | pend => rw [hpend hj]; rfl
  | psusp => rw [hpsusp hj]; rfl
  | _ => rw [hj] at h; cases h

/-- A word with a pending bit is of a pending job unless the job is finished. -/
theorem isPending_of_isPend (hs : jState s ≠ .other) (h : isPend s = true)
    (hf : isFinish s = false) : (jState s).isPending = true := by
  obtain ⟨-, -, hrun, hrwait, hssusp, hususp, -⟩ := known_of_jState (s := s)
  have hk : ∀ w, knownStatus s = w → isPend w = true := fun w hw => by rw [← hw, isPend_known, h]
  cases hj : jState s with
  | run => exact absurd (hk _ (hrun hj)) (by decide)
  | rwait => exact absurd (hk _ (hrwait hj)) (by decide)
  | ssusp => exact absurd (hk _ (hssusp hj)) (by decide)
  | ususp => exact absurd (hk _ (hususp hj)) (by decide)
  | finish => rw [isFinish_of_jState (.inl hj)] at hf; cases hf
  | postFinish => rw [isFinish_of_jState (.inr hj)] at hf; cases hf
  | other => exact absurd hj hs
  | _ => rfl

/-! ## Reservations -/

@[simp] theorem isPend_canon (s : Status) : isPend (canon s) = isPend s :=
  isPend_congr (known_canon s)

@[simp] theorem isStart_canon (s : Status) : isStart (canon s) = isStart s :=
  isStart_congr (known_canon s)

@[simp] theorem isFinish_canon (s : Status) : isFinish (canon s) = isFinish s :=
  isFinish_congr (known_canon s)

theorem resMovement_canon (s n : Status) (num numReq : Int) :
    resMovement (canon s) (canon n) num numReq = resMovement s n num numReq := by
  have h : has (canon n) jobStatPend = has n jobStatPend := by
    rw [← has_pend_known, known_canon, has_pend_known]
  simp [resMovement, h]

/-- The states in which a finished job's word cannot be mistaken for an unfinished one's. -/
theorem known_ne_of_postFinish (h : jState s = .postFinish) :
    knownStatus s ≠ jobStatPend ∧ knownStatus s ≠ jobStatPsusp ∧
    knownStatus s ≠ jobStatSsusp ∧ knownStatus s ≠ jobStatUsusp := by
  unfold jState at h
  split_ifs at h
  simp_all

/-- What a reservation moves: `a` in the total of the state, `b` in that of the reserved slots. -/
def reservedSlots (st : JState) (a b : Int) : Slots :=
  match st with
  | .pend | .psusp => slots 0 a 0 0 0 b
  | .ssusp => slots 0 0 0 a 0 b
  | .ususp => slots 0 0 0 0 a b
  | _ => fun _ => 0

theorem reservedSlots_numPEND (st : JState) (a b : Int) :
    reservedSlots st a b .numPEND = if st.isPending then a else 0 := by
  cases st <;> rfl

/-- A reservation taken or given up moves the slots of the hosts. -/
theorem moved_res {s n : Status} {r : Bool} (hs : has s jobStatReserve = !r)
    (hn : has n jobStatReserve = r) (hk : knownStatus n = knownStatus s)
    (hst : jState s ≠ .other) (num numReq : Int) :
    moved (resMovement s n num numReq) = reservedSlots (jState s)
      (if r then -num else num) (if r then num else -num) := by
  obtain ⟨hpend, hpsusp, hrun, hrwait, hssusp, hususp, hfin, -⟩ := known_of_jState (s := s)
  -- the two words with only the bits that matter
  have words : ∀ w, knownStatus s = w → resMovement s n num numReq =
      resMovement (if !r then w ||| jobStatReserve else w)
        (if r then w ||| jobStatReserve else w) num numReq := by
    intro w hw
    rw [← resMovement_canon, canon_eq hw hs, canon_eq (hk.trans hw) hn]
  cases hj : jState s with
  | pend => rw [words _ (hpend hj)]; cases r <;> rfl
  | psusp => rw [words _ (hpsusp hj)]; cases r <;> rfl
  | run => rw [words _ (hrun hj)]; cases r <;> rfl
  | rwait => rw [words _ (hrwait hj)]; cases r <;> rfl
  | ssusp => rw [words _ (hssusp hj)]; cases r <;> rfl
  | ususp => rw [words _ (hususp hj)]; cases r <;> rfl
  | finish => rcases hfin hj with h | h <;> rw [words _ h] <;> cases r <;> rfl
  | postFinish =>
    obtain ⟨h1, h2, h3, h4⟩ := known_ne_of_postFinish hj
    have h0 : resMovement s n num numReq = none := by simp [resMovement, h1, h2, h3, h4]
    rw [h0]; rfl
  | other => exact absurd hj hst

theorem resMovement_none {s n : Status} (hs : has s jobStatReserve = false)
    (hn : has n jobStatReserve = false) (num numReq : Int) :
    resMovement s n num numReq = none := by
  simp [resMovement, hs, hn]

/-- Whether `resetReserve` releases the reservation of a job with status `o` that is about to
take the state `n`. -/
def resets (o n : Status) : Bool :=
  ((has n jobStatPsusp || isFinish n) && has o jobStatPend) ||
    (isStart o && (has n jobStatRun || isFinish n || has n jobStatUsusp || has n jobStatPend))

theorem resets_known (o n : Status) : resets (knownStatus o) (knownStatus n) = resets o n := by
  simp [resets]

/-! ## Status changes -/

/-- The state changes after which the count is right: those that `updCounters` has a movement
for, and those that keep the job pending or not pending. -/
def pendCounted : JState → JState → Bool
  | .other, _ | _, .other => false
  | .pend, .rwait | .psusp, .rwait | .psusp, .ssusp | .psusp, .ususp => false
  | .pend, .postFinish | .psusp, .postFinish => false
  | .pend, .psusp | .psusp, .psusp => true
  | _, .psusp => false
  | .finish, .pend | .postFinish, .pend => false
  | _, _ => true

theorem counterMovement_known (o n : Status) (num numReq : Int) :
    counterMovement (knownStatus o) (knownStatus n) num numReq =
      counterMovement o n num numReq := by
  simp [counterMovement]

theorem counterMovement_postFinish {o n : Status} (hn : jState n = .postFinish)
    (num numReq : Int) : counterMovement o n num numReq = none := by
  have h : knownStatus n ≠ jobStatRun ∧ knownStatus n ≠ jobStatSsusp ∧
      knownStatus n ≠ jobStatUsusp ∧ knownStatus n ≠ jobStatExit ∧
      knownStatus n ≠ jobStatDone ∧ knownStatus n ≠ jobStatPend := by
    unfold jState at hn
    split_ifs at hn
    simp_all
  simp [counterMovement, h]

/-- What `updCounters` moves depends on the two states only. -/
theorem counterMovement_word {o n : Status} (ho : jState o ≠ .other) (hn : jState n ≠ .other)
    (num numReq : Int) : counterMovement o n num numReq =
      counterMovement (jState o).word (jState n).word num numReq := by
  by_cases hf : isFinish o = true
  · have hw : isFinish (jState o).word = true := by
      rcases jState_of_isFinish hf with hj | hj <;> rw [hj] <;> rfl
    rw [counterMovement, counterMovement, if_pos hf, if_pos hw]
  have ko : knownStatus o = (jState o).word := known_word rfl
    ⟨fun h => hf (isFinish_of_jState (.inl h)), fun h => hf (isFinish_of_jState (.inr h)), ho⟩
  by_cases hp : jState n = .postFinish
  · rw [counterMovement_postFinish hp, hp, counterMovement_postFinish rfl]
  rw [← counterMovement_known, ko]
  rcases known_cases ⟨hp, hn⟩ with hk | ⟨hj, hk⟩
  · rw [hk]
  · rw [hk, hj]
    cases jState o <;> rfl

/-- **The pending slots `updCounters` moves** in a counted change are all slots of a job that
becomes pending or stops being so. -/
theorem movedPend_counter {o n : Status} (h : pendCounted (jState o) (jState n))
    (num numReq : Int) : moved (counterMovement o n num numReq) .numPEND =
      numReq * ((jState n).count - (jState o).count) := by
  have ho : jState o ≠ .other := by intro ho; rw [ho] at h; cases h
  have hn : jState n ≠ .other := by
    intro hn; rw [hn] at h; generalize jState o = a at h; cases a <;> cases h
  rw [counterMovement_word ho hn]
  generalize jState o = a at h
  generalize jState n = b at h
  cases a <;> cases b <;>
    first
      | exact absurd h (by decide)
      | (simp [JState.count, JState.isPending]; rfl)

/-- A reservation that outlives a counted change to a pending state belonged to a pending job. -/
theorem pending_of_kept {o n : Status} (h : pendCounted (jState o) (jState n))
    (hn : (jState n).isPending = true) (hr : resets o n = false) :
    (jState o).isPending = true := by
  by_cases ho : jState o = .finish ∨ jState o = .postFinish ∨ jState o = .other
  · generalize jState n = b at h hn
    rcases ho with ho | ho | ho <;> rw [ho] at h <;> cases b <;>
      first | exact absurd h (by decide) | exact absurd hn (by decide)
  push Not at ho
  have hn' : jState n ≠ .finish ∧ jState n ≠ .postFinish ∧ jState n ≠ .other := by
    refine ⟨?_, ?_, ?_⟩ <;> intro h' <;> rw [h'] at hn <;> cases hn
  rw [← resets_known, known_word rfl ho, known_word rfl hn'] at hr
  generalize jState o = a at h hr
  generalize jState n = b at h hr hn
  cases a <;> cases b <;>
    first
      | rfl
      | exact absurd hn (by decide)
      | exact absurd h (by decide)
      | exact absurd hr (by decide)

theorem known_clearFlags (o n s : Status) : knownStatus (clearFlags o n s) = knownStatus s := by
  unfold clearFlags
  split_ifs
  · exact known_and_not_flag s rfl
  · exact known_and_not_flag s rfl
  · exact known_and_not_flag s rfl
  · rfl

theorem reserve_clearFlags (o n s : Status) :
    has (clearFlags o n s) jobStatReserve = has s jobStatReserve := by
  unfold clearFlags
  split_ifs
  · exact has_and_not_other s rfl
  · exact has_and_not_other s rfl
  · exact has_and_not_other s rfl
  · rfl

theorem known_flags (s on off : Status) :
    knownStatus ((s ||| (on &&& freeFlags)) &&& ~~~(off &&& freeFlags)) = knownStatus s := by
  rw [known_and_not_flag _ (not_and_mask rfl off), known_or_flag]
  rw [BitVec.and_assoc, BitVec.and_assoc]
  have h : freeFlags &&& (~~~jobStatUnkwn &&& maskIntJobStat) = 0#32 := rfl
  rw [h, BitVec.and_zero]

theorem reserve_flags (s on off : Status) :
    has ((s ||| (on &&& freeFlags)) &&& ~~~(off &&& freeFlags)) jobStatReserve =
      has s jobStatReserve := by
  rw [has_and_not_other _ (not_and_mask rfl off), has_or_other]
  have h : freeFlags &&& jobStatReserve = 0#32 := rfl
  rw [BitVec.and_assoc, h, BitVec.and_zero]

/-! ## Switches -/

/-- The jobs `updSwitchJob` can move: it knows neither a pending job marked `UNKWN` nor a
started job marked `WAIT`. -/
def movable (s : Status) : Bool :=
  isFinish s || if isPend s then !has s jobStatUnkwn else !has s jobStatWait

theorem movable_unreserve (s : Status) : movable (s &&& ~~~jobStatReserve) = movable s := by
  have hk := known_and_not_reserve s
  have hw : has (s &&& ~~~jobStatReserve) jobStatWait = has s jobStatWait := by
    rw [← has_wait_known, hk, has_wait_known]
  have hu : has (s &&& ~~~jobStatReserve) jobStatUnkwn = has s jobStatUnkwn := by
    have h : ~~~jobStatReserve &&& jobStatUnkwn = jobStatUnkwn := rfl
    rw [has, has, BitVec.and_assoc, h]
  rw [movable, movable, isFinish_congr hk, isPend_congr hk, hw, hu]

theorem switchMovement_mask (s : Status) (one num numReq : Int) :
    switchMovement (maskStatus s) one num numReq = switchMovement s one num numReq := by
  have h : maskStatus (maskStatus s) = maskStatus s := by
    rw [maskStatus, maskStatus, BitVec.and_assoc, BitVec.and_self]
  simp [switchMovement, h]

theorem switchMovement_none (h : isFinish s = true) (one num numReq : Int) :
    switchMovement s one num numReq = none := by
  have hk : ∀ w, maskStatus s = w → isFinish w = true := by
    intro w hw
    rw [← hw, isFinish_congr (known_maskStatus s), h]
  have hne : ∀ w, isFinish w = false → maskStatus s ≠ w := by
    intro w hw hs
    rw [hk w hs] at hw
    cases hw
  simp only [switchMovement]
  rw [if_neg, if_neg, if_neg, if_neg] <;> rintro (h' | h') <;> exact hne _ (by decide) h'

/-- The movement that puts a pending job into a queue is all its slots; a job that cannot be moved
has none. -/
theorem switchMovement_cases (hs : jState s ≠ .other) (hfin : isFinish s = false)
    (one num numReq : Int) :
    if movable s then ∃ mv, switchMovement s one num numReq = some mv ∧
      mv.acct .numPEND = if (jState s).isPending then numReq else 0
    else switchMovement s one num numReq = none := by
  have hf : jState s ≠ .finish ∧ jState s ≠ .postFinish := by
    constructor <;> intro h <;> rw [isFinish_of_jState (by simp [h])] at hfin <;> cases hfin
  have hk : knownStatus s = (jState s).word := known_word rfl ⟨hf.1, hf.2, hs⟩
  have hmask := maskStatus_eq s
  rw [hk] at hmask
  -- the tests of `movable` read off the word
  have hm : movable s = if isPend (jState s).word then !has s jobStatUnkwn
      else !has (jState s).word jobStatWait := by
    rw [movable, hfin, Bool.false_or, ← hk, isPend_known, has_wait_known]
  rw [hm, ← switchMovement_mask, hmask]
  generalize has s jobStatUnkwn = b
  generalize jState s = a at hf hs
  cases a <;> cases b <;>
    first
      | rfl
      | exact ⟨_, rfl, rfl⟩
      | simp at hf hs

/-! ## What the operations do to the job record -/

section Record

variable (c : Cur Q U H)

/-- The bill of the next execution leaves the hosts and the state alone. -/
theorem changeJobParams_jp : (changeJobParams c).totals = c.totals ∧
    (changeJobParams c).jp.uPtr = c.jp.uPtr ∧ (changeJobParams c).jp.hPtr = c.jp.hPtr ∧
    knownStatus (changeJobParams c).jp.jStatus = knownStatus c.jp.jStatus ∧
    has (changeJobParams c).jp.jStatus jobStatReserve = has c.jp.jStatus jobStatReserve := by
  have hon : ∀ s : Status, knownStatus (s ||| jobStatModifyOnce) = knownStatus s ∧
      has (s ||| jobStatModifyOnce) jobStatReserve = has s jobStatReserve :=
    fun s => ⟨known_or_flag s rfl, has_or_other s rfl⟩
  have hoff : ∀ s : Status, knownStatus (s &&& ~~~jobStatModifyOnce) = knownStatus s ∧
      has (s &&& ~~~jobStatModifyOnce) jobStatReserve = has s jobStatReserve :=
    fun s => ⟨known_and_not_flag s rfl, has_and_not_other s rfl⟩
  unfold changeJobParams
  cases c.jp.newSub with
  | none => simp
  | some newSub =>
    dsimp only
    split_ifs <;> simp [Cur.setStatus, Cur.setNewSub, Cur.setBill, Cur.setQueue, hon, hoff]

theorem doWhen_changeJobParams_jp (b : Bool) : let d := doWhen b changeJobParams c
    d.totals = c.totals ∧ d.jp.uPtr = c.jp.uPtr ∧ d.jp.hPtr = c.jp.hPtr ∧
      jState d.jp.jStatus = jState c.jp.jStatus ∧
      has d.jp.jStatus jobStatReserve = has c.jp.jStatus jobStatReserve ∧
      (b = false → d.jp.jobBill = c.jp.jobBill) := by
  cases b with
  | true =>
    obtain ⟨ht, hu, hp, hk, hr⟩ := changeJobParams_jp c
    exact ⟨ht, hu, hp, jState_congr hk, hr, nofun⟩
  | false => exact ⟨rfl, rfl, rfl, rfl, rfl, fun _ => rfl⟩

theorem saveOldParameters_jp : ∃ s sub, (saveOldParameters c).jp =
      { c.jp with jStatus := s, shared := .own sub } ∧ knownStatus s = knownStatus c.jp.jStatus ∧
    has s jobStatReserve = has c.jp.jStatus jobStatReserve ∧ movable s = movable c.jp.jStatus := by
  have hk : knownStatus (c.jp.jStatus ||| jobStatModifyOnce) = knownStatus c.jp.jStatus :=
    known_or_flag _ rfl
  refine ⟨c.jp.jStatus ||| jobStatModifyOnce, _, rfl, hk, has_or_other _ rfl, ?_⟩
  rw [movable, movable, isFinish_congr hk, isPend_congr hk, has_or_other _ rfl, has_or_other _ rfl]

/-- A job that has got a new bill. -/
theorem takeBill_jp (bill : JobBill Q) (once : Bool) : (takeBill bill once c).totals = c.totals ∧
    ∃ s sub bill', (takeBill bill once c).jp =
        { c.jp with jStatus := s, jobBill := bill', shared := sub } ∧
      knownStatus s = knownStatus c.jp.jStatus ∧
      has s jobStatReserve = has c.jp.jStatus jobStatReserve ∧ movable s = movable c.jp.jStatus ∧
      (isFinish c.jp.jStatus = false ∨ once = false → bill' = bill) ∧
      (sub = c.jp.shared ∨ once = true ∧ ∃ n, sub = .own n) := by
  unfold takeBill
  split_ifs with honce hf
  · simp only [Bool.and_eq_true] at honce
    exact ⟨rfl, _, .own (some bill), _, rfl, rfl, rfl, rfl, by simp [hf, honce],
      .inr ⟨honce.2, _, rfl⟩⟩
  · simp only [Bool.and_eq_true] at honce
    obtain ⟨s, sub, hjp, hk, hr, hm⟩ := saveOldParameters_jp c
    exact ⟨rfl, s, .own sub, bill, by rw [Cur.setBill, hjp], hk, hr, hm, fun _ => rfl,
      .inr ⟨honce.2, _, rfl⟩⟩
  · exact ⟨rfl, _, _, bill, rfl, rfl, rfl, rfl, fun _ => rfl, .inl rfl⟩

/-- The end of a queue: the queue is another one, in the job and in its bill. -/
theorem jobInQueueEnd_jp (q : Q) : (Cur.jobInQueueEnd q c).totals = c.totals ∧
    ∃ q' bill, (Cur.jobInQueueEnd q c).jp = { c.jp with qPtr := q', jobBill := bill } ∧
      bill.maxNumProcessors = c.jp.jobBill.maxNumProcessors := by
  unfold Cur.jobInQueueEnd doWhen
  split
  · exact ⟨rfl, q, { c.jp.jobBill with queue := q }, rfl, rfl⟩
  · exact ⟨rfl, _, _, rfl, rfl⟩

variable [DecidableEq Q] [DecidableEq U] [DecidableEq H] {g : Books U}

@[simp] theorem updAll_jp (mv : Option Movement) : (updAll g c mv).jp = c.jp := by
  rcases mv with - | ⟨d, - | dh⟩ <;> rfl

theorem reserve_eq : reserve g c =
    ⟨(updAll g c (resMovement c.jp.jStatus (c.jp.jStatus ||| jobStatReserve) c.jp.num
      c.jp.numReq)).totals, { c.jp with jStatus := c.jp.jStatus ||| jobStatReserve }⟩ := by
  simp [reserve, Cur.setStatus, updResCounters]

theorem unreserve_eq : unreserve g c =
    ⟨(updAll g c (resMovement c.jp.jStatus (c.jp.jStatus &&& ~~~jobStatReserve) c.jp.num
      c.jp.numReq)).totals, { c.jp with jStatus := c.jp.jStatus &&& ~~~jobStatReserve }⟩ := by
  simp [unreserve, Cur.setStatus, updResCounters]

@[simp] theorem reserve_jp :
    (reserve g c).jp = { c.jp with jStatus := c.jp.jStatus ||| jobStatReserve } := by
  rw [reserve_eq]

@[simp] theorem unreserve_jp :
    (unreserve g c).jp = { c.jp with jStatus := c.jp.jStatus &&& ~~~jobStatReserve } := by
  rw [unreserve_eq]

/-- A reservation that is given up: the word loses its flag, and the job its hosts. -/
theorem freeReserveSlots_jp :
    ∃ s hPtr, (freeReserveSlots g c).jp = { c.jp with jStatus := s, hPtr := hPtr } ∧
      knownStatus s = knownStatus c.jp.jStatus ∧ has s jobStatReserve = false ∧
      movable s = movable c.jp.jStatus := by
  unfold freeReserveSlots doWhen
  split
  · refine ⟨_, [], ?_, known_and_not_reserve _, reserve_and_not _, movable_unreserve _⟩
    simp [deallocHosts]
  · next hr => exact ⟨_, _, rfl, rfl, by simpa using hr, rfl⟩

theorem resetReserve_jp (n : Status) :
    ∃ s hPtr, (resetReserve g n c).jp = { c.jp with jStatus := s, hPtr := hPtr } ∧
      knownStatus s = knownStatus c.jp.jStatus ∧
      has s jobStatReserve = (has c.jp.jStatus jobStatReserve && !resets c.jp.jStatus n) := by
  unfold resetReserve resets
  generalize ((has n jobStatPsusp || isFinish n) && has c.jp.jStatus jobStatPend) = b₁
  generalize (has n jobStatRun || isFinish n || has n jobStatUsusp || has n jobStatPend) = b₂
  have h₁ : ∃ s hPtr, (doWhen b₁ (freeReserveSlots g) c).jp =
        { c.jp with jStatus := s, hPtr := hPtr } ∧ knownStatus s = knownStatus c.jp.jStatus ∧
      has s jobStatReserve = (has c.jp.jStatus jobStatReserve && !b₁) := by
    cases b₁ with
    | true =>
      obtain ⟨s, hPtr, hjp, hk, hr, -⟩ := freeReserveSlots_jp (g := g) c
      exact ⟨s, hPtr, hjp, hk, by rw [hr, Bool.not_true, Bool.and_false]⟩
    | false => exact ⟨_, _, rfl, rfl, (Bool.and_true _).symm⟩
  obtain ⟨s, hPtr, hjp, hk, hr⟩ := h₁
  dsimp only
  generalize doWhen b₁ (freeReserveSlots g) c = c' at hjp
  have hstart : isStart c'.jp.jStatus = isStart c.jp.jStatus := by
    rw [hjp]
    exact isStart_congr hk
  rw [hstart]
  cases isStart c.jp.jStatus && b₂ with
  | false => exact ⟨s, hPtr, hjp, hk, by rw [hr, Bool.or_false]⟩
  | true =>
    refine ⟨s &&& ~~~jobStatReserve, hPtr, ?_, (known_and_not_reserve s).trans hk, by simp⟩
    show (unreserve g c').jp = _
    rw [unreserve_jp, hjp]

variable {c : Cur Q U H}

/-- **What a status change does**, unless the state stays: it deals with the reservation, gives a
job that ends the bill of its next execution, posts the movement to the new word, and takes the
hosts of a started job that becomes pending. -/
theorem jStatusChange_cases (n : Status) :
    knownStatus n = knownStatus c.jp.jStatus ∧ jStatusChange g n c = c ∨
    knownStatus n ≠ knownStatus c.jp.jStatus ∧ ∃ (c₁ : Cur Q U H) (s : Status) (b : Bool),
      doWhen (has c.jp.jStatus jobStatReserve) (resetReserve g (maskStatus n)) c = c₁ ∧
      jState c₁.jp.jStatus = jState c.jp.jStatus ∧
      has c₁.jp.jStatus jobStatReserve =
        (has c.jp.jStatus jobStatReserve && !resets c.jp.jStatus (maskStatus n)) ∧
      jState s = jState n ∧ has s jobStatReserve = has c₁.jp.jStatus jobStatReserve ∧
      (b = true → isFinish n = true) ∧
      jStatusChange g n c = doWhen (freeExec c.jp.jStatus (maskStatus n)) (·.setHosts [])
        (updCounters g c.jp.jStatus (doWhen b changeJobParams (c₁.setStatus s))) := by
  rw [jStatusChange]
  by_cases hne : knownStatus n = knownStatus c.jp.jStatus
  · exact .inl ⟨hne, if_pos hne⟩
  refine .inr ⟨hne, ?_⟩
  obtain ⟨c₁, hc₁⟩ : ∃ c₁, doWhen (has c.jp.jStatus jobStatReserve)
    (resetReserve g (maskStatus n)) c = c₁ := ⟨_, rfl⟩
  have h₁ : knownStatus c₁.jp.jStatus = knownStatus c.jp.jStatus ∧
      has c₁.jp.jStatus jobStatReserve =
        (has c.jp.jStatus jobStatReserve && !resets c.jp.jStatus (maskStatus n)) := by
    rw [← hc₁]
    unfold doWhen
    split
    · obtain ⟨s, hPtr, hjp, hk, hr⟩ := resetReserve_jp (g := g) c (maskStatus n)
      rw [hjp]
      exact ⟨hk, hr⟩
    · simp_all
  have hs : knownStatus (clearFlags c.jp.jStatus (maskStatus n)
        (setState c₁.jp.jStatus (maskStatus n))) = knownStatus n := by
    rw [known_clearFlags, known_setState, known_maskStatus]
  refine ⟨c₁, _, finishes c.jp.jStatus (maskStatus n) && c₁.jp.jobBill.modifyOnce, hc₁,
    jState_congr h₁.1, h₁.2, jState_congr hs, ?_, fun hb => ?_, ?_⟩
  · rw [reserve_clearFlags, reserve_setState]
  · rw [← isFinish_congr (known_maskStatus n)]
    rw [Bool.and_eq_true, finishes, Bool.and_eq_true] at hb
    exact hb.1.2
  · rw [if_neg hne]
    dsimp only
    rw [hc₁]
    rfl

/-- What `handleRequeueJob` does with a finished job: it enters again as a pending one. -/
theorem handleRequeueJob_of_isFinish (hf : isFinish c.jp.jStatus = true) (psusp : Bool) :
    ∃ jp : JData Q U H, handleRequeueJob g psusp c = enterSlots g 1 ⟨c.totals, jp⟩ ∧
      jp.uPtr = c.jp.uPtr ∧ (jp.jStatus = jobStatPsusp ∨ jp.jStatus = jobStatPend) := by
  obtain ⟨ht, hu, -⟩ := changeJobParams_jp c
  rw [handleRequeueJob, if_pos hf]
  dsimp only
  refine ⟨(((changeJobParams c).setStatus (if psusp then jobStatPsusp else jobStatPend)).setHosts
    []).jp, ?_, hu, by cases psusp <;> simp [Cur.setStatus, Cur.setHosts]⟩
  rw [← ht]
  rfl

theorem moveSlots_self (h : switchMovement c.jp.jStatus 1 c.jp.num c.jp.numReq = none) (qfp qtp : Q)
    (oldNumReq : Int) : moveSlots g qfp qtp oldNumReq c = c := by
  unfold moveSlots
  rw [h]
  split
  · next h' => cases h'
  · rfl

/-- Moving slots changes nothing of the job but its queue. -/
theorem moveSlots_jp (qfp qtp : Q) (oldNumReq : Int) :
    ∃ q, (moveSlots g qfp qtp oldNumReq c).jp = { c.jp with qPtr := q } := by
  unfold moveSlots
  split
  · exact ⟨qtp, by simp [Cur.setQueue]⟩
  · exact ⟨c.jp.qPtr, rfl⟩

/-- So does `updSwitchJob`. -/
theorem updSwitchJob_jp (qfp qtp : Q) (oldNumReq : Int) :
    ∃ q, (updSwitchJob g qfp qtp oldNumReq c).jp = { c.jp with qPtr := q } := by
  unfold updSwitchJob
  split
  · next hr =>
      obtain ⟨q, hq⟩ := moveSlots_jp (g := g) (c := (unreserve g (c.setQueue qfp)).setQueue qtp)
        qfp qtp oldNumReq
      refine ⟨q, ?_⟩
      rw [reserve_jp, hq]
      simp [Cur.setQueue, and_not_or_reserve hr]
  · exact moveSlots_jp qfp qtp oldNumReq

/-- The job with its slots moved has the processors and the sharing it had. -/
theorem moved_shared (b b' : Bool) (qfp q : Q) (oldNumReq : Int) :
    let c' := updSwitchJob g qfp q oldNumReq
      (doWhen b (Cur.jobInQueueEnd q) (doWhen b' (freeReserveSlots g) c))
    c'.jp.shared = c.jp.shared ∧
      c'.jp.jobBill.maxNumProcessors = c.jp.jobBill.maxNumProcessors := by
  dsimp only
  have h1 := doWhen_of (P := fun d : Cur Q U H => d.jp.shared = c.jp.shared ∧
      d.jp.jobBill.maxNumProcessors = c.jp.jobBill.maxNumProcessors) (b := b')
    (f := freeReserveSlots g) ⟨rfl, rfl⟩ fun _ => by
      obtain ⟨s, hPtr, hjp, -⟩ := freeReserveSlots_jp (g := g) c
      rw [hjp]
      exact ⟨rfl, rfl⟩
  generalize doWhen b' (freeReserveSlots g) c = c₁ at h1
  have h2 := doWhen_of (P := fun d : Cur Q U H => d.jp.shared = c.jp.shared ∧
      d.jp.jobBill.maxNumProcessors = c.jp.jobBill.maxNumProcessors) (b := b)
    (f := Cur.jobInQueueEnd q) h1 fun _ => by
      obtain ⟨-, q', bill, hjp, hmax⟩ := jobInQueueEnd_jp c₁ q
      rw [hjp]
      exact ⟨h1.1, hmax.trans h1.2⟩
  obtain ⟨q', hq'⟩ :=
    updSwitchJob_jp (g := g) (c := doWhen b (Cur.jobInQueueEnd q) c₁) qfp q oldNumReq
  rw [hq']
  exact h2

/-- **The bill of a modified job**: it is the new one, or no other job shares it. -/
theorem modifyJob_shared (bill : JobBill Q) (once : Bool) (run : RunMod) :
    (∃ n, (modifyJob g bill once run c).jp.shared = .own n) ∨
      (modifyJob g bill once run c).jp.shared = c.jp.shared ∧
      (modifyJob g bill once run c).jp.jobBill.maxNumProcessors = bill.maxNumProcessors := by
  -- a job that shares its bill is pending or finished, and the bill is not for one execution
  have key : ∀ d : Cur Q U H, let d' := handleJParameters g bill once run d
      ((∃ n, d.jp.shared = .own n) → ∃ n, d'.jp.shared = .own n) ∧
      (once = false → (isPend d.jp.jStatus || isFinish d.jp.jStatus) = true →
        d'.jp.shared = d.jp.shared ∧
        d'.jp.jobBill.maxNumProcessors = bill.maxNumProcessors) := by
    intro d
    unfold handleJParameters
    dsimp only
    split
    · obtain ⟨-, s, sub, bill', hjp, -, -, -, hb, hsub⟩ := takeBill_jp d bill once
      have hown : (∃ n, d.jp.shared = .own n) → ∃ n, sub = .own n :=
        fun h => hsub.elim (fun heq => heq ▸ h) fun h => h.2
      have hsame : once = false → sub = d.jp.shared ∧ bill' = bill := fun ho =>
        ⟨hsub.resolve_right (by simp [ho]), hb (.inr ho)⟩
      split_ifs
      · rw [(moved_shared ..).1, (moved_shared ..).2, hjp]
        exact ⟨hown, fun ho _ => ⟨(hsame ho).1, congrArg _ (hsame ho).2⟩⟩
      · rw [hjp]
        exact ⟨hown, fun ho _ => ⟨(hsame ho).1, congrArg _ (hsame ho).2⟩⟩
    · next hpf =>
        refine ⟨fun h => ?_, fun _ h => absurd h hpf⟩
        cases run with
        | resReq => exact h
        | atOnce =>
          cases once with
          | true => exact ⟨_, rfl⟩
          | false => exact h
        | next => exact ⟨_, rfl⟩
  unfold modifyJob doWhen
  split
  · exact .inl ((key (localizeJobElement c)).1 ⟨_, rfl⟩)
  · next hb =>
      simp only [Bool.or_eq_true, Bool.not_eq_true', not_or, Bool.not_eq_true,
        Bool.not_eq_false] at hb
      exact .inr ((key c).2 hb.1 (Bool.or_eq_true .. ▸ hb.2))

theorem handleNewJobArray_eq (u : U) (bill : JobBill Q) (a numJobs : Nat) (hold : Bool)
    (t : Totals Q U H) :
    (handleNewJobArray g u bill a numJobs hold t).totals =
      (enterSlots g numJobs ⟨t, newJData u bill (.array a)⟩).totals ∧
    (handleNewJobArray g u bill a numJobs hold t).jp =
      { newJData u bill (.array a) with
        jStatus := if hold then jobStatPsusp else jobStatPend } := by
  cases hold with
  | true => exact ⟨rfl, by simp [handleNewJobArray, doWhen, enterSlots, Cur.setStatus]⟩
  | false => exact ⟨rfl, by simp [handleNewJobArray, doWhen, enterSlots, newJData]⟩

end Record

end Volclava
