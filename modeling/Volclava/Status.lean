import Mathlib

/-!
# Job status words

The status of a job is one 32-bit word (`lsbatch.h`, `daemons.h`). The low twenty bits hold
the state of the job, one bit per state plus the modifiers `WAIT` and `UNKWN`; the bits above
are flags (`RESERVE`, `MIG`, `ZOMBIE`, ...) that a state change leaves alone.

- `isPend`, `isStart`, `isFinish`, ...: the tests of the source, by bits.
- `jState`: the state a word stands for, read off the low bits without `UNKWN`.
- `jState_bits`: the outcome of each bit test, given the state.
-/

namespace Volclava

open BitVec

/-! ## Bits and masks -/

abbrev Status := BitVec 32

def jobStatNull : Status := 0x00#32
def jobStatPend : Status := 0x01#32
def jobStatPsusp : Status := 0x02#32
def jobStatRun : Status := 0x04#32
def jobStatSsusp : Status := 0x08#32
def jobStatUsusp : Status := 0x10#32
def jobStatExit : Status := 0x20#32
def jobStatDone : Status := 0x40#32
def jobStatPdone : Status := 0x80#32
def jobStatPerr : Status := 0x100#32
def jobStatWait : Status := 0x200#32
def jobStatUnkwn : Status := 0x10000#32

def jobStatReserve : Status := 0x20000000#32
def jobStatMig : Status := 0x40000000#32
def jobStatPreExec : Status := 0x04000000#32
def jobStatModifyOnce : Status := 0x01000000#32

def maskIntJobStat : Status := 0x000FFFFF#32

/-- The C test `s & f`. -/
def has (s f : Status) : Bool := s &&& f != 0#32

def maskStatus (s : Status) : Status := s &&& maskIntJobStat

/-- `SET_STATE`: the flags of `s` with the state bits `n`. -/
def setState (s n : Status) : Status := (s &&& ~~~maskIntJobStat) ||| n

def isPend (s : Status) : Bool := has s jobStatPend || has s jobStatPsusp
def isStart (s : Status) : Bool := has s jobStatRun || has s jobStatSsusp || has s jobStatUsusp
def isFinish (s : Status) : Bool := has s jobStatDone || has s jobStatExit
def isPostDone (s : Status) : Bool := s &&& jobStatPdone == jobStatPdone
def isPostErr (s : Status) : Bool := s &&& jobStatPerr == jobStatPerr
def isPostFinish (s : Status) : Bool := isPostDone s || isPostErr s

/-- The state bits without `UNKWN`, on which the state machine of the source switches. -/
def knownStatus (s : Status) : Status := maskStatus (s &&& ~~~jobStatUnkwn)

/-! ## States -/

/-- The states a status word can stand for. `rwait` is a started job with the `WAIT` bit,
`finish` is exactly `EXIT` or `DONE`, and `postFinish` a finished job with further bits set. -/
inductive JState where
  | pend | psusp | run | rwait | ssusp | ususp | finish | postFinish | other
  deriving DecidableEq, Repr

/-- The state of a status word. -/
def jState (s : Status) : JState :=
  if knownStatus s = jobStatPend then .pend
  else if knownStatus s = jobStatPsusp then .psusp
  else if knownStatus s = jobStatRun then .run
  else if knownStatus s = jobStatRun ||| jobStatWait then .rwait
  else if knownStatus s = jobStatSsusp then .ssusp
  else if knownStatus s = jobStatUsusp then .ususp
  else if knownStatus s = jobStatExit ∨ knownStatus s = jobStatDone then .finish
  else if isFinish s then .postFinish
  else .other

/-- The state bits of each state that has only one spelling. -/
theorem known_of_jState {s : Status} :
    (jState s = .pend → knownStatus s = jobStatPend) ∧
    (jState s = .psusp → knownStatus s = jobStatPsusp) ∧
    (jState s = .run → knownStatus s = jobStatRun) ∧
    (jState s = .rwait → knownStatus s = jobStatRun ||| jobStatWait) ∧
    (jState s = .ssusp → knownStatus s = jobStatSsusp) ∧
    (jState s = .ususp → knownStatus s = jobStatUsusp) ∧
    (jState s = .finish → knownStatus s = jobStatExit ∨ knownStatus s = jobStatDone) ∧
    (jState s = .postFinish → isFinish s = true) := by
  unfold jState
  split_ifs <;> simp_all

variable (s : Status) {f : Status}

/-- A bit among the state bits is read off the state bits. -/
theorem has_known (hf : (maskIntJobStat &&& ~~~jobStatUnkwn) &&& f = f) :
    has (knownStatus s) f = has s f := by
  have h : knownStatus s &&& f = s &&& ((maskIntJobStat &&& ~~~jobStatUnkwn) &&& f) := by
    simp only [knownStatus, maskStatus]
    ac_rfl
  rw [has, has, h, hf]

@[simp] theorem has_pend_known : has (knownStatus s) jobStatPend = has s jobStatPend :=
  has_known s rfl

@[simp] theorem has_psusp_known :
    has (knownStatus s) jobStatPsusp = has s jobStatPsusp := has_known s rfl

@[simp] theorem has_run_known : has (knownStatus s) jobStatRun = has s jobStatRun :=
  has_known s rfl

@[simp] theorem has_ssusp_known :
    has (knownStatus s) jobStatSsusp = has s jobStatSsusp := has_known s rfl

@[simp] theorem has_ususp_known :
    has (knownStatus s) jobStatUsusp = has s jobStatUsusp := has_known s rfl

@[simp] theorem has_wait_known : has (knownStatus s) jobStatWait = has s jobStatWait :=
  has_known s rfl

@[simp] theorem isPend_known : isPend (knownStatus s) = isPend s := by simp [isPend]

@[simp] theorem isStart_known : isStart (knownStatus s) = isStart s := by
  simp [isStart]

@[simp] theorem isFinish_known : isFinish (knownStatus s) = isFinish s := by
  rw [isFinish, isFinish, has_known s rfl, has_known s rfl]

@[simp] theorem known_known : knownStatus (knownStatus s) = knownStatus s := by
  have h : knownStatus (knownStatus s) = s &&& ((~~~jobStatUnkwn &&& ~~~jobStatUnkwn) &&&
      (maskIntJobStat &&& maskIntJobStat)) := by
    simp only [knownStatus, maskStatus]
    ac_rfl
  rw [h, knownStatus, maskStatus, BitVec.and_self, BitVec.and_self, BitVec.and_assoc]

@[simp] theorem known_maskStatus : knownStatus (maskStatus s) = knownStatus s := by
  have h : knownStatus (maskStatus s) =
      s &&& (~~~jobStatUnkwn &&& (maskIntJobStat &&& maskIntJobStat)) := by
    simp only [knownStatus, maskStatus]
    ac_rfl
  rw [h, knownStatus, maskStatus, BitVec.and_self, BitVec.and_assoc]

/-- The state depends on the known state bits only. -/
theorem jState_known : jState (knownStatus s) = jState s := by
  simp [jState]

theorem jState_congr {s t : Status} (h : knownStatus s = knownStatus t) : jState s = jState t := by
  rw [← jState_known s, h, jState_known]

/-! ## Changing a status word -/

/-- Setting or clearing a flag above the state bits leaves the state bits alone. -/
theorem known_or_flag (hf : f &&& ~~~jobStatUnkwn &&& maskIntJobStat = 0#32) :
    knownStatus (s ||| f) = knownStatus s := by
  rw [knownStatus, knownStatus, maskStatus, maskStatus, BitVec.and_or_distrib_right,
    BitVec.and_or_distrib_right, hf, or_zero]

theorem known_and_not_flag
    (hf : ~~~f &&& (~~~jobStatUnkwn &&& maskIntJobStat) = ~~~jobStatUnkwn &&& maskIntJobStat) :
    knownStatus (s &&& ~~~f) = knownStatus s := by
  rw [knownStatus, knownStatus, maskStatus, maskStatus, BitVec.and_assoc, BitVec.and_assoc, hf,
    BitVec.and_assoc]

@[simp] theorem known_setState (s n : Status) : knownStatus (setState s n) = knownStatus n := by
  have h : s &&& ~~~maskIntJobStat &&& ~~~jobStatUnkwn &&& maskIntJobStat =
      s &&& (~~~maskIntJobStat &&& ~~~jobStatUnkwn &&& maskIntJobStat) := by ac_rfl
  rw [setState, knownStatus, knownStatus, maskStatus, maskStatus, BitVec.and_or_distrib_right,
    BitVec.and_or_distrib_right, h]
  have h0 : ~~~maskIntJobStat &&& ~~~jobStatUnkwn &&& maskIntJobStat = 0#32 := rfl
  rw [h0, and_zero, zero_or]

/-- A new state leaves the reservation flag alone. -/
@[simp] theorem reserve_setState (s n : Status) :
    has (setState s (maskStatus n)) jobStatReserve = has s jobStatReserve := by
  have h : setState s (maskStatus n) &&& jobStatReserve = s &&& jobStatReserve := by
    rw [setState, maskStatus, BitVec.and_or_distrib_right, BitVec.and_assoc, BitVec.and_assoc]
    have h1 : ~~~maskIntJobStat &&& jobStatReserve = jobStatReserve := rfl
    have h2 : maskIntJobStat &&& jobStatReserve = 0#32 := rfl
    rw [h1, h2, and_zero, or_zero]
  rw [has, has, h]

theorem has_or_self (hf : f ≠ 0#32) : has (s ||| f) f = true := by
  rw [has, BitVec.and_or_distrib_right, BitVec.and_self, bne_iff_ne]
  exact fun h => hf (or_eq_zero_iff.1 h).2

theorem has_and_not_self (f : Status) : has (s &&& ~~~f) f = false := by
  rw [has, BitVec.and_assoc, BitVec.and_comm (~~~f), BitVec.and_not_self]
  simp

/-- Setting or clearing other flags leaves a flag alone. -/
theorem has_or_other {g : Status} (h : g &&& f = 0#32) : has (s ||| g) f = has s f := by
  rw [has, has, BitVec.and_or_distrib_right, h, or_zero]

theorem has_and_not_other {g : Status} (h : ~~~g &&& f = f) : has (s &&& ~~~g) f = has s f := by
  rw [has, has, BitVec.and_assoc, h]

@[simp] theorem reserve_or :
    has (s ||| jobStatReserve) jobStatReserve = true := has_or_self s (by decide)

@[simp] theorem reserve_and_not :
    has (s &&& ~~~jobStatReserve) jobStatReserve = false := has_and_not_self s _

theorem has_or {s f : Status} (h : has s f = true) (t : Status) : has (s ||| t) f = true := by
  rw [has, bne_iff_ne] at h ⊢
  intro h0
  rw [BitVec.and_or_distrib_right] at h0
  exact h (or_eq_zero_iff.1 h0).1

/-- Clearing some of the bits outside `k` leaves the bits in `k` alone. -/
theorem not_and_mask {f k : Status} (h : ~~~f &&& k = k) (off : Status) :
    ~~~(off &&& f) &&& k = k := by
  ext i hi
  have hi' := congrArg (fun w : Status => w.getLsbD i) h
  simp only [getLsbD_and, getLsbD_not] at hi'
  simp only [getElem_and, getElem_not]
  simp only [hi, decide_true, Bool.true_and, getLsbD_eq_getElem] at hi'
  revert hi'
  cases off[i] <;> cases f[i] <;> cases k[i] <;> simp

theorem and_eq_of_has {s : Status} {i : Nat} (hf : f = BitVec.twoPow 32 i) (h : has s f = true) :
    s &&& f = f := by
  subst hf
  rw [has, bne_iff_ne, and_twoPow] at h
  rw [and_twoPow]
  split_ifs at h ⊢
  · rfl
  · exact absurd rfl h

/-- Taking a flag away and setting it again. -/
theorem and_not_or_reserve {s : Status} (h : has s jobStatReserve = true) :
    (s &&& ~~~jobStatReserve) ||| jobStatReserve = s := by
  have hbit : s &&& jobStatReserve = jobStatReserve := and_eq_of_has (i := 29) (by decide) h
  calc (s &&& ~~~jobStatReserve) ||| jobStatReserve
      = (s &&& ~~~jobStatReserve) ||| (s &&& jobStatReserve) := by rw [hbit]
    _ = s &&& (~~~jobStatReserve ||| jobStatReserve) := (and_or_distrib_left ..).symm
    _ = s := by
      have h1 : ~~~jobStatReserve ||| jobStatReserve = BitVec.allOnes 32 := rfl
      rw [h1, and_allOnes]

/-- The state bits are those of the known state, with or without `UNKWN`. -/
theorem maskStatus_eq :
    maskStatus s = if has s jobStatUnkwn then knownStatus s ||| jobStatUnkwn
      else knownStatus s := by
  have hbit : s &&& jobStatUnkwn = if s.getLsbD 16 then jobStatUnkwn else 0#32 :=
    and_twoPow s 16
  have hsplit : maskStatus s = knownStatus s ||| (s &&& jobStatUnkwn) := by
    have h1 : knownStatus s = s &&& (maskIntJobStat &&& ~~~jobStatUnkwn) := by
      simp only [knownStatus, maskStatus]
      ac_rfl
    have h2 : maskIntJobStat &&& ~~~jobStatUnkwn ||| jobStatUnkwn = maskIntJobStat := rfl
    rw [h1, ← and_or_distrib_left, h2, maskStatus]
  rw [hsplit, has, hbit]
  cases s.getLsbD 16 <;> simp [jobStatUnkwn]

/-! ## Words with the same bits as far as the accounts can tell -/

/-- The state bits and the reservation flag of a word. -/
def canon (s : Status) : Status := knownStatus s ||| (s &&& jobStatReserve)

@[simp] theorem known_or_reserve :
    knownStatus (s ||| jobStatReserve) = knownStatus s := known_or_flag s rfl

@[simp] theorem known_and_not_reserve :
    knownStatus (s &&& ~~~jobStatReserve) = knownStatus s := known_and_not_flag s rfl

@[simp] theorem known_canon : knownStatus (canon s) = knownStatus s := by
  have h : s &&& jobStatReserve &&& ~~~jobStatUnkwn &&& maskIntJobStat = 0#32 := by
    rw [BitVec.and_assoc, BitVec.and_assoc]
    have h0 : jobStatReserve &&& (~~~jobStatUnkwn &&& maskIntJobStat) = 0#32 := rfl
    rw [h0, and_zero]
  rw [canon, known_or_flag _ h, known_known]

@[simp] theorem reserve_canon :
    has (canon s) jobStatReserve = has s jobStatReserve := by
  have h : canon s &&& jobStatReserve = s &&& jobStatReserve := by
    have h0 : ~~~jobStatUnkwn &&& maskIntJobStat &&& jobStatReserve = 0#32 := rfl
    rw [canon, BitVec.and_or_distrib_right, BitVec.and_assoc s, BitVec.and_self, knownStatus,
      maskStatus, BitVec.and_assoc s, BitVec.and_assoc s, h0, and_zero, zero_or]
  rw [has, has, h]

/-- The bits of `canon s`, given the state bits and the reservation flag. -/
theorem canon_eq {s k : Status} (hk : knownStatus s = k) {r : Bool}
    (hr : has s jobStatReserve = r) : canon s = if r then k ||| jobStatReserve else k := by
  have hbit : s &&& jobStatReserve = if r then jobStatReserve else 0#32 := by
    have h : s &&& jobStatReserve = if s.getLsbD 29 then jobStatReserve else 0#32 :=
      and_twoPow s 29
    subst hr
    rw [has, h]
    cases s.getLsbD 29 <;> rfl
  rw [canon, hk, hbit]
  cases r <;> simp

theorem isPend_congr {s t : Status} (h : knownStatus s = knownStatus t) : isPend s = isPend t := by
  rw [← isPend_known, h, isPend_known]

theorem isStart_congr {s t : Status} (h : knownStatus s = knownStatus t) :
    isStart s = isStart t := by
  rw [← isStart_known, h, isStart_known]

theorem isFinish_congr {s t : Status} (h : knownStatus s = knownStatus t) :
    isFinish s = isFinish t := by
  rw [← isFinish_known, h, isFinish_known]

end Volclava
