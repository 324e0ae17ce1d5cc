import Volclava.Lib.Cap

/-!
# Slots of a host

Before a job is placed on a host, `getHostJobSlots` (`mbd.policy.c`) works out how many slots the
job may take there. Seven kinds of limits are asked in four functions: the queue's limits per
processor and per host, the host's limit, the host's limit per user, and the limits per processor of
the user and of every group of the user. Each function subtracts what is used already in its own
way: the limits of the host, of its users and of the user per processor let a job count on slots of
suspended jobs. How many is read from an account, or from a local variable that was never assigned.

- `limits`: the finite limits with what is counted against them.
- `getHostJobSlots_numSlots`: the answer is the least of what the limits offer.
- `slots_within_limits_iff`: when no limit can be exceeded.

The part of `getHostJobSlots` that looks for backfillees comes before the limits and is left out
here, as are the `logclass` messages.
-/

namespace Volclava.HostSlots

open Cap List

/-- `INFINIT_INT`: no limit. -/
def infinitInt : Int := 0x7fffffff

/-- `INFINIT_FLOAT`: the `float` nearest to `INFINIT_INT`. -/
def infinitFloat : ℚ := 2 ^ 31

/-- Why a job stays pending on a host. -/
inductive PendReason where
  | queProcJLimit | queHostJLimit | hostJobLimit | hostUsrJLimit | userProcJLimit | ugrpProcJLimit
  | other (reason : Nat)
  deriving DecidableEq, Repr

/-- The product of a `float` and an `int`, rounded in whatever way the machine rounds it. -/
structure FloatMul where
  mul : ℚ → Nat → ℚ
  mul_nonpos : ∀ p n, p ≤ 0 → mul p n ≤ 0

/-- The slots of a queue, a user or a group on a host (`hostAcct`, `userAcct`). -/
structure Acct where
  numRUN : Nat
  numSSUSP : Nat
  numUSUSP : Nat
  numRESERVE : Nat
  numAvailSUSP : Nat
  deriving DecidableEq

variable {H U Q : Type}

/-- A host. `numJobs` counts the slots of all jobs on it. That it is the sum of the four counters,
`numJobs_eq`, is assumed of the state: every call of `updHostData` adds as much to `numJobs` as to
the four together. -/
structure HData (U : Type) where
  numCPUs : Nat
  maxJobs : Int
  uJobLimit : Int
  numJobs : Nat
  numRUN : Nat
  numSSUSP : Nat
  numUSUSP : Nat
  numRESERVE : Nat
  uAcct : U → Option Acct
  numJobs_eq : numJobs = numRUN + numSSUSP + numUSUSP + numRESERVE
  maxJobs_le : maxJobs ≤ infinitInt
  uJobLimit_le : uJobLimit ≤ infinitInt

/-- A user or a user group. -/
structure UData (H U : Type) where
  pJobLimit : ℚ
  hAcct : H → Option Acct
  gPtr : List U

structure QData (H : Type) where
  pJobLimit : ℚ
  hJobLimit : Int
  hAcct : H → Option Acct
  hJobLimit_le : hJobLimit ≤ infinitInt

/-- What the limits of a host are read from. -/
structure Cluster (H U Q : Type) where
  host : H → HData U
  user : U → UData H U
  queue : Q → QData H
  hReasonTb : H → Nat

structure JData (U Q : Type) where
  qPtr : Q
  uPtr : U
  numProcessors : Nat
  numCandPtr : Nat
  newReason : PendReason

/-- What is returned, what is written through `numAvailSlots`, and the reason left in the job. -/
structure Answer where
  numSlots : Int
  numAvailSlots : Int
  newReason : PendReason

/-! ## The functions -/

/-- Running and reserved slots; without an account there are none. -/
def busy : Option Acct → Nat
  | none => 0
  | some a => a.numRUN + a.numRESERVE

/-- Suspended slots. -/
def held : Option Acct → Nat
  | none => 0
  | some a => a.numSSUSP + a.numUSUSP

/-- `(int) ceil((double)(pJobLimit * numCPUs))`. A value that is no `int` becomes the least one. -/
def procSlots (fm : FloatMul) (pJobLimit : ℚ) (numCPUs : Nat) : Int :=
  if ⌈fm.mul pJobLimit numCPUs⌉ ≤ infinitInt then ⌈fm.mul pJobLimit numCPUs⌉ else -0x80000000

/-- The processors of a host, as the queue's limit counts them. -/
def HData.processors (h : HData U) : Nat := if h.numCPUs = 0 then 1 else h.numCPUs

def pJobLimitOk (fm : FloatMul) (h : HData U) (hAcct : Option Acct) (pJobLimit : ℚ) : Int :=
  if pJobLimit ≤ 0 then 0
  else if infinitFloat ≤ pJobLimit then infinitInt
  else if procSlots fm pJobLimit h.processors - (busy hAcct + held hAcct) ≤ 0 then 0
  else procSlots fm pJobLimit h.processors - (busy hAcct + held hAcct)

def hJobLimitOk (hAcct : Option Acct) (hJobLimit : Int) : Int :=
  if hJobLimit ≤ 0 then 0
  else if hJobLimit = infinitInt then infinitInt
  else if hJobLimit - (busy hAcct + held hAcct) ≤ 0 then 0
  else hJobLimit - (busy hAcct + held hAcct)

/-- What `ckPerHULimits` leaves of a limit: suspended slots are taken off it, and
`numAvailSUSP` are added again, up to what running and reserved slots leave. -/
def slotsLeft (limit : Int) (acct : Option Acct) (numAvailSUSP : Int) : Int :=
  max 0 (min (max 0 (limit - (busy acct + held acct)) + numAvailSUSP) (limit - busy acct))

/-- The loop over the groups of a user. `numAvailSUSP` is set to zero in every round. -/
def ckGroups (fm : FloatMul) (c : Cluster H U Q) (hp : H) (numSlots numAvailSlots : Int)
    (reason : PendReason) : List U → Answer
  | [] => ⟨numSlots, numAvailSlots, reason⟩
  | ugp :: gPtr =>
    if infinitFloat ≤ (c.user ugp).pJobLimit then
      ckGroups fm c hp numSlots numAvailSlots reason gPtr
    else if slotsLeft (procSlots fm (c.user ugp).pJobLimit (c.host hp).numCPUs)
        ((c.user ugp).hAcct hp) 0 ≤ 0 then ⟨0, 0, .ugrpProcJLimit⟩
    else
      ckGroups fm c hp
        (min numSlots (slotsLeft (procSlots fm (c.user ugp).pJobLimit (c.host hp).numCPUs)
          ((c.user ugp).hAcct hp) 0))
        (min numAvailSlots (slotsLeft (procSlots fm (c.user ugp).pJobLimit (c.host hp).numCPUs)
          ((c.user ugp).hAcct hp) 0))
        reason gPtr

/-- The local `numAvailSUSP`. It is assigned only where both limits that use it first are
infinite; otherwise it holds what the stack held. -/
def availSUSP (uninit : Int) (h : HData U) (u : UData H U) : Int :=
  if h.uJobLimit ≠ infinitInt ∨ u.pJobLimit < infinitFloat then uninit else 0

def hostUserSlots (h : HData U) (up : U) (numAvailSUSP : Int) : Int :=
  if h.uJobLimit ≠ infinitInt then slotsLeft h.uJobLimit (h.uAcct up) numAvailSUSP
  else infinitInt

def userProcSlots (fm : FloatMul) (h : HData U) (u : UData H U) (hp : H) (numAvailSUSP : Int) :
    Int :=
  if u.pJobLimit < infinitFloat then
    slotsLeft (procSlots fm u.pJobLimit h.numCPUs) (u.hAcct hp) numAvailSUSP
  else infinitInt

/-- `ckPerHULimits`; `uninit` is what its local `numAvailSUSP` holds before it is assigned. -/
def ckPerHULimits (fm : FloatMul) (c : Cluster H U Q) (uninit : Int) (hp : H) (up : U)
    (reason : PendReason) : Answer :=
  if hostUserSlots (c.host hp) up (availSUSP uninit (c.host hp) (c.user up)) ≤ 0 then
    ⟨0, 0, .hostUsrJLimit⟩
  else if userProcSlots fm (c.host hp) (c.user up) hp
      (availSUSP uninit (c.host hp) (c.user up)) ≤ 0 then ⟨0, 0, .userProcJLimit⟩
  else
    ckGroups fm c hp
      (min (hostUserSlots (c.host hp) up (availSUSP uninit (c.host hp) (c.user up)))
        (userProcSlots fm (c.host hp) (c.user up) hp
          (availSUSP uninit (c.host hp) (c.user up))))
      (min (hostUserSlots (c.host hp) up (availSUSP uninit (c.host hp) (c.user up)))
        (userProcSlots fm (c.host hp) (c.user up) hp
          (availSUSP uninit (c.host hp) (c.user up))))
      reason (c.user up).gPtr

/-- What the host's limit leaves. A queue with an account on the host may count on suspended
slots. -/
def hostSlotsLeft (h : HData U) : Option Acct → Int
  | none => max 0 (h.maxJobs - h.numJobs)
  | some a => max 0 (min (h.maxJobs - h.numRUN - h.numRESERVE)
      (a.numAvailSUSP + max 0 (h.maxJobs - h.numJobs)))

def getHostJobSlots1 (fm : FloatMul) (c : Cluster H U Q) (uninit : Int) (numNeeded : Int)
    (jp : JData U Q) (hp : H) (noHULimits : Bool) : Answer :=
  if (c.host hp).maxJobs = infinitInt then
    perUser infinitInt jp.newReason
  else if numNeeded > hostSlotsLeft (c.host hp) ((c.queue jp.qPtr).hAcct hp) then
    ⟨0, 0, .hostJobLimit⟩
  else
    perUser (hostSlotsLeft (c.host hp) ((c.queue jp.qPtr).hAcct hp))
      (if jp.numCandPtr = 1 ∧
          hostSlotsLeft (c.host hp) ((c.queue jp.qPtr).hAcct hp) < jp.numProcessors ∧
          c.hReasonTb hp = 0 then .hostJobLimit
        else jp.newReason)
where
  /-- The limits per user, which the caller may leave out. -/
  perUser (numSlots : Int) (reason : PendReason) : Answer :=
    if noHULimits then ⟨numSlots, numSlots, reason⟩
    else
      { numSlots := min numSlots (ckPerHULimits fm c uninit hp jp.uPtr reason).numSlots
        numAvailSlots := min numSlots (ckPerHULimits fm c uninit hp jp.uPtr reason).numAvailSlots
        newReason := (ckPerHULimits fm c uninit hp jp.uPtr reason).newReason }

/-- `getHostJobSlots` from the queue's limits on, with no backfillee. One slot is needed. -/
def getHostJobSlots (fm : FloatMul) (c : Cluster H U Q) (uninit : Int) (jp : JData U Q) (hp : H)
    (noHULimits : Bool) : Answer :=
  let hAcct := (c.queue jp.qPtr).hAcct hp
  let numSlots := pJobLimitOk fm (c.host hp) hAcct (c.queue jp.qPtr).pJobLimit
  let numSlots1 := hJobLimitOk hAcct (c.queue jp.qPtr).hJobLimit
  let rest := getHostJobSlots1 fm c uninit 1 jp hp noHULimits
  if 1 > numSlots then ⟨0, 0, .queProcJLimit⟩
  else if 1 > numSlots1 then ⟨0, 0, .queHostJLimit⟩
  else if rest.numSlots = 0 then ⟨0, 0, rest.newReason⟩
  else ⟨min (min numSlots numSlots1) rest.numSlots, min (min numSlots numSlots1) rest.numAvailSlots,
    rest.newReason⟩

/-! ## The limits -/

/-- How many slots of suspended jobs a limit lets the job count on. -/
inductive Lent where
  | nothing
  | avail (numAvailSUSP : Nat)
  /-- As many as the unassigned local says. -/
  | uninit
  deriving DecidableEq

def Lent.slots (uninit : Int) : Lent → Int
  | .nothing => 0
  | .avail n => n
  | .uninit => uninit

/-- A finite limit: what is counted against it, and what may be counted on. -/
structure Limit where
  cap : Cap
  lent : Lent
  deriving DecidableEq

/-- What the limit offers, given the contents of the unassigned local. -/
def Limit.room (l : Limit) (uninit : Int) : Int := l.cap.room (l.lent.slots uninit)

/-- The most that the limit offers, whatever the local holds. -/
def Limit.most (l : Limit) : Int :=
  match l.lent with
  | .nothing => l.cap.free
  | .avail n => l.cap.room n
  | .uninit => l.cap.most

/-- The job may count on suspended slots. -/
def Limit.Lends (l : Limit) : Prop := l.lent = .uninit ∨ ∃ n, 0 < n ∧ l.lent = .avail n

/-- The limit of an account. -/
def acctLimit (limit : Int) (acct : Option Acct) (lent : Lent) : Limit :=
  ⟨⟨limit, busy acct, held acct⟩, lent⟩

variable (fm : FloatMul) (c : Cluster H U Q) (jp : JData U Q) (hp : H)

/-- JL/P of the job's queue on the host. -/
def queueProcLimit : List Limit :=
  if infinitFloat ≤ (c.queue jp.qPtr).pJobLimit then []
  else [acctLimit (procSlots fm (c.queue jp.qPtr).pJobLimit (c.host hp).processors)
    ((c.queue jp.qPtr).hAcct hp) .nothing]

/-- JL/H of the job's queue. -/
def queueHostLimit : List Limit :=
  if (c.queue jp.qPtr).hJobLimit = infinitInt then []
  else [acctLimit (c.queue jp.qPtr).hJobLimit ((c.queue jp.qPtr).hAcct hp) .nothing]

/-- MXJ of the host. -/
def hostLimit : List Limit :=
  if (c.host hp).maxJobs = infinitInt then []
  else [⟨⟨(c.host hp).maxJobs, (c.host hp).numRUN + (c.host hp).numRESERVE,
      (c.host hp).numSSUSP + (c.host hp).numUSUSP⟩,
    match (c.queue jp.qPtr).hAcct hp with
    | none => .nothing
    | some a => .avail a.numAvailSUSP⟩]

/-- JL/U of the host for the job's user. -/
def hostUserLimit : List Limit :=
  if (c.host hp).uJobLimit = infinitInt then []
  else [acctLimit (c.host hp).uJobLimit ((c.host hp).uAcct jp.uPtr) .uninit]

/-- JL/P of a user or group on the host. -/
def procLimit (lent : Lent) (up : U) : List Limit :=
  if infinitFloat ≤ (c.user up).pJobLimit then []
  else [acctLimit (procSlots fm (c.user up).pJobLimit (c.host hp).numCPUs)
    ((c.user up).hAcct hp) lent]

/-- The limits of `ckPerHULimits`. -/
def perUserLimits : List Limit :=
  hostUserLimit c jp hp ++ (procLimit fm c hp .uninit jp.uPtr ++
    (c.user jp.uPtr).gPtr.flatMap (procLimit fm c hp .nothing))

/-- All finite limits that concern the job on the host. -/
def limits : List Limit :=
  queueProcLimit fm c jp hp ++ (queueHostLimit c jp hp ++ (hostLimit c jp hp ++
    perUserLimits fm c jp hp))

/-- What some limits offer together. -/
def offer (uninit : Int) (ls : List Limit) : Int := least infinitInt (ls.map (·.room uninit))

variable (uninit : Int)

@[simp] theorem offer_nil : offer uninit [] = infinitInt := rfl

@[simp] theorem offer_append (ls ls' : List Limit) :
    offer uninit (ls ++ ls') = min (offer uninit ls) (offer uninit ls') := by
  rw [offer, map_append, least_append]
  rfl

theorem offer_singleton (l : Limit) (h : l.room uninit ≤ infinitInt) :
    offer uninit [l] = l.room uninit := min_eq_left h

/-! ## What the functions offer -/

theorem infinitInt_pos : 0 < infinitInt := by decide

theorem procSlots_le (pJobLimit : ℚ) (numCPUs : Nat) :
    procSlots fm pJobLimit numCPUs ≤ infinitInt := by
  unfold procSlots
  split
  · assumption
  · decide

theorem procSlots_nonpos {pJobLimit : ℚ} (h : pJobLimit ≤ 0) (numCPUs : Nat) :
    procSlots fm pJobLimit numCPUs ≤ 0 := by
  have hceil : ⌈fm.mul pJobLimit numCPUs⌉ ≤ 0 :=
    Int.ceil_le.mpr (by simpa using fm.mul_nonpos pJobLimit numCPUs h)
  rw [procSlots, if_pos (hceil.trans infinitInt_pos.le)]
  exact hceil

theorem Limit.room_nonneg (l : Limit) (uninit : Int) : 0 ≤ l.room uninit := le_max_left _ _

variable {l : Limit}

theorem Limit.room_le_limit {uninit : Int} (h : l.cap.limit ≤ infinitInt) :
    l.room uninit ≤ infinitInt := by
  refine (Cap.room_le_most _ _).trans (max_le infinitInt_pos.le ?_)
  omega

theorem slotsLeft_eq_room (limit : Int) (acct : Option Acct) (lent : Lent) (uninit : Int) :
    slotsLeft limit acct (lent.slots uninit) = (acctLimit limit acct lent).room uninit := rfl

theorem room_nothing (limit : Int) (acct : Option Acct) :
    (acctLimit limit acct .nothing).room uninit = max 0 (limit - (busy acct + held acct)) :=
  Cap.room_zero _

theorem pJobLimitOk_eq_offer :
    pJobLimitOk fm (c.host hp) ((c.queue jp.qPtr).hAcct hp) (c.queue jp.qPtr).pJobLimit =
      offer uninit (queueProcLimit fm c jp hp) := by
  unfold pJobLimitOk queueProcLimit
  have hle := procSlots_le fm (c.queue jp.qPtr).pJobLimit (c.host hp).processors
  by_cases hinf : infinitFloat ≤ (c.queue jp.qPtr).pJobLimit
  · have hpos : ¬ (c.queue jp.qPtr).pJobLimit ≤ 0 := by
      have : (0 : ℚ) < infinitFloat := by norm_num [infinitFloat]
      exact not_le.mpr (this.trans_le hinf)
    rw [if_neg hpos, if_pos hinf, if_pos hinf]
    rfl
  · rw [if_neg hinf, if_neg hinf, offer_singleton _ _ (Limit.room_le_limit hle), room_nothing]
    by_cases hpos : (c.queue jp.qPtr).pJobLimit ≤ 0
    · have hneg := procSlots_nonpos fm hpos (c.host hp).processors
      rw [if_pos hpos]
      omega
    · rw [if_neg hpos]
      split <;> omega

theorem hJobLimitOk_eq_offer :
    hJobLimitOk ((c.queue jp.qPtr).hAcct hp) (c.queue jp.qPtr).hJobLimit =
      offer uninit (queueHostLimit c jp hp) := by
  unfold hJobLimitOk queueHostLimit
  have hle := (c.queue jp.qPtr).hJobLimit_le
  by_cases hinf : (c.queue jp.qPtr).hJobLimit = infinitInt
  · have hpos : ¬ (c.queue jp.qPtr).hJobLimit ≤ 0 := by
      rw [hinf]
      decide
    rw [if_neg hpos, if_pos hinf, if_pos hinf]
    rfl
  · rw [if_neg hinf, if_neg hinf, offer_singleton _ _ (Limit.room_le_limit hle), room_nothing]
    split_ifs <;> omega

theorem hostSlotsLeft_eq_room :
    hostSlotsLeft (c.host hp) ((c.queue jp.qPtr).hAcct hp) =
      Limit.room ⟨⟨(c.host hp).maxJobs, (c.host hp).numRUN + (c.host hp).numRESERVE,
          (c.host hp).numSSUSP + (c.host hp).numUSUSP⟩,
        match (c.queue jp.qPtr).hAcct hp with
        | none => .nothing
        | some a => .avail a.numAvailSUSP⟩ uninit := by
  have hjobs := (c.host hp).numJobs_eq
  cases (c.queue jp.qPtr).hAcct hp with
  | none =>
    simp only [hostSlotsLeft, Limit.room, Lent.slots, Cap.room_zero, Cap.free]
    omega
  | some a =>
    simp only [hostSlotsLeft, Limit.room, Lent.slots, Cap.room, Cap.free]
    omega

theorem hostSlotsLeft_eq_offer (hfin : (c.host hp).maxJobs ≠ infinitInt) :
    hostSlotsLeft (c.host hp) ((c.queue jp.qPtr).hAcct hp) =
      offer uninit (hostLimit c jp hp) := by
  rw [hostLimit, if_neg hfin, offer_singleton _ _ (Limit.room_le_limit (c.host hp).maxJobs_le)]
  exact hostSlotsLeft_eq_room c jp hp uninit

theorem hostUserSlots_eq_offer :
    hostUserSlots (c.host hp) jp.uPtr (availSUSP uninit (c.host hp) (c.user jp.uPtr)) =
      offer uninit (hostUserLimit c jp hp) := by
  unfold hostUserSlots hostUserLimit availSUSP
  by_cases hinf : (c.host hp).uJobLimit = infinitInt
  · rw [if_neg (not_not.mpr hinf), if_pos hinf]
    rfl
  · rw [if_pos hinf, if_pos (.inl hinf), if_neg hinf,
      offer_singleton _ _ (Limit.room_le_limit (c.host hp).uJobLimit_le)]
    exact slotsLeft_eq_room _ _ .uninit uninit

theorem offer_procLimit {up : U} (hfin : ¬ infinitFloat ≤ (c.user up).pJobLimit) (uninit : Int)
    (lent : Lent) :
    offer uninit (procLimit fm c hp lent up) =
      slotsLeft (procSlots fm (c.user up).pJobLimit (c.host hp).numCPUs) ((c.user up).hAcct hp)
        (lent.slots uninit) := by
  rw [procLimit, if_neg hfin,
    offer_singleton _ _ (Limit.room_le_limit (procSlots_le fm _ _)), slotsLeft_eq_room]

theorem userProcSlots_eq_offer :
    userProcSlots fm (c.host hp) (c.user jp.uPtr) hp
        (availSUSP uninit (c.host hp) (c.user jp.uPtr)) =
      offer uninit (procLimit fm c hp .uninit jp.uPtr) := by
  unfold userProcSlots availSUSP
  by_cases hinf : infinitFloat ≤ (c.user jp.uPtr).pJobLimit
  · rw [if_neg (not_lt.mpr hinf), procLimit, if_pos hinf]
    rfl
  · rw [if_pos (not_le.mp hinf), if_pos (.inr (not_le.mp hinf)), offer_procLimit fm c hp hinf]
    rfl

theorem offer_nonneg (ls : List Limit) : 0 ≤ offer uninit ls := by
  by_contra hneg
  rcases least_le_iff.mp (show offer uninit ls ≤ -1 by omega) with h | ⟨r, hr, h⟩
  · have := infinitInt_pos
    omega
  · obtain ⟨l, -, rfl⟩ := mem_map.mp hr
    have := l.room_nonneg uninit
    omega

theorem offer_le (ls : List Limit) : offer uninit ls ≤ infinitInt :=
  least_le_iff.mpr (.inl le_rfl)

/-- The loop over the groups keeps the least of what they offer. -/
theorem ckGroups_numSlots (gPtr : List U) {numSlots : Int} (numAvailSlots : Int)
    (reason : PendReason) (h0 : 0 ≤ numSlots) (hle : numSlots ≤ infinitInt) :
    (ckGroups fm c hp numSlots numAvailSlots reason gPtr).numSlots =
      min numSlots (offer uninit (gPtr.flatMap (procLimit fm c hp .nothing))) := by
  induction gPtr generalizing numSlots numAvailSlots with
  | nil => exact (min_eq_left hle).symm
  | cons ugp gPtr ih =>
    rw [ckGroups, flatMap_cons, offer_append]
    by_cases hinf : infinitFloat ≤ (c.user ugp).pJobLimit
    · have hnil : procLimit fm c hp .nothing ugp = [] := if_pos hinf
      rw [if_pos hinf, ih _ h0 hle, hnil, offer_nil, min_eq_right (offer_le _ _)]
    · have hroom := offer_procLimit fm c hp hinf uninit .nothing
      have hnonneg := offer_nonneg uninit (procLimit fm c hp .nothing ugp)
      rw [show Lent.nothing.slots uninit = 0 from rfl] at hroom
      rw [if_neg hinf, ← hroom]
      split
      · -- A group without a free slot: nothing is offered.
        have hrest := offer_nonneg uninit (gPtr.flatMap (procLimit fm c hp .nothing))
        show (0 : Int) = _
        omega
      · rw [ih _ (le_min h0 hnonneg) ((min_le_left _ _).trans hle), min_assoc]

theorem ckPerHULimits_numSlots (reason : PendReason) :
    (ckPerHULimits fm c uninit hp jp.uPtr reason).numSlots =
      offer uninit (perUserLimits fm c jp hp) := by
  have hu := offer_nonneg uninit (hostUserLimit c jp hp)
  have hp' := offer_nonneg uninit (procLimit fm c hp .uninit jp.uPtr)
  have hg := offer_nonneg uninit ((c.user jp.uPtr).gPtr.flatMap (procLimit fm c hp .nothing))
  rw [ckPerHULimits, hostUserSlots_eq_offer, userProcSlots_eq_offer, perUserLimits, offer_append,
    offer_append]
  split
  · show (0 : Int) = _
    omega
  · split
    · show (0 : Int) = _
      omega
    · rw [ckGroups_numSlots fm c hp uninit _ _ _ (le_min hu hp')
        ((min_le_left _ _).trans (offer_le _ _)), min_assoc]

theorem getHostJobSlots1_numSlots :
    (getHostJobSlots1 fm c uninit 1 jp hp false).numSlots =
      offer uninit (hostLimit c jp hp ++ perUserLimits fm c jp hp) := by
  rw [offer_append, getHostJobSlots1]
  by_cases hinf : (c.host hp).maxJobs = infinitInt
  · have hnil : hostLimit c jp hp = [] := if_pos hinf
    rw [if_pos hinf, hnil, offer_nil]
    exact congrArg (min infinitInt) (ckPerHULimits_numSlots fm c jp hp uninit _)
  · have hnonneg := offer_nonneg uninit (hostLimit c jp hp)
    have hrest := offer_nonneg uninit (perUserLimits fm c jp hp)
    rw [if_neg hinf, hostSlotsLeft_eq_offer c jp hp uninit hinf]
    split
    · show (0 : Int) = _
      omega
    · exact congrArg (min (offer uninit (hostLimit c jp hp)))
        (ckPerHULimits_numSlots fm c jp hp uninit _)

/-- **The answer is the least of what the limits offer.** -/
theorem getHostJobSlots_numSlots :
    (getHostJobSlots fm c uninit jp hp false).numSlots = offer uninit (limits fm c jp hp) := by
  have hq := offer_nonneg uninit (queueProcLimit fm c jp hp)
  have hh := offer_nonneg uninit (queueHostLimit c jp hp)
  have hrest := offer_nonneg uninit (hostLimit c jp hp ++ perUserLimits fm c jp hp)
  simp only [getHostJobSlots, limits, pJobLimitOk_eq_offer fm c jp hp uninit,
    hJobLimitOk_eq_offer c jp hp uninit, getHostJobSlots1_numSlots]
  rw [offer_append uninit (queueProcLimit fm c jp hp), offer_append uninit (queueHostLimit c jp hp)]
  split
  · show (0 : Int) = _
    omega
  · split
    · show (0 : Int) = _
      omega
    · split
      · show (0 : Int) = _
        omega
      · exact min_assoc _ _ _

/-! ## When the limits are kept -/

theorem Limit.room_le_most (l : Limit) (uninit : Int) : l.room uninit ≤ l.most := by
  obtain ⟨cap, lent⟩ := l
  cases lent with
  | nothing => exact (Cap.room_zero cap).le
  | avail n => exact le_rfl
  | uninit => exact Cap.room_le_most cap uninit

/-- A local that holds a large value makes every limit offer the most it can. -/
theorem Limit.room_eq_most {uninit : Int} (h : l.cap.held ≤ uninit) :
    l.room uninit = l.most := by
  obtain ⟨cap, lent⟩ := l
  cases lent with
  | nothing => exact Cap.room_zero cap
  | avail n => rfl
  | uninit => exact Cap.room_eq_most h

theorem Limit.most_le_free (h : ¬ l.Lends) : l.most ≤ l.cap.free := by
  obtain ⟨cap, lent⟩ := l
  cases lent with
  | nothing => exact le_rfl
  | avail n =>
    have hn : n = 0 := by
      by_contra hn
      exact h (.inr ⟨n, Nat.pos_of_ne_zero hn, rfl⟩)
    subst hn
    exact (Cap.room_zero cap).le
  | uninit => exact absurd (.inl rfl) h

theorem Limit.most_le_free_iff (h : l.Lends) :
    l.most ≤ l.cap.free ↔ l.cap.held = 0 ∨ l.cap.limit ≤ l.cap.busy := by
  obtain ⟨cap, lent⟩ := l
  rcases h with h | ⟨n, hn, h⟩
  · cases h
    exact Cap.most_le_free_iff cap
  · cases h
    exact Cap.room_le_free_iff (by exact_mod_cast hn)

/-- A limit that may be absent. -/
theorem limit_le_of_mem {p : Prop} [Decidable p] {m : Limit} (hl : l ∈ if p then [] else [m])
    (hm : m.cap.limit ≤ infinitInt) : l.cap.limit ≤ infinitInt := by
  split at hl
  · cases hl
  · rwa [mem_singleton.mp hl]

/-- Limits are C `int`s. -/
theorem limit_le (hl : l ∈ limits fm c jp hp) : l.cap.limit ≤ infinitInt := by
  simp only [limits, perUserLimits, mem_append, mem_flatMap] at hl
  rcases hl with hl | hl | hl | hl | hl | ⟨ugp, -, hl⟩
  · exact limit_le_of_mem hl (procSlots_le fm _ _)
  · exact limit_le_of_mem hl (c.queue jp.qPtr).hJobLimit_le
  · exact limit_le_of_mem hl (c.host hp).maxJobs_le
  · exact limit_le_of_mem hl (c.host hp).uJobLimit_le
  · exact limit_le_of_mem hl (procSlots_le fm _ _)
  · exact limit_le_of_mem hl (procSlots_le fm _ _)

/-- **No limit can be exceeded exactly when every limit that lends suspended slots has none to
lend, is used up by running and reserved slots, or is covered by another limit.** -/
theorem slots_within_limits_iff :
    (∀ uninit : Int, ∀ l ∈ limits fm c jp hp,
      (getHostJobSlots fm c uninit jp hp false).numSlots ≤ l.cap.free) ↔
    ∀ l ∈ limits fm c jp hp, l.Lends →
      l.cap.held = 0 ∨ l.cap.limit ≤ l.cap.busy ∨
        ∃ m ∈ limits fm c jp hp, m ≠ l ∧ m.most ≤ l.cap.free := by
  constructor
  · intro h l hl hlends
    -- A local that holds at least as much as any limit could lend.
    obtain ⟨big, hbig⟩ : ∃ big : Int, ∀ m ∈ limits fm c jp hp, (m.cap.held : Int) ≤ big := by
      refine ⟨(((limits fm c jp hp).map fun m => m.cap.held).sum : Nat), ?_⟩
      intro m hm
      have hmem : m.cap.held ∈ (limits fm c jp hp).map fun m => m.cap.held :=
        mem_map_of_mem hm
      exact_mod_cast le_sum_of_mem hmem
    have hle := h big l hl
    rw [getHostJobSlots_numSlots] at hle
    rcases least_le_iff.mp hle with htop | ⟨r, hr, hle⟩
    · refine .inl ?_
      by_contra hheld
      have hlimit := limit_le fm c jp hp hl
      have hpos := infinitInt_pos
      rw [Cap.free] at htop
      omega
    · obtain ⟨m, hm, rfl⟩ := mem_map.mp hr
      rw [Limit.room_eq_most (hbig m hm)] at hle
      by_cases hml : m = l
      · subst hml
        rcases (Limit.most_le_free_iff hlends).mp hle with hheld | hbusy
        · exact .inl hheld
        · exact .inr (.inl hbusy)
      · exact .inr (.inr ⟨m, hm, hml, hle⟩)
  · intro h uninit l hl
    obtain ⟨m, hm, hle⟩ : ∃ m ∈ limits fm c jp hp, m.most ≤ l.cap.free := by
      by_cases hlends : l.Lends
      · rcases h l hl hlends with hheld | hbusy | ⟨m, hm, -, hle⟩
        · exact ⟨l, hl, (Limit.most_le_free_iff hlends).mpr (.inl hheld)⟩
        · exact ⟨l, hl, (Limit.most_le_free_iff hlends).mpr (.inr hbusy)⟩
        · exact ⟨m, hm, hle⟩
      · exact ⟨l, hl, Limit.most_le_free hlends⟩
    rw [getHostJobSlots_numSlots]
    exact least_le_iff.mpr
      (.inr ⟨_, mem_map_of_mem hm, (m.room_le_most uninit).trans hle⟩)

/-! ## A host with a suspended job of the user -/

/-- Products without rounding. -/
def exactMul : FloatMul where
  mul p n := p * n
  mul_nonpos _ n hp := mul_nonpos_of_nonpos_of_nonneg hp (Nat.cast_nonneg n)

/-- Each user may have two slots on the host; the user of the job has one, suspended. -/
def suspendedHost : Cluster Unit Unit Unit where
  host := fun _ => {
    numCPUs := 4, maxJobs := 4, uJobLimit := 2, numJobs := 1, numRUN := 0, numSSUSP := 0
    numUSUSP := 1, numRESERVE := 0, uAcct := fun _ => some ⟨0, 0, 1, 0, 0⟩
    numJobs_eq := by decide, maxJobs_le := by decide, uJobLimit_le := by decide }
  user := fun _ => ⟨infinitFloat, fun _ => none, []⟩
  queue := fun _ => ⟨infinitFloat, infinitInt, fun _ => some ⟨0, 0, 1, 0, 0⟩, le_rfl⟩
  hReasonTb := fun _ => 0

def aJob : JData Unit Unit := ⟨(), (), 1, 2, .other 0⟩

/-- One slot is left to the user, and two are offered. -/
theorem suspended_slot_offered :
    ∃ uninit : Int, ∃ l ∈ limits exactMul suspendedHost aJob (),
      l.cap.free < (getHostJobSlots exactMul suspendedHost uninit aJob () false).numSlots := by
  refine ⟨1, acctLimit 2 (some ⟨0, 0, 1, 0, 0⟩) .uninit, ?_, ?_⟩
  · simp [limits, perUserLimits, hostUserLimit, suspendedHost, aJob, infinitInt]
  · rw [getHostJobSlots_numSlots]
    decide +kernel

end Volclava.HostSlots
