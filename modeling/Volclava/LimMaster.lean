import Volclava.Lib.Run

/-!
# The master state of a LIM

Each load information manager keeps two pointers to the master host, two flags and a counter.
`masterRegister` moves them when an announcement comes in, `sendLoad` at every timer tick.
A master that stays silent is dropped once the counter passes
`hostInactivityLimit + retryLimit`; a LIM tries to take over once it passes
`hostInactivityLimit + hostNo * masterInactivityLimit`. A take-over that finds the last master
alive puts `prevMasterPtr` back, which is the host it probed only if the master was dropped first.

- `Lim.Sound`: what every event keeps where the master is dropped first.
- `Lim.consistent_iff_dropsFirst`: the master state is consistent in every run exactly there.

Hosts are named by their numbers, which the cluster file gives out from 0 on.
-/

namespace Volclava

/-! ## Limits -/

/-- What a `short` keeps of an `int`. -/
def toShort (v : Int) : Int := v.bmod 65536

/-- A limit of the cluster file: left at `old` when the file has no integer for it or one below
`least`. -/
def readLimit (least old : Int) : Option Int → Int
  | none => old
  | some v => if v < least then old else toShort v

/-- The limits as the LIM stores them. -/
structure LimLimits where
  hostInactivityLimit : Int
  masterInactivityLimit : Int
  retryLimit : Int
  deriving DecidableEq, Repr

/-- The limits `doclparams` reads, with the defaults of `lim.h`. -/
def doclparams (host master retry : Option Int) : LimLimits where
  hostInactivityLimit := readLimit 2 5 host
  masterInactivityLimit := readLimit 0 2 master
  retryLimit := readLimit 0 2 retry

/-! ## One LIM -/

/-- What a LIM knows from its configuration: the limits, the hosts of the cluster, its own
number among them and whether it may become master. -/
structure LimConf extends LimLimits where
  numHosts : Nat
  hostNo : Nat
  configured : hostNo < numHosts
  computeOnly : Bool
  deriving DecidableEq

/-- The master state of a LIM. -/
structure Lim where
  masterMe : Bool
  masterKnown : Bool
  masterInactivityCount : Nat
  masterPtr : Option Nat
  prevMasterPtr : Option Nat
  deriving DecidableEq, Repr

/-- An announcement on its way: the host it is sent to and the master it names. -/
structure Ann where
  toHost : Nat
  hostName : Nat
  deriving DecidableEq, Repr

def announceMasterToHost (l : Lim) (hPtr : Nat) : List Ann :=
  l.masterPtr.toList.map fun m => ⟨hPtr, m⟩

namespace LimConf

variable (c : LimConf)

/-- `announceMaster` with `all` set: one announcement to each other host. -/
def announceMaster (l : Lim) : List Ann :=
  ((List.range c.numHosts).filter (· ≠ c.hostNo)).flatMap (announceMasterToHost l)

def initNewMaster (l : Lim) : Lim where
  masterMe := true
  masterKnown := true
  masterInactivityCount := 0
  masterPtr := some c.hostNo
  prevMasterPtr := l.masterPtr

/-- The state in which the main loop begins: no master known, but host 0 is master at once. -/
def startUp : Lim :=
  let l : Lim := ⟨false, false, 0, none, none⟩
  if c.hostNo = 0 then c.initNewMaster l else l

/-- The host `probeMasterTcp` connects to, if it gets as far as that. -/
def probed (l : Lim) : Option Nat :=
  (l.masterPtr.or l.prevMasterPtr).filter (· ≠ c.hostNo)

/-- Whether `probeMasterTcp` succeeds, `connects` telling which hosts take the connection. -/
def probeMasterTcp (connects : Nat → Bool) (l : Lim) : Bool :=
  (c.probed l).any connects

/-- The part of `sendLoad` that gives up a known master. -/
def dropMaster (l : Lim) : Lim :=
  if l.masterKnown ∧ c.hostInactivityLimit + c.retryLimit < l.masterInactivityCount then
    { l with masterKnown := false, prevMasterPtr := l.masterPtr, masterPtr := none }
  else l

/-- The part of `sendLoad` that tries to become master. -/
def takeOver (connects : Nat → Bool) (l : Lim) : Lim :=
  if c.computeOnly = false ∧
      c.hostInactivityLimit + c.hostNo * c.masterInactivityLimit < l.masterInactivityCount then
    if c.probeMasterTcp connects l then
      { l with masterInactivityCount := 0, masterKnown := true, masterPtr := l.prevMasterPtr }
    else c.initNewMaster l
  else l

/-- The state in which `sendLoad` gets to the take-over, if it does. -/
def atTakeOver (l : Lim) : Lim :=
  c.dropMaster { l with masterInactivityCount := l.masterInactivityCount + 1 }

def sendLoad (connects : Nat → Bool) (l : Lim) : Lim :=
  if l.masterMe then l
  else if c.hostInactivityLimit < (l.masterInactivityCount + 1 : Nat) then
    c.takeOver connects (c.atTakeOver l)
  else { l with masterInactivityCount := l.masterInactivityCount + 1 }

/-- The host `sendLoad` connects to at the next tick, if it tries to take over then. -/
def tickProbes (l : Lim) : Option Nat :=
  if l.masterMe = false ∧ c.computeOnly = false ∧
      c.hostInactivityLimit < (l.masterInactivityCount + 1 : Nat) ∧
      c.hostInactivityLimit + c.hostNo * c.masterInactivityLimit <
        (l.masterInactivityCount + 1 : Nat) then
    c.probed (c.atTakeOver l)
  else none

/-- `masterRegister` on an announcement that names host `h`. Where the source would follow a null
`masterPtr` the model goes on, which only adds runs. -/
def masterRegister (l : Lim) (h : Nat) : Lim × List Ann :=
  if h = c.hostNo then (l, [])
  else if c.numHosts ≤ h then (l, [])
  else if l.masterKnown ∧ l.masterPtr = some h then
    ({ l with masterInactivityCount := 0 }, [])
  else if l.masterKnown ∧ h < c.hostNo ∧ (∃ m ∈ l.masterPtr, m < h) ∧
      l.masterInactivityCount ≤ c.hostInactivityLimit then
    (l, announceMasterToHost l h)
  else if h < c.hostNo then
    ({ masterMe := false, masterKnown := true, masterInactivityCount := 0,
       masterPtr := some h, prevMasterPtr := l.masterPtr }, [])
  else if l.masterKnown ∧ l.masterInactivityCount < c.hostInactivityLimit then
    (l, announceMasterToHost l h)
  else (l, [])

end LimConf

/-- What happens to a LIM: an announcement naming a host, or a timer tick with the hosts that
would take a connection at that time. -/
inductive LimEvent where
  | announced (h : Nat)
  | tick (connects : Nat → Bool)

namespace LimConf

variable (c : LimConf)

def step (l : Lim) : LimEvent → Lim
  | .announced h => (c.masterRegister l h).1
  | .tick connects => c.sendLoad connects l

/-! ## When the master is dropped first -/

/-- The first value of the counter at which a take-over is tried. -/
def takeOverAt : Int :=
  max 1 (c.hostInactivityLimit + max 0 (c.hostNo * c.masterInactivityLimit) + 1)

/-- A take-over is never tried while the old master is still known: the LIM tries none or has no
master above it, or the counter passes `hostInactivityLimit + retryLimit` first. -/
def DropsFirst : Prop :=
  c.computeOnly = true ∨ c.hostNo = 0 ∨
    c.hostInactivityLimit + c.retryLimit < c.takeOverAt

instance : Decidable c.DropsFirst := by unfold DropsFirst; infer_instance

theorem takeOverAt_le {n : Nat} (hn : 0 < n) (h1 : c.hostInactivityLimit < n)
    (h2 : c.hostInactivityLimit + c.hostNo * c.masterInactivityLimit < n) :
    c.takeOverAt ≤ n := by
  unfold takeOverAt
  omega

theorem lt_takeOverAt {n : Nat} (hn : 0 < n) (h : n < c.takeOverAt) :
    (n : Int) ≤ c.hostInactivityLimit ∨
      n ≤ c.hostInactivityLimit + c.hostNo * c.masterInactivityLimit := by
  unfold takeOverAt at h
  omega

theorem of_takeOverAt_le {n : Nat} (h : c.takeOverAt ≤ n) :
    c.hostInactivityLimit < n ∧
      c.hostInactivityLimit + c.hostNo * c.masterInactivityLimit < n := by
  unfold takeOverAt at h
  omega

end LimConf

/-! ## Consistency -/

namespace Lim

/-- The master state as it should be: a known master is a configured host, `masterMe` says that
it is this host, and the master never has a larger number than this host. -/
structure Consistent (c : LimConf) (l : Lim) : Prop where
  known : l.masterKnown = true → ∃ m ∈ l.masterPtr, m < c.numHosts
  me : l.masterMe = true ↔ l.masterKnown = true ∧ l.masterPtr = some c.hostNo
  le : ∀ m ∈ l.masterPtr, m ≤ c.hostNo

/-- A tick whose probe succeeds leaves the probed host as master. -/
def KeepsProbed (c : LimConf) (l : Lim) : Prop :=
  ∀ connects, ∀ h ∈ c.tickProbes l, connects h = true →
    (c.sendLoad connects l).masterPtr = some h

/-- What every event keeps: a pointer to the master is held exactly while it is known, and the
previous master has no larger number either. -/
structure Sound (c : LimConf) (l : Lim) : Prop where
  known : l.masterKnown = l.masterPtr.isSome
  me : l.masterMe = decide (l.masterPtr = some c.hostNo)
  le : ∀ m ∈ l.masterPtr, m ≤ c.hostNo
  prevLe : ∀ m ∈ l.prevMasterPtr, m ≤ c.hostNo
  first : c.hostNo = 0 → l.masterMe = true

variable {c : LimConf} {l : Lim}

theorem Sound.consistent (h : Sound c l) : Consistent c l where
  known hk := by
    obtain ⟨m, hm⟩ := Option.isSome_iff_exists.mp (h.known ▸ hk)
    exact ⟨m, hm, lt_of_le_of_lt (h.le m hm) c.configured⟩
  me := by
    rw [h.me, h.known, decide_eq_true_iff]
    constructor
    · intro hm
      exact ⟨by rw [hm]; rfl, hm⟩
    · exact And.right
  le := h.le

theorem sound_initNewMaster (h : Sound c l) : Sound c (c.initNewMaster l) where
  known := rfl
  me := by simp [LimConf.initNewMaster]
  le := by simp [LimConf.initNewMaster]
  prevLe := h.le
  first _ := rfl

theorem sound_startUp (c : LimConf) : Sound c c.startUp := by
  unfold LimConf.startUp
  dsimp only
  split
  next h0 => exact ⟨rfl, by simp [LimConf.initNewMaster], by simp [LimConf.initNewMaster],
    by simp [LimConf.initNewMaster], fun _ => rfl⟩
  next h0 => exact ⟨rfl, rfl, by simp, by simp, fun h => absurd h h0⟩

theorem sound_masterRegister (h : Sound c l) (m : Nat) : Sound c (c.masterRegister l m).1 := by
  unfold LimConf.masterRegister
  split_ifs with h1 h2 h3 h4 h5 h6
  · exact h
  · exact h
  · exact { h with }
  · exact h
  · -- The new master has a smaller number, so this host is not host 0.
    refine ⟨rfl, ?_, ?_, h.le, fun h0 => absurd h5 (by omega)⟩
    · simp [h1]
    · intro k hk
      obtain rfl := Option.some.inj hk
      exact h5.le
  · exact h
  · exact h

@[simp] theorem atTakeOver_count :
    (c.atTakeOver l).masterInactivityCount = l.masterInactivityCount + 1 := by
  unfold LimConf.atTakeOver LimConf.dropMaster
  split_ifs <;> rfl

/-- Once the counter has got to the take-over no master is known. -/
theorem atTakeOver_known (hd : c.DropsFirst) (hc : c.computeOnly = false) (h0 : c.hostNo ≠ 0)
    (ht : c.takeOverAt ≤ (l.masterInactivityCount + 1 : Nat)) :
    (c.atTakeOver l).masterKnown = false := by
  have hlt : c.hostInactivityLimit + c.retryLimit < (l.masterInactivityCount + 1 : Nat) := by
    rcases hd with h | h | h
    · exact absurd h (by simp [hc])
    · exact absurd h h0
    · exact lt_of_lt_of_le h ht
  unfold LimConf.atTakeOver LimConf.dropMaster
  dsimp only
  split_ifs with h1
  · rfl
  · simpa using fun hk => h1 ⟨hk, hlt⟩

theorem Sound.hostNo_ne_zero (h : Sound c l) (hm : l.masterMe = false) : c.hostNo ≠ 0 := by
  intro h0
  simp [h.first h0] at hm

theorem sound_atTakeOver (h : Sound c l) (hm : l.masterMe = false) :
    Sound c (c.atTakeOver l) ∧ (c.atTakeOver l).masterMe = false := by
  unfold LimConf.atTakeOver LimConf.dropMaster
  dsimp only
  split_ifs with h1
  · exact ⟨⟨rfl, by simpa using hm, by simp, h.le, fun h0 => absurd h0 (h.hostNo_ne_zero hm)⟩, hm⟩
  · exact ⟨{ h with }, hm⟩

theorem probed_of_masterPtr_none {m : Nat} (hp : l.masterPtr = none) (h : c.probed l = some m) :
    l.prevMasterPtr = some m ∧ m ≠ c.hostNo := by
  rw [LimConf.probed, hp, Option.none_or, Option.filter_eq_some_iff] at h
  exact ⟨h.1, by simpa using h.2⟩

variable (connects : Nat → Bool)

theorem sound_takeOver (h : Sound c l) (hm : l.masterMe = false)
    (hk : l.masterKnown = false) : Sound c (c.takeOver connects l) := by
  have hp : l.masterPtr = none := by simpa [hk] using h.known.symm
  unfold LimConf.takeOver
  split_ifs with h1 h2
  · obtain ⟨m, hprobe, -⟩ := (Option.any_eq_true _ _).mp h2
    obtain ⟨hprev, hne⟩ := probed_of_masterPtr_none hp hprobe
    refine ⟨by simp [hprev], ?_, h.prevLe, h.prevLe, fun h0 => absurd h0 (h.hostNo_ne_zero hm)⟩
    simp [hm, hprev, hne]
  · exact sound_initNewMaster h
  · exact h

section

variable (hd : c.DropsFirst)
include hd

theorem sound_sendLoad (connects : Nat → Bool) (h : Sound c l) :
    Sound c (c.sendLoad connects l) := by
  unfold LimConf.sendLoad
  split_ifs with hm hc
  · exact h
  · have hm : l.masterMe = false := by simpa using hm
    obtain ⟨hs, hme⟩ := sound_atTakeOver h hm
    by_cases ht : c.computeOnly = false ∧ c.hostInactivityLimit +
        c.hostNo * c.masterInactivityLimit < (c.atTakeOver l).masterInactivityCount
    · refine sound_takeOver connects hs hme (atTakeOver_known hd ht.1 (h.hostNo_ne_zero hm) ?_)
      exact c.takeOverAt_le (Nat.succ_pos _) hc (by simpa using ht.2)
    · unfold LimConf.takeOver
      rw [if_neg ht]
      exact hs
  · exact { h with }

theorem sound_step (h : Sound c l) (e : LimEvent) : Sound c (c.step l e) := by
  cases e with
  | announced m => exact sound_masterRegister h m
  | tick connects => exact sound_sendLoad hd connects h

/-- **Where the master is dropped first**, every run keeps the master state sound. -/
theorem run_sound (es : List LimEvent) :
    Sound c (Run.run c.step c.startUp es) := by
  have hstep : ∀ l e, Sound c l → Sound c (c.step l e) := fun _ e h => sound_step hd h e
  exact Run.inv_all hstep (sound_startUp c) es

theorem Sound.keepsProbed (h : Sound c l) : KeepsProbed c l := by
  intro connects m hm hconn
  rw [LimConf.tickProbes, Option.mem_def] at hm
  split_ifs at hm with ht
  obtain ⟨hme, hc, hlim, hto⟩ := ht
  have hk := atTakeOver_known hd hc (h.hostNo_ne_zero hme)
    (c.takeOverAt_le (Nat.succ_pos _) hlim hto)
  have hp : (c.atTakeOver l).masterPtr = none := by
    simpa [hk] using (sound_atTakeOver h hme).1.known.symm
  unfold LimConf.sendLoad LimConf.takeOver
  rw [if_neg (by simp [hme]), if_pos hlim, if_pos ⟨hc, by simpa using hto⟩, if_pos]
  · exact (probed_of_masterPtr_none hp hm).1
  · simp [LimConf.probeMasterTcp, hm, hconn]

end

/-! ## Where the master is not dropped first -/

theorem atTakeOver_stays (hk : l.masterKnown = true →
      (l.masterInactivityCount + 1 : Nat) ≤ c.hostInactivityLimit + c.retryLimit) :
    c.atTakeOver l = { l with masterInactivityCount := l.masterInactivityCount + 1 } := by
  unfold LimConf.atTakeOver LimConf.dropMaster
  rw [if_neg]
  rintro ⟨hknown, hpast⟩
  exact absurd (hk hknown) (not_le.mpr hpast)

/-- Before the take-over a tick that does not drop the master only counts. -/
theorem sendLoad_below (hm : l.masterMe = false)
    (hlt : (l.masterInactivityCount + 1 : Nat) < c.takeOverAt)
    (hk : l.masterKnown = true →
      (l.masterInactivityCount + 1 : Nat) ≤ c.hostInactivityLimit + c.retryLimit) :
    c.sendLoad connects l = { l with masterInactivityCount := l.masterInactivityCount + 1 } := by
  unfold LimConf.sendLoad
  rw [if_neg (by simp [hm])]
  split_ifs with hlim
  · unfold LimConf.takeOver
    rw [atTakeOver_stays hk, if_neg]
    rintro ⟨-, hto⟩
    have := c.lt_takeOverAt (Nat.succ_pos _) hlt
    dsimp only at hto
    omega
  · rfl

theorem run_below (k : Nat) (hm : l.masterMe = false)
    (hlt : (l.masterInactivityCount + k : Nat) < c.takeOverAt)
    (hk : l.masterKnown = true → c.takeOverAt ≤ c.hostInactivityLimit + c.retryLimit) :
    Run.run c.step l (List.replicate k (.tick connects)) =
      { l with masterInactivityCount := l.masterInactivityCount + k } := by
  induction k generalizing l with
  | zero => rfl
  | succ k ih =>
    have hstep : c.step l (.tick connects) =
        { l with masterInactivityCount := l.masterInactivityCount + 1 } := by
      refine sendLoad_below connects hm (by omega) fun hknown => ?_
      have := hk hknown
      omega
    rw [List.replicate_succ, Run.run_cons, hstep, ih (by exact hm)]
    · simp only [Nat.add_assoc, Nat.add_comm 1 k]
    · dsimp only
      omega
    · exact hk

/-- A LIM that is left alone from its start takes over when the counter gets there. -/
theorem run_startUp_takes (hc : c.computeOnly = false) (h0 : c.hostNo ≠ 0)
    (connects : Nat → Bool) (k : Nat) (hk : c.takeOverAt = (k + 1 : Nat)) :
    Run.run c.step c.startUp (List.replicate k (.tick connects) ++ [.tick connects]) =
      ⟨true, true, 0, some c.hostNo, none⟩ := by
  have hstart : c.startUp = ⟨false, false, 0, none, none⟩ := if_neg h0
  have hcount : Run.run c.step c.startUp (List.replicate k (.tick connects)) =
      ⟨false, false, k, none, none⟩ := by
    rw [hstart, run_below connects k rfl (by simp [hk]) (by simp)]
    simp
  obtain ⟨hlim, hto⟩ := c.of_takeOverAt_le (le_of_eq hk)
  rw [Run.run_append, hcount]
  show c.sendLoad connects ⟨false, false, k, none, none⟩ = _
  have hat : c.atTakeOver ⟨false, false, k, none, none⟩ = ⟨false, false, k + 1, none, none⟩ :=
    atTakeOver_stays (by simp)
  unfold LimConf.sendLoad LimConf.takeOver
  rw [hat, if_neg (by simp), if_pos (by exact hlim), if_pos ⟨hc, by exact hto⟩, if_neg]
  · rfl
  · simp [LimConf.probeMasterTcp, LimConf.probed]

/-- Where a take-over comes before the master is dropped, a run gets to a state in which host 0
is probed with success and the LIM goes back to its own earlier mastership. -/
theorem not_keepsProbed (hd : ¬ c.DropsFirst) :
    ∃ es, ¬ KeepsProbed c (Run.run c.step c.startUp es) := by
  simp only [LimConf.DropsFirst, not_or, not_lt] at hd
  obtain ⟨hc, h0, hle⟩ := hd
  replace h0 : c.hostNo ≠ 0 := h0
  have hc : c.computeOnly = false := by simpa using hc
  obtain ⟨k, hk⟩ : ∃ k : Nat, c.takeOverAt = (k + 1 : Nat) :=
    ⟨(c.takeOverAt - 1).toNat, by unfold LimConf.takeOverAt; omega⟩
  obtain ⟨hlim, hto⟩ := c.of_takeOverAt_le (le_of_eq hk)
  have hgivesIn : c.step ⟨true, true, 0, some c.hostNo, none⟩ (.announced 0) =
      ⟨false, true, 0, some 0, some c.hostNo⟩ := by
    have hpos : 0 < c.hostNo := Nat.pos_of_ne_zero h0
    have := c.configured
    simp [LimConf.step, LimConf.masterRegister, h0, h0.symm, hpos, show ¬ c.numHosts ≤ 0 by omega]
  have hwaits := run_below (c := c) (l := ⟨false, true, 0, some 0, some c.hostNo⟩)
    (fun _ => false) k rfl (by simp [hk]) (fun _ => hle)
  refine ⟨List.replicate k (.tick fun _ => false) ++ [.tick fun _ => false] ++
    .announced 0 :: List.replicate k (.tick fun _ => false), fun hkeep => ?_⟩
  rw [Run.run_append, run_startUp_takes hc h0 _ k hk, Run.run_cons, hgivesIn, hwaits,
    Nat.zero_add] at hkeep
  have hat : c.atTakeOver ⟨false, true, k, some 0, some c.hostNo⟩ =
      ⟨false, true, k + 1, some 0, some c.hostNo⟩ :=
    atTakeOver_stays fun _ => hk ▸ hle
  have hprobe : c.tickProbes ⟨false, true, k, some 0, some c.hostNo⟩ = some 0 := by
    unfold LimConf.tickProbes
    rw [if_pos ⟨rfl, hc, by exact hlim, by exact hto⟩, hat]
    simp [LimConf.probed, h0.symm]
  have hback := hkeep (fun _ => true) 0 hprobe rfl
  unfold LimConf.sendLoad LimConf.takeOver at hback
  rw [hat, if_neg (by simp), if_pos (by exact hlim), if_pos ⟨hc, by exact hto⟩, if_pos] at hback
  · exact h0 (Option.some.inj hback)
  · simp [LimConf.probeMasterTcp, LimConf.probed, h0.symm]

/-- **The master state of a LIM is consistent in every run**, and every successful probe leaves
the probed host as master, exactly where the master is dropped before a take-over is tried. -/
theorem consistent_iff_dropsFirst (c : LimConf) :
    (∀ es, Consistent c (Run.run c.step c.startUp es) ∧
      KeepsProbed c (Run.run c.step c.startUp es)) ↔ c.DropsFirst := by
  constructor
  · intro h
    by_contra hd
    obtain ⟨es, hes⟩ := not_keepsProbed hd
    exact hes (h es).2
  · intro hd es
    exact ⟨(run_sound hd es).consistent, (run_sound hd es).keepsProbed hd⟩

/-- With `MASTER_INACTIVITY_LIMIT=0`, LIM 1 of two takes over, gives in to host 0 and probes it
after a silence: it then holds itself for a known master without being one. -/
theorem zeroMasterLimit_inconsistent :
    let c : LimConf := ⟨doclparams none (some 0) none, 2, 1, by decide, false⟩
    let silent := LimEvent.tick fun _ => false
    let es := List.replicate 6 silent ++ LimEvent.announced 0 :: List.replicate 5 silent
    Run.run c.step c.startUp es = ⟨false, true, 5, some 0, some 1⟩ ∧
      c.sendLoad (fun _ => true) ⟨false, true, 5, some 0, some 1⟩ =
        ⟨false, true, 0, some 1, some 1⟩ ∧
      ¬ Consistent c ⟨false, true, 0, some 1, some 1⟩ := by
  refine ⟨by decide, by decide, fun h => ?_⟩
  have hme := h.me.mpr ⟨rfl, rfl⟩
  exact absurd hme (by decide)

end Lim

end Volclava
