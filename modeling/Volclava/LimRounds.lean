import Volclava.LimMaster

/-!
# The LIMs of a cluster in rounds

In each round every running LIM executes `sendLoad` once, a master announces itself, and
everything sent in the round is delivered in it, in any order. A LIM that still believes in a
dead master with a smaller number answers a take-over with that master's name, which makes the
new master step down and start counting again.

- `sendLoad_cases`, `masterRegister_cases`: what one LIM does at a tick and at an announcement.
- `Calm`: no LIM is left to give such an answer; `calm_tick` and `calm_deliver` keep it.
-/

namespace Volclava

open List

/-! ## The cluster -/

/-- The configuration of the LIM on host `i`; none is compute-only. -/
def LimLimits.conf (L : LimLimits) {n : Nat} (i : Fin n) : LimConf :=
  ⟨L, n, i, i.isLt, false⟩

/-- The LIMs of a cluster in the middle of a round: the state of each, the announcements not
delivered yet, and the LIMs that have run `sendLoad` in this round. -/
@[ext]
structure LimNet (n : Nat) where
  lims : Fin n → Lim
  pool : List Ann
  ticked : Finset (Fin n)

instance {n : Nat} : DecidableEq (LimNet n) := fun a b =>
  decidable_of_iff (a.lims = b.lims ∧ a.pool = b.pool ∧ a.ticked = b.ticked) LimNet.ext_iff.symm

/-- What can happen next in a round: a LIM's timer fires, with the hosts it asks for their load
if it is the master, or an announcement arrives. -/
inductive LimAct (n : Nat) where
  | tick (i : Fin n) (asks : List Nat)
  | deliver (a : Ann)

/-- Whether a LIM runs on the host with number `h`. -/
def running {n : Nat} (S : Finset (Fin n)) (h : Nat) : Bool := decide (∃ i ∈ S, i.val = h)

/-- What a LIM sends when its timer fires: `sendLoad` as master asks for load, `initNewMaster`
announces, and `periodic` announces when the LIM is master afterwards. -/
def LimConf.periodicAnn (c : LimConf) (before after : Lim) (asks : List Nat) : List Ann :=
  (if before.masterMe then asks.flatMap (announceMasterToHost before) else []) ++
    (if before.masterMe = false ∧ after.masterMe then c.announceMaster after else []) ++
    (if after.masterMe then c.announceMaster after else [])

namespace LimNet

variable {n : Nat} (L : LimLimits) (S : Finset (Fin n))

def tick (net : LimNet n) (i : Fin n) (asks : List Nat) : LimNet n where
  lims := Function.update net.lims i ((L.conf i).sendLoad (running S) (net.lims i))
  pool := net.pool ++ (L.conf i).periodicAnn (net.lims i)
    ((L.conf i).sendLoad (running S) (net.lims i)) asks
  ticked := insert i net.ticked

/-- The LIM on host `j` handles an announcement. -/
def receive (net : LimNet n) (j : Fin n) (hostName : Nat) : LimNet n :=
  { net with
    lims := Function.update net.lims j ((L.conf j).masterRegister (net.lims j) hostName).1
    pool := net.pool ++ ((L.conf j).masterRegister (net.lims j) hostName).2 }

/-- An announcement arrives; it is lost where no LIM runs. -/
def deliver (net : LimNet n) (a : Ann) : LimNet n :=
  if h : a.toHost < n ∧ ∃ i ∈ S, i.val = a.toHost then
    { net with pool := net.pool.erase a }.receive L ⟨a.toHost, h.1⟩ a.hostName
  else { net with pool := net.pool.erase a }

def step (net : LimNet n) : LimAct n → LimNet n
  | .tick i asks => net.tick L S i asks
  | .deliver a => net.deliver L S a

/-- An action of a round: only a running LIM's timer fires, and only once. -/
def Ok (net : LimNet n) : LimAct n → Prop
  | .tick i _ => i ∈ S ∧ i ∉ net.ticked
  | .deliver a => a ∈ net.pool

instance (net : LimNet n) : (act : LimAct n) → Decidable (Ok S net act)
  | .tick i _ => inferInstanceAs (Decidable (i ∈ S ∧ i ∉ net.ticked))
  | .deliver a => inferInstanceAs (Decidable (a ∈ net.pool))

/-- The beginning of a round in which the LIMs of `N` are started anew. -/
def beginRound (net : LimNet n) (N : Finset (Fin n)) : LimNet n where
  lims i := if i ∈ N then (L.conf i).startUp else net.lims i
  pool := ((List.finRange n).filter fun i => i ∈ N ∧ i.val = 0).flatMap fun i =>
    (L.conf i).announceMaster (L.conf i).startUp
  ticked := ∅

/-- `acts` is a whole round: every running LIM's timer fires and nothing stays undelivered. -/
def IsRound (net : LimNet n) (acts : List (LimAct n)) : Prop :=
  Run.Along (step L S) (Ok S) net acts ∧ (Run.run (step L S) net acts).ticked = S ∧
    (Run.run (step L S) net acts).pool = []

instance (net : LimNet n) (acts : List (LimAct n)) : Decidable (IsRound L S net acts) := by
  unfold IsRound; infer_instance

/-- The states at the end of a round that are reached when LIMs are started and stopped between
rounds: `S` is the set of LIMs running in the last round. -/
inductive Reach : Finset (Fin n) → LimNet n → Prop
  | boot : Reach ∅ ⟨fun i => (L.conf i).startUp, [], ∅⟩
  | round {S S' N : Finset (Fin n)} {net : LimNet n} {acts : List (LimAct n)} :
      Reach S net → S' \ S ⊆ N → N ⊆ S' → IsRound L S' (net.beginRound L N) acts →
      Reach S' (Run.run (step L S') (net.beginRound L N) acts)

/-- The state after `t` rounds with the same LIMs running. -/
def after (net : LimNet n) (rounds : Nat → List (LimAct n)) : Nat → LimNet n
  | 0 => net
  | t + 1 => Run.run (step L S) ((after net rounds t).beginRound L ∅) (rounds t)

/-- LIM `m` is master and every running LIM has it for its master. -/
structure Elected (m : Fin n) (net : LimNet n) : Prop where
  master : (net.lims m).masterMe = true
  others : ∀ j ∈ S, j ≠ m → (net.lims j).masterKnown = true ∧
    (net.lims j).masterPtr = some m.val ∧ (net.lims j).masterMe = false

end LimNet

/-! ## Counters in step -/

/-- The LIM still believes, within `hostInactivityLimit`, in a master with a number below `m`. -/
structure Lim.Stale (L : LimLimits) (m : Nat) (l : Lim) : Prop where
  known : l.masterKnown = true
  below : ∃ z ∈ l.masterPtr, z < m
  count : l.masterInactivityCount ≤ L.hostInactivityLimit

/-- How much later than a counter in step the take-over of LIM `i` comes. -/
def LimLimits.headStart {n : Nat} (L : LimLimits) (i : Fin n) : Int :=
  max 0 (i * L.masterInactivityLimit)

/-- The counters are in step: while a LIM still believes in a dead master with a number below
`m`, none of the others is master or has counted further by its head start or more. -/
def LimNet.InStep {n : Nat} (L : LimLimits) (S : Finset (Fin n)) (m : Fin n) (net : LimNet n) :
    Prop :=
  ∀ k ∈ S, (net.lims k).Stale L m → ∀ i ∈ S, i ≠ k → (net.lims i).masterMe = false ∧
    (net.lims i).masterInactivityCount < (net.lims k).masterInactivityCount + L.headStart i

/-! ## What one LIM does -/

namespace Lim

variable {c : LimConf} {l : Lim}

theorem Sound.masterPtr_of_me (h : Sound c l) (hme : l.masterMe = true) :
    l.masterPtr = some c.hostNo := by
  rw [h.me] at hme
  exact of_decide_eq_true hme

/-- A tick of a LIM that may become master: nothing for a master; only the counter and perhaps
the loss of the master before the take-over; a take-over or a return to a host that answers the
probe after it. -/
theorem sendLoad_cases (hd : c.DropsFirst) (hc : c.computeOnly = false) (h : Sound c l)
    (connects : Nat → Bool) :
    (l.masterMe = true ∧ c.sendLoad connects l = l) ∨
    (l.masterMe = false ∧ (l.masterInactivityCount + 1 : Nat) < c.takeOverAt ∧
      (c.sendLoad connects l).masterMe = false ∧
      (c.sendLoad connects l).masterInactivityCount = l.masterInactivityCount + 1 ∧
      ((l.masterInactivityCount + 1 : Nat) ≤ c.hostInactivityLimit →
        c.sendLoad connects l =
          { l with masterInactivityCount := l.masterInactivityCount + 1 })) ∨
    (l.masterMe = false ∧ c.takeOverAt ≤ (l.masterInactivityCount + 1 : Nat) ∧
      ((c.sendLoad connects l).masterMe = true ∨
        ∃ m, connects m = true ∧ m < c.hostNo ∧ c.sendLoad connects l =
          ⟨false, true, 0, some m, some m⟩)) := by
  by_cases hm : l.masterMe = true
  · exact .inl ⟨hm, by simp [LimConf.sendLoad, hm]⟩
  replace hm : l.masterMe = false := by simpa using hm
  right
  by_cases ht : (l.masterInactivityCount + 1 : Nat) < c.takeOverAt
  · left
    have hle := c.lt_takeOverAt (Nat.succ_pos _) ht
    unfold LimConf.sendLoad
    rw [if_neg (by simp [hm])]
    split_ifs with hlim
    · have hstay : c.takeOver connects (c.atTakeOver l) = c.atTakeOver l := by
        refine if_neg fun hto => ?_
        have := hto.2
        rw [atTakeOver_count] at this
        omega
      rw [hstay]
      exact ⟨hm, ht, (sound_atTakeOver h hm).2, atTakeOver_count, fun hle => absurd hlim (by omega)⟩
    · exact ⟨hm, ht, hm, rfl, fun _ => rfl⟩
  · right
    have ht := not_lt.mp ht
    obtain ⟨hlim, hto⟩ := c.of_takeOverAt_le ht
    have hk := atTakeOver_known hd hc (h.hostNo_ne_zero hm) ht
    obtain ⟨hs, hme⟩ := sound_atTakeOver h hm
    have hp : (c.atTakeOver l).masterPtr = none := by simpa [hk] using hs.known.symm
    refine ⟨hm, ht, ?_⟩
    unfold LimConf.sendLoad LimConf.takeOver
    rw [if_neg (by simp [hm]), if_pos hlim, if_pos ⟨hc, by simpa using hto⟩]
    split_ifs with hprobe
    · right
      obtain ⟨m, hpm, hconn⟩ := (Option.any_eq_true _ _).mp hprobe
      obtain ⟨hprev, hne⟩ := probed_of_masterPtr_none hp hpm
      refine ⟨m, hconn, lt_of_le_of_ne (hs.prevLe m hprev) hne, ?_⟩
      rw [hme, hprev]
    · exact .inl rfl

/-- An announcement naming host `h`: the LIM stays as it is and may answer with its own master,
or it has `h` for its master afterwards. -/
theorem masterRegister_cases (c : LimConf) (l : Lim) (h : Nat) :
    ((c.masterRegister l h).1 = l ∧ ∀ a ∈ (c.masterRegister l h).2, l.masterKnown = true ∧
      l.masterInactivityCount ≤ c.hostInactivityLimit ∧ l.masterPtr = some a.hostName) ∨
    ((c.masterRegister l h).2 = [] ∧ h ≠ c.hostNo ∧ (c.masterRegister l h).1.masterKnown = true ∧
      (c.masterRegister l h).1.masterInactivityCount = 0 ∧
      (c.masterRegister l h).1.masterPtr = some h) := by
  have hreply : ∀ a ∈ announceMasterToHost l h, l.masterPtr = some a.hostName :=
    forall_mem_map.mpr fun _ hm => Option.mem_toList.mp hm
  unfold LimConf.masterRegister
  split_ifs with h1 h2 h3 h4 h5 h6
  · exact .inl ⟨rfl, by simp⟩
  · exact .inl ⟨rfl, by simp⟩
  · exact .inr ⟨rfl, h1, h3.1, rfl, h3.2⟩
  · exact .inl ⟨rfl, fun a ha => ⟨h4.1, h4.2.2.2, hreply a ha⟩⟩
  · exact .inr ⟨rfl, h1, rfl, rfl, rfl⟩
  · exact .inl ⟨rfl, fun a ha => ⟨h6.1, h6.2.le, hreply a ha⟩⟩
  · exact .inl ⟨rfl, by simp⟩

/-- A LIM that has `m` for its master and does not count it silent keeps it when any host from
`m` on is announced. -/
theorem masterRegister_keeps {m h : Nat} (hk : l.masterKnown = true) (hp : l.masterPtr = some m)
    (hc : l.masterInactivityCount ≤ c.hostInactivityLimit) (hmh : m ≤ h) :
    (c.masterRegister l h).1.masterKnown = true ∧ (c.masterRegister l h).1.masterPtr = some m ∧
      (c.masterRegister l h).1.masterMe = l.masterMe ∧
      (c.masterRegister l h).1.masterInactivityCount ≤ l.masterInactivityCount := by
  unfold LimConf.masterRegister
  split_ifs with h1 h2 h3 h4 h5 h6
  · exact ⟨hk, hp, rfl, le_rfl⟩
  · exact ⟨hk, hp, rfl, le_rfl⟩
  · exact ⟨hk, hp, rfl, Nat.zero_le _⟩
  · exact ⟨hk, hp, rfl, le_rfl⟩
  · -- `h` is not the master and not below it, so the LIM would have answered.
    have hne : m ≠ h := fun he => h3 ⟨hk, he ▸ hp⟩
    exact absurd ⟨hk, h5, ⟨m, hp, by omega⟩, hc⟩ h4
  · exact ⟨hk, hp, rfl, le_rfl⟩
  · exact ⟨hk, hp, rfl, le_rfl⟩

/-- No host from this one on becomes master. -/
theorem masterRegister_ge (h : Sound c l) {m : Nat} (hm : c.hostNo ≤ m) :
    (c.masterRegister l m).1 = l := by
  unfold LimConf.masterRegister
  split_ifs with h1 h2 h3 h4 h5 h6
  · rfl
  · rfl
  · exact absurd (h.le m h3.2) (by omega)
  · rfl
  · exact absurd h5 (by omega)
  · rfl
  · rfl

/-- A LIM accepts a smaller host unless it believes in a still smaller one. -/
theorem masterRegister_accepts {L : LimLimits} {m : Nat} (hL : c.toLimLimits = L)
    (hm : m < c.hostNo) (hs : ¬ l.Stale L m) :
    (c.masterRegister l m).1.masterKnown = true ∧ (c.masterRegister l m).1.masterPtr = some m ∧
      (c.masterRegister l m).1.masterInactivityCount = 0 := by
  have hlt := c.configured
  unfold LimConf.masterRegister
  rw [if_neg (by omega), if_neg (by omega)]
  split_ifs with h3 h4
  · exact ⟨h3.1, h3.2, rfl⟩
  · exact absurd ⟨h4.1, h4.2.2.1, hL ▸ h4.2.2.2⟩ hs
  · exact ⟨rfl, rfl, rfl⟩

end Lim

/-! ## A round keeps the cluster calm -/

namespace LimNet

variable {n : Nat} {L : LimLimits} {S : Finset (Fin n)} {m : Fin n} {net : LimNet n}

/-- Every running LIM has a sound master state. -/
def SoundOn (L : LimLimits) (S : Finset (Fin n)) (net : LimNet n) : Prop :=
  ∀ i ∈ S, (net.lims i).Sound (L.conf i)

/-- One for a LIM that has run `sendLoad` in this round. -/
def ahead (net : LimNet n) (i : Fin n) : Nat := if i ∈ net.ticked then 1 else 0

/-- No running LIM is left to answer a take-over with a dead master: the counters are in step,
up to the ticks of this round, and nothing on its way names a host below `m`. -/
structure Calm (L : LimLimits) (S : Finset (Fin n)) (m : Fin n) (net : LimNet n) : Prop where
  sound : SoundOn L S net
  names : ∀ a ∈ net.pool, m.val ≤ a.hostName
  inStep : ∀ k ∈ S, (net.lims k).Stale L m → net.pool = [] ∧ ∀ i ∈ S, i ≠ k →
    (net.lims i).masterMe = false ∧
    ((net.lims i).masterInactivityCount + net.ahead k : Nat) <
      ((net.lims k).masterInactivityCount + net.ahead i : Nat) + L.headStart i

theorem takeOverAt_conf (hH : 2 ≤ L.hostInactivityLimit) (i : Fin n) :
    (L.conf i).takeOverAt = L.hostInactivityLimit + L.headStart i + 1 := by
  unfold LimConf.takeOverAt LimLimits.headStart LimLimits.conf
  dsimp only
  omega

theorem not_stale_of_masterPtr {l : Lim} {h : Nat} (hp : l.masterPtr = some h) (hm : m.val ≤ h) :
    ¬ l.Stale L m := by
  rintro ⟨-, ⟨z, hz, hlt⟩, -⟩
  rw [hp] at hz
  obtain rfl := Option.some.inj hz
  omega

theorem running_ge (hmin : ∀ j ∈ S, m ≤ j) {h : Nat} (hr : running S h = true) : m.val ≤ h := by
  obtain ⟨i, hi, rfl⟩ := of_decide_eq_true hr
  exact hmin i hi

variable {i : Fin n}

/-- The announcements of a tick name the LIM itself, if it is or becomes master. -/
theorem mem_periodicAnn {l l' : Lim} (hs : l.Sound (L.conf i))
    (hs' : l'.Sound (L.conf i)) {asks : List Nat} {a : Ann}
    (ha : a ∈ (L.conf i).periodicAnn l l' asks) : a.hostName = i.val := by
  have hname : ∀ (k : Lim) (h : Nat), k.Sound (L.conf i) → k.masterMe = true →
      a ∈ announceMasterToHost k h → a.hostName = i.val := by
    intro k h hk hme ha
    rw [announceMasterToHost, hk.masterPtr_of_me hme] at ha
    simp only [Option.toList_some, map_cons, map_nil, mem_singleton] at ha
    rw [ha]
    rfl
  unfold LimConf.periodicAnn at ha
  rw [mem_append, mem_append] at ha
  rcases ha with (ha | ha) | ha
  · split_ifs at ha with hme
    · obtain ⟨h, -, ha⟩ := mem_flatMap.mp ha
      exact hname l h hs hme ha
    · simp at ha
  · split_ifs at ha with hme
    · obtain ⟨h, -, ha⟩ := mem_flatMap.mp ha
      exact hname l' h hs' hme.2 ha
    · simp at ha
  · split_ifs at ha with hme
    · obtain ⟨h, -, ha⟩ := mem_flatMap.mp ha
      exact hname l' h hs' hme ha
    · simp at ha

/-- A LIM that is stale after a tick was stale before it and only counted. -/
theorem stale_of_sendLoad (hmin : ∀ j ∈ S, m ≤ j)
    (hi : i ∈ S) (hd : (L.conf i).DropsFirst) {l : Lim} (hs : l.Sound (L.conf i))
    (hst : ((L.conf i).sendLoad (running S) l).Stale L m) :
    l.Stale L m ∧ (L.conf i).sendLoad (running S) l =
      { l with masterInactivityCount := l.masterInactivityCount + 1 } := by
  have hmi : m.val ≤ i.val := hmin i hi
  rcases Lim.sendLoad_cases hd rfl hs (running S) with
    ⟨hme, heq⟩ | ⟨-, -, -, hcount, heq⟩ | ⟨-, -, hme | ⟨h, hr, -, heq⟩⟩
  · rw [heq] at hst
    exact absurd hst (not_stale_of_masterPtr (hs.masterPtr_of_me hme) hmi)
  · have hle : ((l.masterInactivityCount + 1 : Nat) : Int) ≤ L.hostInactivityLimit :=
      hcount ▸ hst.count
    have heq := heq hle
    rw [heq] at hst
    exact ⟨⟨hst.known, hst.below, by omega⟩, heq⟩
  · have hs' := Lim.sound_sendLoad hd (running S) hs
    exact absurd hst (not_stale_of_masterPtr (hs'.masterPtr_of_me hme) hmi)
  · exact absurd hst (not_stale_of_masterPtr (by rw [heq]) (running_ge hmin hr))

@[simp] theorem tick_lims_self (i : Fin n) (asks : List Nat) :
    (net.tick L S i asks).lims i = (L.conf i).sendLoad (running S) (net.lims i) := by
  simp [tick]

theorem tick_lims_of_ne {j : Fin n} (hij : j ≠ i) (asks : List Nat) :
    (net.tick L S i asks).lims j = net.lims j := by
  simp [tick, hij]

@[simp] theorem tick_ahead_self (i : Fin n) (asks : List Nat) :
    (net.tick L S i asks).ahead i = 1 := by
  simp [tick, ahead]

theorem tick_ahead_of_ne {j : Fin n} (hij : j ≠ i) (asks : List Nat) :
    (net.tick L S i asks).ahead j = net.ahead j := by
  simp [tick, ahead, hij]

theorem ahead_of_not_mem (hi : i ∉ net.ticked) : net.ahead i = 0 := if_neg hi

theorem periodicAnn_of_not_me {c : LimConf} {l l' : Lim} (h : l.masterMe = false)
    (h' : l'.masterMe = false) (asks : List Nat) : c.periodicAnn l l' asks = [] := by
  simp [LimConf.periodicAnn, h, h']

theorem sound_tick {T : Finset (Fin n)} (hd : ∀ i ∈ T, (L.conf i).DropsFirst)
    (h : SoundOn L T net) (i : Fin n) (asks : List Nat) : SoundOn L T (net.tick L S i asks) :=
  (Function.forall_update_iff net.lims fun j l => j ∈ T → Lim.Sound (L.conf j) l).mpr
    ⟨fun hi => Lim.sound_sendLoad (hd i hi) _ (h i hi), fun j _ => h j⟩

section

variable (hH : 2 ≤ L.hostInactivityLimit) (hd : ∀ i ∈ S, (L.conf i).DropsFirst)
  (hmin : ∀ j ∈ S, m ≤ j)

include hH hd

/-- While another LIM is stale, a tick only counts and sends nothing. -/
theorem tick_of_stale (h : Calm L S m net) {k : Fin n} (hi : i ∈ S) (hk : k ∈ S) (hik : i ≠ k)
    (hn : i ∉ net.ticked) (hst : (net.lims k).Stale L m) :
    ((L.conf i).sendLoad (running S) (net.lims i)).masterMe = false ∧
      ((L.conf i).sendLoad (running S) (net.lims i)).masterInactivityCount =
        (net.lims i).masterInactivityCount + 1 := by
  obtain ⟨-, hothers⟩ := h.inStep k hk hst
  obtain ⟨hme, hlt⟩ := hothers i hi hik
  rw [ahead_of_not_mem hn] at hlt
  have hcount := hst.count
  rcases Lim.sendLoad_cases (hd i hi) rfl (h.sound i hi) (running S) with
    ⟨hme', -⟩ | ⟨-, -, hme', hcount', -⟩ | ⟨-, hto, -⟩
  · simp [hme] at hme'
  · exact ⟨hme', hcount'⟩
  · rw [takeOverAt_conf hH] at hto
    omega

include hmin

theorem calm_tick (h : Calm L S m net) (hi : i ∈ S) (hn : i ∉ net.ticked)
    (asks : List Nat) : Calm L S m (net.tick L S i asks) where
  sound := sound_tick hd h.sound i asks
  names a ha := by
    rcases mem_append.mp ha with ha | ha
    · exact h.names a ha
    · rw [mem_periodicAnn (h.sound i hi) (Lim.sound_sendLoad (hd i hi) _ (h.sound i hi)) ha]
      exact hmin i hi
  inStep k hk hst := by
    by_cases hki : k = i
    · subst hki
      rw [tick_lims_self] at hst ⊢
      obtain ⟨hold, heq⟩ := stale_of_sendLoad hmin hk (hd k hk) (h.sound k hk) hst
      obtain ⟨hpool, hothers⟩ := h.inStep k hk hold
      have hme : (net.lims k).masterMe = false := by
        by_contra hme
        have hp := (h.sound k hk).masterPtr_of_me (by simpa using hme)
        exact not_stale_of_masterPtr hp (hmin k hk) hold
      refine ⟨?_, fun j hj hjk => ?_⟩
      · simp only [tick, hpool, nil_append]
        exact periodicAnn_of_not_me hme (by rw [heq]; exact hme) asks
      · obtain ⟨hmej, hlt⟩ := hothers j hj hjk
        rw [ahead_of_not_mem hn] at hlt
        rw [tick_lims_of_ne hjk, tick_ahead_of_ne hjk, tick_ahead_self, heq]
        refine ⟨hmej, ?_⟩
        dsimp only
        omega
    · rw [tick_lims_of_ne hki] at hst
      obtain ⟨hme', hcount'⟩ := tick_of_stale hH hd h hi hk (Ne.symm hki) hn hst
      obtain ⟨hpool, hothers⟩ := h.inStep k hk hst
      refine ⟨?_, fun j hj hjk => ?_⟩
      · simp only [tick, hpool, nil_append]
        exact periodicAnn_of_not_me (hothers i hi (Ne.symm hki)).1 hme' asks
      · rw [tick_lims_of_ne hki, tick_ahead_of_ne hki]
        by_cases hji : j = i
        · subst hji
          obtain ⟨-, hlt⟩ := hothers j hj hjk
          rw [ahead_of_not_mem hn] at hlt
          rw [tick_lims_self, tick_ahead_self, hcount']
          exact ⟨hme', by omega⟩
        · rw [tick_lims_of_ne hji, tick_ahead_of_ne hji]
          exact hothers j hj hjk

end

/-! ### Deliveries -/

theorem receive_lims_self (j : Fin n) (h : Nat) :
    (net.receive L j h).lims j = ((L.conf j).masterRegister (net.lims j) h).1 := by
  simp [receive]

theorem receive_lims_of_ne {j : Fin n} (hij : i ≠ j) (h : Nat) :
    (net.receive L j h).lims i = net.lims i := by
  simp [receive, hij]

/-- A delivery takes the announcement away; a running LIM then handles it. -/
theorem deliver_cases (L : LimLimits) (S : Finset (Fin n)) (net : LimNet n) (a : Ann) :
    (net.deliver L S a = { net with pool := net.pool.erase a } ∧ ∀ i ∈ S, i.val ≠ a.toHost) ∨
    ∃ j ∈ S, j.val = a.toHost ∧
      net.deliver L S a = { net with pool := net.pool.erase a }.receive L j a.hostName := by
  unfold deliver
  split_ifs with h
  · obtain ⟨hlt, i, hi, hia⟩ := h
    have hij : i = ⟨a.toHost, hlt⟩ := Fin.ext hia
    exact .inr ⟨⟨a.toHost, hlt⟩, hij ▸ hi, rfl, rfl⟩
  · refine .inl ⟨rfl, fun i hi hia => h ⟨hia ▸ i.isLt, i, hi, hia⟩⟩

theorem sound_receive (h : SoundOn L S net) (j : Fin n) (name : Nat) :
    SoundOn L S (net.receive L j name) :=
  (Function.forall_update_iff net.lims fun i l => i ∈ S → Lim.Sound (L.conf i) l).mpr
    ⟨fun hj => Lim.sound_masterRegister (h j hj) name, fun i _ => h i⟩

theorem Calm.not_stale (h : Calm L S m net) {a : Ann} (ha : a ∈ net.pool) :
    ∀ k ∈ S, ¬ (net.lims k).Stale L m := by
  intro k hk hst
  rw [(h.inStep k hk hst).1] at ha
  simp at ha

theorem calm_receive (h : Calm L S m net) (hns : ∀ k ∈ S, ¬ (net.lims k).Stale L m) {j : Fin n}
    (hj : j ∈ S) {name : Nat} (hname : m.val ≤ name) : Calm L S m (net.receive L j name) := by
  have hcases := Lim.masterRegister_cases (L.conf j) (net.lims j) name
  have hns' : ∀ k ∈ S, ¬ ((net.receive L j name).lims k).Stale L m := by
    refine (Function.forall_update_iff net.lims fun k l => k ∈ S → ¬ Lim.Stale L m l).mpr
      ⟨fun _ => ?_, fun k _ => hns k⟩
    rcases hcases with ⟨heq, -⟩ | ⟨-, -, -, -, hp⟩
    · rw [heq]
      exact hns j hj
    · exact not_stale_of_masterPtr hp hname
  refine ⟨sound_receive h.sound j name, fun a ha => ?_, fun k hk hst => absurd hst (hns' k hk)⟩
  rcases mem_append.mp ha with ha | ha
  · exact h.names a ha
  · rcases hcases with ⟨-, hreply⟩ | ⟨hnone, -⟩
    · -- An answer with a host below `m` would come from a stale LIM.
      obtain ⟨hk, hc, hp⟩ := hreply a ha
      by_contra hlt
      exact hns j hj ⟨hk, ⟨a.hostName, hp, not_le.mp hlt⟩, hc⟩
    · simp [hnone] at ha

theorem calm_deliver (h : Calm L S m net) {a : Ann} (ha : a ∈ net.pool) :
    Calm L S m (net.deliver L S a) := by
  have hns := h.not_stale ha
  have hrest : Calm L S m { net with pool := net.pool.erase a } :=
    ⟨h.sound, fun b hb => h.names b (mem_of_mem_erase hb),
      fun k hk hst => absurd hst (hns k hk)⟩
  rcases deliver_cases L S net a with ⟨heq, -⟩ | ⟨j, hj, -, heq⟩
  · rw [heq]
    exact hrest
  · rw [heq]
    exact calm_receive hrest hns hj (h.names a ha)

end LimNet

end Volclava
