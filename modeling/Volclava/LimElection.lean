import Volclava.LimRounds

/-!
# Election of the master LIM

As long as the counters are in step, the running LIM with the smallest number takes over when its
counter gets there, everybody hears of it in that round, and nobody forgets it again. Two LIMs
whose counters are out of step can answer each other's take-over with a dead master for ever.

- `elected_of_inStep`: from counters in step, the LIM with the smallest number is elected within
  `takeOverAt` rounds and stays elected.
- `outOfStep_never_elects`: two LIMs that never settle.
-/

namespace Volclava

namespace LimNet

variable {n : Nat} {L : LimLimits} {S : Finset (Fin n)} {m : Fin n} {net : LimNet n}

/-! ## The smallest LIM takes over -/

/-- The LIM has `m` for its master, silent for at most `b` ticks. -/
structure Follows (m b : Nat) (l : Lim) : Prop where
  known : l.masterKnown = true
  ptr : l.masterPtr = some m
  count : l.masterInactivityCount ≤ b

/-- LIM `m` is master, or has counted through `r` rounds and this one without a take-over. -/
def Waits (L : LimLimits) (m : Fin n) (r : Nat) (net : LimNet n) : Prop :=
  (net.lims m).masterMe = true ∨
    (r + net.ahead m ≤ (net.lims m).masterInactivityCount ∧
      (m ∈ net.ticked → ((r + 1 : Nat) : Int) < (L.conf m).takeOverAt))

/-- Once LIM `m` has ticked as master, each other LIM has followed it since or will hear of it. -/
def Heard (S : Finset (Fin n)) (m : Fin n) (net : LimNet n) : Prop :=
  m ∈ net.ticked → (net.lims m).masterMe = true → ∀ j ∈ S, j ≠ m →
    ⟨j.val, m.val⟩ ∈ net.pool ∨ Follows m (0 + net.ahead j) (net.lims j)

variable {i : Fin n} {j : Fin n}

theorem mem_periodicAnn_of_me {l l' : Lim} (hs : l'.Sound (L.conf i))
    (hme : l'.masterMe = true) (asks : List Nat) (hj : j ≠ i) :
    ⟨j.val, i.val⟩ ∈ (L.conf i).periodicAnn l l' asks := by
  unfold LimConf.periodicAnn
  refine List.mem_append_right _ ?_
  rw [if_pos hme]
  refine List.mem_flatMap.mpr ⟨j.val, ?_, ?_⟩
  · have hne : j.val ≠ i.val := fun he => hj (Fin.ext he)
    simp [LimLimits.conf, hne, j.isLt]
  · rw [announceMasterToHost, hs.masterPtr_of_me hme]
    simp [LimLimits.conf]

variable {b : Nat}

/-- A LIM other than `m` that follows `m` is not master. -/
theorem Follows.not_me {l : Lim} (h : Follows m b l) (hi : i ≠ m)
    (hs : l.Sound (L.conf i)) : l.masterMe = false := by
  rw [hs.me, h.ptr]
  have hne : m.val ≠ i.val := fun he => hi (Fin.ext he.symm)
  simp [LimLimits.conf, hne]

/-- A LIM keeps following through a tick that does not take its counter past the limit. -/
theorem follows_sendLoad (hH : 2 ≤ L.hostInactivityLimit) (hd : (L.conf i).DropsFirst)
    {l : Lim} (hs : l.Sound (L.conf i)) (hi : i ≠ m) (h : Follows m b l) (hb : b ≤ 1) :
    Follows m (b + 1) ((L.conf i).sendLoad (running S) l) := by
  have hme := h.not_me hi hs
  have hle := h.count
  rcases Lim.sendLoad_cases hd rfl hs (running S) with
    ⟨hme', -⟩ | ⟨-, -, -, -, heq⟩ | ⟨-, hto, -⟩
  · simp [hme] at hme'
  · have hcount : ((l.masterInactivityCount + 1 : Nat) : Int) ≤ L.hostInactivityLimit := by omega
    rw [heq hcount]
    exact ⟨h.known, h.ptr, by dsimp only; omega⟩
  · have hhs : 0 ≤ L.headStart i := le_max_left _ _
    rw [takeOverAt_conf hH] at hto
    omega

/-- A LIM keeps following when a host from `m` on is announced. -/
theorem follows_masterRegister {c : LimConf} {l : Lim} {h : Nat} (hf : Follows m b l)
    (hb : b ≤ c.hostInactivityLimit) (hmh : m.val ≤ h) :
    Follows m b (c.masterRegister l h).1 := by
  have hc : (l.masterInactivityCount : Int) ≤ c.hostInactivityLimit := by
    have := hf.count
    omega
  obtain ⟨hk, hp, -, hcount⟩ := Lim.masterRegister_keeps hf.known hf.ptr hc hmh
  exact ⟨hk, hp, hcount.trans hf.count⟩

/-! ### Deliveries seen from one LIM -/

@[simp] theorem deliver_ticked (a : Ann) : (net.deliver L S a).ticked = net.ticked := by
  unfold deliver receive
  split_ifs <;> rfl

@[simp] theorem deliver_ahead (a : Ann) (i : Fin n) :
    (net.deliver L S a).ahead i = net.ahead i := by
  simp [ahead]

theorem mem_deliver_pool {a b : Ann} (hb : b ∈ net.pool) (hab : b ≠ a) :
    b ∈ (net.deliver L S a).pool := by
  have hrest : b ∈ net.pool.erase a := (List.mem_erase_of_ne hab).mpr hb
  unfold deliver receive
  split_ifs
  · exact List.mem_append_left _ hrest
  · exact hrest

/-- Running LIM `j` handles the announcement if it is sent to it and is left alone otherwise. -/
theorem deliver_lims (L : LimLimits) (net : LimNet n) (a : Ann) (hj : j ∈ S) :
    (a.toHost = j.val ∧ (net.deliver L S a).lims j =
      ((L.conf j).masterRegister (net.lims j) a.hostName).1) ∨
    (a.toHost ≠ j.val ∧ (net.deliver L S a).lims j = net.lims j) := by
  rcases deliver_cases L S net a with ⟨heq, hnone⟩ | ⟨i, hi, hia, heq⟩
  · exact .inr ⟨(hnone j hj).symm, by rw [heq]⟩
  · rw [heq, ← hia]
    by_cases hij : j = i
    · subst hij
      exact .inl ⟨rfl, receive_lims_self j a.hostName⟩
    · exact .inr ⟨fun he => hij (Fin.ext he.symm), receive_lims_of_ne hij a.hostName⟩

/-- LIM `m` itself is left alone by every announcement that names a host from `m` on. -/
theorem deliver_lims_min (h : Calm L S m net) (hm : m ∈ S) {a : Ann} (ha : a ∈ net.pool) :
    (net.deliver L S a).lims m = net.lims m := by
  rcases deliver_lims L net a hm with ⟨-, heq⟩ | ⟨-, heq⟩
  · rw [heq]
    exact Lim.masterRegister_ge (h.sound m hm) (h.names a ha)
  · exact heq

/-! ### One action -/

variable {r : Nat}

section

variable (hH : 2 ≤ L.hostInactivityLimit) (hd : ∀ i ∈ S, (L.conf i).DropsFirst)
  (hm : m ∈ S) (hmin : ∀ j ∈ S, m ≤ j)

include hd hm hmin in
theorem waits_tick (h : Calm L S m net) (hw : Waits L m r net)
    (hn : i ∉ net.ticked) (asks : List Nat) : Waits L m r (net.tick L S i asks) := by
  by_cases hi : m = i
  · subst hi
    unfold Waits
    rw [tick_lims_self, tick_ahead_self]
    rcases Lim.sendLoad_cases (hd m hm) rfl (h.sound m hm) (running S) with
      ⟨hme, heq⟩ | ⟨hme, hlt, -, hcount, -⟩ | ⟨-, -, hme | ⟨k, hr, hk, -⟩⟩
    · exact .inl (by rw [heq]; exact hme)
    · rcases hw with hw | ⟨hle, -⟩
      · simp [hme] at hw
      · rw [ahead_of_not_mem hn] at hle
        refine .inr ⟨by omega, fun _ => ?_⟩
        omega
    · exact .inl hme
    · -- No host below `m` runs, so the probe cannot have succeeded.
      have hmk := running_ge hmin hr
      have : k < m.val := hk
      omega
  · unfold Waits
    rw [tick_lims_of_ne hi, tick_ahead_of_ne hi]
    rcases hw with hw | ⟨hle, hlt⟩
    · exact .inl hw
    · refine .inr ⟨hle, fun ht => hlt ?_⟩
      exact Finset.mem_of_mem_insert_of_ne ht hi

include hH hd in
theorem follows_tick (h : Calm L S m net) (hj : j ∈ S) (hjm : j ≠ m)
    (hb : b ≤ 1) (hf : Follows m (b + net.ahead j) (net.lims j))
    (hn : i ∉ net.ticked) (asks : List Nat) :
    Follows m (b + (net.tick L S i asks).ahead j) ((net.tick L S i asks).lims j) := by
  by_cases hji : j = i
  · subst hji
    rw [ahead_of_not_mem hn] at hf
    rw [tick_lims_self, tick_ahead_self]
    exact follows_sendLoad hH (hd j hj) (h.sound j hj) hjm hf hb
  · rw [tick_lims_of_ne hji, tick_ahead_of_ne hji]
    exact hf

include hH in
theorem follows_deliver (h : Calm L S m net) (hj : j ∈ S)
    (hb : b ≤ 1) (hf : Follows m (b + net.ahead j) (net.lims j)) {a : Ann} (ha : a ∈ net.pool) :
    Follows m (b + (net.deliver L S a).ahead j) ((net.deliver L S a).lims j) := by
  rw [deliver_ahead]
  rcases deliver_lims L net a hj with ⟨-, heq⟩ | ⟨-, heq⟩
  · have hle : net.ahead j ≤ 1 := by unfold ahead; split_ifs <;> omega
    have hlim : ((b + net.ahead j : Nat) : Int) ≤ L.hostInactivityLimit := by omega
    rw [heq]
    exact follows_masterRegister hf hlim (h.names a ha)
  · rw [heq]
    exact hf

include hH hd in
theorem heard_tick (h : Calm L S m net) (hh : Heard S m net) (hi : i ∈ S)
    (hn : i ∉ net.ticked) (asks : List Nat) : Heard S m (net.tick L S i asks) := by
  intro ht hme j hj hjm
  by_cases hmi : m = i
  · -- LIM `m` has just announced itself to everyone.
    subst hmi
    rw [tick_lims_self] at hme
    have hs := Lim.sound_sendLoad (hd m hi) (running S) (h.sound m hi)
    exact .inl (List.mem_append_right _ (mem_periodicAnn_of_me hs hme asks hjm))
  · rw [tick_lims_of_ne hmi] at hme
    rcases hh (Finset.mem_of_mem_insert_of_ne ht hmi) hme j hj hjm with hin | hf
    · exact .inl (List.mem_append_left _ hin)
    · exact .inr (follows_tick hH hd h hj hjm (Nat.zero_le 1) hf hn asks)

include hH hm hmin in
theorem heard_deliver (h : Calm L S m net) (hh : Heard S m net) {a : Ann} (ha : a ∈ net.pool) :
    Heard S m (net.deliver L S a) := by
  intro ht hme j hj hjm
  rw [deliver_ticked] at ht
  rw [deliver_lims_min h hm ha] at hme
  have hmj : m.val < j.val := lt_of_le_of_ne (hmin j hj) fun he => hjm (Fin.ext he.symm)
  by_cases hjust : a = ⟨j.val, m.val⟩
  · -- This is the announcement `j` was waiting for.
    right
    rcases deliver_lims L net a hj with ⟨-, heq⟩ | ⟨hne, -⟩
    · rw [heq, hjust]
      obtain ⟨hk, hp, hc⟩ := Lim.masterRegister_accepts (c := L.conf j) rfl hmj
        (h.not_stale ha j hj)
      exact ⟨hk, hp, le_of_eq_of_le hc (Nat.zero_le _)⟩
    · exact absurd (by rw [hjust]) hne
  · rcases hh ht hme j hj hjm with hin | hf
    · exact .inl (mem_deliver_pool hin (Ne.symm hjust))
    · exact .inr (follows_deliver hH h hj (Nat.zero_le 1) hf ha)

end

/-! ### Whole rounds -/

/-- What holds in every state of the round after `r` rounds. -/
structure InRound (L : LimLimits) (S : Finset (Fin n)) (m : Fin n) (r : Nat) (net : LimNet n) :
    Prop extends Calm L S m net where
  waits : Waits L m r net
  heard : Heard S m net

/-- LIM `m` is master and every other running LIM followed it at the start of the round. -/
structure Settled (S : Finset (Fin n)) (m : Fin n) (net : LimNet n) : Prop where
  master : (net.lims m).masterMe = true
  follow : ∀ j ∈ S, j ≠ m → Follows m (1 + net.ahead j) (net.lims j)

theorem Settled.elected (h : Settled S m net) (hc : Calm L S m net) : Elected S m net where
  master := h.master
  others j hj hjm :=
    ⟨(h.follow j hj hjm).known, (h.follow j hj hjm).ptr,
      (h.follow j hj hjm).not_me hjm (hc.sound j hj)⟩

section

variable (hH : 2 ≤ L.hostInactivityLimit) (hd : ∀ i ∈ S, (L.conf i).DropsFirst)
  (hm : m ∈ S) (hmin : ∀ j ∈ S, m ≤ j)

include hH hd hm hmin

theorem inRound_step {act : LimAct n} (hok : Ok S net act) (h : InRound L S m r net) :
    InRound L S m r (net.step L S act) := by
  cases act with
  | tick i asks =>
    exact ⟨calm_tick hH hd hmin h.toCalm hok.1 hok.2 asks,
      waits_tick hd hm hmin h.toCalm h.waits hok.2 asks,
      heard_tick hH hd h.toCalm h.heard hok.1 hok.2 asks⟩
  | deliver a =>
    refine ⟨calm_deliver h.toCalm hok, ?_, heard_deliver hH hm hmin h.toCalm h.heard hok⟩
    show Waits L m r (net.deliver L S a)
    unfold Waits
    rw [deliver_lims_min h.toCalm hm hok, deliver_ahead, deliver_ticked]
    exact h.waits

omit hmin in
theorem settled_step {act : LimAct n} (hok : Ok S net act) (h : InRound L S m r net)
    (hs : Settled S m net) : Settled S m (net.step L S act) := by
  cases act with
  | tick i asks =>
    refine ⟨?_, fun j hj hjm => follows_tick hH hd h.toCalm hj hjm le_rfl (hs.follow j hj hjm)
      hok.2 asks⟩
    show ((net.tick L S i asks).lims m).masterMe = true
    by_cases hmi : m = i
    · subst hmi
      rw [tick_lims_self, LimConf.sendLoad, if_pos hs.master]
      exact hs.master
    · rw [tick_lims_of_ne hmi]
      exact hs.master
  | deliver a =>
    refine ⟨?_, fun j hj hjm => follows_deliver hH h.toCalm hj le_rfl (hs.follow j hj hjm) hok⟩
    show ((net.deliver L S a).lims m).masterMe = true
    rw [deliver_lims_min h.toCalm hm hok]
    exact hs.master

end

/-! ## Election -/

theorem sound_step {T : Finset (Fin n)} (hd : ∀ i ∈ T, (L.conf i).DropsFirst)
    (h : SoundOn L T net) (act : LimAct n) : SoundOn L T (net.step L S act) := by
  cases act with
  | tick i asks => exact sound_tick hd h i asks
  | deliver a =>
    rcases deliver_cases L S net a with ⟨heq, -⟩ | ⟨j, -, -, heq⟩
    · rw [step, heq]
      exact h
    · rw [step, heq]
      exact sound_receive h j a.hostName

/-- In every reachable state a running LIM that drops a silent master first has a sound master
state. -/
theorem Reach.sound (hd : (L.conf i).DropsFirst) (h : Reach L S net) (hi : i ∈ S) :
    (net.lims i).Sound (L.conf i) := by
  have hone {net : LimNet n} : SoundOn L {i} net ↔ (net.lims i).Sound (L.conf i) := by
    simp [SoundOn]
  induction h with
  | boot => simp at hi
  | @round S S' N net acts _ hnew _ _ ih =>
    have hstep : ∀ net act, SoundOn L {i} net → SoundOn L {i} (net.step L S' act) :=
      fun net act h => sound_step (by simpa using hd) h act
    refine hone.mp (Run.inv_all hstep (hone.mpr ?_) acts)
    show Lim.Sound (L.conf i) (if i ∈ N then (L.conf i).startUp else net.lims i)
    split_ifs with hN
    · exact Lim.sound_startUp _
    · refine ih ?_
      by_contra hS
      exact hN (hnew (Finset.mem_sdiff.mpr ⟨hi, hS⟩))

@[simp] theorem beginRound_empty (net : LimNet n) :
    net.beginRound L ∅ = ⟨net.lims, [], ∅⟩ := by
  simp [beginRound]

theorem calm_begin (hs : SoundOn L S net) (h : InStep L S m net) :
    Calm L S m ⟨net.lims, [], ∅⟩ := by
  refine ⟨hs, by simp, fun k hk hst => ⟨rfl, fun i hi hik => ?_⟩⟩
  simpa [ahead] using h k hk hst i hi hik

/-- At the end of a calm round the counters are in step. -/
theorem Calm.inStep_of_ticked (h : Calm L S m net) (ht : net.ticked = S) : InStep L S m net := by
  intro k hk hst i hi hik
  obtain ⟨hme, hlt⟩ := (h.inStep k hk hst).2 i hi hik
  have hk1 : net.ahead k = 1 := if_pos (ht ▸ hk)
  have hi1 : net.ahead i = 1 := if_pos (ht ▸ hi)
  refine ⟨hme, ?_⟩
  rw [hk1, hi1] at hlt
  omega

theorem inRound_begin (hm : m ∈ S) (h : InRound L S m r net) (ht : net.ticked = S) :
    InRound L S m (r + 1) ⟨net.lims, [], ∅⟩ := by
  refine ⟨calm_begin h.sound (h.toCalm.inStep_of_ticked ht), ?_, fun hin => by simp at hin⟩
  rcases h.waits with hme | ⟨hle, -⟩
  · exact .inl hme
  · have h1 : net.ahead m = 1 := if_pos (ht ▸ hm)
    rw [h1] at hle
    exact .inr ⟨by simpa [ahead] using hle, by simp⟩

/-- A round that ends `r + 1` rounds after the start, late enough for a take-over, leaves all
running LIMs with `m`. -/
theorem settled_begin (hm : m ∈ S) (h : InRound L S m r net) (ht : net.ticked = S)
    (hp : net.pool = []) (hr : (L.conf m).takeOverAt ≤ (r + 1 : Nat)) :
    Settled S m ⟨net.lims, [], ∅⟩ := by
  have hme : (net.lims m).masterMe = true := by
    rcases h.waits with hme | ⟨-, hlt⟩
    · exact hme
    · have := hlt (ht ▸ hm)
      omega
  refine ⟨hme, fun j hj hjm => ?_⟩
  rcases h.heard (ht ▸ hm) hme j hj hjm with hin | hf
  · simp [hp] at hin
  · have h1 : net.ahead j = 1 := if_pos (ht ▸ hj)
    rw [h1] at hf
    simpa [ahead] using hf

section

variable (hH : 2 ≤ L.hostInactivityLimit) (hd : ∀ i ∈ S, (L.conf i).DropsFirst)
  (hm : m ∈ S) (hmin : ∀ j ∈ S, m ≤ j)

include hH hd hm hmin

theorem inRound_run (h : InRound L S m r net) {acts : List (LimAct n)}
    (hacts : Run.Along (step L S) (Ok S) net acts) :
    InRound L S m r (Run.run (step L S) net acts) :=
  Run.inv_run (fun _ _ => inRound_step hH hd hm hmin) h hacts

theorem inRound_after (hs : SoundOn L S net) (h : InStep L S m net)
    {rounds : Nat → List (LimAct n)}
    (hr : ∀ t, IsRound L S ((after L S net rounds t).beginRound L ∅) (rounds t)) (t : Nat) :
    InRound L S m t ((after L S net rounds t).beginRound L ∅) := by
  induction t with
  | zero =>
    rw [beginRound_empty]
    exact ⟨calm_begin hs h, .inr ⟨by simp [ahead], by simp⟩, fun hin => by simp at hin⟩
  | succ t ih =>
    obtain ⟨hacts, ht, -⟩ := hr t
    have hend : InRound L S m t (after L S net rounds (t + 1)) :=
      inRound_run hH hd hm hmin ih hacts
    rw [beginRound_empty]
    exact inRound_begin hm hend ht

/-- From counters in step, the running LIMs are settled at every round from `takeOverAt` on. -/
theorem settled_after (hs : SoundOn L S net) (h : InStep L S m net)
    {rounds : Nat → List (LimAct n)}
    (hr : ∀ t, IsRound L S ((after L S net rounds t).beginRound L ∅) (rounds t)) {t : Nat}
    (ht : (L.conf m).takeOverAt ≤ t) :
    Settled S m ((after L S net rounds t).beginRound L ∅) := by
  have hpos : 1 ≤ (L.conf m).takeOverAt := le_max_left _ _
  obtain ⟨r, rfl⟩ : ∃ r, t = r + 1 := ⟨t - 1, by omega⟩
  obtain ⟨hacts, hticked, hpool⟩ := hr r
  have hend : InRound L S m r (after L S net rounds (r + 1)) :=
    inRound_run hH hd hm hmin (inRound_after hH hd hm hmin hs h hr r) hacts
  rw [beginRound_empty]
  exact settled_begin hm hend hticked hpool ht

end

/-- **The running LIM with the smallest number is elected** within `takeOverAt` rounds and stays
elected, inside the rounds too, when the host limit is stored as a value above 1, every running
LIM drops a silent master before it tries to take over, and the counters are in step. -/
theorem elected_of_inStep (hH : 2 ≤ L.hostInactivityLimit)
    (hd : ∀ i ∈ S, (L.conf i).DropsFirst) {S₀ : Finset (Fin n)} (hreach : Reach L S₀ net)
    (hsub : S ⊆ S₀) (hm : m ∈ S) (hmin : ∀ j ∈ S, m ≤ j) (hin : InStep L S m net)
    {rounds : Nat → List (LimAct n)}
    (hr : ∀ t, IsRound L S ((after L S net rounds t).beginRound L ∅) (rounds t)) {t : Nat}
    (ht : (L.conf m).takeOverAt ≤ t) (k : Nat) :
    Elected S m (Run.run (step L S) ((after L S net rounds t).beginRound L ∅)
      ((rounds t).take k)) := by
  have hs : SoundOn L S net := fun i hi => hreach.sound (hd i hi) (hsub hi)
  have hstart : InRound L S m t ((after L S net rounds t).beginRound L ∅) ∧
      Settled S m ((after L S net rounds t).beginRound L ∅) :=
    ⟨inRound_after hH hd hm hmin hs hin hr t, settled_after hH hd hm hmin hs hin hr ht⟩
  have hstep : ∀ net act, Ok S net act → InRound L S m t net ∧ Settled S m net →
      InRound L S m t (net.step L S act) ∧ Settled S m (net.step L S act) :=
    fun net act hok h =>
      ⟨inRound_step hH hd hm hmin hok h.1, settled_step hH hd hm hok h.1 h.2⟩
  have hend := Run.inv_take hstep hstart (hr t).1 k
  exact hend.2.elected hend.1.toCalm

/-! ### A cluster that elects -/

/-- The states at the ends of the rounds, with the default limits, after host 0 has died: LIM 1 and
LIM 2 count, until LIM 1 takes over in the seventh round. -/
def orphanState (t : Nat) : LimNet 3 :=
  if t < 7 then
    ⟨![⟨true, true, 0, some 0, none⟩, ⟨false, true, t + 1, some 0, none⟩,
      ⟨false, true, t + 1, some 0, none⟩], [], if t = 0 then {0, 1, 2} else {1, 2}⟩
  else
    ⟨![⟨true, true, 0, some 0, none⟩, ⟨true, true, 0, some 1, none⟩,
      ⟨false, true, 1, some 1, some 0⟩], [], {1, 2}⟩

def orphanRound (t : Nat) : List (LimAct 3) :=
  if t < 6 then [.tick 1 [], .tick 2 []]
  else if t = 6 then
    [.tick 1 [], .deliver ⟨0, 1⟩, .deliver ⟨2, 1⟩, .deliver ⟨0, 1⟩, .deliver ⟨2, 1⟩, .tick 2 []]
  else [.tick 1 [], .deliver ⟨0, 1⟩, .deliver ⟨2, 1⟩, .tick 2 []]

theorem orphan_isRound {t : Nat} (ht : t ≤ 7) :
    IsRound (doclparams none none none) {1, 2}
        ((orphanState t).beginRound (doclparams none none none) ∅) (orphanRound t) ∧
      Run.run (step (doclparams none none none) {1, 2})
        ((orphanState t).beginRound (doclparams none none none) ∅) (orphanRound t) =
          orphanState (min (t + 1) 7) := by
  interval_cases t <;> decide

theorem orphan_round (t : Nat) : orphanRound t = orphanRound (min t 7) := by
  rcases le_total t 7 with h | h
  · rw [min_eq_left h]
  · rw [min_eq_right h, orphanRound, if_neg (by omega), if_neg (by omega)]
    rfl

theorem after_orphan (t : Nat) :
    after (doclparams none none none) {1, 2} (orphanState 0) orphanRound t =
      orphanState (min t 7) := by
  induction t with
  | zero => rfl
  | succ t ih =>
    rw [after, ih, orphan_round, (orphan_isRound (min_le_right t 7)).2]
    congr 1
    omega

/-- All three LIMs run for one round. -/
theorem reach_orphan : Reach (doclparams none none none) {0, 1, 2} (orphanState 0) := by
  have heq : Run.run (step (doclparams none none none) {0, 1, 2})
      ((⟨fun i => ((doclparams none none none).conf i).startUp, [], ∅⟩ : LimNet 3).beginRound
        (doclparams none none none) {0, 1, 2})
      [.deliver ⟨1, 0⟩, .deliver ⟨2, 0⟩, .tick 0 [], .deliver ⟨1, 0⟩, .deliver ⟨2, 0⟩, .tick 1 [],
        .tick 2 []] = orphanState 0 := by decide
  rw [← heq]
  exact .round .boot (by decide) (by decide) (by decide)

theorem orphans_elect :
    Elected {1, 2} 1 (Run.run (step (doclparams none none none) {1, 2})
      ((after (doclparams none none none) {1, 2} (orphanState 0) orphanRound 8).beginRound
        (doclparams none none none) ∅) ((orphanRound 8).take 4)) := by
  refine elected_of_inStep (by decide) (by decide) reach_orphan (by decide)
    (by decide) (by decide) (fun k hk hst i hi hik => ?_) (fun t => ?_) (by decide) 4
  · fin_cases hk <;> fin_cases hi <;> first | exact absurd rfl hik | decide
  · rw [after_orphan, orphan_round]
    exact (orphan_isRound (min_le_right t 7)).1

/-! ### A cluster that never elects -/

/-- Limits the cluster file may set, with which LIM 1 and LIM 2 can keep each other from becoming
master after host 0 has died. -/
def noHeadStart : LimLimits := doclparams (some 2) (some 0) (some 0)

/-- The three rounds of the cycle: both LIMs count; LIM 2 takes over and LIM 1 answers with host
0; LIM 1 takes over and LIM 2 answers with host 0. -/
def cycleRound : Nat → List (LimAct 3)
  | 0 => [.tick 1 [], .tick 2 []]
  | 1 => [.tick 2 [], .deliver ⟨0, 2⟩, .deliver ⟨1, 2⟩, .deliver ⟨0, 2⟩, .deliver ⟨1, 2⟩,
      .deliver ⟨2, 0⟩, .deliver ⟨2, 0⟩, .tick 1 []]
  | _ => [.tick 1 [], .deliver ⟨0, 1⟩, .deliver ⟨2, 1⟩, .deliver ⟨0, 1⟩, .deliver ⟨2, 1⟩,
      .deliver ⟨1, 0⟩, .deliver ⟨1, 0⟩, .tick 2 []]

/-- The states at the ends of the rounds of the cycle. -/
def cycleState (t : Nat) : LimNet 3 :=
  ⟨![⟨true, true, 0, some 0, none⟩, ⟨false, true, t, some 0, some 1⟩,
    ⟨false, true, (t + 1) % 3, some 0, some 2⟩], [], {1, 2}⟩

theorem cycle_isRound {t : Nat} (ht : t < 3) :
    IsRound noHeadStart {1, 2} ((cycleState t).beginRound noHeadStart ∅) (cycleRound t) ∧
      Run.run (step noHeadStart {1, 2}) ((cycleState t).beginRound noHeadStart ∅) (cycleRound t) =
        cycleState ((t + 1) % 3) := by
  interval_cases t <;> decide

theorem after_cycle (t : Nat) :
    after noHeadStart {1, 2} (cycleState 0) (fun t => cycleRound (t % 3)) t =
      cycleState (t % 3) := by
  induction t with
  | zero => rfl
  | succ t ih =>
    rw [after, ih, (cycle_isRound (Nat.mod_lt t (by decide))).2, Nat.mod_add_mod]

/-- One more round of the cycle with LIM 1 and LIM 2 running. -/
def cycleAfter (t : Nat) (net : LimNet 3) : LimNet 3 :=
  Run.run (step noHeadStart {1, 2}) (net.beginRound noHeadStart ∅) (cycleRound t)

/-- The cluster after its first round: LIM 2 has heard of host 0 before its own tick, LIM 1 after
it. -/
def firstState : LimNet 3 :=
  ⟨![⟨true, true, 0, some 0, none⟩, ⟨false, true, 0, some 0, none⟩,
    ⟨false, true, 1, some 0, none⟩], [], {0, 1, 2}⟩

theorem reach_firstState : Reach noHeadStart {0, 1, 2} firstState := by
  have heq : Run.run (step noHeadStart {0, 1, 2})
      ((⟨fun i => (noHeadStart.conf i).startUp, [], ∅⟩ : LimNet 3).beginRound noHeadStart {0, 1, 2})
      [.tick 1 [], .tick 0 [], .deliver ⟨1, 0⟩, .deliver ⟨2, 0⟩, .deliver ⟨1, 0⟩, .deliver ⟨2, 0⟩,
        .tick 2 []] = firstState := by decide
  rw [← heq]
  exact .round .boot (by decide) (by decide) (by decide)

/-- The cycle is reached when host 0 dies after the first round. -/
theorem reach_cycle : Reach noHeadStart {1, 2} (cycleState 0) := by
  have heq : cycleAfter 2 (cycleAfter 1 (cycleAfter 0 firstState)) = cycleState 0 := by decide
  rw [← heq]
  refine .round (.round (.round reach_firstState ?_ ?_ ?_) ?_ ?_ ?_) ?_ ?_ ?_ <;> decide

/-- **A cluster that never elects**: after host 0 has died, LIM 1 and LIM 2 keep answering each
other's take-over with the dead master. -/
theorem outOfStep_never_elects :
    Reach noHeadStart {1, 2} (cycleState 0) ∧
      (∀ t, IsRound noHeadStart {1, 2} ((after noHeadStart {1, 2} (cycleState 0)
        (fun t => cycleRound (t % 3)) t).beginRound noHeadStart ∅) (cycleRound (t % 3))) ∧
      ∀ t, ∀ m ∈ ({1, 2} : Finset (Fin 3)), ¬ Elected {1, 2} m
        (after noHeadStart {1, 2} (cycleState 0) (fun t => cycleRound (t % 3)) t) := by
  refine ⟨reach_cycle, fun t => ?_, fun t m hm h => ?_⟩
  · rw [after_cycle]
    exact (cycle_isRound (Nat.mod_lt t (by decide))).1
  · have hme := h.master
    rw [after_cycle] at hme
    fin_cases hm <;> simp [cycleState] at hme

end LimNet

end Volclava
