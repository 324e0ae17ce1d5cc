import Volclava.Movements

/-!
# The number of pending jobs of a user

`updUserData1` never counts jobs: with every movement it adds the truncated quotient of the
pending slots moved and the processors the job asks for now. The quotient is right when all
slots of the job move under the bill they were counted with. It is wrong when a reservation
takes all of them, when the bill has changed in between, as in `handleJParameters`, or when the
slots of an array overflow an `int`.

- `Counts`, `updAll_counts`: the count of every user and group is a rest plus what the job at
  hand adds to it.
- `Counted`, `jobStep_counted`, `modifyJob_counted`: each operation keeps the count right, under
  `JobOp.CountOk` and `JData.BillOk`.
- `pendExact_run`: the count is exact along every run whose operations are all `Op.CountOk`.
-/

namespace Volclava

open Ledger List

variable {Q U H : Type}

/-! ## What is posted -/

/-- The jobs by which a movement changes the count of a user. -/
def posted (mv : Option Movement) (numReq : Int) : Int := (moved mv .numPEND).tdiv numReq

/-- A job record the counts can be about: a pending job does not reserve all its slots. -/
structure JData.CountWf (jp : JData Q U H) : Prop where
  state : jState jp.jStatus ≠ .other
  reserved : (jState jp.jStatus).isPending = true → has jp.jStatus jobStatReserve = true →
    jp.num < jp.numReq

theorem JState.count_nonneg (st : JState) : 0 ≤ st.count := by
  cases st <;> decide

theorem JState.count_le_one (st : JState) : st.count ≤ 1 := by
  cases st <;> decide

theorem count_of_isPending {st : JState} (h : st.isPending = true) : st.count = 1 := if_pos h

theorem count_of_isFinish {s : Status} (h : isFinish s = true) : (jState s).count = 0 := by
  rw [JState.count, not_isPending_of_isFinish h]
  rfl

/-- A job that has just become pending. -/
theorem fresh_counted (jp : JData Q U H)
    (h : jp.jStatus = jobStatPsusp ∨ jp.jStatus = jobStatPend) :
    jp.CountWf ∧ (jState jp.jStatus).isPending = true := by
  have hst : (jState jp.jStatus).isPending = true ∧ has jp.jStatus jobStatReserve = false := by
    rcases h with h | h <;> rw [h] <;> decide
  refine ⟨⟨fun ho => ?_, fun _ hr => ?_⟩, hst.1⟩
  · rw [ho] at hst; cases hst.1
  · rw [hst.2] at hr; cases hr

theorem posted_none (numReq : Int) : posted none numReq = 0 := Int.zero_tdiv _

/-- Less than all slots of a job are no job. -/
theorem tdiv_of_lt {num numReq : Int} (h0 : 0 ≤ num) (h : num < numReq) :
    num.tdiv numReq = 0 ∧ (-num).tdiv numReq = 0 := by
  rw [Int.neg_tdiv, Int.tdiv_eq_zero_of_lt h0 h]
  simp

/-- The pending slots a reservation moves are no job as long as they are not all of them. -/
theorem posted_res {jp : JData Q U H} {n : Status} {r : Bool}
    (hs : has jp.jStatus jobStatReserve = !r) (hn : has n jobStatReserve = r)
    (hk : knownStatus n = knownStatus jp.jStatus) (hst : jState jp.jStatus ≠ .other)
    (hnum : (jState jp.jStatus).isPending = true → jp.num < jp.numReq) :
    posted (resMovement jp.jStatus n jp.num jp.numReq) jp.numReq = 0 := by
  rw [posted, moved_res hs hn hk hst]
  cases hp : (jState jp.jStatus).isPending with
  | true =>
    obtain ⟨h1, h2⟩ := tdiv_of_lt jp.num_nonneg (hnum hp)
    rw [reservedSlots_numPEND, if_pos hp]
    cases r with
    | true => exact h2
    | false => exact h1
  | false =>
    rw [reservedSlots_numPEND, hp]
    exact Int.zero_tdiv _

/-! ## The count while one job is at hand -/

section Counts

variable [DecidableEq U] {g : Books U} {rest : U → Int}

/-- Every user's count is the rest plus, for the user `u` and the groups `u` is in, `n`. -/
def Counts (g : Books U) (rest : U → Int) (t : Totals Q U H) (u : U) (n : Int) : Prop :=
  ∀ u', t.user u' .numPENDJobs = rest u' + if u' ∈ u :: g.gPtr u then n else 0

/-- The count shows the job at hand, and its record is well formed. -/
structure Counted (g : Books U) (rest : U → Int) (c : Cur Q U H) : Prop where
  counts : Counts g rest c.totals c.jp.uPtr (jState c.jp.jStatus).count
  wf : c.jp.CountWf

/-- A record with the same state, user and count. The hosts and the bill may differ as long as
a reservation does not take all slots. -/
theorem Counted.congr {c c' : Cur Q U H} (h : Counted g rest c)
    (huser : c'.totals.user = c.totals.user) (hu : c'.jp.uPtr = c.jp.uPtr)
    (hj : jState c'.jp.jStatus = jState c.jp.jStatus)
    (hwf : (jState c'.jp.jStatus).isPending = true → has c'.jp.jStatus jobStatReserve = true →
      c'.jp.num < c'.jp.numReq) : Counted g rest c' := by
  refine ⟨fun u' => ?_, ?_, hwf⟩
  · rw [huser, hu, hj]; exact h.counts u'
  · rw [hj]; exact h.wf.state

variable {c : Cur Q U H} {n k : Int}

/-- The hosts of a job without a reservation do not matter. -/
theorem Counted.hosts (h : Counted g rest c) (hr : has c.jp.jStatus jobStatReserve = false)
    {t : Totals Q U H} (ht : t.user = c.totals.user) (hPtr : List H) :
    Counted g rest ⟨t, { c.jp with hPtr := hPtr }⟩ :=
  h.congr ht rfl rfl fun _ hr' => absurd (hr.symm.trans hr') Bool.false_ne_true

/-- A word with the same state and the same reservation. -/
theorem Counted.status (h : Counted g rest c) {s : Status}
    (hk : knownStatus s = knownStatus c.jp.jStatus)
    (hr : has s jobStatReserve = has c.jp.jStatus jobStatReserve) :
    Counted g rest (c.setStatus s) :=
  h.congr rfl rfl (jState_congr hk) fun hp hr' =>
    h.wf.reserved (jState_congr hk ▸ hp) (hr ▸ hr')

/-- Finished jobs are not counted, whatever happens to them. -/
theorem Counted.finished {c' : Cur Q U H} (h : Counted g rest c) (hf : isFinish c.jp.jStatus = true)
    (hf' : isFinish c'.jp.jStatus = true) (ht : c'.totals.user = c.totals.user)
    (hu : c'.jp.uPtr = c.jp.uPtr) : Counted g rest c' := by
  refine ⟨fun u' => ?_, ?_, fun hp => ?_⟩
  · rw [ht, hu, (count_of_isFinish hf').trans (count_of_isFinish hf).symm]
    exact h.counts u'
  · rcases jState_of_isFinish hf' with hj | hj <;> rw [hj] <;> decide
  · rw [not_isPending_of_isFinish hf'] at hp
    cases hp

variable [DecidableEq Q] [DecidableEq H] (hrest : Room rest k)
include hrest

/-- **Posting a movement** adds the quotient to the count, unless the count would get negative or
overflow. -/
theorem updAll_counts {n' : Int} (mv : Option Movement)
    (h : Counts g rest c.totals c.jp.uPtr n) (hn : n' = n + posted mv c.jp.numReq) (h0 : 0 ≤ n')
    (hk : n' ≤ k) : Counts g rest (updAll g c mv).totals c.jp.uPtr n' := by
  have key : ∀ d : Slots, n' = n + (d .numPEND).tdiv c.jp.numReq → ∀ u',
      Ledger.post g.arith.int c.totals.user (c.jp.uPtr :: g.gPtr c.jp.uPtr) (userMovement c.jp d) u'
        .numPENDJobs = rest u' + if u' ∈ c.jp.uPtr :: g.gPtr c.jp.uPtr then n' else 0 := by
    intro d hd u'
    rw [post_apply _ (g.nodup c.jp.uPtr), h u']
    split
    · have hsum : rest u' + n + userMovement c.jp d .numPENDJobs = rest u' + n' := by
        rw [hd, userMovement]; ring
      have hrange : 0 ≤ rest u' + n' ∧ rest u' + n' < 2 ^ 31 := by
        have := hrest.nonneg u'
        have := hrest.lt u'
        omega
      rw [satAdd_of_nonneg, hsum] <;> rw [hsum]
      · exact g.arith.int_of_nonneg hrange.1 hrange.2
      · exact hrange.1
    · rfl
  rcases mv with - | ⟨d, - | dh⟩
  · rw [posted_none, add_zero] at hn
    subst hn
    exact h
  · exact key d hn
  · exact key d hn

theorem reserve_counts (hn : 0 ≤ n) (hk : n ≤ k)
    (h : Counts g rest c.totals c.jp.uPtr n) (hst : jState c.jp.jStatus ≠ .other)
    (hr : has c.jp.jStatus jobStatReserve = false)
    (hnum : (jState c.jp.jStatus).isPending = true → c.jp.num < c.jp.numReq) :
    Counts g rest (reserve g c).totals c.jp.uPtr n := by
  rw [reserve_eq]
  refine updAll_counts hrest _ h ?_ hn hk
  rw [posted_res (r := true) hr (reserve_or _) (known_or_reserve _) hst hnum, add_zero]

theorem unreserve_counts (hn : 0 ≤ n) (hk : n ≤ k)
    (h : Counts g rest c.totals c.jp.uPtr n) (hst : jState c.jp.jStatus ≠ .other)
    (hnum : (jState c.jp.jStatus).isPending = true → has c.jp.jStatus jobStatReserve = true →
      c.jp.num < c.jp.numReq) :
    Counts g rest (unreserve g c).totals c.jp.uPtr n := by
  rw [unreserve_eq]
  refine updAll_counts hrest _ h ?_ hn hk
  by_cases hr : has c.jp.jStatus jobStatReserve = true
  · rw [posted_res (r := false) hr (reserve_and_not _) (known_and_not_reserve _) hst
      fun hp => hnum hp hr, add_zero]
  · rw [resMovement_none (by simpa using hr) (reserve_and_not _), posted_none, add_zero]

omit [DecidableEq U] [DecidableEq Q] [DecidableEq H] in
theorem count_le (st : JState) : st.count ≤ k := st.count_le_one.trans hrest.one_le

theorem reserve_counted (h : Counted g rest c)
    (hr : has c.jp.jStatus jobStatReserve = false)
    (hnum : (jState c.jp.jStatus).isPending = true → c.jp.num < c.jp.numReq) :
    Counted g rest (reserve g c) := by
  have hj : jState (c.jp.jStatus ||| jobStatReserve) = jState c.jp.jStatus :=
    jState_congr (known_or_reserve _)
  refine ⟨?_, ?_, ?_⟩ <;> rw [reserve_jp] <;> dsimp only <;> rw [hj]
  · exact reserve_counts hrest (JState.count_nonneg _) (count_le hrest _) h.counts h.wf.state hr
      hnum
  · exact h.wf.state
  · exact fun hp _ => hnum hp

theorem unreserve_counted (h : Counted g rest c) : Counted g rest (unreserve g c) := by
  have hj : jState (c.jp.jStatus &&& ~~~jobStatReserve) = jState c.jp.jStatus :=
    jState_congr (known_and_not_reserve _)
  refine ⟨?_, ?_, ?_⟩ <;> rw [unreserve_jp] <;> dsimp only <;> rw [hj]
  · exact unreserve_counts hrest (JState.count_nonneg _) (count_le hrest _) h.counts h.wf.state
      h.wf.reserved
  · exact h.wf.state
  · intro _ hr
    rw [reserve_and_not] at hr
    cases hr

theorem freeReserveSlots_counted (h : Counted g rest c) :
    Counted g rest (freeReserveSlots g c) := by
  refine doWhen_of h fun _ => Counted.hosts (t := (deallocHosts (unreserve g c)).totals)
    (unreserve_counted hrest h) ?_ rfl []
  rw [unreserve_jp]
  exact reserve_and_not _

/-! ### Status changes -/

/-- **A status change keeps the count right** when it is counted. -/
theorem jStatusChange_counted (h : Counted g rest c) {n : Status}
    (hok : knownStatus n = knownStatus c.jp.jStatus ∨
      pendCounted (jState c.jp.jStatus) (jState n)) : Counted g rest (jStatusChange g n c) := by
  rcases jStatusChange_cases (g := g) (c := c) n with ⟨-, heq⟩ |
    ⟨hne, c₁, s, b, hc₁, hj1, hr1, hs, hrs, hb, heq⟩
  · rw [heq]
    exact h
  have hcnt := hok.resolve_left hne
  have hjn : jState (maskStatus n) = jState n := jState_congr (known_maskStatus n)
  have h1 : Counted g rest c₁ := by
    rw [← hc₁]
    refine doWhen_of h fun _ => ?_
    have hfree := doWhen_of (b := (has (maskStatus n) jobStatPsusp || isFinish (maskStatus n)) &&
      has c.jp.jStatus jobStatPend) h fun _ => freeReserveSlots_counted hrest h
    exact doWhen_of hfree fun _ => unreserve_counted hrest hfree
  rw [heq]
  obtain ⟨ht, hu, hp2, hs2, hrs2, hbill⟩ := doWhen_changeJobParams_jp (c₁.setStatus s) b
  generalize doWhen b changeJobParams (c₁.setStatus s) = c₂ at ht hu hp2 hs2 hrs2 hbill ⊢
  replace hs : jState c₂.jp.jStatus = jState n := hs2.trans hs
  replace hrs : has c₂.jp.jStatus jobStatReserve = has c₁.jp.jStatus jobStatReserve :=
    hrs2.trans hrs
  have h2 : Counted g rest (updCounters g c.jp.jStatus c₂) := by
    refine ⟨?_, ?_, ?_⟩ <;> rw [updCounters, updAll_jp]
    · refine updAll_counts hrest _ (n := (jState c₁.jp.jStatus).count) ?_ ?_
        (JState.count_nonneg _) (count_le hrest _)
      · rw [ht, hu]
        exact h1.counts
      · rw [posted, movedPend_counter (by rw [hs]; exact hcnt), hj1,
          Int.mul_tdiv_cancel_left _ c₂.jp.numReq_pos.ne']
        ring
    · rw [hs]
      intro ho
      rw [ho] at hcnt
      generalize jState c.jp.jStatus = a at hcnt
      cases a <;> cases hcnt
    · -- a reservation that is left was the job's while it was pending before
      intro hp hr
      have hb' : b = false := by
        rw [← Bool.not_eq_true]
        intro hfin
        rw [hs, not_isPending_of_isFinish (hb hfin)] at hp
        cases hp
      rw [hrs] at hr
      rw [JData.num, JData.numReq, hp2, hbill hb']
      refine h1.wf.reserved ?_ hr
      rw [hr1, Bool.and_eq_true, Bool.not_eq_true'] at hr
      rw [hj1]
      rw [hs, ← hjn] at hp
      rw [← hjn] at hcnt
      exact pending_of_kept hcnt hp hr.2
  exact doWhen_of h2 fun _ => h2.congr rfl rfl rfl fun _ _ => JData.numReq_pos _

/-! ### Moving between queues and bills -/

/-- The count after the slots of a job with count `n` have moved: all slots are taken out under
the old bill and put in under the new one, both divided by the new bill. -/
def movedCount (jp : JData Q U H) (oldNumReq n : Int) : Int :=
  if (jState jp.jStatus).isPending && movable jp.jStatus then
    n - oldNumReq.tdiv jp.numReq + 1
  else n

theorem moveSlots_counts (qfp qtp : Q) (oldNumReq : Int)
    (hs : jState c.jp.jStatus ≠ .other) (h : Counts g rest c.totals c.jp.uPtr n) (hn : 0 ≤ n)
    (hk : n ≤ k) (hold : 0 ≤ oldNumReq)
    (h1 : 1 ≤ movedCount c.jp oldNumReq n ∨ (jState c.jp.jStatus).isPending = false)
    (hle : movedCount c.jp oldNumReq n ≤ k) :
    Counts g rest (moveSlots g qfp qtp oldNumReq c).totals c.jp.uPtr
      (movedCount c.jp oldNumReq n) := by
  by_cases hfin : isFinish c.jp.jStatus = true
  · rw [moveSlots_self (switchMovement_none hfin ..), movedCount, not_isPending_of_isFinish hfin]
    exact h
  have hfin : isFinish c.jp.jStatus = false := by simpa using hfin
  have hout := switchMovement_cases hs hfin (-1) (-c.jp.num) (-oldNumReq)
  have hin := switchMovement_cases hs hfin 1 c.jp.num c.jp.numReq
  by_cases hm : movable c.jp.jStatus = true
  · rw [if_pos hm] at hout hin
    obtain ⟨mvOut, hout, haOut⟩ := hout
    obtain ⟨mvIn, hin, haIn⟩ := hin
    have heq : moveSlots g qfp qtp oldNumReq c =
        updAll g ((updAll g (c.setQueue qfp) (some mvOut)).setQueue qtp) (some mvIn) := by
      rw [moveSlots, hout, hin]
    rw [heq]
    have hpOut : posted (some mvOut) c.jp.numReq =
        if (jState c.jp.jStatus).isPending then -oldNumReq.tdiv c.jp.numReq else 0 := by
      rw [posted, moved, haOut]
      split <;> simp
    have hpIn : posted (some mvIn) c.jp.numReq =
        if (jState c.jp.jStatus).isPending then 1 else 0 := by
      rw [posted, moved, haIn]
      split
      · exact Int.tdiv_self c.jp.numReq_pos.ne'
      · exact Int.zero_tdiv _
    have hcount : movedCount c.jp oldNumReq n =
        n + posted (some mvOut) c.jp.numReq + posted (some mvIn) c.jp.numReq := by
      rw [movedCount, hpOut, hpIn, hm, Bool.and_true]
      split <;> ring
    have hdiv : 0 ≤ oldNumReq.tdiv c.jp.numReq := Int.tdiv_nonneg hold c.jp.numReq_pos.le
    have h0 : 0 ≤ n + posted (some mvOut) c.jp.numReq ∧
        n + posted (some mvOut) c.jp.numReq ≤ n := by
      cases hp : (jState c.jp.jStatus).isPending with
      | true =>
        have h1 := h1.resolve_right (by simp [hp])
        rw [hcount, hpIn, if_pos hp] at h1
        rw [hpOut, if_pos hp] at h1 ⊢
        omega
      | false => rw [hpOut, hp]; simpa using hn
    have hIn0 : 0 ≤ posted (some mvIn) c.jp.numReq := by rw [hpIn]; split <;> decide
    have hout' := updAll_counts (c := c.setQueue qfp) hrest (some mvOut) h rfl h0.1 (h0.2.trans hk)
    have hjp : ((updAll g (c.setQueue qfp) (some mvOut)).setQueue qtp).jp =
        { c.jp with qPtr := qtp } := by simp [Cur.setQueue]
    have h2 := updAll_counts (g := g) (c := (updAll g (c.setQueue qfp) (some mvOut)).setQueue qtp)
      hrest (some mvIn) (by rw [hjp]; exact hout') (by rw [hjp]; exact hcount)
      (hcount ▸ add_nonneg h0.1 hIn0) hle
    rw [hjp] at h2
    exact h2
  · rw [if_neg hm] at hin
    have hm' : movable c.jp.jStatus = false := by simpa using hm
    rw [moveSlots_self hin, movedCount, hm', Bool.and_false]
    exact h

/-- **Moving a job between queues and bills keeps the count right** when the quotients of the
old and the new bill agree. -/
theorem updSwitchJob_counted (qfp qtp : Q) {oldNumReq : Int} (hold : 0 ≤ oldNumReq)
    (hwf : c.jp.CountWf) (h : Counts g rest c.totals c.jp.uPtr n) (hn : 0 ≤ n) (hk : n ≤ k)
    (hc : movedCount c.jp oldNumReq n = (jState c.jp.jStatus).count) :
    Counted g rest (updSwitchJob g qfp qtp oldNumReq c) := by
  have h1 : 1 ≤ movedCount c.jp oldNumReq n ∨ (jState c.jp.jStatus).isPending = false := by
    rw [hc, JState.count]
    cases (jState c.jp.jStatus).isPending <;> simp
  have hle : movedCount c.jp oldNumReq n ≤ k := hc ▸ count_le hrest _
  obtain ⟨q, hq⟩ := updSwitchJob_jp (g := g) (c := c) qfp qtp oldNumReq
  refine ⟨?_, ?_⟩ <;> rw [hq]
  · show Counts g rest _ c.jp.uPtr (jState c.jp.jStatus).count
    rw [← hc]
    unfold updSwitchJob
    split
    · next hr =>
        -- giving the reservation up and taking it again moves less than a job
        have hj : jState (c.jp.jStatus &&& ~~~jobStatReserve) = jState c.jp.jStatus :=
          jState_congr (known_and_not_reserve _)
        have h2 := unreserve_counts (c := c.setQueue qfp) hrest hn hk h hwf.state hwf.reserved
        have hjp : ((unreserve g (c.setQueue qfp)).setQueue qtp).jp =
            { c.jp with jStatus := c.jp.jStatus &&& ~~~jobStatReserve, qPtr := qtp } := by
          simp [Cur.setQueue]
        have hcnt : movedCount ((unreserve g (c.setQueue qfp)).setQueue qtp).jp oldNumReq n =
            movedCount c.jp oldNumReq n := by
          rw [hjp, movedCount, movedCount, hj, movable_unreserve]
          rfl
        have h3 := moveSlots_counts (c := (unreserve g (c.setQueue qfp)).setQueue qtp) hrest qfp
          qtp oldNumReq (by rw [hjp]; simp only [hj]; exact hwf.state)
          (by rw [hjp]; exact h2) hn hk hold (by rw [hcnt, hjp]; simp only [hj]; exact h1)
          (by rw [hcnt]; exact hle)
        obtain ⟨q', hq'⟩ := moveSlots_jp (g := g)
          (c := (unreserve g (c.setQueue qfp)).setQueue qtp) qfp qtp oldNumReq
        rw [hcnt] at h3
        rw [hjp] at h3 hq'
        have hu : (moveSlots g qfp qtp oldNumReq
            ((unreserve g (c.setQueue qfp)).setQueue qtp)).jp.uPtr = c.jp.uPtr := by rw [hq']
        rw [← hu]
        refine reserve_counts hrest (hc ▸ JState.count_nonneg _) hle (hu ▸ h3) ?_ ?_ ?_ <;>
          rw [hq'] <;> simp only [hj]
        · exact hwf.state
        · exact reserve_and_not _
        · exact fun hp => hwf.reserved hp hr
    · exact moveSlots_counts hrest _ _ _ hwf.state h hn hk hold h1 hle
  · exact ⟨hwf.state, hwf.reserved⟩

omit hrest [DecidableEq Q] [DecidableEq U] [DecidableEq H] in
/-- A job whose bill is the one it was counted with moves as one job. -/
theorem movedCount_self (jp : JData Q U H) :
    movedCount jp jp.numReq (jState jp.jStatus).count = (jState jp.jStatus).count := by
  rw [movedCount, Int.tdiv_self jp.numReq_pos.ne']
  split <;> ring

omit hrest [DecidableEq Q] [DecidableEq H] in
/-- Another queue, in the job and in its bill. -/
theorem Counted.jobInQueueEnd (h : Counted g rest c) (q : Q) :
    Counted g rest (Cur.jobInQueueEnd q c) :=
  doWhen_of h fun _ => h.congr rfl rfl rfl h.wf.reserved

theorem switchAJob_counted (h : Counted g rest c) (q : Q) :
    Counted g rest (switchAJob g q c) := by
  have h0 : Counted g rest (localizeJobElement c) := h.congr rfl rfl rfl h.wf.reserved
  unfold switchAJob
  dsimp only
  split
  · exact h0
  · have h1 := (doWhen_of (b := isPend (localizeJobElement c).jp.jStatus) h0
      fun _ => freeReserveSlots_counted hrest h0).jobInQueueEnd q
    generalize doWhen (isPend (localizeJobElement c).jp.jStatus) (freeReserveSlots g)
      (localizeJobElement c) = c₁ at h1 ⊢
    have hreq : c₁.jp.numReq = (Cur.jobInQueueEnd q c₁).jp.numReq := by
      obtain ⟨-, q', bill, hjp, hmax⟩ := jobInQueueEnd_jp c₁ q
      rw [JData.numReq, JData.numReq, hjp, hmax]
    rw [hreq]
    have h2 := updSwitchJob_counted hrest c₁.jp.qPtr q (JData.numReq_pos _).le h1.wf h1.counts
      (JState.count_nonneg _) (count_le hrest _) (movedCount_self (Cur.jobInQueueEnd q c₁).jp)
    exact h2.congr rfl rfl rfl h2.wf.reserved

/-- The jobs a reservation is worth when it is given up under a new bill. -/
def JData.releasedJobs (jp : JData Q U H) (bill : JobBill Q) : Nat :=
  if has jp.jStatus jobStatReserve then jp.hPtr.length / bill.maxNumProcessors else 0

/-- The count after the reservation of a pending job is given up, under any bill. -/
theorem freeReserveSlots_counts (hn : 0 ≤ n)
    (h : Counts g rest c.totals c.jp.uPtr n) (hp : (jState c.jp.jStatus).isPending = true)
    (hk : n + c.jp.releasedJobs c.jp.jobBill ≤ k) :
    Counts g rest (freeReserveSlots g c).totals c.jp.uPtr
      (n + c.jp.releasedJobs c.jp.jobBill) := by
  by_cases hr : has c.jp.jStatus jobStatReserve = true
  · have heq : freeReserveSlots g c = deallocHosts (unreserve g c) := if_pos hr
    rw [heq]
    show Counts g rest (unreserve g c).totals _ _
    rw [unreserve_eq]
    refine updAll_counts hrest _ h ?_ (by omega) hk
    have hst : jState c.jp.jStatus ≠ .other := by intro ho; rw [ho] at hp; cases hp
    have hdiv : ((c.jp.releasedJobs c.jp.jobBill : Nat) : Int) = c.jp.num.tdiv c.jp.numReq := by
      rw [JData.releasedJobs, if_pos hr]
      exact Int.ofNat_tdiv _ _
    rw [posted, moved_res (r := false) hr (reserve_and_not _) (known_and_not_reserve _) hst,
      hdiv, reservedSlots_numPEND, if_pos hp]
    rfl
  · have heq : freeReserveSlots g c = c := if_neg hr
    rw [heq, JData.releasedJobs, if_neg hr]
    simpa using h

/-- The bills a pending job can get: the slots moved under the old bill, together with a
reservation given up, are worth one job under the new bill. A job that is not moved must have
no reservation worth a job. -/
def JData.BillOk (jp : JData Q U H) (bill : JobBill Q) : Prop :=
  if movable jp.jStatus then
    jp.releasedJobs bill + 1 = jp.jobBill.maxNumProcessors / bill.maxNumProcessors
  else jp.releasedJobs bill = 0

instance (jp : JData Q U H) (bill : JobBill Q) : Decidable (jp.BillOk bill) := by
  unfold JData.BillOk; infer_instance

/-! ### Modifications -/

variable {bill : JobBill Q}

/-- A pending job that has got a bill `BillOk` allows in place of its old one, and is moved. -/
theorem modified_counted (old : JobBill Q)
    (hp : (jState c.jp.jStatus).isPending = true) (h : Counts g rest c.totals c.jp.uPtr 1)
    (hok : JData.BillOk { c.jp with jobBill := old } c.jp.jobBill)
    (hk : 1 + (c.jp.releasedJobs c.jp.jobBill : Int) ≤ k) (b : Bool) (qfp q : Q) :
    Counted g rest (updSwitchJob g qfp q old.maxNumProcessors
      (doWhen b (Cur.jobInQueueEnd q) (freeReserveSlots g c))) := by
  have h1 := freeReserveSlots_counts hrest (by decide) h hp hk
  obtain ⟨s, hPtr, hjp, hs, hr, hm⟩ := freeReserveSlots_jp (g := g) c
  have hj : jState s = jState c.jp.jStatus := jState_congr hs
  -- the job at the end of its queue
  have h₁ := doWhen_of (P := fun d : Cur Q U H => d.totals = (freeReserveSlots g c).totals ∧
      d.jp.uPtr = c.jp.uPtr ∧ d.jp.jStatus = s ∧ d.jp.numReq = c.jp.numReq) (b := b)
    (f := Cur.jobInQueueEnd q) (c := freeReserveSlots g c) (by simp [hjp, JData.numReq]) fun _ => by
      obtain ⟨ht, q', bill, hjp', hmax⟩ := jobInQueueEnd_jp (freeReserveSlots g c) q
      rw [hjp', hjp, JData.numReq]
      exact ⟨ht, rfl, rfl, by rw [hmax, hjp]; rfl⟩
  generalize doWhen b (Cur.jobInQueueEnd q) (freeReserveSlots g c) = c₁ at h₁
  obtain ⟨ht, hu, hst, hreq⟩ := h₁
  rw [← ht, ← hu] at h1
  refine updSwitchJob_counted hrest qfp q (Int.natCast_nonneg _) ⟨?_, ?_⟩ h1 (by omega) hk ?_
  · rw [hst, hj]
    intro ho
    rw [ho] at hp
    cases hp
  · rw [hst, hr]
    exact fun _ hr' => absurd hr' Bool.false_ne_true
  · -- what is put in and taken out adds up to one job
    rw [movedCount, hst, hj, hm, hreq, count_of_isPending hp, hp, Bool.true_and]
    have hrel : JData.releasedJobs { c.jp with jobBill := old } c.jp.jobBill =
      c.jp.releasedJobs c.jp.jobBill := rfl
    unfold JData.BillOk at hok
    rw [hrel] at hok
    split at hok
    · next hmv =>
        rw [if_pos hmv]
        have hdiv : ((old.maxNumProcessors / c.jp.jobBill.maxNumProcessors : Nat) : Int) =
          (old.maxNumProcessors : Int).tdiv c.jp.numReq := Int.ofNat_tdiv _ _
        rw [← hdiv, ← hok]
        push_cast
        ring
    · next hmv =>
        rw [if_neg hmv, hok]
        rfl

/-- A job that is not pending may be moved in any way, from the end of a queue too. -/
theorem moved_of_not_pending (h : Counted g rest c) (hp : (jState c.jp.jStatus).isPending = false)
    (b b' : Bool) (qfp q : Q) {oldNumReq : Int} (hold : 0 ≤ oldNumReq) :
    Counted g rest (updSwitchJob g qfp q oldNumReq
      (doWhen b (Cur.jobInQueueEnd q) (doWhen b' (freeReserveSlots g) c))) := by
  have h1 := doWhen_of (P := fun d => Counted g rest d ∧ jState d.jp.jStatus = jState c.jp.jStatus)
    (b := b') (f := freeReserveSlots g) ⟨h, rfl⟩ fun _ => ⟨freeReserveSlots_counted hrest h, by
      obtain ⟨s, hPtr, hjp, hs, -⟩ := freeReserveSlots_jp (g := g) c
      rw [hjp]
      exact jState_congr hs⟩
  generalize doWhen b' (freeReserveSlots g) c = c₁ at h1
  have h2 := doWhen_of (P := fun d => Counted g rest d ∧ jState d.jp.jStatus = jState c.jp.jStatus)
    (b := b) (f := Cur.jobInQueueEnd q) h1 fun _ => ⟨h1.1.jobInQueueEnd q, by
      obtain ⟨-, q', bill, hjp, -⟩ := jobInQueueEnd_jp c₁ q
      rw [hjp]
      exact h1.2⟩
  refine updSwitchJob_counted hrest qfp q hold h2.1.wf h2.1.counts (JState.count_nonneg _)
    (count_le hrest _) ?_
  rw [movedCount, h2.2, hp]
  rfl

/-- **A modification keeps the count right** when the new bill is one `BillOk` allows. -/
theorem handleJParameters_counted (h : Counted g rest c) {once : Bool} {run : RunMod}
    (hok : (jState c.jp.jStatus).isPending = true → c.jp.BillOk bill ∨
      (bill.queue = c.jp.qPtr ∧ bill.maxNumProcessors = c.jp.jobBill.maxNumProcessors))
    (hk : 1 + (c.jp.releasedJobs bill : Int) ≤ k) :
    Counted g rest (handleJParameters g bill once run c) := by
  unfold handleJParameters
  dsimp only
  split
  · next hpf =>
      obtain ⟨ht, s, sub, bill', hjp, hs, hr, hm, hb, -⟩ := takeBill_jp c bill once
      generalize takeBill bill once c = c₁ at ht hjp
      have hj : jState c₁.jp.jStatus = jState c.jp.jStatus := by rw [hjp]; exact jState_congr hs
      have hu : c₁.jp.uPtr = c.jp.uPtr := by rw [hjp]
      have hcnt : Counts g rest c₁.totals c₁.jp.uPtr (jState c₁.jp.jStatus).count := by
        rw [ht, hu, hj]; exact h.counts
      cases hf : isFinish c.jp.jStatus with
      | true =>
        have hnp : (jState c₁.jp.jStatus).isPending = false := by
          rw [hj]; exact not_isPending_of_isFinish hf
        have h1 : Counted g rest c₁ :=
          ⟨hcnt, hj ▸ h.wf.state, fun hp => absurd (hnp.symm.trans hp) Bool.false_ne_true⟩
        split_ifs
        · exact moved_of_not_pending hrest h1 hnp _ _ _ _ c.jp.numReq_pos.le
        · exact h1
      | false =>
        have hp : (jState c.jp.jStatus).isPending = true :=
          isPending_of_isPend h.wf.state (by simpa [hf] using hpf) hf
        obtain rfl := hb (.inl hf)
        split_ifs with hch
        · have hpend : isPend c₁.jp.jStatus = true := isPend_of_isPending (hj ▸ hp)
          have hok' : c.jp.BillOk bill' := (hok hp).resolve_right fun ⟨hq, hn⟩ => by
            rw [hjp] at hch
            exact hch.elim (fun hne => hne hq.symm) fun hne => hne (by simp [JData.numReq, hn])
          have hrel : c₁.jp.releasedJobs c₁.jp.jobBill = c.jp.releasedJobs bill' := by
            rw [hjp, JData.releasedJobs, JData.releasedJobs, hr]
          rw [hpend]
          refine modified_counted hrest c.jp.jobBill (hj ▸ hp) ?_ ?_ ?_ _ _ _
          · rw [hj, count_of_isPending hp] at hcnt
            exact hcnt
          · unfold JData.BillOk JData.releasedJobs at hok' ⊢
            rw [hjp]
            dsimp only
            rw [hm, hr]
            exact hok'
          · rw [hrel]
            exact hk
        · push Not at hch
          refine ⟨hcnt, hj ▸ h.wf.state, fun hp' hr' => ?_⟩
          rw [hch.2]
          rw [hjp] at hr' ⊢
          exact h.wf.reserved hp (hr ▸ hr')
  · next hpf =>
      have hnp : (jState c.jp.jStatus).isPending = true → False := by
        intro hp
        rw [isPend_of_isPending hp] at hpf
        simp at hpf
      cases run with
      | resReq => exact h
      | atOnce =>
        have h1 := doWhen_of (P := fun d : Cur Q U H => d.totals = c.totals ∧
            d.jp.uPtr = c.jp.uPtr ∧ jState d.jp.jStatus = jState c.jp.jStatus) (b := once)
          (f := saveOldParameters) ⟨rfl, rfl, rfl⟩ fun _ => by
            obtain ⟨s, sub, hjp, hs, -⟩ := saveOldParameters_jp c
            rw [hjp]
            exact ⟨rfl, rfl, jState_congr hs⟩
        refine h.congr (congrArg Totals.user h1.1) h1.2.1 h1.2.2 fun hp => ?_
        exact (hnp (h1.2.2 ▸ hp)).elim
      | next => exact h.congr rfl rfl rfl h.wf.reserved

theorem modifyJob_counted (h : Counted g rest c) (once : Bool) (run : RunMod)
    (hok : (jState c.jp.jStatus).isPending = true → c.jp.BillOk bill ∨
      (bill.queue = c.jp.qPtr ∧ bill.maxNumProcessors = c.jp.jobBill.maxNumProcessors))
    (hk : 1 + (c.jp.releasedJobs bill : Int) ≤ k) :
    Counted g rest (modifyJob g bill once run c) := by
  unfold modifyJob doWhen
  split
  · have h0 : Counted g rest (localizeJobElement c) := h.congr rfl rfl rfl h.wf.reserved
    exact handleJParameters_counted hrest h0 hok hk
  · exact handleJParameters_counted hrest h hok hk

/-! ### Jobs that enter -/

/-- Jobs that enter are counted, as long as their slots do not overflow. -/
theorem enterSlots_counts (h : Counts g rest c.totals c.jp.uPtr 0) {numJobs : Nat}
    (hk : numJobs ≤ k) (hlt : c.jp.jobBill.maxNumProcessors * numJobs < 2 ^ 31) :
    Counts g rest (enterSlots g numJobs c).totals c.jp.uPtr numJobs := by
  refine updAll_counts hrest _ h ?_ (Int.natCast_nonneg _) hk
  have hint : g.arith.int (c.jp.numReq * numJobs) = c.jp.numReq * numJobs := by
    refine g.arith.int_of_nonneg (mul_nonneg c.jp.numReq_pos.le (Int.natCast_nonneg _)) ?_
    rw [JData.numReq]
    exact_mod_cast hlt
  rw [hint, posted, zero_add]
  exact (Int.mul_tdiv_cancel_left _ c.jp.numReq_pos.ne').symm

theorem enterSlots_counted (h : Counts g rest c.totals c.jp.uPtr 0)
    (hst : c.jp.jStatus = jobStatPsusp ∨ c.jp.jStatus = jobStatPend) :
    Counted g rest (enterSlots g 1 c) := by
  obtain ⟨hwf, hp⟩ := fresh_counted c.jp hst
  refine ⟨?_, ?_⟩ <;> rw [enterSlots, updAll_jp]
  · rw [count_of_isPending hp]
    refine enterSlots_counts hrest h (by exact_mod_cast hrest.one_le) ?_
    rw [mul_one]
    exact c.jp.jobBill.lt
  · exact hwf

theorem handleRequeueJob_counted (h : Counted g rest c) (psusp : Bool) :
    Counted g rest (handleRequeueJob g psusp c) := by
  by_cases hf : isFinish c.jp.jStatus = true
  · obtain ⟨jp, heq, hu, hst⟩ := handleRequeueJob_of_isFinish (g := g) hf psusp
    have hcnt := h.counts
    rw [count_of_isFinish hf, ← hu] at hcnt
    rw [heq]
    exact enterSlots_counted hrest hcnt hst
  · rw [handleRequeueJob, if_neg hf]
    exact h

/-! ### One operation -/

/-- The operations on a job that keep the count right. -/
def JobOp.CountOk (jp : JData Q U H) : JobOp Q H → Prop
  | .statusChange newStatus =>
    knownStatus newStatus = knownStatus jp.jStatus ∨
      pendCounted (jState jp.jStatus) (jState newStatus) = true
  | .assumeHost _ => jp.hPtr = [] → has jp.jStatus jobStatReserve = false
  | .reserve => (jState jp.jStatus).isPending = true → jp.num < jp.numReq
  | _ => True

instance (jp : JData Q U H) (op : JobOp Q H) : Decidable (op.CountOk jp) := by
  cases op <;> unfold JobOp.CountOk <;> infer_instance

/-- **One operation keeps the count right.** -/
theorem jobStep_counted (h : Counted g rest c) {op : JobOp Q H}
    (hok : op.CountOk c.jp) : Counted g rest (jobStep g c op) := by
  cases op with
  | alloc hPtr =>
    refine doWhen_of h fun hb => ?_
    simp only [Bool.and_eq_true, Bool.not_eq_true'] at hb
    exact Counted.hosts (t := (allocHosts hPtr c).totals) h hb.1.2 rfl hPtr
  | dealloc =>
    refine doWhen_of h fun hb => ?_
    simp only [Bool.and_eq_true, Bool.not_eq_true'] at hb
    exact Counted.hosts (t := (deallocHosts c).totals) h hb.2 rfl []
  | assumeHost host =>
    rw [jobStep]
    refine doWhen_of h fun hb => ?_
    simp only [Bool.and_eq_true, List.isEmpty_iff] at hb
    exact h.hosts (hok hb.2) rfl [host]
  | reserve =>
    refine doWhen_of h fun hb => reserve_counted hrest h ?_ hok
    simp only [Bool.and_eq_true, Bool.not_eq_true'] at hb
    exact hb.2
  | unreserve =>
    rw [jobStep]
    split
    · exact freeReserveSlots_counted hrest h
    · exact doWhen_of h fun _ => unreserve_counted hrest h
  | statusChange newStatus => exact jStatusChange_counted hrest h hok
  | requeue psusp => exact handleRequeueJob_counted hrest h psusp
  | switch q => exact switchAJob_counted hrest h q
  | localize => exact h.congr rfl rfl rfl h.wf.reserved
  | flags on off => exact h.status (known_flags ..) (reserve_flags ..)
  | unkwn on =>
    rw [jobStep]
    refine doWhen_of h fun _ => ?_
    cases on with
    | true => exact h.status (known_or_flag _ rfl) (has_or_other _ rfl)
    | false => exact h.status (known_and_not_flag _ rfl) (has_and_not_other _ rfl)
  | postDone newStatus =>
    rw [jobStep]
    refine doWhen_of h fun hd => h.finished ?_ ?_ rfl rfl
    · simp [isFinish, hd]
    · simp [isFinish, Cur.setStatus, has_or hd]

end Counts

/-! ## Whole runs -/

section Machine

variable [DecidableEq U]

/-- What a job adds to the count of a user or group. -/
def JData.userCount (g : Books U) (jp : JData Q U H) (u : U) : Int :=
  if u ∈ jp.uPtr :: g.gPtr jp.uPtr then (jState jp.jStatus).count else 0

/-- The counts are in balance with the job table, and the jobs are well formed. -/
structure CountInv (g : Books U) (m : Mbd Q U H) : Prop where
  balanced : Balanced (fun u => m.totals.user u .numPENDJobs) (JData.userCount g) m.jobs
  wf : ∀ jp ∈ m.jobs, jp.CountWf

theorem userCount_nonneg (g : Books U) (jp : JData Q U H) (u : U) :
    0 ≤ jp.userCount g u := by
  unfold JData.userCount
  split
  · exact JState.count_nonneg _
  · exact le_rfl

variable {g : Books U} {m : Mbd Q U H}

theorem CountInv.nonneg (h : CountInv g m) (u : U) : 0 ≤ m.totals.user u .numPENDJobs := by
  have hb := h.balanced u
  dsimp only at hb
  rw [hb]
  exact sum_nonneg (forall_mem_map.2 fun jp _ => userCount_nonneg g jp u)

theorem countInv_init (g : Books U) : CountInv g (Mbd.init : Mbd Q U H) := by
  refine ⟨Balanced.nil _, ?_⟩
  simp [Mbd.init]

/-- Before a job enters, it adds nothing. -/
theorem counts_zero (g : Books U) (m : Mbd Q U H) (u : U) :
    Counts g (fun u => m.totals.user u .numPENDJobs) m.totals u 0 := by
  intro u'
  simp

/-- Jobs that enter together. -/
theorem countInv_enter (h : CountInv g m) {jp : JData Q U H} {t : Totals Q U H} (numJobs : Nat)
    (hwf : jp.CountWf) (hcounts : Counts g (fun u => m.totals.user u .numPENDJobs) t jp.uPtr
      (numJobs * (jState jp.jStatus).count)) :
    CountInv g ⟨m.jobs ++ List.replicate numJobs jp, t⟩ := by
  refine ⟨h.balanced.append _ fun u => ?_, forall_mem_append.2 ⟨h.wf,
    fun _ hjp => eq_of_mem_replicate hjp ▸ hwf⟩⟩
  show t.user u .numPENDJobs = _
  rw [hcounts u, map_replicate, sum_replicate]
  unfold JData.userCount
  split <;> simp

/-- A job at hand, taken out of the table: the rest of the counts, and what makes the table with
the changed job right again. -/
theorem CountInv.focus (h : CountInv g m) {i : Nat} {jp : JData Q U H}
    (hi : m.jobs[i]? = some jp) {k : Int} (hk1 : 1 ≤ k)
    (hk : ∀ u, m.totals.user u .numPENDJobs + k < 2 ^ 31) :
    ∃ rest, Room rest k ∧ Counted g rest ⟨m.totals, jp⟩ ∧ ∀ c' : Cur Q U H, Counted g rest c' →
      CountInv g ⟨m.jobs.set i c'.jp, c'.totals⟩ := by
  obtain ⟨hlt, rfl⟩ := List.getElem?_eq_some_iff.1 hi
  obtain ⟨rest, hrest, hfocus, hset⟩ := h.balanced.focus
    (fun jp _ u => userCount_nonneg g jp u) hlt
  refine ⟨rest, ⟨hrest, hk1, fun u => ?_⟩, ⟨hfocus, h.wf _ (getElem_mem hlt)⟩, fun c' hc' => ?_⟩
  · have hu := hfocus u
    have hw := userCount_nonneg g m.jobs[i] u
    have hlt' := hk u
    omega
  · exact ⟨hset _ _ fun u => hc'.counts u, forall_mem_set h.wf hc'.wf⟩

/-- The table after a modification: what the other jobs add to the counts is not changed by the
bill they share with the modified one. -/
theorem CountInv.follow {i : Nat} {jp : JData Q U H} {t : Totals Q U H}
    (h : CountInv g ⟨m.jobs.set i jp, t⟩) (hjp : jp.CountWf) (hwf : ∀ jp' ∈ m.jobs, jp'.CountWf)
    (hlt : ∀ jp' ∈ m.jobs, jp.shares jp' = true → has jp'.jStatus jobStatReserve = true →
      jp'.hPtr.length < jp.jobBill.maxNumProcessors) :
    CountInv g ⟨(m.jobs.map jp.follow).set i jp, t⟩ := by
  refine ⟨fun u => ?_, forall_mem_set (forall_mem_map.2 fun jp' hjp' => ?_) hjp⟩
  · have hsame : (JData.userCount g · u) ∘ jp.follow = (JData.userCount g · u) := by
      funext jp'
      show (jp.follow jp').userCount g u = _
      unfold JData.follow
      split <;> rfl
    refine (h.balanced u).trans ?_
    rw [map_set, map_set, map_map, hsame]
  · unfold JData.follow
    split
    · next hs => exact ⟨(hwf jp' hjp').state, fun _ hr => Int.ofNat_lt.2 (hlt jp' hjp' hs hr)⟩
    · exact hwf jp' hjp'

variable [DecidableEq Q] [DecidableEq H]

/-- The operations that keep the counts right: no count overflows with the jobs that may be added to
it, and a bill that is shared covers the hosts reserved under it. -/
def Op.CountOk (m : Mbd Q U H) : Op Q U H → Prop
  | .newJob _ _ _ => ∀ u, m.totals.user u .numPENDJobs + 1 < 2 ^ 31
  | .newJobArray _ bill numJobs _ => bill.maxNumProcessors * numJobs < 2 ^ 31 ∧
    ∀ u, m.totals.user u .numPENDJobs + max 1 numJobs < 2 ^ 31
  | .job h op =>
    match m.jobs[h]? with
    | none => True
    | some jp => op.CountOk jp ∧ ∀ u, m.totals.user u .numPENDJobs + 1 < 2 ^ 31
  | .modify h bill _ _ =>
    match m.jobs[h]? with
    | none => True
    | some jp =>
      ((jState jp.jStatus).isPending = true → jp.BillOk bill ∨
        (bill.queue = jp.qPtr ∧ bill.maxNumProcessors = jp.jobBill.maxNumProcessors)) ∧
      (∀ u, m.totals.user u .numPENDJobs + (1 + jp.releasedJobs bill) < 2 ^ 31) ∧
      ∀ jp' ∈ m.jobs, jp.shares jp' = true → has jp'.jStatus jobStatReserve = true →
        jp'.hPtr.length < bill.maxNumProcessors

instance [Fintype U] (m : Mbd Q U H) (op : Op Q U H) : Decidable (op.CountOk m) := by
  cases op with
  | job h op =>
    cases hj : m.jobs[h]? <;> simp only [Op.CountOk, hj] <;> infer_instance
  | modify h bill once run =>
    cases hj : m.jobs[h]? <;> simp only [Op.CountOk, hj] <;> infer_instance
  | _ => unfold Op.CountOk; infer_instance

theorem countInv_newJob (h : CountInv g m) {u : U} {bill : JobBill Q} {hold : Bool}
    (hok : (Op.newJob u bill hold : Op Q U H).CountOk m) :
    CountInv g (step g m (.newJob u bill hold)) := by
  have hroom : Room (fun u => m.totals.user u .numPENDJobs) 1 := ⟨h.nonneg, le_rfl, hok⟩
  have h1 : Counted g (fun u => m.totals.user u .numPENDJobs)
      (enterSlots g 1 ⟨m.totals, newJData u bill (.own none)⟩) :=
    enterSlots_counted hroom (counts_zero g m u) (.inr rfl)
  have h2 : Counted g (fun u => m.totals.user u .numPENDJobs)
      (handleNewJob g u bill hold m.totals) := by
    refine doWhen_of h1 fun _ => jStatusChange_counted hroom h1 (.inr ?_)
    rw [enterSlots, updAll_jp]
    show pendCounted (jState jobStatPend) _ = true
    decide
  refine countInv_enter h 1 h2.wf ?_
  rw [Nat.cast_one, one_mul]
  exact h2.counts

theorem countInv_newJobArray (h : CountInv g m) {u : U} {bill : JobBill Q} {numJobs : Nat}
    {hold : Bool} (hok : (Op.newJobArray u bill numJobs hold : Op Q U H).CountOk m) :
    CountInv g (step g m (.newJobArray u bill numJobs hold)) := by
  obtain ⟨hlt, hmax⟩ := hok
  have hroom : Room (fun u => m.totals.user u .numPENDJobs) (max 1 numJobs) :=
    ⟨h.nonneg, le_max_left _ _, by exact_mod_cast hmax⟩
  obtain ⟨htotals, hjp⟩ := handleNewJobArray_eq (g := g) u bill m.jobs.length numJobs hold
    m.totals
  obtain ⟨hwf, hp⟩ := fresh_counted
    (handleNewJobArray g u bill m.jobs.length numJobs hold m.totals).jp
    (by rw [hjp]; cases hold <;> simp)
  refine countInv_enter h numJobs hwf ?_
  rw [count_of_isPending hp, mul_one, htotals, hjp]
  exact enterSlots_counts hroom (counts_zero g m u) (le_max_right _ _) hlt

theorem countInv_job (h : CountInv g m) {i : Nat} {op : JobOp Q H}
    (hok : (Op.job i op : Op Q U H).CountOk m) : CountInv g (step g m (.job i op)) := by
  simp only [Op.CountOk] at hok
  rw [step]
  split
  · exact h
  · next jp hj =>
      rw [hj] at hok
      obtain ⟨rest, hroom, hc, hset⟩ := h.focus hj le_rfl hok.2
      exact hset _ (jobStep_counted hroom hc hok.1)

theorem countInv_modify (h : CountInv g m) {i : Nat} {bill : JobBill Q} {once : Bool} {run : RunMod}
    (hok : (Op.modify i bill once run : Op Q U H).CountOk m) :
    CountInv g (step g m (.modify i bill once run)) := by
  simp only [Op.CountOk] at hok
  rw [step]
  split
  · exact h
  · next jp hj =>
      rw [hj] at hok
      obtain ⟨hbill, hmax, hshare⟩ := hok
      obtain ⟨rest, hroom, hc, hset⟩ := h.focus hj (by omega) hmax
      have hc' := modifyJob_counted hroom hc once run hbill le_rfl
      refine (hset _ hc').follow hc'.wf h.wf fun jp' hjp' hs => ?_
      rcases modifyJob_shared (g := g) (c := ⟨m.totals, jp⟩) bill once run with
        ⟨n, hown⟩ | ⟨hsame, hmax'⟩
      · rw [JData.shares, hown] at hs
        cases hs
      · rw [hmax']
        refine hshare jp' hjp' ?_
        rw [JData.shares, hsame] at hs
        exact hs

/-- **Every operation that meets `CountOk` keeps the invariant.** -/
theorem countInv_step (m : Mbd Q U H) (op : Op Q U H) (hok : op.CountOk m) (h : CountInv g m) :
    CountInv g (step g m op) := by
  cases op with
  | newJob u bill hold => exact countInv_newJob h hok
  | newJobArray u bill numJobs hold => exact countInv_newJobArray h hok
  | job i op => exact countInv_job h hok
  | modify i bill once run => exact countInv_modify h hok

/-- What the counts are meant to be: the number of pending jobs of each user and group. -/
def PendExact (g : Books U) (m : Mbd Q U H) : Prop :=
  ∀ u, m.totals.user u .numPENDJobs = m.jobs.countP fun jp =>
    decide (u ∈ jp.uPtr :: g.gPtr jp.uPtr) && (jState jp.jStatus).isPending

omit [DecidableEq Q] [DecidableEq H] in
theorem sum_userCount (g : Books U) (jobs : List (JData Q U H)) (u : U) :
    (jobs.map fun jp => jp.userCount g u).sum = jobs.countP fun jp =>
      decide (u ∈ jp.uPtr :: g.gPtr jp.uPtr) && (jState jp.jStatus).isPending := by
  induction jobs with
  | nil => rfl
  | cons jp jobs ih =>
    rw [map_cons, sum_cons, ih, countP_cons]
    unfold JData.userCount JState.count
    by_cases hu : u ∈ jp.uPtr :: g.gPtr jp.uPtr <;>
      cases (jState jp.jStatus).isPending <;> simp [hu, add_comm]

end Machine

/-! ## A run that miscounts -/

/-- A job that asks for two processors and is modified to ask for four while it is pending: two
slots taken out under the new bill are no job, four put in are one. -/
def grownJob : List (Op Unit Unit Unit) :=
  [.newJob () (.plain () 2) false, .modify 0 (.plain () 4) false .resReq]

/-- Jobs that are held, reserved in part, modified, started and sent back to pending, and an array
whose elements are modified one by one. -/
def countedRun : List (Op Unit Unit Unit) :=
  let two : JobBill Unit := .plain () 2
  let three : JobBill Unit := .plain () 3
  [.newJob () three true, .newJobArray () three 2 false, .modify 1 two false .resReq,
    .modify 2 two false .resReq, .job 0 (.statusChange jobStatPend), .job 0 (.alloc [(), ()]),
    .job 0 .reserve, .job 0 .unreserve, .modify 0 two true .next, .job 0 (.alloc [(), ()]),
    .job 0 (.statusChange jobStatRun), .job 0 (.statusChange jobStatExit), .job 0 (.requeue false)]

end Volclava
