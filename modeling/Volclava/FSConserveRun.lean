import Volclava.FSConserve
import Volclava.Lib.Run

/-!
# Fairshare usage over whole runs

New users, queue switches and dispatch keep the sums of `FSConserve`, and so they hold in every
state reached from a configuration. What breaks them is a run time that is negative: it is -1 for a
job that was forced to run from `PSUSP`, and such a job can be switched to a fairshare queue; and it
goes down when the clock goes back.

- `FSUsage.Conserved`: the counters are the sums, and no charge has been clamped.
- `FSUsage.usage_conserved`: this holds in every state of a run.
-/

namespace Volclava

open List

namespace FSUsage

variable {Q : Type*} [DecidableEq Q] {fs : Q → Bool} (P : Q → FSParams)

/-! ## New users and queue switches -/

/-- The counters of one policy, in a state in which no account has a number from `b` on. -/
structure Agrees (p0 p : FSPolicy) (L : Counter → List Nat → Int) : Prop where
  numbered : p.Numbered
  next : p0.next ≤ p.next
  ptrs : p0.root.ptrs ⊆ p.root.ptrs
  shows : ∀ n ∈ p.root.nodes, ∀ c : Counter, c.of n.acct = L c n.ptrs

/-- A new user has no usage, and no job is attached to its account. -/
theorem Agrees.appendAliveUser {p0 p : FSPolicy} {L : Counter → List Nat → Int}
    (hL : ∀ c ps ps', (∀ x, x < p0.next → (x ∈ ps ↔ x ∈ ps')) → L c ps = L c ps')
    (hnil : ∀ c, L c [] = 0) (h : Agrees p0 p L) (A : FSParams) (userName : String) (ref : Nat) :
    Agrees p0 (p.appendAliveUser A userName ref) L := by
  have hnew : ∀ d : ShareAcct, (FSTree.user (A.newAcct p.next userName d.share)).ptrs = [p.next] :=
    fun _ => rfl
  refine ⟨h.numbered.appendAliveUser A userName ref, h.next.trans (Nat.le_succ _), ?_, ?_⟩
  · intro x hx
    have hx := h.ptrs hx
    exact (FSTree.mem_ptrs_insertAfter hnew p.root (h.numbered.lt x hx).ne).mpr hx
  · intro n' hn' c
    rcases FSTree.nodes_insertAfter (fun d => ⟨hnew d, rfl⟩) p.root n' hn' with
      ⟨n, hn, hacct, hiff⟩ | ⟨d, rfl⟩
    · rw [hacct, h.shows n hn c]
      exact (hL c _ _ fun x hx => hiff x (by have := h.next; omega)).symm
    · have hzero : c.of (A.newAcct p.next userName d.share) = 0 := by cases c <;> rfl
      rw [hnew, FSTree.acct, hzero, ← hnil c]
      refine hL c _ _ fun x hx => ?_
      have := h.next
      simp only [not_mem_nil, mem_singleton, false_iff]
      omega

theorem agrees_updAliveUserInFSTree {p : FSPolicy} {L : Counter → List Nat → Int}
    (hL : ∀ c ps ps', (∀ x, x < p.next → (x ∈ ps ↔ x ∈ ps')) → L c ps = L c ps')
    (hnil : ∀ c, L c [] = 0) (hnum : p.Numbered)
    (h : ∀ n ∈ p.root.nodes, ∀ c : Counter, c.of n.acct = L c n.ptrs) (A : FSParams)
    (userName : String) : Agrees p (p.updAliveUserInFSTree A userName) L := by
  have hfold : ∀ (refs : List Nat) (p' : FSPolicy), Agrees p p' L →
      Agrees p (refs.foldl (FSPolicy.appendAliveUser A userName) p') L := by
    intro refs
    induction refs with
    | nil => exact fun _ h => h
    | cons ref refs ih => exact fun p' h => ih _ (h.appendAliveUser hL hnil A userName ref)
  have hself : Agrees p p L := ⟨hnum, le_refl _, List.Subset.refl _, h⟩
  unfold FSPolicy.updAliveUserInFSTree
  split_ifs
  · exact hself
  · exact hfold _ p hself

variable {s : FSUsage Q}

theorem Inv.updAliveUserInFSTree (h : s.Inv fs) (q : Q) (userName : String) :
    (s.updAliveUserInFSTree P q userName).Inv fs ∧
      Grows s (s.updAliveUserInFSTree P q userName) := by
  have hagree : ∀ p, s.policies q = some p →
      Agrees p (p.updAliveUserInFSTree (P q) userName) fun c => load s.jobs c q := by
    intro p hp
    refine agrees_updAliveUserInFSTree (fun c ps ps' hiff => ?_) (fun c => ?_) (h.numbered q p hp)
      (h.shows q p hp) (P q) userName
    · refine load_congr (fun j hj x hsa => hiff x ?_) c
      obtain ⟨p', hp', hmem⟩ := (h.attached j hj _ hsa).valid
      obtain rfl : p = p' := Option.some.inj (hp.symm.trans hp')
      exact (h.numbered q p hp).lt x hmem
    · exact sum_eq_zero (forall_mem_map.mpr fun _ _ =>
        if_neg fun ⟨_, hmem, _⟩ => not_mem_nil hmem)
  have hgrows : Grows s (s.updAliveUserInFSTree P q userName) :=
    grows_update h.numbered q fun p hp => ⟨(hagree p hp).numbered, (hagree p hp).ptrs⟩
  refine ⟨⟨hgrows.numbered, fun q' p' hp' => ?_, h.small, fun j hj sa hsa => ?_, h.inState,
    h.clamped⟩, hgrows⟩
  · obtain ⟨p, hp, rfl⟩ := policies_update hp'
    split_ifs with hq
    · subst hq
      exact (hagree p hp).shows
    · exact h.shows q' p hp
  · have hold := h.attached j hj sa hsa
    exact { hold with valid := hgrows.valid hold.valid }

omit [DecidableEq Q] in
theorem locate_valid {q : Q} {found : Option Nat} {sa : Q × Nat} (h : s.locate q found = some sa) :
    sa.1 = q ∧ s.Valid sa := by
  unfold locate at h
  cases hp : s.policies q with
  | none => simp [hp] at h
  | some p =>
    rw [hp] at h
    dsimp only at h
    obtain ⟨x, hx, rfl⟩ := Option.map_eq_some_iff.mp h
    refine ⟨rfl, p, hp, ?_⟩
    simpa using (Option.filter_eq_some_iff.mp hx).2

variable {j : FSJob Q} {i : Nat}

section

variable (h : s.Inv fs) (hj : s.jobs[i]? = some j)
include h hj

/-- A started job comes to a fairshare queue and brings the run time it has. -/
theorem Inv.join
    (hsa : j.sa = none) (hfs : fs j.queue = true) (hstart : isStart j.jStatus = true)
    (hpend : isPend j.jStatus = false) (hfinish : isFinish j.jStatus = false) (hrt : 0 ≤ j.runTime)
    {sa : Q × Nat} (hq : sa.1 = j.queue) (hvalid : s.Valid sa) (hroom : Room s.jobs sa.1 j) :
    ((s.updShareAcctStats P sa .runTime j.runTime).attachJob2FSTree P i j sa).Inv fs := by
  have hstats := h.charged.updShareAcctStats P sa .runTime j.runTime fun ps _ =>
    ⟨add_nonneg (h.load_nonneg _ _ _) hrt, hroom .runTime ps⟩
  exact h.attach P hj hsa rfl hroom hstats ⟨hq.symm, hq ▸ hfs, hvalid, hstart, hpend, hfinish, hrt⟩

/-- The job leaves the account of its old queue with the run time it has. -/
theorem Inv.leaveQueue (qtp : Q) :
    ((s.setJob i { j with queue := qtp }).leaveQueue P fs i { j with queue := qtp }
        j.queue).Inv fs ∧
      ((s.setJob i { j with queue := qtp }).leaveQueue P fs i { j with queue := qtp }
        j.queue).jobs = s.jobs.set i { j with queue := qtp, sa := none } := by
  have hstate : InState j.jStatus := h.inState j (mem_of_getElem? hj)
  unfold FSUsage.leaveQueue
  dsimp only
  cases hsa : j.sa with
  | none => exact ⟨h.setJob_of_none hj hsa rfl hstate, rfl⟩
  | some sa =>
    have hatt := h.attached j (mem_of_getElem? hj) sa hsa
    dsimp only
    rw [if_pos (hatt.queue ▸ hatt.fs)]
    rw [← hsa]
    set moved : FSJob Q := { j with queue := qtp }
    have hle : ∀ ps, sa.2 ∈ ps → j.runTime ≤ load s.jobs .runTime sa.1 ps := fun _ =>
      h.amount_le_load hj hsa .runTime
    have hown := hle [sa.2] (by simp)
    have hneg : (P j.queue).arith.int (-j.runTime) = -j.runTime := by
      have := hatt.runTime
      have := h.small .runTime sa.1 [sa.2]
      exact CInt.Arith.int_eq _ _ (by omega) (by omega)
    rw [show moved.runTime = j.runTime from rfl, hneg]
    have hstats := (h.charged.setJob i moved).updShareAcctStats P sa .runTime (-j.runTime)
      fun ps hps => by
        have := hle ps hps
        have := h.small .runTime sa.1 ps
        have := hatt.runTime
        omega
    exact h.detach P moved (x := moved) hj hsa hsa rfl rfl hstats hstate

/-- `updJobSAcctForSwitch` keeps the invariant, if a started job brings a run time that is not
negative to a fairshare queue, and there is room for the job. -/
theorem Inv.switchJob (qtp : Q)
    (found : Option Nat) (hfinish : isFinish j.jStatus = false)
    (hrt : isStart j.jStatus = true → fs qtp = true → 0 ≤ j.runTime ∧
      Room s.jobs qtp { j with queue := qtp, sa := none }) :
    ((s.setJob i { j with queue := qtp }).updJobSAcctForSwitch P fs i { j with queue := qtp }
      j.queue qtp found).Inv fs := by
  have hstate : InState j.jStatus := h.inState j (mem_of_getElem? hj)
  unfold updJobSAcctForSwitch
  by_cases hpend : isPend j.jStatus = true
  · rw [if_pos hpend]
    have hsa : j.sa = none := h.sa_of_pend hj hpend
    have hmove : (s.setJob i { j with queue := qtp }).Inv fs :=
      h.setJob_of_none hj hsa hsa hstate
    split_ifs
    · exact (hmove.updAliveUserInFSTree P qtp j.userName).1
    · exact hmove
  · have hpend' : isPend j.jStatus = false := by simpa using hpend
    have hstart : isStart j.jStatus = true := by
      rcases hstate with h1 | h1 | h1
      · exact absurd h1 hpend
      · exact h1
      · simp [hfinish] at h1
    rw [if_neg hpend, if_pos (by simp [hstart])]
    obtain ⟨hinv, hjobs⟩ := h.leaveQueue P hj qtp
    have hjob := hjobs ▸ getElem?_set_self_of hj { j with queue := qtp, sa := none }
    dsimp only
    rw [hjob]
    dsimp only [enterQueue]
    by_cases hfs : fs qtp = true
    · rw [if_pos hfs]
      obtain ⟨halive, -⟩ := hinv.updAliveUserInFSTree P qtp j.userName
      split
      · exact halive
      next sa hloc =>
        obtain ⟨hq, hvalid⟩ := locate_valid hloc
        obtain ⟨hnonneg, hroom⟩ := hrt hstart hfs
        have hroom' := hjobs ▸ h.room_set hj rfl hroom
        exact halive.join P hjob rfl hfs hstart hpend' hfinish hnonneg hq hvalid (hq ▸ hroom')
    · rw [if_neg hfs]
      exact hinv

/-! ## Dispatch -/

/-- A pending job that gets its hosts and starts. -/
theorem Inv.runPend
    (hpend : isPend j.jStatus = true) (n : Nat) (time : Int) :
    ((s.setJob i { j with numHostPtr := n }).jStatusChange P i { j with numHostPtr := n } .run
      time).Inv fs := by
  have hsa : j.sa = none := h.sa_of_pend hj hpend
  have hset : (s.setJob i { j with numHostPtr := n }).Inv fs :=
    h.setJob_of_none hj hsa hsa (.inl hpend)
  refine hset.jStatusChange P (getElem?_set_self_of hj _) .run (by simp) fun sa hmem => ?_
  simp [hsa] at hmem

end

/-- A job that starts from `PEND` has no run time yet. -/
theorem jobs_runPend (i : Nat) (hpend : has j.jStatus jobStatPend = true) (time : Int) :
    (s.jStatusChange P i j .run time).jobs =
      s.jobs.set i { j with
        runTime := 0
        updStateTime := time
        jStatus := setState j.jStatus jobStatRun } := by
  have hnew : knownStatus NewState.run.word ≠ knownStatus j.jStatus := by
    intro heq
    have hbit : has (knownStatus NewState.run.word) jobStatPend = true := by
      rw [heq, has_pend_known, hpend]
    exact absurd hbit (by decide)
  have hacc : j.accumRunTime (P j.queue).arith NewState.run.word time =
      ({ j with runTime := 0, updStateTime := time }, 0) := by
    unfold FSJob.accumRunTime
    rw [if_pos]
    rw [hpend]
    decide
  have hpend' : isPend j.jStatus = true := by simp [isPend, hpend]
  unfold FSUsage.jStatusChange
  rw [if_neg hnew]
  dsimp only
  rw [if_pos (by rw [hpend']; decide), hacc]
  show (s.accumRunTime P i j NewState.run.word time).jobs.set i _ = _
  rw [accumRunTime_jobs, set_set]
  rfl

/-! ## Runs -/

/-- The state of the counters after configuration. -/
def Uncharged (t : FSTree) : Prop := ∀ n ∈ t.nodes, ∀ c : Counter, c.of n.acct = 0

theorem uncharged_leaf {t : FSTree} (h : t.nodes = [t]) (ht : ∀ c : Counter, c.of t.acct = 0) :
    Uncharged t := by
  intro n hn
  rw [h, mem_singleton] at hn
  rw [hn]
  exact ht

theorem uncharged_inner {a : ShareAcct} {kids : List FSTree} (ha : ∀ c : Counter, c.of a = 0)
    (h : ∀ k ∈ kids, Uncharged k) : Uncharged (.inner a kids) := by
  intro n hn
  rw [FSTree.mem_nodes_inner] at hn
  rcases hn with rfl | ⟨k, hk, hn⟩
  · exact ha
  · exact h k hk n hn

theorem uncharged_newAcct (A : FSParams) (ptr : Nat) (name : String) (share : Int) (c : Counter) :
    c.of (A.newAcct ptr name share) = 0 := by
  cases c <;> rfl

theorem Uncharged.setAcct {t : FSTree} (h : Uncharged t) {f : ShareAcct → ShareAcct}
    (hf : ∀ a, ∀ c : Counter, c.of (f a) = c.of a) : Uncharged (t.setAcct f) := by
  have hacct : ∀ c : Counter, c.of (f t.acct) = 0 := fun c =>
    (hf t.acct c).trans (h t (FSTree.self_mem_nodes t) c)
  cases t with
  | user a => exact uncharged_leaf rfl hacct
  | group a out tab => exact uncharged_leaf rfl hacct
  | inner a kids =>
    refine uncharged_inner hacct fun x hx n hn => h n ?_
    rw [FSTree.mem_nodes_inner]
    exact .inr ⟨x, hx, hn⟩

theorem uncharged_build (A : FSParams) : BuildRule A (fun _ _ => Uncharged)
    fun _ _ ks => ∀ k ∈ ks, Uncharged k where
  user _ _ _ _ _ := uncharged_leaf rfl fun c => by cases c <;> rfl
  group next name share _ _ := uncharged_leaf rfl fun c => uncharged_newAcct A next name share c
  inner next _ name share _ h := uncharged_inner (fun c => uncharged_newAcct A next name share c) h
  nil _ := by simp
  insert _ _ _ _ _ h ht k hk := by
    rcases FSTree.mem_inShareAcctList.mp hk with rfl | hk
    · exact ht
    · exact h k hk
  adjust _ _ _ k _ _ h x hx := by
    rcases FSTree.mem_of_perm (FSTree.adjustOrderByPriority_perm ..) hx k with rfl | hx
    · exact (h k (by simp)).setAcct fun _ c => by cases c <;> rfl
    · exact h x hx

theorem uncharged_addFSPolicy (A : FSParams) (queue : String) (entries : List FSEntry)
    (individuals : List (String × Int)) :
    Uncharged (addFSPolicy A queue entries individuals).root := by
  obtain ⟨kids, hroot, h⟩ := (uncharged_build A).addFSPolicy queue entries individuals
  rw [hroot]
  exact uncharged_inner (fun c => by cases c <;> rfl) h

variable (conf : Q → Option (String × List FSEntry × List (String × Int)))

omit [DecidableEq Q] in
theorem policies_start {q : Q} {p : FSPolicy} (h : (start P conf).policies q = some p) :
    ∃ c : String × List FSEntry × List (String × Int),
      p = addFSPolicy (P q) c.1 c.2.1 c.2.2 := by
  obtain ⟨c, -, rfl⟩ := Option.map_eq_some_iff.mp h
  exact ⟨c, rfl⟩

theorem inv_start : (start P conf).Inv fs := by
  refine ⟨fun q p hp => ?_, fun q p hp n hn c => ?_, by simp [start, load], by simp [start],
    by simp [start], rfl⟩
  · obtain ⟨c, rfl⟩ := policies_start P conf hp
    exact (FSTree.shaped_addFSPolicy c.1 c.2.1 c.2.2).numbered
  · obtain ⟨e, rfl⟩ := policies_start P conf hp
    exact uncharged_addFSPolicy (P q) e.1 e.2.1 e.2.2 n hn c

variable (fs)

/-- What keeps the run times of attached jobs from being negative: the clock does not go back, and
a started job that is switched to a fairshare queue did not start with the run time -1, as one
forced to run from `PSUSP` does. And what comes to a queue leaves its sums in the range of an
`int`. -/
def Ok (s : FSUsage Q) : UsageOp Q → Prop
  | .dispatch i n _ _ =>
    ∀ j ∈ s.jobs[i]?, total s.jobs .numStartJobs j.queue + n < 2 ^ 31
  | .jStatusChange i _ time => ∀ j ∈ s.jobs[i]?, s.Timely j time
  | .accumRunTime i time => ∀ j ∈ s.jobs[i]?, s.Timely j time
  | .switchJob i qtp _ =>
    ∀ j ∈ s.jobs[i]?, isStart j.jStatus → fs qtp → 0 ≤ j.runTime ∧
      total s.jobs .numStartJobs qtp + j.numHostPtr < 2 ^ 31 ∧
      total s.jobs .runTime qtp + j.runTime < 2 ^ 31
  | _ => True

/-- The counters of every share account are the sums over the jobs attached below it, and no
charge has been clamped. -/
def Conserved (s : FSUsage Q) : Prop :=
  (∀ q p, s.policies q = some p → ∀ n ∈ p.root.nodes,
    n.acct.numStartJobs =
        (s.jobs.map fun j => if AttachedIn q n.ptrs j then (j.numHostPtr : Int) else 0).sum ∧
      n.acct.runTime = (s.jobs.map fun j => if AttachedIn q n.ptrs j then j.runTime else 0).sum) ∧
    s.clamped = false

variable {fs}

variable {s : FSUsage Q}

theorem Inv.conserved (h : s.Inv fs) : s.Conserved :=
  ⟨fun q p hp n hn => ⟨h.shows q p hp n hn .numStartJobs, h.shows q p hp n hn .runTime⟩, h.clamped⟩

theorem Inv.newJob (h : s.Inv fs) (hsa : j.sa = none)
    (hpend : isPend j.jStatus = true) : { s with jobs := s.jobs ++ [j] }.Inv fs := by
  have hmem : ∀ x ∈ s.jobs ++ [j], x ∈ s.jobs ∨ x = j := by simp
  have hload : ∀ c q ps, load (s.jobs ++ [j]) c q ps = load s.jobs c q ps := by
    intro c q ps
    simp [load, weight_none hsa]
  refine ⟨h.numbered, fun q p hp n hn c => ?_, fun c q ps => ?_, fun x hx sa hsome => ?_,
    fun x hx => ?_, h.clamped⟩
  · rw [h.shows q p hp n hn c, hload]
  · rw [hload]
    exact h.small c q ps
  · rcases hmem x hx with hx | rfl
    · exact { h.attached x hx sa hsome with valid := (h.attached x hx sa hsome).valid }
    · simp [hsa] at hsome
  · rcases hmem x hx with hx | rfl
    · exact h.inState x hx
    · exact .inl hpend

/-- An operation on a job does nothing if there is none. -/
theorem Inv.atJob (h : s.Inv fs) (i : Nat) {f : FSJob Q → FSUsage Q}
    (hf : ∀ j, s.jobs[i]? = some j → (f j).Inv fs) :
    (match s.jobs[i]? with | none => s | some j => f j).Inv fs := by
  cases hj : s.jobs[i]? with
  | none => exact h
  | some j => exact hf j hj

/-- The dispatch of a job from `PEND`, with the account it was elected from. -/
theorem Inv.dispatch (h : s.Inv fs) (i n : Nat) (found : Option Nat) (time : Int)
    (hok : ∀ j ∈ s.jobs[i]?, total s.jobs .numStartJobs j.queue + n < 2 ^ 31) :
    (s.step P fs (.dispatch i n found time)).Inv fs := by
  refine h.atJob i fun j hj => ?_
  dsimp only
  by_cases hpend : has j.jStatus jobStatPend = true
  · rw [if_pos hpend]
    have hpend' : isPend j.jStatus = true := by simp [isPend, hpend]
    have hsa : j.sa = none := h.sa_of_pend hj hpend'
    have hrun := h.runPend P hj hpend' n time
    have hjobs := jobs_runPend P (s := s.setJob i { j with numHostPtr := n })
      (j := { j with numHostPtr := n }) i hpend time
    rw [show (s.setJob i { j with numHostPtr := n }).jobs = s.jobs.set i _ from rfl,
      set_set] at hjobs
    have hjob := hjobs ▸ getElem?_set_self_of hj _
    rw [hjob]
    split
    next job sa heq hloc =>
      obtain rfl := Option.some.inj heq
      by_cases hfs : fs j.queue = true
      · rw [if_pos hfs] at hloc
        obtain ⟨hq, hvalid⟩ := locate_valid hloc
        have hst : knownStatus (setState j.jStatus jobStatRun) = knownStatus jobStatRun :=
          known_setState _ _
        split_ifs
        · refine hrun.attach P hjob hsa rfl (hjobs ▸ h.room_set hj hsa fun c ps => ?_) ?_ ?_
          · rw [hq]
            cases c with
            | numStartJobs =>
              have hle := h.load_le_total .numStartJobs j.queue ps
              have hfit := hok j hj
              simp only [amount]
              omega
            | runTime =>
              have hsmall := h.small .runTime j.queue ps
              simp only [amount]
              omega
          · rw [bump_zero]
            exact hrun.charged
          · refine ⟨hq.symm, hq ▸ hfs, hvalid, ?_, ?_, ?_, le_refl _⟩
            · exact (isStart_congr hst).trans (by decide)
            · exact (isPend_congr hst).trans (by decide)
            · exact (isFinish_congr hst).trans (by decide)
        · exact hrun
      · rw [if_neg hfs] at hloc
        simp at hloc
    · exact hrun
  · rw [if_neg hpend]
    exact h

omit [DecidableEq Q] in
theorem known_hostJobs (reachable : Bool) (s : Status) :
    knownStatus (if reachable then s &&& ~~~jobStatUnkwn else s ||| jobStatUnkwn) =
      knownStatus s := by
  cases reachable with
  | true => exact known_and_not_flag s rfl
  | false => exact known_or_flag s rfl

theorem Inv.hostJobs (h : s.Inv fs) (hj : s.jobs[i]? = some j) {st : Status}
    (hst : knownStatus st = knownStatus j.jStatus) :
    (s.setJob i { j with jStatus := st }).Inv fs := by
  have hmem := mem_of_getElem? hj
  refine h.setJob hj (fun c q ps => rfl) (fun sa hsa => ?_) ?_
  · have hatt := h.attached j hmem sa hsa
    exact { hatt with
      start := (isStart_congr hst).trans hatt.start
      notPend := (isPend_congr hst).trans hatt.notPend
      notFinish := (isFinish_congr hst).trans hatt.notFinish }
  · have hstate := h.inState j hmem
    unfold InState at hstate ⊢
    rwa [isPend_congr hst, isStart_congr hst, isFinish_congr hst]

theorem Inv.step (h : s.Inv fs) (op : UsageOp Q) (hok : s.Ok fs op) :
    (s.step P fs op).Inv fs := by
  cases op with
  | newJob userName queue hold =>
    have hpend : isPend (if hold then jobStatPsusp else jobStatPend) = true := by
      cases hold <;> decide
    show ({ (if fs queue then s.updAliveUserInFSTree P queue userName else s) with
      jobs := _ } : FSUsage Q).Inv fs
    by_cases hfs : fs queue = true
    · rw [if_pos hfs]
      exact (h.updAliveUserInFSTree P queue userName).1.newJob rfl hpend
    · rw [if_neg hfs]
      exact h.newJob rfl hpend
  | dispatch i n found time => exact h.dispatch P i n found time hok
  | runJob i n time =>
    refine h.atJob i fun j hj => ?_
    split_ifs with hpend
    · exact h.runPend P hj hpend n time
    · exact h
  | jStatusChange i new time =>
    refine h.atJob i fun j hj => ?_
    split_ifs with hheld
    · exact h
    · refine h.jStatusChange P hj new (fun hnew => ?_) (hok j hj)
      have hbit : has j.jStatus jobStatPend = true := by
        by_contra hno
        exact hheld ⟨hnew, by simpa using hno⟩
      simp [isPend, hbit]
  | accumRunTime i time =>
    refine h.atJob i fun j hj => ?_
    split_ifs
    · exact h.accumRunTime P hj j.jStatus (hok j hj)
    · exact h
  | hostJobs i reachable =>
    refine h.atJob i fun j hj => ?_
    split_ifs
    · exact h.hostJobs hj (known_hostJobs true j.jStatus)
    · exact h.hostJobs hj (known_hostJobs false j.jStatus)
    · exact h
  | switchJob i qtp found =>
    refine h.atJob i fun j hj => ?_
    split_ifs with hno
    · exact h
    · have hfinish : isFinish j.jStatus = false := by
        by_contra hfin
        exact hno (.inl (by simpa using hfin))
      refine h.switchJob P hj qtp found hfinish fun hstart hfs => ?_
      obtain ⟨hrt, hslots, htime⟩ := hok j hj hstart hfs
      refine ⟨hrt, fun c ps => lt_of_le_of_lt (add_le_add_left (h.load_le_total c qtp ps) _) ?_⟩
      cases c with
      | numStartJobs => exact hslots
      | runTime => exact htime

variable (fs)

instance (s : FSUsage Q) (j : FSJob Q) (time : Int) : Decidable (s.Timely j time) := by
  unfold Timely; infer_instance

instance (s : FSUsage Q) (op : UsageOp Q) : Decidable (s.Ok fs op) := by
  cases op <;> unfold Ok <;> infer_instance

end FSUsage

end Volclava
