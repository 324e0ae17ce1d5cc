import Volclava.FSUsage

/-!
# Fairshare usage is conserved

In every state the counters of a share account should be the sums over the jobs attached below it:
`numStartJobs` of their slots and `runTime` of their run times. Then no charge takes a counter
below zero, and the clamping in `updShareAcctStats` never applies. This module has the invariant
and what keeps it: charges, attaching and detaching a job, and changes of its state.

- `FSUsage.Inv`: the counters are the sums over the attached jobs.
- `FSUsage.Inv.update`: one job changes.
- `FSUsage.Inv.jStatusChange`: a change of state keeps the invariant.
-/

namespace Volclava

open List

namespace FSUsage

variable {Q : Type*} [DecidableEq Q]

/-! ## Sums over attached jobs -/

/-- What a job counts for in each counter. -/
def amount (j : FSJob Q) : Counter → Int
  | .numStartJobs => j.numHostPtr
  | .runTime => j.runTime

/-- The job is attached to one of the accounts `ps` of the queue `q`. -/
def AttachedIn (q : Q) (ps : List Nat) (j : FSJob Q) : Prop := ∃ p ∈ ps, j.sa = some (q, p)

instance (q : Q) (ps : List Nat) (j : FSJob Q) : Decidable (AttachedIn q ps j) := by
  unfold AttachedIn; infer_instance

def weight (j : FSJob Q) (c : Counter) (q : Q) (ps : List Nat) : Int :=
  if AttachedIn q ps j then amount j c else 0

/-- The sum over the jobs attached to the accounts `ps` of the queue `q`. -/
def load (jobs : List (FSJob Q)) (c : Counter) (q : Q) (ps : List Nat) : Int :=
  (jobs.map fun j => weight j c q ps).sum

/-- The counters of all accounts are what `L` says for the accounts below them. -/
def Shows (policies : Q → Option FSPolicy) (L : Counter → Q → List Nat → Int) : Prop :=
  ∀ q p, policies q = some p → ∀ n ∈ p.root.nodes, ∀ c : Counter, c.of n.acct = L c q n.ptrs

/-- `L` with `d` more of the counter `c` for every account above `sa`. -/
def bump (L : Counter → Q → List Nat → Int) (sa : Q × Nat) (c : Counter) (d : Int) :
    Counter → Q → List Nat → Int :=
  fun c' q ps => L c' q ps + if c' = c ∧ q = sa.1 ∧ sa.2 ∈ ps then d else 0

/-- What is said about some accounts does not depend on their order. -/
def Unordered (L : Counter → Q → List Nat → Int) : Prop :=
  ∀ c q ps ps', ps.Perm ps' → L c q ps = L c q ps'

variable {j : FSJob Q} {sa : Q × Nat} {jobs : List (FSJob Q)} {L : Counter → Q → List Nat → Int}
  {i : Nat} {s : FSUsage Q}

theorem weight_none (h : j.sa = none) (c : Counter) (q : Q) (ps : List Nat) :
    weight j c q ps = 0 := by
  refine if_neg ?_
  rintro ⟨p, -, hp⟩
  simp [h] at hp

theorem weight_some (h : j.sa = some sa) (c : Counter) (q : Q) (ps : List Nat) :
    weight j c q ps = if q = sa.1 ∧ sa.2 ∈ ps then amount j c else 0 := by
  refine if_congr ?_ rfl rfl
  constructor
  · rintro ⟨p, hp, hsa⟩
    obtain rfl : sa = (q, p) := Option.some.inj (h.symm.trans hsa)
    exact ⟨rfl, hp⟩
  · rintro ⟨rfl, hp⟩
    exact ⟨sa.2, hp, h⟩

theorem weight_congr {q : Q} {ps ps' : List Nat} (h : ∀ x, j.sa = some (q, x) → (x ∈ ps ↔ x ∈ ps'))
    (c : Counter) :
    weight j c q ps = weight j c q ps' := by
  refine if_congr ?_ rfl rfl
  exact exists_congr fun p => and_congr_left (h p)

theorem load_congr {q : Q} {ps ps' : List Nat}
    (h : ∀ j ∈ jobs, ∀ x, j.sa = some (q, x) → (x ∈ ps ↔ x ∈ ps')) (c : Counter) :
    load jobs c q ps = load jobs c q ps' := by
  unfold load
  exact congrArg List.sum (map_congr_left fun j hj => weight_congr (h j hj) c)

theorem unordered_load (jobs : List (FSJob Q)) : Unordered (load jobs) :=
  fun c _ _ _ hp => load_congr (fun _ _ _ _ => hp.mem_iff) c

theorem Unordered.bump (h : Unordered L) (sa : Q × Nat) (c : Counter) (d : Int) :
    Unordered (bump L sa c d) := by
  intro c' q ps ps' hp
  unfold FSUsage.bump
  rw [h c' q ps ps' hp]
  simp only [hp.mem_iff]

theorem load_set (hj : jobs[i]? = some j) (j' : FSJob Q) (c : Counter) (q : Q) (ps : List Nat) :
    load (jobs.set i j') c q ps = load jobs c q ps - weight j c q ps + weight j' c q ps := by
  obtain ⟨hi, rfl⟩ := List.getElem?_eq_some_iff.mp hj
  exact Ledger.sum_map_set hi j'

/-! ## Charges -/

def AllNumbered (policies : Q → Option FSPolicy) : Prop :=
  ∀ q p, policies q = some p → p.Numbered

/-- A change of the policies that takes no account away. -/
structure Grows (s s' : FSUsage Q) : Prop where
  numbered : AllNumbered s'.policies
  ptrs : ∀ q p, s.policies q = some p →
    ∃ p', s'.policies q = some p' ∧ p.root.ptrs ⊆ p'.root.ptrs

omit [DecidableEq Q] in
theorem Grows.trans {s s' s'' : FSUsage Q} (h : Grows s s') (h' : Grows s' s'') : Grows s s'' := by
  refine ⟨h'.numbered, fun q p hp => ?_⟩
  obtain ⟨p', hp', hsub⟩ := h.ptrs q p hp
  obtain ⟨p'', hp'', hsub'⟩ := h'.ptrs q p' hp'
  exact ⟨p'', hp'', fun x hx => hsub' (hsub hx)⟩

variable {s s' : FSUsage Q}

omit [DecidableEq Q] in
theorem grows_of_policies (h : AllNumbered s.policies)
    (heq : s'.policies = s.policies) : Grows s s' := by
  refine ⟨heq ▸ h, fun q p hp => ⟨p, ?_, List.Subset.refl _⟩⟩
  rw [heq]
  exact hp

/-- The policies when the one of the queue `q` has changed. -/
theorem policies_update {q q' : Q} {F : FSPolicy → FSPolicy} {p' : FSPolicy}
    (h : Function.update s.policies q ((s.policies q).map F) q' = some p') :
    ∃ p, s.policies q' = some p ∧ p' = if q' = q then F p else p := by
  by_cases hq : q' = q
  · subst hq
    rw [Function.update_self] at h
    obtain ⟨p, hp, rfl⟩ := Option.map_eq_some_iff.mp h
    exact ⟨p, hp, (if_pos rfl).symm⟩
  · rw [Function.update_of_ne hq] at h
    exact ⟨p', h, (if_neg hq).symm⟩

theorem grows_update (h : AllNumbered s.policies) (q : Q) {F : FSPolicy → FSPolicy}
    (hF : ∀ p, s.policies q = some p → (F p).Numbered ∧ p.root.ptrs ⊆ (F p).root.ptrs) :
    Grows s { s with policies := Function.update s.policies q ((s.policies q).map F) } := by
  refine ⟨fun q' p' hp' => ?_, fun q' p hp => ?_⟩
  · obtain ⟨p, hp, rfl⟩ := policies_update hp'
    split_ifs with hq
    · exact (hF p (hq ▸ hp)).1
    · exact h q' p hp
  · by_cases hq : q' = q
    · subst hq
      exact ⟨F p, by simp [hp], (hF p hp).2⟩
    · exact ⟨p, by simpa [Function.update_of_ne hq] using hp, List.Subset.refl _⟩

theorem policies_atTree {q q' : Q} {f : FSTree → FSTree} {p' : FSPolicy}
    (h : (s.atTree q f).policies q' = some p') :
    ∃ p, s.policies q' = some p ∧ p'.root = if q' = q then f p.root else p.root := by
  obtain ⟨p, hp, rfl⟩ := policies_update h
  exact ⟨p, hp, by split_ifs <;> rfl⟩

theorem grows_atTree (h : AllNumbered s.policies) (q : Q) {f : FSTree → FSTree}
    (hf : ∀ t, (f t).ptrs.Perm t.ptrs) : Grows s (s.atTree q f) :=
  grows_update h q fun p hp => ⟨(h q p hp).of_perm (hf p.root) rfl, (hf p.root).symm.subset⟩

/-- The state `s'`, which comes from `s` by charges that were not clamped: its counters are `L`. -/
structure Charged (s s' : FSUsage Q) (L : Counter → Q → List Nat → Int) : Prop where
  grows : Grows s s'
  unordered : Unordered L
  shows : Shows s'.policies L
  clamped : s'.clamped = false

omit [DecidableEq Q] in
theorem Charged.setJob (h : Charged s s' L) (i : Nat) (j : FSJob Q) : Charged s (s'.setJob i j) L :=
  ⟨⟨h.grows.numbered, h.grows.ptrs⟩, h.unordered, h.shows, h.clamped⟩

/-- **A charge that takes nothing below zero** nor out of the range of an `int` is added to the
accounts above its leaf, and is not clamped. -/
theorem Charged.updShareAcctStats (h : Charged s s' L) (P : Q → FSParams) (sa : Q × Nat)
    (c : Counter) (d : Int)
    (hrange : ∀ ps, sa.2 ∈ ps → 0 ≤ L c sa.1 ps + d ∧ L c sa.1 ps + d < 2 ^ 31) :
    Charged s (s'.updShareAcctStats P sa c d) (bump L sa c d) where
  grows := by
    have htree := grows_atTree h.grows.numbered sa.1 fun t =>
      FSTree.ptrs_updShareAcctStats (P sa.1).arith sa.2 (c.upd d) t
    exact h.grows.trans ⟨htree.numbered, htree.ptrs⟩
  unordered := h.unordered.bump sa c d
  shows := by
    intro q p' hp' n' hn' c'
    obtain ⟨p, hp, hroot⟩ := policies_atTree hp'
    by_cases hq : q = sa.1
    · subst hq
      rw [hroot, if_pos rfl] at hn'
      obtain ⟨n, hn, hperm, hacct⟩ :=
        FSTree.nodes_updShareAcctStats (h.grows.numbered _ p hp).nodup _ sa.2 (c.upd d) n' hn'
      have hshow := h.shows _ p hp n hn
      rw [h.unordered.bump sa c d c' _ _ _ hperm, hacct]
      unfold bump
      rw [← hshow c']
      by_cases hmem : sa.2 ∈ n.ptrs
      · obtain ⟨hpos, hfit⟩ := hrange _ hmem
        rw [← hshow c] at hpos hfit
        rw [if_pos hmem, Counter.of_apply _ c' hpos hfit]
        simp [hmem]
      · rw [if_neg hmem, if_neg fun h => hmem h.2.2, add_zero]
    · rw [hroot, if_neg hq] at hn'
      unfold bump
      rw [if_neg fun h => hq h.2.1, add_zero]
      exact h.shows q p hp n' hn' c'
  clamped := by
    have hno : (s'.policies sa.1).any (·.root.clamps (P sa.1).arith sa.2 c d) = false := by
      cases hp : s'.policies sa.1 with
      | none => rfl
      | some p =>
        rw [Option.any_some, FSTree.clamps, any_eq_false]
        intro n hn
        rw [h.shows _ p hp n hn c]
        simp only [Bool.and_eq_true, decide_eq_true_eq, not_and, not_lt]
        intro hmem
        obtain ⟨hpos, hfit⟩ := hrange _ hmem
        rwa [CInt.Arith.int_of_nonneg _ hpos hfit]
    show (s'.clamped || _) = false
    rw [hno, h.clamped, Bool.or_false]

theorem Charged.updSAcctPriorityByPath (h : Charged s s' L) (P : Q → FSParams) (sa : Q × Nat) :
    Charged s (s'.updSAcctPriorityByPath P sa) L where
  grows := h.grows.trans (grows_atTree h.grows.numbered sa.1 fun t =>
    FSTree.ptrs_updSAcctPriorityByPath (P sa.1) sa.2 t)
  unordered := h.unordered
  shows := by
    intro q p' hp' n' hn' c
    obtain ⟨p, hp, hroot⟩ := policies_atTree hp'
    by_cases hq : q = sa.1
    · subst hq
      rw [hroot, if_pos rfl] at hn'
      obtain ⟨n, hn, hperm, hacct⟩ :=
        FSTree.nodes_updSAcctPriorityByPath (h.grows.numbered _ p hp).nodup (P sa.1) sa.2 n' hn'
      rw [hacct c, h.unordered c _ _ _ hperm]
      exact h.shows _ p hp n hn c
    · rw [hroot, if_neg hq] at hn'
      exact h.shows q p hp n' hn' c
  clamped := h.clamped

/-! ## The invariant -/

/-- The account is in the tree of its queue. -/
def Valid (s : FSUsage Q) (sa : Q × Nat) : Prop :=
  ∃ p, s.policies sa.1 = some p ∧ sa.2 ∈ p.root.ptrs

omit [DecidableEq Q] in
theorem Grows.valid (h : Grows s s') (hv : s.Valid sa) : s'.Valid sa := by
  obtain ⟨p, hp, hmem⟩ := hv
  obtain ⟨p', hp', hsub⟩ := h.ptrs sa.1 p hp
  exact ⟨p', hp', hsub hmem⟩

variable (fs : Q → Bool)

/-- What holds of an attached job. -/
structure Attached (s : FSUsage Q) (j : FSJob Q) (sa : Q × Nat) : Prop where
  queue : j.queue = sa.1
  fs : fs sa.1 = true
  valid : s.Valid sa
  start : isStart j.jStatus = true
  notPend : isPend j.jStatus = false
  notFinish : isFinish j.jStatus = false
  runTime : 0 ≤ j.runTime

/-- The status is that of a pending, a started or a finished job. -/
def InState (s : Status) : Prop := isPend s = true ∨ isStart s = true ∨ isFinish s = true

/-- The counters are the sums over the attached jobs, which are in the range of an `int`, and no
charge has been clamped. -/
structure Inv (s : FSUsage Q) : Prop where
  numbered : AllNumbered s.policies
  shows : Shows s.policies (load s.jobs)
  small : ∀ c q ps, load s.jobs c q ps < 2 ^ 31
  attached : ∀ j ∈ s.jobs, ∀ sa, j.sa = some sa → Attached fs s j sa
  inState : ∀ j ∈ s.jobs, InState j.jStatus
  clamped : s.clamped = false

variable {fs}

section

variable (h : s.Inv fs)
include h

theorem Inv.weight_nonneg (hj : j ∈ s.jobs) (c : Counter) (q : Q) (ps : List Nat) :
    0 ≤ weight j c q ps := by
  cases hsa : j.sa with
  | none => rw [weight_none hsa]
  | some sa =>
    rw [weight_some hsa]
    split_ifs
    · cases c with
      | numStartJobs => exact Int.natCast_nonneg _
      | runTime => exact (h.attached j hj sa hsa).runTime
    · exact le_refl _

theorem Inv.weight_le_load (hj : s.jobs[i]? = some j) (c : Counter) (q : Q)
    (ps : List Nat) :
    weight j c q ps ≤ load s.jobs c q ps := by
  obtain ⟨hi, rfl⟩ := List.getElem?_eq_some_iff.mp hj
  exact Ledger.le_sum_map (fun x hx => h.weight_nonneg hx c q ps) hi

/-- A counter above the account of a job is at least what the job counts for. -/
theorem Inv.amount_le_load (hj : s.jobs[i]? = some j) (hsa : j.sa = some sa)
    (c : Counter) {ps : List Nat} (hps : sa.2 ∈ ps) : amount j c ≤ load s.jobs c sa.1 ps := by
  have hle := h.weight_le_load hj c sa.1 ps
  rwa [weight_some hsa, if_pos ⟨rfl, hps⟩] at hle

theorem Inv.load_nonneg (c : Counter) (q : Q) (ps : List Nat) :
    0 ≤ load s.jobs c q ps :=
  sum_nonneg (forall_mem_map.mpr fun _ hj => h.weight_nonneg hj c q ps)

/-- A pending job is not attached. -/
theorem Inv.sa_of_pend (hj : s.jobs[i]? = some j) (hpend : isPend j.jStatus = true) :
    j.sa = none := by
  cases hsa : j.sa with
  | none => rfl
  | some sa =>
    have hatt := h.attached j (mem_of_getElem? hj) sa hsa
    simp [hatt.notPend] at hpend

theorem Inv.charged : Charged s s (load s.jobs) :=
  ⟨grows_of_policies h.numbered rfl, unordered_load s.jobs, h.shows, h.clamped⟩

/-- **One job changes.** The counters move by the difference of what the job counts for. -/
theorem Inv.update {j j' : FSJob Q} (hj : s.jobs[i]? = some j)
    (hc : Charged s s' L) (hjobs : s'.jobs = s.jobs.set i j')
    (hL : ∀ c q ps, L c q ps = load s.jobs c q ps - weight j c q ps + weight j' c q ps)
    (hsmall : ∀ c q ps, L c q ps < 2 ^ 31) (hj' : ∀ sa, j'.sa = some sa → Attached fs s' j' sa)
    (hstate : InState j'.jStatus) : s'.Inv fs := by
  refine ⟨hc.grows.numbered, fun q p hp n hn c => ?_, fun c q ps => ?_, ?_, ?_, hc.clamped⟩
  · rw [hc.shows q p hp n hn c, hL, hjobs, load_set hj]
  · rw [hjobs, load_set hj, ← hL]
    exact hsmall c q ps
  · rw [hjobs]
    refine Ledger.forall_mem_set (fun x hx sa hsa => ?_) hj'
    have hold := h.attached x hx sa hsa
    exact { hold with valid := hc.grows.valid hold.valid }
  · rw [hjobs]
    exact Ledger.forall_mem_set h.inState hstate

/-- A change of a job that is not attached and stays so, or keeps its account and what it counts
for. -/
theorem Inv.setJob {j j' : FSJob Q} (hj : s.jobs[i]? = some j)
    (hw : ∀ c q ps, weight j' c q ps = weight j c q ps)
    (hj' : ∀ sa, j'.sa = some sa → Attached fs s j' sa) (hstate : InState j'.jStatus) :
    (s.setJob i j').Inv fs := by
  refine h.update hj (h.charged.setJob i j') rfl (fun c q ps => ?_) h.small (fun sa hsa => ?_)
    hstate
  · rw [hw c q ps]
    omega
  · exact { hj' sa hsa with valid := (hj' sa hsa).valid }

/-- A change of a job that is not attached. -/
theorem Inv.setJob_of_none {j j' : FSJob Q} (hj : s.jobs[i]? = some j)
    (hsa : j.sa = none) (hsa' : j'.sa = none) (hstate : InState j'.jStatus) :
    (s.setJob i j').Inv fs := by
  refine h.setJob hj (fun c q ps => ?_) (fun sa hsome => ?_) hstate
  · rw [weight_none hsa, weight_none hsa']
  · simp [hsa'] at hsome

end

/-! ## Attaching and detaching -/

variable (P : Q → FSParams)

theorem bump_zero (L : Counter → Q → List Nat → Int) (sa : Q × Nat) (c : Counter) :
    bump L sa c 0 = L := by
  funext c' q ps
  simp [bump]

theorem bump_weight (hsa : j.sa = some sa) (c : Counter) (q : Q) (ps : List Nat) :
    bump (bump (load jobs) sa .runTime (-j.runTime)) sa .numStartJobs (-j.numHostPtr) c q ps =
      load jobs c q ps - weight j c q ps := by
  rw [weight_some hsa]
  unfold bump
  cases c with
  | numStartJobs =>
    simp only [reduceCtorEq, false_and, if_false, add_zero, true_and, amount]
    split_ifs <;> omega
  | runTime =>
    simp only [reduceCtorEq, false_and, if_false, add_zero, true_and, amount]
    split_ifs <;> omega

/-- Detaching a job whose run time has been taken back already. -/
theorem Inv.detach (h : s.Inv fs) {j x : FSJob Q} (job : FSJob Q)
    (hj : s.jobs[i]? = some j) (hsa : j.sa = some sa) (hjob : job.sa = some sa)
    (hnum : job.numHostPtr = j.numHostPtr) (hjobs : s'.jobs = s.jobs.set i x)
    (hc : Charged s s' (bump (load s.jobs) sa .runTime (-j.runTime)))
    (hstate : InState job.jStatus) :
    (s'.detachedJobFromFSTree P i job).Inv fs ∧
      (s'.detachedJobFromFSTree P i job).jobs = s.jobs.set i { job with sa := none } := by
  have hdetach : s'.detachedJobFromFSTree P i job =
      ((s'.updShareAcctStats P sa .numStartJobs
        (-j.numHostPtr)).updSAcctPriorityByPath P sa).setJob i
        { job with sa := none } := by
    unfold detachedJobFromFSTree
    rw [hjob, hnum]
  have hset : (s'.detachedJobFromFSTree P i job).jobs = s.jobs.set i { job with sa := none } := by
    rw [hdetach]
    show s'.jobs.set i _ = _
    rw [hjobs, set_set]
  have hstats := hc.updShareAcctStats P sa .numStartJobs (-j.numHostPtr) fun ps hps => by
    have hle := h.amount_le_load hj hsa .numStartJobs hps
    have hsmall := h.small .numStartJobs sa.1 ps
    simp only [bump, reduceCtorEq, false_and, if_false, add_zero]
    simp only [amount] at hle
    omega
  refine ⟨h.update hj (hdetach ▸ (hstats.updSAcctPriorityByPath P sa).setJob i _) hset
    (fun c q ps => ?_) (fun c q ps => ?_) (fun sa' hsa' => ?_) hstate, hset⟩
  · rw [bump_weight hsa, weight_none (j := { job with sa := none }) rfl, add_zero]
  · rw [bump_weight hsa]
    have hnonneg := h.weight_nonneg (mem_of_getElem? hj) c q ps
    have hsmall := h.small c q ps
    omega
  · simp at hsa'

/-- The accounts of the queue have room for what the job counts for. -/
def Room (jobs : List (FSJob Q)) (q : Q) (j : FSJob Q) : Prop :=
  ∀ c ps, load jobs c q ps + amount j c < 2 ^ 31

/-- A job that is not attached any more leaves no less room. -/
theorem Inv.room_set (h : s.Inv fs) (hj : s.jobs[i]? = some j) {j' x : FSJob Q} {q : Q}
    (hsa : j'.sa = none) (hroom : Room s.jobs q x) : Room (s.jobs.set i j') q x := by
  intro c ps
  have hweight := h.weight_nonneg (mem_of_getElem? hj) c q ps
  have hfit := hroom c ps
  rw [load_set hj, weight_none hsa]
  omega

/-- Attaching a job whose run time has been charged already. -/
theorem Inv.attach (h : s.Inv fs) {j job : FSJob Q} (hj : s.jobs[i]? = some j)
    (hsa : j.sa = none) (hjobs : s'.jobs = s.jobs) (hroom : Room s.jobs sa.1 job)
    (hc : Charged s s' (bump (load s.jobs) sa .runTime job.runTime))
    (hjob : Attached fs s { job with sa := some sa } sa) :
    (s'.attachJob2FSTree P i job sa).Inv fs := by
  have hstats := hc.updShareAcctStats P sa .numStartJobs job.numHostPtr fun ps hps => by
    have hle := h.load_nonneg .numStartJobs sa.1 ps
    have hfit := hroom .numStartJobs ps
    simp only [bump, reduceCtorEq, false_and, if_false, add_zero]
    simp only [amount] at hfit
    omega
  have hend := (hstats.setJob i { job with sa := some sa }).updSAcctPriorityByPath P sa
  have hset : (s'.attachJob2FSTree P i job sa).jobs = s.jobs.set i { job with sa := some sa } := by
    rw [← hjobs]
    rfl
  have hweight : ∀ c q ps,
      bump (bump (load s.jobs) sa .runTime job.runTime) sa .numStartJobs job.numHostPtr c q ps =
        load s.jobs c q ps + if q = sa.1 ∧ sa.2 ∈ ps then amount job c else 0 := by
    intro c q ps
    cases c <;> simp only [bump, reduceCtorEq, false_and, if_false, add_zero, true_and, amount]
  refine h.update hj hend hset (fun c q ps => ?_) (fun c q ps => ?_) (fun sa' hsa' => ?_)
    (.inr (.inl hjob.start))
  · rw [hweight, weight_none hsa, weight_some (j := { job with sa := some sa }) rfl, sub_zero]
    rfl
  · rw [hweight]
    split_ifs with hq
    · rw [hq.1]
      exact hroom c ps
    · rw [add_zero]
      exact h.small c q ps
  · obtain rfl : sa = sa' := Option.some.inj hsa'
    exact { hjob with valid := hend.grows.valid hjob.valid }

/-! ## Status changes -/

omit [DecidableEq Q] in
/-- `accumRunTime` changes only the run time and the time of the last update. -/
theorem accumRunTime_eq (r : CInt.Arith) (j : FSJob Q) (new : Status) (time : Int) :
    ∃ rt ut d, j.accumRunTime r new time = ({ j with runTime := rt, updStateTime := ut }, d) := by
  unfold FSJob.accumRunTime
  split_ifs <;> exact ⟨_, _, _, rfl⟩

variable {time : Int}

omit [DecidableEq Q] in
/-- The run time of a started job changes by what is charged, which is at most the time that has
passed. -/
theorem accumRunTime_started (r : CInt.Arith) (hpend : isPend j.jStatus = false)
    (hrt : 0 ≤ j.runTime) (new : Status) (htime : j.updStateTime ≤ time)
    (hfit : j.runTime + (time - j.updStateTime) < 2 ^ 31) :
    (j.accumRunTime r new time).1.runTime = j.runTime + (j.accumRunTime r new time).2 ∧
      0 ≤ (j.accumRunTime r new time).1.runTime ∧
      (j.accumRunTime r new time).2 ≤ time - j.updStateTime := by
  have hno : has j.jStatus jobStatPend = false := (Bool.or_eq_false_iff.mp hpend).1
  have hneg : r.int (-j.runTime) = -j.runTime := r.int_eq _ (by omega) (by omega)
  have hdiff : r.int (time - j.updStateTime) = time - j.updStateTime :=
    r.int_of_nonneg (by omega) (by omega)
  have hsum := r.int_of_nonneg (z := j.runTime + (time - j.updStateTime)) (by omega) hfit
  unfold FSJob.accumRunTime
  simp only [hno, hneg, hdiff, hsum, Bool.and_false, Bool.false_eq_true, if_false]
  split_ifs <;> dsimp only <;> omega

theorem accumRunTime_jobs (s : FSUsage Q) (i : Nat) (j : FSJob Q) (new : Status) (time : Int) :
    (s.accumRunTime P i j new time).jobs =
      s.jobs.set i (j.accumRunTime (P j.queue).arith new time).1 := by
  unfold FSUsage.accumRunTime
  cases j.sa with
  | none => rfl
  | some sa =>
    dsimp only
    split_ifs
    · rfl
    · rfl

/-- What the jobs attached to accounts of the queue count for. -/
def total (jobs : List (FSJob Q)) (c : Counter) (q : Q) : Int :=
  (jobs.map fun j => if j.sa.map Prod.fst = some q then amount j c else 0).sum

theorem Inv.load_le_total (h : s.Inv fs) (c : Counter) (q : Q) (ps : List Nat) :
    load s.jobs c q ps ≤ total s.jobs c q := by
  refine sum_le_sum fun j hj => ?_
  have hnonneg := h.weight_nonneg hj c q
  cases hsa : j.sa with
  | none => simp [weight_none hsa]
  | some sa =>
    have hall := hnonneg [sa.2]
    rw [weight_some hsa] at hall ⊢
    by_cases hq : q = sa.1
    · subst hq
      by_cases hmem : sa.2 ∈ ps
      · simp [hmem]
      · simpa [hmem] using hall
    · simp [hq, Ne.symm hq]

/-- The clock has not gone back since the last change of an attached job, and the run time of its
queue has room for the time that has passed. -/
def Timely (s : FSUsage Q) (j : FSJob Q) (time : Int) : Prop :=
  ∀ sa ∈ j.sa, j.updStateTime ≤ time ∧
    total s.jobs .runTime sa.1 + (time - j.updStateTime) < 2 ^ 31

theorem Inv.accumRunTime (h : s.Inv fs) (hj : s.jobs[i]? = some j) (new : Status)
    (htime : s.Timely j time) : (s.accumRunTime P i j new time).Inv fs := by
  obtain ⟨rt, ut, d, heq⟩ := accumRunTime_eq (P j.queue).arith j new time
  unfold FSUsage.accumRunTime
  rw [heq]
  set job : FSJob Q := { j with runTime := rt, updStateTime := ut }
  cases hsa : j.sa with
  | none => exact h.setJob_of_none hj hsa hsa (h.inState j (mem_of_getElem? hj))
  | some sa =>
    have hatt := h.attached j (mem_of_getElem? hj) sa hsa
    obtain ⟨hclock, hroom⟩ := htime sa hsa
    have htotal := h.load_le_total .runTime sa.1
    have hown : j.runTime ≤ load s.jobs .runTime sa.1 [sa.2] :=
      h.amount_le_load hj hsa .runTime (by simp)
    have hstarted := accumRunTime_started (P j.queue).arith hatt.notPend hatt.runTime new hclock
      (by linarith [htotal [sa.2]])
    rw [heq] at hstarted
    obtain ⟨hdiff, hnonneg, hpassed⟩ := hstarted
    change job.runTime = j.runTime + d at hdiff
    change 0 ≤ job.runTime at hnonneg
    change d ≤ time - j.updStateTime at hpassed
    have hatt' : Attached fs s job sa := { hatt with runTime := hnonneg }
    have hsame : ∀ sa', job.sa = some sa' → sa = sa' := fun sa' hsa' =>
      Option.some.inj (hsa.symm.trans hsa')
    have hweight : ∀ c q ps, bump (load s.jobs) sa .runTime d c q ps =
        load s.jobs c q ps - weight j c q ps + weight job c q ps := by
      intro c q ps
      rw [weight_some hsa, weight_some (j := job) hsa]
      unfold bump
      cases c with
      | numStartJobs =>
        simp only [reduceCtorEq, false_and, if_false, add_zero, amount, job]
        split_ifs <;> omega
      | runTime =>
        simp only [true_and, amount]
        split_ifs <;> omega
    dsimp only
    split_ifs with hcharge
    · have hstats := (h.charged.setJob i job).updShareAcctStats P sa .runTime d fun ps hps => by
        have hle := h.amount_le_load hj hsa .runTime hps
        simp only [amount] at hle
        constructor <;> linarith [htotal ps]
      have hend := hstats.updSAcctPriorityByPath P sa
      refine h.update hj hend rfl hweight (fun c q ps => ?_) (fun sa' hsa' => ?_)
        (.inr (.inl hatt'.start))
      · unfold bump
        split_ifs with hc
        · rw [hc.1, hc.2.1]
          linarith [htotal ps]
        · rw [add_zero]
          exact h.small c q ps
      obtain rfl := hsame sa' hsa'
      exact { hatt' with valid := hend.grows.valid hatt'.valid }
    · refine h.setJob hj (fun c q ps => ?_) (fun sa' hsa' => ?_) (.inr (.inl hatt'.start))
      · have hw := hweight c q ps
        rw [not_not.mp hcharge, bump_zero] at hw
        omega
      · obtain rfl := hsame sa' hsa'
        exact hatt'

omit [DecidableEq Q] in
theorem getElem?_set_self_of (hj : jobs[i]? = some j) (j' : FSJob Q) :
    (jobs.set i j')[i]? = some j' := by
  obtain ⟨hi, -⟩ := List.getElem?_eq_some_iff.mp hj
  exact List.getElem?_set_self hi

/-! ### Status changes -/

theorem inState_setState (st : Status) (new : NewState) : InState (setState st new.word) := by
  have hst : knownStatus (setState st new.word) = knownStatus new.word := known_setState _ _
  unfold InState
  rw [isPend_congr hst, isStart_congr hst, isFinish_congr hst]
  cases new <;> decide

/-- An attached job that is still started in its new state stays attached. -/
theorem Inv.setState_started (h : s.Inv fs) (hj : s.jobs[i]? = some j) (hsa : j.sa = some sa)
    {new : NewState} (hstart : isStart new.word = true) (hpend : isPend new.word = false)
    (hfin : isFinish new.word = false) :
    (s.setJob i { j with jStatus := setState j.jStatus new.word }).Inv fs := by
  have hst := known_setState j.jStatus new.word
  have hatt := h.attached j (mem_of_getElem? hj) sa hsa
  refine h.setJob hj (fun c q ps => rfl) (fun sa' hsa' => ?_) (inState_setState _ _)
  obtain rfl : sa = sa' := Option.some.inj (hsa.symm.trans hsa')
  exact { hatt with
    start := (isStart_congr hst).trans hstart
    notPend := (isPend_congr hst).trans hpend
    notFinish := (isFinish_congr hst).trans hfin }

/-- One whose run time has been taken back leaves with its slots. -/
theorem Inv.setState_leave (h : s.Inv fs) (hj : s.jobs[i]? = some j) (hsa : j.sa = some sa)
    (hzero : j.runTime = 0) (new : NewState) (job : FSJob Q)
    (hjob : job = { j with jStatus := setState j.jStatus new.word }) :
    ((s.setJob i job).detachedJobFromFSTree P i job).Inv fs ∧
      ((s.setJob i job).detachedJobFromFSTree P i job).jobs[i]? =
        some { job with sa := none } := by
  have hcharged : Charged s (s.setJob i job) (bump (load s.jobs) sa .runTime (-j.runTime)) := by
    simpa [hzero, bump_zero] using h.charged.setJob i job
  obtain ⟨hinv, hdj⟩ := h.detach P job hj hsa (by rw [hjob]; exact hsa) (by rw [hjob]) rfl
    hcharged (by rw [hjob]; exact inState_setState ..)
  refine ⟨hinv, ?_⟩
  rw [hdj]
  exact getElem?_set_self_of hj _

omit [DecidableEq Q] in
/-- The run time of a started job is taken back when it is not started any more. -/
theorem accumRunTime_stopped (r : CInt.Arith) (hstart : isStart j.jStatus = true)
    {new : Status} (hstop : isStart new = false) (time : Int) :
    (j.accumRunTime r new time).1.runTime = 0 := by
  have hrun : has new jobStatRun = false := by
    simp only [isStart, Bool.or_eq_false_iff] at hstop
    exact hstop.1.1
  simp [FSJob.accumRunTime, hrun, hstop, hstart]

/-- `jStatusChange` keeps the invariant; only a pending job becomes `PSUSP`. -/
theorem Inv.jStatusChange (h : s.Inv fs) (hj : s.jobs[i]? = some j) (new : NewState)
    (hnew : new = .psusp → isPend j.jStatus = true) (htime : s.Timely j time) :
    (s.jStatusChange P i j new time).Inv fs := by
  obtain ⟨rt, ut, d, heq⟩ := accumRunTime_eq (P j.queue).arith j new.word time
  have hacc := h.accumRunTime P hj new.word htime
  have hget : (s.accumRunTime P i j new.word time).jobs[i]? =
      some { j with runTime := rt, updStateTime := ut } := by
    rw [accumRunTime_jobs, heq]
    exact getElem?_set_self_of hj _
  unfold FSUsage.jStatusChange
  dsimp only
  by_cases hknown : knownStatus new.word = knownStatus j.jStatus
  · rw [if_pos hknown]
    exact h
  rw [if_neg hknown, heq]
  generalize s.accumRunTime P i j new.word time = t at hacc hget ⊢
  set job : FSJob Q := { j with
    runTime := rt
    updStateTime := ut
    jStatus := setState j.jStatus new.word }
  cases hsa : j.sa with
  | none =>
    -- A job that is not attached is charged to no account.
    have hset : ∀ x : FSJob Q, x.sa = none → x.jStatus = job.jStatus → (t.setJob i x).Inv fs :=
      fun x hx hxs => hacc.setJob_of_none hget hsa hx (hxs ▸ inState_setState _ _)
    have hdetach : (t.setJob i job).detachedJobFromFSTree P i job = t.setJob i job := by
      unfold detachedJobFromFSTree
      rw [show job.sa = none from hsa]
    have hset2 : ∀ x : FSJob Q, (t.setJob i job).setJob i x = t.setJob i x := by
      intro x
      unfold FSUsage.setJob
      simp
    rw [hdetach, hset2]
    split_ifs
    · exact hset job hsa rfl
    · exact hset job hsa rfl
    · exact hset job hsa rfl
    · exact hset _ rfl rfl
    · exact hset job hsa rfl
  | some sa =>
    have hatt := h.attached j (mem_of_getElem? hj) sa hsa
    rw [if_neg (by simp [hatt.notPend])]
    have hleave : isStart new.word = false → _ := fun hstop =>
      hacc.setState_leave P hget hsa (by
        have hrt := accumRunTime_stopped (P j.queue).arith hatt.start hstop time
        rwa [heq] at hrt) new job rfl
    cases new with
    | run => exact hacc.setState_started hget hsa rfl rfl rfl
    | rwait => exact hacc.setState_started hget hsa rfl rfl rfl
    | ssusp => exact hacc.setState_started hget hsa rfl rfl rfl
    | ususp => exact hacc.setState_started hget hsa rfl rfl rfl
    | psusp => exact absurd (hnew rfl) (by simp [hatt.notPend])
    | exit =>
      rw [if_pos (by decide), if_neg (by simp [hatt.notFinish])]
      exact (hleave rfl).1
    | done =>
      rw [if_pos (by decide), if_neg (by simp [hatt.notFinish])]
      exact (hleave rfl).1
    | pend =>
      rw [if_neg (by decide), if_pos (by rw [hatt.start]; rfl)]
      exact (hleave rfl).1.setJob_of_none (hleave rfl).2 rfl rfl
        (inState_setState j.jStatus .pend)

end FSUsage

end Volclava
