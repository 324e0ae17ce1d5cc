import Volclava.Sbatchd

/-!
# Exclusive jobs and the locks on their hosts

A host should be locked exactly while an unfinished exclusive job runs on it. Four handlers break
this. `do_switchjob` sets the exclusive bit of a job without locking anything. `refreshJob` replaces
the hosts and the bit of a job without unlocking what it had, and locks hosts for a job that is
already finished. `do_jobSetup` puts the bit back after `job_finish` gave up the locks. `do_newjob`
cannot undo its locks when `unlockHost_` fails.

- `Sbd.LocksFollow`: the law.
- `locks_follow`: it holds in every run in which none of the four happens.
- `switched_not_locked`: a switch to an exclusive queue.
-/

namespace Volclava

open List

variable {H : Type}

/-! ## The law -/

/-- The job needs its lock on the host. -/
def JobCard.Claims (j : JobCard H) (h : H) : Prop :=
  j.exclusive = true ∧ j.finished = false ∧ h ∈ j.toHosts

/-- A host is locked if and only if an unfinished exclusive job runs on it. -/
def Sbd.LocksFollow (s : Sbd H) : Prop := ∀ h, s.locked h = true ↔ ∃ j ∈ s.jobs, j.Claims h

/-- The jobs share a host only when neither is exclusive. -/
def JobCard.Apart (j k : JobCard H) : Prop :=
  ∀ h ∈ j.toHosts, h ∈ k.toHosts → j.exclusive = false ∧ k.exclusive = false

instance : Std.Symm (JobCard.Apart (H := H)) := ⟨fun _ _ h x hk hj => (h x hj hk).symm⟩

theorem not_claims_of_finished {j : JobCard H} (h : j.finished = true) (x : H) : ¬ j.Claims x :=
  fun hc => Bool.false_ne_true (hc.2.1.symm.trans h)

/-- Two jobs share a host only when neither is exclusive, the job about to start included. -/
def Sbd.Shares (s : Sbd H) (e : SbdEvent H) : Prop :=
  s.jobs.Pairwise JobCard.Apart ∧
    match e with
    | .newjob specs env => ∀ k ∈ s.jobs, k.jobId ≠ specs.jobId → (newCard specs env.now).Apart k
    | _ => True

/-! ## One job apart from the others -/

/-- A job with another id needs its lock on the host. -/
def Sbd.Others (s : Sbd H) (jobId : Nat) (h : H) : Prop :=
  ∃ k ∈ s.jobs, k.jobId ≠ jobId ∧ k.Claims h

variable {s : Sbd H} {jp : JobCard H}

theorem Sbd.Distinct.claims_iff (hd : s.Distinct) (hjp : jp ∈ s.jobs) (h : H) :
    (∃ j ∈ s.jobs, j.Claims h) ↔ jp.Claims h ∨ s.Others jp.jobId h := by
  constructor
  · rintro ⟨j, hj, hc⟩
    by_cases hid : j.jobId = jp.jobId
    · exact .inl (hd.eq_of_jobId hj hjp hid ▸ hc)
    · exact .inr ⟨j, hj, hid, hc⟩
  · rintro (hc | ⟨j, hj, -, hc⟩)
    · exact ⟨jp, hjp, hc⟩
    · exact ⟨j, hj, hc⟩

/-- Nobody else needs a host of an exclusive job. -/
theorem not_others (hs : s.jobs.Pairwise JobCard.Apart) (hjp : jp ∈ s.jobs)
    (he : jp.exclusive = true) {h : H} (hh : h ∈ jp.toHosts) :
    ¬ s.Others jp.jobId h := by
  rintro ⟨k, hk, hid, -, -, hkh⟩
  have hne : jp ≠ k := fun heq => hid (heq ▸ rfl)
  have hap := hs.forall hjp hk hne
  rw [(hap h hh hkh).1] at he
  cases he

variable {locked : H → Bool}

/-- The law after one job was changed: its own claims and those of the others. -/
theorem follow_of_mem {jobId : Nat} {jobs : List (JobCard H)} {jp' : JobCard H}
    (hmem : ∀ k, k ∈ jobs ↔ k = jp' ∨ k ∈ s.jobs ∧ k.jobId ≠ jobId)
    (hl : ∀ h, locked h = true ↔ jp'.Claims h ∨ s.Others jobId h) :
    Sbd.LocksFollow ⟨jobs, locked⟩ := by
  intro h
  simp only [hl, hmem, Sbd.Others, or_and_right, exists_or, exists_eq_left, and_assoc]

/-- The law after one job was dropped. -/
theorem follow_offList {jobId : Nat}
    (hl : ∀ h, locked h = true ↔ s.Others jobId h) :
    Sbd.LocksFollow ⟨offList jobId s.jobs, locked⟩ := by
  intro h
  simp only [hl, Sbd.Others, mem_offList, and_assoc]

/-- The law with a job written back that claims what it claimed before. -/
theorem Sbd.LocksFollow.set (hf : s.LocksFollow) (hd : s.Distinct) {jp jp' : JobCard H}
    (hjp : jp ∈ s.jobs) (hid : jp'.jobId = jp.jobId) (hc : ∀ h, jp'.Claims h ↔ jp.Claims h) :
    Sbd.LocksFollow { s with jobs := setCard jp' s.jobs } := by
  refine follow_of_mem (s := s) (fun k => mem_setCard hjp hid) fun h => ?_
  rw [hf h, hd.claims_iff hjp, hc]

variable [DecidableEq H]

/-! ## Giving up the locks of a job -/

variable {specs : JobSpecs H}

section Handlers

variable (hf : s.LocksFollow) (hd : s.Distinct) (hs : s.jobs.Pairwise JobCard.Apart)
include hf hd hs

/-- With the locks of an exclusive job given up, what is left is what the others need. -/
theorem others_iff_unlocked (hjp : jp ∈ s.jobs) (he : jp.exclusive = true) (h : H) :
    (s.locked h && decide (h ∉ jp.toHosts)) = true ↔ s.Others jp.jobId h := by
  rw [Bool.and_eq_true, decide_eq_true_iff, hf h, hd.claims_iff hjp]
  constructor
  · rintro ⟨hc | ho, hh⟩
    · exact absurd hc.2.2 hh
    · exact ho
  · intro ho
    exact ⟨.inr ho, fun hh => not_others hs hjp he hh ho⟩

/-- What `unlockHosts` leaves locked is what the others need. -/
theorem unlockHosts_others (hjp : jp ∈ s.jobs) (h : H) :
    (unlockHosts never jp jp.toHosts.length s.locked).2 h = true ↔ s.Others jp.jobId h := by
  rw [unlockHosts_snd jp le_rfl s.locked (show _ → ∀ j < _, never j = _ from fun _ _ _ => rfl),
    take_length]
  by_cases he : jp.exclusive = true
  · rw [← others_iff_unlocked hf hd hs hjp he]
    simp [he]
  · have hno : ¬ jp.Claims h := fun hc => he hc.1
    rw [Bool.eq_false_iff.mpr he, Bool.false_and, Bool.not_false, Bool.and_true, hf h,
      hd.claims_iff hjp, or_iff_right hno]

/-! ## The handlers -/

/-- `job_finish` keeps the law. -/
theorem Sbd.LocksFollow.finish (hjp : jp ∈ s.jobs) (report : Bool) (env : FinishEnv) :
    (jobFinish s jp report env).1.LocksFollow := by
  have ho := unlockHosts_others hf hd hs hjp
  rw [jobFinish]
  split_ifs
  · exact hf
  · dsimp only
    generalize hended : ({ (unlockHosts never jp jp.toHosts.length s.locked).1 with
      finished := true } : JobCard H) = ended
    have hid : ended.jobId = jp.jobId := by rw [← hended, unlockHosts_fst]
    have hfin : ended.finished = true := by rw [← hended]
    cases hc : (finishCard ended report env).1 with
    | none => exact follow_offList ho
    | some jp' =>
      have hjp' : jp'.jobId = jp.jobId ∧ jp'.finished = true := by
        rcases finishCard_some hc with rfl | rfl
        · exact ⟨hid, hfin⟩
        · exact ⟨hid, hfin⟩
      refine follow_of_mem (s := s) (fun k => mem_setCard hjp hjp'.1) fun x => ?_
      rw [ho, or_iff_right (not_claims_of_finished hjp'.2 x)]

/-- A switch keeps the law unless it makes a job exclusive. -/
theorem Sbd.LocksFollow.switch
    (hex : ∀ jp ∈ s.jobs, jp.jobId = specs.jobId → specs.exclusive = true → jp.exclusive = true)
    (windowsOk : Bool) : (doSwitchjob s specs windowsOk).LocksFollow := by
  rw [doSwitchjob]
  split
  · exact hf
  next jp hfind =>
    have hjp : jp ∈ s.jobs := mem_reverse.mp (find?_jobId hfind).1
    have hid := (find?_jobId hfind).2
    have hmem : ∀ k, k ∈ inJobLink (switchCard jp specs) (offList jp.jobId s.jobs) ↔
        k = switchCard jp specs ∨ k ∈ s.jobs ∧ k.jobId ≠ jp.jobId := fun k => by
      rw [mem_inJobLink, mem_offList]
    split_ifs with hfin hwin hun
    · exact hf
    · -- The job is no longer exclusive and its locks are given up.
      obtain ⟨he, he'⟩ := Bool.and_eq_true_iff.mp hun
      refine follow_of_mem hmem fun x => ?_
      have hno : ¬ (switchCard jp specs).Claims x := fun hc => by
        rw [show specs.exclusive = true from hc.1] at he'
        cases he'
      rw [foldl_unlock, others_iff_unlocked hf hd hs hjp he, or_iff_right hno]
    · -- The bit of the job does not change.
      refine follow_of_mem hmem fun x => ?_
      have heq : specs.exclusive = jp.exclusive := by
        have := hex jp hjp hid
        cases hj : jp.exclusive <;> cases hsp : specs.exclusive <;> simp_all
      rw [hf x, hd.claims_iff hjp]
      simp only [JobCard.Claims, switchCard, heq]
    · exact hf

end Handlers

/-- A refresh keeps what the job needed, and does not lock hosts for a finished job. -/
def Sbd.RefreshOk (s : Sbd H) (specs : JobSpecs H) : Prop :=
  ∀ jp ∈ s.jobs, jp.jobId = specs.jobId →
    (jp.exclusive = true → jp.finished = false →
      specs.exclusive = true ∧ ∀ h ∈ jp.toHosts, h ∈ specs.toHosts) ∧
    (specs.exclusive = true → jp.finished = false)

theorem Sbd.LocksFollow.refresh (hf : s.LocksFollow) (hd : s.Distinct)
    (hok : s.RefreshOk specs) : (refreshJob s specs).LocksFollow := by
  by_cases hany : ∃ jp ∈ s.jobs, jp.jobId = specs.jobId
  · obtain ⟨jp, hjp, hid⟩ := hany
    obtain ⟨hkeep, hlock⟩ := hok jp hjp hid
    have hjobs : (refreshJob s specs).jobs = setCard (refreshCard specs jp) s.jobs := by
      refine map_congr_left fun k hk => ?_
      have hid' : (refreshCard specs jp).jobId = specs.jobId := hid
      by_cases hk' : k.jobId = specs.jobId
      · rw [if_pos hk', if_pos (hk'.trans hid'.symm),
          hd.eq_of_jobId hk hjp (hk'.trans hid.symm)]
      · rw [if_neg hk', if_neg (hid' ▸ hk')]
    have hlocked : ∀ x, (refreshJob s specs).locked x = true ↔
        s.locked x = true ∨ specs.exclusive = true ∧ x ∈ specs.toHosts := by
      intro x
      have ha : s.jobs.any (·.jobId = specs.jobId) = true :=
        any_eq_true.mpr ⟨jp, hjp, by simpa using hid⟩
      simp only [refreshJob, ha, Bool.true_and]
      split_ifs with he
      · rw [lockLoop_never_iff]
        simp [he]
      · simp [he]
    show Sbd.LocksFollow ⟨(refreshJob s specs).jobs, (refreshJob s specs).locked⟩
    have hmem : ∀ k, k ∈ (refreshJob s specs).jobs ↔
        k = refreshCard specs jp ∨ k ∈ s.jobs ∧ k.jobId ≠ jp.jobId := fun k => by
      rw [hjobs]
      exact mem_setCard hjp (show (refreshCard specs jp).jobId = _ from rfl)
    refine follow_of_mem hmem fun x => ?_
    rw [hlocked, hf x, hd.claims_iff hjp]
    constructor
    · rintro ((⟨he, hun, hx⟩ | ho) | ⟨he, hx⟩)
      · exact .inl ⟨(hkeep he hun).1, hun, (hkeep he hun).2 x hx⟩
      · exact .inr ho
      · exact .inl ⟨he, hlock he, hx⟩
    · rintro (⟨he, -, hx⟩ | ho)
      · exact .inr ⟨he, hx⟩
      · exact .inl (.inr ho)
  · -- No job has this id, so nothing changes.
    have hno : ∀ jp ∈ s.jobs, jp.jobId ≠ specs.jobId := fun jp hjp hid => hany ⟨jp, hjp, hid⟩
    have heq : refreshJob s specs = s := by
      have ha : s.jobs.any (·.jobId = specs.jobId) = false :=
        any_eq_false.mpr fun jp hjp => by simpa using hno jp hjp
      have hmap :
          (s.jobs.map fun jp => if jp.jobId = specs.jobId then refreshCard specs jp else jp) =
            s.jobs := (map_congr_left fun jp hjp => if_neg (hno jp hjp)).trans (map_id' _)
      simp only [refreshJob, ha, hmap, Bool.false_and, Bool.false_eq_true, if_false]
    rw [heq]
    exact hf

/-- When `job_finish` gives up its locks and then fails, the card is kept as a finished one. -/
theorem jobFinish_false {report : Bool} {env : FinishEnv} (hact : jp.actPid = false)
    (h : (jobFinish s jp report env).2 = false) :
    (env.statusJob = true → env.fork = false) ∧ ∃ jp' : JobCard H, jp'.jobId = jp.jobId ∧
      jp'.finished = true ∧ (jobFinish s jp report env).1.jobs = setCard jp' s.jobs := by
  have hno : ¬ (report && jp.actPid) = true := by simp [hact]
  unfold jobFinish at h ⊢
  rw [if_neg hno] at h ⊢
  obtain ⟨hkept, hcall⟩ := finishCard_false h
  refine ⟨hcall, { (unlockHosts never jp jp.toHosts.length s.locked).1 with finished := true }, ?_,
    rfl, by simp only [hkept]⟩
  rw [unlockHosts_fst]

/-- A set-up report keeps the law unless the card of an exclusive job is put back. -/
theorem Sbd.LocksFollow.setup (hf : s.LocksFollow) (hd : s.Distinct)
    (hs : s.jobs.Pairwise JobCard.Apart) {setup : JobSetup} {env : FinishEnv}
    (hok : ∀ jp ∈ s.jobs, jp.jobId = setup.jobId → jp.exclusive = true →
      has setup.jStatus jobStatRun = false → env.statusJob = true ∧ env.fork = true) :
    (doJobSetup s setup env).LocksFollow := by
  rw [doJobSetup]
  split
  · exact hf
  next jp hfind =>
    obtain ⟨hjp, hid⟩ := find?_jobId hfind
    split_ifs with hact hrun hst hpre
    · exact hf
    · exact hf.set hd hjp rfl fun _ => Iff.rfl
    · exact hf.set hd hjp rfl fun _ => Iff.rfl
    · exact hf
    -- The card with the reported end, as `job_finish` finds it.
    · dsimp only
      generalize hended : ({ jp with reasons := setup.reason, jStatus := setup.jStatus } :
        JobCard H) = ended
      have hid' : ended.jobId = jp.jobId := hended ▸ rfl
      have hap : (setCard ended s.jobs).Pairwise JobCard.Apart :=
        pairwise_setCard hd hjp hid' (fun _ hk => hended ▸ hk) (fun _ hk => hended ▸ hk) hs
      have hf' : Sbd.LocksFollow { s with jobs := setCard ended s.jobs } :=
        hf.set hd hjp hid' fun _ => hended ▸ Iff.rfl
      have hd' : Sbd.Distinct { s with jobs := setCard ended s.jobs } := nodup_setCard hd ended
      have hmem : ended ∈ setCard ended s.jobs := (mem_setCard hjp hid').mpr (.inl rfl)
      have hfin := hf'.finish hd' hap hmem true env
      split_ifs with hr
      · exact hfin
      · -- The call failed, so the job is not exclusive: putting it back adds no claim.
        have hact' : ended.actPid = false := hended ▸ Bool.eq_false_iff.mpr hact
        obtain ⟨hcall, kept, hkid, hkfin, hjobs⟩ :=
          jobFinish_false hact' (Bool.eq_false_iff.mpr hr)
        have hne : jp.exclusive = false := Bool.eq_false_iff.mpr fun he => by
          obtain ⟨h1, h2⟩ := hok jp hjp hid he (Bool.eq_false_iff.mpr hrun)
          rw [hcall h1] at h2
          cases h2
        have hkept :
            kept ∈ (jobFinish { s with jobs := setCard ended s.jobs } ended true env).1.jobs := by
          rw [hjobs]
          exact (mem_setCard hmem hkid).mpr (.inl rfl)
        have hdis :
            (jobFinish { s with jobs := setCard ended s.jobs } ended true env).1.Distinct := by
          rw [Sbd.Distinct, hjobs]
          exact nodup_setCard hd' kept
        refine hfin.set hdis hkept (hid'.symm.trans hkid.symm) fun x => ⟨fun hc => ?_, fun hc => ?_⟩
        · rw [hc.1] at hne
          cases hne
        · exact absurd hc (not_claims_of_finished hkfin x)

/-! ## Starting a job -/

/-- `do_newjob` can undo its locks when it has to. -/
def NewEnv.Undoes (env : NewEnv) (num : Nat) : Prop :=
  (∀ i < num, env.lockFails i = false) ∧ env.initJobCard = true ∧ env.jobExec = true ∨
    ∀ i < num, env.undoFails i = false ∧ env.unlockFails i = false

variable {env : NewEnv}

/-- The clean-up takes away what was locked, and only that. -/
theorem cleanup_eq (jp : JobCard H)
    (hun : jp.exclusive = true → ∀ i < jp.toHosts.length, env.unlockFails i = false)
    (locked : H → Bool) (x : H) :
    cleanup env jp locked x = (locked x && !(jp.exclusive && decide (x ∈ jp.toHosts))) := by
  rw [cleanup, unlockHosts_snd jp le_rfl locked hun, take_length]

/-- A start that fails while locking leaves the locks as they were. -/
theorem cleanup_failed_lock {n : Nat} (hn : n < jp.toHosts.length)
    {l : H → Bool} (hl : ∀ x, l x = true ↔ locked x = true ∨ x ∈ jp.toHosts.take n)
    (hfree : ∀ x ∈ jp.toHosts, locked x = false) (he : jp.exclusive = true)
    (hun : ∀ i < jp.toHosts.length, env.undoFails i = false ∧ env.unlockFails i = false) (x : H) :
    cleanup env (unlockHosts env.undoFails jp n l).1 (unlockHosts env.undoFails jp n l).2 x =
      locked x := by
  have hundo : jp.exclusive = true → ∀ j < n, env.undoFails j = false := fun _ j hj =>
    (hun j (hj.trans hn)).1
  rw [unlockHosts_fst]
  refine (cleanup_eq _ ?_ _ x).trans ?_
  · exact fun _ i hi => (hun i hi).2
  rw [unlockHosts_snd jp hn.le l hundo]
  by_cases hx : x ∈ jp.toHosts
  · -- One of the job's hosts: not locked before, and not any more.
    rw [hfree x hx]
    by_cases ht : x ∈ jp.toHosts.take n
    · simp [he, ht]
    · have hlx : l x = false := Bool.eq_false_iff.mpr fun hlx => by
        rcases (hl x).mp hlx with h | h
        · rw [hfree x hx] at h
          cases h
        · exact ht h
      rw [hlx, Bool.false_and, Bool.false_and]
  · have ht : x ∉ jp.toHosts.take n := fun ht => hx (mem_of_mem_take ht)
    have hlx : l x = locked x := Bool.eq_iff_iff.mpr ((hl x).trans (or_iff_left ht))
    simp [hx, ht, hlx]

/-- A start that fails after locking leaves the locks as they were. -/
theorem cleanup_locked {l : H → Bool}
    (hl : ∀ x, l x = true ↔ locked x = true ∨ jp.exclusive = true ∧ x ∈ jp.toHosts)
    (hfree : jp.exclusive = true → ∀ x ∈ jp.toHosts, locked x = false)
    (hun : jp.exclusive = true → ∀ i < jp.toHosts.length, env.unlockFails i = false) (x : H) :
    cleanup env jp l x = locked x := by
  rw [cleanup_eq jp hun]
  by_cases hc : jp.exclusive = true ∧ x ∈ jp.toHosts
  · simp [hc.1, hc.2, hfree hc.1 x hc.2]
  · have hlx : l x = locked x := Bool.eq_iff_iff.mpr ((hl x).trans (or_iff_left hc))
    have hno : (jp.exclusive && decide (x ∈ jp.toHosts)) = false := by
      rw [Bool.eq_false_iff]
      simpa using hc
    rw [hlx, hno, Bool.not_false, Bool.and_true]

/-- Starting a job keeps the law when its locks can be undone. -/
theorem Sbd.LocksFollow.new (hf : s.LocksFollow)
    (hs : ∀ k ∈ s.jobs, k.jobId ≠ specs.jobId → (newCard specs env.now).Apart k)
    (hun : specs.exclusive = true → env.Undoes specs.toHosts.length) :
    (doNewjob s specs env).LocksFollow := by
  by_cases hany : s.jobs.any (·.jobId = specs.jobId) = true
  · rw [doNewjob, if_pos hany]
    exact hf
  by_cases hcalloc : env.calloc = true
  swap
  · rw [doNewjob, if_neg hany, if_neg hcalloc]
    exact hf
  have hnew : ∀ k ∈ s.jobs, k.jobId ≠ specs.jobId := fun k hk hid =>
    hany (any_eq_true.mpr ⟨k, hk, by simpa using hid⟩)
  -- The hosts of an exclusive job are free: nobody else runs there.
  have hfree : specs.exclusive = true → ∀ x ∈ specs.toHosts, s.locked x = false := by
    intro he x hx
    refine Bool.eq_false_iff.mpr fun hlx => ?_
    obtain ⟨k, hk, -, -, hkx⟩ := (hf x).mp hlx
    have hne : specs.exclusive = false := (hs k hk (hnew k hk) x hx hkx).1
    rw [he] at hne
    cases hne
  have hback : ∀ l : H → Bool, (∀ x, l x = s.locked x) → Sbd.LocksFollow { s with locked := l } :=
    fun l hl => (funext hl : l = s.locked) ▸ hf
  rw [doNewjob, if_neg hany, if_pos hcalloc]
  rcases lockHosts_cases env.lockFails env.undoFails (newCard specs env.now) s.locked with
    ⟨l, hlock, hl⟩ | ⟨he, n, hn, l, hfail, hlock, hl⟩
  · -- All hosts are locked. The job runs, or its locks are given up again.
    have hclean : ∀ jp : JobCard H, jp.exclusive = specs.exclusive → jp.toHosts = specs.toHosts →
        ¬ (env.initJobCard = true ∧ env.jobExec = true) → ∀ x, cleanup env jp l x = s.locked x := by
      intro jp hexcl hhosts hno
      refine cleanup_locked (hexcl.symm ▸ hhosts.symm ▸ hl) (hexcl.symm ▸ hhosts.symm ▸ hfree) ?_
      intro he i hi
      rw [hexcl] at he
      rw [hhosts] at hi
      rcases hun he with ⟨-, hinit, hexec⟩ | hun
      · exact absurd ⟨hinit, hexec⟩ hno
      · exact (hun i hi).2
    have hnew' : ∀ k ∈ s.jobs, k.jobId ≠ (startCard specs (newCard specs env.now)).jobId := hnew
    simp only [hlock, if_true]
    split_ifs with hinit hexec
    · have hmem : ∀ k, k ∈ inJobLink (startCard specs (newCard specs env.now)) s.jobs ↔
          k = startCard specs (newCard specs env.now) ∨ k ∈ s.jobs ∧ k.jobId ≠ specs.jobId := by
        intro k
        rw [mem_inJobLink]
        exact or_congr_right (iff_self_and.mpr (hnew k))
      refine follow_of_mem hmem fun x => ?_
      rw [hl x, hf x, or_comm]
      refine or_congr ?_ ?_
      · exact and_congr_right fun _ => (and_iff_right rfl).symm
      · exact exists_congr fun k => and_congr_right fun hk => (and_iff_right (hnew k hk)).symm
    · rw [offList_inJobLink _ hnew']
      exact hback _ (hclean _ rfl rfl fun hc => hexec hc.2)
    · exact hback _ (hclean _ rfl rfl fun hc => hinit hc.1)
  · -- A lock failed, so the locks taken before it are given up.
    have hun' : ∀ i < specs.toHosts.length,
        env.undoFails i = false ∧ env.unlockFails i = false := by
      rcases hun he with ⟨hlf, -⟩ | hun
      · rw [hlf n hn] at hfail
        cases hfail
      · exact hun
    simp only [hlock, Bool.false_eq_true, if_false]
    exact hback _ (cleanup_failed_lock hn hl (hfree he) he hun')

/-! ## Runs -/

/-- The event is none of those that leave a wrong lock behind. -/
def Sbd.LockOk (s : Sbd H) : SbdEvent H → Prop
  | .newjob specs env => specs.exclusive = true → env.Undoes specs.toHosts.length
  | .switchjob specs _ =>
    ∀ jp ∈ s.jobs, jp.jobId = specs.jobId → specs.exclusive = true → jp.exclusive = true
  | .probe specs => Run.Along refreshJob Sbd.RefreshOk s specs
  | .jobSetup setup env =>
    ∀ jp ∈ s.jobs, jp.jobId = setup.jobId → jp.exclusive = true →
      has setup.jStatus jobStatRun = false → env.statusJob = true ∧ env.fork = true
  | .finish .. | .runs .. => True

/-- One event keeps the law. -/
theorem Sbd.LocksFollow.step {e : SbdEvent H} (hf : s.LocksFollow) (hd : s.Distinct)
    (hs : s.Shares e) (hok : s.LockOk e) : (s.step e).LocksFollow := by
  cases e with
  | newjob specs env => exact hf.new hs.2 hok
  | switchjob specs windowsOk => exact hf.switch hd hs.1 hok windowsOk
  | probe specs =>
    have hstep : ∀ (s : Sbd H) (sp : JobSpecs H), s.RefreshOk sp → s.LocksFollow ∧ s.Distinct →
        (refreshJob s sp).LocksFollow ∧ (refreshJob s sp).Distinct := fun s sp hok h =>
      ⟨h.1.refresh h.2 hok, h.2.step (.probe [sp])⟩
    exact (Run.inv_run hstep ⟨hf, hd⟩ hok).1
  | finish jobId report env =>
    simp only [Sbd.step]
    split
    · exact hf
    next jp hfind => exact hf.finish hd hs.1 (find?_jobId hfind).1 report env
  | jobSetup setup env => exact hf.setup hd hs.1 hok
  | runs jobId jStatus reasons actPid userJobSucc =>
    simp only [Sbd.step]
    split
    · exact hf
    next jp hfind => exact hf.set hd (find?_jobId hfind).1 rfl fun _ => Iff.rfl

/-- **Locks follow exclusive jobs.** Take any events from an empty sbatchd, with jobs sharing hosts
only when neither is exclusive and no event that leaves a wrong lock behind. In every state on the
way, a host is locked if and only if an unfinished exclusive job runs on it. -/
theorem locks_follow {es : List (SbdEvent H)}
    (h : Run.Along Sbd.step (fun s e => s.Shares e ∧ s.LockOk e) Sbd.init es) (n : Nat) :
    (Run.run Sbd.step Sbd.init (es.take n)).LocksFollow := by
  have hinit : (Sbd.init : Sbd H).LocksFollow ∧ (Sbd.init : Sbd H).Distinct := by
    refine ⟨fun x => ?_, nodup_nil⟩
    simp [Sbd.init]
  have hstep : ∀ (s : Sbd H) e, s.Shares e ∧ s.LockOk e → s.LocksFollow ∧ s.Distinct →
      (s.step e).LocksFollow ∧ (s.step e).Distinct := fun s e hok h =>
    ⟨h.1.step h.2 hok.1 hok.2, h.2.step e⟩
  exact (Run.inv_take hstep hinit h n).1

/-! ## A switch to an exclusive queue -/

instance (j k : JobCard H) : Decidable (j.Apart k) :=
  inferInstanceAs (Decidable (∀ h ∈ j.toHosts, h ∈ k.toHosts → _))

instance (s : Sbd H) (e : SbdEvent H) : Decidable (s.Shares e) := by
  cases e <;> unfold Sbd.Shares <;> infer_instance

instance (env : NewEnv) (num : Nat) : Decidable (env.Undoes num) :=
  inferInstanceAs (Decidable (_ ∨ _))

instance (s : Sbd H) (specs : JobSpecs H) : Decidable (s.RefreshOk specs) :=
  inferInstanceAs (Decidable (∀ jp ∈ s.jobs, jp.jobId = specs.jobId → _))

instance (s : Sbd H) (e : SbdEvent H) : Decidable (s.LockOk e) := by
  cases e <;> unfold Sbd.LockOk <;> infer_instance

/-- An exclusive job on two hosts starts, is refreshed and finishes. -/
def lockedRun : List (SbdEvent Nat) :=
  [.newjob (plainSpecs 1 5 [7, 8] true) (.fine 10), .probe [plainSpecs 1 6 [7, 8] true],
    .runs 1 jobStatDone 0 false false, .finish 1 true ⟨true, true⟩]

theorem locked_then_free :
    Run.Along Sbd.step (fun s e => s.Shares e ∧ s.LockOk e) Sbd.init lockedRun ∧
      ∀ n, (Run.run Sbd.step Sbd.init (lockedRun.take n)).LocksFollow :=
  have h : Run.Along Sbd.step (fun s e => s.Shares e ∧ s.LockOk e) Sbd.init lockedRun := by decide
  ⟨h, locks_follow h⟩

/-- A job starts in a shared queue and is switched to an exclusive one. Nothing fails and no host is
shared, but the host of the job is not locked. -/
theorem switched_not_locked :
    Run.Along Sbd.step Sbd.Shares Sbd.init
      [.newjob (plainSpecs 1 5 [7] false) (.fine 10), .switchjob (plainSpecs 1 5 [7] true) true] ∧
    ¬ (Run.run Sbd.step Sbd.init [.newjob (plainSpecs 1 5 [7] false) (.fine 10),
      .switchjob (plainSpecs 1 5 [7] true) true]).LocksFollow := by
  refine ⟨by decide, fun h => ?_⟩
  have hclaim : ∃ j ∈ (Run.run Sbd.step Sbd.init [.newjob (plainSpecs 1 5 [7] false) (.fine 10),
      .switchjob (plainSpecs 1 5 [7] true) true]).jobs, j.Claims 7 := by
    refine exists_mem_cons_iff .. |>.mpr (.inl ⟨rfl, rfl, ?_⟩)
    exact mem_singleton.mpr rfl
  have hfree : (Run.run Sbd.step Sbd.init [.newjob (plainSpecs 1 5 [7] false) (.fine 10),
      .switchjob (plainSpecs 1 5 [7] true) true]).locked 7 = false := by decide
  rw [(h 7).mpr hclaim] at hfree
  cases hfree

end Volclava
