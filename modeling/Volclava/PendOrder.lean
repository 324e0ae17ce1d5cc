import Volclava.PendList

/-!
# The order of the pending list

The scheduler takes the pending list apart into segments: the jobs of a fairshare queue, or
the jobs of all other queues of one priority. It relies on each segment being one run of the
list. `inPendJobList` looks at one entry at a time, and between segments of one priority it
goes by `posId` alone. So the runs stay whole exactly when `posId` cannot tell two queues of a
segment apart (`PosOk`).

- `scan_spec`: what the loop of `inPendJobList` has passed, and where it stopped.
- `insertPend_inv`: one insertion keeps the order, when `PosOk` holds.
- `segmented_iff_posOk`: every run of insertions and removals keeps the list sorted and the segments
  whole, if and only if `PosOk` holds.
-/

namespace Volclava

open Runs List

variable {Q U : Type} [DecidableEq Q]

/-! ## Where the loop stops -/

section Scan

variable (c : PendConf Q) (job : PendJob Q U) (t : Int)

/-- An entry the loop goes past. -/
def Passes (jp : PendJob Q U) : Prop :=
  (c.queue jp.qPtr).priority ≤ (c.queue job.qPtr).priority ∧
    ((c.queue jp.qPtr).priority = (c.queue job.qPtr).priority →
      jobsOnSameSegment c.queue job jp = false →
      (c.queue job.qPtr).posId ≤ (c.queue jp.qPtr).posId)

/-- An entry before which the loop stops. -/
def StopsAt (jp : PendJob Q U) : Prop :=
  (c.queue job.qPtr).priority < (c.queue jp.qPtr).priority ∨
    ((c.queue jp.qPtr).priority = (c.queue job.qPtr).priority ∧
      jobsOnSameSegment c.queue job jp = false ∧
      (c.queue jp.qPtr).posId < (c.queue job.qPtr).posId) ∨
    jobsOnSameSegment c.queue job jp = true

variable {c job t}

theorem passes_of_same {jp : PendJob Q U} (h : jobsOnSameSegment c.queue job jp = true) :
    Passes c job jp :=
  ⟨(priority_of_onSameSegment h).ge, fun _ hs => by rw [h] at hs; cases hs⟩

/-- What a step of the loop tells about the entry it is at. -/
theorem visit_cases (c : PendConf Q) (job jp : PendJob Q U) (t : Int) :
    match visit c job jp t with
    | .stop => StopsAt c job jp
    | .skip => Passes c job jp ∧ (jobsOnSameSegment c.queue job jp = true →
        (c.queue job.qPtr).interactiveAhead = true)
    | .other => False
    | .own => jobsOnSameSegment c.queue job jp = true := by
  unfold visit StopsAt Passes
  dsimp only
  by_cases hlt : (c.queue job.qPtr).priority < (c.queue jp.qPtr).priority
  · rw [if_pos hlt]
    exact .inl hlt
  rw [if_neg hlt]
  by_cases heq : (c.queue job.qPtr).priority = (c.queue jp.qPtr).priority
  · rw [if_pos heq]
    cases hs : jobsOnSameSegment c.queue job jp with
    | false =>
      -- neither queue fairshare is impossible here, so `lastJob` is never set
      have hfs := fs_of_not_onSameSegment heq hs
      rw [if_pos (by rfl), if_pos hfs]
      split_ifs with hpos
      · exact .inr (.inl ⟨heq.symm, rfl, hpos⟩)
      · exact ⟨⟨heq.ge, fun _ _ => not_lt.1 hpos⟩, by simp⟩
    | true =>
      rw [if_neg (by simp)]
      split_ifs with hia
      · simp only [Bool.and_eq_true] at hia
        exact ⟨⟨heq.ge, by simp⟩, fun _ => hia.1⟩
      · simp
      · simp
      · simp
  · rw [if_neg heq]
    refine ⟨⟨by omega, fun h => absurd h.symm heq⟩, fun h => ?_⟩
    exact absurd (priority_of_onSameSegment h) heq

/-- Where the loop leaves the job: all of `l₁` has been passed, and before `l₂` it stopped,
either at its first entry or because its own segment ended there. -/
structure Split (c : PendConf Q) (job : PendJob Q U) (l₁ l₂ : List (PendJob Q U)) : Prop where
  passes : ∀ x ∈ l₁, Passes c job x
  between : ∀ x y, [x, y].Sublist l₁ → jobsOnSameSegment c.queue job x = true →
    jobsOnSameSegment c.queue job y = true ∨ (c.queue job.qPtr).interactiveAhead = true
  stop : ∀ y ∈ l₂.head?, StopsAt c job y ∨
    ((∃ x ∈ l₁.getLast?, jobsOnSameSegment c.queue job x = true) ∧
      jobsOnSameSegment c.queue job y = false)

theorem Split.nil (l₂ : List (PendJob Q U)) (h : ∀ y ∈ l₂.head?, StopsAt c job y) :
    Split c job [] l₂ :=
  ⟨by simp, fun x y hs => by simp at hs, fun y hy => .inl (h y hy)⟩

/-- An entry passed before the others. -/
theorem Split.cons {l₁ l₂ : List (PendJob Q U)} {jp : PendJob Q U} (h : Split c job l₁ l₂)
    (hp : Passes c job jp)
    (hnext : jobsOnSameSegment c.queue job jp = true →
      (c.queue job.qPtr).interactiveAhead = true ∨
      ∀ y ∈ l₁.head?, jobsOnSameSegment c.queue job y = true) : Split c job (jp :: l₁) l₂ := by
  refine ⟨forall_mem_cons.2 ⟨hp, h.passes⟩, ?_, ?_⟩
  · intro x y hs hx
    rcases sublist_cons_iff.1 hs with hs | ⟨r, heq, hr⟩
    · exact h.between x y hs hx
    · obtain ⟨rfl, rfl⟩ : x = jp ∧ [y] = r := by simpa using heq
      rcases hnext hx with hia | hhead
      · exact .inr hia
      · -- the next entry is on the segment too, and from there on `between` goes
        cases l₁ with
        | nil => cases hr
        | cons z l₁ =>
          have hz := hhead z rfl
          rcases mem_cons.1 (singleton_sublist.1 hr) with rfl | hy
          · exact .inl hz
          · exact h.between z y ((singleton_sublist.2 hy).cons_cons z) hz
  · intro y hy
    refine (h.stop y hy).imp_right ?_
    rintro ⟨⟨x, hx, hsame⟩, hy⟩
    refine ⟨⟨x, ?_, hsame⟩, hy⟩
    cases l₁ with
    | nil => cases hx
    | cons z l₁ => simpa [List.getLast?_cons_cons] using hx

/-- **What the loop of `inPendJobList` does.** -/
theorem scan_spec (c : PendConf Q) (job : PendJob Q U) (t : Int) (l : List (PendJob Q U)) :
    ∃ l₁ l₂, l = l₁ ++ l₂ ∧ (∀ i, scan c job t l i none = (i + l₁.length, none)) ∧
      Split c job l₁ l₂ := by
  induction l with
  | nil => exact ⟨[], [], rfl, fun _ => rfl, Split.nil [] (by simp)⟩
  | cons jp l ih =>
    have hv := visit_cases c job jp t
    obtain ⟨l₁, l₂, hl, hscan, hsplit⟩ := ih
    have hnext : ∀ i, scan c job t l (i + 1) none = (i + (jp :: l₁).length, none) := by
      intro i
      rw [hscan, length_cons, Nat.add_right_comm]
      rfl
    simp only [scan]
    cases hvis : visit c job jp t with
    | stop =>
      rw [hvis] at hv
      refine ⟨[], jp :: l, rfl, fun _ => rfl, Split.nil _ ?_⟩
      intro y hy
      obtain rfl : jp = y := by simpa using hy
      exact hv
    | skip =>
      rw [hvis] at hv
      exact ⟨jp :: l₁, l₂, by rw [hl]; rfl, hnext, hsplit.cons hv.1 fun hs => .inl (hv.2 hs)⟩
    | other => rw [hvis] at hv; exact hv.elim
    | own =>
      rw [hvis] at hv
      have hp := passes_of_same hv
      by_cases hhead : l.head?.all (jobsOnSameSegment c.queue job) = true
      · simp only [if_pos hhead]
        refine ⟨jp :: l₁, l₂, by rw [hl]; rfl, hnext, hsplit.cons hp fun _ => .inr ?_⟩
        intro y hy
        cases l₁ with
        | nil => cases hy
        | cons z l₁ =>
          obtain rfl : z = y := by simpa using hy
          simpa [hl] using hhead
      · simp only [if_neg hhead]
        refine ⟨[jp], l, rfl, fun _ => rfl, ⟨?_, ?_, ?_⟩⟩
        · simpa using hp
        · intro x y hs
          have := hs.length_le
          simp at this
        · intro y hy
          refine .inr ⟨⟨jp, rfl, hv⟩, ?_⟩
          rw [Option.mem_def.1 hy] at hhead
          simpa using hhead

end Scan

/-! ## What keeps the segments whole -/

/-- Two queues of one segment compare alike with every queue of another segment that has the
same priority, and a queue that puts interactive jobs ahead shares its position with no such
queue. -/
def PosOk (queue : Q → QData) : Prop :=
  (∀ q1 q2 q3, onSameSegment queue q1 q2 = true → onSameSegment queue q1 q3 = false →
    (queue q1).priority = (queue q3).priority →
    ((queue q3).posId < (queue q1).posId ↔ (queue q3).posId < (queue q2).posId) ∧
    ((queue q1).posId < (queue q3).posId ↔ (queue q2).posId < (queue q3).posId)) ∧
  ∀ q1 q3, onSameSegment queue q1 q3 = false → (queue q1).priority = (queue q3).priority →
    (queue q1).posId = (queue q3).posId → (queue q1).interactiveAhead = false

variable {l : List (PendJob Q U)}

section Order

variable {queue : Q → QData}

/-- Whether one entry may stand before another in `forw` order. -/
def Before (queue : Q → QData) (a b : PendJob Q U) : Prop :=
  (queue a.qPtr).priority < (queue b.qPtr).priority ∨
    ((queue a.qPtr).priority = (queue b.qPtr).priority ∧
      (jobsOnSameSegment queue a b = true ∨ (queue b.qPtr).posId ≤ (queue a.qPtr).posId))

/-- The list is ordered by priority and position, and its segments are runs. -/
structure OrdInv (queue : Q → QData) (l : List (PendJob Q U)) : Prop where
  before : l.Pairwise (Before queue)
  runs : Contiguous (fun a b => jobsOnSameSegment queue a b = true) l

theorem same_equiv (queue : Q → QData) :
    Equivalence fun a b : PendJob Q U => jobsOnSameSegment queue a b = true :=
  ⟨fun a => (onSameSegment_equiv queue).refl a.qPtr, fun h => (onSameSegment_equiv queue).symm h,
    fun h₁ h₂ => (onSameSegment_equiv queue).trans h₁ h₂⟩

variable {a b : PendJob Q U}

theorem same_symm (h : jobsOnSameSegment queue a b = true) :
    jobsOnSameSegment queue b a = true := (same_equiv queue).symm h

theorem same_trans {a b d : PendJob Q U} (h : jobsOnSameSegment queue a b = true)
    (h' : jobsOnSameSegment queue b d = true) : jobsOnSameSegment queue a d = true :=
  (same_equiv queue).trans h h'

/-- Between different segments of one priority, later entries have lower positions. -/
theorem Before.posId_le (h : Before queue a b)
    (hp : (queue b.qPtr).priority ≤ (queue a.qPtr).priority)
    (hs : jobsOnSameSegment queue a b = false) :
    (queue b.qPtr).posId ≤ (queue a.qPtr).posId := by
  rcases h with h | ⟨-, h | h⟩
  · omega
  · rw [hs] at h; cases h
  · exact h

theorem Before.priority_le (h : Before queue a b) :
    (queue a.qPtr).priority ≤ (queue b.qPtr).priority := by
  rcases h with h | h
  · exact h.le
  · exact h.1.le

/-- An entry of the job's segment stands for the job when it comes to entries after it. -/
theorem Before.of_same (hok : PosOk queue) {a b x : PendJob Q U}
    (hab : jobsOnSameSegment queue a b = true) (h : Before queue a x) : Before queue b x := by
  have hp := priority_of_onSameSegment hab
  rcases h with h | ⟨heq, h⟩
  · exact .inl (hp ▸ h)
  · refine .inr ⟨hp ▸ heq, ?_⟩
    cases hax : jobsOnSameSegment queue a x with
    | true => exact .inl (same_trans (same_symm hab) hax)
    | false =>
      rw [hax] at h
      have h := h.resolve_left (by simp)
      have hsign := (hok.1 a.qPtr b.qPtr x.qPtr hab hax heq).2
      exact .inr (not_lt.1 fun hlt => absurd (hsign.2 hlt) (not_lt.2 h))

variable {c : PendConf Q} {job : PendJob Q U} {l₁ l₂ : List (PendJob Q U)}

/-- Every entry the loop has passed may stand before the job. -/
theorem Split.before (hsplit : Split c job l₁ l₂) : ∀ x ∈ l₁, Before c.queue x job := by
  intro x hx
  obtain ⟨hle, hpos⟩ := hsplit.passes x hx
  rcases hle.lt_or_eq with hlt | heq
  · exact .inl hlt
  · refine .inr ⟨heq, ?_⟩
    cases hs : jobsOnSameSegment c.queue job x with
    | true => exact .inl (same_symm hs)
    | false => exact .inr (hpos heq hs)

variable (hok : PosOk c.queue)
include hok

/-- When the loop stops at an entry of another segment with a lower position, all later entries
of the same priority are of other segments and have lower positions too. -/
theorem posId_lt_of_stop {y z : PendJob Q U}
    (heq : (c.queue y.qPtr).priority = (c.queue job.qPtr).priority)
    (hs : jobsOnSameSegment c.queue job y = false)
    (hpos : (c.queue y.qPtr).posId < (c.queue job.qPtr).posId) (hz : Before c.queue y z)
    (hp : (c.queue z.qPtr).priority = (c.queue job.qPtr).priority) :
    jobsOnSameSegment c.queue job z = false ∧
      (c.queue z.qPtr).posId < (c.queue job.qPtr).posId := by
  cases hyz : jobsOnSameSegment c.queue y z with
  | true =>
    have hys := not_onSameSegment_symm hs
    have hsign := (hok.1 y.qPtr z.qPtr job.qPtr hyz hys heq).2
    exact ⟨not_onSameSegment_symm (not_onSameSegment hyz hys), hsign.1 hpos⟩
  | false =>
    have hle := hz.posId_le (by omega) hyz
    refine ⟨?_, lt_of_le_of_lt hle hpos⟩
    cases h : jobsOnSameSegment c.queue job z with
    | false => rfl
    | true =>
      have hsign := (hok.1 job.qPtr z.qPtr y.qPtr h hs heq.symm).1
      exact absurd (hsign.1 hpos) (not_lt.2 hle)

section

variable (hinv : OrdInv c.queue (l₁ ++ l₂)) (hsplit : Split c job l₁ l₂)
include hinv hsplit

/-- The job may stand before every entry that is left. -/
theorem Split.after : ∀ y ∈ l₂, Before c.queue job y := by
  obtain ⟨-, h₂, h₁₂⟩ := pairwise_append.1 hinv.before
  cases l₂ with
  | nil => simp
  | cons y₀ l =>
    intro y hy
    have hy₀ : y = y₀ ∨ Before c.queue y₀ y := by
      rcases mem_cons.1 hy with rfl | hy
      · exact .inl rfl
      · exact .inr ((pairwise_cons.1 h₂).1 y hy)
    rcases hsplit.stop y₀ rfl with (hlt | ⟨heq, hs, hpos⟩ | hs) | ⟨⟨x, hx, hs⟩, -⟩
    · rcases hy₀ with rfl | hb
      · exact .inl hlt
      · exact .inl (lt_of_lt_of_le hlt hb.priority_le)
    · rcases hy₀ with rfl | hb
      · exact .inr ⟨heq.symm, .inr hpos.le⟩
      · rcases (heq ▸ hb.priority_le).lt_or_eq with hlt | heq'
        · exact .inl hlt
        · exact .inr ⟨heq', .inr (posId_lt_of_stop hok heq hs hpos hb heq'.symm).2.le⟩
    · rcases hy₀ with rfl | hb
      · exact .inr ⟨priority_of_onSameSegment hs, .inl hs⟩
      · exact hb.of_same hok (same_symm hs)
    · exact (h₁₂ x (mem_of_getLast? hx) y hy).of_same hok (same_symm hs)

/-- No entry of another segment comes between the job and its own entries after it. -/
theorem Split.first (y z : PendJob Q U) (hyz : [y, z].Sublist l₂)
    (hz : jobsOnSameSegment c.queue job z = true) : jobsOnSameSegment c.queue job y = true := by
  obtain ⟨-, h₂, -⟩ := pairwise_append.1 hinv.before
  have hp := priority_of_onSameSegment hz
  cases l₂ with
  | nil => cases hyz
  | cons y₀ l =>
    -- `z` is not the first entry, and `y` is the first or lies between
    have hpos : z ∈ l ∧ (y = y₀ ∨ [y₀, y, z].Sublist (y₀ :: l)) := by
      rcases sublist_cons_iff.1 hyz with h | ⟨r, heq, hr⟩
      · exact ⟨h.subset (by simp), .inr (h.cons_cons y₀)⟩
      · obtain ⟨rfl, rfl⟩ : y = y₀ ∧ [z] = r := by simpa using heq
        exact ⟨singleton_sublist.1 hr, .inl rfl⟩
    have hb : Before c.queue y₀ z := (pairwise_cons.1 h₂).1 z hpos.1
    rcases hsplit.stop y₀ rfl with (hlt | ⟨heq, hs, hlt⟩ | hs) | ⟨⟨x, hx, hs⟩, hs'⟩
    · have hle := hb.priority_le
      omega
    · rw [(posId_lt_of_stop hok heq hs hlt hb hp.symm).1] at hz
      cases hz
    · rcases hpos.2 with rfl | hsub
      · exact hs
      · have hrun := hinv.runs y₀ y z (hsub.trans (sublist_append_right _ _))
          (same_trans (same_symm hs) hz)
        exact same_trans hs hrun
    · have hsub : [x, y₀, z].Sublist (l₁ ++ y₀ :: l) :=
        (singleton_sublist.2 (mem_of_getLast? hx)).append
          ((singleton_sublist.2 hpos.1).cons_cons y₀)
      have hrun := hinv.runs x y₀ z hsub (same_trans (same_symm hs) hz)
      rw [same_trans hs hrun] at hs'
      cases hs'

/-- A segment the job is put into the middle of is its own. -/
theorem Split.mid (x : PendJob Q U) (hx : x ∈ l₁) (z : PendJob Q U) (hz : z ∈ l₂)
    (hxz : jobsOnSameSegment c.queue x z = true) : jobsOnSameSegment c.queue x job = true := by
  obtain ⟨-, h₂, -⟩ := pairwise_append.1 hinv.before
  have hp := priority_of_onSameSegment hxz
  obtain ⟨hle, hpass⟩ := hsplit.passes x hx
  by_contra hne
  have hxj : jobsOnSameSegment c.queue x job = false := by simpa using hne
  cases l₂ with
  | nil => cases hz
  | cons y₀ l =>
    have hy₀ : z = y₀ ∨ (z ∈ l ∧ Before c.queue y₀ z) := by
      rcases mem_cons.1 hz with rfl | hz
      · exact .inl rfl
      · exact .inr ⟨hz, (pairwise_cons.1 h₂).1 z hz⟩
    have hprio : (c.queue y₀.qPtr).priority ≤ (c.queue z.qPtr).priority := by
      rcases hy₀ with rfl | ⟨-, hb⟩
      · exact le_rfl
      · exact hb.priority_le
    rcases hsplit.stop y₀ rfl with (hlt | ⟨heq, hs, hlt⟩ | hs) | ⟨⟨x₀, hx₀, hs⟩, -⟩
    · omega
    · -- all of one priority: `x` is not below the job, so neither is `z`
      have hpx : (c.queue x.qPtr).priority = (c.queue job.qPtr).priority := by omega
      have hsign := (hok.1 x.qPtr z.qPtr job.qPtr hxz hxj hpx).2
      have hzlt : (c.queue z.qPtr).posId < (c.queue job.qPtr).posId := by
        rcases hy₀ with rfl | ⟨-, hb⟩
        · exact hlt
        · exact (posId_lt_of_stop hok heq hs hlt hb (hp.symm.trans hpx)).2
      exact absurd (hsign.2 hzlt) (not_lt.2 (hpass hpx (not_onSameSegment_symm hxj)))
    · rcases hy₀ with rfl | ⟨hzl, -⟩
      · exact hne (same_trans hxz (same_symm hs))
      · have hsub : [x, y₀, z].Sublist (l₁ ++ y₀ :: l) :=
          (singleton_sublist.2 hx).append ((singleton_sublist.2 hzl).cons_cons y₀)
        exact hne (same_trans (hinv.runs x y₀ z hsub hxz) (same_symm hs))
    · obtain ⟨l₀, rfl⟩ : ∃ l₀, l₁ = l₀ ++ [x₀] := List.getLast?_eq_some_iff.1 hx₀
      rcases mem_append.1 hx with hx | hx
      · have hsub : [x, x₀, z].Sublist (l₀ ++ [x₀] ++ y₀ :: l) := by
          rw [append_assoc]
          exact (singleton_sublist.2 hx).append
            ((singleton_sublist.2 hz).cons_cons x₀)
        exact hne (same_trans (hinv.runs x x₀ z hsub hxz) (same_symm hs))
      · obtain rfl := mem_singleton.1 hx
        exact hne (same_symm hs)

/-- No entry of another segment comes between the job and its own entries before it. -/
theorem Split.last (x y : PendJob Q U) (hxy : [x, y].Sublist l₁)
    (hx : jobsOnSameSegment c.queue x job = true) : jobsOnSameSegment c.queue x y = true := by
  by_contra hne
  have hxy' : jobsOnSameSegment c.queue x y = false := by simpa using hne
  have hjy : jobsOnSameSegment c.queue job y = false := not_onSameSegment hx hxy'
  have hia := (hsplit.between x y hxy (same_symm hx)).resolve_left (by simp [hjy])
  obtain ⟨hle, hpass⟩ := hsplit.passes y (hxy.subset (by simp))
  have hb : Before c.queue x y :=
    pairwise_pair hinv.before (hxy.trans (sublist_append_left _ _))
  -- the job, `x` and `y` have one priority and one position
  have hp := priority_of_onSameSegment hx
  have hpy : (c.queue y.qPtr).priority = (c.queue job.qPtr).priority :=
    le_antisymm hle (hp ▸ hb.priority_le)
  have h₁ := hb.posId_le (by omega) hxy'
  have h₂ := hpass hpy hjy
  have hsign := (hok.1 x.qPtr job.qPtr y.qPtr hx hxy' (by omega))
  have heq : (c.queue job.qPtr).posId = (c.queue y.qPtr).posId := by omega
  rw [hok.2 job.qPtr y.qPtr hjy hpy.symm heq] at hia
  cases hia

end

/-- **One insertion keeps the order.** -/
theorem insertPend_inv (hinv : OrdInv c.queue l)
    (listno : ListNo) (requeueTime : Int) :
    OrdInv c.queue (insertPend c job listno requeueTime l) := by
  obtain ⟨l₁, l₂, rfl, hscan, hsplit⟩ :=
    scan_spec c job (compareTime c job listno requeueTime) l
  have hpos : insertPos c job (compareTime c job listno requeueTime) (l₁ ++ l₂) = l₁.length := by
    rw [insertPos, hscan]
    simp
  have heq : insertPend c job listno requeueTime (l₁ ++ l₂) =
      l₁ ++ { job with delRequeue := false } :: l₂ := by
    simp [insertPend, hpos]
  -- the flag that is cleared is not part of the order
  have hsplit' : Split c { job with delRequeue := false } l₁ l₂ :=
    { hsplit with }
  rw [heq]
  exact ⟨pairwise_insert hinv.before hsplit'.before (Split.after hok hinv hsplit'),
    hinv.runs.insert (Split.first hok hinv hsplit') (Split.mid hok hinv hsplit')
      (Split.last hok hinv hsplit')⟩

end Order

/-! ## Runs of insertions and removals -/

/-- What happens to the pending list. -/
inductive ListOp (Q U : Type) where
  | insert (job : PendJob Q U)
  | remove (jobId : Int)

/-- One operation on the pending list; a job is on it at most once. -/
def listStep (c : PendConf Q) (l : List (PendJob Q U)) : ListOp Q U → List (PendJob Q U)
  | .insert job => if l.any fun jp => jp.jobId == job.jobId then l else insertPend c job .pjl 0 l
  | .remove jobId => removeEntry l jobId

/-- The list read from `back`, as the scheduler does: by falling priority, with each segment in
one run. -/
structure Segmented (queue : Q → QData) (l : List (PendJob Q U)) : Prop where
  sorted : l.reverse.Pairwise fun a b => (queue b.qPtr).priority ≤ (queue a.qPtr).priority
  runs : Contiguous (fun a b => jobsOnSameSegment queue a b = true) l.reverse

theorem OrdInv.segmented {queue : Q → QData} (h : OrdInv queue l) : Segmented queue l :=
  ⟨pairwise_reverse.2 (h.before.imp Before.priority_le), h.runs.reverse (same_equiv queue)⟩

theorem listStep_inv {c : PendConf Q} (hok : PosOk c.queue) (l : List (PendJob Q U))
    (op : ListOp Q U) (h : OrdInv c.queue l) : OrdInv c.queue (listStep c l op) := by
  cases op with
  | insert job =>
    unfold listStep
    dsimp only
    split
    · exact h
    · exact insertPend_inv hok h .pjl 0
  | remove jobId =>
    exact ⟨h.before.sublist filter_sublist, h.runs.sublist filter_sublist⟩

/-- A plain job for the runs below. -/
def plainJob [Inhabited U] (jobId : Int) (q : Q) : PendJob Q U :=
  { jobId := jobId, qPtr := q, uPtr := default, interactive := false, jobPriority := 0,
    submitTime := 0, numProcessors := 1, delRequeue := false }

section Necessary

variable {c : PendConf Q} {q1 q2 q3 : Q}

variable {job jp : PendJob Q U}

theorem visit_stop {t : Int} (hp : (c.queue job.qPtr).priority = (c.queue jp.qPtr).priority)
    (hs : onSameSegment c.queue job.qPtr jp.qPtr = false)
    (hpos : (c.queue jp.qPtr).posId < (c.queue job.qPtr).posId) :
    visit c job jp t = .stop := by
  simp [visit, jobsOnSameSegment, hp, hs, fs_of_not_onSameSegment hp hs, hpos]

theorem visit_skip {t : Int} (hp : (c.queue job.qPtr).priority = (c.queue jp.qPtr).priority)
    (hs : onSameSegment c.queue job.qPtr jp.qPtr = false)
    (hpos : (c.queue job.qPtr).posId ≤ (c.queue jp.qPtr).posId) :
    visit c job jp t = .skip := by
  simp [visit, jobsOnSameSegment, hp, hs, fs_of_not_onSameSegment hp hs, not_lt.2 hpos]

theorem insertPend_stop (l : List (PendJob Q U)) (hj : job.delRequeue = false)
    (h : visit c job jp job.submitTime = .stop) :
    insertPend c job .pjl 0 (jp :: l) = job :: jp :: l := by
  have hjob : { job with delRequeue := false } = job := by rw [← hj]
  simp [insertPend, insertPos, compareTime, scan, h, hjob]

theorem insertPend_skip (l : List (PendJob Q U)) (h : visit c job jp job.submitTime = .skip) :
    insertPend c job .pjl 0 (jp :: l) = jp :: insertPend c job .pjl 0 l := by
  obtain ⟨l₁, l₂, -, hscan, -⟩ := scan_spec c job job.submitTime l
  have hone : 1 + l₁.length = l₁.length + 1 := Nat.add_comm ..
  simp [insertPend, insertPos, compareTime, scan, h, hscan, hone]

theorem insertPend_nil {job : PendJob Q U} (hj : job.delRequeue = false) :
    insertPend c job .pjl 0 [] = [job] := by
  have hjob : { job with delRequeue := false } = job := by rw [← hj]
  simp [insertPend, hjob]

/-- A list of three with an entry of another segment in the middle. -/
theorem not_segmented {queue : Q → QData} {x y z : PendJob Q U}
    (hxz : jobsOnSameSegment queue x z = true) (hxy : jobsOnSameSegment queue x y = false) :
    ¬Segmented queue [x, y, z] := by
  intro h
  have := Contiguous.of_reverse (same_equiv queue) h.runs x y z (List.Sublist.refl _) hxz
  rw [this] at hxy
  cases hxy

theorem listStep_insert {job : PendJob Q U} (h : ∀ jp ∈ l, jp.jobId ≠ job.jobId) :
    listStep c l (.insert job) = insertPend c job .pjl 0 l := by
  rw [listStep, if_neg]
  simpa using h

variable (U)

section

variable [Inhabited U]

/-- A job goes behind one of another segment unless the position of its own queue is higher. -/
theorem run_insert_pair {a b : Q} {m n : Int} {j k : PendJob Q U} (hj : j = plainJob m a)
    (hk : k = plainJob n b) (hmn : m ≠ n) (hp : (c.queue b).priority = (c.queue a).priority)
    (hs : onSameSegment c.queue b a = false) (hle : (c.queue b).posId ≤ (c.queue a).posId) :
    Run.run (listStep c) [] [.insert j, .insert k] = [j, k] := by
  have e₁ : listStep c [] (.insert j) = [j] := by
    rw [listStep_insert (by simp), insertPend_nil (by rw [hj]; rfl)]
  rw [Run.run_cons, e₁, Run.run_cons, Run.run_nil,
    listStep_insert (by simp [hj, hk, plainJob, hmn]),
    insertPend_skip _ (visit_skip ?_ ?_ ?_), insertPend_nil (by rw [hk]; rfl)] <;> rw [hj, hk]
  · exact hp
  · exact hs
  · exact hle

variable (h : ∀ ops : List (ListOp Q U), Segmented c.queue (Run.run (listStep c) [] ops))
include h

/-- Entries of the two queues of a segment end up on both sides of one of another segment. -/
theorem lt_of_segmented
    (h12 : onSameSegment c.queue q1 q2 = true) (h13 : onSameSegment c.queue q1 q3 = false)
    (hp : (c.queue q1).priority = (c.queue q3).priority)
    (hlt : (c.queue q3).posId < (c.queue q1).posId) :
    (c.queue q3).posId < (c.queue q2).posId := by
  by_contra hle
  have hp2 := priority_of_onSameSegment h12
  have h23 := not_onSameSegment h12 h13
  obtain ⟨j1, j2, j3, hj1, hj2, hj3⟩ : ∃ j1 j2 j3 : PendJob Q U, j1 = plainJob 3 q1 ∧
    j2 = plainJob 2 q2 ∧ j3 = plainJob 1 q3 := ⟨_, _, _, rfl, rfl, rfl⟩
  have e₂ := run_insert_pair U hj3 hj2 (by decide) (hp2.symm.trans hp) h23 (not_lt.1 hle)
  have e₃ : listStep c [j3, j2] (.insert j1) = [j1, j3, j2] := by
    rw [listStep_insert (by simp [hj1, hj2, hj3, plainJob]),
      insertPend_stop _ (by rw [hj1]; rfl) (visit_stop ?_ ?_ ?_)] <;> rw [hj1, hj3]
    · exact hp
    · exact h13
    · exact hlt
  have hseg := h ([.insert j3, .insert j2] ++ [.insert j1])
  rw [Run.run_append, e₂, Run.run_cons, Run.run_nil, e₃] at hseg
  refine not_segmented ?_ ?_ hseg
  · rw [hj1, hj2]; exact h12
  · rw [hj1, hj3]; exact h13

/-- A queue at the position of a queue of another segment leaves the rest of its own segment
on the wrong side when its jobs are gone. -/
theorem ne_of_segmented
    (h12 : onSameSegment c.queue q1 q2 = true) (h13 : onSameSegment c.queue q1 q3 = false)
    (hp : (c.queue q1).priority = (c.queue q3).priority)
    (hlt : (c.queue q2).posId < (c.queue q3).posId) :
    (c.queue q1).posId ≠ (c.queue q3).posId := by
  intro heq
  have hp2 := priority_of_onSameSegment h12
  have h32 := not_onSameSegment_symm (not_onSameSegment h12 h13)
  have h31 := not_onSameSegment_symm h13
  obtain ⟨j1, j2, j3, j4, hj1, hj2, hj3, hj4⟩ : ∃ j1 j2 j3 j4 : PendJob Q U, j1 = plainJob 1 q1 ∧
    j2 = plainJob 3 q2 ∧ j3 = plainJob 2 q3 ∧ j4 = plainJob 4 q3 :=
    ⟨_, _, _, _, rfl, rfl, rfl, rfl⟩
  have e₂ := run_insert_pair U hj1 hj3 (by decide) hp.symm h31 heq.ge
  have e₃ : listStep c [j1, j3] (.insert j2) = [j2, j1, j3] := by
    rw [listStep_insert (by simp [hj1, hj2, hj3, plainJob]),
      insertPend_stop _ (by rw [hj2]; rfl)]
    have hsame : onSameSegment c.queue q2 q1 = true := (onSameSegment_equiv c.queue).symm h12
    simp [visit, jobsOnSameSegment, laterThan, hj1, hj2, plainJob, hp2, hsame]
  have e₄ : listStep c [j2, j1, j3] (.remove 1) = [j2, j3] := by
    simp [listStep, removeEntry, hj1, hj2, hj3, plainJob]
  have e₅ : listStep c [j2, j3] (.insert j4) = [j4, j2, j3] := by
    rw [listStep_insert (by simp [hj2, hj3, hj4, plainJob]),
      insertPend_stop _ (by rw [hj4]; rfl) (visit_stop ?_ ?_ ?_)] <;> rw [hj2, hj4]
    · exact hp.symm.trans hp2
    · exact h32
    · exact hlt
  have hseg := h ([.insert j1, .insert j3] ++ [.insert j2, .remove 1, .insert j4])
  rw [Run.run_append, e₂, Run.run_cons, Run.run_cons, Run.run_cons, Run.run_nil, e₃, e₄, e₅] at hseg
  refine not_segmented ?_ ?_ hseg
  · rw [hj4, hj3]; exact (onSameSegment_equiv c.queue).refl q3
  · rw [hj4, hj2]; exact h32

/-- An interactive job that goes ahead of its own segment does not stop at the next one. -/
theorem interactive_of_segmented
    (h13 : onSameSegment c.queue q1 q3 = false)
    (hp : (c.queue q1).priority = (c.queue q3).priority)
    (heq : (c.queue q1).posId = (c.queue q3).posId) :
    (c.queue q1).interactiveAhead = false := by
  by_contra hia
  have hia : (c.queue q1).interactiveAhead = true := by simpa using hia
  have h31 := not_onSameSegment_symm h13
  have h11 : onSameSegment c.queue q1 q1 = true := (onSameSegment_equiv c.queue).refl q1
  obtain ⟨j1, j2, j3, hj1, hj2, hj3⟩ : ∃ j1 j2 j3 : PendJob Q U, j1 = plainJob 1 q1 ∧
    j2 = { plainJob 2 q1 with interactive := true } ∧ j3 = plainJob 3 q3 :=
    ⟨_, _, _, rfl, rfl, rfl⟩
  have e₂ := run_insert_pair U hj1 hj3 (by decide) hp.symm h31 heq.ge
  have e₃ : listStep c [j1, j3] (.insert j2) = [j1, j3, j2] := by
    rw [listStep_insert (by simp [hj1, hj2, hj3, plainJob]), insertPend_skip _ ?_,
      insertPend_skip _ (visit_skip ?_ ?_ ?_), insertPend_nil (by rw [hj2]; rfl)]
    · rw [hj2, hj3]; exact hp
    · rw [hj2, hj3]; exact h13
    · rw [hj2, hj3]; exact heq.le
    · simp [visit, jobsOnSameSegment, hj1, hj2, plainJob, h11, hia]
  have hseg := h ([.insert j1, .insert j3] ++ [.insert j2])
  rw [Run.run_append, e₂, Run.run_cons, Run.run_nil, e₃] at hseg
  refine not_segmented ?_ ?_ hseg
  · rw [hj1, hj2]; exact h11
  · rw [hj1, hj3]; exact h13

end

end Necessary

/-- **The pending list stays sorted with whole segments, along every run of insertions and
removals, exactly when the positions of the queues are `PosOk`.** -/
theorem segmented_iff_posOk [Inhabited U] (c : PendConf Q) :
    (∀ ops : List (ListOp Q U), Segmented c.queue (Run.run (listStep c) [] ops)) ↔
      PosOk c.queue := by
  constructor
  · intro h
    refine ⟨fun q1 q2 q3 h12 h13 hp => ?_, fun q1 q3 h13 hp heq =>
      interactive_of_segmented U h h13 hp heq⟩
    have h21 := (onSameSegment_equiv c.queue).symm h12
    have h23 := not_onSameSegment h12 h13
    have hp2 := priority_of_onSameSegment h12
    have hlt : (c.queue q3).posId < (c.queue q1).posId ↔ (c.queue q3).posId < (c.queue q2).posId :=
      ⟨lt_of_segmented U h h12 h13 hp, lt_of_segmented U h h21 h23 (hp2 ▸ hp)⟩
    refine ⟨hlt, fun h1 => ?_, fun h2 => ?_⟩
    · have hne := ne_of_segmented U h h21 h23 (hp2 ▸ hp) h1
      omega
    · have hne := ne_of_segmented U h h12 h13 hp h2
      omega
  · intro hok ops
    have hinv : OrdInv c.queue (Run.run (listStep c) ([] : List (PendJob Q U)) ops) :=
      Run.inv_all (listStep_inv hok) ⟨List.Pairwise.nil, Contiguous.nil _⟩ ops
    exact hinv.segmented

/-! ## A segment that is torn apart -/

local instance neZero_three : NeZero 3 := ⟨by decide⟩

/-- Three queues of one priority: a fairshare queue, an ordinary queue configured after it, and
`lost_and_found`, which `lostFoundQueue` creates without a position. -/
def lostFoundConf : PendConf (Fin 3) where
  queue
    | 0 => { priority := 1, fs := true, interactiveAhead := false, posId := 1 }
    | 1 => { priority := 1, fs := false, interactiveAhead := false, posId := 2 }
    | 2 => { priority := 1, fs := false, interactiveAhead := false, posId := 0 }
  requeueToBottom := false
  arraySchedOrder := false
  maxUserPriority := -1

/-- A job of the fairshare queue, one of `lost_and_found` and one of the ordinary queue. -/
def lostFoundRun : List (ListOp (Fin 3) Unit) :=
  [.insert (plainJob 1 0), .insert (plainJob 2 2), .insert (plainJob 3 1)]

theorem lostFoundRun_not_segmented :
    ¬Segmented lostFoundConf.queue (Run.run (listStep lostFoundConf) [] lostFoundRun) := by
  have hrun : Run.run (listStep lostFoundConf) [] lostFoundRun =
      [plainJob 3 1, plainJob 1 0, plainJob 2 2] := by decide
  rw [hrun]
  exact not_segmented (by decide) (by decide)

end Volclava
