import Volclava.AllocBooks

/-!
# What a job is given and its limits

The slots at hand that `getNumProcs` gives never pass `maxNumProcessors`. They keep to
`numAvailSlots`, what the limits of the queue, the user and the user's groups leave, in the plain
branch only: the backfill branch hands out whole blocks (the slots of a backfillee, what is left
on a host) and looks at the limit only between them.

- `fillAvail_total`: the slots at hand in the backfill branch as a filling in blocks.
- `getNumProcs_within`: within the limits when no block reaches across `numAvailSlots`, and only
  then if the limits leave the job its `numProcessors`.
-/

namespace Volclava

open Loop List

/-! ## Slots at hand in the backfill branch -/

/-- The slots asked for on candidate `i` by the backfillees gone through. -/
def asked (bs : List Backfillee) (i : Nat) : Int :=
  ((bs.filter (·.indexInCandHostList = i)).map Backfillee.backfillSlots).sum

theorem asked_append_singleton (bs : List Backfillee) (b : Backfillee) (i : Nat) :
    asked (bs ++ [b]) i =
      asked bs i + if b.indexInCandHostList = i then b.backfillSlots else 0 := by
  unfold asked
  by_cases h : b.indexInCandHostList = i
  · simp [filter_append, h]
  · simp [filter_append, h]

/-- The slots at hand on candidate `i` that fill what is asked for. -/
def AllocJob.lent (jp : AllocJob) (bs : List Backfillee) (i : Nat) : Int :=
  min (jp.candHost i).numAvailSlots (asked bs i)

/-- The blocks of the backfillees, after those gone through: how much further each of them fills
its host. -/
def AllocJob.backfillBlocks (jp : AllocJob) : List Backfillee → List Backfillee → List Int
  | _, [] => []
  | gone, b :: bs =>
    (jp.lent (gone ++ [b]) b.indexInCandHostList - jp.lent gone b.indexInCandHostList) ::
      jp.backfillBlocks (gone ++ [b]) bs

/-- The hosts of the backfillees, in the order in which they come first. -/
def hostOrder (bs : List Backfillee) : List Nat :=
  (bs.map Backfillee.indexInCandHostList).foldl insertNew []

/-- The blocks of the backfill branch in the order in which they are handed out: the
backfillees, what is left on their hosts, the other hosts. -/
def AllocJob.blocks (jp : AllocJob) : List Int :=
  jp.backfillBlocks [] jp.sortBackfillee ++
    (hostOrder jp.sortBackfillee).map (fun i =>
      (jp.candHost i).numAvailSlots - jp.lent jp.sortBackfillee i) ++
    jp.candPtr.zipIdx.map fun ci =>
      if ci.2 ∈ hostOrder jp.sortBackfillee then 0 else ci.1.numAvailSlots

/-! ### The first loop -/

/-- The slots at hand given on candidate `i`. -/
def given : List BackfillCand → Nat → Int
  | [], _ => 0
  | bc :: bcs, i => if i = bc.indexInCandHostList then bc.numAvailSlots else given bcs i

theorem given_eq {bcs : List BackfillCand} (hnodup : (indices bcs).Nodup) {bc : BackfillCand}
    (h : bc ∈ bcs) : given bcs bc.indexInCandHostList = bc.numAvailSlots := by
  induction bcs with
  | nil => exact absurd h not_mem_nil
  | cons bc' bcs ih =>
    obtain ⟨hnew, hnodup⟩ := nodup_cons.1 hnodup
    rcases mem_cons.1 h with rfl | h
    · exact if_pos rfl
    · have hne : bc.indexInCandHostList ≠ bc'.indexInCandHostList := fun heq =>
        hnew (heq ▸ mem_map_of_mem h)
      exact (if_neg hne).trans (ih hnodup h)

section Enter

variable {b : Backfillee} {m s : Int} {l : List BackfillCand}

theorem enterBackfillee_fst (hs : s ≤ m) :
    (enterBackfillee b m s l).1 = min s (m - given l b.indexInCandHostList) := by
  induction l with
  | nil =>
    simp only [enterBackfillee, given]
    omega
  | cons bc l ih =>
    unfold enterBackfillee given
    split
    · rfl
    · exact ih

theorem given_enterBackfillee (i : Nat) :
    given (enterBackfillee b m s l).2 i =
      given l i + if i = b.indexInCandHostList then (enterBackfillee b m s l).1 else 0 := by
  induction l with
  | nil =>
    simp only [enterBackfillee, given]
    split
    · simp
    · simp
  | cons bc l ih =>
    unfold enterBackfillee
    split
    · rename_i h
      simp only [given, h]
      split
      · rfl
      · simp
    · rename_i h
      simp only [given, ih]
      split
      · rename_i hi
        rw [if_neg (fun hb => h (hb.symm.trans hi)), Int.add_zero]
      · rfl

end Enter

/-- The first loop, not yet stopped, has given what the backfillees gone through ask for. -/
structure Tracks (jp : AllocJob) (f : Filling) (gone : List Backfillee) : Prop where
  order : indices f.backfillCandPtr = hostOrder gone
  given : ∀ i < jp.candPtr.length, given f.backfillCandPtr i = jp.lent gone i

theorem asked_nonneg {bs : List Backfillee} (h : ∀ b ∈ bs, 0 ≤ b.backfillSlots) (i : Nat) :
    0 ≤ asked bs i := by
  refine sum_nonneg ?_
  simp only [forall_mem_map]
  exact fun b hb => h b (mem_of_mem_filter hb)

variable {jp : AllocJob} {gone : List Backfillee} {f : Filling}

namespace AllocJob

/-- The block of `b`. -/
theorem takeBackfillee_total (hjp : jp.Ready)
    {b : Backfillee} (hf : Tracks jp f gone) (hgone : ∀ b ∈ gone, 0 ≤ b.backfillSlots)
    (hi : b.indexInCandHostList < jp.candPtr.length) (hb : 0 ≤ b.backfillSlots)
    (hmax : f.total < jp.maxNumProcessors) :
    (jp.takeBackfillee f b).total = f.total +
      min (jp.lent (gone ++ [b]) b.indexInCandHostList - jp.lent gone b.indexInCandHostList)
        (jp.maxNumProcessors - f.total) := by
  have hgiven := hf.given _ hi
  have havail := (hjp.slots _ (candHost_mem hi)).2
  have hasked := asked_nonneg hgone b.indexInCandHostList
  have happ := asked_append_singleton gone b b.indexInCandHostList
  rw [if_pos rfl] at happ
  simp only [lent] at hgiven ⊢
  simp only [takeBackfillee, enterBackfillee_fst (min_le_left _ _)]
  omega

theorem tracks_takeBackfillee {b : Backfillee}
    (hf : Tracks jp f gone) (htotal : (jp.takeBackfillee f b).total = f.total +
      (jp.lent (gone ++ [b]) b.indexInCandHostList - jp.lent gone b.indexInCandHostList)) :
    Tracks jp (jp.takeBackfillee f b) (gone ++ [b]) where
  order := by
    simp only [takeBackfillee, indices_enterBackfillee, hf.order, hostOrder,
      map_append, foldl_append, map_cons, map_nil, foldl_cons,
      foldl_nil]
  given := by
    intro i hi
    have hgiven := hf.given i hi
    simp only [takeBackfillee] at htotal ⊢
    rw [given_enterBackfillee, hgiven]
    split
    · rename_i heq
      rw [heq]
      omega
    · rename_i hne
      rw [lent, lent, asked_append_singleton, if_neg (Ne.symm hne), Int.add_zero,
        Int.add_zero]

/-- The first loop hands out the blocks of the backfillees. -/
theorem fillBackfillees_total (hjp : jp.Ready) :
    jp.fillBackfillees.total =
        fill jp.numAvailSlots jp.maxNumProcessors 0 (jp.backfillBlocks [] jp.sortBackfillee) ∧
      (jp.Wants Filling.total jp.fillBackfillees →
        Tracks jp jp.fillBackfillees jp.sortBackfillee) := by
  have hstart : Tracks jp ⟨0, []⟩ [] := by
    refine ⟨rfl, fun i hi => ?_⟩
    have havail := (hjp.slots _ (candHost_mem hi)).2
    simp only [given, lent, asked, filter_nil, map_nil, sum_nil]
    omega
  obtain ⟨htotal, hend⟩ := loop_fill Filling.total
    (fun f bs blocks => ∃ gone, gone ++ bs = jp.sortBackfillee ∧
      blocks = jp.backfillBlocks gone bs ∧ Tracks jp f gone)
    (by
      rintro f blocks ⟨gone, -, rfl, -⟩
      rfl)
    (by
      rintro f b bs blocks ⟨gone, hsort, rfl, hf⟩ hgo
      have hmem : ∀ d ∈ gone ++ b :: bs, d.indexInCandHostList < jp.candPtr.length ∧
          0 ≤ d.backfillSlots := fun d hd => sortBackfillee_mem hjp (hsort ▸ hd)
      have hb := hmem b (by simp)
      have htotal := takeBackfillee_total hjp hf
        (fun d hd => (hmem d (mem_append_left _ hd)).2) hb.1 hb.2 hgo.2
      refine ⟨_, _, rfl, htotal, fun hgo' => ⟨gone ++ [b], ?_, rfl, ?_⟩⟩
      · rw [append_assoc, singleton_append, hsort]
      · have hcap := hgo'.2
        exact tracks_takeBackfillee hf (by omega))
    ⟨[], rfl, rfl, hstart⟩
  refine ⟨htotal, fun hgo => ?_⟩
  obtain ⟨gone, heq, -, htracks⟩ := hend hgo
  rw [append_nil] at heq
  exact heq ▸ htracks

end AllocJob

/-! ### The second and third loop -/

theorem indices_fillRest (jp : AllocJob) (f : Filling) :
    indices (jp.fillRest f).backfillCandPtr = indices f.backfillCandPtr :=
  update_map jp.takeRest_index _ _

/-- The second loop hands out what is left on the hosts of the backfillees. -/
theorem AllocJob.fillRest_total (hwf : f.AvailWf jp)
    (hf : Tracks jp f gone) :
    (jp.fillRest f).total = fill jp.numAvailSlots jp.maxNumProcessors f.total
      ((hostOrder gone).map fun i => (jp.candHost i).numAvailSlots - jp.lent gone i) := by
  have htotal : (jp.fillRest f).total = fill jp.numAvailSlots jp.maxNumProcessors f.total _ :=
    update_fill jp.takeRest_fst f.total f.backfillCandPtr
  rw [htotal, ← hf.order, indices, map_map]
  congr 1
  refine map_congr_left fun bc hbc => ?_
  have hgiven := hf.given _ (hwf.cand bc hbc).1
  rw [given_eq hwf.nodup hbc] at hgiven
  simp only [Function.comp_def]
  omega

section TakeOther

variable {jp : AllocJob} {f : Filling} {ci : CandHost × Nat}

theorem candHostInBackfillCandList_iff {bcs : List BackfillCand} {i : Nat} :
    candHostInBackfillCandList bcs i = true ↔ i ∈ indices bcs := by
  simp [candHostInBackfillCandList, indices]

theorem AllocJob.takeOther_total (hmax : f.total < jp.maxNumProcessors) :
    (jp.takeOther f ci).total = f.total +
      min (if ci.2 ∈ indices f.backfillCandPtr then 0 else ci.1.numAvailSlots)
        (jp.maxNumProcessors - f.total) := by
  unfold AllocJob.takeOther
  simp only [candHostInBackfillCandList_iff]
  split
  · omega
  · split
    · omega
    · rfl

theorem AllocJob.mem_indices_takeOther {i : Nat} (hi : i ≠ ci.2) :
    i ∈ indices (jp.takeOther f ci).backfillCandPtr ↔ i ∈ indices f.backfillCandPtr := by
  unfold AllocJob.takeOther
  split
  · rfl
  · split
    · rfl
    · simp [indices, hi]

end TakeOther

/-- The third loop hands out what is at hand on the other hosts. -/
theorem AllocJob.fillOthers_total (jp : AllocJob) (f : Filling) :
    (jp.fillOthers f).total = fill jp.numAvailSlots jp.maxNumProcessors f.total
      (jp.candPtr.zipIdx.map fun ci =>
        if ci.2 ∈ indices f.backfillCandPtr then 0 else ci.1.numAvailSlots) := by
  -- while the loop runs, what it has added is behind it
  refine (loop_fill Filling.total
    (fun g cis blocks => (cis.map Prod.snd).Nodup ∧
      (∀ ci ∈ cis, ci.2 ∈ indices g.backfillCandPtr ↔ ci.2 ∈ indices f.backfillCandPtr) ∧
      blocks = cis.map fun ci =>
        if ci.2 ∈ indices f.backfillCandPtr then 0 else ci.1.numAvailSlots)
    ?_ ?_ ⟨?_, ?_, rfl⟩).1
  · rintro g blocks ⟨-, -, rfl⟩
    rfl
  · rintro g ci cis blocks ⟨hnodup, hcis, rfl⟩ hgo
    obtain ⟨hnew, hnodup⟩ := nodup_cons.1 hnodup
    obtain ⟨hmem, hcis⟩ := forall_mem_cons.1 hcis
    refine ⟨_, _, rfl, ?_, fun _ => ⟨hnodup, fun cj hcj => ?_, rfl⟩⟩
    · rw [AllocJob.takeOther_total hgo.2]
      simp only [hmem]
    · have hne : cj.2 ≠ ci.2 := fun h => hnew (h ▸ mem_map_of_mem hcj)
      exact (AllocJob.mem_indices_takeOther hne).trans (hcis cj hcj)
  · rw [zipIdx_map_snd]
    exact nodup_range'
  · exact fun _ _ => Iff.rfl

namespace AllocJob

/-- **The slots at hand in the backfill branch** are a filling in blocks. -/
theorem fillAvail_total (hjp : jp.Ready) :
    jp.fillAvail.total = fill jp.numAvailSlots jp.maxNumProcessors 0 jp.blocks := by
  obtain ⟨hfirst, htracks⟩ := fillBackfillees_total hjp
  have hwf := availWf_fillBackfillees hjp
  unfold fillAvail blocks
  rw [jp.fillOthers_total, fill_append, fill_append, ← hfirst, indices_fillRest]
  by_cases hgo : jp.Wants Filling.total jp.fillBackfillees
  · rw [fillRest_total hwf (htracks hgo), (htracks hgo).order]
  · -- stopped in the first loop, neither of the others runs
    have hgo' : ¬ Below jp.numAvailSlots jp.maxNumProcessors id jp.fillBackfillees.total := hgo
    have hrest : (jp.fillRest jp.fillBackfillees).total = jp.fillBackfillees.total :=
      congrArg Prod.fst (update_stop hgo' _)
    rw [hrest, fill_stop hgo', fill_stop hgo', fill_stop hgo']

theorem backfillBlocks_nonneg {bs : List Backfillee}
    (h : ∀ b ∈ bs, 0 ≤ b.backfillSlots) : ∀ n ∈ jp.backfillBlocks gone bs, 0 ≤ n := by
  induction bs generalizing gone with
  | nil => simp [backfillBlocks]
  | cons b bs ih =>
    obtain ⟨hb, hbs⟩ := forall_mem_cons.1 h
    refine forall_mem_cons.2 ⟨?_, ih hbs⟩
    have happ := asked_append_singleton gone b b.indexInCandHostList
    rw [if_pos rfl] at happ
    simp only [lent]
    omega

theorem blocks_nonneg (hjp : jp.Ready) : ∀ n ∈ jp.blocks, 0 ≤ n := by
  unfold blocks
  simp only [forall_mem_append, forall_mem_map]
  refine ⟨⟨?_, fun i _ => ?_⟩, fun ci hci => ?_⟩
  · exact backfillBlocks_nonneg fun b hb => (sortBackfillee_mem hjp hb).2
  · simp only [lent]
    omega
  · split
    · exact le_rfl
    · obtain ⟨hi, hc⟩ := candHost_eq hci
      exact hc ▸ (hjp.slots _ (candHost_mem hi)).2

end AllocJob

/-! ## Within the limits -/

/-- The books are kept and the slots at hand keep to both limits. -/
structure Procs.Within (jp : AllocJob) (p : Procs) : Prop extends p.Sound jp where
  avail : p.numAvailEligProc ≤ min jp.numAvailSlots jp.maxNumProcessors

/-- The plain branch is taken, or the limits leave `maxNumProcessors`, or no block of the backfill
branch reaches across what they leave. -/
def AllocJob.Admits (jp : AllocJob) : Prop :=
  jp.backfills = false ∨ jp.maxNumProcessors ≤ jp.numAvailSlots ∨
    ¬ Straddles jp.numAvailSlots 0 jp.blocks

instance (jp : AllocJob) : Decidable jp.Admits :=
  inferInstanceAs (Decidable (_ ∨ _ ∨ _))

namespace AllocJob

theorem fillAvail_le_iff (hjp : jp.Ready) :
    jp.fillAvail.total ≤ jp.numAvailSlots ↔
      jp.maxNumProcessors ≤ jp.numAvailSlots ∨ ¬ Straddles jp.numAvailSlots 0 jp.blocks := by
  rw [fillAvail_total hjp]
  exact fill_le_iff (blocks_nonneg hjp) hjp.numAvailSlots hjp.maxNumProcessors

theorem fillAvail_le_max (hjp : jp.Ready) :
    jp.fillAvail.total ≤ jp.maxNumProcessors := by
  rw [fillAvail_total hjp]
  exact fill_le_cap hjp.maxNumProcessors _

theorem plain_avail (hjp : jp.Ready) (h : jp.backfills = false) :
    jp.getNumProcs.numAvailEligProc ≤ min jp.numAvailSlots jp.maxNumProcessors := by
  unfold getNumProcs
  rw [h]
  simp only [Bool.false_eq_true, if_false]
  split
  · exact (jp.doBackfill_avail_le _).trans (plainAvail_le hjp)
  · exact plainAvail_le hjp

/-- A job that got its `numProcessors` at hand keeps what it borrowed. -/
theorem getNumProcs_of_enough (hb : jp.backfills = true)
    (h : jp.numProcessors ≤ jp.fillAvail.total) :
    jp.getNumProcs.numAvailEligProc = jp.fillAvail.total := by
  have hreserve : jp.fillReserve jp.fillAvail = jp.fillAvail := if_neg (by omega)
  have hkeep : jp.doBackfill jp.backfillProcs = jp.backfillProcs := by
    refine if_pos ?_
    simp only [backfillProcs, hreserve]
    omega
  unfold getNumProcs
  rw [if_pos hb, hkeep]
  rfl

/-- **A job and its limits.** The slots given keep to the limits of a job that `Admits` accepts;
where the limits leave a job its `numProcessors`, they keep to them for no other. -/
theorem getNumProcs_within (jp : AllocJob) (hjp : jp.Left) :
    (jp.Admits → jp.getNumProcs.Within jp) ∧
      (jp.numProcessors ≤ jp.numAvailSlots → jp.getNumProcs.Within jp → jp.Admits) := by
  constructor
  · intro hallow
    refine ⟨sound_getNumProcs hjp, ?_⟩
    cases hb : jp.backfills with
    | false => exact plain_avail hjp.toReady hb
    | true =>
      have hlim : jp.fillAvail.total ≤ jp.numAvailSlots :=
        (fillAvail_le_iff hjp.toReady).2 (hallow.resolve_left (by simp [hb]))
      have hmax := fillAvail_le_max hjp.toReady
      unfold getNumProcs
      rw [if_pos hb]
      exact (jp.doBackfill_avail_le _).trans (le_min hlim hmax)
  · intro henough hwithin
    cases hb : jp.backfills with
    | false => exact .inl hb
    | true =>
      refine .inr ((fillAvail_le_iff hjp.toReady).1 ?_)
      by_contra hover
      have heq := getNumProcs_of_enough hb (by omega)
      have havail := hwithin.avail
      omega

end AllocJob

/-- Two hosts with two borrowed slots each, for a job of two to four processors. -/
def twoBackfillees (numAvailSlots : Int) : AllocJob where
  numProcessors := 2
  maxNumProcessors := 4
  numSlots := numAvailSlots
  numAvailSlots := numAvailSlots
  canBackfill := true
  hasHostPreference := false
  allInOne := false
  needHandleFirstHost := false
  finishTimeOn := fun _ => 100
  candPtr :=
    [⟨⟨"hostA", 4, 2⟩, 2, 2, 0, 0, [⟨1, 200, 0, 2⟩]⟩,
      ⟨⟨"hostB", 4, 2⟩, 2, 2, 0, 0, [⟨2, 300, 0, 2⟩]⟩]
  beyond := default

/-- With two slots left the second backfillee is not touched. -/
theorem getNumProcs_within_twoSlots :
    (twoBackfillees 2).getNumSlots.getNumProcs.Within (twoBackfillees 2).getNumSlots := by
  have hready : (twoBackfillees 2).Ready := by
    constructor <;> decide
  exact ((twoBackfillees 2).getNumSlots.getNumProcs_within
    (AllocJob.left_getNumSlots hready)).1 (by decide)

/-- With three slots left the job gets four at once. -/
theorem threeSlots_exceeded :
    (twoBackfillees 3).getNumSlots.Left ∧
      ¬ (twoBackfillees 3).getNumSlots.getNumProcs.Within (twoBackfillees 3).getNumSlots := by
  have hready : (twoBackfillees 3).Ready := by
    constructor <;> decide
  refine ⟨AllocJob.left_getNumSlots hready, fun h => ?_⟩
  have hover : min (twoBackfillees 3).getNumSlots.numAvailSlots
      (twoBackfillees 3).getNumSlots.maxNumProcessors <
        (twoBackfillees 3).getNumSlots.getNumProcs.numAvailEligProc := by decide
  exact absurd h.avail (not_le.2 hover)

end Volclava
