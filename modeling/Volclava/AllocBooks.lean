import Volclava.Alloc
import Volclava.Lib.Contiguous

/-!
# The books of a job that is given slots

`getNumProcs` keeps its books in both branches: `numEligProc` is the number of slots on the
chosen hosts, no host is chosen twice, and none gives more than it has (`Procs.Sound`). The loops
of the backfill branch keep `Filling.Wf`, those of the plain branch make their entries along a
first part of the candidate array, and giving borrowed slots back only lowers entries.

- `left_getNumSlots`: what `getNumSlots` leaves.
- `sound_getNumProcs`: the books are kept.
- `Procs.Sound.contiguous_allocHosts`: the slots of one host stand together in the hosts of the job.
-/

namespace Volclava

open Loop List Runs

variable {c : CandHost} {b : Backfillee}

namespace AllocJob

/-! ## The candidate array -/

/-- What holds of a job with candidate hosts. -/
structure Ready (jp : AllocJob) : Prop where
  hosts : (jp.candPtr.map CandHost.hData).Nodup
  slots : ∀ c ∈ jp.candPtr, 0 ≤ c.numSlots ∧ 0 ≤ c.numAvailSlots
  backfillSlots : ∀ c ∈ jp.candPtr, ∀ b ∈ c.backfilleeList, 0 ≤ b.backfillSlots
  numSlots : 0 ≤ jp.numSlots
  numAvailSlots : 0 ≤ jp.numAvailSlots
  maxNumProcessors : 0 ≤ jp.maxNumProcessors

/-- What `getNumSlots` leaves. -/
structure Left (jp : AllocJob) : Prop extends jp.Ready where
  avail_le : ∀ c ∈ jp.candPtr, c.numAvailSlots ≤ c.numSlots

variable (jp : AllocJob)

theorem countSlots_perm (s : SlotCount) (c : CandHost) :
    (jp.countSlots s c).candPtr.Perm (s.candPtr ++ [c]) := by
  unfold countSlots
  split
  · split
    · exact (perm_append_singleton _ _).symm
    · exact .refl _
  · exact .refl _

theorem foldl_countSlots_perm (s : SlotCount) (l : List CandHost) :
    (l.foldl jp.countSlots s).candPtr.Perm (s.candPtr ++ l) := by
  induction l generalizing s with
  | nil => simp
  | cons c l ih =>
    refine (ih _).trans ?_
    rw [← singleton_append, ← append_assoc]
    exact (jp.countSlots_perm s c).append_right _

variable {jp} {l : List CandHost}

theorem foldl_countSlots_nonneg (hl : ∀ c ∈ l, 0 ≤ c.numSlots ∧ 0 ≤ c.numAvailSlots)
    {s : SlotCount} (hs : 0 ≤ s.numSlots ∧ 0 ≤ s.numAvailSlots) :
    0 ≤ (l.foldl jp.countSlots s).numSlots ∧ 0 ≤ (l.foldl jp.countSlots s).numAvailSlots := by
  induction l generalizing s with
  | nil => exact hs
  | cons c l ih =>
    refine ih (fun d hd => hl d (mem_cons_of_mem _ hd)) ?_
    have hc := hl c mem_cons_self
    unfold countSlots
    split
    · split
      · exact hc
      · exact hs
    · exact ⟨Int.add_nonneg hs.1 hc.1, Int.add_nonneg hs.2 hc.2⟩

theorem capSlots_nonneg (h : jp.Ready) (hc : c ∈ jp.candPtr) :
    0 ≤ (jp.capSlots c).numSlots ∧ 0 ≤ (jp.capSlots c).numAvailSlots := by
  have h1 := h.slots c hc
  have h2 := h.numSlots
  have h3 := h.numAvailSlots
  simp only [capSlots]
  omega

theorem getNumSlots_candPtr :
    jp.getNumSlots.candPtr.Perm (jp.candPtr.map jp.capSlots) :=
  jp.foldl_countSlots_perm ⟨[], 0, 0⟩ _

/-- `getNumSlots` leaves every host with no more slots at hand than slots. -/
theorem left_getNumSlots (h : jp.Ready) : jp.getNumSlots.Left := by
  have hmem : ∀ c ∈ jp.getNumSlots.candPtr, ∃ d ∈ jp.candPtr, jp.capSlots d = c := fun c hc =>
    mem_map.1 (jp.getNumSlots_candPtr.subset hc)
  have hcount : 0 ≤ ((jp.candPtr.map jp.capSlots).foldl jp.countSlots ⟨[], 0, 0⟩).numSlots ∧
      0 ≤ ((jp.candPtr.map jp.capSlots).foldl jp.countSlots ⟨[], 0, 0⟩).numAvailSlots := by
    refine foldl_countSlots_nonneg ?_ ⟨le_rfl, le_rfl⟩
    exact forall_mem_map.2 fun c hc => capSlots_nonneg h hc
  refine ⟨⟨?_, ?_, ?_, ?_, ?_, h.maxNumProcessors⟩, ?_⟩
  · have hp := jp.getNumSlots_candPtr.map CandHost.hData
    rw [map_map] at hp
    exact hp.nodup_iff.2 h.hosts
  · intro c hc
    obtain ⟨d, hd, rfl⟩ := hmem c hc
    exact capSlots_nonneg h hd
  · intro c hc
    obtain ⟨d, hd, rfl⟩ := hmem c hc
    exact h.backfillSlots d hd
  · exact le_min h.numSlots hcount.1
  · exact le_min h.numAvailSlots hcount.2
  · intro c hc
    obtain ⟨d, -, rfl⟩ := hmem c hc
    simp only [capSlots]
    omega

/-! ## The sorted backfillees -/

theorem mem_insertIntoSortedBackfilleeList {item : Backfillee} {l : List Backfillee} :
    b ∈ jp.insertIntoSortedBackfilleeList item l ↔ b = item ∨ b ∈ l := by
  induction l with
  | nil => simp [insertIntoSortedBackfilleeList]
  | cons entry l ih =>
    unfold insertIntoSortedBackfilleeList
    split
    · exact mem_cons
    · rw [mem_cons, mem_cons, ih]
      tauto

theorem mem_foldl_insert {items l : List Backfillee} :
    b ∈ items.foldl (fun l b => jp.insertIntoSortedBackfilleeList b l) l ↔ b ∈ items ∨ b ∈ l := by
  induction items generalizing l with
  | nil => simp
  | cons item items ih =>
    rw [foldl_cons, ih, mem_insertIntoSortedBackfilleeList, mem_cons]
    tauto

theorem candHost_eq {i : Nat} (h : (c, i) ∈ jp.candPtr.zipIdx) :
    i < jp.candPtr.length ∧ jp.candHost i = c := by
  have hget := mem_zipIdx_iff_getElem?.1 h
  refine ⟨(List.getElem?_eq_some_iff.1 hget).1, ?_⟩
  simp [candHost, getD_eq_getElem?_getD, hget]

theorem candHost_mem {i : Nat} (h : i < jp.candPtr.length) :
    jp.candHost i ∈ jp.candPtr := by
  rw [candHost, getD_eq_getElem _ _ h]
  exact getElem_mem h

theorem Left.candHost_inj (hjp : jp.Left) {i j : Nat} (hi : i < jp.candPtr.length)
    (hj : j < jp.candPtr.length) (h : (jp.candHost i).hData = (jp.candHost j).hData) : i = j := by
  rw [candHost, candHost, getD_eq_getElem _ _ hi,
    getD_eq_getElem _ _ hj] at h
  have hi' : i < (jp.candPtr.map CandHost.hData).length := by simpa using hi
  have hj' : j < (jp.candPtr.map CandHost.hData).length := by simpa using hj
  have h' : (jp.candPtr.map CandHost.hData)[i] = (jp.candPtr.map CandHost.hData)[j] := by
    simpa using h
  exact hjp.hosts.getElem_inj_iff.1 h'

/-- A sorted backfillee belongs to a candidate host and has a number of slots. -/
theorem sortBackfillee_mem (h : jp.Ready) (hb : b ∈ jp.sortBackfillee) :
    b.indexInCandHostList < jp.candPtr.length ∧ 0 ≤ b.backfillSlots := by
  simp only [sortBackfillee, mem_foldl_insert, mem_flatMap, mem_map,
    not_mem_nil, or_false] at hb
  obtain ⟨⟨c, i⟩, hci, d, hd, rfl⟩ := hb
  obtain ⟨hi, rfl⟩ := candHost_eq hci
  exact ⟨hi, h.backfillSlots _ (candHost_mem hi) d hd⟩

end AllocJob

variable {jp : AllocJob} {l : List CandHost} {f : Filling} {es : List ExecCand}

/-! ## The books of the backfill branch -/

def indices (bcs : List BackfillCand) : List Nat := bcs.map BackfillCand.indexInCandHostList

/-- The total is right, no candidate is chosen twice, and none gives more slots than it has. -/
structure Filling.Wf (jp : AllocJob) (f : Filling) : Prop where
  total : f.total = (f.backfillCandPtr.map BackfillCand.numSlots).sum
  nodup : (indices f.backfillCandPtr).Nodup
  cand : ∀ bc ∈ f.backfillCandPtr, bc.indexInCandHostList < jp.candPtr.length ∧
    bc.numSlots ≤ (jp.candHost bc.indexInCandHostList).numSlots

/-- While only slots at hand are given, all slots given are slots at hand. -/
structure Filling.AvailWf (jp : AllocJob) (f : Filling) : Prop where
  total : f.total = (f.backfillCandPtr.map BackfillCand.numAvailSlots).sum
  nodup : (indices f.backfillCandPtr).Nodup
  cand : ∀ bc ∈ f.backfillCandPtr, bc.indexInCandHostList < jp.candPtr.length ∧
    bc.numSlots = bc.numAvailSlots ∧
    bc.numAvailSlots ≤ (jp.candHost bc.indexInCandHostList).numAvailSlots

theorem Filling.AvailWf.wf (hjp : jp.Left) (h : f.AvailWf jp) :
    f.Wf jp where
  total := by
    rw [h.total, map_congr_left fun bc hbc => (h.cand bc hbc).2.1.symm]
  nodup := h.nodup
  cand := fun bc hbc => by
    obtain ⟨hi, heq, hle⟩ := h.cand bc hbc
    exact ⟨hi, heq ▸ hle.trans (hjp.avail_le _ (AllocJob.candHost_mem hi))⟩

section Enter

variable {b : Backfillee} {m s : Int} {l : List BackfillCand}

/-- A list of indices with one more, in the order in which they were seen first. -/
def insertNew (l : List Nat) (i : Nat) : List Nat := if i ∈ l then l else l ++ [i]

theorem nodup_insertNew {l : List Nat} (h : l.Nodup) (i : Nat) : (insertNew l i).Nodup :=
  Loop.nodup_foldl_addNew h [i]

theorem enterBackfillee_sum :
    ((enterBackfillee b m s l).2.map BackfillCand.numAvailSlots).sum =
      (l.map BackfillCand.numAvailSlots).sum + (enterBackfillee b m s l).1 := by
  induction l with
  | nil => simp [enterBackfillee]
  | cons bc l ih =>
    unfold enterBackfillee
    split
    · simp only [map_cons, sum_cons]
      omega
    · simp only [map_cons, sum_cons, ih]
      omega

theorem indices_enterBackfillee :
    indices (enterBackfillee b m s l).2 = insertNew (indices l) b.indexInCandHostList := by
  induction l with
  | nil => rfl
  | cons bc l ih =>
    unfold enterBackfillee
    split
    · rename_i h
      simp [indices, insertNew, h]
    · rename_i h
      have ih' : List.map BackfillCand.indexInCandHostList (enterBackfillee b m s l).2 =
          insertNew (l.map BackfillCand.indexInCandHostList) b.indexInCandHostList := ih
      simp only [indices, map_cons, ih', insertNew, mem_cons, h, false_or]
      split
      · rfl
      · rfl

theorem mem_enterBackfillee (hs : s ≤ m) {bc : BackfillCand}
    (h : bc ∈ (enterBackfillee b m s l).2) :
    bc ∈ l ∨ bc.indexInCandHostList = b.indexInCandHostList ∧
      bc.numSlots = bc.numAvailSlots ∧ bc.numAvailSlots ≤ m := by
  induction l with
  | nil =>
    obtain rfl := mem_singleton.1 h
    exact .inr ⟨rfl, rfl, hs⟩
  | cons bc' l ih =>
    unfold enterBackfillee at h
    split at h
    · rename_i heq
      rcases mem_cons.1 h with rfl | h
      · exact .inr ⟨heq.symm, rfl, show bc'.numAvailSlots + min s (m - bc'.numAvailSlots) ≤ m by
          omega⟩
      · exact .inl (mem_cons_of_mem _ h)
    · rcases mem_cons.1 h with rfl | h
      · exact .inl mem_cons_self
      · exact (ih h).imp_left (mem_cons_of_mem _)

end Enter

namespace AllocJob

theorem availWf_takeBackfillee
    (hb : b.indexInCandHostList < jp.candPtr.length) (h : f.AvailWf jp) :
    (jp.takeBackfillee f b).AvailWf jp where
  total := by
    simp only [takeBackfillee, enterBackfillee_sum, h.total]
  nodup := by
    simp only [takeBackfillee, indices_enterBackfillee]
    exact nodup_insertNew h.nodup _
  cand := by
    intro bc hbc
    rcases mem_enterBackfillee (min_le_left _ _) hbc with hbc | ⟨hi, heq, hle⟩
    · exact h.cand bc hbc
    · exact ⟨hi ▸ hb, heq, hi ▸ hle⟩

theorem availWf_fillBackfillees (hjp : jp.Ready) :
    jp.fillBackfillees.AvailWf jp := by
  refine loop_inv (Filling.AvailWf jp) (fun f b hb _ hf => ?_) ⟨rfl, nodup_nil, by simp⟩
  exact availWf_takeBackfillee (sortBackfillee_mem hjp hb).1 hf

section TakeRest

variable (jp : AllocJob) (n : Int) (bc : BackfillCand)

theorem takeRest_fst : (jp.takeRest n bc).1 =
    n + min ((jp.candHost bc.indexInCandHostList).numAvailSlots - bc.numAvailSlots)
      (jp.maxNumProcessors - n) := by
  unfold takeRest
  dsimp only
  split
  · rename_i h
    rw [h, Int.add_zero]
  · rfl

theorem takeRest_index :
    (jp.takeRest n bc).2.indexInCandHostList = bc.indexInCandHostList := by
  unfold takeRest
  dsimp only
  split
  · rfl
  · rfl

theorem takeRest_avail :
    (jp.takeRest n bc).1 - n = (jp.takeRest n bc).2.numAvailSlots - bc.numAvailSlots := by
  unfold takeRest
  dsimp only
  split
  · simp
  · dsimp only
    omega

theorem takeRest_numSlots (h : bc.numSlots = bc.numAvailSlots) :
    (jp.takeRest n bc).2.numSlots = (jp.takeRest n bc).2.numAvailSlots := by
  unfold takeRest
  dsimp only
  split
  · exact h
  · rfl

end TakeRest

theorem availWf_fillRest (h : f.AvailWf jp) :
    (jp.fillRest f).AvailWf jp where
  total := by
    have hsum : (jp.fillRest f).total - f.total = _ := update_sum jp.takeRest_avail _ _
    have htotal := h.total
    simp only [fillRest] at hsum ⊢
    omega
  nodup := by
    have hmap : indices (jp.fillRest f).backfillCandPtr = _ := update_map jp.takeRest_index _ _
    rw [hmap]
    exact h.nodup
  cand := by
    refine update_forall h.cand (fun n bc hbc _ => ?_) _
    obtain ⟨hi, heq, hle⟩ := h.cand bc hbc
    have h1 := jp.takeRest_fst n bc
    have h2 := jp.takeRest_avail n bc
    rw [jp.takeRest_index]
    exact ⟨hi, jp.takeRest_numSlots n bc heq, by omega⟩

theorem nodup_indices_snoc {bcs : List BackfillCand} (bc : BackfillCand)
    (h : (indices bcs).Nodup)
    (hnew : ¬ candHostInBackfillCandList bcs bc.indexInCandHostList = true) :
    (indices (bcs ++ [bc])).Nodup := by
  simp only [indices, map_append, map_cons, map_nil]
  refine h.append (nodup_singleton _) ?_
  simpa [candHostInBackfillCandList, indices] using hnew

theorem availWf_takeOther {ci : CandHost × Nat} (hci : ci ∈ jp.candPtr.zipIdx)
    (h : f.AvailWf jp) : (jp.takeOther f ci).AvailWf jp := by
  obtain ⟨c, i⟩ := ci
  obtain ⟨hi, rfl⟩ := candHost_eq hci
  unfold takeOther
  dsimp only
  split
  · exact h
  · rename_i hnew
    split
    · exact h
    · refine ⟨by simp [h.total], nodup_indices_snoc _ h.nodup hnew, ?_⟩
      · refine forall_mem_append.2 ⟨h.cand, ?_⟩
        simp only [forall_mem_singleton]
        exact ⟨hi, trivial, min_le_left _ _⟩

theorem availWf_fillAvail (hjp : jp.Ready) : jp.fillAvail.AvailWf jp :=
  loop_inv (Filling.AvailWf jp) (fun _ _ hci _ hf => availWf_takeOther hci hf)
    (availWf_fillRest (availWf_fillBackfillees hjp))

/-! ### Slots to be reserved -/

section ReserveRest

variable (jp : AllocJob) (n : Int) (bc : BackfillCand)

theorem reserveRest_index :
    (jp.reserveRest n bc).2.indexInCandHostList = bc.indexInCandHostList := by
  unfold reserveRest
  dsimp only
  split
  · rfl
  · rfl

theorem reserveRest_total :
    (jp.reserveRest n bc).1 - n = (jp.reserveRest n bc).2.numSlots - bc.numSlots := by
  unfold reserveRest
  dsimp only
  split
  · simp
  · dsimp only
    omega

theorem reserveRest_le
    (h : bc.numSlots ≤ (jp.candHost bc.indexInCandHostList).numSlots) :
    (jp.reserveRest n bc).2.numSlots ≤ (jp.candHost bc.indexInCandHostList).numSlots := by
  unfold reserveRest
  dsimp only
  split
  · exact h
  · dsimp only
    omega

end ReserveRest

theorem wf_reserveOther {ci : CandHost × Nat} (hci : ci ∈ jp.candPtr.zipIdx) (h : f.Wf jp) :
    (jp.reserveOther f ci).Wf jp := by
  obtain ⟨c, i⟩ := ci
  obtain ⟨hi, rfl⟩ := candHost_eq hci
  unfold reserveOther
  dsimp only
  split
  · exact h
  · rename_i hnew
    split
    · exact h
    · refine ⟨by simp [h.total], nodup_indices_snoc _ h.nodup hnew, ?_⟩
      · refine forall_mem_append.2 ⟨h.cand, ?_⟩
        simp only [forall_mem_singleton]
        exact ⟨hi, min_le_left _ _⟩

theorem wf_fillReserve (h : f.Wf jp) :
    (jp.fillReserve f).Wf jp := by
  unfold fillReserve
  split
  · refine loop_inv (Filling.Wf jp) (fun _ _ hci _ hf => wf_reserveOther hci hf)
      ⟨?_, ?_, ?_⟩
    · have hsum : (update (jp.Reserves id) jp.reserveRest f.total f.backfillCandPtr).1 - f.total =
        _ := update_sum jp.reserveRest_total _ _
      have htotal := h.total
      dsimp only
      omega
    · show (indices _).Nodup
      unfold indices
      rw [update_map jp.reserveRest_index]
      exact h.nodup
    · refine update_forall h.cand (fun n bc hbc _ => ?_) _
      obtain ⟨hi, hle⟩ := h.cand bc hbc
      rw [jp.reserveRest_index]
      exact ⟨hi, jp.reserveRest_le n bc hle⟩
  · exact h

end AllocJob

/-! ## The books of the job -/

/-- The entry has the slots of a candidate with its host, or is an empty one. -/
def AllocJob.Covers (jp : AllocJob) (e : ExecCand) : Prop :=
  match e.hData with
  | none => e.numSlots ≤ 0
  | some h => ∃ c ∈ jp.candPtr, c.hData = h ∧ e.numSlots ≤ c.numSlots

/-- `numEligProc` is the number of slots on the chosen hosts, each host gives at most what it
has, and none occurs twice. -/
structure Procs.Sound (jp : AllocJob) (p : Procs) : Prop where
  total : p.numEligProc = (p.execCandPtr.map ExecCand.numSlots).sum
  covers : ∀ e ∈ p.execCandPtr, jp.Covers e
  nodup : (p.execCandPtr.filterMap ExecCand.hData).Nodup

theorem AllocJob.sound_backfillProcs (hjp : jp.Left) :
    jp.backfillProcs.Sound jp := by
  have hwf := AllocJob.wf_fillReserve ((AllocJob.availWf_fillAvail hjp.toReady).wf hjp)
  unfold AllocJob.backfillProcs
  dsimp only
  generalize jp.fillReserve jp.fillAvail = f at hwf ⊢
  refine ⟨?_, ?_, ?_⟩
  · rw [map_map, hwf.total]
    rfl
  · refine forall_mem_map.2 fun bc hbc => ?_
    obtain ⟨hi, hle⟩ := hwf.cand bc hbc
    exact ⟨_, AllocJob.candHost_mem hi, rfl, hle⟩
  · have hmap : (f.backfillCandPtr.map jp.toExec).filterMap ExecCand.hData =
        (indices f.backfillCandPtr).map fun i => (jp.candHost i).hData := by
      rw [filterMap_map, indices, map_map, ← filterMap_eq_map]
      rfl
    rw [hmap]
    refine List.Nodup.map_on ?_ hwf.nodup
    -- two indices with one host are the same, as no host is a candidate twice
    intro i hi j hj heq
    obtain ⟨bc, hbc, rfl⟩ := mem_map.1 hi
    obtain ⟨bc', hbc', rfl⟩ := mem_map.1 hj
    exact hjp.candHost_inj (hwf.cand bc hbc).1 (hwf.cand bc' hbc').1 heq

/-! ### The plain branch -/

/-- The entry made for candidate `c`. -/
def Matches (c : CandHost) (e : ExecCand) : Prop :=
  e.hData = some c.hData ∧ e.numSlots ≤ c.numSlots ∨ e.hData = none ∧ e.numSlots ≤ 0

theorem AllocJob.covers_of_matches {e : ExecCand} (hc : c ∈ jp.candPtr)
    (h : Matches c e) : jp.Covers e := by
  unfold AllocJob.Covers
  rcases h with ⟨hd, hle⟩ | ⟨hd, hle⟩
  · rw [hd]
    exact ⟨c, hc, rfl, hle⟩
  · rw [hd]
    exact hle

theorem covers_of_forall₂ (hl : ∀ c ∈ l, c ∈ jp.candPtr) (h : List.Forall₂ Matches l es) :
    ∀ e ∈ es, jp.Covers e := by
  induction h with
  | nil => simp
  | @cons c e l es hce _ ih =>
    refine forall_mem_cons.2 ⟨?_, ih fun d hd => hl d (mem_cons_of_mem _ hd)⟩
    exact AllocJob.covers_of_matches (hl c mem_cons_self) hce

theorem filterMap_hData_sublist (h : List.Forall₂ Matches l es) :
    (es.filterMap ExecCand.hData).Sublist (l.map CandHost.hData) := by
  induction h with
  | nil => exact .slnil
  | cons hce _ ih =>
    rcases hce with ⟨hd, -⟩ | ⟨hd, -⟩
    · rw [filterMap_cons_some hd, map_cons]
      exact ih.cons_cons _
    · rw [filterMap_cons_none hd, map_cons]
      exact ih.cons _

/-- The entry of the first loop for candidate `c`: all its slots are slots at hand. -/
def MatchesAvail (c : CandHost) (e : ExecCand) : Prop :=
  e.hData = some c.hData ∧ e.numSlots = e.numAvailSlots ∧ e.numAvailSlots ≤ c.numSlots

theorem MatchesAvail.matches {e : ExecCand} (h : MatchesAvail c e) :
    Matches c e :=
  .inl ⟨h.1, h.2.1 ▸ h.2.2⟩

namespace AllocJob

theorem plainAvail_entries (hjp : jp.Left) :
    ∃ l₁ l₂, jp.candPtr = l₁ ++ l₂ ∧
      List.Forall₂ MatchesAvail l₁ jp.plainAvail.execCandPtr := by
  obtain ⟨l₁, l₂, es, hl, hes, h⟩ : ∃ l₁ l₂ es, jp.candPtr = l₁ ++ l₂ ∧
      jp.plainAvail.execCandPtr = [] ++ es ∧ List.Forall₂ MatchesAvail l₁ es := by
    refine loop_entries ExecFilling.execCandPtr (fun f c hc _ => ⟨_, rfl, rfl, rfl, ?_⟩) ⟨0, []⟩
    exact ((min_le_left _ _).trans (min_le_left _ _)).trans (hjp.avail_le c hc)
  exact ⟨l₁, l₂, hl, hes ▸ h⟩

theorem plainAvail_total :
    jp.plainAvail.total = (jp.plainAvail.execCandPtr.map ExecCand.numSlots).sum := by
  refine loop_inv (fun f : ExecFilling =>
    f.total = (f.execCandPtr.map ExecCand.numSlots).sum) (fun f c _ _ hf => ?_) rfl
  simp [takeAvail, hf]

/-- The plain branch keeps to both limits. -/
theorem plainAvail_le (hjp : jp.Ready) :
    jp.plainAvail.total ≤ min jp.numAvailSlots jp.maxNumProcessors := by
  refine loop_inv (fun f : ExecFilling =>
    f.total ≤ min jp.numAvailSlots jp.maxNumProcessors) (fun f c _ _ hf => ?_) ?_
  · simp only [takeAvail]
    omega
  · exact le_min hjp.numAvailSlots hjp.maxNumProcessors

section ReserveMore

variable (jp : AllocJob) (n : Int) (ce : CandHost × ExecCand)

theorem reserveMore_cand : (jp.reserveMore n ce).2.1 = ce.1 := by
  unfold reserveMore
  split
  · rfl
  · rfl

theorem reserveMore_total :
    (jp.reserveMore n ce).1 - n = (jp.reserveMore n ce).2.2.numSlots - ce.2.numSlots := by
  unfold reserveMore
  split
  · simp
  · dsimp only
    omega

theorem reserveMore_matches (h : MatchesAvail ce.1 ce.2) :
    Matches (jp.reserveMore n ce).2.1 (jp.reserveMore n ce).2.2 := by
  unfold reserveMore
  split
  · exact h.matches
  · obtain ⟨hd, heq, hle⟩ := h
    refine .inl ⟨hd, ?_⟩
    dsimp only
    omega

end ReserveMore

/-- The second loop turns the entries of a list of candidates into entries of it. -/
theorem reserveMore_entries (h : List.Forall₂ MatchesAvail l es) (n : Int) :
    List.Forall₂ Matches l
      ((update (jp.Reserves id) jp.reserveMore n (l.zip es)).2.map Prod.snd) := by
  obtain ⟨hlen, hzip⟩ := forall₂_iff_zip.1 h
  have hcand : (update (jp.Reserves id) jp.reserveMore n (l.zip es)).2.map Prod.fst = l := by
    rw [update_map jp.reserveMore_cand, map_fst_zip (by omega)]
  have hall : ∀ ce ∈ (update (jp.Reserves id) jp.reserveMore n (l.zip es)).2,
      Matches ce.1 ce.2 :=
    update_forall (fun ce hce => (hzip hce).matches)
      (fun n ce hce _ => jp.reserveMore_matches n ce (hzip hce)) n
  conv_lhs => rw [← hcand]
  rw [forall₂_map_left_iff, forall₂_map_right_iff]
  exact forall₂_same.2 hall

theorem reserveMore_sum {n : Int} (hlen : l.length = es.length)
    (hn : n = (es.map ExecCand.numSlots).sum) :
    (update (jp.Reserves id) jp.reserveMore n (l.zip es)).1 =
      (((update (jp.Reserves id) jp.reserveMore n (l.zip es)).2.map Prod.snd).map
        ExecCand.numSlots).sum := by
  have hsum : (update (jp.Reserves id) jp.reserveMore n (l.zip es)).1 - n = _ :=
    update_sum (f := fun ce => ce.2.numSlots) jp.reserveMore_total n (l.zip es)
  have hes : (l.zip es).map (fun ce => ce.2.numSlots) = es.map ExecCand.numSlots := by
    have hsnd : (l.zip es).map Prod.snd = es := map_snd_zip (by omega)
    conv_rhs => rw [← hsnd, map_map]
    rfl
  rw [map_map]
  rw [hes] at hsum
  simp only [Function.comp_def]
  omega

theorem reserveCand_entries (f : ExecFilling) (l : List CandHost) :
    ∃ l₁ l₂ es, l = l₁ ++ l₂ ∧
      (loop (jp.Reserves ExecFilling.total) jp.reserveCand f l).execCandPtr =
        f.execCandPtr ++ es ∧ List.Forall₂ Matches l₁ es := by
  refine loop_entries ExecFilling.execCandPtr (fun f c _ _ => ?_) f
  unfold reserveCand
  split
  · exact ⟨_, rfl, .inr ⟨rfl, le_rfl⟩⟩
  · exact ⟨_, rfl, .inl ⟨rfl, min_le_left _ _⟩⟩

theorem reserveCand_total {f : ExecFilling}
    (h : f.total = (f.execCandPtr.map ExecCand.numSlots).sum) :
    (loop (jp.Reserves ExecFilling.total) jp.reserveCand f l).total =
      ((loop (jp.Reserves ExecFilling.total) jp.reserveCand f l).execCandPtr.map
        ExecCand.numSlots).sum := by
  refine loop_inv (fun f : ExecFilling =>
    f.total = (f.execCandPtr.map ExecCand.numSlots).sum) (fun f c _ _ hf => ?_) h
  unfold reserveCand
  split
  · simpa using hf
  · simp [hf]

/-- Where the entries belong to a first part of the candidates, reserving further slots leaves
entries of a first part of the candidates, with the right total. -/
theorem plainReserve_entries {l₁ l₂ : List CandHost} {f : ExecFilling}
    (hl : jp.candPtr = l₁ ++ l₂) (hes : List.Forall₂ MatchesAvail l₁ f.execCandPtr)
    (htotal : f.total = (f.execCandPtr.map ExecCand.numSlots).sum) :
    (∃ l, l.Sublist jp.candPtr ∧ List.Forall₂ Matches l (jp.plainReserve f).execCandPtr) ∧
      (jp.plainReserve f).total =
        ((jp.plainReserve f).execCandPtr.map ExecCand.numSlots).sum := by
  have hlen : l₁.length = f.execCandPtr.length := hes.length_eq
  have hzip : jp.candPtr.zip f.execCandPtr = l₁.zip f.execCandPtr := by
    rw [hl, ← append_nil f.execCandPtr, zip_append hlen]
    simp
  have hdrop : jp.candPtr.drop f.execCandPtr.length = l₂ := by
    rw [hl, ← hlen, drop_left]
  unfold plainReserve
  split
  · rw [hzip, hdrop]
    refine ⟨?_, reserveCand_total (reserveMore_sum hlen htotal)⟩
    obtain ⟨l₃, l₄, es, hl₂, hes', hmatch⟩ := jp.reserveCand_entries ⟨_, _⟩ l₂
    refine ⟨l₁ ++ l₃, ?_, ?_⟩
    · rw [hl, hl₂, ← append_assoc]
      exact sublist_append_left _ _
    · rw [hes']
      exact rel_append (reserveMore_entries hes f.total) hmatch
  · exact ⟨⟨l₁, hl ▸ sublist_append_left _ _, hes.imp fun _ _ h => h.matches⟩, htotal⟩

theorem sound_plainProcs (hjp : jp.Left) : jp.plainProcs.Sound jp := by
  obtain ⟨l₁, l₂, hl, hes⟩ := plainAvail_entries hjp
  obtain ⟨⟨l, hsub, hmatch⟩, hsum⟩ :=
    plainReserve_entries hl hes jp.plainAvail_total
  refine ⟨hsum, covers_of_forall₂ (fun c hc => hsub.subset hc) hmatch, ?_⟩
  exact hjp.hosts.sublist ((filterMap_hData_sublist hmatch).trans (hsub.map _))

end AllocJob

/-! ### Freeing or giving back borrowed slots -/

/-- The entry is for the same host and has no more slots. -/
def Lowers (e e' : ExecCand) : Prop := e'.hData = e.hData ∧ e'.numSlots ≤ e.numSlots

theorem AllocJob.Covers.of_lowers {e e' : ExecCand} (h : jp.Covers e) (hl : Lowers e e') :
    jp.Covers e' := by
  obtain ⟨hd, hle⟩ := hl
  unfold AllocJob.Covers at h ⊢
  rw [hd]
  cases hdata : e.hData with
  | none =>
    rw [hdata] at h
    exact hle.trans h
  | some host =>
    rw [hdata] at h
    obtain ⟨c, hc, hhost, hcle⟩ := h
    exact ⟨c, hc, hhost, hle.trans hcle⟩

theorem filterMap_hData_of_lowers {es es' : List ExecCand} (h : List.Forall₂ Lowers es es') :
    es'.filterMap ExecCand.hData = es.filterMap ExecCand.hData := by
  induction h with
  | nil => rfl
  | cons hl _ ih => rw [filterMap_cons, filterMap_cons, hl.1, ih]

theorem covers_of_lowers {es es' : List ExecCand} (h : List.Forall₂ Lowers es es')
    (hes : ∀ e ∈ es, jp.Covers e) : ∀ e ∈ es', jp.Covers e := by
  induction h with
  | nil => exact hes
  | cons hl _ ih =>
    rw [forall_mem_cons] at hes ⊢
    exact ⟨hes.1.of_lowers hl, ih hes.2⟩

variable {p : Procs}

theorem Procs.Sound.of_lowers {p' : Procs} (h : p.Sound jp)
    (hes : List.Forall₂ Lowers p.execCandPtr p'.execCandPtr)
    (htotal : p'.numEligProc = (p'.execCandPtr.map ExecCand.numSlots).sum) : p'.Sound jp where
  total := htotal
  covers := covers_of_lowers hes h.covers
  nodup := filterMap_hData_of_lowers hes ▸ h.nodup

theorem AllocJob.sound_getBackfillSlots (h : p.Sound jp) :
    (jp.getBackfillSlotsOnExecCandHost p).Sound jp := by
  refine h.of_lowers ?_ ?_
  · conv_lhs => rw [← zipIdx_map_fst 0 p.execCandPtr]
    exact forall₂_map_left_iff.2 (forall₂_map_right_iff.2
      (forall₂_same.2 fun _ _ => ⟨rfl, le_rfl⟩))
  · have hslots : p.execCandPtr.map ExecCand.numSlots =
        (jp.getBackfillSlotsOnExecCandHost p).execCandPtr.map ExecCand.numSlots := by
      conv_lhs => rw [← zipIdx_map_fst 0 p.execCandPtr]
      simp only [AllocJob.getBackfillSlotsOnExecCandHost, map_map, Function.comp_def]
    rw [← hslots]
    exact h.total

/-- Slots given back: they leave the entry and are counted. -/
theorem foldl_giveBack (c : CandHost) (bs : List Backfillee) (r : Removal) :
    let r' := bs.foldl (Removal.giveBack c) r
    Lowers r.entry r'.entry ∧
      r'.entry.numSlots + r'.totalSlots = r.entry.numSlots + r.totalSlots ∧
      r.totalAvailSlots ≤ r'.totalAvailSlots := by
  induction bs generalizing r with
  | nil => exact ⟨⟨rfl, le_rfl⟩, rfl, le_rfl⟩
  | cons b bs ih =>
    obtain ⟨⟨hd, hle⟩, hsum, havail⟩ := ih (r.giveBack c b)
    simp only [Removal.giveBack] at hd hle hsum havail
    simp only [foldl_cons, Removal.giveBack]
    exact ⟨⟨hd, by omega⟩, by omega, by omega⟩

namespace AllocJob

theorem removal_spec (e : ExecCand) :
    Lowers e (jp.removal e).entry ∧
      (jp.removal e).totalSlots = e.numSlots - (jp.removal e).entry.numSlots ∧
      0 ≤ (jp.removal e).totalAvailSlots := by
  obtain ⟨hl, hsum, havail⟩ := foldl_giveBack (jp.candOf e) e.backfilleeList ⟨e, 0, 0⟩
  refine ⟨hl, ?_, havail⟩
  unfold removal
  simp only at hsum
  omega

theorem sound_remove (h : p.Sound jp) :
    (jp.removeBackfillSlotsFromBackfiller p).Sound jp := by
  refine h.of_lowers ?_ ?_
  · simp only [removeBackfillSlotsFromBackfiller, map_map]
    exact forall₂_map_right_iff.2 (forall₂_same.2 fun e _ => (jp.removal_spec e).1)
  · have hsum : (p.execCandPtr.map ExecCand.numSlots).sum =
        (p.execCandPtr.map fun e =>
          (jp.removal e).entry.numSlots + (jp.removal e).totalSlots).sum := by
      refine congrArg List.sum (map_congr_left fun e _ => ?_)
      have he := (jp.removal_spec e).2.1
      omega
    rw [sum_map_add] at hsum
    simp only [removeBackfillSlotsFromBackfiller, map_map, h.total,
      Function.comp_def]
    omega

theorem remove_avail_le (p : Procs) :
    (jp.removeBackfillSlotsFromBackfiller p).numAvailEligProc ≤ p.numAvailEligProc := by
  have hsum : 0 ≤ ((p.execCandPtr.map jp.removal).map Removal.totalAvailSlots).sum := by
    refine sum_nonneg ?_
    simp only [forall_mem_map]
    exact fun e _ => (jp.removal_spec e).2.2
  simp only [removeBackfillSlotsFromBackfiller]
  omega

theorem sound_doBackfill (h : p.Sound jp) :
    (jp.doBackfill p).Sound jp := by
  unfold doBackfill
  split
  · exact h
  · exact sound_remove h

theorem doBackfill_avail_le (p : Procs) :
    (jp.doBackfill p).numAvailEligProc ≤ p.numAvailEligProc := by
  unfold doBackfill
  split
  · exact le_rfl
  · exact jp.remove_avail_le p

/-- **`getNumProcs` keeps its books** in both branches. -/
theorem sound_getNumProcs (hjp : jp.Left) : jp.getNumProcs.Sound jp := by
  unfold getNumProcs
  split
  · exact sound_doBackfill (sound_backfillProcs hjp)
  · split
    · exact sound_doBackfill
        (sound_getBackfillSlots (sound_plainProcs hjp))
    · exact sound_plainProcs hjp

end AllocJob

/-! ### The hosts of the job -/

theorem contiguous_slots {es : List ExecCand} (hnone : ∀ e ∈ es, e.hData = none → e.numSlots ≤ 0)
    (hnd : (es.filterMap ExecCand.hData).Nodup) :
    Contiguous (· = ·) (es.flatMap fun e => replicate e.numSlots.toNat e.hData) := by
  induction es with
  | nil => exact fun x y z hs => by simp at hs
  | cons e es ih =>
    rw [forall_mem_cons] at hnone
    rw [flatMap_cons]
    cases hd : e.hData with
    | none =>
      rw [filterMap_cons_none hd] at hnd
      rw [Int.toNat_of_nonpos (hnone.1 hd)]
      exact ih hnone.2 hnd
    | some host =>
      rw [filterMap_cons_some hd, nodup_cons] at hnd
      refine (ih hnone.2 hnd.2).replicate_append (fun hmem => hnd.1 ?_) _
      obtain ⟨e', he', hrep⟩ := mem_flatMap.1 hmem
      exact mem_filterMap.2 ⟨e', he', (eq_of_mem_replicate hrep).symm⟩

/-- **The slots of one host stand together** in the hosts `allocHosts` gives the job. -/
theorem Procs.Sound.contiguous_allocHosts (h : p.Sound jp) {hosts : List (Option HData)}
    (hosts_eq : p.allocHosts = some hosts) : Contiguous (· = ·) hosts := by
  unfold Procs.allocHosts at hosts_eq
  split at hosts_eq
  · cases hosts_eq
  · cases hosts_eq
    refine contiguous_slots (fun e he hd => ?_) h.nodup
    have hcov := h.covers e he
    rw [AllocJob.Covers, hd] at hcov
    exact hcov

end Volclava
