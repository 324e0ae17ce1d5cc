import Volclava.HostSlots
import Volclava.Reservation

/-!
# Looking for slots to backfill

A job with a run limit may borrow slots that other jobs have reserved on a host, if it is expected
to end before they start. To find out how many slots it would get, `getHostJobSlots`
(`mbd.policy.c`) really takes the slots away from the jobs on the host's list of reserving jobs,
asks the limits (`HostSlots`), and then gives the slots back. While it walks the list, every job
that lends slots is taken off the list and entered at its back again. Where a limit is reached the
function returns before the slots are given back. And `freeReserveSlots` counts the hosts of a job
out of `numDispJobs`, where `reserveSlots` never counts them in again.

- `collect`: the walk over the host's list.
- `collect_isSome`: the walk ends, although it appends to the list it walks.
- `unchanged_iff_no_lender`: reservations survive exactly when no job lends a slot.
-/

namespace Volclava.HostBackfill

open Ledger Runs List

/-! ## The function -/

/-- A candidate host of a job. -/
structure CandHost (H : Type) where
  hData : H
  numAvailSlots : Nat
  deriving DecidableEq

/-- What the search reads besides the reservations. `finishTime` is the time at which the job that
looks for slots would end on the host, as the machine computes
`now + RUN_LIMIT_OF_JOB(jp)/hp->cpuFactor`, and `predictedStartTime` is the time the code has for a
job, converted to the `float` it is compared as. -/
structure Search (J H : Type) where
  canBackfill : Bool
  hostUsable : Bool
  finishTime : ℚ
  predictedStartTime : J → Int
  candPtr : J → List (CandHost H)

/-- `struct backfillee`: a job that lends slots, with its host list as it was. -/
structure Backfillee (J H : Type) where
  backfilleePtr : J
  indexInCandHostList : Nat
  backfillSlots : Nat
  numHostPtr : Int
  hPtr : List H
  deriving DecidableEq

variable {J Q U H : Type} [DecidableEq H]

/-- How many slots on the host a job lends; the job is passed over where there are none. -/
def backfillSlots (sr : Search J H) (hp : H) (s : Rsv J Q U H) (j : J) : Nat :=
  if sr.predictedStartTime j = 0 ∨ (sr.predictedStartTime j : ℚ) < sr.finishTime then 0
  else
    match (sr.candPtr j).find? (fun c => c.hData = hp) with
    | none => 0
    | some c => min c.numAvailSlots ((s.job j).hPtr.count hp)

theorem backfillSlots_le (sr : Search J H) (hp : H) (s : Rsv J Q U H) (j : J) :
    backfillSlots sr hp s j ≤ (s.job j).hPtr.count hp := by
  unfold backfillSlots
  split
  · exact Nat.zero_le _
  · split
    · exact Nat.zero_le _
    · exact min_le_right _ _

/-- As many rounds as the walk can take: every round looks at one entry more or takes a slot. -/
def rounds (hp : H) (s : Rsv J Q U H) (l : List J) : Nat :=
  (l.map fun j => (s.job j).hPtr.count hp + 1).sum

theorem rounds_congr {hp : H} {s s' : Rsv J Q U H} {l : List J} (h : ∀ j ∈ l, s'.job j = s.job j) :
    rounds hp s' l = rounds hp s l := by
  unfold rounds
  congr 1
  refine map_congr_left ?_
  intro j hj
  rw [h j hj]

theorem rounds_append (hp : H) (s : Rsv J Q U H) (l l' : List J) :
    rounds hp s (l ++ l') = rounds hp s l + rounds hp s l' := by
  rw [rounds, map_append, sum_append]
  rfl

variable [DecidableEq J] [DecidableEq Q] [DecidableEq U]

/-- Takes slots on the host away from a job. -/
def borrow (env : RsvEnv Q U) (hp : H) (s : Rsv J Q U H) (j : J) (num : Nat) : Rsv J Q U H :=
  s.rebook env j
    (if s.numHostPtr j - num ≠ 0 then removeNOccuranceOfHost hp num (s.job j).hPtr else [])
    (s.numHostPtr j - num)

/-- The entry behind a job in a list, which the iterator moves to before the job is looked at. -/
def nextEntry (l : List J) (j : J) : Option J := (l.dropWhile (fun k => k ≠ j)).tail.head?

/-- The walk over the host's list of reserving jobs. `none`: it has not ended within the rounds. -/
def collect (sr : Search J H) (env : RsvEnv Q U) (hp : H) :
    Nat → Rsv J Q U H → Option J → List (Backfillee J H) →
      Option (Rsv J Q U H × List (Backfillee J H))
  | _, s, none, l => some (s, l)
  | 0, _, some _, _ => none
  | n + 1, s, some j, l =>
    if backfillSlots sr hp s j = 0 then
      collect sr env hp n s (nextEntry (s.pxyRsvJL hp) j) l
    else
      collect sr env hp n (borrow env hp s j (backfillSlots sr hp s j))
        (nextEntry (s.pxyRsvJL hp) j)
        (l ++ [⟨j, 0, backfillSlots sr hp s j, s.numHostPtr j, (s.job j).hPtr⟩])

/-- Gives the slots back, entry by entry in the order in which they were taken. -/
def giveBack (env : RsvEnv Q U) (l : List (Backfillee J H)) (s : Rsv J Q U H) : Rsv J Q U H :=
  l.foldl (fun s e =>
    let jp := e.backfilleePtr
    let s := if s.numHostPtr jp ≠ 0 then s.freeReserveSlots env jp else s
    (s.setHosts jp e.hPtr e.numHostPtr).reserveSlots env jp) s

/-- What `getHostJobSlots` returns, with the reservations afterwards and the list of backfillees. -/
structure Outcome (J Q U H : Type) where
  answer : HostSlots.Answer
  state : Rsv J Q U H
  backfilleeList : List (Backfillee J H)

/-- The end of the function: a limit that is reached makes it return at once. -/
def conclude (env : RsvEnv Q U) (r : Rsv J Q U H × List (Backfillee J H))
    (answer : HostSlots.Answer) : Outcome J Q U H :=
  if answer.numSlots = 0 then ⟨answer, r.1, []⟩
  else ⟨answer, giveBack env r.2 r.1, r.2.map fun e => { e with hPtr := [], numHostPtr := 0 }⟩

/-- `getHostJobSlots`. The limits are asked with the totals as they are at that moment; `view` is
what `HostSlots` reads from the state. -/
def getHostJobSlots (sr : Search J H) (env : RsvEnv Q U) (fm : HostSlots.FloatMul)
    (view : Rsv J Q U H → HostSlots.Cluster H U Q) (uninit : Int) (jp : HostSlots.JData U Q)
    (hp : H) (noHULimits : Bool) (s : Rsv J Q U H) : Option (Outcome J Q U H) :=
  (if sr.canBackfill && sr.hostUsable then
      collect sr env hp (rounds hp s (s.pxyRsvJL hp)) s (s.pxyRsvJL hp).head? []
    else some (s, [])).map fun r =>
      conclude env r (HostSlots.getHostJobSlots fm (view r.1) uninit jp hp noHULimits)

/-! ## Without a lender nothing happens -/

variable {sr : Search J H} {env : RsvEnv Q U} {hp : H}

theorem nextEntry_eq {pre post : List J} {j : J} (hnd : (pre ++ j :: post).Nodup) :
    nextEntry (pre ++ j :: post) j = post.head? := by
  have hdrop : (pre ++ j :: post).dropWhile (fun k => k ≠ j) = j :: post := by
    rw [dropWhile_append_of_pos]
    · simp
    · intro k hk
      have hkj : k ≠ j := by
        rintro rfl
        exact (nodup_middle.mp hnd).notMem (mem_append_left _ hk)
      simpa using hkj
  rw [nextEntry, hdrop]
  rfl

variable {s : Rsv J Q U H} {rest : List J} {n : Nat}

theorem collect_of_no_lender (hnd : (s.pxyRsvJL hp).Nodup)
    (hno : ∀ j ∈ s.pxyRsvJL hp, backfillSlots sr hp s j = 0) (pre : List J)
    (hl : s.pxyRsvJL hp = pre ++ rest) (hn : rest.length ≤ n)
    (l : List (Backfillee J H)) :
    collect sr env hp n s rest.head? l = some (s, l) := by
  induction rest generalizing n pre with
  | nil => cases n <;> rfl
  | cons j post ih =>
    obtain ⟨n, rfl⟩ : ∃ m, n = m + 1 := ⟨n - 1, by simp at hn; omega⟩
    have hj : j ∈ s.pxyRsvJL hp := by rw [hl]; simp
    rw [List.head?_cons, collect, if_pos (hno j hj), hl, nextEntry_eq (hl ▸ hnd)]
    exact ih (pre ++ [j]) (by rw [hl]; simp) (by simpa using hn)

/-! ## A lender's hosts are counted out -/

theorem borrow_numDispJobs (s : Rsv J Q U H) (j : J) (num : Nat) :
    (borrow env hp s j num).totals.numDispJobs =
      (s.freeReserveSlots env j).totals.numDispJobs := by
  unfold borrow Rsv.rebook
  split
  · rw [Rsv.reserveSlots_numDispJobs]
    rfl
  · rfl

theorem collect_numDispJobs_le {cur : Option J} {l : List (Backfillee J H)}
    {r : Rsv J Q U H × List (Backfillee J H)} (h : collect sr env hp n s cur l = some r) (h' : H) :
    r.1.totals.numDispJobs h' ≤ s.totals.numDispJobs h' := by
  induction n generalizing s cur l with
  | zero =>
    cases cur with
    | none => cases h; exact le_rfl
    | some j => cases h
  | succ n ih =>
    cases cur with
    | none => cases h; exact le_rfl
    | some j =>
      rw [collect] at h
      split at h
      · exact ih h
      · refine (ih h).trans ?_
        rw [borrow_numDispJobs]
        exact Rsv.freeReserveSlots_numDispJobs_le s j h'

/-- Up to the first lender the walk changes nothing, and the lender's hosts are counted out. -/
theorem collect_numDispJobs_lt (hl : s.Listed) (pre : List J)
    (hpxy : s.pxyRsvJL hp = pre ++ rest) {l : List (Backfillee J H)}
    (hsome : ∃ j ∈ rest, backfillSlots sr hp s j ≠ 0) {r : Rsv J Q U H × List (Backfillee J H)}
    (h : collect sr env hp n s rest.head? l = some r) :
    r.1.totals.numDispJobs hp < s.totals.numDispJobs hp := by
  induction rest generalizing n pre l with
  | nil => obtain ⟨j, hj, -⟩ := hsome; cases hj
  | cons j post ih =>
    cases n with
    | zero => cases h
    | succ n =>
      rw [List.head?_cons, collect] at h
      split at h
      · next hzero =>
          rw [hpxy, nextEntry_eq (hpxy ▸ hl.nodup hp)] at h
          refine ih (pre ++ [j]) (by rw [hpxy]; simp) ?_ h
          obtain ⟨k, hk, hne⟩ := hsome
          rcases mem_cons.mp hk with rfl | hk
          · exact absurd hzero hne
          · exact ⟨k, hk, hne⟩
      · -- The job has at least one entry for the host, and all its hosts are given away.
        obtain ⟨hr, hmem⟩ := hl.reserving (h := hp) (j := j) (by rw [hpxy]; simp)
        have hle := collect_numDispJobs_le h hp
        rw [borrow_numDispJobs, Rsv.freeReserveSlots_numDispJobs hr] at hle
        have hpos := count_pos_iff.mpr hmem
        omega

theorem giveBack_numDispJobs_le (l : List (Backfillee J H)) (s : Rsv J Q U H) (h : H) :
    (giveBack env l s).totals.numDispJobs h ≤ s.totals.numDispJobs h := by
  induction l generalizing s with
  | nil => exact le_rfl
  | cons e l ih =>
    refine (ih _).trans ?_
    rw [Rsv.reserveSlots_numDispJobs]
    show Totals.numDispJobs (Rsv.totals (if _ then _ else _)) h ≤ _
    split
    · exact Rsv.freeReserveSlots_numDispJobs_le s e.backfilleePtr h
    · exact le_rfl

theorem conclude_numDispJobs_le (r : Rsv J Q U H × List (Backfillee J H))
    (answer : HostSlots.Answer) (h : H) :
    (conclude env r answer).state.totals.numDispJobs h ≤ r.1.totals.numDispJobs h := by
  unfold conclude
  split
  · exact le_rfl
  · exact giveBack_numDispJobs_le r.2 r.1 h

/-! ## The walk ends -/

theorem borrow_eq_rebook {j : J} {num : Nat} (hnum : s.numHostPtr j = (s.job j).hPtr.length)
    (hle : num ≤ (s.job j).hPtr.count hp) :
    borrow env hp s j num =
      s.rebook env j (removeNOccuranceOfHost hp num (s.job j).hPtr)
        (removeNOccuranceOfHost hp num (s.job j).hPtr).length := by
  have hlen := length_removeN hle
  have hleft : s.numHostPtr j - num =
      ((removeNOccuranceOfHost hp num (s.job j).hPtr).length : Int) := by
    rw [hnum]
    omega
  rw [borrow, hleft]
  split
  · rfl
  · next hzero =>
      have hnil : removeNOccuranceOfHost hp num (s.job j).hPtr = [] :=
        length_eq_zero_iff.mp (by omega)
      rw [hnil]

/-- **The walk ends**: a job that lends slots comes back to the end of the list, but with fewer
entries for the host. -/
theorem collect_isSome {jobs : Finset J} (hs : s.Sound env.groups jobs) (hl : s.Listed)
    (pre : List J) (hpxy : s.pxyRsvJL hp = pre ++ rest) (hn : rounds hp s rest ≤ n)
    (l : List (Backfillee J H)) :
    ∃ r, collect sr env hp n s rest.head? l = some r := by
  induction n generalizing s pre rest l with
  | zero =>
    cases rest with
    | nil => exact ⟨_, rfl⟩
    | cons j post =>
      rw [rounds, map_cons, sum_cons] at hn
      omega
  | succ n ih =>
    cases rest with
    | nil => exact ⟨_, rfl⟩
    | cons j post =>
      have hnd := hl.nodup hp
      rw [hpxy] at hnd
      have hnot := (nodup_middle.mp hnd).notMem
      have hsplit : rounds hp s (j :: post) = (s.job j).hPtr.count hp + 1 + rounds hp s post := by
        simp [rounds]
      rw [hsplit] at hn
      rw [List.head?_cons, collect, hpxy, nextEntry_eq hnd]
      split
      · exact ih hs hl (pre ++ [j]) (by rw [hpxy]; simp) (by omega) l
      · next hne =>
          obtain ⟨hr, hin⟩ := hl.reserving (h := hp) (j := j) (by rw [hpxy]; simp)
          have hle := backfillSlots_le sr hp s j
          have hruns := hs.runs j
          rw [Rsv.reserved_of_has hr] at hruns
          have hcount := count_removeN hruns hle hp
          rw [if_pos rfl] at hcount
          rw [borrow_eq_rebook (hs.numHostPtr_eq j) hle]
          have hsub := removeN_sublist hp (backfillSlots sr hp s j) (s.job j).hPtr
          generalize removeNOccuranceOfHost hp (backfillSlots sr hp s j) (s.job j).hPtr = hPtr
            at hcount hsub ⊢
          have hs' := hs.rebook hr hsub
          have hl' := hs.rebook_listed hl hr hsub
          have hb := hs.rebooked hr hPtr
          have hpxy' := hs.rebook_pxy hl hr hsub hp
          generalize s.rebook env j hPtr hPtr.length = s' at hs' hl' hb hpxy' ⊢
          have herase : (pre ++ j :: post).erase j = pre ++ post := by
            rw [erase_append_right _ fun hj => hnot (mem_append_left _ hj),
              erase_cons_head]
          rw [if_pos hin, hpxy, herase, append_assoc] at hpxy'
          have hkeep : rounds hp s' post = rounds hp s post := by
            refine rounds_congr ?_
            intro k hk
            refine (hb.other k ?_).1
            rintro rfl
            exact hnot (mem_append_right _ hk)
          cases post with
          | nil => exact ⟨_, by cases n <;> rfl⟩
          | cons k post =>
            refine ih hs' hl' pre hpxy' ?_ _
            have hback : rounds hp s' (if hp ∈ hPtr then [j] else []) ≤
                hPtr.count hp + 1 := by
              split
              · simp [rounds, hb.hosts]
              · simp [rounds]
            rw [rounds_append, hkeep]
            omega

/-- `getHostJobSlots` returns. -/
theorem getHostJobSlots_isSome (sr : Search J H) (fm : HostSlots.FloatMul)
    (view : Rsv J Q U H → HostSlots.Cluster H U Q) (uninit : Int) (jp : HostSlots.JData U Q)
    (hp : H) (noHULimits : Bool) (s : Reserving J Q U H env) :
    ∃ r, getHostJobSlots sr env fm view uninit jp hp noHULimits s.state = some r := by
  unfold getHostJobSlots
  split
  · obtain ⟨r, hr⟩ := collect_isSome s.sound s.listed [] rfl le_rfl []
    exact ⟨_, by rw [hr]; rfl⟩
  · exact ⟨_, rfl⟩

/-! ## When the reservations survive -/

/-- Reservations as before: the hosts of every job and their number, the `RESERVE` bits, the
`numRESERVE` totals and `numDispJobs`. -/
structure Unchanged (s s' : Rsv J Q U H) : Prop where
  hosts : ∀ j, ((s'.job j).hPtr : Multiset H) = (s.job j).hPtr
  num : ∀ j, s'.numHostPtr j = s.numHostPtr j
  bit : ∀ j, has (s'.job j).jStatus jobStatReserve = has (s.job j).jStatus jobStatReserve
  balance : ∀ a, s'.totals.balance a = s.totals.balance a
  numDispJobs : ∀ h, s'.totals.numDispJobs h = s.totals.numDispJobs h

omit [DecidableEq J] [DecidableEq Q] [DecidableEq U] [DecidableEq H] in
theorem Unchanged.refl (s : Rsv J Q U H) : Unchanged s s :=
  ⟨fun _ => rfl, fun _ => rfl, fun _ => rfl, fun _ => rfl, fun _ => rfl⟩

/-- **Evaluating a host leaves the reservations alone exactly when no job lends a slot.** -/
theorem unchanged_iff_no_lender (sr : Search J H) (fm : HostSlots.FloatMul)
    (view : Rsv J Q U H → HostSlots.Cluster H U Q) (uninit : Int) (jp : HostSlots.JData U Q)
    (hp : H) (noHULimits : Bool) (s : Reserving J Q U H env) :
    (∃ r, getHostJobSlots sr env fm view uninit jp hp noHULimits s.state = some r ∧
      Unchanged s.state r.state) ↔
    (sr.canBackfill = true → sr.hostUsable = true →
      ∀ j ∈ s.state.pxyRsvJL hp, backfillSlots sr hp s.state j = 0) := by
  have hnd := s.listed.nodup hp
  constructor
  · rintro ⟨r, hr, hun⟩ hcan huse
    by_contra hno
    obtain ⟨j, hj, hne⟩ : ∃ j ∈ s.state.pxyRsvJL hp, backfillSlots sr hp s.state j ≠ 0 := by
      simpa using hno
    rw [getHostJobSlots, hcan, huse, Bool.and_self, if_pos rfl, Option.map_eq_some_iff] at hr
    obtain ⟨r₁, hcollect, hr⟩ := hr
    have hlt := collect_numDispJobs_lt s.listed [] rfl ⟨j, hj, hne⟩ hcollect
    have hle : r.state.totals.numDispJobs hp ≤ r₁.1.totals.numDispJobs hp := by
      rw [← hr]
      exact conclude_numDispJobs_le r₁ _ hp
    have := hun.numDispJobs hp
    omega
  · intro h
    have hcollect : (if sr.canBackfill && sr.hostUsable then
        collect sr env hp (rounds hp s.state (s.state.pxyRsvJL hp)) s.state
          (s.state.pxyRsvJL hp).head? []
        else some (s.state, [])) = some (s.state, []) := by
      split
      · next hb =>
          obtain ⟨hcan, huse⟩ := Bool.and_eq_true_iff.mp hb
          refine collect_of_no_lender hnd (h hcan huse) [] rfl ?_ []
          rw [rounds, ← length_map]
          exact length_le_sum_of_one_le _ (forall_mem_map.mpr fun _ _ => by omega)
      · rfl
    rw [getHostJobSlots, hcollect]
    refine ⟨_, rfl, ?_⟩
    show Unchanged s.state (conclude env (s.state, []) _).state
    unfold conclude
    split
    · exact Unchanged.refl _
    · exact Unchanged.refl _

/-! ## A job that loses its slots -/

/-- One queue, one user, one host, and one pending job that has reserved both slots of the host. -/
def oneReserving : Rsv Unit Unit Unit Unit where
  totals :=
    { queue := fun _ => slots 2 0 0 0 0 2
      user := fun _ c => match c with
        | .numPENDJobs => 0
        | .slot c => slots 2 0 0 0 0 2 c
      host := fun _ => hostSlots 2 0 0 0 2
      numDispJobs := fun _ => 2
      negative := [] }
  job := fun _ => ⟨jobStatPend ||| jobStatReserve, (), (), [(), ()], .plain () 2, .own none⟩
  numHostPtr := fun _ => 2
  reserveTime := fun _ => 1
  slotHoldTime := fun _ => 0
  pxyRsvJL := fun _ => [()]

def oneEnv : RsvEnv Unit Unit := ⟨noGroups, 10, 60, fun _ => 0⟩

/-- The books of `oneReserving` are in order. -/
def oneReservingState : Reserving Unit Unit Unit Unit oneEnv where
  state := oneReserving
  jobs := {()}
  sound :=
    { waiting := fun _ _ => .inl (by decide +revert)
      listed := by decide
      numHostPtr_eq := fun _ => rfl
      runs := fun _ _ _ _ _ _ => rfl
      booked := fun a => by cases a <;> decide +revert }
  listed := ⟨by decide, by decide⟩

/-- The job would start at time 100, and the job that looks for slots would end at 50. -/
def oneSearch : Search Unit Unit := ⟨true, true, 50, fun _ => 100, fun _ => [⟨(), 2⟩]⟩

/-- A queue that may not use the host. -/
def closedQueue : HostSlots.Cluster Unit Unit Unit :=
  { HostSlots.suspendedHost with
    queue := fun _ => ⟨0, HostSlots.infinitInt, fun _ => none, Int.le_refl _⟩ }

/-- The queue's limit is reached, the function returns at once, and the job has lost its slots. -/
theorem reservation_lost :
    ∃ r, getHostJobSlots oneSearch oneEnv HostSlots.exactMul (fun _ => closedQueue) 0
        HostSlots.aJob () false oneReservingState.state = some r ∧
      r.answer.numSlots = 0 ∧ (r.state.job ()).hPtr = [] ∧
      r.state.totals.balance (.host ()) = 0 ∧ r.state.totals.numDispJobs () = 0 ∧
      ¬ Unchanged oneReservingState.state r.state := by
  refine ⟨_, rfl, by decide +kernel, by decide +kernel, by decide +kernel, by decide +kernel, ?_⟩
  intro hun
  have hnum := hun.numDispJobs ()
  revert hnum
  decide +kernel

end Volclava.HostBackfill
