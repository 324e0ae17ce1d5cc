import Volclava.HostBackfill

/-!
# Taking the slots of backfillees

When a job is placed on borrowed slots, `freeBackfillSlotsFromBackfillee` (`mbd.policy.c`) takes
them away from the jobs that reserved them. The loans noted with the execution candidates are
grouped by job; then, job by job, the borrowed slots of each loan are cut out of the host list, the
old reservation is freed as a whole, and what is left is reserved again. The number of hosts is
decreased by each loan whether the slots were there or not.

- `getBackfillSlotsOnExecCandHost`: the loans of the execution candidates.
- `toFree`: the loans grouped by job.
- `Conserved`: each job loses what was borrowed from it, and so do the totals.
- `conserved_iff_covered`: that is so exactly when the loans do not exceed the reservations.
-/

namespace Volclava.HostBackfill

open Ledger Runs List

variable {J Q U H : Type}

/-! ## The code -/

/-- Slots of a host that are borrowed from a job. -/
structure Loan (J H : Type) where
  job : J
  host : H
  slots : Nat
  deriving DecidableEq

/-- The backfillees of candidate `i` that are used for its `numAvailSlots` slots, `nSlots` of which
are found already. -/
def execBackfillees (i numAvailSlots : Nat) :
    Nat → List (Backfillee J H) → List (Backfillee J H)
  | _, [] => []
  | nSlots, b :: l =>
    { b with
      indexInCandHostList := i
      backfillSlots := min (numAvailSlots - nSlots) b.backfillSlots
      numHostPtr := 0
      hPtr := [] } ::
    if nSlots + min (numAvailSlots - nSlots) b.backfillSlots = numAvailSlots then []
    else execBackfillees i numAvailSlots
      (nSlots + min (numAvailSlots - nSlots) b.backfillSlots) l

/-- The backfillees of the execution candidates, from the lists of the candidate hosts with the
same indices and the slots used on each of them. -/
def getBackfillSlotsOnExecCandHost (cand : List (List (Backfillee J H)))
    (numAvailSlots : List Nat) : List (List (Backfillee J H)) :=
  (cand.zip numAvailSlots).mapIdx fun i c => execBackfillees i c.2 0 c.1

/-- The loans in the lists of the execution candidates; `candHost` is the host of a candidate. -/
def loansOf (candHost : Nat → H) (exec : List (List (Backfillee J H))) : List (Loan J H) :=
  exec.flatten.map fun b => ⟨b.backfilleePtr, candHost b.indexInCandHostList, b.backfillSlots⟩

/-- Enters a loan into the list of the job it is taken from; a new job comes last. -/
def addLoan [DecidableEq J] (loan : Loan J H) :
    List (J × List (H × Nat)) → List (J × List (H × Nat))
  | [] => [(loan.job, [(loan.host, loan.slots)])]
  | b :: l =>
    if b.1 = loan.job then (b.1, b.2 ++ [(loan.host, loan.slots)]) :: l else b :: addLoan loan l

/-- `backfilleeToFreeList`: the loans grouped by job. -/
def toFree [DecidableEq J] (loans : List (Loan J H)) : List (J × List (H × Nat)) :=
  loans.foldl (fun l loan => addLoan loan l) []

/-- Cuts one loan out of a host list. The new number of hosts is computed from the old one, and
that many entries are copied back. -/
def takeBack [DecidableEq H] (p : List H × Int) (x : H × Nat) : List H × Int :=
  ((removeNOccuranceOfHost x.1 x.2 p.1).take (p.2 - x.2).toNat, p.2 - x.2)

/-- A job without hosts no longer holds slots. -/
def clearHold [DecidableEq J] (s : Rsv J Q U H) (j : J) : Rsv J Q U H :=
  { s with
    reserveTime := Function.update s.reserveTime j 0
    slotHoldTime := Function.update s.slotHoldTime j 0 }

section Code

variable [DecidableEq J] [DecidableEq Q] [DecidableEq U] [DecidableEq H] (env : RsvEnv Q U)

/-- Takes all loans from one job. -/
def takeFrom (s : Rsv J Q U H) (b : J × List (H × Nat)) : Rsv J Q U H :=
  if (b.2.foldl takeBack ((s.job b.1).hPtr, s.numHostPtr b.1)).2 ≠ 0 then
    s.rebook env b.1 (b.2.foldl takeBack ((s.job b.1).hPtr, s.numHostPtr b.1)).1
      (b.2.foldl takeBack ((s.job b.1).hPtr, s.numHostPtr b.1)).2
  else clearHold (s.rebook env b.1 [] 0) b.1

/-- `freeBackfillSlotsFromBackfillee`. -/
def freeBackfillSlotsFromBackfillee (loans : List (Loan J H)) (s : Rsv J Q U H) : Rsv J Q U H :=
  (toFree loans).foldl (takeFrom env) s

end Code

/-! ## Grouping the loans -/

variable {l : List (J × List (H × Nat))}

section Grouping

variable [DecidableEq J] (loans : List (Loan J H))

theorem toFree_concat (loan : Loan J H) :
    toFree (loans ++ [loan]) = addLoan loan (toFree loans) := by
  rw [toFree, foldl_append]
  rfl

theorem mem_fst_addLoan (loan : Loan J H) (l : List (J × List (H × Nat))) (j : J) :
    j ∈ (addLoan loan l).map Prod.fst ↔ j ∈ l.map Prod.fst ∨ j = loan.job := by
  induction l with
  | nil => simp [addLoan]
  | cons b l ih =>
    rw [addLoan]
    split
    · next heq =>
        simp only [map_cons, mem_cons]
        rw [heq]
        tauto
    · rw [map_cons, map_cons, mem_cons, mem_cons, ih]
      tauto

theorem nodup_addLoan {loan : Loan J H}
    (h : (l.map Prod.fst).Nodup) : ((addLoan loan l).map Prod.fst).Nodup := by
  induction l with
  | nil => simp [addLoan]
  | cons b l ih =>
    rw [addLoan]
    split
    · exact h
    · next hne =>
        obtain ⟨hb, hl⟩ := nodup_cons.mp h
        refine nodup_cons.mpr ⟨?_, ih hl⟩
        rw [mem_fst_addLoan]
        exact not_or.mpr ⟨hb, hne⟩

theorem mem_addLoan {loan : Loan J H} {b : J × List (H × Nat)}
    (hnd : (l.map Prod.fst).Nodup) (h : b ∈ addLoan loan l) :
    (b ∈ l ∧ b.1 ≠ loan.job) ∨
      (b.1 = loan.job ∧ ((∃ b' ∈ l, b'.1 = b.1 ∧ b.2 = b'.2 ++ [(loan.host, loan.slots)]) ∨
        (b.1 ∉ l.map Prod.fst ∧ b.2 = [(loan.host, loan.slots)]))) := by
  induction l with
  | nil =>
    rw [addLoan, mem_singleton] at h
    subst h
    exact .inr ⟨rfl, .inr ⟨by simp, rfl⟩⟩
  | cons b₀ l ih =>
    obtain ⟨hb₀, hl⟩ := nodup_cons.mp hnd
    rw [addLoan] at h
    split at h
    · next heq =>
        rcases mem_cons.mp h with rfl | hmem
        · exact .inr ⟨heq, .inl ⟨b₀, mem_cons_self .., rfl, rfl⟩⟩
        · refine .inl ⟨mem_cons_of_mem _ hmem, ?_⟩
          intro hb
          exact hb₀ (heq ▸ hb ▸ mem_map_of_mem hmem)
    · next hne =>
        rcases mem_cons.mp h with rfl | hmem
        · exact .inl ⟨mem_cons_self .., hne⟩
        · rcases ih hl hmem with ⟨hin, hb⟩ | ⟨hb, ⟨b', hb', hfst, hsnd⟩ | ⟨hnot, hsnd⟩⟩
          · exact .inl ⟨mem_cons_of_mem _ hin, hb⟩
          · exact .inr ⟨hb, .inl ⟨b', mem_cons_of_mem _ hb', hfst, hsnd⟩⟩
          · refine .inr ⟨hb, .inr ⟨?_, hsnd⟩⟩
            rw [map_cons, mem_cons, not_or]
            exact ⟨fun heq => hne (heq ▸ hb), hnot⟩

theorem nodup_toFree : ((toFree loans).map Prod.fst).Nodup := by
  induction loans using List.reverseRecOn with
  | nil => exact nodup_nil
  | append_singleton loans loan ih =>
    rw [toFree_concat]
    exact nodup_addLoan ih

theorem mem_fst_toFree (j : J) :
    j ∈ (toFree loans).map Prod.fst ↔ j ∈ loans.map Loan.job := by
  induction loans using List.reverseRecOn with
  | nil => exact Iff.rfl
  | append_singleton loans loan ih =>
    rw [toFree_concat, mem_fst_addLoan, ih]
    simp

/-- The loans that are taken from a job. -/
def loansFrom (loans : List (Loan J H)) (j : J) : List (H × Nat) :=
  (loans.filter fun loan => loan.job = j).map fun loan => (loan.host, loan.slots)

/-- Each job is freed of the loans taken from it, in the order in which they were noted. -/
theorem snd_of_mem_toFree {loans : List (Loan J H)} {b : J × List (H × Nat)}
    (h : b ∈ toFree loans) : b.2 = loansFrom loans b.1 := by
  induction loans using List.reverseRecOn generalizing b with
  | nil => cases h
  | append_singleton loans loan ih =>
    rw [toFree_concat] at h
    rw [loansFrom, filter_append, map_append]
    rcases mem_addLoan (nodup_toFree loans) h with
      ⟨hin, hb⟩ | ⟨hb, ⟨b', hb', hfst, hsnd⟩ | ⟨hnot, hsnd⟩⟩
    · rw [ih hin]
      simp [loansFrom, Ne.symm hb]
    · rw [hsnd, ih hb', hfst]
      simp [loansFrom, hb]
    · have hnone : loans.filter (fun loan => loan.job = b.1) = [] := by
        rw [filter_eq_nil_iff]
        intro l hl
        rw [mem_fst_toFree] at hnot
        have hne : l.job ≠ b.1 := by
          intro heq
          rw [← heq] at hnot
          exact hnot (mem_map_of_mem hl)
        simpa using hne
      rw [hsnd, hnone]
      simp [hb]

/-- Sums over the groups are sums over the loans. -/
theorem sum_toFree (f : J → H × Nat → Int) (loans : List (Loan J H)) :
    ((toFree loans).map fun b => (b.2.map (f b.1)).sum).sum =
      (loans.map fun loan => f loan.job (loan.host, loan.slots)).sum := by
  have hadd : ∀ (loan : Loan J H) (l : List (J × List (H × Nat))),
      ((addLoan loan l).map fun b => (b.2.map (f b.1)).sum).sum =
        (l.map fun b => (b.2.map (f b.1)).sum).sum + f loan.job (loan.host, loan.slots) := by
    intro loan l
    induction l with
    | nil => simp [addLoan]
    | cons b l ih =>
      rw [addLoan]
      split
      · next heq =>
          simp only [map_cons, sum_cons, map_append, sum_append,
            map_nil, sum_nil]
          rw [heq]
          ring
      · rw [map_cons, sum_cons, ih, map_cons, sum_cons]
        ring
  induction loans using List.reverseRecOn with
  | nil => rfl
  | append_singleton loans loan ih =>
    rw [toFree_concat, hadd, ih, map_append, sum_append]
    simp

end Grouping

/-! ## Cutting the loans out of a list -/

variable {sl : List (H × Nat)}

section Cutting

variable [DecidableEq H]

/-- The slots on a host among some loans. -/
def slotsOn (h : H) (sl : List (H × Nat)) : Nat :=
  (sl.map fun x => if h = x.1 then x.2 else 0).sum

@[simp] theorem slotsOn_cons (h : H) (x : H × Nat) (sl : List (H × Nat)) :
    slotsOn h (x :: sl) = (if h = x.1 then x.2 else 0) + slotsOn h sl := rfl

/-- **Loans that are covered are cut out exactly.** -/
theorem foldl_takeBack {hPtr : List H} (hc : Contiguous (· = ·) hPtr)
    (hcov : ∀ h, slotsOn h sl ≤ hPtr.count h) :
    ∃ hPtr', sl.foldl takeBack (hPtr, (hPtr.length : Int)) = (hPtr', (hPtr'.length : Int)) ∧
      hPtr'.Sublist hPtr ∧ ∀ h, hPtr'.count h + slotsOn h sl = hPtr.count h := by
  induction sl generalizing hPtr with
  | nil => exact ⟨hPtr, rfl, List.Sublist.refl _, fun _ => rfl⟩
  | cons x sl ih =>
    have hle : x.2 ≤ hPtr.count x.1 := by
      have := hcov x.1
      rw [slotsOn_cons, if_pos rfl] at this
      omega
    have hlen := length_removeN hle
    have hcount := count_removeN hc hle
    have hsub := removeN_sublist x.1 x.2 hPtr
    generalize hcut : removeNOccuranceOfHost x.1 x.2 hPtr = cut at hlen hcount hsub
    have hstep : takeBack (hPtr, (hPtr.length : Int)) x = (cut, (cut.length : Int)) := by
      have hnum : (hPtr.length : Int) - x.2 = cut.length := by omega
      simp [takeBack, hcut, hnum]
    obtain ⟨hPtr', hfold, hsub', hcount'⟩ := ih (hc.sublist hsub) (by
      intro h
      have h₁ := hcov h
      have h₂ := hcount h
      rw [slotsOn_cons] at h₁
      omega)
    refine ⟨hPtr', ?_, hsub'.trans hsub, ?_⟩
    · rw [foldl_cons, hstep, hfold]
    · intro h
      have h₁ := hcount h
      have h₂ := hcount' h
      rw [slotsOn_cons]
      omega

theorem removeN_zero (host : H) (hPtr : List H) : removeNOccuranceOfHost host 0 hPtr = hPtr := by
  induction hPtr with
  | nil => rfl
  | cons h hPtr ih =>
    rw [removeNOccuranceOfHost, ih]
    split <;> rfl

/-- Loans of no slots change nothing. -/
theorem foldl_takeBack_zero (h0 : ∀ x ∈ sl, x.2 = 0) (hPtr : List H) :
    sl.foldl takeBack (hPtr, (hPtr.length : Int)) = (hPtr, (hPtr.length : Int)) := by
  induction sl with
  | nil => rfl
  | cons x sl ih =>
    have hx := h0 x (mem_cons_self ..)
    have hstep : takeBack (hPtr, (hPtr.length : Int)) x = (hPtr, (hPtr.length : Int)) := by
      simp [takeBack, hx, removeN_zero]
    rw [foldl_cons, hstep]
    exact ih fun y hy => h0 y (mem_cons_of_mem _ hy)

end Cutting

/-! ## Taking the loans of one job -/

section Taking

variable [DecidableEq Q] [DecidableEq U] [DecidableEq H]

/-- What one loan counts in an account. -/
def loanWeight (g : UserGroups U) (jp : JData Q U H) (a : RsvAcct Q U H) (x : H × Nat) : Int :=
  weight g jp (List.replicate x.2 x.1) a

variable (g : UserGroups U)

theorem weight_append (jp : JData Q U H) (l l' : List H) (a : RsvAcct Q U H) :
    weight g jp (l ++ l') a = weight g jp l a + weight g jp l' a := by
  cases a with
  | queue q => simp only [weight, length_append]; split <;> simp
  | user u => simp only [weight, length_append]; split <;> simp
  | host h => simp only [weight, count_append]; simp

theorem weight_perm (jp : JData Q U H) {l l' : List H} (h : l.Perm l')
    (a : RsvAcct Q U H) : weight g jp l a = weight g jp l' a := by
  cases a <;> simp only [weight, h.length_eq, h.count_eq]

/-- What is cut out of a list is what its weight loses. -/
theorem weight_cut (jp : JData Q U H) {hPtr hPtr' : List H}
    (hcount : ∀ h, hPtr'.count h + slotsOn h sl = hPtr.count h) (a : RsvAcct Q U H) :
    weight g jp hPtr a = weight g jp hPtr' a + (sl.map (loanWeight g jp a)).sum := by
  have hperm : hPtr.Perm (hPtr' ++ sl.flatMap fun x => List.replicate x.2 x.1) := by
    rw [perm_iff_count]
    intro h
    simp only [count_append, ← hcount, slotsOn, count_flatMap, Function.comp_def,
      count_replicate, beq_iff_eq, @eq_comm H h]
  rw [weight_perm g jp hperm, weight_append, add_right_inj]
  clear hcount hperm
  induction sl with
  | nil => simp
  | cons x sl ih => rw [flatMap_cons, weight_append, ih, map_cons, sum_cons, loanWeight]

variable [DecidableEq J] {env : RsvEnv Q U} {jobs : Finset J} {s : Rsv J Q U H}

/-- The loans taken from a job do not exceed its reservation, and it still has one unless it has
no hosts at all. -/
def Covers (s : Rsv J Q U H) (b : J × List (H × Nat)) : Prop :=
  (has (s.job b.1).jStatus jobStatReserve = true ∨ (s.job b.1).hPtr = []) ∧
    ∀ h, slotsOn h b.2 ≤ (s.reserved b.1).count h

/-- What taking some loans from a job changes. -/
structure Taken (g : UserGroups U) (b : J × List (H × Nat)) (s s' : Rsv J Q U H) : Prop where
  hosts : ∀ h, (s'.reserved b.1).count h + slotsOn h b.2 = (s.reserved b.1).count h
  num : s'.numHostPtr b.1 = (s'.reserved b.1).length
  balance : ∀ a, s'.totals.balance a =
    s.totals.balance a - (b.2.map (loanWeight g (s.job b.1) a)).sum

theorem takeFrom_other (env : RsvEnv Q U) (s : Rsv J Q U H) (b : J × List (H × Nat)) {k : J}
    (hk : k ≠ b.1) :
    (takeFrom env s b).job k = s.job k ∧ (takeFrom env s b).numHostPtr k = s.numHostPtr k := by
  unfold takeFrom
  split
  · exact s.rebook_other env hk _ _
  · obtain ⟨hjob, hnum⟩ := s.rebook_other env hk [] 0
    exact ⟨hjob, hnum⟩

variable {b : J × List (H × Nat)}

theorem takeFrom_reserving (hs : s.Sound env.groups jobs)
    (hr : has (s.job b.1).jStatus jobStatReserve = true)
    (hcov : ∀ h, slotsOn h b.2 ≤ (s.reserved b.1).count h) :
    (takeFrom env s b).Sound env.groups jobs ∧ Taken env.groups b s (takeFrom env s b) := by
  have hruns := hs.runs b.1
  rw [Rsv.reserved_of_has hr] at hruns hcov
  obtain ⟨hPtr', hfold, hsub, hcount⟩ := foldl_takeBack hruns hcov
  rw [← hs.numHostPtr_eq] at hfold
  have hsound := hs.rebook hr hsub
  have hb := hs.rebooked hr hPtr'
  have htaken : Taken env.groups b s (s.rebook env b.1 hPtr' hPtr'.length) := by
    have hres := hb.reserved_self
    refine ⟨?_, ?_, ?_⟩
    · intro h
      rw [hres, Rsv.reserved_of_has hr]
      exact hcount h
    · rw [hres, hb.num]
    · intro a
      rw [hb.balance a, weight_cut env.groups (s.job b.1) hcount a]
      ring
  by_cases hnil : hPtr' = []
  · -- Nothing is left: the hold time is cleared as well.
    subst hnil
    have heq : takeFrom env s b = clearHold (s.rebook env b.1 [] 0) b.1 := by
      rw [takeFrom, hfold]
      exact if_neg (by simp)
    rw [heq]
    exact ⟨{ hsound with },
      htaken.hosts, htaken.num, htaken.balance⟩
  · have heq : takeFrom env s b = s.rebook env b.1 hPtr' hPtr'.length := by
      rw [takeFrom, hfold]
      exact if_pos (by simpa using hnil)
    rw [heq]
    exact ⟨hsound, htaken⟩

theorem slots_eq_zero (h : ∀ h, slotsOn h sl = 0) : ∀ x ∈ sl, x.2 = 0 := by
  intro x hx
  have hzero := sum_eq_zero_iff.mp (h x.1)
  simpa using hzero _ (mem_map_of_mem hx)

omit [DecidableEq Q] [DecidableEq U] [DecidableEq H] in
theorem setHosts_self (s : Rsv J Q U H) (j : J) :
    s.setHosts j (s.job j).hPtr (s.numHostPtr j) = s := by
  simp [Rsv.setHosts]

theorem takeFrom_empty (hs : s.Sound env.groups jobs)
    (hr : ¬ has (s.job b.1).jStatus jobStatReserve = true) (hnil : (s.job b.1).hPtr = [])
    (hcov : ∀ h, slotsOn h b.2 ≤ (s.reserved b.1).count h) :
    (takeFrom env s b).Sound env.groups jobs ∧ Taken env.groups b s (takeFrom env s b) := by
  have hres : s.reserved b.1 = [] := if_neg hr
  have hzero : ∀ x ∈ b.2, x.2 = 0 := by
    refine slots_eq_zero ?_
    intro h
    have := hcov h
    rw [hres] at this
    simpa using this
  have hfold := foldl_takeBack_zero hzero (s.job b.1).hPtr
  rw [← hs.numHostPtr_eq] at hfold
  have hnum : s.numHostPtr b.1 = 0 := by rw [hs.numHostPtr_eq, hnil]; rfl
  have hset : s.setHosts b.1 [] 0 = s := by
    have hself := setHosts_self s b.1
    rwa [hnil, hnum] at hself
  have heq : takeFrom env s b = clearHold s b.1 := by
    rw [takeFrom, hfold, if_neg (by simp [hnum]), Rsv.rebook, if_neg (by simp),
      Rsv.freeReserveSlots, if_neg hr, hset]
  rw [heq]
  refine ⟨{ hs with }, ?_, ?_, ?_⟩
  · intro h
    have := hcov h
    rw [hres] at this
    show (s.reserved b.1).count h + _ = _
    rw [hres]
    simpa using this
  · show s.numHostPtr b.1 = ((s.reserved b.1).length : Int)
    rw [hres, hnum]
    rfl
  · intro a
    have hnone : (b.2.map (loanWeight env.groups (s.job b.1) a)).sum = 0 := by
      refine sum_eq_zero (forall_mem_map.mpr fun x hx => ?_)
      rw [loanWeight, hzero x hx, replicate_zero, weight_nil]
    rw [hnone, sub_zero]
    rfl

/-- **Loans that are covered** are taken from the job and from the accounts. -/
theorem takeFrom_spec (hs : s.Sound env.groups jobs) (h : Covers s b) :
    (takeFrom env s b).Sound env.groups jobs ∧ Taken env.groups b s (takeFrom env s b) := by
  by_cases hr : has (s.job b.1).jStatus jobStatReserve = true
  · exact takeFrom_reserving hs hr h.2
  · exact takeFrom_empty hs hr (h.1.resolve_left hr) h.2

/-! ## Taking all loans -/

theorem foldl_takeFrom_other (env : RsvEnv Q U) {k : J}
    (hk : k ∉ l.map Prod.fst) (s : Rsv J Q U H) :
    (l.foldl (takeFrom env) s).job k = s.job k ∧
      (l.foldl (takeFrom env) s).numHostPtr k = s.numHostPtr k := by
  induction l generalizing s with
  | nil => exact ⟨rfl, rfl⟩
  | cons b l ih =>
    rw [map_cons, mem_cons, not_or] at hk
    obtain ⟨h₁, h₂⟩ := takeFrom_other env s b hk.1
    obtain ⟨h₃, h₄⟩ := ih hk.2 (takeFrom env s b)
    exact ⟨h₃.trans h₁, h₄.trans h₂⟩

omit [DecidableEq Q] [DecidableEq U] [DecidableEq H] [DecidableEq J] in
theorem reserved_congr {s s' : Rsv J Q U H} {j : J} (h : s'.job j = s.job j) :
    s'.reserved j = s.reserved j := by
  rw [Rsv.reserved, Rsv.reserved, h]

theorem foldl_takeFrom (hnd : (l.map Prod.fst).Nodup)
    (hs : s.Sound env.groups jobs) (hcov : ∀ b ∈ l, Covers s b) :
    (∀ b ∈ l, (∀ h, ((l.foldl (takeFrom env) s).reserved b.1).count h + slotsOn h b.2 =
        (s.reserved b.1).count h) ∧
      (l.foldl (takeFrom env) s).numHostPtr b.1 =
        ((l.foldl (takeFrom env) s).reserved b.1).length) ∧
    ∀ a, (l.foldl (takeFrom env) s).totals.balance a =
      s.totals.balance a -
        (l.map fun b => (b.2.map (loanWeight env.groups (s.job b.1) a)).sum).sum := by
  induction l generalizing s with
  | nil => exact ⟨fun b hb => (nomatch hb), fun a => by simp⟩
  | cons b l ih =>
    obtain ⟨hb, hl⟩ := nodup_cons.mp hnd
    obtain ⟨hsound, htaken⟩ := takeFrom_spec hs (hcov b (mem_cons_self ..))
    have hother : ∀ b' ∈ l, (takeFrom env s b).job b'.1 = s.job b'.1 := by
      intro b' hb'
      refine (takeFrom_other env s b ?_).1
      intro heq
      exact hb (heq ▸ mem_map_of_mem hb')
    obtain ⟨hjobs, hbal⟩ := ih hl hsound (by
      intro b' hb'
      have := hcov b' (mem_cons_of_mem _ hb')
      rw [Covers, hother b' hb', reserved_congr (hother b' hb')]
      exact this)
    rw [foldl_cons]
    refine ⟨?_, ?_⟩
    · intro b' hb'
      rcases mem_cons.mp hb' with rfl | hmem
      · -- The jobs that follow leave this one alone.
        obtain ⟨hjob, hnum⟩ := foldl_takeFrom_other env hb (takeFrom env s b')
        rw [reserved_congr hjob, hnum]
        exact ⟨htaken.hosts, htaken.num⟩
      · obtain ⟨h₁, h₂⟩ := hjobs b' hmem
        rw [reserved_congr (hother b' hmem)] at h₁
        exact ⟨h₁, h₂⟩
    · intro a
      have hsame : (l.map fun b' => (b'.2.map (loanWeight env.groups
          ((takeFrom env s b).job b'.1) a)).sum) =
          l.map fun b' => (b'.2.map (loanWeight env.groups (s.job b'.1) a)).sum := by
        refine map_congr_left ?_
        intro b' hb'
        rw [hother b' hb']
      rw [hbal a, hsame, htaken.balance a, map_cons, sum_cons]
      ring

/-! ## Conservation -/

/-- **Backfill conserves reserved slots**: each backfillee has lost what was borrowed from it on
each host, its number of hosts is what it has left, and every `numRESERVE` total has lost the
borrowed slots that count in it. -/
structure Conserved (g : UserGroups U) (loans : List (Loan J H)) (s s' : Rsv J Q U H) : Prop where
  hosts : ∀ j ∈ loans.map Loan.job, ∀ h,
    (s'.reserved j).count h + slotsOn h (loansFrom loans j) = (s.reserved j).count h
  num : ∀ j ∈ loans.map Loan.job, s'.numHostPtr j = (s'.reserved j).length
  balance : ∀ a, s'.totals.balance a = s.totals.balance a -
    (loans.map fun loan => loanWeight g (s.job loan.job) a (loan.host, loan.slots)).sum

/-- A job that has hosts but no reservation gets one. -/
theorem takeFrom_reserves (hzero : ∀ x ∈ b.2, x.2 = 0)
    (hnum : s.numHostPtr b.1 = (s.job b.1).hPtr.length)
    (hr : ¬ has (s.job b.1).jStatus jobStatReserve = true) (hne : (s.job b.1).hPtr ≠ []) :
    (takeFrom env s b).reserved b.1 = (s.job b.1).hPtr := by
  have hfold := foldl_takeBack_zero hzero (s.job b.1).hPtr
  have hlen : ((s.job b.1).hPtr.length : Int) ≠ 0 := by
    have := length_pos_iff.mpr hne
    omega
  have hstep : takeFrom env s b = s.reserveSlots env b.1 := by
    rw [takeFrom, hnum, hfold, if_pos hlen, Rsv.rebook, if_pos hlen, Rsv.freeReserveSlots,
      if_neg hr, ← hnum, setHosts_self]
  rw [hstep, Rsv.reserveSlots, if_neg (by simp [hnum]), if_neg hr]
  simp [Rsv.reserved, Rsv.put, Rsv.cur]

/-- **Borrowed slots are conserved exactly when every backfillee covers what is borrowed from it**:
it still holds a reservation, or has no hosts, and on no host are more slots borrowed from it, over
all loans together, than it has reserved there. -/
theorem conserved_iff_covered (s : Reserving J Q U H env) (loans : List (Loan J H)) :
    Conserved env.groups loans s.state (freeBackfillSlotsFromBackfillee env loans s.state) ↔
    ∀ j ∈ loans.map Loan.job,
      (has (s.state.job j).jStatus jobStatReserve = true ∨ (s.state.job j).hPtr = []) ∧
      ∀ h, slotsOn h (loansFrom loans j) ≤ (s.state.reserved j).count h := by
  have hgroup : ∀ j ∈ loans.map Loan.job, (j, loansFrom loans j) ∈ toFree loans := by
    intro j hj
    obtain ⟨b, hb, rfl⟩ := mem_map.mp ((mem_fst_toFree loans j).mpr hj)
    rw [← snd_of_mem_toFree hb]
    exact hb
  constructor
  · intro h j hj
    have hle : ∀ h', slotsOn h' (loansFrom loans j) ≤ (s.state.reserved j).count h' := by
      intro h'
      have := h.hosts j hj h'
      omega
    refine ⟨?_, hle⟩
    by_contra hno
    obtain ⟨hr, hne⟩ := not_or.mp hno
    have hres : s.state.reserved j = [] := if_neg hr
    have hzero : ∀ x ∈ loansFrom loans j, x.2 = 0 := by
      refine slots_eq_zero ?_
      intro h'
      have := hle h'
      rw [hres] at this
      simpa using this
    -- The job's turn: before and after it, the other jobs leave the record alone.
    obtain ⟨l₁, l₂, hl⟩ := append_of_mem (hgroup j hj)
    have hnd := nodup_toFree loans
    rw [hl, map_append, map_cons] at hnd
    have hnot := (nodup_middle.mp hnd).notMem
    have hj₁ : j ∉ l₁.map Prod.fst := fun hmem => hnot (mem_append_left _ hmem)
    have hj₂ : j ∉ l₂.map Prod.fst := fun hmem => hnot (mem_append_right _ hmem)
    obtain ⟨hjob₁, hnum₁⟩ := foldl_takeFrom_other env hj₁ s.state
    generalize hs₁ : l₁.foldl (takeFrom env) s.state = s₁ at hjob₁ hnum₁
    have hlate := (foldl_takeFrom_other env hj₂
      (takeFrom env s₁ (j, loansFrom loans j))).1
    have hafter : (freeBackfillSlotsFromBackfillee env loans s.state).reserved j =
        (s.state.job j).hPtr := by
      rw [freeBackfillSlotsFromBackfillee, hl, foldl_append, foldl_cons, hs₁,
        reserved_congr hlate, ← hjob₁]
      exact takeFrom_reserves (b := (j, loansFrom loans j)) hzero
        (by rw [hnum₁, hjob₁]; exact s.sound.numHostPtr_eq j) (by rwa [hjob₁]) (by rwa [hjob₁])
    obtain ⟨x, hx⟩ := exists_mem_of_ne_nil _ hne
    have hcount := h.hosts j hj x
    rw [hafter, hres] at hcount
    have := count_pos_iff.mpr hx
    simp at hcount
    omega
  · intro h
    have hcov : ∀ b ∈ toFree loans, Covers s.state b := by
      intro b hb
      have hj : b.1 ∈ loans.map Loan.job := (mem_fst_toFree loans b.1).mp (mem_map_of_mem hb)
      rw [Covers, snd_of_mem_toFree hb]
      exact h b.1 hj
    obtain ⟨hjobs, hbal⟩ := foldl_takeFrom (nodup_toFree loans) s.sound hcov
    refine ⟨?_, ?_, ?_⟩
    · intro j hj
      exact (hjobs _ (hgroup j hj)).1
    · intro j hj
      exact (hjobs _ (hgroup j hj)).2
    · intro a
      have hsum := sum_toFree (fun j x => loanWeight env.groups (s.state.job j) a x) loans
      rw [← hsum]
      exact hbal a

end Taking

/-! ## A job that lends the same slots twice -/

/-- Two jobs that reserve slots on one host: the first has four of them, two of which are available,
the second has one, and it is not known when it will start. -/
def twoReserving : Rsv Bool Unit Unit Unit where
  totals :=
    { queue := fun _ => slots 5 0 0 0 0 5
      user := fun _ c => match c with
        | .numPENDJobs => 0
        | .slot c => slots 5 0 0 0 0 5 c
      host := fun _ => hostSlots 5 0 0 0 5
      numDispJobs := fun _ => 5
      negative := [] }
  job := fun first => ⟨jobStatPend ||| jobStatReserve, (), (),
    if first then [(), (), (), ()] else [()], .plain () 4, .own none⟩
  numHostPtr := fun first => if first then 4 else 1
  reserveTime := fun _ => 1
  slotHoldTime := fun _ => 0
  pxyRsvJL := fun _ => [true, false]

/-- The books of `twoReserving` are in order. -/
def twoReservingState : Reserving Bool Unit Unit Unit oneEnv where
  state := twoReserving
  jobs := {true, false}
  sound :=
    { waiting := fun _ _ => .inl (by decide +revert)
      listed := by decide
      numHostPtr_eq := by decide
      runs := fun _ _ _ _ _ _ => rfl
      booked := fun a => by cases a <;> decide +revert }
  listed := ⟨by decide, by decide⟩

def twoSearch : Search Bool Unit :=
  ⟨true, true, 50, fun first => if first then 100 else 0, fun _ => [⟨(), 2⟩]⟩

/-- A queue without limits, on a host that has room. -/
def openQueue : HostSlots.Cluster Unit Unit Unit :=
  { HostSlots.suspendedHost with
    queue := fun _ => ⟨HostSlots.infinitFloat, HostSlots.infinitInt, fun _ => none, Int.le_refl _⟩ }

/-- Looking for slots visits the first job twice, because it goes to the back of the list; both
visits are noted, and only two slots are given back. The loans then exceed what the job has: its
number of hosts becomes negative, and the host's total loses two slots where four are borrowed. -/
theorem slots_lent_twice :
    ∃ r, getHostJobSlots twoSearch oneEnv HostSlots.exactMul (fun _ => openQueue) 0
        HostSlots.aJob () false twoReservingState.state = some r ∧
      ∃ loans,
        loans = loansOf (fun _ => ()) (getBackfillSlotsOnExecCandHost [r.backfilleeList] [4]) ∧
        loans = [⟨true, (), 2⟩, ⟨true, (), 2⟩] ∧
        (freeBackfillSlotsFromBackfillee oneEnv loans r.state).numHostPtr true = -2 ∧
        r.state.totals.balance (.host ()) = 3 ∧
        (freeBackfillSlotsFromBackfillee oneEnv loans r.state).totals.balance (.host ()) = 1 ∧
        ¬ Conserved oneEnv.groups loans r.state
          (freeBackfillSlotsFromBackfillee oneEnv loans r.state) := by
  refine ⟨_, rfl, _, rfl, by decide +kernel, by decide +kernel, by decide +kernel,
    by decide +kernel, ?_⟩
  intro hcons
  have hhosts := hcons.hosts true (by decide +kernel) ()
  revert hhosts
  decide +kernel

end Volclava.HostBackfill
