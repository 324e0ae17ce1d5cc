import Volclava.Movements
import Volclava.Lib.Contiguous

/-!
# Reserved slots

A pending job that cannot start yet may hold slots on hosts: `reserveSlots` books them in the
totals of its queue, its user and the hosts, sets the `RESERVE` bit and enters the job into the list
of reserving jobs of each host (`mbd.policy.c`, `mbd.misc.c`, `mbd.proxy.c`). `freeReserveSlots`
takes all of that back and gives the hosts away. Slots of one host are taken out of a reservation by
cutting consecutive entries out of the job's host list.

- `Rsv`, `reserveSlots`, `freeReserveSlots`, `removeNOccuranceOfHost`: the code.
- `RsvAcct`, `balance`, `weight`: the `numRESERVE` totals as accounts, and what a job has in them.
- `Reserving`: the states in which the books are in order.
- `balance_unreserve`, `balance_reserve`: a reservation made or freed moves just the weight of
  the job.
- `count_removeN`: cutting a host's entries out of a list that holds them in one run.

Remote hosts, the cluster-wide list of reserving jobs and the queue's `numUsable` (which
only changes where no queue has the backfill policy) are left out. The totals do not overflow.
-/

namespace Volclava

open Ledger Runs List

variable {J Q U H : Type}

/-! ## State and operations -/

/-- The jobs with their reservations, the totals, and for each host the jobs that reserve slots on
it (`pxyRsvJL`). `numHostPtr` is kept apart from the list, as in the source. -/
structure Rsv (J Q U H : Type) where
  totals : Totals Q U H
  job : J → JData Q U H
  numHostPtr : J → Int
  reserveTime : J → Int
  slotHoldTime : J → Int
  pxyRsvJL : H → List J

/-- What the functions read besides the state. -/
structure RsvEnv (Q U : Type) where
  groups : UserGroups U
  now : Int
  msleeptime : Int
  slotHoldTime : Q → Int

/-- The slots a job has reserved. -/
def Rsv.reserved (s : Rsv J Q U H) (j : J) : List H :=
  if has (s.job j).jStatus jobStatReserve then (s.job j).hPtr else []

section Operations

variable [DecidableEq J]

def Rsv.cur (s : Rsv J Q U H) (j : J) : Cur Q U H := ⟨s.totals, s.job j⟩

/-- The state after a job and the totals have changed. -/
def Rsv.put (s : Rsv J Q U H) (j : J) (c : Cur Q U H) : Rsv J Q U H :=
  { s with totals := c.totals, job := Function.update s.job j c.jp }

def Rsv.setHosts (s : Rsv J Q U H) (j : J) (hPtr : List H) (numHostPtr : Int) : Rsv J Q U H :=
  { s with
    job := Function.update s.job j { s.job j with hPtr := hPtr }
    numHostPtr := Function.update s.numHostPtr j numHostPtr }

/-- `reserveTime` and `slotHoldTime` are set with the first reservation. -/
def Rsv.startHold (env : RsvEnv Q U) (s : Rsv J Q U H) (j : J) : Rsv J Q U H :=
  if s.reserveTime j = 0 then
    { s with
      reserveTime := Function.update s.reserveTime j env.now
      slotHoldTime := if env.slotHoldTime (s.job j).qPtr ≤ 0 then
        Function.update s.slotHoldTime j (8 * env.msleeptime) else s.slotHoldTime }
  else s

@[simp] theorem Rsv.startHold_job (env : RsvEnv Q U) (s : Rsv J Q U H) (j : J) :
    (s.startHold env j).job = s.job := by
  unfold Rsv.startHold
  split <;> rfl

@[simp] theorem Rsv.startHold_numHostPtr (env : RsvEnv Q U) (s : Rsv J Q U H) (j : J) :
    (s.startHold env j).numHostPtr = s.numHostPtr := by
  unfold Rsv.startHold
  split <;> rfl

variable [DecidableEq H]

/-- Enters a job at the back of the list of each of its hosts, once. -/
def proxyHRsvJLAddEntry (j : J) (hPtr : List H) (pxy : H → List J) : H → List J :=
  hPtr.foldl (fun pxy h => if j ∈ pxy h then pxy else Function.update pxy h (pxy h ++ [j])) pxy

/-- Takes a job off the list of each of its hosts. -/
def proxyHRsvJLRemoveEntry (j : J) (hPtr : List H) (pxy : H → List J) : H → List J :=
  hPtr.foldl (fun pxy h => Function.update pxy h ((pxy h).erase j)) pxy

/-- What `updResCounters` does to the lists: only pending jobs are entered and taken off. -/
def updProxies (j : J) (jp : JData Q U H) (newStatus : Status) (pxy : H → List J) : H → List J :=
  if knownStatus jp.jStatus = jobStatPend ∨ knownStatus jp.jStatus = jobStatPsusp then
    if has jp.jStatus jobStatReserve && !has newStatus jobStatReserve && isPend newStatus then
      proxyHRsvJLRemoveEntry j jp.hPtr pxy
    else if !has jp.jStatus jobStatReserve && has newStatus jobStatReserve && isPend newStatus then
      proxyHRsvJLAddEntry j jp.hPtr pxy
    else if isPend jp.jStatus && has jp.jStatus jobStatReserve && isFinish newStatus then
      proxyHRsvJLRemoveEntry j jp.hPtr pxy
    else pxy
  else pxy

variable [DecidableEq Q] [DecidableEq U] (env : RsvEnv Q U)

def Rsv.reserveSlots (j : J) (s : Rsv J Q U H) : Rsv J Q U H :=
  if s.numHostPtr j < 0 then s
  else if has (s.job j).jStatus jobStatReserve then s
  else
    { (s.startHold env j).put j (reserve env.groups.exact (s.cur j)) with
      pxyRsvJL := updProxies j (s.job j) ((s.job j).jStatus ||| jobStatReserve) s.pxyRsvJL }

def Rsv.freeReserveSlots (j : J) (s : Rsv J Q U H) : Rsv J Q U H :=
  if has (s.job j).jStatus jobStatReserve then
    { s.put j (deallocHosts (unreserve env.groups.exact (s.cur j))) with
      numHostPtr := Function.update s.numHostPtr j 0
      pxyRsvJL := updProxies j (s.job j) ((s.job j).jStatus &&& ~~~jobStatReserve) s.pxyRsvJL }
  else s

end Operations

/-! ## Freeing never raises `numDispJobs` -/

variable {j : J}

section NumDispJobs

variable [DecidableEq J] [DecidableEq Q] [DecidableEq U] [DecidableEq H] {env : RsvEnv Q U}

@[simp] theorem updAll_numDispJobs (g : Books U) (c : Cur Q U H) (mv : Option Movement) :
    (updAll g c mv).totals.numDispJobs = c.totals.numDispJobs := by
  rcases mv with - | ⟨d, - | dh⟩ <;> rfl

/-- Hosts that are reserved again are not counted again. -/
theorem Rsv.reserveSlots_numDispJobs (s : Rsv J Q U H) (j : J) :
    (s.reserveSlots env j).totals.numDispJobs = s.totals.numDispJobs := by
  unfold Rsv.reserveSlots
  split
  · rfl
  · split
    · rfl
    · simp [Rsv.put, reserve_eq, Rsv.cur]

theorem Rsv.freeReserveSlots_numDispJobs {s : Rsv J Q U H}
    (h : has (s.job j).jStatus jobStatReserve = true) (h' : H) :
    (s.freeReserveSlots env j).totals.numDispJobs h' =
      s.totals.numDispJobs h' - (s.job j).hPtr.count h' := by
  rw [Rsv.freeReserveSlots, if_pos h]
  simp [Rsv.put, deallocHosts, unreserve_eq, Rsv.cur]

theorem Rsv.freeReserveSlots_numDispJobs_le (s : Rsv J Q U H) (j : J) (h : H) :
    (s.freeReserveSlots env j).totals.numDispJobs h ≤ s.totals.numDispJobs h := by
  by_cases hr : has (s.job j).jStatus jobStatReserve = true
  · rw [Rsv.freeReserveSlots_numDispJobs hr]
    omega
  · rw [Rsv.freeReserveSlots, if_neg hr]

end NumDispJobs

/-! ## Cutting a host out of a list -/

variable {hPtr : List H}

section Cut

variable [DecidableEq H]

/-- `removeNOccuranceOfHost`: cuts `num` entries out of the list, from the first entry of the host
on, whatever the entries behind it are. -/
def removeNOccuranceOfHost (host : H) (num : Nat) : List H → List H
  | [] => []
  | h :: hPtr =>
    if h = host then (h :: hPtr).drop num else h :: removeNOccuranceOfHost host num hPtr

theorem removeN_sublist (host : H) (num : Nat) (hPtr : List H) :
    (removeNOccuranceOfHost host num hPtr).Sublist hPtr := by
  induction hPtr with
  | nil => exact List.Sublist.slnil
  | cons h hPtr ih =>
    rw [removeNOccuranceOfHost]
    split
    · exact drop_sublist _ _
    · exact ih.cons_cons h

/-- **A run that is long enough is shortened**, and no other host loses an entry. -/
theorem count_removeN {host : H} {num : Nat} (hc : Contiguous (· = ·) hPtr)
    (hn : num ≤ hPtr.count host) (h : H) :
    (removeNOccuranceOfHost host num hPtr).count h + (if h = host then num else 0) =
      hPtr.count h := by
  induction hPtr with
  | nil =>
    obtain rfl : num = 0 := by simpa using hn
    simp [removeNOccuranceOfHost]
  | cons h₀ hPtr ih =>
    rw [removeNOccuranceOfHost]
    split
    · next heq =>
        subst heq
        exact hc.count_drop hn h
    · next hne =>
        rw [count_cons_of_ne hne] at hn
        have hih := ih (hc.sublist (sublist_cons_self h₀ hPtr)) hn
        rw [count_cons, count_cons, ← hih]
        omega

theorem length_removeN {host : H} {num : Nat} (hn : num ≤ hPtr.count host) :
    (removeNOccuranceOfHost host num hPtr).length + num = hPtr.length := by
  induction hPtr with
  | nil =>
    obtain rfl : num = 0 := by simpa using hn
    rfl
  | cons h₀ hPtr ih =>
    rw [removeNOccuranceOfHost]
    split
    · next heq =>
        have hle : num ≤ (h₀ :: hPtr).length := hn.trans count_le_length
        rw [length_drop]
        omega
    · next hne =>
        rw [count_cons_of_ne hne] at hn
        rw [length_cons, length_cons, ← ih hn]
        omega

end Cut

/-! ## Accounts of reserved slots -/

/-- Who has a total of reserved slots. -/
inductive RsvAcct (Q U H : Type) where
  | queue (q : Q)
  | user (u : U)
  | host (h : H)

/-- `numRESERVE` of an account. -/
def Totals.balance (t : Totals Q U H) : RsvAcct Q U H → Int
  | .queue q => t.queue q .numRESERVE
  | .user u => t.user u (.slot .numRESERVE)
  | .host h => t.host h .numRESERVE

section Accounts

variable [DecidableEq Q] [DecidableEq U] [DecidableEq H]

/-- What slots reserved for a job count in an account: all of them for the queue, the user and the
groups of the user, those on the host for a host. -/
def weight (g : UserGroups U) (jp : JData Q U H) (hPtr : List H) : RsvAcct Q U H → Int
  | .queue q => if q = jp.qPtr then hPtr.length else 0
  | .user u => if u ∈ jp.uPtr :: g.gPtr jp.uPtr then hPtr.length else 0
  | .host h => hPtr.count h

theorem weight_nonneg (g : UserGroups U) (jp : JData Q U H) (hPtr : List H) (a : RsvAcct Q U H) :
    0 ≤ weight g jp hPtr a := by
  cases a with
  | queue q => simp only [weight]; split <;> omega
  | user u => simp only [weight]; split <;> omega
  | host h => exact Int.natCast_nonneg _

@[simp] theorem weight_nil (g : UserGroups U) (jp : JData Q U H) (a : RsvAcct Q U H) :
    weight g jp [] a = 0 := by
  cases a <;> simp [weight]

variable {g : UserGroups U}

theorem weight_congr {jp jp' : JData Q U H} (hq : jp'.qPtr = jp.qPtr)
    (hu : jp'.uPtr = jp.uPtr) (hPtr : List H) (a : RsvAcct Q U H) :
    weight g jp' hPtr a = weight g jp hPtr a := by
  cases a <;> simp only [weight, hq, hu]

/-- A movement whose `numRESERVE` entries are `num` slots, each counted with the factor `x`. -/
theorem balance_updAll (g : UserGroups U) (c : Cur Q U H) (d dh : Slots) (x : Int)
    (hd : d .numRESERVE = x * c.jp.num) (hdh : dh .numRESERVE = x) (a : RsvAcct Q U H)
    (h0 : 0 ≤ c.totals.balance a)
    (h : 0 ≤ c.totals.balance a + x * weight g c.jp c.jp.hPtr a) :
    (updAll g.exact c (some ⟨d, some dh⟩)).totals.balance a =
      c.totals.balance a + x * weight g c.jp c.jp.hPtr a := by
  cases a with
  | queue q =>
    show post id c.totals.queue [c.jp.qPtr] d q .numRESERVE = _
    simp only [Totals.balance, weight] at h ⊢
    rw [post_apply _ (nodup_singleton _), hd]
    by_cases hq : q = c.jp.qPtr
    · subst hq
      simp only [mem_singleton, if_true] at h ⊢
      exact satAdd_of_nonneg rfl h
    · simp [hq]
  | user u =>
    show post id c.totals.user (c.jp.uPtr :: g.gPtr c.jp.uPtr) (userMovement c.jp d) u
      (.slot .numRESERVE) = _
    have hmove : userMovement c.jp d (.slot .numRESERVE) = x * c.jp.num := hd
    simp only [Totals.balance, weight] at h ⊢
    rw [post_apply _ (g.nodup _), hmove]
    by_cases hu : u ∈ c.jp.uPtr :: g.gPtr c.jp.uPtr
    · simp only [hu, if_true] at h ⊢
      exact satAdd_of_nonneg rfl h
    · simp [hu]
  | host h' =>
    show post id c.totals.host c.jp.hPtr dh h' .numRESERVE = _
    simp only [Totals.balance, weight] at h h0 ⊢
    rw [post_count h0 (by rw [hdh, mul_comm]; exact h), hdh, mul_comm]

/-- The job is pending, so it can hold a reservation. -/
def Waiting (jp : JData Q U H) : Prop := jState jp.jStatus = .pend ∨ jState jp.jStatus = .psusp

omit [DecidableEq Q] [DecidableEq U] [DecidableEq H] in
theorem Waiting.known {jp : JData Q U H} (h : Waiting jp) :
    knownStatus jp.jStatus = jobStatPend ∨ knownStatus jp.jStatus = jobStatPsusp := by
  rcases h with h | h
  · exact .inl (known_of_jState.1 h)
  · exact .inr (known_of_jState.2.1 h)

variable {st : Status}

theorem isPend_of_known
    (hk : knownStatus st = jobStatPend ∨ knownStatus st = jobStatPsusp) : isPend st = true := by
  rw [← isPend_known]
  rcases hk with hk | hk <;> rw [hk] <;> rfl

theorem resMovement_free {num numReq : Int}
    (hk : knownStatus st = jobStatPend ∨ knownStatus st = jobStatPsusp)
    (hr : has st jobStatReserve = true) :
    resMovement st (st &&& ~~~jobStatReserve) num numReq =
      some ⟨slots 0 num 0 0 0 (-num), hostSlots (-1) 0 0 0 (-1)⟩ := by
  have hp := isPend_of_known hk
  have hp' := (isPend_congr (known_and_not_reserve st)).trans hp
  rcases hk with hk | hk <;>
    simp [resMovement, hp, hp', hr, hk, jobStatPend, jobStatPsusp, jobStatSsusp, jobStatUsusp]

theorem resMovement_take {num numReq : Int}
    (hk : knownStatus st = jobStatPend ∨ knownStatus st = jobStatPsusp)
    (hr : has st jobStatReserve = false) :
    resMovement st (st ||| jobStatReserve) num numReq =
      some ⟨slots 0 (-num) 0 0 0 num, hostSlots 1 0 0 0 1⟩ := by
  have hp := isPend_of_known hk
  have hp' := (isPend_congr (known_or_reserve st)).trans hp
  rcases hk with hk | hk <;>
    simp [resMovement, hp, hp', hr, hk, jobStatPend, jobStatPsusp, jobStatSsusp, jobStatUsusp]

/-- **Freeing a reservation** takes the weight of the job out of every account. -/
theorem balance_unreserve {c : Cur Q U H} (hw : Waiting c.jp)
    (hr : has c.jp.jStatus jobStatReserve = true) {a : RsvAcct Q U H}
    (h : weight g c.jp c.jp.hPtr a ≤ c.totals.balance a) :
    (unreserve g.exact c).totals.balance a = c.totals.balance a - weight g c.jp c.jp.hPtr a := by
  have h0 := weight_nonneg g c.jp c.jp.hPtr a
  rw [unreserve_eq, resMovement_free hw.known hr]
  have hup := balance_updAll g c (slots 0 c.jp.num 0 0 0 (-c.jp.num))
    (hostSlots (-1) 0 0 0 (-1)) (-1) (by simp [slots]) rfl a (by omega) (by omega)
  rw [hup]
  omega

/-- **Reserving** adds the weight of the job to every account. -/
theorem balance_reserve {c : Cur Q U H} (hw : Waiting c.jp)
    (hr : has c.jp.jStatus jobStatReserve = false) {a : RsvAcct Q U H}
    (h : 0 ≤ c.totals.balance a) :
    (reserve g.exact c).totals.balance a = c.totals.balance a + weight g c.jp c.jp.hPtr a := by
  have h0 := weight_nonneg g c.jp c.jp.hPtr a
  rw [reserve_eq, resMovement_take hw.known hr]
  have hup := balance_updAll g c (slots 0 (-c.jp.num) 0 0 0 c.jp.num) (hostSlots 1 0 0 0 1) 1
    (by simp [slots]) rfl a (by omega) (by omega)
  rw [hup]
  omega

end Accounts

/-! ## Books in order -/

/-- **The books are in order**: reserving jobs are pending, their host lists hold every host in one
run, as `allocHosts` makes them (`Procs.Sound.contiguous_allocHosts`), and no account shows less
than what the jobs have reserved there. -/
structure Rsv.Sound [DecidableEq Q] [DecidableEq U] [DecidableEq H] (g : UserGroups U)
    (jobs : Finset J) (s : Rsv J Q U H) : Prop where
  waiting : ∀ j, has (s.job j).jStatus jobStatReserve = true → Waiting (s.job j)
  listed : ∀ j, has (s.job j).jStatus jobStatReserve = true → j ∈ jobs
  numHostPtr_eq : ∀ j, s.numHostPtr j = (s.job j).hPtr.length
  runs : ∀ j, Contiguous (· = ·) (s.reserved j)
  booked : ∀ a, ∑ j ∈ jobs, weight g (s.job j) (s.reserved j) a ≤ s.totals.balance a

theorem Rsv.reserved_of_has {s : Rsv J Q U H}
    (h : has (s.job j).jStatus jobStatReserve = true) : s.reserved j = (s.job j).hPtr := if_pos h

@[simp] theorem balance_deallocHosts [DecidableEq H] (c : Cur Q U H) (a : RsvAcct Q U H) :
    (deallocHosts c).totals.balance a = c.totals.balance a := by
  cases a <;> rfl

section Rebook

variable [DecidableEq Q] [DecidableEq U] [DecidableEq H] {env : RsvEnv Q U}
  {jobs : Finset J} {s : Rsv J Q U H}

namespace Rsv

theorem Sound.weight_le (hs : s.Sound env.groups jobs) (hj : j ∈ jobs) (a : RsvAcct Q U H) :
    weight env.groups (s.job j) (s.reserved j) a ≤ s.totals.balance a := by
  refine le_trans ?_ (hs.booked a)
  exact Finset.single_le_sum (fun k _ => weight_nonneg env.groups (s.job k) (s.reserved k) a) hj

variable [DecidableEq J]

/-- Give up the slots of a job, and reserve those of another list if there are any. -/
def rebook (env : RsvEnv Q U) (j : J) (hPtr : List H) (num : Int) (s : Rsv J Q U H) :
    Rsv J Q U H :=
  if num ≠ 0 then ((s.freeReserveSlots env j).setHosts j hPtr num).reserveSlots env j
  else (s.freeReserveSlots env j).setHosts j hPtr num

/-- Rebooking a job leaves the records of the others alone. -/
theorem rebook_other (env : RsvEnv Q U) (s : Rsv J Q U H) {j k : J} (hk : k ≠ j)
    (hPtr : List H) (num : Int) :
    (s.rebook env j hPtr num).job k = s.job k ∧
      (s.rebook env j hPtr num).numHostPtr k = s.numHostPtr k := by
  have hfree : (s.freeReserveSlots env j).job k = s.job k ∧
      (s.freeReserveSlots env j).numHostPtr k = s.numHostPtr k := by
    unfold freeReserveSlots
    split
    · simp [put, hk]
    · exact ⟨rfl, rfl⟩
  have hset : ((s.freeReserveSlots env j).setHosts j hPtr num).job k = s.job k ∧
      ((s.freeReserveSlots env j).setHosts j hPtr num).numHostPtr k = s.numHostPtr k := by
    simp [setHosts, hk, hfree]
  unfold rebook
  split
  · unfold reserveSlots
    split
    · exact hset
    · split
      · exact hset
      · simp [put, hk, hset]
  · exact hset

/-- What rebooking a reserving job changes. -/
structure Rebooked (g : UserGroups U) (j : J) (hPtr : List H) (s s' : Rsv J Q U H) : Prop where
  other : ∀ k, k ≠ j → s'.job k = s.job k ∧ s'.numHostPtr k = s.numHostPtr k
  hosts : (s'.job j).hPtr = hPtr
  num : s'.numHostPtr j = hPtr.length
  known : knownStatus (s'.job j).jStatus = knownStatus (s.job j).jStatus
  has_reserve : has (s'.job j).jStatus jobStatReserve = !hPtr.isEmpty
  queue : (s'.job j).qPtr = (s.job j).qPtr
  user : (s'.job j).uPtr = (s.job j).uPtr
  balance : ∀ a, s'.totals.balance a =
    s.totals.balance a - weight g (s.job j) (s.job j).hPtr a + weight g (s.job j) hPtr a

omit [DecidableEq J] in
theorem Rebooked.reserved_self {s' : Rsv J Q U H} (hb : s.Rebooked env.groups j hPtr s') :
    s'.reserved j = hPtr := by
  rw [reserved, hb.has_reserve, hb.hosts]
  cases hPtr <;> rfl

omit [DecidableEq J] in
theorem Rebooked.reserved_other {s' : Rsv J Q U H} (hb : s.Rebooked env.groups j hPtr s') {k : J}
    (hk : k ≠ j) : s'.reserved k = s.reserved k := by
  rw [reserved, reserved, (hb.other k hk).1]

/-- The job between giving up its slots and reserving others. -/
theorem job_freed (hr : has (s.job j).jStatus jobStatReserve = true) (hPtr : List H) (num : Int) :
    ((s.freeReserveSlots env j).setHosts j hPtr num).job = Function.update s.job j
      { s.job j with jStatus := (s.job j).jStatus &&& ~~~jobStatReserve, hPtr := hPtr } := by
  rw [freeReserveSlots, if_pos hr]
  simp [setHosts, put, deallocHosts, cur]

theorem Sound.rebooked (hs : s.Sound env.groups jobs)
    (hr : has (s.job j).jStatus jobStatReserve = true) (hPtr : List H) :
    s.Rebooked env.groups j hPtr (s.rebook env j hPtr hPtr.length) := by
  have hw := hs.waiting j hr
  have hle : ∀ a, weight env.groups (s.job j) (s.job j).hPtr a ≤ s.totals.balance a := by
    intro a
    have := hs.weight_le (hs.listed j hr) a
    rwa [reserved_of_has hr] at this
  have hfree : ∀ a, (unreserve env.groups.exact (s.cur j)).totals.balance a =
      s.totals.balance a - weight env.groups (s.job j) (s.job j).hPtr a :=
    fun a => balance_unreserve (c := s.cur j) hw hr (hle a)
  obtain ⟨s₁, hs₁⟩ : ∃ s₁, (s.freeReserveSlots env j).setHosts j hPtr hPtr.length = s₁ := ⟨_, rfl⟩
  have hjob := hs₁ ▸ job_freed hr hPtr hPtr.length
  have hnum : s₁.numHostPtr = Function.update s.numHostPtr j (hPtr.length : Int) := by
    rw [← hs₁, freeReserveSlots, if_pos hr]
    simp [setHosts]
  have hbal : ∀ a, s₁.totals.balance a =
      s.totals.balance a - weight env.groups (s.job j) (s.job j).hPtr a := by
    intro a
    rw [← hs₁, freeReserveSlots, if_pos hr, ← hfree a]
    exact balance_deallocHosts _ a
  rw [rebook, hs₁]
  by_cases hnil : hPtr = []
  · subst hnil
    rw [if_neg (by simp)]
    refine ⟨?_, by simp [hjob], by simp [hnum], by simp [hjob], by simp [hjob], by simp [hjob],
      by simp [hjob], by simp [hbal]⟩
    intro k hk
    simp [hjob, hnum, hk]
  · have hlen : ((hPtr.length : Int)) ≠ 0 := by
      have := length_pos_iff.mpr hnil
      omega
    have hstat : has (s₁.job j).jStatus jobStatReserve = false := by simp [hjob]
    have hw₁ : Waiting (s₁.job j) := by
      have hst : jState (s₁.job j).jStatus = jState (s.job j).jStatus :=
        jState_congr (by simp [hjob])
      rw [Waiting, hst]
      exact hw
    rw [if_pos hlen, reserveSlots, if_neg (by simp [hnum]), if_neg (by simp [hstat])]
    refine ⟨?_, by simp [hjob, put, cur], by simp [hnum, put],
      by simp [hjob, put, cur], by simp [hjob, put, cur, hnil],
      by simp [hjob, put, cur], by simp [hjob, put, cur], ?_⟩
    · intro k hk
      simp [hjob, hnum, hk, put, cur]
    · intro a
      have h0 : 0 ≤ s₁.totals.balance a := by
        rw [hbal]
        have := hle a
        omega
      have htake := balance_reserve (g := env.groups) (c := s₁.cur j) hw₁ hstat h0
      show (reserve env.groups.exact (s₁.cur j)).totals.balance a = _
      rw [htake]
      show s₁.totals.balance a + weight env.groups (s₁.job j) (s₁.job j).hPtr a = _
      have hwt : weight env.groups (s₁.job j) (s₁.job j).hPtr a =
          weight env.groups (s.job j) hPtr a := by
        rw [show (s₁.job j).hPtr = hPtr by simp [hjob]]
        exact weight_congr (by simp [hjob]) (by simp [hjob]) hPtr a
      rw [hbal, hwt]

/-- Rebooking a shorter list keeps the books in order. -/
theorem Sound.rebook (hs : s.Sound env.groups jobs)
    (hr : has (s.job j).jStatus jobStatReserve = true)
    (hsub : hPtr.Sublist (s.job j).hPtr) :
    (s.rebook env j hPtr hPtr.length).Sound env.groups jobs := by
  have hb := hs.rebooked hr hPtr
  generalize s.rebook env j hPtr hPtr.length = s' at hb ⊢
  refine ⟨?_, ?_, ?_, ?_, ?_⟩
  · intro k hk
    by_cases hkj : k = j
    · subst hkj
      rw [Waiting, jState_congr hb.known]
      exact hs.waiting k hr
    · rw [(hb.other k hkj).1] at hk ⊢
      exact hs.waiting k hk
  · intro k hk
    by_cases hkj : k = j
    · subst hkj
      exact hs.listed k hr
    · rw [(hb.other k hkj).1] at hk
      exact hs.listed k hk
  · intro k
    by_cases hkj : k = j
    · subst hkj
      rw [hb.num, hb.hosts]
    · rw [(hb.other k hkj).1, (hb.other k hkj).2]
      exact hs.numHostPtr_eq k
  · intro k
    by_cases hkj : k = j
    · subst hkj
      rw [hb.reserved_self]
      have hruns := hs.runs k
      rw [reserved_of_has hr] at hruns
      exact hruns.sublist hsub
    · rw [hb.reserved_other hkj]
      exact hs.runs k
  · intro a
    have hj := hs.listed j hr
    have hold := hs.booked a
    rw [← Finset.add_sum_erase jobs _ hj, reserved_of_has hr] at hold
    rw [← Finset.add_sum_erase jobs _ hj, hb.reserved_self, hb.balance a,
      weight_congr hb.queue hb.user]
    have hrest : ∑ k ∈ jobs.erase j, weight env.groups (s'.job k) (s'.reserved k) a =
        ∑ k ∈ jobs.erase j, weight env.groups (s.job k) (s.reserved k) a := by
      refine Finset.sum_congr rfl ?_
      intro k hk
      have hkj := Finset.ne_of_mem_erase hk
      rw [hb.reserved_other hkj, (hb.other k hkj).1]
    rw [hrest]
    omega

end Rsv

end Rebook

/-! ## The lists of reserving jobs -/

section Proxies

variable [DecidableEq J] [DecidableEq H]

theorem proxyHRsvJLRemoveEntry_apply {pxy : H → List J} {h : H} (hnd : (pxy h).Nodup)
    (hPtr : List H) :
    proxyHRsvJLRemoveEntry j hPtr pxy h = if h ∈ hPtr then (pxy h).erase j else pxy h := by
  induction hPtr generalizing pxy with
  | nil => rfl
  | cons h₀ hPtr ih =>
    show proxyHRsvJLRemoveEntry j hPtr (Function.update pxy h₀ ((pxy h₀).erase j)) h = _
    by_cases hh : h = h₀
    · subst hh
      rw [ih (by simpa using hnd.erase j)]
      simp [erase_of_not_mem hnd.not_mem_erase]
    · rw [ih (by simpa [hh] using hnd)]
      simp [hh]

theorem proxyHRsvJLAddEntry_apply (j : J) (pxy : H → List J) (h : H) (hPtr : List H) :
    proxyHRsvJLAddEntry j hPtr pxy h =
      if h ∈ hPtr ∧ j ∉ pxy h then pxy h ++ [j] else pxy h := by
  induction hPtr generalizing pxy with
  | nil => simp [proxyHRsvJLAddEntry]
  | cons h₀ hPtr ih =>
    show proxyHRsvJLAddEntry j hPtr
      (if j ∈ pxy h₀ then pxy else Function.update pxy h₀ (pxy h₀ ++ [j])) h = _
    rw [ih]
    by_cases hh : h = h₀
    · subst hh
      by_cases hj : j ∈ pxy h <;> simp [hj]
    · by_cases hj : j ∈ pxy h₀ <;> simp [hj, hh]

variable [DecidableEq Q] [DecidableEq U] {env : RsvEnv Q U} {jobs : Finset J} {s : Rsv J Q U H}

namespace Rsv

/-- Each host's list holds the jobs that reserve slots on it, each once. -/
structure Listed (s : Rsv J Q U H) : Prop where
  nodup : ∀ h, (s.pxyRsvJL h).Nodup
  mem : ∀ h j, j ∈ s.pxyRsvJL h ↔ h ∈ s.reserved j

omit [DecidableEq J] [DecidableEq H] [DecidableEq Q] [DecidableEq U] in
/-- A job on the list of a host has a reservation on it. -/
theorem Listed.reserving (hl : s.Listed) {h : H} (hj : j ∈ s.pxyRsvJL h) :
    has (s.job j).jStatus jobStatReserve = true ∧ h ∈ (s.job j).hPtr := by
  have hmem := (hl.mem h j).mp hj
  rw [reserved] at hmem
  split_ifs at hmem with hr
  · exact ⟨hr, hmem⟩
  · cases hmem

/-- A job that is rebooked moves to the back of the lists of the hosts it keeps. -/
theorem Sound.rebook_pxy (hs : s.Sound env.groups jobs) (hl : s.Listed)
    (hr : has (s.job j).jStatus jobStatReserve = true)
    (hsub : hPtr.Sublist (s.job j).hPtr) (h : H) :
    (s.rebook env j hPtr hPtr.length).pxyRsvJL h =
      if h ∈ (s.job j).hPtr then (s.pxyRsvJL h).erase j ++ (if h ∈ hPtr then [j] else [])
      else s.pxyRsvJL h := by
  have hw := (hs.waiting j hr).known
  have hp : isPend ((s.job j).jStatus &&& ~~~jobStatReserve) = true :=
    (isPend_congr (known_and_not_reserve _)).trans (isPend_of_known hw)
  have hfree : (s.freeReserveSlots env j).pxyRsvJL =
      proxyHRsvJLRemoveEntry j (s.job j).hPtr s.pxyRsvJL := by
    rw [freeReserveSlots, if_pos hr]
    show updProxies j (s.job j) _ s.pxyRsvJL = _
    rw [updProxies, if_pos hw, if_pos (by simp [hr, hp])]
  have herase : proxyHRsvJLRemoveEntry j (s.job j).hPtr s.pxyRsvJL h =
      if h ∈ (s.job j).hPtr then (s.pxyRsvJL h).erase j else s.pxyRsvJL h :=
    proxyHRsvJLRemoveEntry_apply (hl.nodup h) _
  obtain ⟨s₁, hs₁⟩ : ∃ s₁, (s.freeReserveSlots env j).setHosts j hPtr hPtr.length = s₁ := ⟨_, rfl⟩
  have hpxy₁ : s₁.pxyRsvJL = proxyHRsvJLRemoveEntry j (s.job j).hPtr s.pxyRsvJL := by
    rw [← hs₁, ← hfree]
    rfl
  have hjob : s₁.job j =
      { s.job j with jStatus := (s.job j).jStatus &&& ~~~jobStatReserve, hPtr := hPtr } := by
    rw [← hs₁, job_freed hr, Function.update_self]
  have hnum : s₁.numHostPtr j = (hPtr.length : Int) := by
    rw [← hs₁]
    simp [setHosts]
  rw [Rsv.rebook, hs₁]
  by_cases hnil : hPtr = []
  · subst hnil
    rw [if_neg (by simp), hpxy₁, herase]
    simp
  · have hlen : (hPtr.length : Int) ≠ 0 := by simpa using hnil
    have hp' : isPend ((s.job j).jStatus &&& ~~~jobStatReserve ||| jobStatReserve) = true :=
      (isPend_congr (known_or_reserve _)).trans hp
    rw [if_pos hlen, reserveSlots, if_neg (by simp [hnum]), if_neg (by simp [hjob])]
    show updProxies j (s₁.job j) _ s₁.pxyRsvJL h = _
    rw [updProxies, hjob, if_pos (by simpa using hw), if_neg (by simp), if_pos (by simp [hp']),
      proxyHRsvJLAddEntry_apply, hpxy₁, herase]
    by_cases hmem : h ∈ (s.job j).hPtr
    · have hnot : j ∉ (s.pxyRsvJL h).erase j := (hl.nodup h).not_mem_erase
      by_cases hin : h ∈ hPtr
      · simp [hmem, hin, hnot]
      · simp [hmem, hin]
    · have hin : h ∉ hPtr := fun hin => hmem (hsub.subset hin)
      simp [hmem, hin]

theorem Sound.rebook_listed (hs : s.Sound env.groups jobs) (hl : s.Listed)
    (hr : has (s.job j).jStatus jobStatReserve = true)
    (hsub : hPtr.Sublist (s.job j).hPtr) : (s.rebook env j hPtr hPtr.length).Listed := by
  have hpxy := hs.rebook_pxy hl hr hsub
  have hb := hs.rebooked hr hPtr
  generalize s.rebook env j hPtr hPtr.length = s' at hpxy hb ⊢
  refine ⟨?_, ?_⟩
  · intro h
    rw [hpxy h]
    split
    · have hnd := (hl.nodup h).erase j
      split
      · simpa using hnd.concat (hl.nodup h).not_mem_erase
      · rwa [append_nil]
    · exact hl.nodup h
  · intro h k
    have hmem := hl.mem h k
    rw [hpxy h]
    by_cases hkj : k = j
    · subst hkj
      rw [reserved_of_has hr] at hmem
      rw [hb.reserved_self]
      by_cases hin : h ∈ (s.job k).hPtr
      · have hnot : k ∉ (s.pxyRsvJL h).erase k := (hl.nodup h).not_mem_erase
        by_cases hin' : h ∈ hPtr <;> simp [hin, hin', hnot]
      · have hin' : h ∉ hPtr := fun hin' => hin (hsub.subset hin')
        simp [hin, hin', hmem]
    · rw [hb.reserved_other hkj, ← hmem]
      split
      · rw [mem_append, mem_erase_of_ne hkj]
        split
        · simp [hkj]
        · simp
      · rfl

end Rsv

end Proxies

/-- **The states in which reservations are in order**, bundled. -/
structure Reserving (J Q U H : Type) [DecidableEq J] [DecidableEq Q] [DecidableEq U]
    [DecidableEq H] (env : RsvEnv Q U) where
  state : Rsv J Q U H
  jobs : Finset J
  sound : state.Sound env.groups jobs
  listed : state.Listed

end Volclava
