import Volclava.Lib.CInt
import Volclava.Lib.Reposition

/-!
# The fairshare tree of a queue

A fairshare queue keeps a tree of share accounts. Each account has a dynamic priority, computed
from its share and the usage below it and stored; the accounts under one parent are kept in a
list in order of that stored priority, lowest first. This module has the tree and what changes
it: building it from the configuration, charging usage along the path to the root, storing
priorities along a path, decaying the history, and adding an account for a new user.

How numbers are rounded is a parameter. Accounts are told apart by the number of their creation,
which stands for their address.

- `FSTree.updPath`: one walk up a path to the root.
- `charge_eq_updPath`: charging and storing the priorities is one such walk.
-/

namespace Volclava

open Reposition

/-! ## Accounts and priorities -/

/-- The factors of the dynamic priority: the cluster's, and the queue's, which are -1 unless they
are configured. `decayRate` is the rate per decay interval in force for the queue, and
`histHours` is false if its history is not decayed. `arith` is the arithmetic of the machine. -/
structure FSParams where
  cpuTimeFactor : ℚ
  runTimeFactor : ℚ
  runJobFactor : ℚ
  qCpuTimeFactor : ℚ
  qRunTimeFactor : ℚ
  qRunJobFactor : ℚ
  histHours : Bool
  decayRate : ℚ
  arith : CInt.Arith

/-- A share account. The flags are `FS_IS_DEFAULT`, `FS_ALL_DEFAULT` and `FS_SKIPABLE`. -/
structure ShareAcct where
  ptr : Nat
  name : String
  share : Int
  isDefault : Bool := false
  allDefault : Bool := false
  skipable : Bool := false
  priority : ℚ := 0
  numStartJobs : Int := 0
  newUsedCpuTime : ℚ := 0
  histCpuTime : ℚ := 0
  runTime : Int := 0
  numSkippedChild : Nat := 0
  deriving DecidableEq

namespace FSParams

variable (P : FSParams)

/-- The load of an account as `calcDynamicPriority` computes it, with the factors it uses. -/
def loadMetric (a : ShareAcct) : ℚ :=
  let r := P.arith
  let cpuTimeFactor := if P.qCpuTimeFactor ≠ -1 then P.qCpuTimeFactor else P.cpuTimeFactor
  let runTimeFactor := if P.qRunTimeFactor ≠ -1 then P.qRunTimeFactor else P.runTimeFactor
  -- The source takes the queue's run time factor here.
  let runJobFactor := if P.qRunJobFactor ≠ -1 then P.qRunTimeFactor else P.runJobFactor
  r.flt (r.dbl (
    r.dbl (r.dbl (r.dbl (r.flt (a.newUsedCpuTime + a.histCpuTime) / 3600) * cpuTimeFactor) +
      r.dbl (r.dbl (a.runTime / 3600) * runTimeFactor)) +
    r.flt (r.flt (r.int (a.numStartJobs + 1)) * runJobFactor)))

def calcDynamicPriority (a : ShareAcct) : ℚ :=
  let r := P.arith
  let load := if P.loadMetric a < r.dbl (1 / 100) then r.flt (1 / 100) else P.loadMetric a
  r.flt (r.flt a.share / load)

def setPriority (a : ShareAcct) : ShareAcct := { a with priority := P.calcDynamicPriority a }

/-- A new account, with no usage yet. -/
def newAcct (ptr : Nat) (name : String) (share : Int) : ShareAcct :=
  P.setPriority { ptr := ptr, name := name, share := share }

end FSParams

/-! ## The tree -/

/-- The tree of share accounts. A leaf is an account looked up by its name (a user, `default`),
or a group of users without shares of its own: the users in `usersTab`, all users if that is
empty, or with `FS_OUT_OTHERS` all users outside it. -/
inductive FSTree where
  | user (acct : ShareAcct)
  | group (acct : ShareAcct) (outOthers : Bool) (usersTab : List String)
  | inner (acct : ShareAcct) (sAcctList : List FSTree)

namespace FSTree

def acct : FSTree → ShareAcct
  | user a => a
  | group a _ _ => a
  | inner a _ => a

def setAcct (f : ShareAcct → ShareAcct) : FSTree → FSTree
  | user a => user (f a)
  | group a out tab => group (f a) out tab
  | inner a kids => inner (f a) kids

@[simp] theorem acct_setAcct (f : ShareAcct → ShareAcct) (t : FSTree) :
    (t.setAcct f).acct = f t.acct := by
  cases t <;> rfl

/-- The stored priority of the account at the root. -/
def priority (t : FSTree) : ℚ := t.acct.priority

/-- Induction over the tree: a fact that goes from all children to their parent. -/
@[elab_as_elim]
theorem induction {motive : FSTree → Prop} (user : ∀ a, motive (.user a))
    (group : ∀ a out tab, motive (.group a out tab))
    (inner : ∀ a kids, (∀ k ∈ kids, motive k) → motive (.inner a kids)) :
    ∀ t, motive t
  | .user a => user a
  | .group a out tab => group a out tab
  | .inner a kids => inner a kids fun k _ => FSTree.induction user group inner k

mutual

/-- The accounts of a tree. -/
def accts : FSTree → List ShareAcct
  | user a => [a]
  | group a _ _ => [a]
  | inner a kids => a :: acctsList kids

def acctsList : List FSTree → List ShareAcct
  | [] => []
  | k :: ks => accts k ++ acctsList ks

end

mutual

/-- The accounts of the leaves, which are those in the policy's `userTab`. -/
def leaves : FSTree → List ShareAcct
  | user a => [a]
  | group a _ _ => [a]
  | inner _ kids => leavesList kids

def leavesList : List FSTree → List ShareAcct
  | [] => []
  | k :: ks => leaves k ++ leavesList ks

end

mutual

/-- Goes up from the account `target` to the root: `f` changes each account on the way, `place`
puts each changed account back among its siblings. -/
def updPath (f : ShareAcct → ShareAcct)
    (place : List FSTree → FSTree → List FSTree → List FSTree) (target : Nat) :
    FSTree → Option FSTree
  | user a => if a.ptr = target then some (user (f a)) else none
  | group a out tab => if a.ptr = target then some (group (f a) out tab) else none
  | inner a kids =>
    if a.ptr = target then some (inner (f a) kids)
    else (updPathKids f place target [] kids).map (inner (f a))

def updPathKids (f : ShareAcct → ShareAcct)
    (place : List FSTree → FSTree → List FSTree → List FSTree) (target : Nat) :
    List FSTree → List FSTree → Option (List FSTree)
  | _, [] => none
  | left, k :: right =>
    match updPath f place target k with
    | some k' => some (place left k' right)
    | none => updPathKids f place target (left ++ [k]) right

end

/-- Leaves an account where it is. -/
def keep (left : List FSTree) (k : FSTree) (right : List FSTree) : List FSTree :=
  left ++ k :: right

/-- `adjustOrderByPriority` for an account between its siblings. -/
def adjustOrderByPriority (left : List FSTree) (k : FSTree) (right : List FSTree) :
    List FSTree :=
  reposition priority left k right

theorem adjustOrderByPriority_perm (l : List FSTree) (k : FSTree) (r : List FSTree) :
    (adjustOrderByPriority l k r).Perm (l ++ k :: r) := reposition_perm priority l k r

/-- The account that has changed, or one of the sibling list it was in. -/
theorem mem_of_perm {l r xs : List FSTree} {k' x : FSTree} (h : xs.Perm (l ++ k' :: r))
    (hx : x ∈ xs) (k : FSTree) : x = k' ∨ x ∈ l ++ k :: r := by
  have hx := h.mem_iff.mp hx
  simp only [List.mem_append, List.mem_cons] at hx ⊢
  tauto

theorem ordered_adjust {l r : List FSTree} {k : FSTree} (h : Ordered priority (l ++ k :: r))
    (k' : FSTree) : Ordered priority (adjustOrderByPriority l k' r) :=
  Ordered.reposition (List.Pairwise.sublist ((List.sublist_cons_self k r).append_left l) h) k'

end FSTree

/-! ## Charging usage -/

/-- What `updShareAcctStats` adds to an account and its ancestors. -/
inductive ShareAcctUpd where
  | newUsedCpuTime (x : ℚ)
  | decayedCpuTime (x : ℚ)
  | runTime (x : Int)
  | numStartJobs (x : Int)

/-- A negative counter is set to zero. -/
def ShareAcctUpd.apply (r : CInt.Arith) (u : ShareAcctUpd) (a : ShareAcct) : ShareAcct :=
  match u with
  | .newUsedCpuTime x =>
    let v := r.flt (a.newUsedCpuTime + x)
    { a with newUsedCpuTime := if v < 0 then 0 else v }
  | .decayedCpuTime x => { a with histCpuTime := r.flt (a.histCpuTime + x) }
  | .runTime x =>
    let v := r.int (a.runTime + x)
    { a with runTime := if v < 0 then 0 else v }
  | .numStartJobs x =>
    let v := r.int (a.numStartJobs + x)
    { a with numStartJobs := if v < 0 then 0 else v }

@[simp] theorem ShareAcctUpd.apply_ptr (r : CInt.Arith) (u : ShareAcctUpd) (a : ShareAcct) :
    (u.apply r a).ptr = a.ptr := by
  cases u <;> rfl

namespace FSTree

def updShareAcctStats (r : CInt.Arith) (target : Nat) (u : ShareAcctUpd) (t : FSTree) : FSTree :=
  (t.updPath (u.apply r) keep target).getD t

def updSAcctPriorityByPath (P : FSParams) (target : Nat) (t : FSTree) : FSTree :=
  (t.updPath P.setPriority adjustOrderByPriority target).getD t

/-! ### Paths -/

/-- Whether the account with number `target` is in the tree. -/
def Has (target : Nat) (t : FSTree) : Prop := ∃ a ∈ t.accts, a.ptr = target

theorem mem_acctsList {a : ShareAcct} {ks : List FSTree} :
    a ∈ acctsList ks ↔ ∃ k ∈ ks, a ∈ k.accts := by
  induction ks with
  | nil => simp [acctsList]
  | cons k ks ih => simp [acctsList, ih]

variable {place : List FSTree → FSTree → List FSTree → List FSTree}

variable {f : ShareAcct → ShareAcct} {target : Nat}

/-- A path through the children of an account: the first child with a path, changed and put back
among its siblings. -/
theorem updPathKids_eq_some {left ks ks' : List FSTree} :
    updPathKids f place target left ks = some ks' ↔
      ∃ l k k' r, ks = l ++ k :: r ∧ (∀ x ∈ l, updPath f place target x = none) ∧
        updPath f place target k = some k' ∧ ks' = place (left ++ l) k' r := by
  induction ks generalizing left with
  | nil => simp [updPathKids]
  | cons x ks ih =>
    rw [updPathKids]
    constructor
    · intro h
      cases hx : updPath f place target x with
      | some x' =>
        rw [hx] at h
        exact ⟨[], x, x', ks, rfl, by simp, hx, by simpa using h.symm⟩
      | none =>
        rw [hx] at h
        obtain ⟨l, k, k', r, rfl, hl, hk, rfl⟩ := ih.mp h
        exact ⟨x :: l, k, k', r, rfl, List.forall_mem_cons.mpr ⟨hx, hl⟩, hk, by simp⟩
    · rintro ⟨l, k, k', r, hks, hl, hk, rfl⟩
      cases l with
      | nil =>
        obtain ⟨rfl, rfl⟩ := List.cons.inj hks
        rw [hk]
        simp
      | cons y l =>
        obtain ⟨rfl, rfl⟩ := List.cons.inj hks
        rw [hl x (by simp)]
        refine ih.mpr ⟨l, k, k', r, rfl, fun y hy => hl y (by simp [hy]), hk, by simp⟩

theorem updPathKids_eq_none {left ks : List FSTree} :
    updPathKids f place target left ks = none ↔ ∀ k ∈ ks, updPath f place target k = none := by
  induction ks generalizing left with
  | nil => simp [updPathKids]
  | cons x ks ih =>
    rw [updPathKids]
    cases hx : updPath f place target x with
    | some x' => simp [hx]
    | none => simp [hx, ih]

/-- There is a path exactly to the accounts of the tree. -/
theorem updPath_eq_none (t : FSTree) : t.updPath f place target = none ↔ ¬ t.Has target := by
  induction t using FSTree.induction with
  | user a => simp [updPath, Has, accts]
  | group a out tab => simp [updPath, Has, accts]
  | inner a kids ih =>
    simp only [updPath, Has, accts, List.mem_cons, mem_acctsList]
    split_ifs with h
    · simp [h]
    · rw [Option.map_eq_none_iff, updPathKids_eq_none]
      constructor
      · rintro hn ⟨b, rfl | ⟨k, hk, hb⟩, hbt⟩
        · exact h hbt
        · exact (ih k hk).mp (hn k hk) ⟨b, hb, hbt⟩
      · intro hn k hk
        rw [ih k hk]
        rintro ⟨b, hb, hbt⟩
        exact hn ⟨b, .inr ⟨k, hk, hb⟩, hbt⟩

/-- Induction along a path: what holds of every changed account at the end of the path and goes
from a changed child to its parent. -/
theorem updPath_induction {motive : FSTree → FSTree → Prop}
    (user : ∀ a, a.ptr = target → motive (.user a) (.user (f a)))
    (group : ∀ a out tab, a.ptr = target → motive (.group a out tab) (.group (f a) out tab))
    (here : ∀ a kids, a.ptr = target → motive (.inner a kids) (.inner (f a) kids))
    (below : ∀ a l k k' r, a.ptr ≠ target → (∀ x ∈ l, x.updPath f place target = none) →
      k.updPath f place target = some k' → motive k k' →
      motive (.inner a (l ++ k :: r)) (.inner (f a) (place l k' r))) (t : FSTree) {t' : FSTree}
    (h : t.updPath f place target = some t') : motive t t' := by
  induction t using FSTree.induction generalizing t' with
  | user a =>
    simp only [updPath] at h
    split_ifs at h with ha
    obtain rfl := Option.some.inj h
    exact user a ha
  | group a out tab =>
    simp only [updPath] at h
    split_ifs at h with ha
    obtain rfl := Option.some.inj h
    exact group a out tab ha
  | inner a kids ih =>
    simp only [updPath] at h
    split_ifs at h with ha
    · obtain rfl := Option.some.inj h
      exact here a kids ha
    · obtain ⟨kids', hkids, rfl⟩ := Option.map_eq_some_iff.mp h
      obtain ⟨l, k, k', r, rfl, hl, hk, rfl⟩ := updPathKids_eq_some.mp hkids
      rw [List.nil_append]
      exact below a l k k' r ha hl hk (ih k (by simp) hk)

theorem acct_updPath {t t' : FSTree} (h : t.updPath f place target = some t') :
    t'.acct = f t.acct :=
  updPath_induction (motive := fun t t' => t'.acct = f t.acct) (fun _ _ => rfl)
    (fun _ _ _ _ => rfl) (fun _ _ _ => rfl) (fun _ _ _ _ _ _ _ _ _ => rfl) t h

/-- A walk up the path to the account `target`, if it is in the tree. -/
theorem updPath_getD_of {t : FSTree} {motive : FSTree → Prop} (h : motive t)
    (hu : ∀ t', t.updPath f place target = some t' → motive t') :
    motive ((t.updPath f place target).getD t) := by
  cases hp : t.updPath f place target with
  | none => exact h
  | some t' => exact hu t' hp

/-- Two walks up the same path are one. -/
theorem updPath_updPath {f g : ShareAcct → ShareAcct} (hf : ∀ a, (f a).ptr = a.ptr)
    (t : FSTree) {t' : FSTree} (h : t.updPath f keep target = some t') :
    t'.updPath g place target = t.updPath (g ∘ f) place target := by
  refine updPath_induction
    (motive := fun t t' => t'.updPath g place target = t.updPath (g ∘ f) place target)
    (fun a ha => ?_) (fun a out tab ha => ?_) (fun a kids ha => ?_)
    (fun a l k k' r ha hl hk ih => ?_) t h
  · simp [updPath, hf, ha]
  · simp [updPath, hf, ha]
  · simp [updPath, hf, ha]
  · rw [updPath, updPath, if_neg (by rw [hf]; exact ha), if_neg ha]
    have hnone : ∀ x ∈ l, ∀ (h : ShareAcct → ShareAcct) p, x.updPath h p target = none := by
      intro x hx h p
      rw [updPath_eq_none]
      exact (updPath_eq_none x).mp (hl x hx)
    obtain ⟨k'', hk''⟩ : ∃ k'', k.updPath (g ∘ f) place target = some k'' := by
      apply Option.ne_none_iff_exists'.mp
      intro hno
      have hsome : k.updPath f keep target = none :=
        (updPath_eq_none k).mpr ((updPath_eq_none k).mp hno)
      rw [hk] at hsome
      simp at hsome
    have h1 : updPathKids g place target [] (keep l k' r) = some (place l k'' r) :=
      updPathKids_eq_some.mpr ⟨l, k', k'', r, by simp [keep],
        fun x hx => hnone x hx g place, ih.trans hk'', by simp⟩
    have h2 : updPathKids (g ∘ f) place target [] (l ++ k :: r) = some (place l k'' r) :=
      updPathKids_eq_some.mpr ⟨l, k, k'', r, rfl,
        fun x hx => hnone x hx (g ∘ f) place, hk'', by simp⟩
    rw [h1, h2]
    rfl

/-- Charging an account and storing the priorities on its path is one walk up the path. -/
theorem charge_eq_updPath (P : FSParams) (target : Nat) (u : ShareAcctUpd) (t : FSTree) :
    (t.updShareAcctStats P.arith target u).updSAcctPriorityByPath P target =
      (t.updPath (P.setPriority ∘ u.apply P.arith) adjustOrderByPriority target).getD t := by
  unfold updShareAcctStats updSAcctPriorityByPath
  cases h : t.updPath (u.apply P.arith) keep target with
  | none =>
    have hnone := (updPath_eq_none t).mp h
    rw [Option.getD_none, (updPath_eq_none t).mpr hnone, (updPath_eq_none t).mpr hnone]
  | some t' =>
    rw [Option.getD_some, updPath_updPath (u.apply_ptr P.arith) t h]
    cases hc : t.updPath (P.setPriority ∘ u.apply P.arith) adjustOrderByPriority target with
    | some t'' => rfl
    | none =>
      rw [(updPath_eq_none t).mpr ((updPath_eq_none t).mp hc)] at h
      simp at h

end FSTree

/-! ## Decay -/

/-- `SHARE_ACCT_UPD_DECAYTIMES`: the history decays `times` times and takes in the new usage. -/
def FSParams.decayAcct (P : FSParams) (times : Nat) (a : ShareAcct) : ShareAcct :=
  let r := P.arith
  { a with
    histCpuTime := r.flt (r.dbl (r.flt (r.flt (a.histCpuTime * P.decayRate) + a.newUsedCpuTime) *
      r.dbl (P.decayRate ^ (times - 1))))
    newUsedCpuTime := 0 }

namespace FSTree

/-- What the decay pass does to one account of a sibling list. -/
def decayKid (P : FSParams) (times : Nat) (t : FSTree) : FSTree :=
  t.setAcct fun a => P.setPriority { P.decayAcct times a with skipable := true }

/-- The walk of the decay pass through one sibling list. `FS_SKIPABLE` is first taken from all
and then marks the accounts that have been decayed. -/
def decaySiblings (P : FSParams) (times : Nat) (kids : List FSTree) : List FSTree :=
  walk priority (decayKid P times) (·.acct.skipable) (2 * kids.length) []
    (kids.map (setAcct fun a => { a with skipable := false }))

mutual

/-- `traverseUpd4Decay` for the levels below an account. The source goes down after it has walked
through the children; the two touch different accounts. -/
def traverseUpd4Decay (P : FSParams) (times : Nat) : FSTree → FSTree
  | user a => user a
  | group a out tab => group a out tab
  | inner a kids => inner a (decaySiblings P times (traverseKids P times kids))

def traverseKids (P : FSParams) (times : Nat) : List FSTree → List FSTree
  | [] => []
  | k :: ks => traverseUpd4Decay P times k :: traverseKids P times ks

end

theorem traverseKids_eq_map (P : FSParams) (times : Nat) (ks : List FSTree) :
    traverseKids P times ks = ks.map (traverseUpd4Decay P times) := by
  induction ks with
  | nil => rfl
  | cons k ks ih => rw [traverseKids, ih, List.map_cons]

/-- The decay of a whole tree, unless the queue keeps no history. -/
def decayTree (P : FSParams) (times : Nat) (t : FSTree) : FSTree :=
  if P.histHours then (t.traverseUpd4Decay P times).setAcct (P.decayAcct times) else t

/-! ## New users -/

mutual

/-- Puts a new account, made from the account it follows, right after the account `target`. -/
def insertAfter (target : Nat) (new : ShareAcct → FSTree) : FSTree → FSTree
  | user a => user a
  | group a out tab => group a out tab
  | inner a kids => inner a (insertAfterKids target new kids)

def insertAfterKids (target : Nat) (new : ShareAcct → FSTree) : List FSTree → List FSTree
  | [] => []
  | k :: ks =>
    if k.acct.ptr = target then k :: new k.acct :: ks
    else insertAfter target new k :: insertAfterKids target new ks

end

/-- Whether the account is a child of the root. -/
def isTop (t : FSTree) (target : Nat) : Bool :=
  match t with
  | inner _ kids => kids.any (·.acct.ptr = target)
  | _ => false

/-- The `default` accounts after which `updAliveUserInFSTree` puts a new user, in its order: all
that stand for every user, but the first one under the root only if there is no other. -/
def aliveRefs (t : FSTree) : List Nat :=
  let refs := (t.leaves.filter (·.name = "default")).insertionSort fun a b => b.ptr ≤ a.ptr
  let found := refs.foldl
    (fun (top, below) r =>
      if r.allDefault then
        if top = none ∧ t.isTop r.ptr then (some r.ptr, below) else (top, below ++ [r.ptr])
      else (top, below))
    ((none : Option Nat), ([] : List Nat))
  if found.2 = [] then found.1.toList else found.2

end FSTree

/-- A fairshare policy: the tree, the number of the next account, and the time of the last
decay. -/
structure FSPolicy where
  root : FSTree
  next : Nat
  lastDecayTime : Int

namespace FSPolicy

def appendAliveUser (P : FSParams) (userName : String) (p : FSPolicy) (ref : Nat) : FSPolicy :=
  { p with
    root := p.root.insertAfter ref fun d => .user (P.newAcct p.next userName d.share)
    next := p.next + 1 }

def updAliveUserInFSTree (P : FSParams) (p : FSPolicy) (userName : String) : FSPolicy :=
  if p.root.leaves.any (·.name = userName) then p
  else p.root.aliveRefs.foldl (appendAliveUser P userName) p

/-- `updAllSAcctForDecay`, once each `CALCULATE_INTERVAL`. -/
def updAllSAcctForDecay (P : FSParams) (p : FSPolicy) (eventTime : Int) : FSPolicy :=
  let last := if p.lastDecayTime = 0 then eventTime else p.lastDecayTime
  if eventTime - last < 900 then { p with lastDecayTime := last }
  else
    { p with
      lastDecayTime := eventTime
      root := p.root.decayTree P ((eventTime - last) / 900).toNat }

/-- `attachJob2FSTree`: `given` is the account passed in, `found` what `getSAcctForJob` finds.
The priorities are stored along the path of the account passed in. -/
def attachJob2FSTree (P : FSParams) (p : FSPolicy) (given found : Option Nat) (numHostPtr : Int) :
    FSPolicy :=
  match given.or found with
  | none => p
  | some sAcct =>
    let root := p.root.updShareAcctStats P.arith sAcct (.numStartJobs numHostPtr)
    { p with root := given.elim root fun sa => root.updSAcctPriorityByPath P sa }

def detachedJobFromFSTree (P : FSParams) (p : FSPolicy) (sa : Nat) (numHostPtr : Int) :
    FSPolicy :=
  { p with root := (p.root.updShareAcctStats P.arith sa
      (.numStartJobs (-numHostPtr))).updSAcctPriorityByPath P sa }

/-- A change of usage followed by `updSAcctPriorityByPath`, as on a status report or a change of
status. -/
def charge (P : FSParams) (p : FSPolicy) (sa : Nat) (u : ShareAcctUpd) : FSPolicy :=
  { p with root := (p.root.updShareAcctStats P.arith sa u).updSAcctPriorityByPath P sa }

end FSPolicy

/-! ## Building the tree -/

/-- An entry of `USER_SHARES`: a user, `default`, `others`, a group without shares of its own, or
a group with shares, for which `allMembers` says that its member is `all`. The `usersTab` are
the tables the group files give. -/
inductive FSEntry where
  | user (name : String) (share : Int)
  | default (name : String) (share : Int)
  | others (name : String) (share : Int) (usersTab : List String)
  | group (name : String) (share : Int) (usersTab : List String)
  | shares (name : String) (share : Int) (allMembers : Bool) (entries : List FSEntry)

/-- `inShareAcctList`: before the first account with at least the same priority. -/
def inShareAcctList (list : List FSTree) (t : FSTree) : List FSTree :=
  list.orderedInsert (fun a b => a.priority ≤ b.priority) t

mutual

/-- The account of one entry with everything below it, and the next account number. -/
def buildEntry (P : FSParams) (allMembers : Bool) (next : Nat) : FSEntry → FSTree × Nat
  | .user name share => (.user (P.newAcct next name share), next + 1)
  | .default name share =>
    (.user { P.newAcct next name share with isDefault := true, allDefault := allMembers }, next + 1)
  | .others name share tab => (.group (P.newAcct next name share) allMembers tab, next + 1)
  | .group name share tab => (.group (P.newAcct next name share) false tab, next + 1)
  | .shares name share all entries =>
    let built := buildFSTree P all (next + 1) [] entries
    (.inner (P.newAcct next name share) built.1, built.2)

/-- `buildFSTree`: the children of an account, entered one after the other. -/
def buildFSTree (P : FSParams) (allMembers : Bool) (next : Nat) (list : List FSTree) :
    List FSEntry → List FSTree × Nat
  | [] => (list, next)
  | e :: es =>
    let built := buildEntry P allMembers next e
    buildFSTree P allMembers built.2 (inShareAcctList list built.1) es

end

/-- Changes the share of the child `target` of the root and puts it in its place. -/
def setShare (P : FSParams) (target : Nat) (share : Int) :
    List FSTree → List FSTree → List FSTree
  | left, [] => left
  | left, k :: right =>
    if k.acct.ptr = target then
      FSTree.adjustOrderByPriority left
        (k.setAcct fun a => P.setPriority { a with share := share }) right
    else setShare P target share (left ++ [k]) right

/-- The accounts that `userTab` has for a user directly under the root. -/
def topRefs (kids : List FSTree) (userName : String) : List Nat :=
  kids.filterMap fun
    | .user a => if a.name = userName then some a.ptr else none
    | .group a _ _ => if a.name = userName then some a.ptr else none
    | .inner _ _ => none

/-- One user of a group entered with `@`: the newest account for the user under the root takes
the share of the group, or there is a new one. -/
def addDescendantInSAcctList (P : FSParams) (kids : List FSTree × Nat) (m : String × Int) :
    List FSTree × Nat :=
  match (topRefs kids.1 m.1).max? with
  | some ref => (setShare P ref m.2 [] kids.1, kids.2)
  | none => (inShareAcctList kids.1 (.user (P.newAcct kids.2 m.1 m.2)), kids.2 + 1)

/-- `addFSPolicy`: `individuals` are the users of the groups entered with `@`, in order, with the
share of their group. -/
def addFSPolicy (P : FSParams) (queue : String) (entries : List FSEntry)
    (individuals : List (String × Int)) : FSPolicy :=
  let built := individuals.foldl (addDescendantInSAcctList P) (buildFSTree P true 1 [] entries)
  { root := .inner { ptr := 0, name := queue, share := 0 } built.1
    next := built.2
    lastDecayTime := 0 }

/-! ### Induction over the building of a tree -/

/-- A property `T` of an account built with the numbers from one on and below another, and a
property `I` of a sibling list, that go along with the building of a tree. -/
structure BuildRule (P : FSParams) (T : Nat → Nat → FSTree → Prop)
    (I : Nat → Nat → List FSTree → Prop) : Prop where
  user : ∀ next name share d all, T next (next + 1)
    (.user { P.newAcct next name share with isDefault := d, allDefault := all })
  group : ∀ next name share out tab, T next (next + 1) (.group (P.newAcct next name share) out tab)
  inner : ∀ next hi name share ks, I (next + 1) hi ks →
    T next hi (.inner (P.newAcct next name share) ks)
  nil : ∀ lo, I lo lo []
  insert : ∀ lo mid hi ks t, I lo mid ks → T mid hi t → I lo hi (inShareAcctList ks t)
  adjust : ∀ lo hi l k r share, I lo hi (l ++ k :: r) → I lo hi (FSTree.adjustOrderByPriority l
    (k.setAcct fun a => P.setPriority { a with share := share }) r)

namespace BuildRule

variable {P : FSParams} {T : Nat → Nat → FSTree → Prop} {I : Nat → Nat → List FSTree → Prop}

mutual

theorem buildEntry (h : BuildRule P T I) (all : Bool) (next : Nat) : (e : FSEntry) →
    T next (buildEntry P all next e).2 (buildEntry P all next e).1
  | .user name share => h.user next name share false false
  | .default name share => h.user next name share true all
  | .others name share tab => h.group next name share all tab
  | .group name share tab => h.group next name share false tab
  | .shares name share all' entries =>
    h.inner next _ name share _ (buildFSTree h all' (next + 1) (next + 1) [] (h.nil _) entries)

theorem buildFSTree (h : BuildRule P T I) (all : Bool) (lo next : Nat) (list : List FSTree)
    (hl : I lo next list) : (es : List FSEntry) →
    I lo (buildFSTree P all next list es).2 (buildFSTree P all next list es).1
  | [] => hl
  | e :: es => buildFSTree h all lo _ _ (h.insert _ _ _ _ _ hl (buildEntry h all next e)) es

end

theorem setShare (h : BuildRule P T I) (target : Nat) (share : Int) {lo hi : Nat}
    (left ks : List FSTree) (hl : I lo hi (left ++ ks)) :
    I lo hi (setShare P target share left ks) := by
  induction ks generalizing left with
  | nil => simpa [Volclava.setShare] using hl
  | cons k right ih =>
    rw [Volclava.setShare]
    split_ifs
    · exact h.adjust _ _ _ _ _ _ hl
    · exact ih (left ++ [k]) (by simpa using hl)

/-- What holds of the accounts under the root of a new policy. -/
theorem addFSPolicy (h : BuildRule P T I) (queue : String) (entries : List FSEntry)
    (individuals : List (String × Int)) : ∃ kids,
      (addFSPolicy P queue entries individuals).root =
        .inner { ptr := 0, name := queue, share := 0 } kids ∧
      I 1 (addFSPolicy P queue entries individuals).next kids := by
  have hall : ∀ (ms : List (String × Int)) (kids : List FSTree × Nat), I 1 kids.2 kids.1 →
      I 1 (ms.foldl (addDescendantInSAcctList P) kids).2
        (ms.foldl (addDescendantInSAcctList P) kids).1 := by
    intro ms
    induction ms with
    | nil => exact fun _ hk => hk
    | cons m ms ih =>
      intro kids hk
      refine ih _ ?_
      unfold addDescendantInSAcctList
      split
      · exact h.setShare _ _ [] _ hk
      · exact h.insert _ _ _ _ _ hk (h.user _ m.1 m.2 false false)
  exact ⟨_, rfl, hall individuals _ (h.buildFSTree true 1 1 [] (h.nil 1) entries)⟩

end BuildRule

namespace FSPolicy

/-- The cluster's default factors, and a queue with the given run time and run job factors; all
numbers are exact. -/
def defaultFactors (qRunTimeFactor qRunJobFactor : ℚ) : FSParams where
  cpuTimeFactor := 7 / 10
  runTimeFactor := 7 / 10
  runJobFactor := 3
  qCpuTimeFactor := -1
  qRunTimeFactor := qRunTimeFactor
  qRunJobFactor := qRunJobFactor
  histHours := true
  decayRate := 1 / 2
  arith := .exact

end FSPolicy

end Volclava
