import Volclava.Fairshare
import Volclava.Lib.Run

/-!
# Dynamic priorities are current and ordered

Priorities are stored, and stored again only along the path of an account that has changed. In
every state reached from `addFSPolicy` each stored priority should still be the one the usage
gives, and each sibling list should be in its order. Two things break this: the queue's run job
factor is replaced by its run time factor, and `attachJob2FSTree` without a given account charges
the account it finds but stores no priority.

- `FSTree.Ranked`: all stored priorities are current and all sibling lists are in order.
- `ranked_updPath`, `ranked_traverseUpd4Decay`, `ranked_insertAfter`: what keeps a tree so.
- `ranked_run`: the invariant over whole runs.
-/

namespace Volclava

open Reposition List

/-! ## Priorities as they should be -/

/-- A factor: the queue's if it is configured, else the cluster's. -/
def effectiveFactor (queue cluster : ℚ) : ℚ := if queue = -1 then cluster else queue

namespace FSParams

variable (P : FSParams)

/-- The dynamic priority of an account. -/
def dynamicPriority (a : ShareAcct) : ℚ :=
  a.share / max (1 / 100)
    ((a.newUsedCpuTime + a.histCpuTime) / 3600 *
        effectiveFactor P.qCpuTimeFactor P.cpuTimeFactor +
      a.runTime / 3600 * effectiveFactor P.qRunTimeFactor P.runTimeFactor +
      (a.numStartJobs + 1) * effectiveFactor P.qRunJobFactor P.runJobFactor)

/-- The queue has no run job factor of its own, or the same as its run time factor. -/
def SameFactors : Prop := P.qRunJobFactor = -1 ∨ P.qRunTimeFactor = P.qRunJobFactor

/-- All numbers are exact, and the two factors do no harm. -/
def Plain : Prop := P.arith = .exact ∧ P.SameFactors

variable {P}

theorem calcDynamicPriority_eq (hP : P.Plain) (a : ShareAcct) :
    P.calcDynamicPriority a = P.dynamicPriority a := by
  obtain ⟨hx, hP⟩ := hP
  have hjob : (if P.qRunJobFactor ≠ -1 then P.qRunTimeFactor else P.runJobFactor) =
      effectiveFactor P.qRunJobFactor P.runJobFactor := by
    unfold effectiveFactor
    rcases hP with h | h
    · simp [h]
    · rw [h, ite_not]
  have hload : P.loadMetric a = (a.newUsedCpuTime + a.histCpuTime) / 3600 *
        effectiveFactor P.qCpuTimeFactor P.cpuTimeFactor +
      a.runTime / 3600 * effectiveFactor P.qRunTimeFactor P.runTimeFactor +
      (a.numStartJobs + 1) * effectiveFactor P.qRunJobFactor P.runJobFactor := by
    rw [loadMetric, hjob, hx]
    simp only [CInt.Arith.exact, id_eq, ne_eq, ite_not, effectiveFactor]
    push_cast
    rfl
  unfold calcDynamicPriority dynamicPriority
  rw [← hload]
  simp only [hx, CInt.Arith.exact, id_eq]
  by_cases h : P.loadMetric a < 1 / 100
  · rw [if_pos h, max_eq_left h.le]
  · rw [if_neg h, max_eq_right (not_lt.mp h)]

/-- The stored priority is the one the usage of the account gives. -/
def Current (P : FSParams) (a : ShareAcct) : Prop := a.priority = P.dynamicPriority a

theorem current_setPriority (hP : P.Plain) (a : ShareAcct) : P.Current (P.setPriority a) :=
  calcDynamicPriority_eq hP a

theorem current_newAcct (hP : P.Plain) (ptr : Nat) (name : String) (share : Int) :
    P.Current (P.newAcct ptr name share) :=
  current_setPriority hP _

end FSParams

/-- No usage is charged to the account. -/
def ShareAcct.Unused (a : ShareAcct) : Prop :=
  a.numStartJobs = 0 ∧ a.newUsedCpuTime = 0 ∧ a.histCpuTime = 0 ∧ a.runTime = 0

/-! ## Ranked trees -/

namespace FSTree

/-- Below the root every stored priority is current and every sibling list is in order of it. -/
inductive Ranked (P : FSParams) : FSTree → Prop
  | user (a : ShareAcct) : Ranked P (.user a)
  | group (a : ShareAcct) (out : Bool) (tab : List String) : Ranked P (.group a out tab)
  | inner (a : ShareAcct) (kids : List FSTree) :
      Ordered priority kids → (∀ k ∈ kids, P.Current k.acct) → (∀ k ∈ kids, Ranked P k) →
      Ranked P (.inner a kids)

variable {P : FSParams} {t : FSTree}

theorem ranked_setAcct (f : ShareAcct → ShareAcct) (h : Ranked P t) :
    Ranked P (t.setAcct f) := by
  cases h with
  | user a => exact .user _
  | group a out tab => exact .group _ _ _
  | inner a kids ho hc hr => exact .inner _ _ ho hc hr

/-- A sibling list that is ranked: in order, current and ranked below. -/
structure RankedList (P : FSParams) (kids : List FSTree) : Prop where
  ordered : Ordered priority kids
  current : ∀ k ∈ kids, P.Current k.acct
  below : ∀ k ∈ kids, Ranked P k

theorem RankedList.inner {kids : List FSTree} (h : RankedList P kids) (a : ShareAcct) :
    Ranked P (.inner a kids) :=
  .inner a kids h.ordered h.current h.below

theorem Ranked.kids {a : ShareAcct} {kids : List FSTree} (h : Ranked P (.inner a kids)) :
    RankedList P kids := by
  cases h with
  | inner a kids ho hc hr => exact ⟨ho, hc, hr⟩

/-- In a ranked tree every account below the root is current. -/
theorem Ranked.current_of_mem (t : FSTree) (h : Ranked P t) :
    ∀ a ∈ t.accts.tail, P.Current a := by
  induction t using FSTree.induction with
  | user a => simp [accts]
  | group a out tab => simp [accts]
  | inner a kids ih =>
    intro b hb
    rw [accts, tail_cons, mem_acctsList] at hb
    obtain ⟨k, hk, hb⟩ := hb
    have hhead : k.accts = k.acct :: k.accts.tail := by cases k <;> rfl
    rw [hhead] at hb
    rcases mem_cons.mp hb with rfl | hb
    · exact h.kids.current k hk
    · exact ih k hk (h.kids.below k hk) b hb

/-- Changing one account of a ranked list and putting it in its place. -/
theorem RankedList.adjust {left right : List FSTree} {k k' : FSTree}
    (h : RankedList P (left ++ k :: right)) (hc : P.Current k'.acct) (hr : Ranked P k') :
    RankedList P (adjustOrderByPriority left k' right) := by
  refine ⟨ordered_adjust h.ordered k', fun x hx => ?_, fun x hx => ?_⟩
  · rcases mem_of_perm (adjustOrderByPriority_perm ..) hx k with rfl | hx
    · exact hc
    · exact h.current x hx
  · rcases mem_of_perm (adjustOrderByPriority_perm ..) hx k with rfl | hx
    · exact hr
    · exact h.below x hx

/-! ### Along a path -/

variable {target : Nat}

/-- A walk up a path that leaves each account on it with its current priority keeps the tree
ranked. -/
theorem ranked_updPath {f : ShareAcct → ShareAcct} (hf : ∀ a, P.Current (f a))
    (t : FSTree) (h : Ranked P t) {t' : FSTree}
    (hu : t.updPath f adjustOrderByPriority target = some t') :
    Ranked P t' ∧ P.Current t'.acct := by
  revert h
  refine updPath_induction (motive := fun t t' => Ranked P t → Ranked P t' ∧ P.Current t'.acct)
    (fun a _ _ => ⟨.user _, hf a⟩) (fun a out tab _ _ => ⟨.group _ _ _, hf a⟩)
    (fun a kids _ h => ⟨h.kids.inner _, hf a⟩) (fun a l k k' r _ _ _ ih h => ?_) t hu
  obtain ⟨hrk, hck⟩ := ih (h.kids.below k (by simp))
  exact ⟨(h.kids.adjust hck hrk).inner _, hf a⟩

theorem ranked_charge (hP : P.Plain) (h : Ranked P t) (target : Nat)
    (u : ShareAcctUpd) :
    Ranked P ((t.updShareAcctStats P.arith target u).updSAcctPriorityByPath P target) := by
  rw [charge_eq_updPath]
  exact updPath_getD_of h fun _ hu =>
    (ranked_updPath (fun a => FSParams.current_setPriority hP _) t h hu).1

/-! ### Decay -/

theorem priority_clearSkip (t : FSTree) :
    (t.setAcct fun a => { a with skipable := false }).priority = t.priority := by
  rw [priority, acct_setAcct]
  rfl

/-- Each account comes out of the decay of a sibling list once. -/
theorem decaySiblings_perm (times : Nat) (kids : List FSTree) :
    (decaySiblings P times kids).Perm
      (kids.map fun k => decayKid P times (k.setAcct fun a => { a with skipable := false })) := by
  have hdone : ∀ t, (decayKid P times t).acct.skipable = true := by
    intro t
    rw [decayKid, acct_setAcct]
    rfl
  have hsteps : steps (·.acct.skipable)
      (kids.map (setAcct fun a => { a with skipable := false })) ≤ 2 * kids.length := by
    rw [steps, map_map]
    refine (sum_le_card_nsmul _ 2 (forall_mem_map.mpr fun t _ => ?_)).trans
      (by simp [mul_comm])
    dsimp only [Function.comp_apply]
    split_ifs <;> omega
  refine (walk_perm hdone (2 * kids.length) [] _ hsteps).trans (.of_eq ?_)
  rw [nil_append, map_map]
  exact map_congr_left fun k _ => by simp

theorem ordered_decaySiblings (times : Nat) {kids : List FSTree} (h : Ordered priority kids) :
    Ordered priority (decaySiblings P times kids) := by
  refine Ordered.walk _ _ _ ?_
  rw [nil_append, Ordered, pairwise_map]
  refine List.Pairwise.imp (fun {a b} hab => ?_) h
  rw [priority_clearSkip, priority_clearSkip]
  exact hab

/-- The decay of a ranked sibling list leaves it ranked: each account comes out of the walk once,
with its current priority. -/
theorem RankedList.decaySiblings (hP : P.Plain) (times : Nat) {kids : List FSTree}
    (h : RankedList P kids) : RankedList P (decaySiblings P times kids) := by
  have hmem : ∀ x ∈ FSTree.decaySiblings P times kids, ∃ k ∈ kids,
      decayKid P times (k.setAcct fun a => { a with skipable := false }) = x :=
    fun x hx => mem_map.mp ((decaySiblings_perm times kids).mem_iff.mp hx)
  refine ⟨ordered_decaySiblings times h.ordered, fun x hx => ?_, fun x hx => ?_⟩
  · obtain ⟨k, -, rfl⟩ := hmem x hx
    rw [decayKid, acct_setAcct]
    exact FSParams.current_setPriority hP _
  · obtain ⟨k, hk, rfl⟩ := hmem x hx
    exact ranked_setAcct _ (ranked_setAcct _ (h.below k hk))

theorem acct_traverseUpd4Decay (times : Nat) (t : FSTree) :
    (traverseUpd4Decay P times t).acct = t.acct := by
  cases t <;> rfl

theorem ranked_traverseUpd4Decay (hP : P.Plain) (times : Nat) (t : FSTree)
    (h : Ranked P t) : Ranked P (traverseUpd4Decay P times t) := by
  induction t using FSTree.induction with
  | user a => exact h
  | group a out tab => exact h
  | inner a kids ih =>
    rw [traverseUpd4Decay, traverseKids_eq_map]
    refine (RankedList.decaySiblings hP times ⟨?_, forall_mem_map.mpr fun k hk => ?_,
      forall_mem_map.mpr fun k hk => ih k hk (h.kids.below k hk)⟩).inner a
    · rw [Ordered, pairwise_map]
      refine h.kids.ordered.imp fun {x y} hxy => ?_
      rw [priority, priority, acct_traverseUpd4Decay, acct_traverseUpd4Decay]
      exact hxy
    · rw [acct_traverseUpd4Decay]
      exact h.kids.current k hk

theorem ranked_decayTree (hP : P.Plain) (times : Nat) (t : FSTree) (h : Ranked P t) :
    Ranked P (decayTree P times t) := by
  unfold decayTree
  split_ifs
  · exact ranked_setAcct _ (ranked_traverseUpd4Decay hP times t h)
  · exact h

/-! ### New users -/

/-- A new account with the share of an account without usage has the same priority. -/
theorem priority_newAcct (hP : P.Plain) {d : ShareAcct} (hc : P.Current d) (hu : d.Unused)
    (ptr : Nat) (name : String) : (P.newAcct ptr name d.share).priority = d.priority := by
  obtain ⟨h1, h2, h3, h4⟩ := hu
  rw [hc, FSParams.newAcct, FSParams.setPriority, FSParams.calcDynamicPriority_eq hP]
  simp [FSParams.dynamicPriority, h1, h2, h3, h4]

/-- The account `target` of the tree, if it is there, has no usage. -/
def UnusedAt (target : Nat) (t : FSTree) : Prop := ∀ a ∈ t.accts, a.ptr = target → a.Unused

theorem UnusedAt.kid {a : ShareAcct} {kids : List FSTree}
    (h : UnusedAt target (.inner a kids)) {k : FSTree} (hk : k ∈ kids) : UnusedAt target k := by
  intro b hb
  refine h b ?_
  rw [accts, mem_cons, mem_acctsList]
  exact .inr ⟨k, hk, hb⟩

theorem acct_mem_accts (t : FSTree) : t.acct ∈ t.accts := by
  cases t <;> simp [acct, accts]

theorem acct_insertAfter (target : Nat) (new : ShareAcct → FSTree) (t : FSTree) :
    (insertAfter target new t).acct = t.acct := by
  cases t <;> rfl

/-- What `insertAfterKids` does to a list: the new account after the first child `target`, or
nothing to the list itself. -/
theorem insertAfterKids_eq (target : Nat) (new : ShareAcct → FSTree) (ks : List FSTree) :
    insertAfterKids target new ks = ks.map (insertAfter target new) ∨
      ∃ l k r, ks = l ++ k :: r ∧ k.acct.ptr = target ∧
        insertAfterKids target new ks =
          l.map (insertAfter target new) ++ k :: new k.acct :: r := by
  induction ks with
  | nil => exact .inl rfl
  | cons k ks ih =>
    rw [insertAfterKids]
    split_ifs with hk
    · exact .inr ⟨[], k, ks, rfl, hk, rfl⟩
    · rcases ih with h | ⟨l, x, r, rfl, hx, h⟩
      · exact .inl (by rw [h, map_cons])
      · exact .inr ⟨k :: l, x, r, rfl, hx, by rw [h, map_cons, cons_append]⟩

theorem ordered_map_of_acct {f : FSTree → FSTree} (hf : ∀ t, (f t).acct = t.acct)
    {l r : List FSTree} (h : Ordered priority (l ++ r)) : Ordered priority (l.map f ++ r) := by
  obtain ⟨h1, h2, h3⟩ := pairwise_append.mp h
  have hp : ∀ t, (f t).priority = t.priority := fun t => by rw [priority, hf, priority]
  refine pairwise_append.mpr ⟨pairwise_map.mpr (h1.imp fun {a b} hab => ?_), h2, ?_⟩
  · rw [hp, hp]
    exact hab
  · intro a ha b hb
    obtain ⟨x, hx, rfl⟩ := mem_map.mp ha
    rw [hp]
    exact h3 x hx b hb

variable {new : ShareAcct → FSTree}

/-- The children of an account, new ones included. -/
theorem mem_insertAfterKids {ks : List FSTree}
    {x : FSTree} (hx : x ∈ insertAfterKids target new ks) :
    (∃ k ∈ ks, x = insertAfter target new k) ∨ x ∈ ks ∨
      ∃ k ∈ ks, k.acct.ptr = target ∧ x = new k.acct := by
  rcases insertAfterKids_eq target new ks with heq | ⟨l, k, r, rfl, hk, heq⟩
  · rw [heq] at hx
    obtain ⟨k, hk, rfl⟩ := mem_map.mp hx
    exact .inl ⟨k, hk, rfl⟩
  · rw [heq] at hx
    simp only [mem_append, mem_map, mem_cons] at hx
    rcases hx with ⟨y, hy, rfl⟩ | rfl | rfl | hx
    · exact .inl ⟨y, by simp [hy], rfl⟩
    · exact .inr (.inl (by simp))
    · exact .inr (.inr ⟨k, by simp, hk, rfl⟩)
    · exact .inr (.inl (by simp [hx]))

/-- A sibling list stays in order if the new account has the priority of the one it follows. -/
theorem ordered_insertAfterKids {ks : List FSTree} (h : Ordered priority ks)
    (hsame : ∀ k ∈ ks, k.acct.ptr = target → (new k.acct).priority = k.priority) :
    Ordered priority (insertAfterKids target new ks) := by
  rcases insertAfterKids_eq target new ks with heq | ⟨l, k, r, rfl, hk, heq⟩
  · rw [heq]
    have hmap := ordered_map_of_acct (acct_insertAfter target new) (r := []) (by simpa using h)
    simpa using hmap
  · rw [heq]
    have hsame := hsame k (by simp) hk
    have hord : Ordered priority (l.map (insertAfter target new) ++ k :: r) :=
      ordered_map_of_acct (acct_insertAfter target new) h
    obtain ⟨-, hkr, hlk⟩ := pairwise_append.mp hord
    have hsplit : l.map (insertAfter target new) ++ k :: new k.acct :: r =
        (l.map (insertAfter target new) ++ [k]) ++ new k.acct :: r := by simp
    rw [hsplit]
    refine Runs.pairwise_insert (by rw [append_assoc]; exact hord) ?_ ?_ <;> rw [hsame]
    · exact forall_mem_append.mpr ⟨fun x hx => hlk x hx k (by simp), by simp⟩
    · exact (pairwise_cons.mp hkr).1

theorem ranked_insertAfter (hcur : ∀ a, P.Current (new a).acct) (hnew : ∀ a, Ranked P (new a))
    (hprio : ∀ a, P.Current a → a.Unused → (new a).priority = a.priority) (t : FSTree)
    (h : Ranked P t) (hu : UnusedAt target t) : Ranked P (insertAfter target new t) := by
  induction t using FSTree.induction with
  | user a => exact h
  | group a out tab => exact h
  | inner a kids ih =>
    refine RankedList.inner ⟨?_, fun x hx => ?_, fun x hx => ?_⟩ a
    · refine ordered_insertAfterKids h.kids.ordered fun k hk htarget => ?_
      exact hprio k.acct (h.kids.current k hk) (hu.kid hk k.acct (acct_mem_accts k) htarget)
    · rcases mem_insertAfterKids hx with ⟨k, hk, rfl⟩ | hx | ⟨k, -, -, rfl⟩
      · rw [acct_insertAfter]
        exact h.kids.current k hk
      · exact h.kids.current x hx
      · exact hcur _
    · rcases mem_insertAfterKids hx with ⟨k, hk, rfl⟩ | hx | ⟨k, -, -, rfl⟩
      · exact ih k hk (h.kids.below k hk) (hu.kid hk)
      · exact h.kids.below x hx
      · exact hnew _

theorem mem_accts_insertAfter (t : FSTree)
    {b : ShareAcct} (hb : b ∈ (insertAfter target new t).accts) :
    b ∈ t.accts ∨ ∃ d, b ∈ (new d).accts := by
  induction t using FSTree.induction with
  | user a => exact .inl hb
  | group a out tab => exact .inl hb
  | inner a kids ih =>
    simp only [insertAfter, accts, mem_cons, mem_acctsList] at hb ⊢
    rcases hb with rfl | ⟨x, hx, hb⟩
    · exact .inl (.inl rfl)
    · rcases mem_insertAfterKids hx with ⟨k, hk, rfl⟩ | hx | ⟨k, -, -, rfl⟩
      · rcases ih k hk hb with hb | hb
        · exact .inl (.inr ⟨k, hk, hb⟩)
        · exact .inr hb
      · exact .inl (.inr ⟨x, hx, hb⟩)
      · exact .inr ⟨_, hb⟩

/-- No account has a list of children that is empty. -/
inductive NoEmpty : FSTree → Prop
  | user (a : ShareAcct) : NoEmpty (.user a)
  | group (a : ShareAcct) (out : Bool) (tab : List String) : NoEmpty (.group a out tab)
  | inner (a : ShareAcct) (kids : List FSTree) :
      kids ≠ [] → (∀ k ∈ kids, NoEmpty k) → NoEmpty (.inner a kids)

/-! ### Building the tree -/

theorem mem_inShareAcctList {list : List FSTree} {x : FSTree} :
    x ∈ inShareAcctList list t ↔ x = t ∨ x ∈ list := mem_orderedInsert _

theorem RankedList.insert {list : List FSTree} (h : RankedList P list)
    (hc : P.Current t.acct) (hr : Ranked P t) : RankedList P (inShareAcctList list t) := by
  have : Std.Total fun a b : FSTree => a.priority ≤ b.priority := ⟨fun a b => le_total _ _⟩
  have : IsTrans FSTree fun a b => a.priority ≤ b.priority := ⟨fun _ _ _ => le_trans⟩
  refine ⟨h.ordered.orderedInsert t list, fun x hx => ?_, fun x hx => ?_⟩
  · rcases mem_inShareAcctList.mp hx with rfl | hx
    · exact hc
    · exact h.current x hx
  · rcases mem_inShareAcctList.mp hx with rfl | hx
    · exact hr
    · exact h.below x hx

theorem ranked_build (hP : P.Plain) : BuildRule P
    (fun _ _ t => P.Current t.acct ∧ Ranked P t) fun _ _ => RankedList P where
  user next name share _ _ := ⟨FSParams.current_newAcct hP next name share, .user _⟩
  group next name share out tab := ⟨FSParams.current_newAcct hP next name share, .group _ out tab⟩
  inner next _ name share _ h := ⟨FSParams.current_newAcct hP next name share, h.inner _⟩
  nil _ := ⟨.nil, by simp, by simp⟩
  insert _ _ _ _ _ h ht := h.insert ht.1 ht.2
  adjust _ _ _ k _ _ h := by
    refine h.adjust ?_ (ranked_setAcct _ (h.below k (by simp)))
    rw [acct_setAcct]
    exact FSParams.current_setPriority hP _

theorem ranked_addFSPolicy (hP : P.Plain) (queue : String) (entries : List FSEntry)
    (individuals : List (String × Int)) :
    Ranked P (addFSPolicy P queue entries individuals).root := by
  obtain ⟨kids, hroot, h⟩ := (ranked_build hP).addFSPolicy queue entries individuals
  rw [hroot]
  exact h.inner _

end FSTree

/-! ## Runs -/

/-- What changes a fairshare policy between configurations. -/
inductive FSOp where
  | attachJob2FSTree (given found : Option Nat) (numHostPtr : Int)
  | detachedJobFromFSTree (sa : Nat) (numHostPtr : Int)
  | charge (sa : Nat) (u : ShareAcctUpd)
  | updAllSAcctForDecay (eventTime : Int)
  | updAliveUserInFSTree (userName : String)

namespace FSPolicy

def step (P : FSParams) (p : FSPolicy) : FSOp → FSPolicy
  | .attachJob2FSTree given found n => p.attachJob2FSTree P given found n
  | .detachedJobFromFSTree sa n => p.detachedJobFromFSTree P sa n
  | .charge sa u => p.charge P sa u
  | .updAllSAcctForDecay eventTime => p.updAllSAcctForDecay P eventTime
  | .updAliveUserInFSTree userName => p.updAliveUserInFSTree P userName

/-- What an operation needs: an attached job comes with its account, unless there is none for it;
no account with an empty list of children is decayed; and the `default` accounts next to which a
new user is put have no usage of their own. -/
def Ok (p : FSPolicy) : FSOp → Prop
  | .attachJob2FSTree given found _ => given = none → found = none
  | .updAllSAcctForDecay _ => p.root.NoEmpty
  | .updAliveUserInFSTree _ => ∀ ref ∈ p.root.aliveRefs, p.root.UnusedAt ref
  | _ => True

variable {P : FSParams}

theorem unusedAt_appendAliveUser (userName : String) (p : FSPolicy) (r ref : Nat)
    (h : p.root.UnusedAt ref) : (p.appendAliveUser P userName r).root.UnusedAt ref := by
  intro b hb hptr
  rcases FSTree.mem_accts_insertAfter p.root hb with hb | ⟨d, hb⟩
  · exact h b hb hptr
  · -- The new account itself has no usage either.
    rw [FSTree.accts, mem_singleton] at hb
    rw [hb]
    exact ⟨rfl, rfl, rfl, rfl⟩

theorem ranked_appendAliveUser (hP : P.Plain) (userName : String) (p : FSPolicy) (ref : Nat)
    (h : p.root.Ranked P) (hu : p.root.UnusedAt ref) :
    (p.appendAliveUser P userName ref).root.Ranked P :=
  FSTree.ranked_insertAfter (fun _ => FSParams.current_newAcct hP _ _ _) (fun _ => .user _)
    (fun _ hc hun => FSTree.priority_newAcct hP hc hun _ _) p.root h hu

theorem ranked_foldl_appendAliveUser (hP : P.Plain) (userName : String) (refs : List Nat)
    (p : FSPolicy) (h : p.root.Ranked P) (hu : ∀ ref ∈ refs, p.root.UnusedAt ref) :
    (refs.foldl (appendAliveUser P userName) p).root.Ranked P := by
  induction refs generalizing p with
  | nil => exact h
  | cons r refs ih =>
    refine ih _ (ranked_appendAliveUser hP userName p r h (hu r (by simp))) fun ref href => ?_
    exact unusedAt_appendAliveUser userName p r ref (hu ref (by simp [href]))

/-- **What an operation does to a policy**: nothing to its accounts, a charge without or with the
priorities on its path, a decay that is due, or new leaves. -/
theorem step_cases (P : FSParams) (p : FSPolicy) (op : FSOp) :
    ((p.step P op).root = p.root ∧ (p.step P op).next = p.next) ∨
    (∃ sa n, op = .attachJob2FSTree none (some sa) n ∧
      p.step P op = { p with root := p.root.updShareAcctStats P.arith sa (.numStartJobs n) }) ∨
    (∃ sa u, p.step P op = p.charge P sa u) ∨
    (∃ eventTime times, op = .updAllSAcctForDecay eventTime ∧ p.lastDecayTime ≠ 0 ∧
      ¬ eventTime - p.lastDecayTime < 900 ∧ (p.step P op).root = p.root.decayTree P times ∧
      (p.step P op).next = p.next) ∨
    ∃ userName, op = .updAliveUserInFSTree userName ∧
      p.step P op = p.root.aliveRefs.foldl (appendAliveUser P userName) p := by
  cases op with
  | attachJob2FSTree given found n =>
    cases given with
    | some sa => exact .inr (.inr (.inl ⟨sa, .numStartJobs n, rfl⟩))
    | none =>
      cases found with
      | none => exact .inl ⟨rfl, rfl⟩
      | some sa => exact .inr (.inl ⟨sa, n, rfl, rfl⟩)
  | detachedJobFromFSTree sa n => exact .inr (.inr (.inl ⟨sa, .numStartJobs (-n), rfl⟩))
  | charge sa u => exact .inr (.inr (.inl ⟨sa, u, rfl⟩))
  | updAllSAcctForDecay eventTime =>
    simp only [step, updAllSAcctForDecay]
    by_cases hzero : p.lastDecayTime = 0
    · rw [if_pos hzero, if_pos (by omega)]
      exact .inl ⟨rfl, rfl⟩
    · rw [if_neg hzero]
      by_cases hlt : eventTime - p.lastDecayTime < 900
      · rw [if_pos hlt]
        exact .inl ⟨rfl, rfl⟩
      · rw [if_neg hlt]
        exact .inr (.inr (.inr (.inl ⟨eventTime, _, rfl, hzero, hlt, rfl, rfl⟩)))
  | updAliveUserInFSTree userName =>
    simp only [step, updAliveUserInFSTree]
    split_ifs
    · exact .inl ⟨rfl, rfl⟩
    · exact .inr (.inr (.inr (.inr ⟨userName, rfl, rfl⟩)))

theorem ranked_step (hP : P.Plain) (p : FSPolicy) (op : FSOp) (hok : p.Ok op)
    (h : p.root.Ranked P) : (p.step P op).root.Ranked P := by
  rcases step_cases P p op with ⟨heq, -⟩ | ⟨sa, n, rfl, -⟩ | ⟨sa, u, heq⟩ |
    ⟨e, times, -, -, -, heq, -⟩ | ⟨userName, rfl, heq⟩
  · rw [heq]
    exact h
  · cases hok rfl
  · rw [heq]
    exact FSTree.ranked_charge hP h sa u
  · rw [heq]
    exact FSTree.ranked_decayTree hP times _ h
  · rw [heq]
    exact ranked_foldl_appendAliveUser hP userName _ p h hok

/-- **Dynamic priorities are current and ordered**, in exact arithmetic, in every state reached from
`addFSPolicy`, if the queue's run job factor is not configured or is its run time factor, and every
operation of the run has what it needs. -/
theorem ranked_run (hx : P.arith = .exact) (hP : P.SameFactors) (queue : String)
    (entries : List FSEntry) (individuals : List (String × Int)) (ops : List FSOp)
    (hok : Run.Along (step P) Ok (addFSPolicy P queue entries individuals) ops) (n : Nat) :
    (Run.run (step P) (addFSPolicy P queue entries individuals) (ops.take n)).root.Ranked P := by
  have hstep : ∀ p op, Ok p op → p.root.Ranked P → (step P p op).root.Ranked P :=
    fun p op hok h => ranked_step ⟨hx, hP⟩ p op hok h
  exact Run.inv_take hstep (FSTree.ranked_addFSPolicy ⟨hx, hP⟩ queue entries individuals) hok n

instance (a : ShareAcct) : Decidable a.Unused := by unfold ShareAcct.Unused; infer_instance

/-- A run with an attached job, a new user and charged run time. -/
theorem ranked_newUser :
    (Run.run (step (defaultFactors (-1) (-1)))
      (addFSPolicy (defaultFactors (-1) (-1)) "normal" [.user "ann" 3, .default "default" 1] [])
      ([.attachJob2FSTree (some 1) none 2, .updAliveUserInFSTree "bob",
        .charge 1 (.runTime 3600)].take 3)).root.Ranked (defaultFactors (-1) (-1)) := by
  refine ranked_run rfl (.inl rfl) "normal" _ [] _ ?_ 3
  refine ⟨by simp [Ok], ?_, trivial, trivial⟩
  simp only [Ok, FSTree.UnusedAt]
  decide +kernel

/-- An attached job without a given account leaves the priority of its account as it was, and a
queue with a run job factor of 3 and a run time factor of 1/2 computes with 1/2 for both. -/
theorem unstored_not_ranked :
    ¬ (step (defaultFactors (-1) (-1))
        (addFSPolicy (defaultFactors (-1) (-1)) "normal" [.user "ann" 1, .user "bob" 1] [])
        (.attachJob2FSTree none (some 1) 1)).root.Ranked (defaultFactors (-1) (-1)) ∧
      ¬ (addFSPolicy (defaultFactors (1 / 2) 3) "normal" [.user "ann" 1] []).root.Ranked
        (defaultFactors (1 / 2) 3) := by
  constructor
  · intro h
    have hall := FSTree.Ranked.current_of_mem _ h
    revert hall
    unfold FSParams.Current
    decide +kernel
  · intro h
    have hall := FSTree.Ranked.current_of_mem _ h
    revert hall
    unfold FSParams.Current
    decide +kernel

end FSPolicy

end Volclava
