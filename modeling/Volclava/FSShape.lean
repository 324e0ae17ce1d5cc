import Volclava.FSPriority

/-!
# The shape of a fairshare tree

What holds of a fairshare tree whatever the factors of its queue: every sibling list is in order of
the stored priorities, only leaves are `default` accounts, and no two accounts have the same
number. It is kept by everything that changes the tree; a new user is put next to `default` and
needs to have the stored priority of it.

- `FSTree.Arranged`: sibling lists in order.
- `FSPolicy.Numbered`: accounts with different numbers.
- `FSPolicy.WellShaped.step`: both over the operations on a policy.
-/

namespace Volclava

open Reposition List

/-- The function changes only the usage and the priority of an account. -/
structure KeepsId (f : ShareAcct → ShareAcct) : Prop where
  ptr : ∀ a, (f a).ptr = a.ptr
  name : ∀ a, (f a).name = a.name
  isDefault : ∀ a, (f a).isDefault = a.isDefault
  skipable : ∀ a, (f a).skipable = a.skipable
  numSkippedChild : ∀ a, (f a).numSkippedChild = a.numSkippedChild

theorem keepsId_setPriority (P : FSParams) : KeepsId P.setPriority :=
  ⟨fun _ => rfl, fun _ => rfl, fun _ => rfl, fun _ => rfl, fun _ => rfl⟩

theorem keepsId_apply (r : CInt.Arith) (u : ShareAcctUpd) : KeepsId (u.apply r) := by
  cases u <;> exact ⟨fun _ => rfl, fun _ => rfl, fun _ => rfl, fun _ => rfl, fun _ => rfl⟩

theorem ShareAcctUpd.apply_priority (r : CInt.Arith) (u : ShareAcctUpd) (a : ShareAcct) :
    (u.apply r a).priority = a.priority := by
  cases u <;> rfl

variable {t : FSTree} {a : ShareAcct} {P : FSParams}

namespace FSTree

/-! ## Sibling lists in order -/

/-- Every sibling list is in order of the stored priorities, and only leaves are `default`. -/
inductive Arranged : FSTree → Prop
  | user (a : ShareAcct) : Arranged (.user a)
  | group (a : ShareAcct) (out : Bool) (tab : List String) : Arranged (.group a out tab)
  | inner (a : ShareAcct) (kids : List FSTree) :
      a.isDefault = false → Ordered priority kids → (∀ k ∈ kids, Arranged k) →
      Arranged (.inner a kids)

variable {kids : List FSTree} {f : ShareAcct → ShareAcct}
  {place : List FSTree → FSTree → List FSTree → List FSTree} {target : Nat}

theorem Arranged.ordered (h : Arranged (.inner a kids)) : Ordered priority kids := by
  cases h with
  | inner a kids hd ho hk => exact ho

theorem Arranged.isDefault (h : Arranged (.inner a kids)) : a.isDefault = false := by
  cases h with
  | inner a kids hd ho hk => exact hd

theorem Arranged.kid (h : Arranged (.inner a kids)) {k : FSTree} (hk : k ∈ kids) : Arranged k := by
  cases h with
  | inner a kids hd ho hkids => exact hkids k hk

theorem Arranged.setAcct (h : Arranged t) (hf : ∀ a, (f a).isDefault = a.isDefault) :
    Arranged (t.setAcct f) := by
  cases h with
  | user a => exact .user _
  | group a out tab => exact .group _ _ _
  | inner a kids hd ho hk => exact .inner _ _ ((hf a).trans hd) ho hk

/-- A walk up a path keeps the order if it puts each account in its place. -/
theorem Arranged.updPath (hf : ∀ a, (f a).isDefault = a.isDefault)
    (hperm : ∀ l k r, (place l k r).Perm (l ++ k :: r))
    (hplace : ∀ l k k' r, k'.acct = f k.acct → Ordered priority (l ++ k :: r) →
      Ordered priority (place l k' r)) {t t' : FSTree} (h : Arranged t)
    (hu : t.updPath f place target = some t') :
    Arranged t' := by
  revert h
  refine updPath_induction (motive := fun t t' => Arranged t → Arranged t') (fun a _ _ => .user _)
    (fun a out tab _ _ => .group _ _ _) (fun a kids _ h => ?_)
    (fun a l k k' r _ _ hk ih h => ?_) t hu
  · exact .inner _ _ ((hf a).trans h.isDefault) h.ordered fun k hk => h.kid hk
  · refine .inner _ _ ((hf a).trans h.isDefault) (hplace l k k' r (acct_updPath hk) h.ordered)
      fun x hx => ?_
    rcases mem_of_perm (hperm l k' r) hx k with rfl | hx
    · exact ih (h.kid (by simp))
    · exact h.kid hx

theorem keep_perm (l : List FSTree) (k : FSTree) (r : List FSTree) :
    (keep l k r).Perm (l ++ k :: r) := .refl _

theorem ordered_keep {l r : List FSTree} {k k' : FSTree} (hk : k'.priority = k.priority)
    (h : Ordered priority (l ++ k :: r)) : Ordered priority (keep l k' r) := by
  obtain ⟨hl, hkr, hlkr⟩ := pairwise_append.mp h
  obtain ⟨hkr, hr⟩ := pairwise_cons.mp hkr
  refine Runs.pairwise_insert ?_ (fun x hx => ?_) (fun x hx => ?_)
  · exact pairwise_append.mpr ⟨hl, hr, fun x hx y hy => hlkr x hx y (by simp [hy])⟩
  · rw [hk]
    exact hlkr x hx k (by simp)
  · rw [hk]
    exact hkr x hx

theorem Arranged.updShareAcctStats (h : Arranged t) (r : CInt.Arith) (target : Nat)
    (u : ShareAcctUpd) : Arranged (t.updShareAcctStats r target u) := by
  refine updPath_getD_of h fun t' hu => ?_
  refine h.updPath (keepsId_apply r u).isDefault keep_perm (fun l k k' r hk ho => ?_) hu
  refine ordered_keep ?_ ho
  rw [priority, hk, u.apply_priority]
  rfl

theorem Arranged.updSAcctPriorityByPath (h : Arranged t) (P : FSParams)
    (target : Nat) : Arranged (t.updSAcctPriorityByPath P target) :=
  updPath_getD_of h fun _ hu => h.updPath (keepsId_setPriority P).isDefault
    adjustOrderByPriority_perm (fun _ _ k' _ _ ho => ordered_adjust ho k') hu

theorem Arranged.decayTree (h : Arranged t) (P : FSParams) (times : Nat) :
    Arranged (t.decayTree P times) := by
  have htraverse : ∀ t : FSTree, Arranged t → Arranged (t.traverseUpd4Decay P times) := by
    intro t
    induction t using FSTree.induction with
    | user a => exact id
    | group a out tab => exact id
    | inner a kids ih =>
      intro h
      rw [traverseUpd4Decay, traverseKids_eq_map]
      refine .inner _ _ h.isDefault (ordered_decaySiblings times ?_) fun x hx => ?_
      · have hmap := ordered_map_of_acct (f := FSTree.traverseUpd4Decay P times)
          (acct_traverseUpd4Decay times) (r := []) (by simpa using h.ordered)
        simpa using hmap
      · have hx := (decaySiblings_perm times _).mem_iff.mp hx
        obtain ⟨y, hy, rfl⟩ := mem_map.mp hx
        obtain ⟨k, hk, rfl⟩ := mem_map.mp hy
        refine Arranged.setAcct (Arranged.setAcct (ih k hk (h.kid hk)) ?_) ?_
        · exact fun _ => rfl
        · exact fun _ => rfl
  unfold FSTree.decayTree
  split_ifs
  · exact (htraverse t h).setAcct fun _ => rfl
  · exact h

/-- The account `target`, if it is in the tree, has the stored priority of an account without
usage. -/
def RestedAt (P : FSParams) (target : Nat) (t : FSTree) : Prop :=
  ∀ a ∈ t.accts, a.ptr = target → a.priority = (P.newAcct a.ptr a.name a.share).priority

instance (P : FSParams) (target : Nat) (t : FSTree) : Decidable (t.RestedAt P target) := by
  unfold RestedAt; infer_instance

theorem RestedAt.kid (h : RestedAt P target (.inner a kids))
    {k : FSTree} (hk : k ∈ kids) :
    RestedAt P target k := by
  intro b hb
  refine h b ?_
  rw [accts, mem_cons, mem_acctsList]
  exact .inr ⟨k, hk, hb⟩

theorem Arranged.insertAfter (h : Arranged t)
    (hrest : RestedAt P target t) (ptr : Nat) (name : String) :
    Arranged (t.insertAfter target fun d => .user (P.newAcct ptr name d.share)) := by
  induction t using FSTree.induction with
  | user a => exact h
  | group a out tab => exact h
  | inner a kids ih =>
    refine .inner _ _ h.isDefault (ordered_insertAfterKids h.ordered fun k hk ht => ?_) ?_
    · exact (hrest.kid hk k.acct (acct_mem_accts k) ht).symm
    · intro x hx
      rcases mem_insertAfterKids hx with ⟨k, hk, rfl⟩ | hx | ⟨k, -, -, rfl⟩
      · exact ih k hk (h.kid hk) (hrest.kid hk)
      · exact h.kid hx
      · exact .user _

/-! ## Numbers of accounts -/

/-- The numbers of the accounts of a tree. -/
def ptrs (t : FSTree) : List Nat := t.accts.map (·.ptr)

theorem acctsList_eq_flatMap (ks : List FSTree) : acctsList ks = ks.flatMap accts := by
  induction ks with
  | nil => rfl
  | cons k ks ih => rw [acctsList, ih, flatMap_cons]

theorem ptrs_inner (a : ShareAcct) (kids : List FSTree) :
    (inner a kids).ptrs = a.ptr :: kids.flatMap ptrs := by
  rw [ptrs, accts, map_cons, acctsList_eq_flatMap, map_flatMap]
  rfl

theorem ptrs_setAcct (hf : ∀ a, (f a).ptr = a.ptr) (t : FSTree) :
    (t.setAcct f).ptrs = t.ptrs := by
  cases t with
  | user a => simp [ptrs, FSTree.setAcct, accts, hf]
  | group a out tab => simp [ptrs, FSTree.setAcct, accts, hf]
  | inner a kids => simp [ptrs, FSTree.setAcct, accts, hf]

theorem ptrs_updPath (hf : ∀ a, (f a).ptr = a.ptr)
    (hperm : ∀ l k r, (place l k r).Perm (l ++ k :: r)) {t t' : FSTree}
    (hu : t.updPath f place target = some t') : t'.ptrs.Perm t.ptrs := by
  refine updPath_induction (motive := fun t t' => t'.ptrs.Perm t.ptrs) (fun a _ => ?_)
    (fun a out tab _ => ?_) (fun a kids _ => ?_) (fun a l k k' r _ _ _ ih => ?_) t hu
  · simp [ptrs, accts, hf]
  · simp [ptrs, accts, hf]
  · simp [ptrs_inner, hf]
  · rw [ptrs_inner, ptrs_inner, hf]
    refine (((hperm l k' r).flatMap_right _).trans ?_).cons a.ptr
    rw [flatMap_append, flatMap_append, flatMap_cons, flatMap_cons]
    exact (ih.append_right _).append_left _

theorem ptrs_updShareAcctStats (r : CInt.Arith) (target : Nat) (u : ShareAcctUpd) (t : FSTree) :
    (t.updShareAcctStats r target u).ptrs.Perm t.ptrs :=
  updPath_getD_of (motive := fun t' => t'.ptrs.Perm t.ptrs) (.refl _) fun _ hu =>
    ptrs_updPath (keepsId_apply r u).ptr keep_perm hu

theorem ptrs_updSAcctPriorityByPath (P : FSParams) (target : Nat) (t : FSTree) :
    (t.updSAcctPriorityByPath P target).ptrs.Perm t.ptrs :=
  updPath_getD_of (motive := fun t' => t'.ptrs.Perm t.ptrs) (.refl _) fun _ hu =>
    ptrs_updPath (keepsId_setPriority P).ptr adjustOrderByPriority_perm hu

theorem accts_setAcct (f : ShareAcct → ShareAcct) (t : FSTree) :
    (t.setAcct f).accts = f t.acct :: t.accts.tail := by
  cases t <;> rfl

/-- A decay does to what `view` sees of every account what it does to one account. -/
theorem map_accts_decayTree (times : Nat) (view : ShareAcct → α) {g : α → α}
    (hP : P.histHours) (hview : ∀ a x, view { a with priority := x, skipable := true } = view a)
    (hg : ∀ a, view (P.decayAcct times a) = g (view a)) (t : FSTree) :
    ((t.decayTree P times).accts.map view).Perm ((t.accts.map view).map g) := by
  have hcons : ∀ t : FSTree, t.accts = t.acct :: t.accts.tail := fun t => by cases t <;> rfl
  have htail : ∀ t : FSTree, ((t.traverseUpd4Decay P times).accts.tail.map view).Perm
      ((t.accts.tail.map view).map g) := by
    intro t
    induction t using FSTree.induction with
    | user a => exact .refl _
    | group a out tab => exact .refl _
    | inner a kids ih =>
      rw [traverseUpd4Decay, traverseKids_eq_map, accts, accts, tail_cons, tail_cons,
        acctsList_eq_flatMap, acctsList_eq_flatMap, map_flatMap, map_flatMap,
        map_flatMap]
      refine ((decaySiblings_perm times _).flatMap_right _).trans ?_
      rw [map_map, flatMap_map]
      refine List.Perm.flatMap_left kids fun k hk => ?_
      rw [hcons k, map_cons, map_cons, ← hg, ← hview, Function.comp_apply, decayKid,
        accts_setAcct, accts_setAcct, tail_cons, acct_setAcct, acct_traverseUpd4Decay]
      exact (ih k hk).cons _
  rw [decayTree, if_pos hP, accts_setAcct, acct_traverseUpd4Decay, hcons t]
  simp only [map_cons, hg]
  exact (htail t).cons _

theorem ptrs_decayTree (P : FSParams) (times : Nat) (t : FSTree) :
    (t.decayTree P times).ptrs.Perm t.ptrs := by
  by_cases hP : P.histHours
  · have hperm := map_accts_decayTree times (·.ptr) (g := id) hP (fun _ _ => rfl) (fun _ => rfl) t
    rwa [map_id] at hperm
  · rw [decayTree, if_neg hP]

/-- How often a number occurs after a new account has been put in. -/
theorem count_ptrs_insertAfter {target next : Nat} {new : ShareAcct → FSTree}
    (hnew : ∀ a, (new a).ptrs = [next]) (x : Nat) (t : FSTree) :
    (t.insertAfter target new).ptrs.count x ≤
      t.ptrs.count x + if x = next then t.ptrs.count target else 0 := by
  induction t using FSTree.induction with
  | user a => exact Nat.le_add_right _ _
  | group a out tab => exact Nat.le_add_right _ _
  | inner a kids ih =>
    have hkids : ((insertAfterKids target new kids).flatMap ptrs).count x ≤
        (kids.flatMap ptrs).count x +
          if x = next then (kids.flatMap ptrs).count target else 0 := by
      clear * - ih hnew
      induction kids with
      | nil => exact Nat.le_add_right _ _
      | cons k ks ihks =>
        have hk := ih k (by simp)
        have hks := ihks fun y hy => ih y (by simp [hy])
        rw [insertAfterKids]
        by_cases htarget : k.acct.ptr = target
        · -- The account itself is counted at `target`.
          have hself : 1 ≤ k.ptrs.count target := by
            refine one_le_count_iff.mpr (mem_map.mpr ⟨k.acct, ?_, htarget⟩)
            exact acct_mem_accts k
          have hone : [next].count x = if x = next then 1 else 0 := by
            rw [count_singleton]
            simp only [beq_iff_eq, eq_comm (a := x)]
          rw [if_pos htarget]
          simp only [flatMap_cons, count_append, hnew, hone]
          split_ifs <;> omega
        · rw [if_neg htarget]
          simp only [flatMap_cons, count_append]
          split_ifs at hk hks ⊢ <;> omega
    rw [insertAfter, ptrs_inner, ptrs_inner]
    simp only [count_cons]
    split_ifs at hkids ⊢ <;> omega

end FSTree

/-! ## Policies -/

namespace FSPolicy

/-- The accounts of the tree have different numbers, all of them below the next one. -/
structure Numbered (p : FSPolicy) : Prop where
  nodup : p.root.ptrs.Nodup
  lt : ∀ x ∈ p.root.ptrs, x < p.next

variable {p : FSPolicy}

theorem Numbered.of_perm {q : FSPolicy} (h : p.Numbered) (hroot : q.root.ptrs.Perm p.root.ptrs)
    (hnext : q.next = p.next) : q.Numbered := by
  refine ⟨hroot.nodup_iff.mpr h.nodup, fun x hx => ?_⟩
  rw [hnext]
  exact h.lt x (hroot.mem_iff.mp hx)

theorem Numbered.appendAliveUser (h : p.Numbered) (P : FSParams)
    (userName : String) (ref : Nat) : (p.appendAliveUser P userName ref).Numbered := by
  have hnew : ∀ d : ShareAcct, (FSTree.user (P.newAcct p.next userName d.share)).ptrs = [p.next] :=
    fun _ => rfl
  refine ⟨nodup_iff_count_le_one.mpr fun x => ?_, fun x hx => ?_⟩
  · refine (FSTree.count_ptrs_insertAfter hnew x p.root).trans ?_
    have hx := nodup_iff_count_le_one.mp h.nodup x
    have href := nodup_iff_count_le_one.mp h.nodup ref
    split_ifs with hxn
    · -- The next number is not in the tree yet.
      have hfresh : p.root.ptrs.count x = 0 :=
        count_eq_zero.mpr fun hmem => absurd (h.lt x hmem) (by omega)
      omega
    · omega
  · obtain ⟨b, hb, rfl⟩ := mem_map.mp hx
    rcases FSTree.mem_accts_insertAfter p.root hb with hb | ⟨d, hb⟩
    · exact Nat.lt_succ_of_lt (h.lt b.ptr (mem_map.mpr ⟨b, hb, rfl⟩))
    · rw [FSTree.accts, mem_singleton] at hb
      rw [hb]
      exact Nat.lt_succ_self _

/-- A policy whose tree is arranged and numbered. -/
structure WellShaped (p : FSPolicy) : Prop where
  arranged : p.root.Arranged
  numbered : p.Numbered

theorem restedAt_appendAliveUser (userName : String) (p : FSPolicy) (r ref : Nat)
    (h : p.root.RestedAt P ref) : (p.appendAliveUser P userName r).root.RestedAt P ref := by
  intro b hb hptr
  rcases FSTree.mem_accts_insertAfter p.root hb with hb | ⟨d, hb⟩
  · exact h b hb hptr
  · rw [FSTree.accts, mem_singleton] at hb
    rw [hb]
    rfl

theorem WellShaped.appendAliveUsers (userName : String) (refs : List Nat)
    (p : FSPolicy) (h : p.WellShaped) (hrest : ∀ ref ∈ refs, p.root.RestedAt P ref) :
    (refs.foldl (appendAliveUser P userName) p).WellShaped := by
  induction refs generalizing p with
  | nil => exact h
  | cons r refs ih =>
    have hfirst : (p.appendAliveUser P userName r).WellShaped :=
      ⟨h.arranged.insertAfter (hrest r (by simp)) _ _, h.numbered.appendAliveUser P userName r⟩
    refine ih _ hfirst fun ref href => ?_
    exact restedAt_appendAliveUser userName p r ref (hrest ref (by simp [href]))

/-- What a new user needs: each `default` account next to which it is put has the stored priority
of an account without usage. -/
def Rested (P : FSParams) (p : FSPolicy) : FSOp → Prop
  | .updAliveUserInFSTree _ => ∀ ref ∈ p.root.aliveRefs, p.root.RestedAt P ref
  | _ => True

theorem WellShaped.charge (h : p.WellShaped) (P : FSParams) (sa : Nat)
    (u : ShareAcctUpd) : (p.charge P sa u).WellShaped := by
  refine ⟨(h.arranged.updShareAcctStats P.arith sa u).updSAcctPriorityByPath P sa, ?_⟩
  refine h.numbered.of_perm ?_ rfl
  exact (FSTree.ptrs_updSAcctPriorityByPath P sa _).trans
    (FSTree.ptrs_updShareAcctStats P.arith sa u _)

theorem WellShaped.step (h : p.WellShaped) (op : FSOp)
    (hrest : p.Rested P op) : (p.step P op).WellShaped := by
  rcases step_cases P p op with ⟨heq, hnext⟩ | ⟨sa, n, -, heq⟩ | ⟨sa, u, heq⟩ |
    ⟨e, times, -, -, -, heq, hnext⟩ | ⟨userName, rfl, heq⟩
  · exact ⟨heq ▸ h.arranged, h.numbered.of_perm (heq ▸ .refl _) hnext⟩
  · rw [heq]
    exact ⟨h.arranged.updShareAcctStats P.arith sa _,
      h.numbered.of_perm (FSTree.ptrs_updShareAcctStats P.arith sa _ _) rfl⟩
  · rw [heq]
    exact h.charge P sa u
  · exact ⟨heq ▸ h.arranged.decayTree P times,
      h.numbered.of_perm (heq ▸ FSTree.ptrs_decayTree P times _) hnext⟩
  · rw [heq]
    exact WellShaped.appendAliveUsers userName _ p h hrest

end FSPolicy

/-! ## The tree of a configuration -/

namespace FSTree

/-- The accounts of a list of trees have different numbers, from `lo` on and below `hi`. -/
structure NumberedIn (lo hi : Nat) (ks : List FSTree) : Prop where
  nodup : (ks.flatMap ptrs).Nodup
  le : ∀ x ∈ ks.flatMap ptrs, lo ≤ x
  lt : ∀ x ∈ ks.flatMap ptrs, x < hi

theorem numberedIn_nil (lo hi : Nat) : NumberedIn lo hi [] := ⟨by simp, by simp, by simp⟩

theorem NumberedIn.of_perm {lo hi : Nat} {ks ks' : List FSTree} (h : NumberedIn lo hi ks)
    (hp : (ks'.flatMap ptrs).Perm (ks.flatMap ptrs)) : NumberedIn lo hi ks' :=
  ⟨hp.nodup_iff.mpr h.nodup, fun x hx => h.le x (hp.mem_iff.mp hx),
    fun x hx => h.lt x (hp.mem_iff.mp hx)⟩

/-- A new account with numbers from the next one on. -/
theorem NumberedIn.insert {lo mid hi : Nat} {ks : List FSTree}
    (h : NumberedIn lo mid ks) (hlo : lo ≤ mid) (hhi : mid ≤ hi) (ht : NumberedIn mid hi [t]) :
    NumberedIn lo hi (inShareAcctList ks t) := by
  have hcons : NumberedIn lo hi (t :: ks) := by
    have hnodup := ht.nodup
    have hle := ht.le
    have hlt := ht.lt
    simp only [flatMap_cons, flatMap_nil, append_nil] at hnodup hle hlt
    refine ⟨?_, fun x hx => ?_, fun x hx => ?_⟩
    · rw [flatMap_cons, nodup_append]
      refine ⟨hnodup, h.nodup, fun x hx y hy hxy => ?_⟩
      have := hle x hx
      have := h.lt y hy
      omega
    · rw [flatMap_cons, mem_append] at hx
      rcases hx with hx | hx
      · exact hlo.trans (hle x hx)
      · exact h.le x hx
    · rw [flatMap_cons, mem_append] at hx
      rcases hx with hx | hx
      · exact hlt x hx
      · exact (h.lt x hx).trans_le hhi
  exact hcons.of_perm ((perm_orderedInsert _ t ks).flatMap_right _)

/-- A parent with the number before those of its children. -/
theorem NumberedIn.inner {next hi : Nat} {kids : List FSTree}
    (h : NumberedIn (next + 1) hi kids) (ha : a.ptr = next) (hhi : next < hi) :
    NumberedIn next hi [.inner a kids] := by
  have hptrs : [FSTree.inner a kids].flatMap ptrs = next :: kids.flatMap ptrs := by
    rw [flatMap_cons, ptrs_inner, ha]
    simp
  refine ⟨?_, fun x hx => ?_, fun x hx => ?_⟩
  · rw [hptrs, nodup_cons]
    exact ⟨fun hmem => absurd (h.le next hmem) (by omega), h.nodup⟩
  · rw [hptrs, mem_cons] at hx
    rcases hx with rfl | hx
    · exact le_refl _
    · exact (Nat.le_succ next).trans (h.le x hx)
  · rw [hptrs, mem_cons] at hx
    rcases hx with rfl | hx
    · exact hhi
    · exact h.lt x hx

theorem numberedIn_leaf {next : Nat} (ht : t.ptrs = [next]) : NumberedIn next (next + 1) [t] := by
  refine ⟨?_, ?_, ?_⟩ <;> simp [ht]

/-- A sibling list of arranged accounts in order. -/
structure ArrangedList (ks : List FSTree) : Prop where
  ordered : Ordered priority ks
  below : ∀ k ∈ ks, Arranged k

theorem ArrangedList.insert {ks : List FSTree} (h : ArrangedList ks)
    (ht : Arranged t) : ArrangedList (inShareAcctList ks t) := by
  have : Std.Total fun a b : FSTree => a.priority ≤ b.priority := ⟨fun a b => le_total _ _⟩
  have : IsTrans FSTree fun a b => a.priority ≤ b.priority := ⟨fun _ _ _ => le_trans⟩
  refine ⟨h.ordered.orderedInsert t ks, fun x hx => ?_⟩
  rcases mem_inShareAcctList.mp hx with rfl | hx
  · exact ht
  · exact h.below x hx

variable {P : FSParams}

theorem ArrangedList.adjust {l r : List FSTree} {k k' : FSTree}
    (h : ArrangedList (l ++ k :: r)) (hk' : Arranged k') :
    ArrangedList (adjustOrderByPriority l k' r) := by
  refine ⟨ordered_adjust h.ordered k', fun x hx => ?_⟩
  rcases mem_of_perm (adjustOrderByPriority_perm ..) hx k with rfl | hx
  · exact hk'
  · exact h.below x hx

theorem shaped_build : BuildRule P
    (fun lo hi t => lo < hi ∧ Arranged t ∧ NumberedIn lo hi [t])
    fun lo hi ks => lo ≤ hi ∧ ArrangedList ks ∧ NumberedIn lo hi ks where
  user _ _ _ _ _ := ⟨Nat.lt_succ_self _, .user _, numberedIn_leaf rfl⟩
  group _ _ _ _ _ := ⟨Nat.lt_succ_self _, .group _ _ _, numberedIn_leaf rfl⟩
  inner _ _ _ _ _ h := ⟨h.1, .inner _ _ rfl h.2.1.ordered h.2.1.below, h.2.2.inner rfl h.1⟩
  nil lo := ⟨le_refl lo, ⟨.nil, by simp⟩, numberedIn_nil _ _⟩
  insert _ _ _ _ _ h ht :=
    ⟨h.1.trans ht.1.le, h.2.1.insert ht.2.1, h.2.2.insert h.1 ht.1.le ht.2.2⟩
  adjust _ _ l k r _ h := by
    refine ⟨h.1, h.2.1.adjust ((h.2.1.below k (by simp)).setAcct fun _ => rfl), h.2.2.of_perm ?_⟩
    refine ((adjustOrderByPriority_perm l _ r).flatMap_right _).trans (.of_eq ?_)
    rw [flatMap_append, flatMap_append, flatMap_cons, flatMap_cons,
      ptrs_setAcct]
    exact fun _ => rfl

/-- The tree of a configuration is arranged and numbered. -/
theorem shaped_addFSPolicy (queue : String) (entries : List FSEntry)
    (individuals : List (String × Int)) :
    (addFSPolicy P queue entries individuals).WellShaped := by
  obtain ⟨kids, hkids, hle, ha, hn⟩ :=
    (shaped_build (P := P)).addFSPolicy queue entries individuals
  have hroot := hn.inner (a := { ptr := 0, name := queue, share := 0 }) rfl hle
  have hnodup := hroot.nodup
  have hlt := hroot.lt
  simp only [flatMap_cons, flatMap_nil, append_nil] at hnodup hlt
  rw [← hkids] at hnodup hlt
  refine ⟨?_, hnodup, hlt⟩
  rw [hkids]
  exact .inner _ _ rfl ha.ordered ha.below

end FSTree

end Volclava
