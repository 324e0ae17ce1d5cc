import Volclava.FSFlags

/-!
# Skip flags over scheduling sessions

A scheduling session elects the jobs of a queue one by one. It may be broken off when the dispatch
takes too long and is then gone on with later, with the flags as they were left; in between usage
is charged, the history may be decayed and new users may come into the tree. The flags stay right
as long as none of three things happens: the last job of one user is taken through a group leaf
while other users of the group have jobs, the history is decayed in the middle of a session, or a
user with jobs is put below a flagged account.

- `FSSession.Ok`: none of the three, and what the operations need besides.
- `FSSession.flags_hide_no_jobs`: no flag hides a job, and every call elects the job it should.
-/

namespace Volclava

open Reposition List

/-! ## Taking a job out -/

namespace FSJobSet

/-- What `rmJob` does to one entry. -/
def rmEnt (ref : JobFSRef) (u : String) (e : String × List JobFSRef) : String × List JobFSRef :=
  if e.1 = u then (e.1, e.2.erase ref) else e

theorem rmEnt_fst (ref : JobFSRef) (u : String) (e : String × List JobFSRef) :
    (rmEnt ref u e).1 = e.1 := by
  unfold rmEnt
  split_ifs
  · rfl
  · rfl

theorem rmEnt_ne_nil {ref : JobFSRef} {u : String} {e : String × List JobFSRef}
    (h : (rmEnt ref u e).2 ≠ []) : e.2 ≠ [] := by
  intro hnil
  refine h ?_
  unfold rmEnt
  split_ifs
  · simp [hnil]
  · exact hnil

theorem getEnt_rmJob (js : FSJobSet) (ref : JobFSRef) (u v : String) :
    (js.rmJob ref u).getEnt v = (js.getEnt v).map (rmEnt ref u) := by
  have hkey : (fun e : String × List JobFSRef => decide (e.1 = v)) ∘ rmEnt ref u =
      fun e => decide (e.1 = v) := by
    funext e
    rw [Function.comp_apply, rmEnt_fst]
  unfold getEnt
  show (js.usersTab.map (rmEnt ref u)).find? _ = _
  rw [List.find?_map, hkey]

theorem leafEnts_rmJob (js : FSJobSet) (ref : JobFSRef) (u : String) (t : FSTree) :
    (js.rmJob ref u).leafEnts t = (js.leafEnts t).map (rmEnt ref u) := by
  have hname : ∀ v,
      ((js.rmJob ref u).getEnt v).toList = (js.getEnt v).toList.map (rmEnt ref u) := by
    intro v
    rw [getEnt_rmJob]
    cases js.getEnt v <;> rfl
  cases t with
  | user a => exact hname a.name
  | inner a kids => exact hname a.name
  | group a out tab =>
    have htab : (js.rmJob ref u).usersTab = js.usersTab.map (rmEnt ref u) := rfl
    simp only [leafEnts, groupEnts, htab]
    split_ifs
    · rw [filter_map]
      refine congrArg (List.map _) (filter_congr fun e _ => ?_)
      rw [Function.comp_apply, rmEnt_fst]
    · rfl
    · rw [map_filterMap]
      exact filterMap_congr fun v _ => getEnt_rmJob js ref u v

end FSJobSet

variable {t : FSTree} {js : FSJobSet}

namespace FSTree

theorem HasJob.of_rmJob {ref : JobFSRef} {u : String}
    (h : t.HasJob (js.rmJob ref u)) : t.HasJob js := by
  obtain ⟨l, hl, hd, e, he, hne⟩ := h
  rw [FSJobSet.leafEnts_rmJob] at he
  obtain ⟨old, hold, rfl⟩ := mem_map.mp he
  exact ⟨l, hl, hd, old, hold, FSJobSet.rmEnt_ne_nil hne⟩

theorem not_hasJob_of_refs_nil (h : js.refs = []) (t : FSTree) :
    ¬ t.HasJob js := by
  rintro ⟨l, -, -, e, he, hne⟩
  exact hne (FSJobSet.refs_eq_nil.mp h e (FSJobSet.mem_usersTab_of_leafEnts he))

/-- If the oldest job of the entries is the only one of its user, no other user has jobs. -/
def AloneLast (es : List (String × List JobFSRef)) : Prop :=
  ∀ e ∈ es, e.2.length = 1 → (∀ r ∈ e.2, Oldest es r) → ∀ e' ∈ es, e'.2 ≠ [] → e'.1 = e.1

instance (es : List (String × List JobFSRef)) : Decidable (AloneLast es) := by
  unfold AloneLast; infer_instance

/-- No group leaf that is not flagged would give the last job of one of its users while another
one has jobs. -/
def Alone (js : FSJobSet) (t : FSTree) : Prop :=
  ∀ g ∈ t.groupLeaves, g.1.skipable = false → AloneLast (js.groupEnts g.2.1 g.2.2)

instance (js : FSJobSet) (t : FSTree) : Decidable (t.Alone js) := by
  unfold Alone; infer_instance

theorem mem_groupLeaves {a : ShareAcct} {out : Bool} {tab : List String} (t : FSTree)
    (h : group a out tab ∈ t.leafNodes) : (a, out, tab) ∈ t.groupLeaves := by
  induction t using FSTree.induction with
  | user b => simp [leafNodes] at h
  | group b out' tab' =>
    obtain ⟨rfl, rfl, rfl⟩ := by simpa [leafNodes] using h
    simp [groupLeaves]
  | inner b kids ih =>
    by_cases hkids : kids = []
    · simp [leafNodes, hkids] at h
    · obtain ⟨k, hk, h⟩ := (mem_leafNodes_inner hkids).mp h
      rw [groupLeaves, mem_groupLeavesList]
      exact ⟨k, hk, ih k hk h⟩

/-- When the elected job was the last one of its user, its leaf has no more jobs. -/
theorem Best.emptied {t l : FSTree} {p : Pick} (h : Best js t p l)
    (hwf : js.WF) (halone : t.Alone js)
    (hempty : ∃ e ∈ (js.rmJob p.ref p.user).usersTab, e.1 = p.user ∧ e.2 = []) :
    ¬ l.HasJob (js.rmJob p.ref p.user) := by
  obtain ⟨rest, hmem⟩ := h.mem
  have hkey : ∀ e ∈ js.usersTab, e.1 = p.user → e = (p.user, p.ref :: rest) := fun e he heq =>
    inj_on_of_nodup_map hwf.nodup he (FSJobSet.mem_usersTab_of_leafEnts hmem) heq
  -- The list that has become empty is the one the job was taken from.
  have hrest : rest = [] := by
    obtain ⟨e, he, hu, hnil⟩ := hempty
    obtain ⟨old, hold, rfl⟩ := mem_map.mp he
    have hu : old.1 = p.user := (FSJobSet.rmEnt_fst p.ref p.user old).symm.trans hu
    rw [hkey old hold hu] at hnil
    simpa using hnil
  subst hrest
  have hothers : ∀ e ∈ js.leafEnts l, e.2 ≠ [] → e.1 = p.user := by
    intro e he hne
    cases l with
    | user a =>
      have heq := (Option.mem_toList.mp he).symm.trans (Option.mem_toList.mp hmem)
      rw [Option.some.inj heq]
    | inner a kids =>
      have heq := (Option.mem_toList.mp he).symm.trans (Option.mem_toList.mp hmem)
      rw [Option.some.inj heq]
    | group a out tab =>
      have hgroup := halone (a, out, tab) (mem_groupLeaves t h.reached.mem_leafNodes) h.flag
      refine hgroup (p.user, [p.ref]) hmem rfl (fun r hr => ?_) e he hne
      rw [mem_singleton.mp hr]
      exact h.oldest _ h.reached
  rw [hasJob_leaf h.reached.isLeaf]
  rintro ⟨-, e, he, hne⟩
  rw [FSJobSet.leafEnts_rmJob] at he
  obtain ⟨old, hold, rfl⟩ := mem_map.mp he
  have hu := hothers old hold (FSJobSet.rmEnt_ne_nil hne)
  rw [hkey old (FSJobSet.mem_usersTab_of_leafEnts hold) hu] at hne
  simp [FSJobSet.rmEnt] at hne

/-! ## Leaves by their number -/

theorem mem_ptrs_of_leafNodes (t : FSTree) {l : FSTree} (h : l ∈ t.leafNodes) :
    l.acct.ptr ∈ t.ptrs := by
  induction t using leafInduction with
  | leaf t ht =>
    rw [leafNodes_of_isLeaf ht, mem_singleton] at h
    exact mem_map.mpr ⟨t.acct, acct_mem_accts t, h ▸ rfl⟩
  | inner a kids hkids ih =>
    obtain ⟨k, hk, h⟩ := (mem_leafNodes_inner hkids).mp h
    rw [ptrs_inner]
    exact mem_cons_of_mem _ (mem_flatMap.mpr ⟨k, hk, ih k hk h⟩)

theorem leaf_unique (t : FSTree) (hnd : t.ptrs.Nodup) {l l' : FSTree} (hl : l ∈ t.leafNodes)
    (hl' : l' ∈ t.leafNodes) (hp : l.acct.ptr = l'.acct.ptr) : l = l' := by
  induction t using leafInduction with
  | leaf t ht =>
    rw [leafNodes_of_isLeaf ht, mem_singleton] at hl hl'
    rw [hl, hl']
  | inner a kids hkids ih =>
    obtain ⟨k, hk, hl⟩ := (mem_leafNodes_inner hkids).mp hl
    obtain ⟨k', hk', hl'⟩ := (mem_leafNodes_inner hkids).mp hl'
    rw [ptrs_inner, nodup_cons, nodup_flatMap] at hnd
    obtain ⟨-, hkid, hdisj⟩ := hnd
    have hsame : k = k' := by
      by_contra hne
      have : Std.Symm (Function.onFun List.Disjoint ptrs) := ⟨fun _ _ h => h.symm⟩
      refine hdisj.forall hk hk' hne (mem_ptrs_of_leafNodes k hl) ?_
      rw [hp]
      exact mem_ptrs_of_leafNodes k' hl'
    subst hsame
    exact ih k hk (hkid k hk) hl hl'

theorem leafNodes_schFsInit (t : FSTree) : t.schFsInit.leafNodes = t.leafNodes.map schFsInit := by
  induction t using FSTree.induction with
  | user a => rfl
  | group a out tab => rfl
  | inner a kids ih =>
    have hlist : ∀ ks : List FSTree,
        (∀ k ∈ ks, k.schFsInit.leafNodes = k.leafNodes.map schFsInit) →
        leafNodesList (ks.map schFsInit) = (leafNodesList ks).map schFsInit := by
      intro ks hks
      induction ks with
      | nil => rfl
      | cons k ks ihks =>
        rw [map_cons, leafNodesList, leafNodesList, map_append, hks k (by simp),
          ihks fun x hx => hks x (by simp [hx])]
    rw [schFsInit_inner, leafNodes, leafNodes, isEmpty_map]
    split_ifs
    · rw [map_singleton, schFsInit_inner]
    · exact hlist kids ih

/-- Leaves with one number in two trees that differ in their flags only have the same jobs. -/
theorem hasJob_of_same_leaf {t t' l l' : FSTree}
    (hsame : t'.schFsInit = t.schFsInit) (hnd : t.ptrs.Nodup) (hl : l ∈ t.leafNodes)
    (hl' : l' ∈ t'.leafNodes) (hp : l'.acct.ptr = l.acct.ptr) : l'.HasJob js ↔ l.HasJob js := by
  refine hasJob_congr (leaf_unique t.schFsInit (by rwa [ptrs_schFsInit]) ?_ ?_ ?_)
  · rw [← hsame, leafNodes_schFsInit]
    exact mem_map.mpr ⟨l', hl', rfl⟩
  · rw [leafNodes_schFsInit]
    exact mem_map.mpr ⟨l, hl, rfl⟩
  · rw [acct_schFsInit, acct_schFsInit]
    exact hp

/-! ## Charged usage -/

variable {js : FSJobSet} {f : ShareAcct → ShareAcct}

theorem hasJob_setAcct (hf : KeepsId f)
    (hl : t.isLeaf = true) : (t.setAcct f).HasJob js ↔ t.HasJob js := by
  have hleaf : (t.setAcct f).isLeaf = true := by cases t <;> exact hl
  have hents : js.leafEnts (t.setAcct f) = js.leafEnts t := by
    cases t with
    | user a => exact congrArg (fun u => (js.getEnt u).toList) (hf.name a)
    | group a out tab => rfl
    | inner a kids => exact congrArg (fun u => (js.getEnt u).toList) (hf.name a)
  rw [hasJob_leaf hleaf, hasJob_leaf hl, hents, acct_setAcct, hf.isDefault]

variable {target : Nat}

/-- A walk up a path that puts accounts in other places changes nothing in the jobs below. -/
theorem hasJob_updPath (hf : KeepsId f)
    {place : List FSTree → FSTree → List FSTree → List FSTree}
    (hperm : ∀ l k r, (place l k r).Perm (l ++ k :: r)) {t t' : FSTree}
    (hu : t.updPath f place target = some t') : t'.HasJob js ↔ t.HasJob js := by
  refine updPath_induction (motive := fun t t' => t'.HasJob js ↔ t.HasJob js) (fun a _ => ?_)
    (fun a out tab _ => ?_) (fun a kids _ => ?_) (fun a l k k' r _ _ _ ih => ?_) t hu
  · exact hasJob_setAcct hf (t := user a) rfl
  · exact hasJob_setAcct hf (t := group a out tab) rfl
  · by_cases hkids : kids = []
    · exact hasJob_setAcct hf (t := inner a kids) (by simp [isLeaf, hkids])
    · rw [hasJob_inner hkids, hasJob_inner hkids]
  · have hne : place l k' r ≠ [] := fun hnil => by simpa [hnil] using hperm l k' r
    rw [hasJob_inner hne, hasJob_inner (by simp)]
    simp only [(hperm l k' r).mem_iff, mem_append, mem_cons, or_and_right, exists_or,
      exists_eq_left, ih]

theorem Counted.updPath (hf : KeepsId f)
    {place : List FSTree → FSTree → List FSTree → List FSTree}
    (hperm : ∀ l k r, (place l k r).Perm (l ++ k :: r)) {t t' : FSTree}
    (h : Counted js t) (hu : t.updPath f place target = some t') : Counted js t' := by
  induction h generalizing t' with
  | hidden t hs hjob =>
    refine .hidden t' ?_ (by rwa [hasJob_updPath hf hperm hu])
    rw [acct_updPath hu, hf.skipable, hs]
  | leaf t hl hs hn =>
    have hleaf : t'.isLeaf = true := by
      refine updPath_induction (motive := fun t t' => t.isLeaf = true → t'.isLeaf = true)
        ?_ ?_ ?_ ?_ t hu hl
      · exact fun _ _ _ => rfl
      · exact fun _ _ _ _ _ => rfl
      · exact fun _ _ _ h => h
      · intro a l k k' r _ _ _ _ h
        simp [FSTree.isLeaf] at h
    refine .leaf t' hleaf ?_ ?_
    · rw [acct_updPath hu, hf.skipable, hs]
    · rw [acct_updPath hu, hf.numSkippedChild, hn]
  | inner a kids hs hn hlt hk ih =>
    simp only [FSTree.updPath] at hu
    split_ifs at hu
    · obtain rfl := Option.some.inj hu
      exact .inner _ _ ((hf.skipable a).trans hs) ((hf.numSkippedChild a).trans hn) hlt hk
    · obtain ⟨kids', hkids, rfl⟩ := Option.map_eq_some_iff.mp hu
      obtain ⟨l, k, k', r, rfl, -, hupd, rfl⟩ := updPathKids_eq_some.mp hkids
      rw [nil_append]
      have hcount : skipped (place l k' r) = skipped (l ++ k :: r) := by
        unfold skipped
        rw [(hperm l k' r).countP_eq, countP_append, countP_append, countP_cons,
          countP_cons, acct_updPath hupd, hf.skipable]
      have hlen : (place l k' r).length = (l ++ k :: r).length := by
        rw [(hperm l k' r).length_eq]
        simp
      refine .inner _ _ ((hf.skipable a).trans hs) ?_ (by omega) fun x hx => ?_
      · rw [hf.numSkippedChild, hn, hcount]
      · rcases mem_of_perm (hperm l k' r) hx k with rfl | hx
        · exact ih k (by simp) hupd
        · exact hk x hx

theorem Counted.updShareAcctStats (h : Counted js t) (r : CInt.Arith) (target : Nat)
    (u : ShareAcctUpd) : Counted js (t.updShareAcctStats r target u) :=
  updPath_getD_of h fun _ hu => h.updPath (keepsId_apply r u) keep_perm hu

theorem Counted.updSAcctPriorityByPath (h : Counted js t) (P : FSParams)
    (target : Nat) : Counted js (t.updSAcctPriorityByPath P target) :=
  updPath_getD_of h fun _ hu => h.updPath (keepsId_setPriority P) adjustOrderByPriority_perm hu

/-! ## New users -/

mutual

/-- The numbers of the accounts below a flagged one. -/
def hidden : FSTree → List Nat
  | user _ => []
  | group _ _ _ => []
  | inner a kids => if a.skipable then kids.flatMap ptrs else hiddenList kids

def hiddenList : List FSTree → List Nat
  | [] => []
  | k :: ks => hidden k ++ hiddenList ks

end

theorem hiddenList_eq_flatMap (ks : List FSTree) : hiddenList ks = ks.flatMap hidden := by
  induction ks with
  | nil => rfl
  | cons k ks ih => rw [hiddenList, ih, flatMap_cons]

theorem insertAfter_eq_self {new : ShareAcct → FSTree} (t : FSTree)
    (h : target ∉ t.ptrs.tail) : t.insertAfter target new = t := by
  have hkids : ∀ ks : List FSTree, target ∉ ks.flatMap ptrs →
      (∀ k ∈ ks, target ∉ k.ptrs.tail → k.insertAfter target new = k) →
      insertAfterKids target new ks = ks := by
    intro ks hks ih
    induction ks with
    | nil => rfl
    | cons k ks ihks =>
      rw [flatMap_cons, mem_append, not_or] at hks
      have hk : k.acct.ptr ≠ target := fun heq =>
        hks.1 (mem_map.mpr ⟨k.acct, acct_mem_accts k, heq⟩)
      rw [insertAfterKids, if_neg hk, ih k (by simp) fun hmem => hks.1 (mem_of_mem_tail hmem),
        ihks hks.2 fun x hx => ih x (by simp [hx])]
  induction t using FSTree.induction with
  | user a => rfl
  | group a out tab => rfl
  | inner a kids ih =>
    rw [ptrs_inner, tail_cons] at h
    rw [insertAfter, hkids kids h fun k hk => ih k hk]

variable {target : Nat} {new : ShareAcct → FSTree}

/-- A new leaf without jobs gives no jobs. -/
theorem HasJob.of_insertAfter (hnew : ∀ a, ¬ (new a).HasJob js) (t : FSTree)
    (h : (t.insertAfter target new).HasJob js) : t.HasJob js := by
  induction t using FSTree.induction with
  | user a => exact h
  | group a out tab => exact h
  | inner a kids ih =>
    by_cases hkids : kids = []
    · subst hkids
      exact h
    · have hne : insertAfterKids target new kids ≠ [] := by
        rcases insertAfterKids_eq target new kids with heq | ⟨l, k, r, -, -, heq⟩
        · simpa [heq] using hkids
        · simp [heq]
      rw [insertAfter, hasJob_inner hne] at h
      rw [hasJob_inner hkids]
      obtain ⟨x, hx, hjob⟩ := h
      rcases mem_insertAfterKids hx with ⟨k, hk, rfl⟩ | hx | ⟨k, -, -, rfl⟩
      · exact ⟨k, hk, ih k hk hjob⟩
      · exact ⟨x, hx, hjob⟩
      · exact absurd hjob (hnew _)

/-- A new leaf keeps the tree counted if it has no jobs or does not come below a flagged
account. -/
theorem Counted.insertAfter (h : Counted js t)
    (hleaf : ∀ a, (new a).isLeaf = true ∧ (new a).acct.skipable = false ∧
      (new a).acct.numSkippedChild = 0)
    (hnew : (∀ a, ¬ (new a).HasJob js) ∨ target ∉ t.hidden) :
    Counted js (t.insertAfter target new) := by
  induction h with
  | hidden t hs hjob =>
    rcases hnew with hnew | hhid
    · refine .hidden _ (by rw [acct_insertAfter, hs]) fun hj => hjob ?_
      exact HasJob.of_insertAfter hnew t hj
    · have htail : target ∉ t.ptrs.tail := by
        cases t with
        | user a => simp [ptrs, accts]
        | group a out tab => simp [ptrs, accts]
        | inner a kids =>
          rw [FSTree.hidden, if_pos (show a.skipable = true from hs)] at hhid
          rwa [ptrs_inner, tail_cons]
      rw [insertAfter_eq_self t htail]
      exact .hidden t hs hjob
  | leaf t hl hs hn =>
    have hsame : t.insertAfter target new = t := by
      cases t with
      | user a => rfl
      | group a out tab => rfl
      | inner a kids =>
        rw [FSTree.isLeaf, List.isEmpty_iff] at hl
        subst hl
        rfl
    rw [hsame]
    exact .leaf t hl hs hn
  | inner a kids hs hn hlt hk ih =>
    have hkid : ∀ k ∈ kids, Counted js (k.insertAfter target new) := by
      intro k hmem
      refine ih k hmem (hnew.imp_right fun hhid hmem' => hhid ?_)
      rw [FSTree.hidden, if_neg (by simp [hs]), hiddenList_eq_flatMap]
      exact mem_flatMap.mpr ⟨k, hmem, hmem'⟩
    have hmap : ∀ ks : List FSTree,
        skipped (ks.map (FSTree.insertAfter target new)) = skipped ks := by
      intro ks
      rw [skipped, countP_map]
      refine countP_congr fun k _ => ?_
      rw [Function.comp_apply, acct_insertAfter]
    have hall : ∀ x ∈ insertAfterKids target new kids, Counted js x := by
      intro x hx
      rcases mem_insertAfterKids hx with ⟨k, hk', rfl⟩ | hx | ⟨k, -, -, rfl⟩
      · exact hkid k hk'
      · exact hk x hx
      · exact .leaf _ (hleaf _).1 (hleaf _).2.1 (hleaf _).2.2
    rw [FSTree.insertAfter]
    rcases insertAfterKids_eq target new kids with heq | ⟨l, k, r, rfl, -, heq⟩
    · rw [heq] at hall ⊢
      refine .inner _ _ hs (by rw [hn, hmap]) ?_ hall
      rwa [hmap, length_map]
    · rw [heq] at hall ⊢
      have hcount : skipped (l.map (FSTree.insertAfter target new) ++ k :: new k.acct :: r) =
          skipped (l ++ k :: r) := by
        have hl := hmap l
        unfold skipped at hl ⊢
        rw [countP_append, countP_append, hl, countP_cons, countP_cons,
          countP_cons, (hleaf k.acct).2.1]
        simp
      refine .inner _ _ hs (by rw [hn, hcount]) ?_ hall
      simp only [length_append, length_cons, length_map] at hlt ⊢
      omega

/-- A new leaf that does not come below a flagged account is not below one. -/
theorem hidden_insertAfter (hleaf : ∀ a, (new a).hidden = []) (t : FSTree)
    (h : target ∉ t.hidden) : (t.insertAfter target new).hidden = t.hidden := by
  induction t using FSTree.induction with
  | user a => rfl
  | group a out tab => rfl
  | inner a kids ih =>
    by_cases hs : a.skipable = true
    · rw [hidden, if_pos hs] at h
      have hself : (inner a kids).insertAfter target new = inner a kids :=
        insertAfter_eq_self _ (by rwa [ptrs_inner, tail_cons])
      rw [hself]
    · rw [hidden, if_neg hs, hiddenList_eq_flatMap] at h ⊢
      have hkid : ∀ k ∈ kids, (k.insertAfter target new).hidden = k.hidden := fun k hk =>
        ih k hk fun hmem => h (mem_flatMap.mpr ⟨k, hk, hmem⟩)
      rw [insertAfter, hidden, if_neg hs, hiddenList_eq_flatMap]
      rcases insertAfterKids_eq target new kids with heq | ⟨l, k, r, rfl, -, heq⟩
      · rw [heq, flatMap_map]
        exact flatMap_congr hkid
      · rw [heq, flatMap_append, flatMap_append, flatMap_map,
          flatMap_congr fun x hx => hkid x (by simp [hx])]
        simp [hleaf]

end FSTree

/-! ## Sessions -/

/-- The scheduler with the whole policy of its queue. -/
structure FSSession extends FSSched where
  next : Nat
  lastDecayTime : Int

/-- What happens to a queue: a session begins with a new job set, jobs are elected, and the
policy changes. -/
inductive SessionOp where
  | schFsInit (rank : String → Nat) (jobs : List (String × Nat))
  | schFsElectJob
  | upd (op : FSOp)

namespace FSSession

def policy (s : FSSession) : FSPolicy := ⟨s.root, s.next, s.lastDecayTime⟩

def step (P : FSParams) (s : FSSession) : SessionOp → FSSession
  | .schFsInit rank jobs =>
    { s with root := s.root.schFsInit, jobSet := FSJobSet.fill rank jobs, crashed := false }
  | .schFsElectJob => { s with toFSSched := s.toFSSched.schFsElectJob }
  | .upd op =>
    { s with
      root := (s.policy.step P op).root
      next := (s.policy.step P op).next
      lastDecayTime := (s.policy.step P op).lastDecayTime }

/-- A queue that has just been configured. -/
def start (P : FSParams) (queue : String) (entries : List FSEntry)
    (individuals : List (String × Int)) : FSSession where
  root := (addFSPolicy P queue entries individuals).root
  next := (addFSPolicy P queue entries individuals).next
  lastDecayTime := (addFSPolicy P queue entries individuals).lastDecayTime
  jobSet := ⟨[], 0⟩

/-- No decay is due while there are jobs, and a user with jobs does not come below a flagged
account. -/
def KeepsFlags (s : FSSession) : FSOp → Prop
  | .updAllSAcctForDecay eventTime =>
    s.jobSet.refs = [] ∨ s.lastDecayTime = 0 ∨ eventTime - s.lastDecayTime < 900
  | .updAliveUserInFSTree userName =>
    (∀ e ∈ s.jobSet.getEnt userName, e.2 = []) ∨ ∀ ref ∈ s.root.aliveRefs, ref ∉ s.root.hidden
  | _ => True

/-- What an operation needs for the flags to stay right. -/
def Ok (P : FSParams) (s : FSSession) : SessionOp → Prop
  | .schFsInit _ _ => True
  | .schFsElectJob => s.root.Safe s.jobSet ∧ s.root.Alone s.jobSet
  | .upd op => s.policy.Rested P op ∧ s.KeepsFlags op

/-- The job that a call should return with its leaf: the oldest one of the leaves reached by going
down to the highest priority with jobs; without a leaf if no leaf has jobs. -/
def Elects (s : FSSession) (r : JobFSRef × Option Nat) : Prop :=
  match r.2 with
  | none => ¬ s.root.HasJob s.jobSet
  | some sa => ∃ l, FSTree.Descends s.jobSet s.root l ∧ l.acct.ptr = sa ∧
      (∃ u rest, (u, r.1 :: rest) ∈ s.jobSet.leafEnts l) ∧ s.root.OldestBelow s.jobSet r.1

/-- A flag is carried only by accounts from whose leaves no job could be elected. -/
def FlagsSound (s : FSSession) : Prop :=
  ∀ n ∈ s.root.nodes, n.acct.skipable = true → ¬ n.HasJob s.jobSet

instance (s : FSSession) : Decidable s.FlagsSound := by unfold FlagsSound; infer_instance

structure Inv (s : FSSession) : Prop where
  crashed : s.crashed = false
  wf : s.jobSet.WF
  shaped : s.policy.WellShaped
  counted : s.jobSet.refs = [] ∨ s.root.Counted s.jobSet

variable {s : FSSession}

theorem Inv.flagsSound (h : s.Inv) : s.FlagsSound := by
  intro n hn hs
  rcases h.counted with hnil | hc
  · exact FSTree.not_hasJob_of_refs_nil hnil n
  · exact hc.sound hn hs

/-! ### Calls -/

/-- The tree stays well-shaped when only flags change. -/
theorem wellShaped_of_same {p : FSPolicy} (h : p.WellShaped) {root : FSTree}
    (hsame : root.schFsInit = p.root.schFsInit) :
    ({ p with root := root } : FSPolicy).WellShaped := by
  have hptrs : root.ptrs = p.root.ptrs := by
    rw [← FSTree.ptrs_schFsInit, hsame, FSTree.ptrs_schFsInit]
  refine ⟨?_, h.numbered.of_perm (.of_eq hptrs) rfl⟩
  rw [← FSTree.arranged_schFsInit]
  dsimp only
  rw [hsame, FSTree.arranged_schFsInit]
  exact h.arranged

/-- Taking the elected job out and flagging its leaf if that was the last job of its user. -/
theorem take_counted (h : s.Inv) (halone : s.root.Alone s.jobSet) {root l : FSTree}
    {p : FSTree.Pick} (hsame : root.schFsInit = s.root.schFsInit) (hc : root.Counted s.jobSet)
    (hv : FSTree.Visible p.sAcct root) (hbest : FSTree.Best s.jobSet s.root p l) :
    (s.take root p.ref p.user (some p.sAcct)).root.schFsInit = s.root.schFsInit ∧
      (s.take root p.ref p.user (some p.sAcct)).root.Counted (s.jobSet.rmJob p.ref p.user) := by
  have hc' : root.Counted (s.jobSet.rmJob p.ref p.user) := hc.mono fun _ => .of_rmJob
  unfold FSSched.take
  dsimp only
  by_cases hempty : ∃ e ∈ (s.jobSet.rmJob p.ref p.user).usersTab, e.1 = p.user ∧ e.2 = []
  · rw [if_pos hempty]
    have hnd : s.root.ptrs.Nodup := h.shaped.numbered.nodup
    have hptrs : root.ptrs = s.root.ptrs := by
      rw [← FSTree.ptrs_schFsInit, hsame, FSTree.ptrs_schFsInit]
    have hno : ∀ x ∈ root.leafNodes, x.acct.ptr = p.sAcct →
        ¬ x.HasJob (s.jobSet.rmJob p.ref p.user) := by
      intro x hx hp
      rw [FSTree.hasJob_of_same_leaf hsame hnd hbest.reached.mem_leafNodes hx
        (hp.trans hbest.ptr.symm)]
      exact hbest.emptied h.wf halone hempty
    obtain ⟨t', n, hupd, hok⟩ := root.updSAcctSkippedFlag_ok (hptrs ▸ hnd) hc' hv hno
    rw [Option.bind_some, hupd]
    exact ⟨hok.same.trans hsame, hok.counted⟩
  · rw [if_neg hempty]
    exact ⟨hsame, hc'⟩

/-- One call. -/
theorem Inv.elect (h : s.Inv) (hsafe : s.root.Safe s.jobSet) (halone : s.root.Alone s.jobSet)
    (P : FSParams) :
    (s.step P .schFsElectJob).Inv ∧ (s.jobSet.refs ≠ [] →
      ∃ r, (s.step P .schFsElectJob).out = s.out ++ [some r] ∧ s.Elects r) := by
  by_cases hnil : s.jobSet.refs = []
  · rw [step, FSSched.schFsElectJob_empty h.crashed h.wf hnil]
    exact ⟨{ h with }, fun hne => absurd hnil hne⟩
  · have hc := h.counted.resolve_left hnil
    rw [step]
    obtain ⟨root, n, ⟨p, he, heq⟩ | ⟨he, ref, u, rest, hmem, heq⟩⟩ :=
      FSSched.schFsElectJob_cases h.crashed h.wf hnil hsafe
    · have hok := s.root.electAJob_ok h.shaped.arranged hc he
      obtain ⟨hv, l, hbest⟩ := hok.job p rfl
      obtain ⟨rest, hmem⟩ := hbest.mem
      obtain ⟨hsame, hcount⟩ := take_counted h halone hok.same hok.counted hv hbest
      rw [heq]
      refine ⟨⟨rfl, ?_, wellShaped_of_same h.shaped hsame, .inr hcount⟩, fun _ => ?_⟩
      · exact (h.wf.rmJob (FSJobSet.mem_usersTab_of_leafEnts hmem)).1
      · exact ⟨_, rfl, l, hbest.reached, hbest.ptr, ⟨p.user, rest, hmem⟩, hbest.oldest⟩
    · have hok := s.root.electAJob_ok h.shaped.arranged hc he
      have hroot : (s.take root ref u none).root = root := by
        unfold FSSched.take
        dsimp only
        rw [Option.bind_none, Option.map_none, Option.getD_none, ite_self]
      rw [heq]
      refine ⟨⟨rfl, (h.wf.rmJob hmem).1, ?_, .inr ?_⟩, fun _ => ⟨_, rfl, (hok.noJob rfl).2⟩⟩
      · exact wellShaped_of_same h.shaped ((congrArg FSTree.schFsInit hroot).trans hok.same)
      · show FSTree.Counted (s.jobSet.rmJob ref u) (s.take root ref u none).root
        rw [hroot]
        exact hok.counted.mono fun _ => .of_rmJob

/-! ### Changes of the policy -/

theorem not_hasJob_newUser {userName : String}
    (h : ∀ e ∈ js.getEnt userName, e.2 = []) (P : FSParams) (ptr : Nat) (share : Int) :
    ¬ (FSTree.user (P.newAcct ptr userName share)).HasJob js := by
  rw [FSTree.hasJob_leaf rfl]
  rintro ⟨-, e, he, hne⟩
  exact hne (h e (Option.mem_toList.mp he))

variable {P : FSParams}

theorem counted_appendAliveUsers {userName : String}
    (refs : List Nat) (p : FSPolicy) (h : p.root.Counted js)
    (hnew : (∀ e ∈ js.getEnt userName, e.2 = []) ∨ ∀ ref ∈ refs, ref ∉ p.root.hidden) :
    (refs.foldl (FSPolicy.appendAliveUser P userName) p).root.Counted js := by
  induction refs generalizing p with
  | nil => exact h
  | cons r refs ih =>
    refine ih _ ?_ ?_
    · refine FSTree.Counted.insertAfter h (fun a => ⟨rfl, rfl, rfl⟩) ?_
      exact hnew.imp (fun hno a => not_hasJob_newUser hno P _ _) fun hhid => hhid r (by simp)
    · refine hnew.imp_right fun hhid ref href => ?_
      have hsame : (p.appendAliveUser P userName r).root.hidden = p.root.hidden :=
        FSTree.hidden_insertAfter (fun a => rfl) p.root (hhid r (by simp))
      rw [hsame]
      exact hhid ref (by simp [href])

/-- A change of the policy keeps the tree counted. -/
theorem counted_step (h : s.root.Counted s.jobSet) (op : FSOp)
    (hnil : s.jobSet.refs ≠ []) (hok : s.KeepsFlags op) :
    (s.policy.step P op).root.Counted s.jobSet := by
  rcases FSPolicy.step_cases P s.policy op with ⟨heq, -⟩ | ⟨sa, n, -, heq⟩ | ⟨sa, u, heq⟩ |
    ⟨e, times, rfl, hzero, hdue, -, -⟩ | ⟨userName, rfl, heq⟩
  · rw [heq]
    exact h
  · rw [heq]
    exact h.updShareAcctStats P.arith sa _
  · rw [heq]
    exact (h.updShareAcctStats P.arith sa u).updSAcctPriorityByPath P sa
  · rcases hok.resolve_left hnil with hzero' | hlt
    · exact absurd hzero' hzero
    · exact absurd hlt hdue
  · rw [heq]
    exact counted_appendAliveUsers _ _ h hok

theorem Inv.step (h : s.Inv) (op : SessionOp) (hok : s.Ok P op) :
    (s.step P op).Inv := by
  cases op with
  | schFsInit rank jobs =>
    refine ⟨rfl, (FSJobSet.fill_wf rank jobs).1, ?_, .inr (FSTree.counted_schFsInit _ _)⟩
    exact wellShaped_of_same h.shaped (FSTree.schFsInit_schFsInit s.root)
  | schFsElectJob => exact (h.elect hok.1 hok.2 P).1
  | upd op =>
    refine ⟨h.crashed, h.wf, h.shaped.step op hok.1, ?_⟩
    by_cases hnil : s.jobSet.refs = []
    · exact .inl hnil
    · exact .inr (counted_step (h.counted.resolve_left hnil) op hnil hok.2)

instance (s : FSSession) (op : FSOp) : Decidable (s.KeepsFlags op) := by
  cases op <;> unfold KeepsFlags <;> infer_instance

instance (P : FSParams) (p : FSPolicy) (op : FSOp) : Decidable (p.Rested P op) := by
  cases op <;> unfold FSPolicy.Rested <;> infer_instance

instance (P : FSParams) (s : FSSession) (op : SessionOp) : Decidable (s.Ok P op) := by
  cases op <;> unfold Ok <;> infer_instance

end FSSession

end Volclava
