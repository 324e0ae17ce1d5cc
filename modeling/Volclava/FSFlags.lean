import Volclava.FSShape
import Volclava.FSElect

/-!
# What the skip flags of a fairshare tree mean

A flagged account is passed over by every later election, so nothing below it may have a job. The
flag of a parent is set by counting the children that have been flagged; this module has the
invariant that makes the count right, and what an election does to it.

- `FSTree.Counted`: flagged accounts have no jobs, and the others count their flagged children.
- `FSTree.Best`: the job that an election should give.
- `electAJob_ok`: an election in a counted tree gives that job and leaves the tree counted.
- `updSAcctSkippedFlag_ok`: flagging a leaf without jobs leaves the tree counted.
-/

namespace Volclava

open Reposition List

/-! ## Jobs below an account -/

variable {t l : FSTree} {kids : List FSTree} {a : ShareAcct}

namespace FSTree

def isLeaf : FSTree → Bool
  | user _ => true
  | group _ _ _ => true
  | inner _ kids => kids.isEmpty

mutual

/-- The leaves of a tree. -/
def leafNodes : FSTree → List FSTree
  | user a => [user a]
  | group a out tab => [group a out tab]
  | inner a kids => if kids.isEmpty then [inner a kids] else leafNodesList kids

def leafNodesList : List FSTree → List FSTree
  | [] => []
  | k :: ks => leafNodes k ++ leafNodesList ks

end

mutual

/-- All accounts of a tree, with what is below them. -/
def nodes : FSTree → List FSTree
  | user a => [user a]
  | group a out tab => [group a out tab]
  | inner a kids => inner a kids :: nodesList kids

def nodesList : List FSTree → List FSTree
  | [] => []
  | k :: ks => nodes k ++ nodesList ks

end

/-- A job could be elected from a leaf of the tree. -/
def HasJob (js : FSJobSet) (t : FSTree) : Prop :=
  ∃ l ∈ t.leafNodes, l.acct.isDefault = false ∧ ∃ e ∈ js.leafEnts l, e.2 ≠ []

instance (js : FSJobSet) (t : FSTree) : Decidable (t.HasJob js) := by
  unfold HasJob; infer_instance

/-- Induction over the tree from its leaves. -/
@[elab_as_elim]
theorem leafInduction {motive : FSTree → Prop} (leaf : ∀ t, t.isLeaf = true → motive t)
    (inner : ∀ a kids, kids ≠ [] → (∀ k ∈ kids, motive k) → motive (.inner a kids)) (t : FSTree) :
    motive t := by
  induction t using FSTree.induction with
  | user a => exact leaf _ rfl
  | group a out tab => exact leaf _ rfl
  | inner a kids ih =>
    cases hkids : kids.isEmpty with
    | true => exact leaf _ hkids
    | false => exact inner a kids (by simpa using hkids) ih

theorem leafNodes_of_isLeaf (h : t.isLeaf = true) : t.leafNodes = [t] := by
  cases t with
  | user a => rfl
  | group a out tab => rfl
  | inner a kids => exact if_pos h

theorem mem_leafNodesList {ks : List FSTree} :
    l ∈ leafNodesList ks ↔ ∃ k ∈ ks, l ∈ k.leafNodes := by
  induction ks with
  | nil => simp [leafNodesList]
  | cons k ks ih => simp [leafNodesList, ih]

variable {n : FSTree}

theorem mem_nodes_inner :
    n ∈ (inner a kids).nodes ↔ n = inner a kids ∨ ∃ k ∈ kids, n ∈ k.nodes := by
  have hlist : ∀ ks, n ∈ nodesList ks ↔ ∃ k ∈ ks, n ∈ k.nodes := by
    intro ks
    induction ks with
    | nil => simp [nodesList]
    | cons k ks ih => simp [nodesList, ih]
  rw [nodes, mem_cons, hlist]

theorem mem_leafNodes_inner (h : kids ≠ []) :
    l ∈ (inner a kids).leafNodes ↔ ∃ k ∈ kids, l ∈ k.leafNodes := by
  rw [leafNodes, if_neg (by simpa using h), mem_leafNodesList]

variable {js : FSJobSet}

theorem hasJob_leaf (h : t.isLeaf = true) :
    t.HasJob js ↔ t.acct.isDefault = false ∧ ∃ e ∈ js.leafEnts t, e.2 ≠ [] := by
  simp [HasJob, leafNodes_of_isLeaf h]

theorem hasJob_inner (h : kids ≠ []) :
    (inner a kids).HasJob js ↔ ∃ k ∈ kids, k.HasJob js := by
  constructor
  · rintro ⟨l, hl, hjob⟩
    obtain ⟨k, hk, hl⟩ := (mem_leafNodes_inner h).mp hl
    exact ⟨k, hk, l, hl, hjob⟩
  · rintro ⟨k, hk, l, hl, hjob⟩
    exact ⟨l, (mem_leafNodes_inner h).mpr ⟨k, hk, hl⟩, hjob⟩

variable (t)

/-- A job below an account of the tree is a job of the tree. -/
theorem HasJob.of_node (hn : n ∈ t.nodes) (h : n.HasJob js) :
    t.HasJob js := by
  induction t using FSTree.induction with
  | user a =>
    obtain rfl := mem_singleton.mp hn
    exact h
  | group a out tab =>
    obtain rfl := mem_singleton.mp hn
    exact h
  | inner a kids ih =>
    rw [mem_nodes_inner] at hn
    rcases hn with rfl | ⟨k, hk, hn⟩
    · exact h
    · exact (hasJob_inner (ne_nil_of_mem hk)).mpr ⟨k, hk, ih k hk hn⟩

/-! ## Trees that differ in their flags only -/

theorem schFsInitList_eq_map (ks : List FSTree) : schFsInitList ks = ks.map schFsInit := by
  induction ks with
  | nil => rfl
  | cons k ks ih => rw [schFsInitList, ih, map_cons]

theorem schFsInit_inner (a : ShareAcct) (kids : List FSTree) :
    (inner a kids).schFsInit =
      inner { a with numSkippedChild := 0, skipable := false } (kids.map schFsInit) := by
  rw [schFsInit, schFsInitList_eq_map]

theorem acct_schFsInit :
    t.schFsInit.acct = { t.acct with numSkippedChild := 0, skipable := false } := by
  cases t <;> rfl

theorem schFsInit_schFsInit : t.schFsInit.schFsInit = t.schFsInit := by
  induction t using FSTree.induction with
  | user a => rfl
  | group a out tab => rfl
  | inner a kids ih =>
    rw [schFsInit_inner, schFsInit_inner, map_map]
    exact congrArg (inner _) (map_congr_left ih)

/-- The tree without its flags stays the same when only flags of the root account change. -/
theorem schFsInit_setAcct {f : ShareAcct → ShareAcct}
    (hf : ∀ a, { f a with numSkippedChild := 0, skipable := false } =
      { a with numSkippedChild := 0, skipable := false }) (t : FSTree) :
    (t.setAcct f).schFsInit = t.schFsInit := by
  cases t with
  | user a => exact congrArg user (hf a)
  | group a out tab => exact congrArg (group · out tab) (hf a)
  | inner a kids => exact congrArg (inner · (schFsInitList kids)) (hf a)

theorem isLeaf_schFsInit : t.schFsInit.isLeaf = t.isLeaf := by
  cases t with
  | user a => rfl
  | group a out tab => rfl
  | inner a kids => rw [schFsInit_inner, isLeaf, isLeaf, isEmpty_map]

theorem leafEnts_schFsInit (js : FSJobSet) (t : FSTree) :
    js.leafEnts t.schFsInit = js.leafEnts t := by
  cases t <;> rfl

theorem hasJob_schFsInit : t.schFsInit.HasJob js ↔ t.HasJob js := by
  induction t using leafInduction with
  | leaf t ht =>
    rw [hasJob_leaf ht, hasJob_leaf ((isLeaf_schFsInit t).trans ht), leafEnts_schFsInit,
      acct_schFsInit]
  | inner a kids hkids ih =>
    rw [schFsInit_inner, hasJob_inner (by simpa using hkids), hasJob_inner hkids]
    simp only [mem_map, exists_exists_and_eq_and]
    exact exists_congr fun k => and_congr_right (ih k)

theorem hasJob_congr {t t' : FSTree} (h : t'.schFsInit = t.schFsInit) :
    t'.HasJob js ↔ t.HasJob js := by
  rw [← hasJob_schFsInit t', h, hasJob_schFsInit]

theorem ptrs_schFsInit : t.schFsInit.ptrs = t.ptrs := by
  induction t using FSTree.induction with
  | user a => rfl
  | group a out tab => rfl
  | inner a kids ih =>
    rw [schFsInit_inner, ptrs_inner, ptrs_inner, flatMap_map]
    exact congrArg (a.ptr :: ·) (flatMap_congr ih)

theorem priority_schFsInit : t.schFsInit.priority = t.priority := by
  rw [priority, acct_schFsInit]
  rfl

theorem arranged_schFsInit : t.schFsInit.Arranged ↔ t.Arranged := by
  induction t using FSTree.induction with
  | user a => exact ⟨fun _ => .user _, fun _ => .user _⟩
  | group a out tab => exact ⟨fun _ => .group _ _ _, fun _ => .group _ _ _⟩
  | inner a kids ih =>
    have hord : Ordered priority (kids.map schFsInit) ↔ Ordered priority kids := by
      unfold Ordered
      rw [pairwise_map]
      simp only [priority_schFsInit]
    rw [schFsInit_inner]
    constructor
    · intro h
      refine .inner _ _ h.isDefault (hord.mp h.ordered) fun k hk => ?_
      exact (ih k hk).mp (h.kid (mem_map.mpr ⟨k, hk, rfl⟩))
    · intro h
      exact .inner _ _ h.isDefault (hord.mpr h.ordered)
        (forall_mem_map.mpr fun k hk => (ih k hk).mpr (h.kid hk))

/-! ## Counted trees -/

/-- How many of some accounts are flagged. -/
def skipped (ks : List FSTree) : Nat := ks.countP (·.acct.skipable)

/-- A flagged account has no jobs below it; a leaf that is not flagged has no count, and any other
account counts its flagged children, which are not all. -/
inductive Counted (js : FSJobSet) : FSTree → Prop
  | hidden (t : FSTree) : t.acct.skipable = true → ¬ t.HasJob js → Counted js t
  | leaf (t : FSTree) : t.isLeaf = true → t.acct.skipable = false →
      t.acct.numSkippedChild = 0 → Counted js t
  | inner (a : ShareAcct) (kids : List FSTree) : a.skipable = false →
      a.numSkippedChild = skipped kids → skipped kids < kids.length →
      (∀ k ∈ kids, Counted js k) → Counted js (.inner a kids)

variable {t}

theorem Counted.not_hasJob (h : Counted js t) (hs : t.acct.skipable = true) :
    ¬ t.HasJob js := by
  cases h with
  | hidden t _ hjob => exact hjob
  | leaf t _ hs' _ => exact absurd hs (by simp [hs'])
  | inner a kids hs' _ _ _ => exact absurd hs (by simp [acct, hs'])

theorem Counted.leaf_count (h : Counted js t) (hl : t.isLeaf = true)
    (hs : t.acct.skipable = false) : t.acct.numSkippedChild = 0 := by
  cases h with
  | hidden t hs' _ => exact absurd hs' (by simp [hs])
  | leaf t _ _ hn => exact hn
  | inner a kids _ _ hlt _ =>
    rw [isLeaf, List.isEmpty_iff] at hl
    rw [hl] at hlt
    exact absurd hlt (by simp)

theorem Counted.inner_count (h : Counted js (.inner a kids))
    (hkids : kids ≠ []) (hs : a.skipable = false) :
    a.numSkippedChild = skipped kids ∧ skipped kids < kids.length ∧ ∀ k ∈ kids, Counted js k := by
  cases h with
  | hidden t hs' _ => exact absurd hs' (by simp [acct, hs])
  | leaf t hl _ _ => exact absurd (by simpa [isLeaf] using hl) hkids
  | inner a kids _ hn hlt hk => exact ⟨hn, hlt, hk⟩

/-- In a counted tree no flag hides a job. -/
theorem Counted.sound (h : Counted js t) (hn : n ∈ t.nodes)
    (hs : n.acct.skipable = true) : ¬ n.HasJob js := by
  induction h with
  | hidden t _ hjob => exact fun hjob' => hjob (.of_node t hn hjob')
  | leaf t hl hs' hc =>
    have hroot : t.nodes = [t] := by
      cases t with
      | user a => rfl
      | group a out tab => rfl
      | inner a kids =>
        rw [isLeaf, List.isEmpty_iff] at hl
        rw [hl]
        rfl
    rw [hroot, mem_singleton] at hn
    exact absurd hs (by simp [hn, hs'])
  | inner a kids hs' hcount hlt hk ih =>
    rw [mem_nodes_inner] at hn
    rcases hn with rfl | ⟨k, hk, hn⟩
    · exact absurd hs (by simp [acct, hs'])
    · exact ih k hk hn

/-- With fewer jobs a tree stays counted. -/
theorem Counted.mono {js js' : FSJobSet} (hjobs : ∀ t : FSTree, t.HasJob js' → t.HasJob js)
    (h : Counted js t) : Counted js' t := by
  induction h with
  | hidden t hs hjob => exact .hidden t hs fun hj => hjob (hjobs t hj)
  | leaf t hl hs hn => exact .leaf t hl hs hn
  | inner a kids hs hn hlt _ ih => exact .inner a kids hs hn hlt ih

/-- After `sch_fs_init` every tree is counted. -/
theorem counted_schFsInit (js : FSJobSet) (t : FSTree) : Counted js t.schFsInit := by
  induction t using leafInduction with
  | leaf t ht =>
    exact .leaf _ ((isLeaf_schFsInit t).trans ht) (by rw [acct_schFsInit]) (by rw [acct_schFsInit])
  | inner a kids hkids ih =>
    have hnone : skipped (kids.map schFsInit) = 0 := by
      rw [skipped, countP_eq_zero, forall_mem_map]
      intro k _
      simp [acct_schFsInit]
    rw [schFsInit_inner]
    refine .inner _ _ rfl hnone.symm ?_ (forall_mem_map.mpr ih)
    rw [hnone, length_map]
    exact length_pos_iff.mpr hkids

end FSTree

/-! ## The job that should be elected -/

namespace FSTree

/-- The leaf is reached by going down to a child with the highest priority of those with jobs. -/
inductive Descends (js : FSJobSet) : FSTree → FSTree → Prop
  | leaf (l : FSTree) : l.isLeaf = true → l.HasJob js → Descends js l l
  | child (a : ShareAcct) (kids : List FSTree) (k l : FSTree) : k ∈ kids →
      (∀ k' ∈ kids, k'.HasJob js → k'.priority ≤ k.priority) → Descends js k l →
      Descends js (.inner a kids) l

variable {js : FSJobSet} {ks : List FSTree}

section

variable (h : Descends js t l)
include h

theorem Descends.hasJob : t.HasJob js := by
  induction h with
  | leaf l _ hjob => exact hjob
  | child a kids k l hk _ _ ih => exact (hasJob_inner (ne_nil_of_mem hk)).mpr ⟨k, hk, ih⟩

theorem Descends.mem_leafNodes :
    l ∈ t.leafNodes := by
  induction h with
  | leaf l hl _ => simp [leafNodes_of_isLeaf hl]
  | child a kids k l hk _ _ ih =>
    exact (mem_leafNodes_inner (ne_nil_of_mem hk)).mpr ⟨k, hk, ih⟩

theorem Descends.isLeaf :
    l.isLeaf = true := by
  induction h with
  | leaf l hl _ => exact hl
  | child _ _ _ _ _ _ _ ih => exact ih

theorem Descends.eq_of_isLeaf (ht : t.isLeaf = true) :
    l = t := by
  cases h with
  | leaf l _ _ => rfl
  | child a kids k l hk _ _ =>
    rw [FSTree.isLeaf, List.isEmpty_iff] at ht
    exact absurd ht (ne_nil_of_mem hk)

end

/-- No job at the back of a list is older than `j` in any leaf that is reached. -/
def OldestBelow (js : FSJobSet) (t : FSTree) (j : JobFSRef) : Prop :=
  ∀ l, Descends js t l → Oldest (js.leafEnts l) j

/-- The job is at the back of a list of a leaf that is reached, and no leaf that is reached has an
older one. -/
structure Best (js : FSJobSet) (t : FSTree) (p : Pick) (l : FSTree) : Prop where
  reached : Descends js t l
  ptr : l.acct.ptr = p.sAcct
  flag : l.acct.skipable = false
  isDefault : l.acct.isDefault = false
  mem : ∃ rest, (p.user, p.ref :: rest) ∈ js.leafEnts l
  oldest : OldestBelow js t p.ref

/-- The leaf `target` is not flagged, and no account above it is. -/
inductive Visible (target : Nat) : FSTree → Prop
  | leaf (t : FSTree) : t.isLeaf = true → t.acct.skipable = false → t.acct.ptr = target →
      Visible target t
  | inner (a : ShareAcct) (kids : List FSTree) (k : FSTree) : a.skipable = false → k ∈ kids →
      Visible target k → Visible target (.inner a kids)

variable {target : Nat}

theorem Visible.skipable (h : Visible target t) : t.acct.skipable = false := by
  cases h with
  | leaf t _ hs _ => exact hs
  | inner a kids k hs _ _ => exact hs

theorem Visible.mem_ptrs (h : Visible target t) : target ∈ t.ptrs := by
  induction h with
  | leaf t _ _ hp => exact mem_map.mpr ⟨t.acct, acct_mem_accts t, hp⟩
  | inner a kids k _ hk _ ih =>
    rw [ptrs_inner, mem_cons, mem_flatMap]
    exact .inr ⟨k, hk, ih⟩

/-! ## What an election does -/

/-- The election from `t` to `t'`: `n` says whether the account has become flagged. -/
structure ElectOk (js : FSJobSet) (t t' : FSTree) (n : Nat) (p : Option Pick) : Prop where
  same : t'.schFsInit = t.schFsInit
  counted : Counted js t'
  count : t.acct.skipable.toNat + n = t'.acct.skipable.toNat
  noJob : p = none → t'.acct.skipable = true ∧ ¬ t.HasJob js
  job : ∀ q, p = some q → Visible q.sAcct t' ∧ ∃ l, Best js t q l

theorem schFsInit_skipLeaf (t : FSTree) : t.skipLeaf.1.schFsInit = t.schFsInit := by
  unfold skipLeaf
  split_ifs
  · rfl
  · refine schFsInit_setAcct ?_ t
    exact fun _ => rfl

/-- Flagging a leaf that has no jobs. -/
theorem skipLeaf_ok (hl : t.isLeaf = true) (hc : Counted js t)
    (hs : t.acct.skipable = false) (hjob : ¬ t.HasJob js) :
    Counted js t.skipLeaf.1 ∧ t.skipLeaf.1.acct.skipable = true ∧ t.skipLeaf.2 = 1 := by
  have hcount := hc.leaf_count hl hs
  have hskip : t.skipLeaf =
      (t.setAcct fun a => { a with numSkippedChild := 1, skipable := true }, 1) := by
    rw [skipLeaf, if_neg (by rw [hcount]; decide)]
  have hflag : t.skipLeaf.1.acct.skipable = true := by rw [hskip, acct_setAcct]
  refine ⟨.hidden _ hflag fun h => hjob ?_, hflag, by rw [hskip]⟩
  exact (hasJob_congr (schFsInit_skipLeaf t)).mp h

variable {r : KidsPick} {p : Option Pick} {n : Nat}

theorem electLeaf_ok {js : FSJobSet} {t' : FSTree}
    (hl : t.isLeaf = true) (hc : Counted js t) (h : electLeaf js t = some (t', n, p)) :
    ElectOk js t t' n p := by
  rcases electLeaf_cases js t with
    ⟨hs, he⟩ | ⟨hs, hno, he⟩ | ⟨_, _, _, he⟩ | ⟨hs, hd, j, hj, he⟩
  · rw [he] at h
    obtain ⟨rfl, rfl, rfl⟩ : t = t' ∧ 0 = n ∧ _ = p := by simpa using h
    exact ⟨rfl, hc, rfl, fun _ => ⟨hs, hc.not_hasJob hs⟩, by simp⟩
  · rw [he] at h
    obtain ⟨rfl, rfl, rfl⟩ : t.skipLeaf.1 = t' ∧ t.skipLeaf.2 = n ∧ _ = p := by simpa using h
    have hjob : ¬ t.HasJob js := by
      rw [hasJob_leaf hl]
      rintro ⟨hd, e, he, hne⟩
      rcases hno with hd' | hnone
      · simp [hd] at hd'
      · rcases FSJobSet.getJob_oldest hnone with ⟨-, hall⟩ | ⟨j', l, hj, -⟩
        · exact hne (hall e he)
        · simp at hj
    obtain ⟨hc', hflag, hone⟩ := skipLeaf_ok hl hc hs hjob
    exact ⟨schFsInit_skipLeaf t, hc', by simp [hs, hflag, hone], fun _ => ⟨hflag, hjob⟩, by simp⟩
  · simp [he] at h
  · rw [he] at h
    obtain ⟨rfl, rfl, rfl⟩ : t = t' ∧ 0 = n ∧ _ = p := by simpa using h
    refine ⟨rfl, hc, rfl, by simp, fun q hq => ?_⟩
    obtain rfl := Option.some.inj hq
    rcases FSJobSet.getJob_oldest hj with ⟨hj, -⟩ | ⟨j', l, hj, hmem, hold⟩
    · simp at hj
    · obtain rfl := Option.some.inj hj
      have hjob : t.HasJob js := (hasJob_leaf hl).mpr ⟨hd, _, hmem, by simp⟩
      refine ⟨.leaf t hl hs rfl, t, .leaf t hl hjob, rfl, hs, hd, ⟨l, hmem⟩, fun l' hl' => ?_⟩
      rw [hl'.eq_of_isLeaf hl]
      exact hold

theorem electAJob_leaf (h : t.isLeaf = true) : electAJob js t = electLeaf js t := by
  cases t with
  | user a => rw [electAJob]
  | group a out tab => rw [electAJob]
  | inner a kids =>
    rw [electAJob]
    exact if_pos h

/-! ### Children -/

theorem skipped_cons (k : FSTree) (ks : List FSTree) :
    skipped (k :: ks) = skipped ks + k.acct.skipable.toNat := by
  rw [skipped, countP_cons]
  cases k.acct.skipable <;> rfl

/-- What has been found among the children that have been looked at. -/
structure KidsOk (js : FSJobSet) (ks : List FSTree) (r : KidsPick) : Prop where
  same : r.kids.map schFsInit = ks.map schFsInit
  counted : ∀ k ∈ r.kids, Counted js k
  count : skipped ks + r.skipped = skipped r.kids
  noJob : r.best = none → (∀ k ∈ r.kids, k.acct.skipable = true) ∧ ∀ k ∈ ks, ¬ k.HasJob js
  visible : ∀ b, r.best = some b → ∃ k ∈ r.kids, Visible b.1.sAcct k
  best : ∀ b, r.best = some b → ∃ k ∈ ks, k.priority = b.2 ∧ ∃ l, Best js k b.1 l
  highest : ∀ b, r.best = some b → ∀ k ∈ ks, k.HasJob js → k.priority ≤ b.2
  oldest : ∀ b, r.best = some b → ∀ k ∈ ks, k.priority = b.2 → OldestBelow js k b.1.ref
  stopped : r.stopped = true → ∀ b, r.best = some b → ∃ k ∈ ks, k.priority < b.2

theorem kidsOk_nil (js : FSJobSet) : KidsOk js [] ⟨[], 0, none, false⟩ where
  same := rfl
  counted := by simp
  count := rfl
  noJob := by simp
  visible := by simp
  best := by simp
  highest := by simp
  oldest := by simp
  stopped := by simp

/-- Priorities before an account of the list are not higher. -/
theorem KidsOk.le_of_ordered {k : FSTree} (h : KidsOk js ks r)
    (ho : Ordered priority (k :: ks)) {b : Pick × ℚ} (hb : r.best = some b) :
    k.priority ≤ b.2 := by
  obtain ⟨k', hk', hp, -⟩ := h.best b hb
  rw [← hp]
  exact (pairwise_cons.mp ho).1 k' hk'

/-- A child that is not looked at, since its priority is lower. -/
theorem KidsOk.pass {k : FSTree} (h : KidsOk js ks r)
    (ho : Ordered priority (k :: ks)) (hc : Counted js k) {b : Pick × ℚ} (hb : r.best = some b)
    (hstop : r.stopped = true ∨ k.priority ≠ b.2) :
    KidsOk js (k :: ks) { r with kids := k :: r.kids, stopped := true } := by
  have hle := h.le_of_ordered ho hb
  have hlt : k.priority < b.2 := by
    rcases hstop with hst | hne
    · -- The loop has stopped at a child between this one and the best.
      obtain ⟨x, hx, hxb⟩ := h.stopped hst b hb
      exact ((pairwise_cons.mp ho).1 x hx).trans_lt hxb
    · exact lt_of_le_of_ne hle hne
  refine ⟨?_, ?_, ?_, ?_, ?_, ?_, ?_, ?_, ?_⟩
  · simp [h.same]
  · simpa [hc] using h.counted
  · have hcount := h.count
    rw [skipped_cons, skipped_cons]
    dsimp only
    omega
  · simp [hb]
  · intro b' hb'
    obtain ⟨x, hx, hv⟩ := h.visible b' hb'
    exact ⟨x, by simp [hx], hv⟩
  · intro b' hb'
    obtain ⟨x, hx, hbest⟩ := h.best b' hb'
    exact ⟨x, by simp [hx], hbest⟩
  · exact fun b' hb' =>
      forall_mem_cons.mpr ⟨fun _ => h.le_of_ordered ho hb', h.highest b' hb'⟩
  · intro b' hb'
    obtain rfl : b = b' := Option.some.inj (hb.symm.trans hb')
    exact forall_mem_cons.mpr ⟨fun hp => absurd hp hlt.ne, h.oldest b hb⟩
  · intro _ b' hb'
    obtain rfl : b = b' := Option.some.inj (hb.symm.trans hb')
    exact ⟨k, by simp, hlt⟩

/-- A child that is looked at: the best job so far, if there is one, comes from a child with the
same priority. -/
theorem KidsOk.look {k k' : FSTree} (h : KidsOk js ks r)
    (ho : Ordered priority (k :: ks)) (he : ElectOk js k k' n p) {best : Option (Pick × ℚ)}
    (hnone : best = none → r.best = none ∧ p = none) (hsome : ∀ b, best = some b →
      (r.best = some b ∧ (k.priority = b.2 → ∀ q, p = some q → b.1.ref.idx ≤ q.ref.idx)) ∨
      (p = some b.1 ∧ b.2 = k.priority ∧
        ∀ b', r.best = some b' → b'.2 = k.priority ∧ b.1.ref.idx ≤ b'.1.ref.idx)) :
    KidsOk js (k :: ks) ⟨k' :: r.kids, r.skipped + n, best, false⟩ := by
  have holder : ∀ {j j' : JobFSRef} {t : FSTree}, OldestBelow js t j → j'.idx ≤ j.idx →
      OldestBelow js t j' := fun hold hle l hl e hmem r hr => hle.trans (hold l hl e hmem r hr)
  refine ⟨?_, ?_, ?_, ?_, ?_, ?_, ?_, ?_, by simp⟩
  · simp [h.same, he.same]
  · simpa [he.counted] using h.counted
  · have hcount := h.count
    have hn := he.count
    rw [skipped_cons, skipped_cons]
    dsimp only
    omega
  · intro hb
    obtain ⟨hr, hp⟩ := hnone hb
    obtain ⟨hflag, hjob⟩ := he.noJob hp
    obtain ⟨hflags, hjobs⟩ := h.noJob hr
    exact ⟨by simpa [hflag] using hflags, by simpa [hjob] using hjobs⟩
  · intro b hb
    rcases hsome b hb with ⟨hr, -⟩ | ⟨hp, -⟩
    · obtain ⟨x, hx, hv⟩ := h.visible b hr
      exact ⟨x, by simp [hx], hv⟩
    · exact ⟨k', by simp, (he.job b.1 hp).1⟩
  · intro b hb
    rcases hsome b hb with ⟨hr, -⟩ | ⟨hp, hprio, -⟩
    · obtain ⟨x, hx, hbest⟩ := h.best b hr
      exact ⟨x, by simp [hx], hbest⟩
    · exact ⟨k, by simp, hprio.symm, (he.job b.1 hp).2⟩
  · intro b hb
    rcases hsome b hb with ⟨hr, -⟩ | ⟨hp, hprio, hbest⟩
    · exact forall_mem_cons.mpr ⟨fun _ => h.le_of_ordered ho hr, h.highest b hr⟩
    · refine forall_mem_cons.mpr ⟨fun _ => hprio.ge, fun x hx hjob => ?_⟩
      cases hr : r.best with
      | none => exact absurd hjob ((h.noJob hr).2 x hx)
      | some b' =>
        rw [hprio, ← (hbest b' hr).1]
        exact h.highest b' hr x hx hjob
  · intro b hb
    rcases hsome b hb with ⟨hr, hother⟩ | ⟨hq, hprio, hbest⟩
    · refine forall_mem_cons.mpr ⟨fun hp => ?_, h.oldest b hr⟩
      cases hq : p with
      | none => exact fun l hl => absurd hl.hasJob (he.noJob hq).2
      | some q =>
        obtain ⟨-, l, hbest⟩ := he.job q hq
        exact holder hbest.oldest (hother hp q hq)
    · obtain ⟨-, l, hold⟩ := he.job b.1 hq
      refine forall_mem_cons.mpr ⟨fun _ => hold.oldest, fun x hx hp => ?_⟩
      cases hr : r.best with
      | none => exact fun l hl => absurd hl.hasJob ((h.noJob hr).2 x hx)
      | some b' =>
        obtain ⟨hprio', hle⟩ := hbest b' hr
        refine holder (h.oldest b' hr x hx ?_) hle
        rw [hp, hprio, hprio']

theorem electKids_ok (ho : Ordered priority ks) (hc : ∀ k ∈ ks, Counted js k)
    (ih : ∀ k ∈ ks, ∀ t' n p, electAJob js k = some (t', n, p) → ElectOk js k t' n p)
    (h : electKids js ks = some r) : KidsOk js ks r := by
  induction ks generalizing r with
  | nil =>
    obtain rfl := Option.some.inj h
    exact kidsOk_nil js
  | cons k ks ihks =>
    obtain ⟨r', hr'⟩ := electKids_of_cons h
    have hok := ihks (pairwise_cons.mp ho).2 (fun x hx => hc x (by simp [hx]))
      (fun x hx => ih x (by simp [hx])) hr'
    rcases electKids_cons (k := k) hr' with
      ⟨best, hb, heq, hstop⟩ | ⟨hb, heq⟩ | ⟨best, hb, -, hp, heq⟩
    · rw [heq] at h
      obtain rfl := Option.some.inj h
      exact hok.pass ho (hc k (by simp)) hb hstop
    · rw [heq] at h
      obtain ⟨⟨t', n, p⟩, he, rfl⟩ := Option.map_eq_some_iff.mp h
      refine hok.look ho (ih k (by simp) _ _ _ he) (fun hbest => ⟨hb, ?_⟩) (fun b hbest => ?_)
      · simpa using hbest
      · obtain ⟨q, hq, rfl⟩ := Option.map_eq_some_iff.mp hbest
        exact .inr ⟨hq, rfl, by simp [hb]⟩
    · rw [heq] at h
      obtain ⟨⟨t', n, p⟩, he, rfl⟩ := Option.map_eq_some_iff.mp h
      refine hok.look ho (ih k (by simp) _ _ _ he) (by simp) (fun b hbest => ?_)
      obtain rfl := Option.some.inj hbest
      cases p with
      | none => exact .inl ⟨hb, by simp⟩
      | some q =>
        simp only [olderPick]
        split_ifs with hlt
        · refine .inr ⟨rfl, rfl, fun b' hb' => ?_⟩
          obtain rfl : best = b' := Option.some.inj (hb.symm.trans hb')
          exact ⟨hp.symm, hlt.le⟩
        · exact .inl ⟨hb, fun _ q' hq' => Option.some.inj hq' ▸ not_lt.mp hlt⟩

/-- What newly flagged children do to the count of their parent. -/
theorem climb_eq (numEnts n : Nat) (a : ShareAcct) (h : a.numSkippedChild + n ≤ numEnts)
    (hn : a.numSkippedChild < numEnts) :
    climb numEnts n a =
      if a.numSkippedChild + n = numEnts then
        ({ a with numSkippedChild := numEnts, skipable := true }, 1)
      else ({ a with numSkippedChild := a.numSkippedChild + n }, 0) := by
  induction n generalizing a with
  | zero => rw [climb, if_neg (by omega)]; rfl
  | succ n ih =>
    rw [climb]
    split_ifs with h1 h2 h2
    · obtain rfl : n = 0 := by omega
      simp [climb, h1]
    · omega
    · rw [ih _ (by dsimp only; omega) (by dsimp only; omega), if_pos (by dsimp only; omega)]
    · rw [ih _ (by dsimp only; omega) (by dsimp only; omega), if_neg (by dsimp only; omega)]
      simp [Nat.add_assoc, Nat.add_comm 1]

/-- The account from `t` to `t'`: `n` says whether it has become flagged. -/
structure SkipOk (js : FSJobSet) (t t' : FSTree) (n : Nat) : Prop where
  same : t'.schFsInit = t.schFsInit
  counted : Counted js t'
  count : t.acct.skipable.toNat + n = t'.acct.skipable.toNat

/-- An account stays counted when its children do and those that have become flagged are passed on
to it. It is flagged then if all of them are. -/
theorem climb_ok {kids' : List FSTree}
    (hc : Counted js (inner a kids)) (hkids : kids ≠ []) (hs : a.skipable = false)
    (hsame : kids'.map schFsInit = kids.map schFsInit) (hsum : skipped kids + n = skipped kids')
    (hk : ∀ k ∈ kids', Counted js k) :
    SkipOk js (inner a kids) (inner (climb kids.length n a).1 kids') (climb kids.length n a).2 ∧
      ((climb kids.length n a).1.skipable = true ↔ ∀ k ∈ kids', k.acct.skipable = true) := by
  obtain ⟨hcount, hlt, -⟩ := hc.inner_count hkids hs
  have hlen : kids'.length = kids.length := by simpa using congrArg List.length hsame
  have hle : skipped kids' ≤ kids'.length := countP_le_length
  have hall : skipped kids' = kids'.length ↔ ∀ k ∈ kids', k.acct.skipable = true :=
    countP_eq_length
  rw [climb_eq kids.length n a (by omega) (by omega), ← hall]
  split_ifs with hfull
  · refine ⟨⟨?_, .hidden _ rfl ?_, by simp [acct, hs]⟩, iff_of_true rfl (by omega)⟩
    · rw [schFsInit_inner, schFsInit_inner, hsame]
    · rw [hasJob_inner (ne_nil_of_length_pos (by omega))]
      rintro ⟨x, hx, hjob⟩
      exact (hk x hx).not_hasJob (hall.mp (by omega) x hx) hjob
  · refine ⟨⟨?_, .inner _ _ hs (by dsimp only; omega) (by omega) hk, by simp [acct, hs]⟩, ?_⟩
    · rw [schFsInit_inner, schFsInit_inner, hsame]
    · exact iff_of_false (by simp [hs]) (by omega)

/-- **An election in a counted tree** gives the oldest job of the leaves that are reached by going
down to the highest priority with jobs, and leaves the tree counted. -/
theorem electAJob_ok (t : FSTree) (ha : t.Arranged) (hc : Counted js t) {t' : FSTree}
    (h : electAJob js t = some (t', n, p)) :
    ElectOk js t t' n p := by
  induction t using leafInduction generalizing t' n p with
  | leaf t hl => exact electLeaf_ok hl hc (electAJob_leaf hl ▸ h)
  | inner a kids hkids ih =>
    rw [electAJob, if_neg (by simpa using hkids)] at h
    cases hs : a.skipable with
    | true =>
      rw [if_pos (.inl hs)] at h
      obtain ⟨rfl, rfl, rfl⟩ : inner a kids = t' ∧ 0 = n ∧ _ = p := by simpa using h
      exact ⟨rfl, hc, rfl, fun _ => ⟨hs, hc.not_hasJob hs⟩, by simp⟩
    | false =>
      have hck := (hc.inner_count hkids hs).2.2
      rw [if_neg (by simp [hs, ha.isDefault])] at h
      obtain ⟨r, hr, he⟩ := Option.map_eq_some_iff.mp h
      have hok := electKids_ok ha.ordered hck
        (fun k hk t' n p => ih k hk (ha.kid hk) (hck k hk)) hr
      obtain ⟨hskip, hflag⟩ := climb_ok hc hkids hs hok.same hok.count hok.counted
      obtain ⟨rfl, rfl, rfl⟩ := by simpa using he
      refine ⟨hskip.same, hskip.counted, hskip.count, fun hnone => ?_, fun q hq => ?_⟩
      · obtain ⟨hflags, hno⟩ := hok.noJob (by simpa using hnone)
        refine ⟨hflag.mpr hflags, ?_⟩
        rw [hasJob_inner hkids]
        rintro ⟨k, hk, hjob⟩
        exact hno k hk hjob
      · obtain ⟨b, hb, rfl⟩ := Option.map_eq_some_iff.mp hq
        obtain ⟨x, hx, hv⟩ := hok.visible b hb
        obtain ⟨k, hk, hprio, l, hbest⟩ := hok.best b hb
        have hless : (climb kids.length r.skipped a).1.skipable = false := by
          rw [← Bool.not_eq_true, hflag]
          exact fun hall => absurd (hall x hx) (by simp [hv.skipable])
        refine ⟨.inner _ _ x hless hx hv, l, ?_, hbest.ptr, hbest.flag, hbest.isDefault,
          hbest.mem, fun l' hl' => ?_⟩
        · refine .child a kids k l hk (fun k' hk' hjob => ?_) hbest.reached
          rw [hprio]
          exact hok.highest b hb k' hk' hjob
        · -- Every leaf that is reached is below a child with the same priority.
          cases hl' with
          | leaf l hl _ => simp [isLeaf, hkids] at hl
          | child a kids k' l' hk' hmax hdesc =>
            refine hok.oldest b hb k' hk' (le_antisymm ?_ ?_) l' hdesc
            · exact hok.highest b hb k' hk' hdesc.hasJob
            · rw [← hprio]
              exact hmax k hk hbest.reached.hasJob

/-! ## Flagging a leaf -/

theorem skipKids_eq {target : Nat} {l r : List FSTree} {k k' : FSTree}
    (hl : ∀ x ∈ l, updSAcctSkippedFlag target x = none)
    (hk : updSAcctSkippedFlag target k = some (k', n)) :
    skipKids target (l ++ k :: r) = some (l ++ k' :: r, n) := by
  induction l with
  | nil => rw [nil_append, skipKids, hk]; rfl
  | cons x l ih =>
    rw [cons_append, skipKids, hl x (by simp), ih fun y hy => hl y (by simp [hy])]
    rfl

theorem skipKids_eq_none (h : ∀ k ∈ ks, updSAcctSkippedFlag target k = none) :
    skipKids target ks = none := by
  induction ks with
  | nil => rfl
  | cons k ks ih =>
    rw [skipKids, h k (by simp), ih fun x hx => h x (by simp [hx])]
    rfl

/-- A leaf that is not in the tree is not found there. -/
theorem updSAcctSkippedFlag_eq_none (t : FSTree) (h : target ∉ t.ptrs) :
    updSAcctSkippedFlag target t = none := by
  induction t using FSTree.induction with
  | user a => exact if_neg fun ha => h (by simp [ptrs, accts, ha])
  | group a out tab => exact if_neg fun ha => h (by simp [ptrs, accts, ha])
  | inner a kids ih =>
    rw [ptrs_inner, mem_cons, mem_flatMap] at h
    rw [updSAcctSkippedFlag, if_neg fun ha => h (.inl ha.symm), skipKids_eq_none]
    · rfl
    · exact fun k hk => ih k hk fun hmem => h (.inr ⟨k, hk, hmem⟩)

theorem updSAcctSkippedFlag_leaf (hl : t.isLeaf = true) :
    updSAcctSkippedFlag t.acct.ptr t = some t.skipLeaf := by
  cases t with
  | user a => exact if_pos rfl
  | group a out tab => exact if_pos rfl
  | inner a kids =>
    rw [isLeaf] at hl
    rw [acct, updSAcctSkippedFlag, if_pos rfl, if_pos hl]

/-- **Flagging a leaf without jobs**, with nothing flagged above it, leaves the tree counted. -/
theorem updSAcctSkippedFlag_ok (t : FSTree) (hnd : t.ptrs.Nodup) (hc : Counted js t)
    (hv : Visible target t) (hno : ∀ l ∈ t.leafNodes, l.acct.ptr = target → ¬ l.HasJob js) :
    ∃ t' n, updSAcctSkippedFlag target t = some (t', n) ∧ SkipOk js t t' n := by
  induction hv with
  | leaf t hl hs hp =>
    have hjob : ¬ t.HasJob js := hno t (by simp [leafNodes_of_isLeaf hl]) hp
    obtain ⟨hc', hflag, hone⟩ := skipLeaf_ok hl hc hs hjob
    refine ⟨t.skipLeaf.1, t.skipLeaf.2, hp ▸ updSAcctSkippedFlag_leaf hl,
      schFsInit_skipLeaf t, hc', ?_⟩
    simp [hs, hflag, hone]
  | inner a kids k hs hk hv ih =>
    have hkids : kids ≠ [] := ne_nil_of_mem hk
    have hck := (hc.inner_count hkids hs).2.2
    obtain ⟨l, r, rfl⟩ := append_of_mem hk
    -- The numbers are different, so the leaf is found in this child.
    rw [ptrs_inner, nodup_cons, flatMap_append, flatMap_cons,
      nodup_append] at hnd
    obtain ⟨hroot, -, hkr, hdisj⟩ := hnd
    have htarget := hv.mem_ptrs
    have hne : a.ptr ≠ target := by
      rintro rfl
      exact hroot (by simp [htarget])
    have hleft : ∀ x ∈ l, updSAcctSkippedFlag target x = none := by
      intro x hx
      refine updSAcctSkippedFlag_eq_none x fun hmem => ?_
      exact hdisj target (mem_flatMap.mpr ⟨x, hx, hmem⟩) target
        (mem_append.mpr (.inl htarget)) rfl
    obtain ⟨k', n, hupd, hok⟩ := ih (nodup_append.mp hkr).1 (hck k hk) fun x hx =>
      hno x ((mem_leafNodes_inner hkids).mpr ⟨k, hk, hx⟩)
    have hsum : skipped (l ++ k :: r) + n = skipped (l ++ k' :: r) := by
      have hkcount := hok.count
      have happ : ∀ x, skipped (l ++ x :: r) = skipped (x :: (l ++ r)) := fun x =>
        List.Perm.countP_eq _ perm_middle
      rw [happ, happ, skipped_cons, skipped_cons]
      omega
    have hkc : ∀ x ∈ l ++ k' :: r, Counted js x := by
      intro x hx
      rcases mem_of_perm (.refl _) hx k with rfl | hx
      · exact hok.counted
      · exact hck x hx
    rw [updSAcctSkippedFlag, if_neg hne, skipKids_eq hleft hupd]
    exact ⟨_, _, rfl, (climb_ok hc hkids hs (by simp [hok.same]) hsum hkc).1⟩

end FSTree

end Volclava
