import Volclava.Lib.Loop

/-!
# User groups and their ancestors

`mbatchd` answers whether a user belongs to a group in two ways: `gMember` searches the group and
its subgroups, and `setuDataCreate` computes for every user the set of groups above it, once, by a
breadth-first traversal from every group. A group without members and subgroups stands for all
users. Such a group is not found by the traversal: it is given to users when their record is made,
and to users that already have a set of groups in a second pass.

- `UserGroups.gMember_iff`: what `gMember` decides.
- `UserGroups.Records.sound`: only groups a user belongs to get into its set.
- `UserGroups.traverse_spec`: the traversal of one group reaches everything below it.
- `ancestors_agree`: where the two answers agree.
- `all_group_missed`: a user that is in no group, and a group of all users.
-/

namespace Volclava

open List

namespace UserGroups

/-! ## Configuration -/

abbrev Name := List Char

/-- A user group: its members that are users, and its subgroups by their index. -/
structure GData where
  group : Name
  members : List Name
  subs : List Nat
  deriving DecidableEq

def userGroup : BitVec 32 := 0x001
def userUpdate : BitVec 32 := 0x002
def userAll : BitVec 32 := 0x020
def maxGroups : Nat := 150

/-- An acyclic configuration of user groups; `rank` decreases towards the subgroups. The `entries`
are the records made from the configuration before the groups get theirs, with their flags. -/
structure Config where
  groups : List GData
  entries : List (Name × BitVec 32)
  rank : Nat → Nat
  acyclic : ∀ i g, groups[i]? = some g → ∀ s ∈ g.subs, s < groups.length ∧ rank s < rank i
  distinct : (groups.map GData.group).Nodup
  entriesDistinct : (entries.map Prod.fst).Nodup
  unflagged : ∀ p ∈ entries, p.2 &&& userGroup = 0

def Config.groupNames (c : Config) : List Name := c.groups.map GData.group

def Config.nameOf (c : Config) (i : Nat) : Name := ((c.groups[i]?).map GData.group).getD []

/-- `USER_GROUP_IS_ALL_USERS`. -/
def GData.IsAll (g : GData) : Prop := g.subs = [] ∧ g.members = []

instance (g : GData) : Decidable g.IsAll := inferInstanceAs (Decidable (_ ∧ _))

/-- `gDirectMember`. -/
def gDirectMember (word : Name) (g : GData) : Bool :=
  if g.IsAll then true else g.members.contains word

/-- The search of `gMember`; an acyclic configuration is at most `rank i` deep below the `i`-th
group. -/
def gMemberLoop (c : Config) (word : Name) : Nat → Nat → Bool
  | 0, _ => false
  | fuel + 1, i =>
    match c.groups[i]? with
    | none => false
    | some g => gDirectMember word g || g.subs.any (gMemberLoop c word fuel)

def gMember (c : Config) (word : Name) (i : Nat) : Bool := gMemberLoop c word (c.rank i + 1) i

/-! ## Records -/

/-- A set of records, each known by its name: its elements, and the count that is kept of them. -/
structure USet where
  elems : Finset Name
  setNumElements : Nat

def USet.empty : USet := ⟨∅, 0⟩

/-- `setAddElement`. -/
def USet.add (s : USet) (a : Name) : USet :=
  if a ∈ s.elems then s else ⟨insert a s.elems, s.setNumElements + 1⟩

/-- `setOperate` with `LS_SET_UNION`, which does not count. -/
def USet.unite (s : USet) (t : Finset Name) : USet := { s with elems := s.elems ∪ t }

/-- What an iterator over the set returns. -/
def USet.walked (s : USet) : Finset Name := if s.setNumElements = 0 then ∅ else s.elems

structure UData where
  flags : BitVec 32
  gData : Option Nat
  ancestors : Option USet

def UData.anc (u : UData) : Finset Name := (u.ancestors.map USet.elems).getD ∅

/-- The records by their name, the table of records, and the groups of all users; `fault` after an
access outside of the stack of a traversal or through a null pointer. -/
structure St where
  uDataList : Name → Option UData
  uDataPtrTb : List Name
  uGrpAllSet : Finset Name
  fault : Bool

def St.anc (st : St) (w : Name) : Finset Name := ((st.uDataList w).map UData.anc).getD ∅

/-- The groups that `FOR_EACH_USER_ANCESTOR_UGRP` walks. -/
def St.walked (st : St) (w : Name) : Finset Name :=
  (((st.uDataList w).bind UData.ancestors).map USet.walked).getD ∅

def St.setUData (st : St) (w : Name) (u : UData) : St :=
  { st with uDataList := Function.update st.uDataList w (some u) }

/-- The groups of all users in the order of the table. -/
def St.alls (st : St) : List Name := st.uDataPtrTb.filter (· ∈ st.uGrpAllSet)

/-! ## Making the sets -/

def others : List Char := ['o', 't', 'h', 'e', 'r', 's']

/-- `checkuDataSet`. -/
def checkuDataSet (st : St) (w : Name) : St :=
  match st.uDataList w with
  | none => st
  | some u => st.setUData w { u with ancestors := some (u.ancestors.getD .empty) }

/-- `a` becomes an ancestor of `w`, and then `a`'s ancestors do. -/
def adopt (st : St) (w a : Name) : St :=
  match st.uDataList w with
  | none => st
  | some u => st.setUData w
      { u with ancestors := some (((u.ancestors.getD .empty).add a).unite (st.anc a)) }

/-- `addUserData` for a name without a record: a user gets the groups of all users. -/
def addUserData (st : St) (w : Name) : St :=
  let st' := { st.setUData w ⟨0, none, none⟩ with uDataPtrTb := st.uDataPtrTb ++ [w] }
  if w.tails.any others.isPrefixOf then st' else st.alls.foldl (fun st a => adopt st w a) st'

def getUserData (st : St) (w : Name) : St :=
  if (st.uDataList w).isSome then st else addUserData st w

/-- One member or subgroup of the group `cur` in `traverseGroupTree`. -/
def descend (cur : Name) (st : St) (w : Name) : St := adopt (getUserData st w) w cur

/-- One group in `traverseGroupTree`. -/
def visitGroup (c : Config) (st : St) (g : GData) : St :=
  (g.subs.map c.nameOf).foldl (descend g.group)
    (g.members.foldl (descend g.group) (checkuDataSet st g.group))

/-- The loop of `traverseGroupTree` over the stack `done ++ todo`. -/
def traverseLoop (c : Config) : Nat → List Nat → List Nat → St → St
  | _, _, [], st => st
  | 0, _, _ :: _, st => { st with fault := true }
  | fuel + 1, done, i :: todo, st =>
    match c.groups[i]? with
    | none => { st with fault := true }
    | some g =>
      if maxGroups < (done ++ i :: todo ++ g.subs).length then { st with fault := true }
      else traverseLoop c fuel (done ++ [i]) (todo ++ g.subs) (visitGroup c st g)

/-- `traverseGroupTree`; every round takes one of the places of the stack. -/
def traverseGroupTree (c : Config) (st : St) (i : Nat) : St :=
  traverseLoop c maxGroups [] [i] (getUserData st (c.nameOf i))

/-- One group in `uDataGroupCreate`. -/
def groupCreate (st : St) (p : GData × Nat) : St :=
  let st := getUserData st p.1.group
  match st.uDataList p.1.group with
  | none => { st with fault := true }
  | some u =>
    let flags := u.flags ||| userGroup
    { st.setUData p.1.group { u with
        flags := if p.1.IsAll then flags ||| userAll else flags
        gData := some p.2 } with
      uGrpAllSet := if p.1.IsAll then insert p.1.group st.uGrpAllSet else st.uGrpAllSet }

def uDataGroupCreate (c : Config) (st : St) : St := c.groups.zipIdx.foldl groupCreate st

/-- One record in the first loop of `setuDataCreate`. -/
def visitRecord (c : Config) (st : St) (w : Name) : St :=
  match st.uDataList w with
  | none => st
  | some u =>
    if u.flags &&& userGroup ≠ 0 ∧ others.isPrefixOf w = false then
      match u.gData with
      | none => { st with fault := true }
      | some i => traverseGroupTree c st i
    else st

/-- The first loop of `setuDataCreate`, over a table that grows. -/
def firstLoop (c : Config) : Nat → Nat → St → St
  | 0, i, st => if i < st.uDataPtrTb.length then { st with fault := true } else st
  | fuel + 1, i, st =>
    match st.uDataPtrTb[i]? with
    | none => st
    | some w => firstLoop c fuel (i + 1) (visitRecord c st w)

/-- `setAddElement` on the ancestors of `w`; a set that was not made stays so. -/
def addAncestor (w : Name) (st : St) (a : Name) : St :=
  match st.uDataList w with
  | none => st
  | some u => st.setUData w { u with ancestors := u.ancestors.map (·.add a) }

/-- One record in the second loop of `setuDataCreate`. The test is `(! u->flags) & USER_GROUP`. -/
def giveAlls (st : St) (w : Name) : St :=
  match st.uDataList w with
  | none => st
  | some u =>
    if (if u.flags = 0 then 1 else 0) &&& userGroup ≠ 0 then st.alls.foldl (addAncestor w) st
    else st

/-- All names that can get a record. -/
def Config.names (c : Config) : List Name :=
  c.entries.map Prod.fst ++ c.groupNames ++ c.groups.flatMap GData.members

/-- `setuDataCreate`. -/
def setuDataCreate (c : Config) (st : St) : St :=
  let st := firstLoop c c.names.length 0 st
  st.uDataPtrTb.foldl giveAlls st

/-- The records of the configuration. -/
def start (c : Config) : St where
  uDataList w := (c.entries.lookup w).map fun flags => ⟨flags, none, none⟩
  uDataPtrTb := c.entries.map Prod.fst
  uGrpAllSet := ∅
  fault := false

/-- The records after the configuration is read. -/
def final (c : Config) : St := setuDataCreate c (uDataGroupCreate c (start c))

/-- The record that is always there and no user's: it holds the limits of users without their
own. -/
def defaultUser : Name := "default".toList

/-- **The two answers agree** for every user that has a record and every group. -/
def Agrees (c : Config) : Prop :=
  (final c).fault = false ∧ ∀ w ∈ (final c).uDataPtrTb, w ∉ c.groupNames → w ≠ defaultUser →
    ∀ i g, c.groups[i]? = some g → (g.group ∈ (final c).walked w ↔ gMember c w i = true)

/-! ## Membership -/

/-- The name stands below the group: as a member, or as a subgroup, at some depth. -/
inductive Under (c : Config) (w : Name) : Nat → Prop where
  | member {i : Nat} {g : GData} (hg : c.groups[i]? = some g) (hw : w ∈ g.members) : Under c w i
  | sub {i s : Nat} {g g' : GData} (hg : c.groups[i]? = some g) (hs : s ∈ g.subs)
      (hg' : c.groups[s]? = some g') (hw : g'.group = w) : Under c w i
  | step {i s : Nat} {g : GData} (hg : c.groups[i]? = some g) (hs : s ∈ g.subs)
      (h : Under c w s) : Under c w i

/-- There is a group of all users in the group. -/
inductive HasAll (c : Config) : Nat → Prop where
  | here {i : Nat} {g : GData} (hg : c.groups[i]? = some g) (h : g.IsAll) : HasAll c i
  | step {i s : Nat} {g : GData} (hg : c.groups[i]? = some g) (hs : s ∈ g.subs)
      (h : HasAll c s) : HasAll c i

variable {i : Nat} {w : Name}

section Membership

variable {c : Config}

theorem mem_groupNames {g : GData} (hg : c.groups[i]? = some g) :
    g.group ∈ c.groupNames := mem_map_of_mem (mem_of_getElem? hg)

/-- Groups are known by their names. -/
theorem index_eq {i j : Nat} {g g' : GData} (hg : c.groups[i]? = some g)
    (hg' : c.groups[j]? = some g') (h : g.group = g'.group) : i = j := by
  have hi : (c.groups.map GData.group)[i]? = some g.group := by
    rw [List.getElem?_map, hg]
    rfl
  have hj : (c.groups.map GData.group)[j]? = some g.group := by
    rw [List.getElem?_map, hg', h]
    rfl
  exact (List.getElem?_inj (List.getElem?_eq_some_iff.mp hi).1 c.distinct).mp (hi.trans hj.symm)

theorem Under.exists_group (h : Under c w i) : ∃ g, c.groups[i]? = some g := by
  cases h <;> exact ⟨_, ‹_›⟩

theorem HasAll.exists_group (h : HasAll c i) : ∃ g, c.groups[i]? = some g := by
  cases h <;> exact ⟨_, ‹_›⟩

theorem gMemberLoop_iff (hw : w ∉ c.groupNames) {fuel i : Nat}
    (hfuel : c.rank i < fuel) : gMemberLoop c w fuel i = true ↔ Under c w i ∨ HasAll c i := by
  induction fuel generalizing i with
  | zero => exact absurd hfuel (Nat.not_lt_zero _)
  | succ fuel ih =>
    rw [gMemberLoop]
    cases hg : c.groups[i]? with
    | none =>
      refine ⟨fun h => absurd h Bool.false_ne_true, ?_⟩
      rintro (h | h)
      · obtain ⟨g, hg'⟩ := h.exists_group
        cases hg.symm.trans hg'
      · obtain ⟨g, hg'⟩ := h.exists_group
        cases hg.symm.trans hg'
    | some g =>
      have hsub : ∀ s ∈ g.subs, gMemberLoop c w fuel s = true ↔ Under c w s ∨ HasAll c s := by
        intro s hs
        have := (c.acyclic i g hg s hs).2
        exact ih (by omega)
      have hdirect : gDirectMember w g = true ↔ g.IsAll ∨ w ∈ g.members := by
        rw [gDirectMember]
        split_ifs with hall
        · simp [hall]
        · simp [hall]
      simp only [Bool.or_eq_true, any_eq_true, hdirect]
      constructor
      · rintro ((hall | hmem) | ⟨s, hs, hrec⟩)
        · exact .inr (.here hg hall)
        · exact .inl (.member hg hmem)
        · exact ((hsub s hs).mp hrec).imp (Under.step hg hs) (HasAll.step hg hs)
      · rintro (h | h)
        · cases h with
          | member hg' hmem =>
            obtain rfl := Option.some.inj (hg.symm.trans hg')
            exact .inl (.inr hmem)
          | sub _ _ hg' hname => exact absurd (hname ▸ mem_groupNames hg') hw
          | step hg' hs h =>
            obtain rfl := Option.some.inj (hg.symm.trans hg')
            exact .inr ⟨_, hs, (hsub _ hs).mpr (.inl h)⟩
        · cases h with
          | here hg' hall =>
            obtain rfl := Option.some.inj (hg.symm.trans hg')
            exact .inl (.inl hall)
          | step hg' hs h =>
            obtain rfl := Option.some.inj (hg.symm.trans hg')
            exact .inr ⟨_, hs, (hsub _ hs).mpr (.inr h)⟩

/-- **What `gMember` decides for a user.** -/
theorem gMember_iff (hw : w ∉ c.groupNames) (i : Nat) :
    gMember c w i = true ↔ Under c w i ∨ HasAll c i :=
  gMemberLoop_iff hw (Nat.lt_succ_self _)

/-! ## Conditions -/

def Config.subsOf (c : Config) (i : Nat) : List Nat := ((c.groups[i]?).map GData.subs).getD []

def pathsLoop (c : Config) : Nat → Nat → Nat
  | 0, _ => 0
  | fuel + 1, i => 1 + ((c.subsOf i).map (pathsLoop c fuel)).sum

/-- The number of ways down from a group to itself and the groups in it: the places of the stack
that its traversal takes. -/
def Config.paths (c : Config) (i : Nat) : Nat := pathsLoop c (c.rank i + 1) i

/-- Users do not have the names of groups. -/
def Config.Separate (c : Config) : Prop := ∀ g ∈ c.groups, ∀ w ∈ g.members, w ∉ c.groupNames

theorem pathsLoop_eq {f f' i : Nat} (hf : c.rank i < f) (hf' : c.rank i < f') :
    pathsLoop c f i = pathsLoop c f' i := by
  induction f generalizing f' i with
  | zero => exact absurd hf (Nat.not_lt_zero _)
  | succ f ih =>
    obtain ⟨f', rfl⟩ := Nat.exists_eq_succ_of_ne_zero (Nat.ne_of_gt (Nat.zero_lt_of_lt hf'))
    rw [pathsLoop, pathsLoop]
    congr 2
    refine map_congr_left fun s hs => ?_
    cases hg : c.groups[i]? with
    | none =>
      rw [Config.subsOf, hg] at hs
      cases hs
    | some g =>
      rw [Config.subsOf, hg] at hs
      have := (c.acyclic i g hg s hs).2
      exact ih (by omega) (by omega)

theorem paths_eq {g : GData} (hg : c.groups[i]? = some g) :
    c.paths i = 1 + (g.subs.map c.paths).sum := by
  have hsubs : c.subsOf i = g.subs := by
    rw [Config.subsOf, hg]
    rfl
  rw [Config.paths, pathsLoop, hsubs]
  congr 2
  refine map_congr_left fun s hs => pathsLoop_eq ?_ (Nat.lt_succ_self _)
  exact (c.acyclic i g hg s hs).2

theorem length_le_paths {is : List Nat} (h : ∀ i ∈ is, i < c.groups.length) :
    is.length ≤ (is.map c.paths).sum := by
  rw [← length_map c.paths]
  refine length_le_sum_of_one_le _ (forall_mem_map.mpr fun i hi => ?_)
  rw [paths_eq (List.getElem?_eq_getElem (h i hi))]
  omega

/-- What holds of a group and is handed up to the groups around it holds of every group that the
group is under. -/
theorem Under.lift {P : Nat → Prop} (hsep : c.Separate)
    (hup : ∀ i g s, c.groups[i]? = some g → s ∈ g.subs → P s → P i) {k i : Nat} {gk : GData}
    (hk : c.groups[k]? = some gk) (h : Under c gk.group i) (hP : P k) : P i := by
  induction h with
  | member hg hw => exact absurd (mem_groupNames hk) (hsep _ (mem_of_getElem? hg) _ hw)
  | sub hg hs hg' hw =>
    obtain rfl := index_eq hg' hk hw
    exact hup _ _ _ hg hs hP
  | step hg hs _ ih => exact hup _ _ _ hg hs ih

end Membership

/-! ## What the sets may hold -/

/-- `a` is a group that the name is in. -/
def Sound (c : Config) (w a : Name) : Prop :=
  ∃ i g, c.groups[i]? = some g ∧ g.group = a ∧ (Under c w i ∨ HasAll c i)

def Config.flagsOf (c : Config) (w : Name) : BitVec 32 := (c.entries.lookup w).getD 0

structure Records (c : Config) (st : St) : Prop where
  known : ∀ w, w ∈ st.uDataPtrTb ↔ (st.uDataList w).isSome
  nodup : st.uDataPtrTb.Nodup
  names : ∀ w ∈ st.uDataPtrTb, w ∈ c.names
  entries : ∀ p ∈ c.entries, p.1 ∈ st.uDataPtrTb
  flags : ∀ w u, st.uDataList w = some u → w ∉ c.groupNames → u.flags = c.flagsOf w
  sound : ∀ w, ∀ a ∈ st.anc w, Sound c w a
  count : ∀ w u s, st.uDataList w = some u → u.ancestors = some s → s.elems.Nonempty →
    s.setNumElements ≠ 0
  alls : ∀ a ∈ st.uGrpAllSet, ∃ (i : Nat) (g : GData),
    c.groups[i]? = some g ∧ g.group = a ∧ g.IsAll
  fault : st.fault = false

/-- Records, ancestors and the table only grow. -/
structure Grows (st st' : St) : Prop where
  record : ∀ w u, st.uDataList w = some u →
    ∃ u', st'.uDataList w = some u' ∧ u'.flags = u.flags ∧ u'.gData = u.gData
  anc : ∀ w, st.anc w ⊆ st'.anc w
  table : ∃ l, st'.uDataPtrTb = st.uDataPtrTb ++ l
  alls : st'.uGrpAllSet = st.uGrpAllSet

theorem Grows.refl (st : St) : Grows st st :=
  ⟨fun _ u hu => ⟨u, hu, rfl, rfl⟩, fun _ => Finset.Subset.refl _, ⟨[], by simp⟩, rfl⟩

variable {st st' : St}

theorem Grows.trans {st'' : St} (h : Grows st st') (h' : Grows st' st'') :
    Grows st st'' := by
  constructor
  · intro w u hu
    obtain ⟨u', hu', hflags, hdata⟩ := h.record w u hu
    obtain ⟨u'', hu'', hflags', hdata'⟩ := h'.record w u' hu'
    exact ⟨u'', hu'', hflags'.trans hflags, hdata'.trans hdata⟩
  · exact fun w => (h.anc w).trans (h'.anc w)
  · obtain ⟨l, hl⟩ := h.table
    obtain ⟨l', hl'⟩ := h'.table
    exact ⟨l ++ l', by rw [hl', hl, append_assoc]⟩
  · exact h'.alls.trans h.alls

theorem Grows.known (h : Grows st st') (hw : (st.uDataList w).isSome) :
    (st'.uDataList w).isSome := by
  obtain ⟨u, hu⟩ := Option.isSome_iff_exists.mp hw
  obtain ⟨u', hu', -⟩ := h.record w u hu
  rw [hu']
  rfl

variable {u : UData}

theorem anc_of_some (hu : st.uDataList w = some u) :
    st.anc w = u.anc := by
  rw [St.anc, hu]
  rfl

theorem setUData_self (st : St) (w : Name) (u : UData) : (st.setUData w u).uDataList w = some u :=
  Function.update_self ..

theorem setUData_of_ne (st : St) {x : Name} (u : UData) (h : x ≠ w) :
    (st.setUData w u).uDataList x = st.uDataList x := Function.update_of_ne h ..

theorem setUData_eq_some {x : Name} {v : UData}
    (h : (st.setUData w u).uDataList x = some v) :
    x = w ∧ v = u ∨ x ≠ w ∧ st.uDataList x = some v := by
  by_cases hx : x = w
  · rw [hx, setUData_self] at h
    exact .inl ⟨hx, (Option.some.inj h).symm⟩
  · rw [setUData_of_ne st u hx] at h
    exact .inr ⟨hx, h⟩

theorem anc_setUData (st : St) (w : Name) (u : UData) (x : Name) :
    (st.setUData w u).anc x = if x = w then u.anc else st.anc x := by
  by_cases hx : x = w
  · subst hx
    rw [if_pos rfl, anc_of_some (setUData_self st x u)]
  · rw [if_neg hx, St.anc, setUData_of_ne st u hx, St.anc]

section Steps

variable {c : Config} {st : St}

/-- The records that a step leaves: they are in order and have grown. -/
structure Extends (c : Config) (st st' : St) : Prop extends Grows st st' where
  records : Records c st'

theorem Records.extends (h : Records c st) : Extends c st st := ⟨.refl st, h⟩

theorem Extends.trans {st'' : St} (h : Extends c st st') (h' : Extends c st' st'') :
    Extends c st st'' := ⟨h.toGrows.trans h'.toGrows, h'.records⟩

variable {w : Name} {g : GData}

theorem lookup_isSome : (c.entries.lookup w).isSome ↔ w ∈ c.entries.map Prod.fst := by
  simp only [lookup_isSome_iff, beq_iff_eq, mem_map, @eq_comm _ w]

theorem mem_of_lookup {f : BitVec 32} (h : c.entries.lookup w = some f) : (w, f) ∈ c.entries := by
  obtain ⟨l₁, l₂, hl, -⟩ := lookup_eq_some_iff.mp h
  rw [hl]
  simp

/-- A name gets its first record or another one, which keeps what the records promise. -/
theorem Records.put (h : Records c st) {table : List Name} {alls : Finset Name}
    (hmem : ∀ x, x ∈ table ↔ x = w ∨ x ∈ st.uDataPtrTb) (hnodup : table.Nodup)
    (hname : w ∈ c.names) (hflags : w ∉ c.groupNames → u.flags = c.flagsOf w)
    (hsound : ∀ a ∈ u.anc, Sound c w a)
    (hcount : ∀ s, u.ancestors = some s → s.elems.Nonempty → s.setNumElements ≠ 0)
    (halls : ∀ a ∈ alls, ∃ (i : Nat) (g : GData), c.groups[i]? = some g ∧ g.group = a ∧ g.IsAll) :
    Records c { st.setUData w u with uDataPtrTb := table, uGrpAllSet := alls } := by
  constructor
  · intro x
    show x ∈ table ↔ ((st.setUData w u).uDataList x).isSome
    rw [hmem, h.known]
    by_cases hx : x = w
    · rw [hx, setUData_self]
      exact ⟨fun _ => rfl, fun _ => .inl rfl⟩
    · rw [setUData_of_ne st u hx, or_iff_right hx]
  · exact hnodup
  · intro x hx
    rcases (hmem x).mp hx with rfl | hx
    · exact hname
    · exact h.names x hx
  · exact fun p hp => (hmem _).mpr (.inr (h.entries p hp))
  · intro x v hv
    rcases setUData_eq_some hv with ⟨rfl, rfl⟩ | ⟨-, hv⟩
    · exact hflags
    · exact h.flags x v hv
  · intro x a ha
    change a ∈ (st.setUData w u).anc x at ha
    rw [anc_setUData] at ha
    split_ifs at ha with hx
    · exact hx ▸ hsound a ha
    · exact h.sound x a ha
  · intro x v s hv
    rcases setUData_eq_some hv with ⟨rfl, rfl⟩ | ⟨-, hv⟩
    · exact hcount s
    · exact h.count x v s hv
  · exact halls
  · exact h.fault

/-- The record that a name gets has what its record had before. -/
theorem Grows.put {table : List Name} (htable : ∃ l, table = st.uDataPtrTb ++ l)
    (hrecord : ∀ v, st.uDataList w = some v → u.flags = v.flags ∧ u.gData = v.gData)
    (hanc : st.anc w ⊆ u.anc) : Grows st { st.setUData w u with uDataPtrTb := table } := by
  constructor
  · intro x v hv
    by_cases hx : x = w
    · exact ⟨u, by rw [hx]; exact setUData_self .., hrecord v (hx ▸ hv)⟩
    · exact ⟨v, (setUData_of_ne st u hx).trans hv, rfl, rfl⟩
  · intro x
    show st.anc x ⊆ (st.setUData w u).anc x
    rw [anc_setUData]
    split_ifs with hx
    · exact hx ▸ hanc
    · exact Finset.Subset.refl _
  · exact htable
  · rfl

/-- The table when a name that has a record gets another one. -/
theorem Records.mem_iff (h : Records c st) (hw : (st.uDataList w).isSome) (x : Name) :
    x ∈ st.uDataPtrTb ↔ x = w ∨ x ∈ st.uDataPtrTb := by
  refine ⟨.inr, ?_⟩
  rintro (rfl | hx)
  · exact (h.known x).mpr hw
  · exact hx

/-- A record gets another set of ancestors. -/
theorem Records.setAncestors (h : Records c st) (hu : st.uDataList w = some u)
    {s : USet} (hsub : u.anc ⊆ s.elems) (hsound : ∀ a ∈ s.elems, Sound c w a)
    (hcount : s.elems.Nonempty → s.setNumElements ≠ 0) :
    Extends c st (st.setUData w { u with ancestors := some s }) ∧
    (st.setUData w { u with ancestors := some s }).anc w = s.elems := by
  have hknown : (st.uDataList w).isSome := Option.isSome_of_eq_some hu
  refine ⟨⟨?_, ?_⟩, by rw [anc_setUData, if_pos rfl]; rfl⟩
  · refine Grows.put ⟨[], (append_nil _).symm⟩ (fun v hv => ?_) (anc_of_some hu ▸ hsub)
    obtain rfl := Option.some.inj (hu.symm.trans hv)
    exact ⟨rfl, rfl⟩
  · refine h.put (h.mem_iff hknown) h.nodup (h.names w ((h.known w).mpr hknown))
      (h.flags w u hu) hsound ?_ h.alls
    rintro t ⟨⟩
    exact hcount

theorem Records.count_getD (h : Records c st) (hu : st.uDataList w = some u) :
    (u.ancestors.getD .empty).elems = u.anc ∧
    ((u.ancestors.getD .empty).elems.Nonempty → (u.ancestors.getD .empty).setNumElements ≠ 0) := by
  cases hs : u.ancestors with
  | none =>
    refine ⟨by rw [UData.anc, hs]; rfl, fun hne => absurd hne ?_⟩
    exact Finset.not_nonempty_empty
  | some s => exact ⟨by rw [UData.anc, hs]; rfl, h.count w u s hu hs⟩

theorem elems_add (s : USet) (a : Name) : (s.add a).elems = insert a s.elems := by
  rw [USet.add]
  split_ifs with ha
  · exact (Finset.insert_eq_of_mem ha).symm
  · rfl

/-- A set that an element was added to has a count. -/
theorem count_add {s : USet} (h : s.elems.Nonempty → s.setNumElements ≠ 0) (a : Name) :
    (s.add a).setNumElements ≠ 0 := by
  rw [USet.add]
  split_ifs with ha
  · exact h ⟨a, ha⟩
  · exact Nat.succ_ne_zero _

section

variable (h : Records c st)
include h

theorem checkuDataSet_spec (hw : (st.uDataList w).isSome) :
    Extends c st (checkuDataSet st w) := by
  obtain ⟨u, hu⟩ := Option.isSome_iff_exists.mp hw
  obtain ⟨helems, hcount⟩ := h.count_getD hu
  rw [checkuDataSet, hu]
  exact (h.setAncestors hu (s := u.ancestors.getD .empty) (by rw [helems])
    (fun a ha => h.sound w a (by rw [anc_of_some hu, ← helems]; exact ha)) hcount).1

/-- A group that the name is in becomes its ancestor, and hands on its own ancestors. -/
theorem adopt_spec {a : Name} (hw : (st.uDataList w).isSome) (ha : Sound c w a)
    (hpass : ∀ i, Under c a i → Under c w i ∨ HasAll c i) :
    Extends c st (adopt st w a) ∧ insert a (st.anc a) ⊆ (adopt st w a).anc w := by
  obtain ⟨u, hu⟩ := Option.isSome_iff_exists.mp hw
  obtain ⟨helems, hcount⟩ := h.count_getD hu
  rw [adopt, hu]
  simp only
  generalize hs : ((u.ancestors.getD .empty).add a).unite (st.anc a) = s
  have hs' : s.elems = insert a u.anc ∪ st.anc a := by
    rw [← hs, USet.unite, elems_add, helems]
  have hsound : ∀ b ∈ s.elems, Sound c w b := by
    intro b hb
    rw [hs', Finset.mem_union, Finset.mem_insert] at hb
    rcases hb with (rfl | hb) | hb
    · exact ha
    · exact h.sound w b (by rw [anc_of_some hu]; exact hb)
    · obtain ⟨i, g, hg, hname, hin⟩ := h.sound a b hb
      exact ⟨i, g, hg, hname, hin.elim (hpass i) .inr⟩
  have hsub : u.anc ⊆ s.elems := by
    rw [hs']
    exact (Finset.subset_insert a _).trans Finset.subset_union_left
  obtain ⟨hext, hanc⟩ := h.setAncestors hu hsub hsound
    fun _ => by rw [← hs]; exact count_add hcount a
  refine ⟨hext, ?_⟩
  rw [hanc, hs']
  exact Finset.insert_subset (Finset.mem_union_left _ (Finset.mem_insert_self a _))
    Finset.subset_union_right

/-- A new record. -/
theorem Records.addEntry (hw : st.uDataList w = none) (hname : w ∈ c.names) :
    Extends c st { st.setUData w ⟨0, none, none⟩ with uDataPtrTb := st.uDataPtrTb ++ [w] } := by
  have hnot : w ∉ st.uDataPtrTb := by
    rw [h.known, hw]
    exact Bool.false_ne_true
  have hnone : c.entries.lookup w = none := by
    by_contra hne
    obtain ⟨p, hp, rfl⟩ := mem_map.mp (lookup_isSome.mp (Option.isSome_iff_ne_none.mpr hne))
    exact hnot (h.entries p hp)
  constructor
  · refine Grows.put ⟨[w], rfl⟩ (fun v hv => ?_) ?_
    · rw [hw] at hv
      cases hv
    · rw [St.anc, hw]
      exact Finset.empty_subset _
  · refine h.put (fun x => ?_) ?_ hname (fun _ => ?_)
      (fun a ha => absurd ha (Finset.notMem_empty a)) nofun h.alls
    · rw [mem_append, mem_singleton, or_comm]
    · simpa using h.nodup.concat hnot
    · rw [Config.flagsOf, hnone]
      rfl

/-- A user's new record gets the groups of all users. -/
theorem addUserData_spec (hsep : c.Separate) (hw : st.uDataList w = none)
    (hname : w ∈ c.names) :
    Extends c st (addUserData st w) ∧ ((addUserData st w).uDataList w).isSome := by
  have hext := h.addEntry hw hname
  have hknown : ((st.setUData w ⟨0, none, none⟩).uDataList w).isSome := by
    rw [setUData_self]
    rfl
  rw [addUserData]
  split_ifs with hothers
  · exact ⟨hext, hknown⟩
  · have hround : ∀ s, ∀ a ∈ st.alls, Records c s ∧ (s.uDataList w).isSome →
        (Records c (adopt s w a) ∧ ((adopt s w a).uDataList w).isSome) ∧ Grows s (adopt s w a) ∧
          True := by
      intro s a ha hs
      have hall := (mem_filter.mp ha).2
      obtain ⟨i, g, hg, hga, hisAll⟩ := h.alls a (of_decide_eq_true hall)
      have hspec := (adopt_spec hs.1 hs.2 ⟨i, g, hg, hga, .inr (.here hg hisAll)⟩ fun k hk =>
        .inr (Under.lift hsep (fun _ _ _ => HasAll.step) hg (hga ▸ hk) (.here hg hisAll))).1
      exact ⟨⟨hspec.records, hspec.known hs.2⟩, hspec.toGrows, trivial⟩
    have hfold := Loop.foldl_post (fun s => Records c s ∧ (s.uDataList w).isSome)
      (fun _ _ => True) Grows.refl Grows.trans (fun _ _ => trivial) hround ⟨hext.records, hknown⟩
    exact ⟨hext.trans ⟨hfold.2.1, hfold.1.1⟩, hfold.1.2⟩

theorem getUserData_spec (hsep : c.Separate) (hname : w ∈ c.names) :
    Extends c st (getUserData st w) ∧ ((getUserData st w).uDataList w).isSome := by
  rw [getUserData]
  split_ifs with hw
  · exact ⟨h.extends, hw⟩
  · exact addUserData_spec h hsep (Option.not_isSome_iff_eq_none.mp hw) hname

end

/-! ## Traversing a group -/

theorem nameOf_eq (hg : c.groups[i]? = some g) : c.nameOf i = g.group := by
  rw [Config.nameOf, hg]
  rfl

theorem group_mem_names (hg : c.groups[i]? = some g) : g.group ∈ c.names :=
  mem_append_left _ (mem_append_right _ (mem_groupNames hg))

theorem member_mem_names (hg : c.groups[i]? = some g) (hw : w ∈ g.members) : w ∈ c.names :=
  mem_append_right _ (mem_flatMap.mpr ⟨g, mem_of_getElem? hg, hw⟩)

/-- A name below a group gets the group and its ancestors. -/
theorem descend_spec (h : Records c st) (hsep : c.Separate) {k : Nat} (hg : c.groups[k]? = some g)
    (hname : w ∈ c.names) (hunder : Under c w k) :
    Extends c st (descend g.group st w) ∧
      insert g.group (st.anc g.group) ⊆ (descend g.group st w).anc w := by
  obtain ⟨hext, hknown⟩ := getUserData_spec h hsep hname
  obtain ⟨hext', hsub⟩ := adopt_spec hext.records hknown ⟨k, g, hg, rfl, .inl hunder⟩ fun i hi =>
    .inl (Under.lift hsep (fun _ _ _ => Under.step) hg hi hunder)
  exact ⟨hext.trans hext', (Finset.insert_subset_insert _ (hext.anc _)).trans hsub⟩

/-- Everything directly below a group gets what the group hands on. -/
theorem visitGroup_spec (h : Records c st) (hsep : c.Separate) {k : Nat}
    (hg : c.groups[k]? = some g) (hknown : (st.uDataList g.group).isSome) {r : Name}
    (hr : g.group = r ∨ r ∈ st.anc g.group) :
    Extends c st (visitGroup c st g) ∧ (∀ w ∈ g.members, r ∈ (visitGroup c st g).anc w) ∧
    ∀ s ∈ g.subs, r ∈ (visitGroup c st g).anc (c.nameOf s) := by
  have hext := checkuDataSet_spec h hknown
  have hkeep : ∀ {s s' : St}, Grows s s' → (g.group = r ∨ r ∈ s.anc g.group) →
      (g.group = r ∨ r ∈ s'.anc g.group) := fun hs hr => hr.imp_right fun hr => hs.anc _ hr
  -- One name below the group, wherever in the two loops it comes.
  have hround : ∀ (s : St) (w : Name), w ∈ c.names → Under c w k →
      Records c s ∧ (g.group = r ∨ r ∈ s.anc g.group) →
      (Records c (descend g.group s w) ∧ (g.group = r ∨ r ∈ (descend g.group s w).anc g.group)) ∧
      Grows s (descend g.group s w) ∧ r ∈ (descend g.group s w).anc w := by
    intro s w hname hunder hs
    obtain ⟨hext, hsub⟩ := descend_spec hs.1 hsep hg hname hunder
    refine ⟨⟨hext.records, hkeep hext.toGrows hs.2⟩, hext.toGrows, hsub ?_⟩
    rcases hs.2 with hr | hr
    · exact hr ▸ Finset.mem_insert_self _ _
    · exact Finset.mem_insert_of_mem hr
  have hmono : ∀ {s s' : St} {w : Name}, Grows s s' → r ∈ s.anc w → r ∈ s'.anc w :=
    fun hs hw => hs.anc _ hw
  have hmembers := Loop.foldl_post (fun s => Records c s ∧ (g.group = r ∨ r ∈ s.anc g.group))
    (fun s w => r ∈ s.anc w) Grows.refl Grows.trans hmono
    (fun s w hw => hround s w (member_mem_names hg hw) (.member hg hw))
    ⟨hext.records, hkeep hext.toGrows hr⟩
  have hsubs : ∀ w ∈ g.subs.map c.nameOf, w ∈ c.names ∧ Under c w k := by
    intro w hw
    obtain ⟨s, hs, rfl⟩ := mem_map.mp hw
    have hg' := List.getElem?_eq_getElem (c.acyclic k g hg s hs).1
    rw [nameOf_eq hg']
    exact ⟨group_mem_names hg', .sub hg hs hg' rfl⟩
  have hsubs' := Loop.foldl_post (fun s => Records c s ∧ (g.group = r ∨ r ∈ s.anc g.group))
    (fun s w => r ∈ s.anc w) Grows.refl Grows.trans hmono
    (fun s w hw => hround s w (hsubs w hw).1 (hsubs w hw).2) hmembers.1
  refine ⟨hext.trans ⟨hmembers.2.1.trans hsubs'.2.1, hsubs'.1.1⟩, fun w hw => ?_, fun s hs => ?_⟩
  · exact hsubs'.2.1.anc w (hmembers.2.2 w hw)
  · exact hsubs'.2.2 _ (mem_map_of_mem hs)

theorem isSome_of_mem_anc {a : Name} (h : a ∈ st.anc w) : (st.uDataList w).isSome := by
  by_contra hnone
  rw [St.anc, Option.not_isSome_iff_eq_none.mp hnone] at h
  exact absurd h (Finset.notMem_empty a)

/-- The groups of the stack that are done handed on the root, and their subgroups are on the
stack. -/
def HandedOn (c : Config) (r : Name) (st : St) (done stack : List Nat) : Prop :=
  ∀ i ∈ done, ∀ g, c.groups[i]? = some g →
    (∀ w ∈ g.members, r ∈ st.anc w) ∧ ∀ s ∈ g.subs, s ∈ stack

/-- When all groups of the stack are done, the users below any of them have the root. -/
theorem HandedOn.reached {r : Name} {all : List Nat} (h : HandedOn c r st all all) {x : Name}
    (hx : x ∉ c.groupNames) (hunder : Under c x i) (hi : i ∈ all) : r ∈ st.anc x := by
  induction hunder with
  | member hg hw => exact (h _ hi _ hg).1 x hw
  | sub _ _ hg' hw => exact absurd (hw ▸ mem_groupNames hg') hx
  | step hg hs _ ih => exact ih ((h _ hi _ hg).2 _ hs)

theorem traverseLoop_spec (hsep : c.Separate) (r : Name) (fuel : Nat) (done todo : List Nat)
    (h : Records c st) (hlt : ∀ i ∈ todo, i < c.groups.length)
    (hknown : ∀ i ∈ todo, (st.uDataList (c.nameOf i)).isSome)
    (hr : ∀ i ∈ todo, c.nameOf i = r ∨ r ∈ st.anc (c.nameOf i))
    (hdone : HandedOn c r st done (done ++ todo))
    (hstack : done.length + (todo.map c.paths).sum ≤ maxGroups)
    (hfuel : (todo.map c.paths).sum ≤ fuel) :
    Extends c st (traverseLoop c fuel done todo st) ∧ ∃ all,
      (∀ i ∈ done ++ todo, i ∈ all) ∧ HandedOn c r (traverseLoop c fuel done todo st) all all := by
  induction fuel generalizing st done todo with
  | zero =>
    have hlen := length_le_paths hlt
    obtain rfl : todo = [] := length_eq_zero_iff.mp (by omega)
    rw [append_nil] at hdone ⊢
    exact ⟨h.extends, done, fun i hi => hi, hdone⟩
  | succ fuel ih =>
    cases todo with
    | nil =>
      rw [append_nil] at hdone ⊢
      exact ⟨h.extends, done, fun i hi => hi, hdone⟩
    | cons i todo =>
      have hi := hlt i mem_cons_self
      obtain ⟨g, hg⟩ : ∃ g, c.groups[i]? = some g := ⟨_, List.getElem?_eq_getElem hi⟩
      have hsubsLt : ∀ s ∈ g.subs, s < c.groups.length := fun s hs => (c.acyclic i g hg s hs).1
      have htodoLt : ∀ j ∈ todo ++ g.subs, j < c.groups.length :=
        forall_mem_append.mpr ⟨fun j hj => hlt j (mem_cons_of_mem i hj), hsubsLt⟩
      have hpaths := paths_eq hg
      have hsum : ((i :: todo).map c.paths).sum =
          1 + ((todo ++ g.subs).map c.paths).sum := by
        rw [map_cons, sum_cons, hpaths, map_append, sum_append]
        omega
      have hroom : ¬ maxGroups < (done ++ i :: todo ++ g.subs).length := by
        have := length_le_paths htodoLt
        rw [length_append] at this
        simp only [length_append, length_cons]
        omega
      have hname := nameOf_eq hg
      obtain ⟨hext, hmembers, hsubs⟩ := visitGroup_spec h hsep hg
        (hname ▸ hknown i mem_cons_self) (hname ▸ hr i mem_cons_self)
      have hstack' : done ++ [i] ++ (todo ++ g.subs) = done ++ i :: todo ++ g.subs := by
        rw [append_assoc, append_assoc]
        rfl
      rw [traverseLoop, hg]
      simp only [if_neg hroom]
      have hroot : ∀ j ∈ todo ++ g.subs, c.nameOf j = r ∨
          r ∈ (visitGroup c st g).anc (c.nameOf j) := by
        refine forall_mem_append.mpr ⟨fun j hj => ?_, fun j hj => .inr (hsubs j hj)⟩
        exact (hr j (mem_cons_of_mem i hj)).imp_right fun hr => hext.anc _ hr
      have hrecords : ∀ j ∈ todo ++ g.subs,
          ((visitGroup c st g).uDataList (c.nameOf j)).isSome :=
        forall_mem_append.mpr ⟨fun j hj => hext.known (hknown j (.tail i hj)),
          fun j hj => isSome_of_mem_anc (hsubs j hj)⟩
      have hhanded : HandedOn c r (visitGroup c st g) (done ++ [i])
          (done ++ [i] ++ (todo ++ g.subs)) := by
        intro j hj g' hg'
        rw [hstack']
        rcases mem_append.mp hj with hj | hj
        · obtain ⟨hm, hs⟩ := hdone j hj g' hg'
          exact ⟨fun w hw => hext.anc w (hm w hw), fun s hs' =>
            mem_append_left _ (hs s hs')⟩
        · obtain rfl := mem_singleton.mp hj
          obtain rfl := Option.some.inj (hg.symm.trans hg')
          exact ⟨hmembers, fun s hs => mem_append_right _ hs⟩
      have hlen : (done ++ [i]).length + ((todo ++ g.subs).map c.paths).sum ≤ maxGroups := by
        rw [length_append, length_singleton]
        omega
      obtain ⟨hext', all, hall, hfinal⟩ := ih (done ++ [i]) (todo ++ g.subs) hext.records
        htodoLt hrecords hroot hhanded hlen (by omega)
      refine ⟨hext.trans hext', all, fun j hj => hall j ?_, hfinal⟩
      rw [hstack']
      exact mem_append_left _ hj

/-- The users below a group have it among their ancestors. -/
def Reached (c : Config) (st : St) (w : Name) : Prop :=
  ∀ i g, c.groups[i]? = some g → g.group = w → ∀ x, x ∉ c.groupNames → Under c x i → w ∈ st.anc x

theorem Reached.grows (hgrows : Grows st st') (h : Reached c st w) :
    Reached c st' w :=
  fun i g hg hw x hx hunder => hgrows.anc x (h i g hg hw x hx hunder)

/-- **The traversal of a group reaches everything below it.** -/
theorem traverse_spec (h : Records c st) (hsep : c.Separate) (hg : c.groups[i]? = some g)
    (hpaths : c.paths i ≤ maxGroups) :
    Extends c st (traverseGroupTree c st i) ∧ Reached c (traverseGroupTree c st i) g.group := by
  have hi := (List.getElem?_eq_some_iff.mp hg).1
  have hname := nameOf_eq hg
  obtain ⟨hext, hknown⟩ := getUserData_spec h hsep (group_mem_names hg)
  rw [← hname] at hext hknown
  obtain ⟨hext', all, hall, hhanded⟩ := traverseLoop_spec hsep g.group maxGroups [] [i]
    hext.records (fun j hj => mem_singleton.mp hj ▸ hi) (fun j hj => mem_singleton.mp hj ▸ hknown)
    (fun j hj => .inl (mem_singleton.mp hj ▸ hname))
    (fun j hj => absurd hj not_mem_nil) (by simpa using hpaths) (by simpa using hpaths)
  refine ⟨hext.trans hext', fun j g' hg' hname' x hx hunder => ?_⟩
  obtain rfl := index_eq hg' hg hname'
  exact hhanded.reached hx hunder (hall j mem_cons_self)

/-! ## The records of the groups -/

theorem flagged_iff (x : BitVec 32) : x &&& userGroup ≠ 0 ↔ x.getLsbD 0 = true := by
  show x &&& 1#32 ≠ 0 ↔ _
  rw [BitVec.and_one_eq_setWidth_ofBool_getLsbD]
  cases x.getLsbD 0 with
  | false => decide
  | true => decide

/-- The group has its record, marked as a group's. -/
def Recorded (st : St) (i : Nat) (g : GData) : Prop :=
  ∃ u, st.uDataList g.group = some u ∧ u.flags &&& userGroup ≠ 0 ∧ u.gData = some i

theorem Recorded.grows (h : Recorded st i g) (hgrows : Grows st st') :
    Recorded st' i g := by
  obtain ⟨u, hu, hflags, hdata⟩ := h
  obtain ⟨u', hu', hflags', hdata'⟩ := hgrows.record _ u hu
  exact ⟨u', hu', hflags' ▸ hflags, hdata'.trans hdata⟩

/-- The group has its record, and is known as a group of all users if it is one. -/
def Noted (st : St) (i : Nat) (g : GData) : Prop :=
  Recorded st i g ∧ (g.IsAll → g.group ∈ st.uGrpAllSet)

/-- What making the records of groups keeps. -/
structure Marks (c : Config) (st st' : St) : Prop where
  recorded : ∀ i g, c.groups[i]? = some g → Recorded st i g → Recorded st' i g
  alls : st.uGrpAllSet ⊆ st'.uGrpAllSet

theorem Marks.refl (c : Config) (st : St) : Marks c st st :=
  ⟨fun _ _ _ hr => hr, Finset.Subset.refl _⟩

theorem Marks.trans {st'' : St} (h : Marks c st st') (h' : Marks c st' st'') :
    Marks c st st'' :=
  ⟨fun i g hg hr => h'.recorded i g hg (h.recorded i g hg hr), h.alls.trans h'.alls⟩

/-- One group gets its record. -/
theorem groupCreate_spec (h : Records c st) (hsep : c.Separate) {p : GData × Nat}
    (hp : c.groups[p.2]? = some p.1) :
    Records c (groupCreate st p) ∧ Marks c st (groupCreate st p) ∧
      Noted (groupCreate st p) p.2 p.1 := by
  obtain ⟨⟨hgrows, hinv⟩, hknown⟩ := getUserData_spec h hsep (group_mem_names hp)
  generalize hst₁ : getUserData st p.1.group = st₁ at hinv hgrows hknown
  obtain ⟨u, hu⟩ := Option.isSome_iff_exists.mp hknown
  simp only [groupCreate, hst₁, hu]
  generalize hu' : ({ u with
    flags := if p.1.IsAll then u.flags ||| userGroup ||| userAll else u.flags ||| userGroup
    gData := some p.2 } : UData) = u'
  generalize halls :
    (if p.1.IsAll then insert p.1.group st₁.uGrpAllSet else st₁.uGrpAllSet) = alls
  have hflag : u'.flags &&& userGroup ≠ 0 := by
    rw [flagged_iff, ← hu']
    show (if p.1.IsAll then _ else _ : BitVec 32).getLsbD 0 = true
    split_ifs
    · simp [userGroup, userAll]
    · simp [userGroup]
  have hrec : Recorded { st₁.setUData p.1.group u' with uGrpAllSet := alls } p.2 p.1 :=
    ⟨u', setUData_self .., hflag, by rw [← hu']⟩
  refine ⟨?_, ⟨?_, ?_⟩, hrec, ?_⟩
  · refine hinv.put (hinv.mem_iff hknown) hinv.nodup (group_mem_names hp)
      (fun hnot => absurd (mem_groupNames hp) hnot) ?_ ?_ ?_
    · rw [← hu']
      exact fun a ha => hinv.sound _ a (anc_of_some hu ▸ ha)
    · rw [← hu']
      exact fun s => hinv.count _ u s hu
    · rw [← halls]
      intro a ha
      split_ifs at ha with hall
      · rcases Finset.mem_insert.mp ha with rfl | ha
        · exact ⟨p.2, p.1, hp, rfl, hall⟩
        · exact hinv.alls a ha
      · exact hinv.alls a ha
  · intro j g hg hj
    by_cases hname : g.group = p.1.group
    · obtain rfl := index_eq hg hp hname
      obtain rfl := Option.some.inj (hg.symm.trans hp)
      exact hrec
    · obtain ⟨v, hv, hflags, hdata⟩ := hj.grows hgrows
      refine ⟨v, ?_, hflags, hdata⟩
      show (st₁.setUData p.1.group u').uDataList g.group = some v
      rw [setUData_of_ne st₁ u' hname]
      exact hv
  · show st.uGrpAllSet ⊆ alls
    rw [← halls, ← hgrows.alls]
    split_ifs
    · exact Finset.subset_insert _ _
    · exact Finset.Subset.refl _
  · intro hall
    show p.1.group ∈ alls
    rw [← halls, if_pos hall]
    exact Finset.mem_insert_self _ _

theorem records_start (c : Config) : Records c (start c) := by
  have hanc : ∀ w, (start c).anc w = ∅ := by
    intro w
    show (((c.entries.lookup w).map _).map UData.anc).getD ∅ = ∅
    cases c.entries.lookup w with
    | none => rfl
    | some f => rfl
  constructor
  · intro w
    show w ∈ c.entries.map Prod.fst ↔ _
    rw [← lookup_isSome, start, Option.isSome_map]
  · exact c.entriesDistinct
  · exact fun w hw => mem_append_left _ (mem_append_left _ hw)
  · exact fun p hp => mem_map_of_mem hp
  · intro w u hu _
    change (c.entries.lookup w).map _ = some u at hu
    obtain ⟨f, hf, rfl⟩ := Option.map_eq_some_iff.mp hu
    rw [Config.flagsOf, hf]
    rfl
  · intro w a ha
    rw [hanc] at ha
    exact absurd ha (Finset.notMem_empty a)
  · intro w u s hu hs
    change (c.entries.lookup w).map _ = some u at hu
    obtain ⟨f, -, rfl⟩ := Option.map_eq_some_iff.mp hu
    cases hs
  · exact fun a ha => absurd ha (Finset.notMem_empty a)
  · rfl

/-- After `uDataGroupCreate` every group has its record, and the groups of all users are known. -/
theorem uDataGroupCreate_spec (hsep : c.Separate) (h : Records c st) :
    Records c (uDataGroupCreate c st) ∧
      ∀ i g, c.groups[i]? = some g → Noted (uDataGroupCreate c st) i g := by
  have hfold := Loop.foldl_post (l := c.groups.zipIdx) (f := groupCreate) (Records c)
    (fun s (p : GData × Nat) => c.groups[p.2]? = some p.1 → Noted s p.2 p.1) (Marks.refl c)
    Marks.trans
    (fun hm hpost hp => ⟨hm.recorded _ _ hp (hpost hp).1, fun h => hm.alls ((hpost hp).2 h)⟩)
    (fun s p hp hs => ?_) h
  · refine ⟨hfold.1, fun i g hg => ?_⟩
    exact hfold.2.2 (g, i) (mem_zipIdx_iff_getElem?.mpr hg) hg
  · obtain ⟨hinv, hmarks, hpost⟩ := groupCreate_spec hs hsep (mem_zipIdx_iff_getElem?.mp hp)
    exact ⟨hinv, hmarks, fun _ => hpost⟩

/-! ## The loops over the table -/

/-- The traversals a configuration needs fit their stack, and no group is left out. -/
structure Traversable (c : Config) : Prop where
  separate : c.Separate
  others : ∀ g ∈ c.groups, others.isPrefixOf g.group = false
  paths : ∀ i < c.groups.length, c.paths i ≤ maxGroups

theorem visitRecord_spec (hc : Traversable c) (h : Records c st)
    (hgroups : ∀ i g, c.groups[i]? = some g → Recorded st i g) (w : Name) :
    Extends c st (visitRecord c st w) ∧ Reached c (visitRecord c st w) w := by
  rw [visitRecord]
  by_cases hw : w ∈ c.groupNames
  · obtain ⟨g, hmem, rfl⟩ := mem_map.mp hw
    obtain ⟨i, hi⟩ := List.getElem?_of_mem hmem
    obtain ⟨u, hu, hflags, hdata⟩ := hgroups i g hi
    rw [hu]
    simp only [if_pos (And.intro hflags (hc.others g hmem)), hdata]
    exact traverse_spec h hc.separate hi (hc.paths i (List.getElem?_eq_some_iff.mp hi).1)
  · have hreached : Reached c st w := fun i g hg hgw => absurd (hgw ▸ mem_groupNames hg) hw
    cases hu : st.uDataList w with
    | none => exact ⟨h.extends, hreached⟩
    | some u =>
      have hflags : u.flags &&& userGroup = 0 := by
        rw [h.flags w u hu hw, Config.flagsOf]
        cases hlookup : c.entries.lookup w with
        | none => exact BitVec.zero_and
        | some f => exact c.unflagged (w, f) (mem_of_lookup hlookup)
      simp only [hflags, ne_eq, not_true_eq_false, false_and, if_false]
      exact ⟨h.extends, hreached⟩

theorem length_table_le (h : Records c st) : st.uDataPtrTb.length ≤ c.names.length :=
  (subperm_of_subset h.nodup fun w hw => h.names w hw).length_le

theorem firstLoop_spec (hc : Traversable c) (fuel i : Nat) (h : Records c st)
    (hgroups : ∀ i g, c.groups[i]? = some g → Recorded st i g)
    (hfuel : c.names.length ≤ i + fuel) :
    Extends c st (firstLoop c fuel i st) ∧
    ∀ k w, i ≤ k → (firstLoop c fuel i st).uDataPtrTb[k]? = some w →
      Reached c (firstLoop c fuel i st) w := by
  have hnone : ∀ k, i ≤ k → st.uDataPtrTb.length ≤ i → st.uDataPtrTb[k]? = none :=
    fun k hk hlen => List.getElem?_eq_none (hlen.trans hk)
  induction fuel generalizing i st with
  | zero =>
    have hlen := length_table_le h
    rw [firstLoop, if_neg (by omega)]
    refine ⟨h.extends, fun k w hk hw => ?_⟩
    rw [hnone k hk (by omega)] at hw
    cases hw
  | succ fuel ih =>
    rw [firstLoop]
    cases hi : st.uDataPtrTb[i]? with
    | none =>
      refine ⟨h.extends, fun k w hk hw => ?_⟩
      rw [hnone k hk (List.getElem?_eq_none_iff.mp hi)] at hw
      cases hw
    | some w =>
      obtain ⟨hext, hreached⟩ := visitRecord_spec hc h hgroups w
      obtain ⟨hext', hreached'⟩ := ih (i + 1) hext.records
        (fun j g hg => (hgroups j g hg).grows hext.toGrows) (by omega)
        fun k hk hlen => List.getElem?_eq_none (hlen.trans hk)
      refine ⟨hext.trans hext', fun k x hk hx => ?_⟩
      rcases Nat.lt_or_eq_of_le hk with hlt | rfl
      · exact hreached' k x hlt hx
      · obtain ⟨l, hl⟩ := (hext.trans hext').table
        have hi' : (firstLoop c fuel (i + 1) (visitRecord c st w)).uDataPtrTb[i]? = some w := by
          rw [hl, List.getElem?_append_left (List.getElem?_eq_some_iff.mp hi).1]
          exact hi
        obtain rfl := Option.some.inj (hi'.symm.trans hx)
        exact hreached.grows hext'.toGrows

theorem tested_iff (flags : BitVec 32) :
    ((if flags = 0 then 1 else 0 : BitVec 32) &&& userGroup ≠ 0) ↔ flags = 0 := by
  split_ifs with h
  · exact ⟨fun _ => h, fun _ => by decide⟩
  · exact ⟨fun hne => absurd (by decide) hne, fun hz => absurd hz h⟩

/-- A group of all users is added to a set, if there is one. -/
theorem addAncestor_spec (h : Records c st) {a : Name} (ha : Sound c w a) :
    Extends c st (addAncestor w st a) ∧ (addAncestor w st a).uDataPtrTb = st.uDataPtrTb ∧
    ((st.anc w).Nonempty → a ∈ (addAncestor w st a).anc w) := by
  rw [addAncestor]
  cases hu : st.uDataList w with
  | none =>
    refine ⟨h.extends, rfl, fun hne => ?_⟩
    rw [St.anc, hu] at hne
    exact absurd hne Finset.not_nonempty_empty
  | some u =>
    have hanc := anc_of_some hu
    cases hs : u.ancestors with
    | none =>
      have hsame : { u with ancestors := none } = u := by rw [← hs]
      have hst : st.setUData w u = st := by
        rw [St.setUData, ← hu, Function.update_eq_self]
      have hempty : u.anc = ∅ := by
        rw [UData.anc, hs]
        rfl
      simp only [hs, Option.map_none]
      rw [hsame, hst]
      refine ⟨h.extends, rfl, fun hne => ?_⟩
      rw [hanc, hempty] at hne
      exact absurd hne Finset.not_nonempty_empty
    | some s =>
      have helems : u.anc = s.elems := by
        rw [UData.anc, hs]
        rfl
      have hsound : ∀ b ∈ (s.add a).elems, Sound c w b := by
        intro b hb
        rw [elems_add, Finset.mem_insert] at hb
        rcases hb with rfl | hb
        · exact ha
        · exact h.sound w b (by rw [hanc, helems]; exact hb)
      have hsub : u.anc ⊆ (s.add a).elems := by
        rw [elems_add, helems]
        exact Finset.subset_insert a _
      obtain ⟨hext, hnew⟩ := h.setAncestors hu hsub hsound
        fun _ => count_add (h.count w u s hu hs) a
      simp only [hs, Option.map_some]
      refine ⟨hext, rfl, fun _ => ?_⟩
      rw [hnew, elems_add]
      exact Finset.mem_insert_self a _

/-- A user without flags that had a set in `st` has the groups of all users. -/
def Given (c : Config) (st st' : St) (w : Name) : Prop :=
  w ∉ c.groupNames → c.flagsOf w = 0 → (st.anc w).Nonempty → ∀ a ∈ st.alls, a ∈ st'.anc w

/-- The groups of all users are added to the set that a user without flags already has. -/
theorem giveAlls_spec (h : Records c st) (w : Name) :
    Extends c st (giveAlls st w) ∧ (giveAlls st w).uDataPtrTb = st.uDataPtrTb ∧
      Given c st (giveAlls st w) w := by
  rw [giveAlls]
  cases hu : st.uDataList w with
  | none =>
    refine ⟨h.extends, rfl, fun _ _ hne => ?_⟩
    rw [St.anc, hu] at hne
    exact absurd hne Finset.not_nonempty_empty
  | some u =>
    simp only [tested_iff]
    by_cases hflags : u.flags = 0
    · have hround : ∀ s, ∀ a ∈ st.alls,
          Records c s ∧ s.uDataPtrTb = st.uDataPtrTb ∧ st.anc w ⊆ s.anc w →
          (Records c (addAncestor w s a) ∧ (addAncestor w s a).uDataPtrTb = st.uDataPtrTb ∧
            st.anc w ⊆ (addAncestor w s a).anc w) ∧
          Grows s (addAncestor w s a) ∧
          ((st.anc w).Nonempty → a ∈ (addAncestor w s a).anc w) := by
        intro s a ha ⟨hs, htable, hsub⟩
        obtain ⟨i, g, hg, hga, hall⟩ := h.alls a (of_decide_eq_true (mem_filter.mp ha).2)
        obtain ⟨⟨hgrows, hinv⟩, htable', hmem⟩ :=
          addAncestor_spec hs (w := w) ⟨i, g, hg, hga, .inr (.here hg hall)⟩
        exact ⟨⟨hinv, htable'.trans htable, hsub.trans (hgrows.anc w)⟩, hgrows,
          fun hne => hmem (hne.mono hsub)⟩
      have hmono : ∀ {s s' : St} {a : Name}, Grows s s' →
          ((st.anc w).Nonempty → a ∈ s.anc w) → (st.anc w).Nonempty → a ∈ s'.anc w :=
        fun hs ha hne => hs.anc w (ha hne)
      have hfold := Loop.foldl_post
        (fun s => Records c s ∧ s.uDataPtrTb = st.uDataPtrTb ∧ st.anc w ⊆ s.anc w)
        (fun (s : St) (a : Name) => (st.anc w).Nonempty → a ∈ s.anc w)
        Grows.refl Grows.trans hmono hround ⟨h, rfl, Finset.Subset.refl _⟩
      rw [if_pos hflags]
      exact ⟨⟨hfold.2.1, hfold.1.1⟩, hfold.1.2.1, fun _ _ hne a ha => hfold.2.2 a ha hne⟩
    · rw [if_neg hflags]
      refine ⟨h.extends, rfl, fun hw hzero => ?_⟩
      exact absurd ((h.flags w u hu hw).trans hzero) hflags

/-- The second loop of `setuDataCreate`. -/
theorem secondLoop_spec (h : Records c st) :
    Extends c st (st.uDataPtrTb.foldl giveAlls st) ∧
    ∀ w ∈ st.uDataPtrTb, Given c st (st.uDataPtrTb.foldl giveAlls st) w := by
  have hround : ∀ s, ∀ w ∈ st.uDataPtrTb, Extends c st s ∧ s.alls = st.alls →
      (Extends c st (giveAlls s w) ∧ (giveAlls s w).alls = st.alls) ∧
      Grows s (giveAlls s w) ∧ Given c st (giveAlls s w) w := by
    intro s w _ ⟨hs, halls⟩
    obtain ⟨hext, htable, hpost⟩ := giveAlls_spec hs.records w
    refine ⟨⟨hs.trans hext, ?_⟩, hext.toGrows, fun hw hzero hne a ha => ?_⟩
    · rw [St.alls, htable, hext.alls, ← halls, St.alls]
    · exact hpost hw hzero (hne.mono (hs.anc w)) a (halls ▸ ha)
  have hmono : ∀ {s s' : St} {w : Name}, Grows s s' → Given c st s w → Given c st s' w :=
    fun hs hpost hw hzero hne a ha => hs.anc _ (hpost hw hzero hne a ha)
  have hfold := Loop.foldl_post (fun s => Extends c st s ∧ s.alls = st.alls)
    (Given c st) Grows.refl Grows.trans hmono hround ⟨h.extends, rfl⟩
  exact ⟨hfold.1.1, hfold.2.2⟩

end Steps

/-! ## Agreement -/

/-- The groups of all users reach every user: there are none, or none of them is in another group
and every user of the configuration has no flags and is a member of some group. -/
def AllsReach (c : Config) : Prop :=
  (∀ g ∈ c.groups, ¬ g.IsAll) ∨
  (∀ g ∈ c.groups, ∀ s ∈ g.subs, ∀ g' ∈ c.groups[s]?, ¬ g'.IsAll) ∧
    ∀ p ∈ c.entries, p.1 ∉ c.groupNames → p.1 ≠ defaultUser →
      p.2 = 0 ∧ ∃ g ∈ c.groups, p.1 ∈ g.members

section Agree

variable {c : Config}

/-- A group of all users that is in no other group is only found in itself. -/
theorem HasAll.isAll (hnest : ∀ g ∈ c.groups, ∀ s ∈ g.subs, ∀ g' ∈ c.groups[s]?, ¬ g'.IsAll)
    (h : HasAll c i) : ∃ g, c.groups[i]? = some g ∧ g.IsAll := by
  induction h with
  | here hg hall => exact ⟨_, hg, hall⟩
  | step hg hs _ ih =>
    obtain ⟨g', hg', hall⟩ := ih
    exact absurd hall (hnest _ (mem_of_getElem? hg) _ hs g' hg')

theorem HasAll.exists_isAll (h : HasAll c i) : ∃ g ∈ c.groups, g.IsAll := by
  induction h with
  | here hg hall => exact ⟨_, mem_of_getElem? hg, hall⟩
  | step _ _ _ ih => exact ih

/-- The walk over a set returns all of its elements. -/
theorem Records.walked_eq (h : Records c st) (w : Name) : st.walked w = st.anc w := by
  rw [St.walked, St.anc]
  cases hu : st.uDataList w with
  | none => rfl
  | some u =>
    simp only [Option.bind_some, Option.map_some, Option.getD_some, UData.anc]
    cases hs : u.ancestors with
    | none => rfl
    | some s =>
      simp only [Option.map_some, Option.getD_some, USet.walked]
      split_ifs with hcount
      · by_contra hne
        have hnonempty : s.elems.Nonempty := Finset.nonempty_iff_ne_empty.mpr (Ne.symm hne)
        exact h.count w u s hu hs hnonempty hcount
      · rfl

/-- A user whose record is known and whose name comes from the configuration or a group. -/
theorem member_of_known (h : Records c st) (hw : w ∈ st.uDataPtrTb)
    (hnot : w ∉ c.groupNames) (hdef : w ≠ defaultUser)
    (hentries : ∀ p ∈ c.entries, p.1 ∉ c.groupNames → p.1 ≠ defaultUser →
      p.2 = 0 ∧ ∃ g ∈ c.groups, p.1 ∈ g.members) :
    c.flagsOf w = 0 ∧ ∃ g ∈ c.groups, w ∈ g.members := by
  cases hlookup : c.entries.lookup w with
  | some f =>
    obtain ⟨hzero, hg⟩ := hentries (w, f) (mem_of_lookup hlookup) hnot hdef
    exact ⟨by rw [Config.flagsOf, hlookup]; exact hzero, hg⟩
  | none =>
    refine ⟨by rw [Config.flagsOf, hlookup]; rfl, ?_⟩
    have hname := h.names w hw
    rw [Config.names, mem_append, mem_append] at hname
    rcases hname with (hname | hname) | hname
    · exact absurd (lookup_isSome.mpr hname) (by simp [hlookup])
    · exact absurd hname hnot
    · exact mem_flatMap.mp hname

end Agree

end UserGroups

open UserGroups

/-- **The ancestors of every user are the groups that `gMember` finds it in**, if users do not have
the names of groups, no group's name begins with `others`, the traversal of every group fits its
stack, and the groups of all users reach every user. -/
theorem ancestors_agree (c : Config) (htrav : Traversable c) (halls : AllsReach c) : Agrees c := by
  obtain ⟨hrec, hgroups⟩ := uDataGroupCreate_spec htrav.separate (records_start c)
  generalize hst₁ : uDataGroupCreate c (start c) = st₁ at hrec hgroups
  obtain ⟨⟨hgrows₂, hrec₂⟩, hreached⟩ := firstLoop_spec htrav c.names.length 0 hrec
    (fun i g hg => (hgroups i g hg).1) (by omega)
  generalize hst₂ : firstLoop c c.names.length 0 st₁ = st₂ at hrec₂ hgrows₂ hreached
  obtain ⟨⟨hgrows₃, hrec₃⟩, hgiven⟩ := secondLoop_spec hrec₂
  generalize hst₃ : st₂.uDataPtrTb.foldl giveAlls st₂ = st₃ at hrec₃ hgrows₃ hgiven
  have hfinal : final c = st₃ := by
    rw [final, setuDataCreate, hst₁, hst₂, hst₃]
  rw [Agrees, hfinal]
  refine ⟨hrec₃.fault, fun w hw hnot hdef i g hg => ?_⟩
  rw [hrec₃.walked_eq, gMember_iff hnot]
  -- Everything below a group is reached when the group's record is visited.
  have hunder : ∀ j g', c.groups[j]? = some g' → Under c w j → g'.group ∈ st₂.anc w := by
    intro j g' hg' hu
    obtain ⟨u, hu', -⟩ := (hgroups j g' hg').1.grows hgrows₂
    have hknown : g'.group ∈ st₂.uDataPtrTb := (hrec₂.known _).mpr (by rw [hu']; rfl)
    obtain ⟨k, hk⟩ := List.getElem?_of_mem hknown
    exact hreached k g'.group (Nat.zero_le k) hk j g' hg' rfl w hnot hu
  constructor
  · intro ha
    obtain ⟨j, g', hg', hname, hin⟩ := hrec₃.sound w _ ha
    obtain rfl := index_eq hg' hg hname
    exact hin
  · rintro (hu | hall)
    · exact hgrows₃.anc w (hunder i g hg hu)
    · rcases halls with hno | ⟨hnest, hentries⟩
      · obtain ⟨g', hmem, hg'⟩ := hall.exists_isAll
        exact absurd hg' (hno g' hmem)
      · obtain ⟨g', hg', hisAll⟩ := hall.isAll hnest
        obtain rfl := Option.some.inj (hg.symm.trans hg')
        obtain ⟨hzero, g', hmem, hw'⟩ := member_of_known hrec₃ hw hnot hdef hentries
        obtain ⟨j, hj⟩ := List.getElem?_of_mem hmem
        have hne : (st₂.anc w).Nonempty := ⟨_, hunder j g' hj (.member hj hw')⟩
        have hw₂ : w ∈ st₂.uDataPtrTb := (hrec₂.known w).mpr (isSome_of_mem_anc hne.choose_spec)
        refine hgiven w hw₂ hnot hzero hne g.group (mem_filter.mpr ⟨?_, ?_⟩)
        · obtain ⟨u, hu', -⟩ := (hgroups i g hg).1.grows hgrows₂
          exact (hrec₂.known _).mpr (by rw [hu']; rfl)
        · rw [hgrows₂.alls]
          exact decide_eq_true ((hgroups i g hg).2 hisAll)

/-- A group, one around it, and a group of all users. -/
def nestedGroups : List GData := [⟨"eng".toList, ["bob".toList, "carl".toList], []⟩,
  ⟨"dept".toList, ["dora".toList], [0]⟩, ⟨"everyone".toList, [], []⟩]

def nestedConfig : Config where
  groups := nestedGroups
  entries := [("bob".toList, 0), ("dora".toList, 0), (defaultUser, userUpdate)]
  rank i := i
  acyclic i g hg := (by decide +kernel : ∀ i < 3, ∀ g ∈ nestedGroups[i]?, ∀ s ∈ g.subs,
      s < 3 ∧ s < i) i (List.getElem?_eq_some_iff.mp hg).1 g hg
  distinct := by decide +kernel
  entriesDistinct := by decide +kernel
  unflagged := by decide +kernel

theorem nested_config_agrees :
    Traversable nestedConfig ∧ AllsReach nestedConfig ∧ Agrees nestedConfig := by
  have htrav : Traversable nestedConfig :=
    ⟨by unfold Config.Separate; decide +kernel, by decide +kernel, by decide +kernel⟩
  have halls : AllsReach nestedConfig := .inr ⟨by decide +kernel, by decide +kernel⟩
  exact ⟨htrav, halls, ancestors_agree nestedConfig htrav halls⟩

/-- A user of the configuration that is in no group, and a group of all users. -/
def loneConfig : Config where
  groups := [⟨"everyone".toList, [], []⟩]
  entries := [("alice".toList, 0), (defaultUser, userUpdate)]
  rank _ := 0
  acyclic i g hg := (by decide +kernel : ∀ i < 1, ∀ g ∈ ([⟨"everyone".toList, [], []⟩] :
      List GData)[i]?, ∀ s ∈ g.subs, s < 1 ∧ 0 < 0) i (List.getElem?_eq_some_iff.mp hg).1 g hg
  distinct := by decide +kernel
  entriesDistinct := by decide +kernel
  unflagged := by decide +kernel

/-- The user belongs to the group of all users, but has no set of ancestors to which the second loop
could add it. -/
theorem all_group_missed :
    (final loneConfig).fault = false ∧ "alice".toList ∈ (final loneConfig).uDataPtrTb ∧
    gMember loneConfig "alice".toList 0 = true ∧
    (final loneConfig).walked "alice".toList = ∅ ∧ ¬ Agrees loneConfig := by
  have hknown : "alice".toList ∈ (final loneConfig).uDataPtrTb := by decide +kernel
  have hmember : gMember loneConfig "alice".toList 0 = true := by decide +kernel
  have hwalked : (final loneConfig).walked "alice".toList = ∅ := by decide +kernel
  refine ⟨by decide +kernel, hknown, hmember, hwalked, fun hagrees => ?_⟩
  have hiff := hagrees.2 _ hknown (by decide +kernel) (by decide +kernel) 0 _ rfl
  rw [hwalked] at hiff
  exact absurd (hiff.mpr hmember) (Finset.notMem_empty _)

end Volclava
