import Mathlib

/-!
# Circular doubly linked lists

Every cell of a memory has a forward and a backward link. From a head, the backward links run
through the cells of its list and return to the head; the forward links run the other way round.
A memory holds a family of such lists, no two of which share a cell.

- `Path.congr`, `Family.congr`: what is not written stays linked.
- `Family.init`: a new head.
- `Family.insert`: a cell is linked behind a head.
- `Family.remove`: a cell is taken out of its list.
- `Family.bw_head`, `Family.bw_of_mem`: where the backward links lead.
-/

namespace Circular

open List

variable {α : Type*}

/-- The links of all cells. -/
structure Links (α : Type*) where
  fw : α → α
  bw : α → α

section Write

variable [DecidableEq α]

def Links.setFw (L : Links α) (a v : α) : Links α := { L with fw := Function.update L.fw a v }

def Links.setBw (L : Links α) (a v : α) : Links α := { L with bw := Function.update L.bw a v }

variable (L : Links α)

@[simp] theorem Links.setFw_fw (a v x : α) :
    (L.setFw a v).fw x = if x = a then v else L.fw x := Function.update_apply ..

@[simp] theorem Links.setFw_bw (a v : α) : (L.setFw a v).bw = L.bw := rfl

@[simp] theorem Links.setBw_bw (a v x : α) :
    (L.setBw a v).bw x = if x = a then v else L.bw x := Function.update_apply ..

@[simp] theorem Links.setBw_fw (a v : α) : (L.setBw a v).fw = L.fw := rfl

end Write

/-! ## Paths -/

def Link (L : Links α) (a b : α) : Prop := L.bw a = b ∧ L.fw b = a

/-- The backward links lead from `a` through the cells of the list to `b`. -/
def Path (L : Links α) : α → List α → α → Prop
  | a, [], b => Link L a b
  | a, x :: xs, b => Link L a x ∧ Path L x xs b

variable {L : Links α} {xs : List α}

theorem Path.bw_nil {a b : α} (h : Path L a [] b) : L.bw a = b := h.1

theorem Path.bw_cons {a x b : α} (h : Path L a (x :: xs) b) :
    L.bw a = x := h.1.1

theorem path_append {a y b : α} {xs ys : List α} :
    Path L a (xs ++ y :: ys) b ↔ Path L a xs y ∧ Path L y ys b := by
  induction xs generalizing a with
  | nil => exact Iff.rfl
  | cons x xs ih =>
    rw [cons_append, Path, Path, ih]
    exact and_assoc.symm

/-- A path whose links are not written. -/
theorem Path.congr {L L' : Links α} {a b : α} (h : Path L a xs b)
    (hbw : ∀ x ∈ a :: xs, L'.bw x = L.bw x) (hfw : ∀ x ∈ xs ++ [b], L'.fw x = L.fw x) :
    Path L' a xs b := by
  induction xs generalizing a with
  | nil =>
    refine ⟨?_, ?_⟩
    · rw [hbw a mem_cons_self]
      exact h.1
    · rw [hfw b mem_cons_self]
      exact h.2
  | cons x xs ih =>
    obtain ⟨⟨hab, hba⟩, hpath⟩ := h
    refine ⟨⟨?_, ?_⟩, ih hpath (fun y hy => hbw y (mem_cons_of_mem a hy)) fun y hy =>
      hfw y (mem_cons_of_mem x hy)⟩
    · rw [hbw a mem_cons_self]
      exact hab
    · rw [hfw x mem_cons_self]
      exact hba

/-- The forward link of a path's end leads to its last cell. -/
theorem Path.fw_mem {a b : α} (h : Path L a xs b) :
    L.fw b ∈ a :: xs := by
  induction xs generalizing a with
  | nil =>
    rw [h.2]
    exact mem_cons_self
  | cons x xs ih => exact mem_cons_of_mem a (ih h.2)

theorem Path.bw_fw {a b : α} (h : Path L a xs b) :
    L.bw (L.fw b) = b := by
  induction xs generalizing a with
  | nil =>
    rw [h.2]
    exact h.1
  | cons x xs ih => exact ih h.2

/-- A path is led to another end by changing the links between its last cell and the end. -/
theorem Path.redirect {L L' : Links α} {a e b : α} (h : Path L a xs e) (hnd : (a :: xs).Nodup)
    (hlast : L'.bw (L.fw e) = b) (hend : L'.fw b = L.fw e)
    (hbw : ∀ x ∈ a :: xs, x ≠ L.fw e → L'.bw x = L.bw x) (hfw : ∀ x ∈ xs, L'.fw x = L.fw x) :
    Path L' a xs b := by
  induction xs generalizing a with
  | nil =>
    have ha : L.fw e = a := h.2
    rw [ha] at hlast hend
    exact ⟨hlast, hend⟩
  | cons x xs ih =>
    obtain ⟨hlink, hpath⟩ := h
    have hne : a ≠ L.fw e := by
      intro ha
      exact (nodup_cons.mp hnd).1 (ha ▸ hpath.fw_mem)
    refine ⟨⟨?_, ?_⟩, ?_⟩
    · rw [hbw a mem_cons_self hne]
      exact hlink.1
    · rw [hfw x mem_cons_self]
      exact hlink.2
    · exact ih hpath (nodup_cons.mp hnd).2
        (fun y hy => hbw y (mem_cons_of_mem a hy)) fun y hy =>
        hfw y (mem_cons_of_mem x hy)

/-! ## One list -/

/-- The backward links run from the head through the list and back to the head. -/
structure Ring (L : Links α) (h : α) (xs : List α) : Prop where
  path : Path L h xs h
  nodup : (h :: xs).Nodup

variable {h : α}

theorem Ring.congr {L L' : Links α} (hr : Ring L h xs)
    (hbw : ∀ x ∈ h :: xs, L'.bw x = L.bw x) (hfw : ∀ x ∈ h :: xs, L'.fw x = L.fw x) :
    Ring L' h xs := by
  obtain ⟨hhead, htail⟩ := forall_mem_cons.mp hfw
  exact ⟨hr.path.congr hbw (forall_mem_append.mpr
    ⟨htail, forall_mem_singleton.mpr hhead⟩), hr.nodup⟩

theorem Ring.bw_head_mem (hr : Ring L h xs) :
    L.bw h ∈ h :: xs := by
  cases xs with
  | nil =>
    rw [hr.path.bw_nil]
    exact mem_cons_self
  | cons x xs =>
    rw [hr.path.bw_cons]
    exact mem_cons_of_mem h mem_cons_self

/-- The links of a cell lead to cells of its list. -/
theorem Ring.links_mem {e : α} (hr : Ring L h xs) (he : e ∈ xs) :
    L.bw e ∈ h :: xs ∧ L.fw e ∈ h :: xs := by
  obtain ⟨ys, zs, rfl⟩ := append_of_mem he
  obtain ⟨hpre, hpost⟩ := path_append.mp hr.path
  constructor
  · cases zs with
    | nil =>
      rw [hpost.bw_nil]
      exact mem_cons_self
    | cons z zs =>
      rw [hpost.bw_cons]
      simp
  · have := hpre.fw_mem
    simp only [mem_cons, mem_append] at this ⊢
    tauto

/-- What linking the cell `e` behind the head `d` writes. -/
structure Inserted [DecidableEq α] (L L' : Links α) (e d : α) : Prop where
  bw : ∀ x, L'.bw x = if x = d then e else if x = e then L.bw d else L.bw x
  fw : ∀ x, L'.fw x = if x = L.bw d then e else if x = e then d else L.fw x

/-- What taking out the cell `e` writes. -/
structure Removed [DecidableEq α] (L L' : Links α) (e : α) : Prop where
  bw : ∀ x, L'.bw x = if x = L.fw e then L.bw e else L.bw x
  fw : ∀ x, L'.fw x = if x = L.bw e then L.fw e else L.fw x

section Change

variable [DecidableEq α] {L L' : Links α}

theorem Ring.insert {e d : α} {xs : List α} (hr : Ring L d xs) (he : e ∉ d :: xs)
    (hins : Inserted L L' e d) : Ring L' d (e :: xs) := by
  have hed : e ≠ d := fun h => he (h ▸ mem_cons_self)
  have hhead : L'.bw d = e := by rw [hins.bw, if_pos rfl]
  have hbwe : L'.bw e = L.bw d := by rw [hins.bw, if_neg hed, if_pos rfl]
  have hfwe : L'.fw e = d := by
    have hne : e ≠ L.bw d := fun h => he (h ▸ hr.bw_head_mem)
    rw [hins.fw, if_neg hne, if_pos rfl]
  have hfwb : L'.fw (L.bw d) = e := by rw [hins.fw, if_pos rfl]
  have hnd : (d :: e :: xs).Nodup := by
    refine nodup_cons.mpr ⟨?_, nodup_cons.mpr ⟨fun h => he (mem_cons_of_mem d h),
      (nodup_cons.mp hr.nodup).2⟩⟩
    intro hd
    rcases mem_cons.mp hd with hd | hd
    · exact hed hd.symm
    · exact (nodup_cons.mp hr.nodup).1 hd
  refine ⟨⟨⟨hhead, hfwe⟩, ?_⟩, hnd⟩
  have hpath := hr.path
  cases xs with
  | nil =>
    rw [hpath.bw_nil] at hbwe hfwb
    exact ⟨hbwe, hfwb⟩
  | cons y ys =>
    rw [hpath.bw_cons] at hbwe hfwb
    have hdnd := nodup_cons.mp hr.nodup
    have hynd := nodup_cons.mp hdnd.2
    refine ⟨⟨hbwe, hfwb⟩, hpath.2.congr (fun x hx => ?_) fun x hx => ?_⟩
    · have hxd : x ≠ d := fun h => hdnd.1 (h ▸ hx)
      have hxe : x ≠ e := fun h => he (mem_cons_of_mem d (h ▸ hx))
      rw [hins.bw, if_neg hxd, if_neg hxe]
    · have hxy : x ≠ L.bw d := by
        rw [hpath.bw_cons]
        rintro rfl
        rcases mem_append.mp hx with hx | hx
        · exact hynd.1 hx
        · exact hdnd.1 (mem_singleton.mp hx ▸ mem_cons_self)
      have hxe : x ≠ e := by
        rintro rfl
        rcases mem_append.mp hx with hx | hx
        · exact he (mem_cons_of_mem d (mem_cons_of_mem y hx))
        · exact hed (mem_singleton.mp hx)
      rw [hins.fw, if_neg hxy, if_neg hxe]

theorem Ring.remove {e : α} {ys zs : List α} (hr : Ring L h (ys ++ e :: zs))
    (hrem : Removed L L' e) : Ring L' h (ys ++ zs) := by
  obtain ⟨hpre, hpost⟩ := path_append.mp hr.path
  have hnd := hr.nodup
  have hsub : (h :: (ys ++ zs)).Sublist (h :: (ys ++ e :: zs)) :=
    (List.Sublist.append_left (sublist_cons_self e zs) ys).cons_cons h
  have hfwe := hpre.fw_mem
  rw [nodup_cons, mem_append, mem_cons, nodup_append, nodup_cons] at hnd
  obtain ⟨hh, hys, ⟨hez, hzs⟩, hdis⟩ := hnd
  have hhys : (h :: ys).Nodup := nodup_cons.mpr ⟨fun hm => hh (.inl hm), hys⟩
  have hlast : L'.bw (L.fw e) = L.bw e := by rw [hrem.bw, if_pos rfl]
  have hend : L'.fw (L.bw e) = L.fw e := by rw [hrem.fw, if_pos rfl]
  have hbw : ∀ x ∈ h :: ys, x ≠ L.fw e → L'.bw x = L.bw x := fun x _ hx => by
    rw [hrem.bw, if_neg hx]
  refine ⟨?_, hr.nodup.sublist hsub⟩
  cases zs with
  | nil =>
    rw [hpost.bw_nil] at hlast hend
    rw [append_nil]
    refine hpre.redirect hhys hlast hend hbw fun x hx => ?_
    have hne : x ≠ L.bw e := by
      rw [hpost.bw_nil]
      rintro rfl
      exact hh (.inl hx)
    rw [hrem.fw, if_neg hne]
  | cons z zs =>
    rw [hpost.bw_cons] at hlast hend
    refine path_append.mpr ⟨hpre.redirect hhys hlast hend hbw fun x hx => ?_,
      hpost.2.congr (fun x hx => ?_) fun x hx => ?_⟩
    · have hne : x ≠ L.bw e := by
        rw [hpost.bw_cons]
        exact hdis x hx z (mem_cons_of_mem e mem_cons_self)
      rw [hrem.fw, if_neg hne]
    · have hne : x ≠ L.fw e := by
        rintro rfl
        rcases mem_cons.mp hfwe with hx' | hx'
        · exact hh (.inr (.inr (hx' ▸ hx)))
        · exact hdis _ hx' _ (mem_cons_of_mem e hx) rfl
      rw [hrem.bw, if_neg hne]
    · have hne : x ≠ L.bw e := by
        rw [hpost.bw_cons]
        rintro rfl
        rcases mem_append.mp hx with hx | hx
        · exact (nodup_cons.mp hzs).1 hx
        · exact hh (.inr (.inr (mem_singleton.mp hx ▸ mem_cons_self)))
      rw [hrem.fw, if_neg hne]

end Change

/-! ## Families -/

/-- The lists of the heads in `S`; no two share a cell, and no head is a cell of a list. -/
structure Family (L : Links α) (S : Set α) (c : α → List α) : Prop where
  ring : ∀ h ∈ S, Ring L h (c h)
  head : ∀ h ∈ S, ∀ x ∈ c h, x ∉ S
  disjoint : ∀ h ∈ S, ∀ k ∈ S, ∀ x ∈ c h, x ∈ c k → h = k

namespace Family

variable {L L' : Links α} {S T : Set α} {c : α → List α}

section

variable (hf : Family L S c)
include hf

theorem mono (hT : T ⊆ S) : Family L T c where
  ring h hh := hf.ring h (hT hh)
  head h hh x hx hxT := hf.head h (hT hh) x hx (hT hxT)
  disjoint h hh k hk := hf.disjoint h (hT hh) k (hT hk)

theorem nodup (hh : h ∈ S) : (c h).Nodup :=
  (nodup_cons.mp (hf.ring h hh).nodup).2

theorem of_eq {c' : α → List α} (hc : ∀ h ∈ S, c' h = c h) :
    Family L S c' where
  ring h hh := hc h hh ▸ hf.ring h hh
  head h hh x hx := hf.head h hh x (hc h hh ▸ hx)
  disjoint h hh k hk x hx hx' := hf.disjoint h hh k hk x (hc h hh ▸ hx) (hc k hk ▸ hx')

theorem bw_head (hh : h ∈ S) :
    L.bw h = ((c h).head?).getD h := by
  have hpath := (hf.ring h hh).path
  cases hc : c h with
  | nil =>
    rw [hc] at hpath
    exact hpath.bw_nil
  | cons x xs =>
    rw [hc] at hpath
    exact hpath.bw_cons

/-- The backward link of a cell leads to the next one, that of the last to the head. -/
theorem bw_of_append {x : α} {ys zs : List α} (hh : h ∈ S)
    (hc : c h = ys ++ x :: zs) : L.bw x = (zs.head?).getD h := by
  have hpath := (hf.ring h hh).path
  rw [hc] at hpath
  have hpost := (path_append.mp hpath).2
  cases zs with
  | nil => exact hpost.bw_nil
  | cons z zs => exact hpost.bw_cons

theorem bw_head_eq_self (hh : h ∈ S) : h = L.bw h ↔ c h = [] := by
  rw [hf.bw_head hh]
  cases hc : c h with
  | nil => exact ⟨fun _ => rfl, fun _ => rfl⟩
  | cons x xs =>
    refine ⟨fun heq => ?_, nofun⟩
    have hx : x ∈ c h := hc ▸ mem_cons_self
    have hhx : h = x := heq
    exact absurd hh (hhx ▸ hf.head h hh x hx)

theorem bw_ne_self {x : α} (hh : h ∈ S) (hx : x ∈ c h) : L.bw x ≠ x := by
  obtain ⟨ys, zs, hc⟩ := append_of_mem hx
  have hnd := (hf.ring h hh).nodup
  rw [hf.bw_of_append hh hc]
  rw [hc, nodup_cons, nodup_append, nodup_cons] at hnd
  cases zs with
  | nil =>
    rintro rfl
    exact hnd.1 (by simp)
  | cons z zs =>
    rintro rfl
    exact hnd.2.2.1.1 mem_cons_self

theorem fw_ne_self {x : α} (hh : h ∈ S) (hx : x ∈ c h) : L.fw x ≠ x := by
  intro heq
  obtain ⟨ys, zs, hc⟩ := append_of_mem hx
  have hpath := (hf.ring h hh).path
  rw [hc] at hpath
  have hback := (path_append.mp hpath).1.bw_fw
  rw [heq] at hback
  exact hf.bw_ne_self hh hx hback

/-- Two lists share neither cells nor heads. -/
theorem apart {k x : α} (hh : h ∈ S) (hk : k ∈ S) (hkh : k ≠ h)
    (hx : x ∈ k :: c k) : x ∉ h :: c h := by
  intro hxh
  rcases mem_cons.mp hx with rfl | hx
  · rcases mem_cons.mp hxh with rfl | hxh
    · exact hkh rfl
    · exact hf.head h hh _ hxh hk
  · rcases mem_cons.mp hxh with rfl | hxh
    · exact hf.head k hk _ hx hh
    · exact hkh (hf.disjoint k hk h hh _ hx hxh)

end

/-- A cell that is neither a head nor on a list. -/
theorem ne_of_free (hh : e ∉ S) (hfree : ∀ k ∈ S, e ∉ c k) {k x : α} (hk : k ∈ S)
    (hx : x ∈ k :: c k) : x ≠ e := by
  rintro rfl
  rcases mem_cons.mp hx with rfl | hx
  · exact hh hk
  · exact hfree k hk hx

section Change

variable [DecidableEq α]

/-- A cell that no list has becomes a head with an empty list. -/
theorem init (hf : Family L S c) (hh : h ∉ S) (hfree : ∀ k ∈ S, h ∉ c k) (hc : c h = []) :
    Family ((L.setBw h h).setFw h h) (insert h S) c := by
  have hring : ∀ k ∈ S, Ring ((L.setBw h h).setFw h h) k (c k) := by
    intro k hk
    refine (hf.ring k hk).congr (fun x hx => ?_) fun x hx => ?_
    · simp [ne_of_free hh hfree hk hx]
    · simp [ne_of_free hh hfree hk hx]
  constructor
  · rintro k (rfl | hk)
    · rw [hc]
      exact ⟨⟨by simp, by simp⟩, by simp⟩
    · exact hring k hk
  · rintro k (rfl | hk) x hx
    · rw [hc] at hx
      cases hx
    · rintro (rfl | hxS)
      · exact hfree k hk hx
      · exact hf.head k hk x hx hxS
  · rintro k (rfl | hk) k' (rfl | hk') x hx hx'
    · rfl
    · rw [hc] at hx
      cases hx
    · rw [hc] at hx'
      cases hx'
    · exact hf.disjoint k hk k' hk' x hx hx'

theorem mem_update_cons {e d k x : α} :
    x ∈ Function.update c d (e :: c d) k ↔ (k = d ∧ x = e) ∨ x ∈ c k := by
  rw [Function.update_apply]
  split_ifs with hkd
  · simp [hkd]
  · simp [hkd]

/-- **Linking a free cell behind a head.** -/
theorem insert (hf : Family L S c) {e d : α} (hd : d ∈ S) (heS : e ∉ S)
    (hfree : ∀ k ∈ S, e ∉ c k) (hins : Inserted L L' e d) :
    Family L' S (Function.update c d (e :: c d)) := by
  constructor
  · intro k hk
    rw [Function.update_apply]
    split_ifs with hkd
    · subst hkd
      exact (hf.ring k hk).insert (fun he => ne_of_free heS hfree hk he rfl) hins
    · -- What is written is the new cell, or lies on the list of the head.
      refine (hf.ring k hk).congr (fun x hx => ?_) fun x hx => ?_
      · have hxd : x ≠ d := fun h => hf.apart hd hk hkd hx (h ▸ mem_cons_self)
        rw [hins.bw, if_neg hxd, if_neg (ne_of_free heS hfree hk hx)]
      · have hxd : x ≠ L.bw d := fun h => hf.apart hd hk hkd hx (h ▸ (hf.ring d hd).bw_head_mem)
        rw [hins.fw, if_neg hxd, if_neg (ne_of_free heS hfree hk hx)]
  · intro k hk x hx
    rcases mem_update_cons.mp hx with ⟨-, rfl⟩ | hx
    · exact heS
    · exact hf.head k hk x hx
  · intro k hk k' hk' x hx hx'
    rcases mem_update_cons.mp hx with ⟨hkd, hxe⟩ | hxk
    · rcases mem_update_cons.mp hx' with ⟨hkd', -⟩ | hxk'
      · rw [hkd, hkd']
      · exact absurd (hxe ▸ hxk') (hfree k' hk')
    · rcases mem_update_cons.mp hx' with ⟨-, hxe⟩ | hxk'
      · exact absurd (hxe ▸ hxk) (hfree k hk)
      · exact hf.disjoint k hk k' hk' x hxk hxk'

theorem mem_update_erase (hf : Family L S c) {e k x : α} (hh : h ∈ S) (he : e ∈ c h)
    (hk : k ∈ S) : x ∈ Function.update c h ((c h).erase e) k ↔ x ≠ e ∧ x ∈ c k := by
  rw [Function.update_apply]
  split_ifs with hkh
  · rw [(hf.nodup hh).mem_erase_iff, hkh]
  · refine ⟨fun hx => ⟨?_, hx⟩, And.right⟩
    rintro rfl
    exact hkh (hf.disjoint k hk h hh x hx he)

/-- **Taking a cell out of its list.** -/
theorem remove (hf : Family L S c) {e : α} (hh : h ∈ S) (he : e ∈ c h)
    (hrem : Removed L L' e) : Family L' S (Function.update c h ((c h).erase e)) := by
  obtain ⟨hbwe, hfwe⟩ := (hf.ring h hh).links_mem he
  constructor
  · intro k hk
    rw [Function.update_apply]
    split_ifs with hkh
    · subst hkh
      obtain ⟨ys, zs, hnot, hc, herase⟩ := exists_erase_eq he
      rw [herase]
      have hring := hf.ring k hk
      rw [hc] at hring
      exact hring.remove hrem
    · -- The written cells are the neighbours, which lie on the same list.
      refine (hf.ring k hk).congr (fun x hx => ?_) fun x hx => ?_
      · have hne : x ≠ L.fw e := fun h => hf.apart hh hk hkh hx (h ▸ hfwe)
        rw [hrem.bw, if_neg hne]
      · have hne : x ≠ L.bw e := fun h => hf.apart hh hk hkh hx (h ▸ hbwe)
        rw [hrem.fw, if_neg hne]
  · intro k hk x hx
    exact hf.head k hk x ((hf.mem_update_erase hh he hk).mp hx).2
  · intro k hk k' hk' x hx hx'
    exact hf.disjoint k hk k' hk' x ((hf.mem_update_erase hh he hk).mp hx).2
      ((hf.mem_update_erase hh he hk').mp hx').2

end Change

end Family

end Circular
