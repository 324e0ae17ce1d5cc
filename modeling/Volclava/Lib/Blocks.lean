import Volclava.Lib.Ring

/-!
# Blocks of a circular buffer

The elements of a queue own blocks of a buffer, each with a position and a length, one behind the
other. In a second variant neighbours may share a block, which is given back with the last of them.

- `Blocks.Chain`: blocks without gaps from one position to another.
- `Blocks.Shared`: the same, where neighbours may share a block.
- `Blocks.slots_disjoint`: blocks that do not overlap have no slot in common.
-/

namespace Blocks

open List

variable {α : Type*} {pos len : α → Nat} {a b N : Nat} {x y : α} {xs : List α}

/-- Blocks that follow each other from `a` to `b`. -/
def Chain (pos len : α → Nat) : Nat → List α → Nat → Prop
  | a, [], b => a = b
  | a, x :: xs, b => pos x = a ∧ Chain pos len (a + len x) xs b

section

variable (h : Chain pos len a xs b)
include h

theorem Chain.le : a ≤ b := by
  induction xs generalizing a with
  | nil => exact le_of_eq h
  | cons x xs ih => exact (Nat.le_add_right _ _).trans (ih h.2)

theorem Chain.bounds (hx : x ∈ xs) : a ≤ pos x ∧ pos x + len x ≤ b := by
  induction xs generalizing a with
  | nil => cases hx
  | cons y xs ih =>
    rcases mem_cons.mp hx with rfl | hx
    · have := h.2.le
      have := h.1
      omega
    · have := ih h.2 hx
      omega

theorem Chain.snoc (hx : pos x = b) :
    Chain pos len a (xs ++ [x]) (b + len x) := by
  induction xs generalizing a with
  | nil =>
    obtain rfl : a = b := h
    exact ⟨hx, rfl⟩
  | cons y xs ih => exact ⟨h.1, ih h.2⟩

/-- Earlier blocks end before later ones begin. -/
theorem Chain.pairwise :
    xs.Pairwise fun x y => pos x + len x ≤ pos y := by
  induction xs generalizing a with
  | nil => exact List.Pairwise.nil
  | cons x xs ih =>
    refine List.Pairwise.cons (fun y hy => ?_) (ih h.2)
    rw [h.1]
    exact (h.2.bounds hy).1

end

/-- Blocks that follow each other from `a` to `b`, where an element may share the block of the one
before it. -/
def Shared (pos len : α → Nat) : Nat → List α → Nat → Prop
  | a, [], b => a = b
  | a, [x], b => pos x = a ∧ a + len x = b
  | a, x :: y :: ys, b =>
    pos x = a ∧ ((pos y = a ∧ len y = len x ∧ Shared pos len a (y :: ys) b) ∨
      Shared pos len (a + len x) (y :: ys) b)

theorem Shared.head (h : Shared pos len a (x :: xs) b) : pos x = a := by
  cases xs with
  | nil => exact h.1
  | cons y ys => exact h.1

section

variable (h : Shared pos len a xs b)
include h

theorem Shared.bounds (hx : x ∈ xs) : a ≤ pos x ∧ pos x + len x ≤ b := by
  induction xs generalizing a x with
  | nil => cases hx
  | cons y xs ih =>
    cases xs with
    | nil =>
      obtain rfl := mem_singleton.mp hx
      have := h.1
      have := h.2
      omega
    | cons z zs =>
      obtain ⟨hy, hrest⟩ := h
      rcases hrest with ⟨hz, hlen, hrest⟩ | hrest
      · rcases mem_cons.mp hx with rfl | hx
        · have := ih hrest (mem_cons_self (a := z))
          omega
        · exact ih hrest hx
      · rcases mem_cons.mp hx with rfl | hx
        · have := ih hrest (mem_cons_self (a := z))
          omega
        · have := ih hrest hx
          omega

theorem Shared.le : a ≤ b := by
  cases xs with
  | nil => exact le_of_eq h
  | cons x xs =>
    have := h.bounds (mem_cons_self ..)
    omega

/-- Two elements have the same block, or that of the earlier one ends before the other. -/
theorem Shared.pairwise :
    xs.Pairwise fun x y => (pos x = pos y ∧ len x = len y) ∨ pos x + len x ≤ pos y := by
  induction xs generalizing a with
  | nil => exact List.Pairwise.nil
  | cons x xs ih =>
    cases xs with
    | nil => exact pairwise_singleton _ _
    | cons y ys =>
      obtain ⟨hx, hrest⟩ := h
      rcases hrest with ⟨hy, hlen, hrest⟩ | hrest
      · -- What holds of the neighbour with the same block holds of this one.
        have hpair := ih hrest
        refine List.Pairwise.cons (fun z hz => ?_) hpair
        rcases mem_cons.mp hz with rfl | hz
        · exact .inl ⟨hx.trans hy.symm, hlen.symm⟩
        · have := (pairwise_cons.mp hpair).1 z hz
          omega
      · refine List.Pairwise.cons (fun z hz => .inr ?_) (ih hrest)
        rw [hx]
        exact (hrest.bounds hz).1

/-- A new block at the end. -/
theorem Shared.snoc (hx : pos x = b) :
    Shared pos len a (xs ++ [x]) (b + len x) := by
  induction xs generalizing a with
  | nil =>
    obtain rfl : a = b := h
    exact ⟨hx, rfl⟩
  | cons y ys ih =>
    cases ys with
    | nil =>
      obtain ⟨hy, rfl⟩ := h
      exact ⟨hy, .inr ⟨hx, rfl⟩⟩
    | cons z zs =>
      obtain ⟨hy, hrest⟩ := h
      rcases hrest with ⟨hz, hlen, hrest⟩ | hrest
      · exact ⟨hy, .inl ⟨hz, hlen, ih hrest⟩⟩
      · exact ⟨hy, .inr (ih hrest)⟩

/-- One more element for the last block. -/
theorem Shared.snoc_share (hlast : xs.getLast? = some y)
    (hpos : pos x = pos y) (hlen : len x = len y) : Shared pos len a (xs ++ [x]) b := by
  induction xs generalizing a with
  | nil => cases hlast
  | cons w ws ih =>
    cases ws with
    | nil =>
      obtain rfl : w = y := Option.some.inj hlast
      obtain ⟨hw, hb⟩ := h
      exact ⟨hw, .inl ⟨hpos.trans hw, hlen, hpos.trans hw, by rw [hlen]; exact hb⟩⟩
    | cons z zs =>
      have hlast' : (z :: zs).getLast? = some y := by
        rw [List.getLast?_cons_cons] at hlast
        exact hlast
      obtain ⟨hw, hrest⟩ := h
      rcases hrest with ⟨hz, hlz, hrest⟩ | hrest
      · exact ⟨hw, .inl ⟨hz, hlz, ih hrest hlast'⟩⟩
      · exact ⟨hw, .inr (ih hrest hlast')⟩

end

/-- Blocks in a window of the buffer's size that do not overlap have no slot in common. -/
theorem slots_disjoint {p q m n i j : Nat} (hpq : p + m ≤ q) (hwin : q + n ≤ p + N) (hi : i < m)
    (hj : j < n) : (p % N + i) % N ≠ (q % N + j) % N := by
  rw [Nat.mod_add_mod, Nat.mod_add_mod]
  exact Ring.slot_ne (by omega) (by omega)

end Blocks
