import Mathlib

/-!
# Circular buffers

A circular buffer of `N` slots is described by positions that only grow: position `p` is kept in
slot `p % N`. The positions from `head` up to `tail` are in use, fewer than `N` of them.

- `Ring.slot_ne`: positions in use have different slots.
- `Ring.count_eq`, `Ring.eq_iff`, `Ring.next_eq_iff`: the tests for how many, none and all.
- `Ring.Holds`: the slots from a position on hold the elements of a list.
- `Ring.put`, `Ring.fetch`: a list copied in and out in one or two pieces.
-/

namespace Ring

open List

variable {α : Type*} {N p q : Nat}

/-! ## Indices -/

/-- Positions less than `N` apart have different slots. -/
theorem slot_ne (h : p < q) (hN : q < p + N) : p % N ≠ q % N := by
  intro heq
  have hdvd : N ∣ q - p := (Nat.modEq_iff_dvd' h.le).mp heq
  have := Nat.le_of_dvd (by omega) hdvd
  omega

theorem eq_iff (h : p ≤ q) (hN : q < p + N) : p % N = q % N ↔ p = q := by
  refine ⟨fun heq => ?_, fun heq => by rw [heq]⟩
  by_contra hne
  exact slot_ne (by omega) hN heq

/-- The next position would meet the first one exactly when all slots but one are in use. -/
theorem next_eq_iff (h : p ≤ q) (hN : q < p + N) : (q % N + 1) % N = p % N ↔ q + 1 = p + N := by
  rw [Nat.mod_add_mod]
  refine ⟨fun heq => ?_, fun heq => by rw [heq, Nat.add_mod_right]⟩
  by_contra hne
  exact slot_ne (by omega : p < q + 1) (by omega) heq.symm

/-- The number of positions in use, computed from the slots. -/
theorem count_eq (h : p ≤ q) (hN : q < p + N) : (q % N + N - p % N) % N = q - p := by
  have hlt := Nat.mod_lt p (by omega : 0 < N)
  have hdiv := Nat.div_add_mod p N
  obtain ⟨d, rfl⟩ := Nat.exists_eq_add_of_le h
  have hsum : p + d + (N - p % N) = d + N + N * (p / N) := by omega
  rw [Nat.add_sub_assoc hlt.le, Nat.mod_add_mod, hsum, Nat.add_mul_mod_self_left,
    Nat.add_mod_right, Nat.mod_eq_of_lt (by omega), Nat.add_sub_cancel_left]

/-! ## Contents -/

/-- The slots from position `p` on hold the elements of a list. -/
def Holds (N : Nat) (mem : Nat → α) (p : Nat) (xs : List α) : Prop :=
  ∀ i x, xs[i]? = some x → mem ((p + i) % N) = x

variable {mem : Nat → α} {xs : List α} {x : α}

theorem holds_nil : Holds N mem p [] := by
  intro i x hx
  simp at hx

theorem Holds.head (h : Holds N mem p (x :: xs)) : mem (p % N) = x := h 0 x rfl

theorem Holds.tail (h : Holds N mem p (x :: xs)) : Holds N mem (p + 1) xs := by
  intro i y hy
  rw [Nat.add_assoc, Nat.add_comm 1]
  exact h (i + 1) y hy

/-- A slot that is not in use may be changed. -/
theorem Holds.update (h : Holds N mem p xs) {j : Nat} (hj : ∀ i < xs.length, (p + i) % N ≠ j)
    (y : α) : Holds N (Function.update mem j y) p xs := by
  intro i z hz
  have hi : i < xs.length := (List.getElem?_eq_some_iff.mp hz).1
  rw [Function.update_of_ne (hj i hi)]
  exact h i z hz

/-- A slot behind those in use may be changed. -/
theorem Holds.update_behind (h : Holds N mem p xs) (hq : p + xs.length ≤ q) (hN : q < p + N)
    (y : α) : Holds N (Function.update mem (q % N) y) p xs :=
  h.update (fun i hi => slot_ne (by omega) (by omega)) y

/-- The slot before those in use may be changed. -/
theorem Holds.update_before (h : Holds N mem (p + 1) xs) (hN : xs.length < N) (y : α) :
    Holds N (Function.update mem (p % N) y) (p + 1) xs :=
  h.update (fun i hi => (slot_ne (by omega) (by omega)).symm) y

/-- The slot behind those in use takes one more element. -/
theorem Holds.snoc (h : Holds N mem p xs) (hx : mem ((p + xs.length) % N) = x) :
    Holds N mem p (xs ++ [x]) := by
  intro i y hy
  rcases Nat.lt_or_ge i xs.length with hi | hi
  · rw [List.getElem?_append_left hi] at hy
    exact h i y hy
  · rw [List.getElem?_append_right hi, List.getElem?_singleton] at hy
    split_ifs at hy with h0
    · obtain rfl : i = xs.length := by omega
      rw [hx]
      exact Option.some.inj hy

/-! ## Blocks -/

/-- Copies a list to the slots from `o` on. -/
def memcpy (mem : Nat → α) (o : Nat) (xs : List α) : Nat → α :=
  fun i => if o ≤ i then (xs[i - o]?).getD (mem i) else mem i

theorem memcpy_of_lt {o i : Nat} (h : i < o) (xs : List α) : memcpy mem o xs i = mem i :=
  if_neg (not_le.mpr h)

theorem memcpy_of_ge {o i : Nat} (h : o + xs.length ≤ i) : memcpy mem o xs i = mem i := by
  rw [memcpy, if_pos (by omega), List.getElem?_eq_none (by omega)]
  rfl

theorem memcpy_add {o i : Nat} (h : xs[i]? = some x) : memcpy mem o xs (o + i) = x := by
  rw [memcpy, if_pos (by omega), Nat.add_sub_cancel_left, h]
  rfl

/-- Copies a list to the slots from `o` on, and from `0` on when it reaches the end. -/
def put (N : Nat) (mem : Nat → α) (o : Nat) (xs : List α) : Nat → α :=
  if N ≤ o + xs.length then memcpy (memcpy mem o (xs.take (N - o))) 0 (xs.drop (N - o))
  else memcpy mem o xs

/-- The slots of the positions that are copied to. -/
theorem put_slot (hN : 0 < N) (hlen : xs.length ≤ N) {i : Nat} (hx : xs[i]? = some x) :
    put N mem (p % N) xs ((p + i) % N) = x := by
  have hi : i < xs.length := (List.getElem?_eq_some_iff.mp hx).1
  have ho := Nat.mod_lt p hN
  have hslot : (p + i) % N = (p % N + i) % N := (Nat.mod_add_mod p N i).symm
  rw [hslot]
  generalize p % N = o at ho ⊢
  rw [put]
  by_cases hwrap : o + i < N
  · rw [Nat.mod_eq_of_lt hwrap]
    split_ifs with hend
    · rw [memcpy_of_ge (by rw [length_drop]; omega), memcpy_add]
      rw [List.getElem?_take_of_lt (by omega)]
      exact hx
    · exact memcpy_add hx
  · have hback : (o + i) % N = 0 + (o + i - N) := by
      rw [Nat.zero_add, Nat.mod_eq_sub_mod (by omega), Nat.mod_eq_of_lt (by omega)]
    rw [hback, if_pos (by omega), memcpy_add]
    rw [List.getElem?_drop, show N - o + (o + i - N) = i by omega]
    exact hx

/-- The slots of other positions stay as they are. -/
theorem put_of_ne (hN : 0 < N) {j : Nat} (hj : j < N)
    (hne : ∀ i < xs.length, (p + i) % N ≠ j) : put N mem (p % N) xs j = mem j := by
  have ho := Nat.mod_lt p hN
  have hne' : ∀ i < xs.length, (p % N + i) % N ≠ j := fun i hi => by
    rw [Nat.mod_add_mod]
    exact hne i hi
  generalize p % N = o at ho hne' ⊢
  rw [put]
  by_cases hlow : j < o
  · -- Behind the wrap, if at all.
    have hafter : N ≤ o + xs.length → xs.length - (N - o) ≤ j := by
      intro hend
      by_contra hlt
      refine hne' (N - o + j) (by omega) ?_
      rw [show o + (N - o + j) = j + N by omega, Nat.add_mod_right, Nat.mod_eq_of_lt hj]
    split_ifs with hend
    · rw [memcpy_of_ge (by rw [length_drop, Nat.zero_add]; exact hafter hend),
        memcpy_of_lt hlow]
    · exact memcpy_of_lt hlow xs
  · have hbeyond : o + xs.length ≤ j := by
      by_contra hlt
      refine hne' (j - o) (by omega) ?_
      rw [show o + (j - o) = j by omega, Nat.mod_eq_of_lt hj]
    rw [if_neg (by omega)]
    exact memcpy_of_ge hbeyond

/-- What was copied can be found. -/
theorem holds_put (hN : 0 < N) (hlen : xs.length ≤ N) : Holds N (put N mem (p % N) xs) p xs :=
  fun _ _ hx => put_slot hN hlen hx

/-- What stands before is not overwritten as long as there is room. -/
theorem Holds.put {ys : List α} (h : Holds N mem p ys) (hN : 0 < N) (hq : p + ys.length ≤ q)
    (hroom : q + xs.length ≤ p + N) : Holds N (put N mem (q % N) xs) p ys := by
  intro i y hy
  have hi : i < ys.length := (List.getElem?_eq_some_iff.mp hy).1
  rw [put_of_ne hN (Nat.mod_lt _ hN)]
  · exact h i y hy
  · exact fun k hk => (slot_ne (by omega) (by omega)).symm

/-- Copies `n` elements out, from slot `o` on and from `0` on when they reach beyond the end. -/
def fetch (N : Nat) (mem : Nat → α) (o n : Nat) : List α :=
  if N < o + n then
    (List.range (N - o)).map (fun i => mem (o + i)) ++ (List.range (n - (N - o))).map mem
  else (List.range n).map fun i => mem (o + i)

/-- What the slots hold is what is copied out. -/
theorem Holds.fetch (h : Holds N mem p xs) (hN : 0 < N) (hlen : xs.length ≤ N) :
    fetch N mem (p % N) xs.length = xs := by
  have ho := Nat.mod_lt p hN
  have hslot : ∀ i, (p + i) % N = (p % N + i) % N := fun i => (Nat.mod_add_mod p N i).symm
  have hval : ∀ i (hi : i < xs.length), mem ((p % N + i) % N) = xs[i] := fun i hi => by
    rw [← hslot]
    exact h i _ (List.getElem?_eq_getElem hi)
  generalize p % N = o at ho hval ⊢
  rw [Ring.fetch]
  split_ifs with hwrap
  · refine ext_getElem ?_ fun i h1 h2 => ?_
    · simp only [length_append, length_map, length_range]
      omega
    · rw [getElem_append]
      split_ifs with hi
      · simp only [length_map, length_range] at hi
        simp only [getElem_map, getElem_range]
        rw [← hval i h2, Nat.mod_eq_of_lt (by omega)]
      · simp only [length_map, length_range] at hi
        simp only [getElem_map, getElem_range, length_map, length_range]
        rw [← hval i h2, Nat.mod_eq_sub_mod (by omega), Nat.mod_eq_of_lt (by omega)]
        congr 1
        omega
  · refine ext_getElem (by simp) fun i h1 h2 => ?_
    simp only [getElem_map, getElem_range]
    rw [← hval i h2, Nat.mod_eq_of_lt (by omega)]

end Ring
