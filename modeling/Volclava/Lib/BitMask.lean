import Mathlib

/-!
# Sets of numbers as arrays of words

An array of `w`-bit words holds the number `i` when bit `i % w` of word `i / w` is set. The
word-wise operations on such arrays are the operations on the sets they hold, and the bits can be
counted word by word.

- `mem_members`: the numbers an array holds.
- `members_orBit`, `members_andNotBit`: one bit is set or cleared.
- `members_zeros`, `members_append_zeros`: zero words hold nothing.
- `bit_wordwise_drop`, `bit_wordwise_zeros`: an operation on the words acts on the bits.
- `card_members`: counting word by word.
-/

namespace BitMask

open List

variable {w : Nat}

/-- A word of the array; behind its end there is nothing. -/
def word (ws : List (BitVec w)) (k : Nat) : BitVec w := ws.getD k 0#w

def bit (ws : List (BitVec w)) (i : Nat) : Bool := (word ws (i / w)).getLsbD (i % w)

/-- The numbers that the array holds. -/
def members (ws : List (BitVec w)) : Finset Nat :=
  (Finset.range (w * ws.length)).filter fun i => bit ws i = true

variable {ws : List (BitVec w)} {i : Nat} {f : BitVec w → BitVec w → BitVec w}

theorem word_of_le {k : Nat} (h : ws.length ≤ k) : word ws k = 0#w := by
  rw [word, getD_eq_default _ _ h]

theorem word_set {k : Nat} (h : k < ws.length) (v : BitVec w) (j : Nat) :
    word (ws.set k v) j = if j = k then v else word ws j := by
  rw [word, word, getD_eq_getElem?_getD, getD_eq_getElem?_getD, List.getElem?_set]
  by_cases hj : j = k
  · subst hj
    simp [h]
  · rw [if_neg (Ne.symm hj), if_neg hj]

theorem pos_of_lt_mul (h : i < w * ws.length) : 0 < w :=
  Nat.pos_of_mul_pos_right (Nat.lt_of_le_of_lt (Nat.zero_le i) h)

theorem lt_of_bit (h : bit ws i = true) : i < w * ws.length := by
  by_contra hle
  rw [bit] at h
  rcases Nat.eq_zero_or_pos w with rfl | hw
  · rw [BitVec.getLsbD_of_ge _ _ (Nat.zero_le _)] at h
    cases h
  · have hlen : ws.length ≤ i / w := by
      rw [Nat.le_div_iff_mul_le hw, Nat.mul_comm]
      exact not_lt.mp hle
    rw [word_of_le hlen, BitVec.getLsbD_zero] at h
    cases h

@[simp] theorem mem_members :
    i ∈ members ws ↔ bit ws i = true := by
  rw [members, Finset.mem_filter, Finset.mem_range]
  exact ⟨And.right, fun h => ⟨lt_of_bit h, h⟩⟩

/-! ## One bit -/

/-- Setting a bit. -/
def orBit (ws : List (BitVec w)) (i : Nat) : List (BitVec w) :=
  ws.set (i / w) (word ws (i / w) ||| 1#w <<< (i % w))

/-- Clearing a bit. -/
def andNotBit (ws : List (BitVec w)) (i : Nat) : List (BitVec w) :=
  ws.set (i / w) (word ws (i / w) &&& ~~~(1#w <<< (i % w)))

@[simp] theorem length_orBit (ws : List (BitVec w)) (i : Nat) : (orBit ws i).length = ws.length :=
  length_set

@[simp] theorem length_andNotBit (ws : List (BitVec w)) (i : Nat) :
    (andNotBit ws i).length = ws.length := length_set

theorem getLsbD_one_shiftLeft {k : Nat} (hk : k < w) (j : Nat) :
    (1#w <<< k).getLsbD j = decide (j = k) := by
  rw [← BitVec.twoPow_eq, BitVec.getLsbD_twoPow]
  simp [hk, eq_comm]

section

variable (h : i < w * ws.length)
include h

theorem bit_set (v : BitVec w) (j : Nat) :
    bit (ws.set (i / w) v) j = if j / w = i / w then v.getLsbD (j % w) else bit ws j := by
  rw [bit, word_set (Nat.div_lt_of_lt_mul h), bit]
  split_ifs
  · rfl
  · rfl

/-- The bit that stands for `i` in its word. -/
theorem getLsbD_bit {j : Nat} (hdiv : j / w = i / w) :
    (1#w <<< (i % w)).getLsbD (j % w) = decide (j = i) := by
  rw [getLsbD_one_shiftLeft (Nat.mod_lt _ (pos_of_lt_mul h)), decide_eq_decide,
    Nat.ext_div_mod_iff w j i]
  exact ⟨fun hj => ⟨hdiv, hj⟩, And.right⟩

theorem bit_orBit (j : Nat) :
    bit (orBit ws i) j = (decide (j = i) || bit ws j) := by
  rw [orBit, bit_set h]
  split_ifs with hdiv
  · rw [BitVec.getLsbD_or, getLsbD_bit h hdiv, bit, hdiv, Bool.or_comm]
  · have hne : ¬ j = i := fun hj => hdiv (hj ▸ rfl)
    simp [hne]

theorem bit_andNotBit (j : Nat) :
    bit (andNotBit ws i) j = (!decide (j = i) && bit ws j) := by
  have hmod : j % w < w := Nat.mod_lt _ (pos_of_lt_mul h)
  rw [andNotBit, bit_set h]
  split_ifs with hdiv
  · rw [BitVec.getLsbD_and, BitVec.getLsbD_not, getLsbD_bit h hdiv, bit, hdiv, Bool.and_comm,
      decide_eq_true hmod, Bool.true_and]
  · have hne : ¬ j = i := fun hj => hdiv (hj ▸ rfl)
    simp [hne]

theorem members_orBit :
    members (orBit ws i) = insert i (members ws) := by
  ext j
  simp [bit_orBit h]

theorem members_andNotBit :
    members (andNotBit ws i) = (members ws).erase i := by
  ext j
  simp [bit_andNotBit h]

end

/-! ## Zero words -/

theorem bit_zeros (n i : Nat) : bit (List.replicate n 0#w) i = false := by
  have : word (List.replicate n 0#w) (i / w) = 0#w := by
    rw [word, getD_eq_getElem?_getD, List.getElem?_replicate]
    split_ifs
    · rfl
    · rfl
  rw [bit, this, BitVec.getLsbD_zero]

@[simp] theorem members_zeros (n : Nat) : members (List.replicate n 0#w) = ∅ := by
  ext i
  simp [bit_zeros]

theorem bit_append_zeros (ws : List (BitVec w)) (n i : Nat) :
    bit (ws ++ List.replicate n 0#w) i = bit ws i := by
  have : word (ws ++ List.replicate n 0#w) (i / w) = word ws (i / w) := by
    rcases Nat.lt_or_ge (i / w) ws.length with h | h
    · rw [word, word, getD_append _ _ _ _ h]
    · rw [word_of_le h, word, getD_append_right _ _ _ _ h, getD_eq_getElem?_getD,
        List.getElem?_replicate]
      split_ifs
      · rfl
      · rfl
  rw [bit, this, bit]

@[simp] theorem members_append_zeros (ws : List (BitVec w)) (n : Nat) :
    members (ws ++ List.replicate n 0#w) = members ws := by
  ext i
  simp [bit_append_zeros]

/-! ## Word by word -/

/-- An operation on the words of two arrays, the rest of the longer one given. -/
def wordwise (f : BitVec w → BitVec w → BitVec w) (ds ss rest : List (BitVec w)) :
    List (BitVec w) := List.zipWith f ds ss ++ rest

theorem word_wordwise {ds ss rest : List (BitVec w)} (hlen : ss.length ≤ ds.length) (k : Nat) :
    word (wordwise f ds ss rest) k =
      if k < ss.length then f (word ds k) (word ss k) else word rest (k - ss.length) := by
  have hzip : (List.zipWith f ds ss).length = ss.length := by
    rw [length_zipWith, Nat.min_eq_right hlen]
  by_cases hk : k < ss.length
  · have hk' : k < ds.length := Nat.lt_of_lt_of_le hk hlen
    rw [if_pos hk, word, wordwise, getD_append _ _ _ _ (by rw [hzip]; exact hk), word, word]
    rw [getD_eq_getElem _ _ hk, getD_eq_getElem _ _ hk',
      getD_eq_getElem _ _ (by rw [hzip]; exact hk), getElem_zipWith]
  · rw [if_neg hk, word, wordwise,
      getD_append_right _ _ _ _ (by rw [hzip]; exact not_lt.mp hk), hzip, word]

section Bitwise

variable {g : Bool → Bool → Bool} {ds ss : List (BitVec w)}
  (hf : ∀ x y k, k < w → (f x y).getLsbD k = g (x.getLsbD k) (y.getLsbD k)) (hw : 0 < w)
include hf hw

theorem bit_wordwise {rest : List (BitVec w)} (hlen : ss.length ≤ ds.length)
    (hrest : ∀ k b, (word rest (k - ss.length)).getLsbD b = g ((word ds k).getLsbD b) false ∨
      k < ss.length) (i : Nat) :
    bit (wordwise f ds ss rest) i = g (bit ds i) (bit ss i) := by
  rw [bit, word_wordwise hlen]
  by_cases hk : i / w < ss.length
  · rw [if_pos hk, hf _ _ _ (Nat.mod_lt _ hw), bit, bit]
  · rcases hrest (i / w) (i % w) with h | h
    · rw [if_neg hk, h, bit, bit, word_of_le (not_lt.mp hk), BitVec.getLsbD_zero]
    · exact absurd h hk

/-- What is left of the longer array stays. -/
theorem bit_wordwise_drop (hg : ∀ b, g b false = b) (hlen : ss.length ≤ ds.length) (i : Nat) :
    bit (wordwise f ds ss (ds.drop ss.length)) i = g (bit ds i) (bit ss i) := by
  refine bit_wordwise hf hw hlen (fun k b => ?_) i
  by_cases hk : k < ss.length
  · exact .inr hk
  · left
    rw [hg, word, word, getD_eq_getElem?_getD, List.getElem?_drop,
      Nat.add_sub_cancel' (not_lt.mp hk), ← getD_eq_getElem?_getD]

/-- What is left of the longer array is cleared. -/
theorem bit_wordwise_zeros (hg : ∀ b, g b false = false) (hlen : ss.length ≤ ds.length)
    (n i : Nat) :
    bit (wordwise f ds ss (List.replicate n 0#w)) i = g (bit ds i) (bit ss i) := by
  refine bit_wordwise hf hw hlen (fun k b => .inl ?_) i
  rw [hg, word, getD_eq_getElem?_getD, List.getElem?_replicate]
  split_ifs
  · exact BitVec.getLsbD_zero
  · exact BitVec.getLsbD_zero

end Bitwise

/-! ## Counting -/

/-- The number of bits that are set in a word. -/
def popcount (v : BitVec w) : Nat := ∑ k ∈ Finset.range w, (v.getLsbD k).toNat

theorem card_members_cons (v : BitVec w) (ws : List (BitVec w)) :
    (members (v :: ws)).card = popcount v + (members ws).card := by
  rcases Nat.eq_zero_or_pos w with rfl | hw
  · simp [members, popcount]
  have hlow : ∀ k < w, bit (v :: ws) k = v.getLsbD k := by
    intro k hk
    rw [bit, Nat.div_eq_of_lt hk, Nat.mod_eq_of_lt hk]
    rfl
  have hhigh : ∀ k, bit (v :: ws) (w + k) = bit ws k := by
    intro k
    rw [bit, bit, Nat.add_div_left k hw, Nat.add_mod_left]
    rfl
  have hcard : ∀ us : List (BitVec w), (members us).card =
      ∑ k ∈ Finset.range (w * us.length), (bit us k).toNat := by
    intro us
    rw [members, Finset.card_filter]
    refine Finset.sum_congr rfl fun k _ => ?_
    cases bit us k
    · rfl
    · rfl
  rw [hcard, hcard, popcount, length_cons, Nat.mul_succ, Nat.add_comm (w * ws.length),
    Finset.sum_range_add]
  congr 1
  · exact Finset.sum_congr rfl fun k hk => by rw [hlow k (Finset.mem_range.mp hk)]
  · exact Finset.sum_congr rfl fun k _ => by rw [hhigh]

/-- **The bits of an array, counted word by word.** -/
theorem card_members (ws : List (BitVec w)) : (members ws).card = (ws.map popcount).sum := by
  induction ws with
  | nil => simp [members]
  | cons v ws ih => rw [card_members_cons, ih, map_cons, sum_cons]

end BitMask
