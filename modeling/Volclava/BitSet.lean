import Volclava.Lib.BitMask
import Volclava.Lib.Run

/-!
# Bit sets

The sets of `bitset.c` keep their elements as bits of an array of words, next to the size of the
array and a count of elements. `setIsMember` answers from the count and the size before it looks at
a bit, so it is wrong once these fall behind the bits: `setDup` copies neither of them, `setOperate`
does not recount, and `setRemoveElement` counts down for elements that were not there.
`setGetNumElements` counts the bits themselves. An iterator has moved on when it gives an element,
so a loop that asks it for the end misses the last bit.

- `BitSet.numElements_exact`: the table of bit counts is right for every array.
- `BitSet.Refines`: how a set stands for a mathematical one, and when `setIsMember` can be trusted.
- `BitSet.step_refines`: the calls that keep this.
- `sets_exact`: runs of such calls.
- `dup_loses_members`: calls outside of them.
- `BitSet.iterates_iff`: which sets a loop sees as they are.
-/

namespace Volclava

open BitMask List

abbrev Word := BitVec 32

/-- A set; `bitmask` is the allocated array. -/
structure LsBitset (α : Type) where
  bitmask : List Word
  setSize : Nat
  setWidth : Nat
  setNumElements : Nat
  getIndexByObject : Option (α → BitVec 32)

namespace BitSet

variable {α : Type}

def wordLength : Nat := 32
def setDefaultSize : Nat := wordLength
def setWordDefaultExtent : Nat := 2

/-! ## The functions -/

/-- `setCreate`, with memory. -/
def setCreate (size : BitVec 32) (directFunction : Option (α → BitVec 32)) : LsBitset α :=
  let sz := if 0 < size.toInt then size.toNat else setDefaultSize
  let width := (sz + wordLength - 1) / wordLength
  ⟨List.replicate width 0, width * wordLength % 2 ^ 32, width, 0, directFunction⟩

/-- `setDup`, with memory: only the array and its width are copied. -/
def setDup (set : LsBitset α) : LsBitset α := ⟨set.bitmask, 0, set.setWidth, 0, none⟩

/-- `setTestValue`; `none` is an access outside of the array. -/
def setTestValue (set : LsBitset α) (value : BitVec 32) : Option Bool :=
  if value.toInt < 0 then none
  else if set.bitmask.length ≤ value.toNat / wordLength then none
  else some (bit set.bitmask value.toNat)

section Objects

-- The number an object is when a set has no function to look it up.
variable (value : α → BitVec 32)

def indexOf (getIndexByObject : Option (α → BitVec 32)) (obj : α) : BitVec 32 :=
  match getIndexByObject with
  | none => value obj
  | some f => f obj

/-- `setIsMember`. -/
def setIsMember (set : LsBitset α) (obj : α) : Option Int :=
  if set.setNumElements = 0 then some 0
  else if set.getIndexByObject.isSome ∧ (indexOf value set.getIndexByObject obj).toInt < 0 then
    some (-1)
  else if set.setSize ≤ (indexOf value set.getIndexByObject obj).toNat then some 0
  else (setTestValue set (indexOf value set.getIndexByObject obj)).map fun b => if b then 1 else 0

/-- The set with an array of the given width. -/
def widened (set : LsBitset α) (width : Nat) : LsBitset α :=
  { set with
    bitmask := set.bitmask ++ List.replicate (width - set.setWidth) 0
    setWidth := width
    setSize := width * wordLength % 2 ^ 32 }

/-- `setEnlarge`; `none` if memory is short or the width wraps around. -/
def setEnlarge (mem : Bool) (set : LsBitset α) (newSize : Nat) : Option (LsBitset α) :=
  let width := (set.setWidth + newSize + setWordDefaultExtent) % 2 ^ 32
  if mem = false ∨ width < set.setWidth then none else some (widened set width)

/-- The end of `setAddElement`: the bit is set and counted. -/
def enter (set : LsBitset α) (x : BitVec 32) : Option (LsBitset α) :=
  if x.toInt < 0 then none
  else if set.bitmask.length ≤ x.toNat / wordLength then none
  else some { set with
    bitmask := orBit set.bitmask x.toNat
    setNumElements := (set.setNumElements + 1) % 2 ^ 32 }

/-- `setAddElement`; an object that is already there is refused. -/
def setAddElement (mem : Bool) (set : LsBitset α) (obj : α) : Option (LsBitset α) :=
  let x := indexOf value set.getIndexByObject obj
  if set.getIndexByObject.isSome ∧ x.toInt < 0 then some set
  else if set.setSize ≤ x.toNat then (setEnlarge mem set x.toNat).bind fun set' => enter set' x
  else (setTestValue set x).bind fun b => if b then some set else enter set x

/-- `setRemoveElement`: the index is not checked for being negative, and the count goes down
whether the bit was set or not. -/
def setRemoveElement (set : LsBitset α) (obj : α) : Option (LsBitset α) :=
  let x := indexOf value set.getIndexByObject obj
  if set.setNumElements = 0 then some set
  else if set.setSize ≤ x.toNat then some set
  else if x.toInt < 0 ∨ set.bitmask.length ≤ x.toNat / wordLength then none
  else some { set with
    bitmask := andNotBit set.bitmask x.toNat
    setNumElements := set.setNumElements - 1 }

end Objects

def setClear (set : LsBitset α) : LsBitset α :=
  { set with bitmask := set.bitmask.map fun _ => 0, setNumElements := 0 }

inductive SetOp where
  | union
  | intersect
  | difference
  | assign
  deriving DecidableEq

/-- The loops of `setOperate` over the words. -/
def operateWords (op : SetOp) (d s : List Word) : List Word :=
  match op with
  | .union => wordwise (· ||| ·) d s (d.drop s.length)
  | .intersect => wordwise (· &&& ·) d s (List.replicate (d.length - s.length) 0#32)
  | .difference => wordwise (· ^^^ ·) d s (d.drop s.length)
  | .assign => wordwise (fun _ y => y) d s (List.replicate (d.length - s.length) 0#32)

/-- `setOperate`: neither the count of elements nor anything else of the set is looked at. -/
def setOperate (mem : Bool) (dest src : LsBitset α) (op : SetOp) : Option (LsBitset α) :=
  (if dest.setWidth < src.setWidth then setEnlarge mem dest src.setWidth else some dest).map
    fun dest' => { dest' with bitmask := operateWords op dest'.bitmask src.bitmask }

/-! ## Counting -/

/-- The number of bits of every byte. -/
def nbits : List Nat := [
  0, 1, 1, 2, 1, 2, 2, 3, 1, 2, 2, 3, 2, 3, 3, 4,
  1, 2, 2, 3, 2, 3, 3, 4, 2, 3, 3, 4, 3, 4, 4, 5,
  1, 2, 2, 3, 2, 3, 3, 4, 2, 3, 3, 4, 3, 4, 4, 5,
  2, 3, 3, 4, 3, 4, 4, 5, 3, 4, 4, 5, 4, 5, 5, 6,
  1, 2, 2, 3, 2, 3, 3, 4, 2, 3, 3, 4, 3, 4, 4, 5,
  2, 3, 3, 4, 3, 4, 4, 5, 3, 4, 4, 5, 4, 5, 5, 6,
  2, 3, 3, 4, 3, 4, 4, 5, 3, 4, 4, 5, 4, 5, 5, 6,
  3, 4, 4, 5, 4, 5, 5, 6, 4, 5, 5, 6, 5, 6, 6, 7,
  1, 2, 2, 3, 2, 3, 3, 4, 2, 3, 3, 4, 3, 4, 4, 5,
  2, 3, 3, 4, 3, 4, 4, 5, 3, 4, 4, 5, 4, 5, 5, 6,
  2, 3, 3, 4, 3, 4, 4, 5, 3, 4, 4, 5, 4, 5, 5, 6,
  3, 4, 4, 5, 4, 5, 5, 6, 4, 5, 5, 6, 5, 6, 6, 7,
  2, 3, 3, 4, 3, 4, 4, 5, 3, 4, 4, 5, 4, 5, 5, 6,
  3, 4, 4, 5, 4, 5, 5, 6, 4, 5, 5, 6, 5, 6, 6, 7,
  3, 4, 4, 5, 4, 5, 5, 6, 4, 5, 5, 6, 5, 6, 6, 7,
  4, 5, 5, 6, 5, 6, 6, 7, 5, 6, 6, 7, 6, 7, 7, 8]

/-- The bytes of a word as they lie in memory. -/
def wordBytes (v : Word) : List (BitVec 8) :=
  [v.extractLsb' 0 8, v.extractLsb' 8 8, v.extractLsb' 16 8, v.extractLsb' 24 8]

/-- A number as a C `int`. -/
def cInt (n : Nat) : Int := Int.bmod n (2 ^ 32)

theorem cInt_of_lt {n : Nat} (h : n < 2 ^ 31) : cInt n = n :=
  Int.bmod_eq_of_le (by norm_num) (by norm_num; omega)

/-- `setGetNumElements`; byte count and result are C `int`s. -/
def setGetNumElements (set : LsBitset α) : Int :=
  let bytes := (set.bitmask.flatMap wordBytes).take (cInt (set.setWidth * 4)).toNat
  cInt (bytes.map fun b => nbits.getD b.toNat 0).sum

theorem nbits_getD (b : BitVec 8) : nbits.getD b.toNat 0 = popcount b := by
  revert b
  decide +kernel

/-- The bytes of a word hold its bits. -/
theorem sum_wordBytes (v : Word) :
    ((wordBytes v).map fun b => nbits.getD b.toNat 0).sum = popcount v := by
  simp only [wordBytes, map_cons, map_nil, nbits_getD, sum_cons, sum_nil]
  simp only [popcount, Finset.sum_range_succ, Finset.sum_range_zero, BitVec.getLsbD_extractLsb']
  simp only [Nat.reduceLT, decide_true, Bool.true_and, Nat.reduceAdd, Nat.zero_add, Nat.add_zero]
  omega

theorem sum_bytes (ws : List Word) :
    ((ws.flatMap wordBytes).map fun b => nbits.getD b.toNat 0).sum = (members ws).card := by
  rw [card_members]
  induction ws with
  | nil => rfl
  | cons v ws ih =>
    rw [flatMap_cons, map_append, sum_append, ih, sum_wordBytes, map_cons,
      sum_cons]

theorem length_flatMap_wordBytes (ws : List Word) :
    (ws.flatMap wordBytes).length = ws.length * 4 := by
  induction ws with
  | nil => rfl
  | cons v ws ih =>
    rw [flatMap_cons, length_append, ih, length_cons]
    show 4 + ws.length * 4 = (ws.length + 1) * 4
    omega

variable {set : LsBitset α}

/-- **The count over the bytes is the number of bits**, for every array that an `int` can count. -/
theorem numElements_exact (hlen : set.bitmask.length = set.setWidth)
    (hwidth : set.setWidth < 2 ^ 29) (hcard : (members set.bitmask).card < 2 ^ 31) :
    setGetNumElements set = (members set.bitmask).card := by
  have hall : (set.bitmask.flatMap wordBytes).take (cInt (set.setWidth * 4)).toNat =
      set.bitmask.flatMap wordBytes := by
    refine take_of_length_le ?_
    rw [length_flatMap_wordBytes, cInt_of_lt (by omega), Int.toNat_natCast, hlen]
  rw [setGetNumElements, hall, sum_bytes]
  exact cInt_of_lt hcard

/-! ## Mathematical sets -/

/-- What a set stands for: numbers, and how objects are numbered. -/
structure Spec (α : Type) where
  index : Option (α → BitVec 32)
  elems : Finset Nat

/-- The set an operation of `setOperate` is named after. -/
def SetOp.apply (op : SetOp) (d s : Finset Nat) : Finset Nat :=
  match op with
  | .union => d ∪ s
  | .intersect => d ∩ s
  | .difference => d \ s
  | .assign => s

section Relation

variable (value : α → BitVec 32)

/-- The object has a number, and it is an element. -/
def Spec.Mem (a : Spec α) (obj : α) : Prop :=
  0 ≤ (indexOf value a.index obj).toInt ∧ (indexOf value a.index obj).toNat ∈ a.elems

def Spec.add (a : Spec α) (obj : α) : Spec α :=
  if (indexOf value a.index obj).toInt < 0 then a
  else { a with elems := insert (indexOf value a.index obj).toNat a.elems }

def Spec.remove (a : Spec α) (obj : α) : Spec α :=
  if (indexOf value a.index obj).toInt < 0 then a
  else { a with elems := a.elems.erase (indexOf value a.index obj).toNat }

/-- **The set is counted and asked right**: the number of elements is the number of bits, and
`setIsMember` answers for the mathematical set. -/
def Exact (set : LsBitset α) (a : Spec α) : Prop :=
  setGetNumElements set = (members set.bitmask).card ∧ (members set.bitmask).card = a.elems.card ∧
    ∀ obj, ∃ r, setIsMember value set obj = some r ∧ (r = 1 ↔ a.Mem value obj)

end Relation

/-- The set's bits are the elements, and count and size let `setIsMember` reach them. -/
structure Refines (set : LsBitset α) (a : Spec α) : Prop where
  index : set.getIndexByObject = a.index
  length : set.bitmask.length = set.setWidth
  width : set.setWidth ≤ 2 ^ 26
  size : set.setSize = 32 * set.setWidth ∨ set.setSize = 0 ∧ set.setNumElements = 0
  elems : members set.bitmask = a.elems
  card : a.elems.card < 2 ^ 31
  count : a.elems.Nonempty → set.setNumElements ≠ 0

theorem toInt_neg_iff (x : BitVec 32) : x.toInt < 0 ↔ 2 ^ 31 ≤ x.toNat := by
  rw [BitVec.toInt_eq_toNat_cond]
  have := x.isLt
  split_ifs with h
  · omega
  · omega

namespace Refines

variable {value : α → BitVec 32} {set : LsBitset α} {a : Spec α}

variable (h : Refines set a)
include h

/-- The elements lie within the size. -/
theorem lt_size {i : Nat} (hi : i ∈ a.elems) : i < set.setSize := by
  rw [← h.elems, mem_members] at hi
  have hlt := lt_of_bit hi
  rcases h.size with hsize | ⟨-, hcount⟩
  · rw [hsize, ← h.length]
    exact hlt
  · refine absurd hcount (h.count ⟨i, ?_⟩)
    rw [← h.elems, mem_members]
    exact hi

theorem size_le : set.setSize ≤ 32 * set.setWidth := by
  rcases h.size with hsize | ⟨hsize, -⟩
  · exact le_of_eq hsize
  · omega

variable {x : BitVec 32}

/-- An index within the size is a number whose word is allocated. -/
theorem of_lt_size (hx : x.toNat < set.setSize) :
    ¬ x.toInt < 0 ∧ ¬ set.bitmask.length ≤ x.toNat / wordLength ∧
      x.toNat < 32 * set.bitmask.length := by
  have hsize := h.size_le
  have hwidth := h.width
  have hlength := h.length
  refine ⟨?_, ?_, ?_⟩
  · rw [toInt_neg_iff]
    omega
  · rw [wordLength]
    omega
  · omega

theorem setTestValue_eq (hx : x.toNat < set.setSize) :
    setTestValue set x = some (decide (x.toNat ∈ a.elems)) := by
  obtain ⟨hneg, hword, -⟩ := h.of_lt_size hx
  rw [setTestValue, if_neg hneg, if_neg hword, ← h.elems]
  simp

/-- **A set that stands for another one is counted and asked right.** -/
theorem exact : Exact value set a := by
  have hcard : (members set.bitmask).card < 2 ^ 31 := by
    rw [h.elems]
    exact h.card
  have hwidth := h.width
  refine ⟨numElements_exact h.length (by omega) hcard, by rw [h.elems], fun obj => ?_⟩
  rw [setIsMember, Spec.Mem, h.index]
  generalize indexOf value a.index obj = x
  by_cases hcount : set.setNumElements = 0
  · rw [if_pos hcount]
    refine ⟨0, rfl, fun h01 => absurd h01 (by decide), fun hmem => ?_⟩
    exact absurd hcount (h.count ⟨_, hmem.2⟩)
  · rw [if_neg hcount]
    by_cases herr : a.index.isSome ∧ x.toInt < 0
    · rw [if_pos herr]
      refine ⟨-1, rfl, fun h01 => absurd h01 (by decide), fun hmem => ?_⟩
      exact absurd herr.2 (not_lt.mpr hmem.1)
    · rw [if_neg herr]
      by_cases hsize : set.setSize ≤ x.toNat
      · rw [if_pos hsize]
        refine ⟨0, rfl, fun h01 => absurd h01 (by decide), fun hmem => ?_⟩
        exact absurd (h.lt_size hmem.2) (not_lt.mpr hsize)
      · rw [if_neg hsize, h.setTestValue_eq (not_le.mp hsize)]
        have hneg := (h.of_lt_size (not_le.mp hsize)).1
        refine ⟨_, rfl, ?_⟩
        by_cases hmem : x.toNat ∈ a.elems
        · simp [hmem, not_lt.mp hneg]
        · simp [hmem]

/-! ## What the calls keep -/

omit h in
theorem setCreate (size : BitVec 32) (f : Option (α → BitVec 32)) :
    Refines (setCreate size f) ⟨f, ∅⟩ := by
  rw [BitSet.setCreate]
  generalize hsz : (if 0 < size.toInt then size.toNat else setDefaultSize) = sz
  have hle : sz < 2 ^ 31 := by
    rw [← hsz]
    split_ifs with hpos
    · have := toInt_neg_iff size
      omega
    · decide
  have hwidth : (sz + wordLength - 1) / wordLength ≤ 2 ^ 26 := by
    rw [wordLength]
    omega
  have hsize : (sz + wordLength - 1) / wordLength * wordLength % 2 ^ 32 =
      32 * ((sz + wordLength - 1) / wordLength) := by
    rw [wordLength] at hwidth ⊢
    omega
  exact {
    index := rfl
    length := length_replicate
    width := hwidth
    size := .inl hsize
    elems := members_zeros _
    card := Nat.two_pow_pos 31
    count := fun hne => absurd hne Finset.not_nonempty_empty }

theorem setDup (hempty : a.elems = ∅) (hindex : a.index = none) :
    Refines (setDup set) a where
  index := hindex.symm
  length := h.length
  width := h.width
  size := .inr ⟨rfl, rfl⟩
  elems := h.elems
  card := h.card
  count hne := absurd hempty hne.ne_empty

/-- A set that is enlarged within the bound keeps its elements and gets its size right. -/
theorem setEnlarge {newSize : Nat}
    (hle : set.setWidth + newSize + 2 ≤ 2 ^ 26) : ∃ set', setEnlarge true set newSize = some set' ∧
      Refines set' a ∧ set'.setWidth = set.setWidth + newSize + 2 ∧
      set'.setSize = 32 * set'.setWidth ∧ set'.setNumElements = set.setNumElements := by
  have hmod : (set.setWidth + newSize + setWordDefaultExtent) % 2 ^ 32 =
      set.setWidth + newSize + 2 := Nat.mod_eq_of_lt (by rw [setWordDefaultExtent]; omega)
  have hsize : (set.setWidth + newSize + 2) * wordLength % 2 ^ 32 =
      32 * (set.setWidth + newSize + 2) := by
    rw [wordLength]
    omega
  have hgrow : ¬ (true = false ∨ set.setWidth + newSize + 2 < set.setWidth) := by
    rintro (hmem | hlt)
    · cases hmem
    · omega
  have hlength := h.length
  refine ⟨widened set (set.setWidth + newSize + 2), by rw [BitSet.setEnlarge, hmod, if_neg hgrow],
    ?_, rfl, hsize, rfl⟩
  exact {
    index := h.index
    length := by
      show (set.bitmask ++ List.replicate _ 0).length = set.setWidth + newSize + 2
      rw [length_append, length_replicate]
      omega
    width := hle
    size := .inl hsize
    elems := (members_append_zeros _ _).trans h.elems
    card := h.card
    count := h.count }

/-- A number within the size is entered and counted. -/
theorem enter (hx : x.toNat < set.setSize)
    (hsize : set.setSize = 32 * set.setWidth) (hcount : set.setNumElements + 1 < 2 ^ 32)
    (hcard : (insert x.toNat a.elems).card < 2 ^ 31) : ∃ set', enter set x = some set' ∧
      Refines set' { a with elems := insert x.toNat a.elems } := by
  obtain ⟨hneg, hword, hlt⟩ := h.of_lt_size hx
  refine ⟨_, by rw [BitSet.enter, if_neg hneg, if_neg hword], ?_⟩
  exact {
    index := h.index
    length := (length_orBit _ _).trans h.length
    width := h.width
    size := .inl hsize
    elems := (members_orBit hlt).trans (by rw [h.elems])
    card := hcard
    count := fun _ => by
      show (set.setNumElements + 1) % 2 ^ 32 ≠ 0
      rw [Nat.mod_eq_of_lt hcount]
      exact Nat.succ_ne_zero _ }

/-- The call adds its object: it is not a negative number, the array can grow to hold it, and
neither of the counts overflows. -/
def CanAdd (value : α → BitVec 32) (mem : Bool) (set : LsBitset α) (a : Spec α) (obj : α) : Prop :=
  (indexOf value a.index obj).toInt < 0 ∧ a.index.isSome ∨
  0 ≤ (indexOf value a.index obj).toInt ∧
    (set.setSize ≤ (indexOf value a.index obj).toNat → mem = true ∧
      set.setWidth + (indexOf value a.index obj).toNat + 2 ≤ 2 ^ 26) ∧
    set.setNumElements + 1 < 2 ^ 32 ∧
    (insert (indexOf value a.index obj).toNat a.elems).card < 2 ^ 31

theorem setAddElement {mem : Bool} {obj : α}
    (hcan : CanAdd value mem set a obj) : ∃ set', setAddElement value mem set obj = some set' ∧
      Refines set' (a.add value obj) := by
  rw [CanAdd] at hcan
  rw [BitSet.setAddElement, Spec.add, h.index]
  generalize indexOf value a.index obj = x at hcan ⊢
  rcases hcan with ⟨hneg, hsome⟩ | ⟨hpos, hroom, hcount, hcard⟩
  · rw [if_pos hneg]
    exact ⟨set, if_pos ⟨hsome, hneg⟩, h⟩
  · rw [if_neg (not_lt.mpr hpos)]
    rw [if_neg fun herr => absurd herr.2 (not_lt.mpr hpos)]
    by_cases hsize : set.setSize ≤ x.toNat
    · obtain ⟨rfl, hle⟩ := hroom hsize
      obtain ⟨set₁, henl, href, hwidth₁, hsize₁, hcount₁⟩ := h.setEnlarge hle
      rw [if_pos hsize, henl]
      refine href.enter ?_ hsize₁ (by rw [hcount₁]; exact hcount) hcard
      omega
    · rw [if_neg hsize, h.setTestValue_eq (not_le.mp hsize), Option.bind_some]
      by_cases hmem : x.toNat ∈ a.elems
      · rw [if_pos (decide_eq_true hmem), Finset.insert_eq_of_mem hmem]
        exact ⟨set, rfl, h⟩
      · rw [if_neg (by simpa using hmem)]
        have hfull : set.setSize = 32 * set.setWidth := by
          rcases h.size with hfull | ⟨h0, -⟩
          · exact hfull
          · omega
        exact h.enter (not_le.mp hsize) hfull hcount hcard

/-- The call removes its object without taking the count to zero before the last element. -/
def CanRemove (value : α → BitVec 32) (set : LsBitset α) (a : Spec α) (obj : α) : Prop :=
  (indexOf value a.index obj).toNat < set.setSize → set.setNumElements = 1 →
    a.elems ⊆ {(indexOf value a.index obj).toNat}

theorem setRemoveElement {obj : α} (hcan : CanRemove value set a obj) :
    ∃ set', setRemoveElement value set obj = some set' ∧ Refines set' (a.remove value obj) := by
  rw [CanRemove] at hcan
  rw [BitSet.setRemoveElement, Spec.remove, h.index]
  generalize indexOf value a.index obj = x at hcan ⊢
  -- Where the call does nothing, the number is no element.
  have hnot : x.toNat ∉ a.elems →
      Refines set (if x.toInt < 0 then a else { a with elems := a.elems.erase x.toNat }) := by
    intro hmem
    rw [Finset.erase_eq_of_notMem hmem, ite_self]
    exact h
  by_cases hcount : set.setNumElements = 0
  · rw [if_pos hcount]
    exact ⟨set, rfl, hnot fun hmem => h.count ⟨_, hmem⟩ hcount⟩
  · rw [if_neg hcount]
    by_cases hsize : set.setSize ≤ x.toNat
    · rw [if_pos hsize]
      exact ⟨set, rfl, hnot fun hmem => absurd (h.lt_size hmem) (not_lt.mpr hsize)⟩
    · obtain ⟨hneg, hword, hlt⟩ := h.of_lt_size (not_le.mp hsize)
      rw [if_neg hsize, if_neg (not_or.mpr ⟨hneg, hword⟩), if_neg hneg]
      refine ⟨_, rfl, ?_⟩
      have hfull : set.setSize = 32 * set.setWidth := by
        rcases h.size with hfull | ⟨h0, -⟩
        · exact hfull
        · omega
      exact {
        index := rfl
        length := (length_andNotBit _ _).trans h.length
        width := h.width
        size := .inl hfull
        elems := (members_andNotBit hlt).trans (by rw [h.elems])
        card := lt_of_le_of_lt Finset.card_erase_le h.card
        count := by
          rintro ⟨i, hi⟩ h0
          obtain ⟨hne, hi⟩ := Finset.mem_erase.mp hi
          have hone : set.setNumElements = 1 := by
            have h0' : set.setNumElements - 1 = 0 := h0
            omega
          exact hne (Finset.mem_singleton.mp (hcan (not_le.mp hsize) hone hi)) }

theorem setClear : Refines (setClear set) { a with elems := ∅ } where
  index := h.index
  length := (length_map _).trans h.length
  width := h.width
  size := h.size.imp_right fun hsize => ⟨hsize.1, rfl⟩
  elems := by
    show members (set.bitmask.map fun _ => 0#32) = ∅
    rw [map_const', members_zeros]
  card := Nat.two_pow_pos 31
  count hne := absurd hne Finset.not_nonempty_empty

variable {op : SetOp}

omit h in
/-- The words of an operation hold the result, if a difference only takes away what is there. -/
theorem members_operateWords {d s : List Word} (hlen : s.length ≤ d.length)
    (hsub : op = .difference → members s ⊆ members d) :
    members (operateWords op d s) = op.apply (members d) (members s) := by
  ext i
  have hw : 0 < 32 := by decide
  cases op with
  | union =>
    have hbit := bit_wordwise_drop (g := or) (fun x y k _ => BitVec.getLsbD_or) hw
      (fun b => Bool.or_false b) hlen i
    rw [mem_members, operateWords, hbit]
    simp [SetOp.apply]
  | intersect =>
    have hbit := bit_wordwise_zeros (g := and) (fun x y k _ => BitVec.getLsbD_and) hw
      (fun b => Bool.and_false b) hlen (d.length - s.length) i
    rw [mem_members, operateWords, hbit]
    simp [SetOp.apply]
  | difference =>
    have hbit := bit_wordwise_drop (g := xor) (fun x y k _ => BitVec.getLsbD_xor) hw
      (fun b => Bool.xor_false b) hlen i
    have hi : bit s i = true → bit d i = true := by
      simpa using @hsub rfl i
    rw [mem_members, operateWords, hbit, SetOp.apply, Finset.mem_sdiff, mem_members, mem_members]
    cases hs : bit s i with
    | false => simp
    | true => simp [hi hs]
  | assign =>
    have hbit := bit_wordwise_zeros (g := fun _ b => b) (fun x y k _ => rfl) hw
      (fun b => rfl) hlen (d.length - s.length) i
    rw [mem_members, operateWords, hbit]
    simp [SetOp.apply]

omit h in
theorem length_operateWords {d s : List Word} (hlen : s.length ≤ d.length) :
    (operateWords op d s).length = d.length := by
  cases op with
  | union => simp [operateWords, wordwise, hlen]
  | intersect => simp [operateWords, wordwise, hlen]
  | difference => simp [operateWords, wordwise, hlen]
  | assign => simp [operateWords, wordwise, hlen]

/-- The operation can be done: the array can grow to the other one's, a difference takes away only
what is there, and a set that comes to have elements has a count. -/
def CanOperate (mem : Bool) (dest src : LsBitset α) (a b : Spec α) (op : SetOp) : Prop :=
  (dest.setWidth < src.setWidth →
    mem = true ∧ dest.setWidth + src.setWidth + 2 ≤ 2 ^ 26) ∧
  (op = .difference → b.elems ⊆ a.elems) ∧
  ((op.apply a.elems b.elems).Nonempty → dest.setNumElements ≠ 0) ∧
  (op.apply a.elems b.elems).card < 2 ^ 31

/-- The loops over the words of two sets, of which the first is at least as wide. -/
theorem operate_words {src : LsBitset α} {b : Spec α} (hsrc : Refines src b)
    (hwide : src.setWidth ≤ set.setWidth) (hsub : op = .difference → b.elems ⊆ a.elems)
    (hcount : (op.apply a.elems b.elems).Nonempty → set.setNumElements ≠ 0)
    (hcard : (op.apply a.elems b.elems).card < 2 ^ 31) :
    Refines { set with bitmask := operateWords op set.bitmask src.bitmask }
      { a with elems := op.apply a.elems b.elems } := by
  have hlen : src.bitmask.length ≤ set.bitmask.length := by
    rw [h.length, hsrc.length]
    exact hwide
  exact {
    index := h.index
    length := (length_operateWords hlen).trans h.length
    width := h.width
    size := h.size
    elems := by
      show members (operateWords op set.bitmask src.bitmask) = _
      rw [members_operateWords hlen (by rw [h.elems, hsrc.elems]; exact hsub), h.elems, hsrc.elems]
    card := hcard
    count := hcount }

theorem setOperate {src : LsBitset α} {b : Spec α} (hsrc : Refines src b)
    {mem : Bool} (hcan : CanOperate mem set src a b op) :
    ∃ set', setOperate mem set src op = some set' ∧
      Refines set' { a with elems := op.apply a.elems b.elems } := by
  obtain ⟨hroom, hsub, hcount, hcard⟩ := hcan
  rw [BitSet.setOperate]
  by_cases hlt : set.setWidth < src.setWidth
  · obtain ⟨rfl, hle⟩ := hroom hlt
    obtain ⟨set₁, henl, href, hwidth₁, -, hcount₁⟩ := h.setEnlarge hle
    rw [if_pos hlt, henl]
    refine ⟨_, rfl, href.operate_words hsrc (by omega) hsub ?_ hcard⟩
    rw [hcount₁]
    exact hcount
  · rw [if_neg hlt]
    exact ⟨_, rfl, h.operate_words hsrc (not_lt.mp hlt) hsub hcount hcard⟩

end Refines

/-! ## Runs -/

/-- The calls, with the sets they are made on; `mem` says whether memory is found. -/
inductive Call (α : Type) where
  | setCreate (size : BitVec 32) (f : Option (α → BitVec 32)) (mem : Bool)
  | setAddElement (i : Nat) (obj : α) (mem : Bool)
  | setRemoveElement (i : Nat) (obj : α)
  | setClear (i : Nat)
  | setDup (i : Nat) (mem : Bool)
  | setOperate (dest src : Nat) (op : SetOp) (mem : Bool)
  | setEnlarge (i : Nat) (newSize : BitVec 32) (mem : Bool)

/-- The sets that were made, each with what it should stand for; `fault` after an access outside
of an array. -/
structure Sys (α : Type) where
  sets : List (LsBitset α × Spec α)
  fault : Bool

def Sys.init : Sys α := ⟨[], false⟩

/-- The result of a call that changes one set. -/
def Sys.put (sys : Sys α) (i : Nat) (set : Option (LsBitset α)) (a : Spec α) : Sys α :=
  match set with
  | none => { sys with fault := true }
  | some set => { sys with sets := sys.sets.set i (set, a) }

section Step

variable (value : α → BitVec 32)

def Sys.step (sys : Sys α) (c : Call α) : Sys α :=
  match c with
  | .setCreate size f mem =>
    if mem then { sys with sets := sys.sets ++ [(setCreate size f, ⟨f, ∅⟩)] } else sys
  | .setAddElement i obj mem =>
    match sys.sets[i]? with
    | none => sys
    | some (set, a) => sys.put i (setAddElement value mem set obj) (a.add value obj)
  | .setRemoveElement i obj =>
    match sys.sets[i]? with
    | none => sys
    | some (set, a) => sys.put i (setRemoveElement value set obj) (a.remove value obj)
  | .setClear i =>
    match sys.sets[i]? with
    | none => sys
    | some (set, a) => sys.put i (some (setClear set)) { a with elems := ∅ }
  | .setDup i mem =>
    match sys.sets[i]? with
    | none => sys
    | some (set, a) => if mem then { sys with sets := sys.sets ++ [(setDup set, a)] } else sys
  | .setOperate dest src op mem =>
    match sys.sets[dest]?, sys.sets[src]? with
    | some (set, a), some (set', b) =>
      sys.put dest (setOperate mem set set' op) { a with elems := op.apply a.elems b.elems }
    | _, _ => sys
  | .setEnlarge i newSize mem =>
    match sys.sets[i]? with
    | none => sys
    | some (set, a) => sys.put i (setEnlarge mem set newSize.toNat) a

/-- The calls that keep count and size abreast of the bits. -/
def Careful (sys : Sys α) (c : Call α) : Prop :=
  match c with
  | .setCreate _ _ _ => True
  | .setAddElement i obj mem =>
    ∀ p ∈ sys.sets[i]?, Refines.CanAdd value mem p.1 p.2 obj
  | .setRemoveElement i obj => ∀ p ∈ sys.sets[i]?, Refines.CanRemove value p.1 p.2 obj
  | .setClear _ => True
  | .setDup i _ => ∀ p ∈ sys.sets[i]?, p.2.elems = ∅ ∧ p.2.index.isNone = true
  | .setOperate dest src op mem =>
    ∀ p ∈ sys.sets[dest]?, ∀ q ∈ sys.sets[src]?, Refines.CanOperate mem p.1 q.1 p.2 q.2 op
  | .setEnlarge i newSize mem =>
    ∀ p ∈ sys.sets[i]?, mem = true ∧ p.1.setWidth + newSize.toNat + 2 ≤ 2 ^ 26

instance (mem : Bool) (set : LsBitset α) (a : Spec α) (obj : α) :
    Decidable (Refines.CanAdd value mem set a obj) :=
  inferInstanceAs (Decidable (_ ∧ _ ∨ _ ∧ (_ → _ ∧ _) ∧ _ ∧ _))

instance (set : LsBitset α) (a : Spec α) (obj : α) :
    Decidable (Refines.CanRemove value set a obj) :=
  inferInstanceAs (Decidable (_ → _ → a.elems ⊆ _))

instance (mem : Bool) (dest src : LsBitset α) (a b : Spec α) (op : SetOp) :
    Decidable (Refines.CanOperate mem dest src a b op) :=
  inferInstanceAs (Decidable ((_ → _ ∧ _) ∧ (_ → b.elems ⊆ _) ∧ (_ → _) ∧ _))

instance (sys : Sys α) (c : Call α) : Decidable (Careful value sys c) := by
  cases c <;> unfold Careful <;> infer_instance

variable {value}

/-- Every set stands for what it should, and nothing was accessed outside of an array. -/
def Sys.Sound (sys : Sys α) : Prop :=
  sys.fault = false ∧ ∀ p ∈ sys.sets, Refines p.1 p.2

variable {sys : Sys α} {a : Spec α}

theorem Sys.Sound.at (h : sys.Sound) {i : Nat}
    (hi : sys.sets[i]? = some (set, a)) : Refines set a :=
  h.2 _ (mem_of_getElem? hi)

theorem Sys.Sound.put (h : sys.Sound) (i : Nat) {r : Option (LsBitset α)}
    (hr : ∃ set', r = some set' ∧ Refines set' a) : (sys.put i r a).Sound := by
  obtain ⟨set', rfl, href⟩ := hr
  refine ⟨h.1, fun p hp => ?_⟩
  rcases mem_or_eq_of_mem_set hp with hp | rfl
  · exact h.2 p hp
  · exact href

theorem Sys.Sound.append (h : sys.Sound)
    (href : Refines set a) : Sys.Sound { sys with sets := sys.sets ++ [(set, a)] } := by
  exact ⟨h.1, forall_mem_append.mpr ⟨h.2, forall_mem_singleton.mpr href⟩⟩

/-- **One careful call keeps every set right.** -/
theorem step_refines {c : Call α} (hc : Careful value sys c) (h : sys.Sound) :
    (sys.step value c).Sound := by
  cases c with
  | setCreate size f mem =>
    cases mem with
    | false => exact h
    | true => exact h.append (Refines.setCreate size f)
  | setAddElement i obj mem =>
    rw [Sys.step]
    cases hi : sys.sets[i]? with
    | none => exact h
    | some p => exact h.put i ((h.at hi).setAddElement (hc p hi))
  | setRemoveElement i obj =>
    rw [Sys.step]
    cases hi : sys.sets[i]? with
    | none => exact h
    | some p => exact h.put i ((h.at hi).setRemoveElement (hc p hi))
  | setClear i =>
    rw [Sys.step]
    cases hi : sys.sets[i]? with
    | none => exact h
    | some p => exact h.put i ⟨_, rfl, (h.at hi).setClear⟩
  | setDup i mem =>
    rw [Sys.step]
    cases hi : sys.sets[i]? with
    | none => exact h
    | some p =>
      obtain ⟨hempty, hnone⟩ := hc p hi
      cases mem with
      | false => exact h
      | true => exact h.append ((h.at hi).setDup hempty (Option.isNone_iff_eq_none.mp hnone))
  | setOperate dest src op mem =>
    rw [Sys.step]
    cases hi : sys.sets[dest]? with
    | none => exact h
    | some p =>
      cases hj : sys.sets[src]? with
      | none => exact h
      | some q => exact h.put dest ((h.at hi).setOperate (h.at hj) (hc p hi q hj))
  | setEnlarge i newSize mem =>
    rw [Sys.step]
    cases hi : sys.sets[i]? with
    | none => exact h
    | some p =>
      obtain ⟨rfl, hle⟩ := hc p hi
      obtain ⟨set', henl, href, -⟩ := (h.at hi).setEnlarge hle
      exact h.put i ⟨set', henl, href⟩

end Step

/-! ## Iterating -/

section Iterate

-- `getObjectByIndex` with addresses for objects, 0 for NULL; without it a bit's number is taken.
variable (inverse : Option (Nat → Nat)) (set : LsBitset α)

/-- What a member gives: the object and the cursor. An object that is not found leaves the cursor
where it is. -/
def found (setCurrentBit : Nat) : Nat × Nat :=
  match inverse with
  | none => (setCurrentBit, setCurrentBit + 1)
  | some f =>
    if f setCurrentBit = 0 then (0, setCurrentBit) else (f setCurrentBit, setCurrentBit + 1)

/-- The loop of `setIteratorGetNextElement` over `n` bits from `setCurrentBit` on; `none` is an
access outside of the array. -/
def nextLoop : Nat → Nat → Option (Nat × Nat)
  | 0, setCurrentBit => some (0, setCurrentBit)
  | n + 1, setCurrentBit => (setTestValue set (BitVec.ofNat 32 setCurrentBit)).bind fun isMember =>
    if isMember then some (found inverse setCurrentBit) else nextLoop n (setCurrentBit + 1)

/-- `setIteratorGetNextElement`, which `setIteratorBegin` calls. -/
def getNextElement (setCurrentBit : Nat) : Option (Nat × Nat) :=
  if set.setNumElements = 0 then some (0, setCurrentBit)
  else nextLoop inverse set (set.setSize - setCurrentBit) setCurrentBit

/-- The loop of `setCat`, which ends at a NULL entry or at `setIteratorIsEndOfSet`: the entries its
body gets, or `none` if it still runs. -/
def catLoop : Nat → Nat × Nat → Option (List Nat)
  | 0, p => if p.1 = 0 ∨ set.setSize ≤ p.2 then some [] else none
  | fuel + 1, p =>
    if p.1 = 0 ∨ set.setSize ≤ p.2 then some []
    else ((getNextElement inverse set p.2).bind (catLoop fuel)).map (p.1 :: ·)

def objectOf (i : Nat) : Nat := inverse.elim i (· i)

/-- The loop ends, and its body got the members once each and in increasing order. -/
def Iterates : Prop :=
  ∃ fuel, (getNextElement inverse set 0).bind (catLoop inverse set fuel) =
    some (((range set.setSize).filter (bit set.bitmask)).map (objectOf inverse))

/-- The bit can be read, and a member there has an object and is not the last one. -/
def Good (i : Nat) : Prop :=
  (i < 2 ^ 31 ∧ i < 32 * set.bitmask.length) ∧
    (bit set.bitmask i = true → objectOf inverse i ≠ 0 ∧ i + 1 ≠ set.setSize)

variable {inverse set} {i : Nat}

theorem setTestValue_ofNat (hi : i < 2 ^ 32) : setTestValue set (BitVec.ofNat 32 i) =
    if i < 2 ^ 31 ∧ i < 32 * set.bitmask.length then some (bit set.bitmask i) else none := by
  simp only [setTestValue, toInt_neg_iff, BitVec.toNat_ofNat, Nat.mod_eq_of_lt hi, wordLength]
  split_ifs <;> first | rfl | omega

theorem catLoop_end {p : Nat × Nat} (h : p.1 = 0 ∨ set.setSize ≤ p.2) (fuel : Nat) :
    catLoop inverse set fuel p = some [] := by
  cases fuel <;> exact if_pos h

/-- Behind an entry the loop goes on with the bits that are left. -/
theorem catLoop_cons {entry : Nat} {l : List Nat} (hcount : set.setNumElements ≠ 0)
    (hentry : entry ≠ 0) (hi : i < set.setSize) :
    (∃ fuel, catLoop inverse set fuel (entry, i) = some (entry :: l)) ↔ ∃ fuel,
      (nextLoop inverse set (set.setSize - i) i).bind (catLoop inverse set fuel) = some l := by
  have hgo : ¬(entry = 0 ∨ set.setSize ≤ i) := by omega
  have hstep : ∀ fuel, catLoop inverse set (fuel + 1) (entry, i) = ((nextLoop inverse set
      (set.setSize - i) i).bind (catLoop inverse set fuel)).map (entry :: ·) := by
    intro fuel
    rw [catLoop, if_neg hgo, getNextElement, if_neg hcount]
  constructor
  · rintro ⟨_ | fuel, h⟩
    · rw [catLoop, if_neg hgo] at h
      cases h
    · rw [hstep] at h
      obtain ⟨l', hl, heq⟩ := Option.map_eq_some_iff.mp h
      exact ⟨fuel, (cons.inj heq).2 ▸ hl⟩
  · rintro ⟨fuel, h⟩
    exact ⟨fuel + 1, by rw [hstep, h, Option.map_some]⟩

theorem found_eq : ∃ cur, found inverse i = (objectOf inverse i, cur) ∧
    (objectOf inverse i ≠ 0 → cur = i + 1) := by
  cases inverse with
  | none => exact ⟨i + 1, rfl, fun _ => rfl⟩
  | some f =>
    by_cases h0 : f i = 0
    · exact ⟨i, by simp [found, objectOf, h0], fun h => absurd h0 h⟩
    · exact ⟨i + 1, by simp [found, objectOf, h0], fun _ => rfl⟩

-- By induction on the bits that are left.
theorem catLoop_iff (hsize : set.setSize < 2 ^ 32) (hcount : set.setNumElements ≠ 0) (n i : Nat)
    (hn : i + n = set.setSize) :
    (∃ fuel, (nextLoop inverse set n i).bind (catLoop inverse set fuel) =
      some (((range' i n).filter (bit set.bitmask)).map (objectOf inverse))) ↔
    ∀ k ∈ range' i n, Good inverse set k := by
  induction n generalizing i with
  | zero => simp [nextLoop, catLoop_end]
  | succ n ih =>
    have htest : setTestValue set _ = _ := setTestValue_ofNat (by omega : i < 2 ^ 32)
    rw [range'_succ, forall_mem_cons, ← ih (i + 1) (by omega)]
    by_cases hread : i < 2 ^ 31 ∧ i < 32 * set.bitmask.length
    swap
    · rw [nextLoop, htest, if_neg hread]
      exact iff_of_false (fun ⟨_, h⟩ => nomatch h) fun h => hread h.1.1
    rw [if_pos hread] at htest
    cases hbit : bit set.bitmask i with
    | false =>
      have hgood : Good inverse set i := ⟨hread, by simp [hbit]⟩
      simp [nextLoop, htest, hgood, hbit]
    | true =>
      obtain ⟨cur, hfound, hcur⟩ := @found_eq inverse i
      rw [filter_cons_of_pos hbit, map_cons]
      simp only [nextLoop, htest, hbit, Option.bind_some, if_true, hfound]
      by_cases hlast : objectOf inverse i = 0 ∨ i + 1 = set.setSize
      · refine iff_of_false ?_ fun h => ?_
        · rintro ⟨fuel, h⟩
          rw [catLoop_end (by grind)] at h
          cases h
        · have := h.1.2 hbit
          omega
      · obtain ⟨h0, hne⟩ := not_or.mp hlast
        have hgood : Good inverse set i := ⟨hread, fun _ => ⟨h0, hne⟩⟩
        have hleft : set.setSize - (i + 1) = n := by omega
        rw [hcur h0, catLoop_cons hcount h0 (by omega), hleft]
        simp [hgood]

/-- **Iterating gives the members exactly if they are counted, lie in the array and have objects,
and none of them is at the last bit.** -/
theorem iterates_iff (hsize : set.setSize < 2 ^ 32) : Iterates inverse set ↔
    (∀ i < set.setSize, bit set.bitmask i = true →
      set.setNumElements ≠ 0 ∧ objectOf inverse i ≠ 0 ∧ i + 1 ≠ set.setSize) ∧
    (set.setNumElements ≠ 0 → set.setSize ≤ 2 ^ 31 ∧ set.setSize ≤ 32 * set.bitmask.length) := by
  by_cases hcount : set.setNumElements = 0
  · have hend : ∀ fuel,
        (getNextElement inverse set 0).bind (catLoop inverse set fuel) = some [] := by
      intro fuel
      rw [getNextElement, if_pos hcount]
      exact catLoop_end (Or.inl rfl) fuel
    simp [Iterates, hend, hcount, filter_eq_nil_iff]
  · rw [Iterates, getNextElement, if_neg hcount, Nat.sub_zero, range_eq_range',
      catLoop_iff hsize hcount _ 0 (Nat.zero_add _), ← range_eq_range']
    simp only [mem_range]
    constructor
    · intro h
      refine ⟨fun i hi hbit => ⟨hcount, (h i hi).2 hbit⟩, fun _ => ?_⟩
      rcases Nat.eq_zero_or_pos set.setSize with h0 | hpos
      · omega
      · have := (h (set.setSize - 1) (by omega)).1
        omega
    · intro h i hi
      have := h.2 hcount
      exact ⟨by omega, fun hbit => (h.1 i hi hbit).2⟩

end Iterate

theorem iterates_two : Iterates none (⟨[34], 32, 1, 2, none⟩ : LsBitset Nat) :=
  (iterates_iff (by decide)).mpr (by decide)

/-- Of the numbers 1 and 31 the loop sees the first only. -/
theorem last_bit_lost : ¬ Iterates none (⟨[0x80000002], 32, 1, 2, none⟩ : LsBitset Nat) := by
  rintro ⟨fuel, h⟩
  rw [range_eq_range'] at h
  have hall := (catLoop_iff (by decide) (by decide) _ 0 (Nat.zero_add _)).mp ⟨fuel, h⟩
  exact ((hall 31 (by decide)).2 (by decide)).2 rfl

end BitSet

open BitSet

/-- **In every run of careful calls every set is counted and asked right, in every state.** -/
theorem sets_exact {α : Type} (value : α → BitVec 32) (calls : List (Call α))
    (h : Run.Along (Sys.step value) (Careful value) Sys.init calls) (n : Nat) :
    (Run.run (Sys.step value) Sys.init (calls.take n)).fault = false ∧
    ∀ p ∈ (Run.run (Sys.step value) Sys.init (calls.take n)).sets, Exact value p.1 p.2 := by
  have hinit : (Sys.init : Sys α).Sound := ⟨rfl, fun p hp => absurd hp not_mem_nil⟩
  have hinv : (Run.run (Sys.step value) Sys.init (calls.take n)).Sound :=
    Run.inv_take (fun sys c hc hs => step_refines hc hs) hinit h n
  exact ⟨hinv.1, fun p hp => (hinv.2 p hp).exact⟩

/-- Two sets of numbers: one grows to hold the other's elements, and one is taken from the other. -/
def carefulCalls : List (Call (BitVec 32)) := [
  .setCreate 32 none true, .setCreate 0 none true, .setDup 1 true, .setAddElement 0 3 true,
  .setAddElement 0 70 true, .setAddElement 1 3 true, .setOperate 1 0 .union true,
  .setRemoveElement 0 70, .setOperate 1 0 .difference true, .setAddElement 2 5 true,
  .setOperate 2 1 .assign true, .setEnlarge 0 4 true, .setClear 1, .setOperate 0 1 .intersect true]

theorem careful_calls_exact : Run.Along (Sys.step id) (Careful id) Sys.init carefulCalls ∧
    (Run.run (Sys.step id) Sys.init (carefulCalls.take 14)).fault = false ∧
    ∀ p ∈ (Run.run (Sys.step id) Sys.init (carefulCalls.take 14)).sets, Exact id p.1 p.2 := by
  have halong : Run.Along (Sys.step id) (Careful id) Sys.init carefulCalls := by decide +kernel
  exact ⟨halong, sets_exact id carefulCalls halong 14⟩

/-- A copy has its elements, and counts them, but does not find them; and a difference puts the
elements of the second set into the first. -/
theorem dup_loses_members :
    (∃ set a, (Run.run (Sys.step id) Sys.init [.setCreate 32 none true, .setAddElement 0 3 true,
        .setDup 0 true]).sets[1]? = some (set, a) ∧ a.elems = {3} ∧ members set.bitmask = {3} ∧
      setGetNumElements set = 1 ∧ setIsMember id set 3 = some 0 ∧ ¬ Exact id set a) ∧
    (∃ set a, (Run.run (Sys.step id) Sys.init [.setCreate 32 none true, .setCreate 32 none true,
        .setAddElement 0 1 true, .setAddElement 1 2 true,
        .setOperate 0 1 .difference true]).sets[0]? = some (set, a) ∧ a.elems = {1} ∧
      setGetNumElements set = 2 ∧ setIsMember id set 2 = some 1 ∧ ¬ Exact id set a) := by
  constructor
  · refine ⟨_, _, rfl, by decide +kernel, by decide +kernel, by decide +kernel, by decide +kernel,
      ?_⟩
    rintro ⟨-, -, hmem⟩
    obtain ⟨r, hr, hiff⟩ := hmem 3
    have h1 : r = 1 := hiff.mpr ⟨by decide +kernel, by decide +kernel⟩
    exact absurd (h1 ▸ hr) (by decide +kernel)
  · refine ⟨_, _, rfl, by decide +kernel, by decide +kernel, by decide +kernel, ?_⟩
    rintro ⟨-, hcard, -⟩
    exact absurd hcard (by decide +kernel)

end Volclava
