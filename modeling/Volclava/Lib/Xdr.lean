import Mathlib

/-!
# Reading XDR words

XDR stores every item in whole words of four bytes, the most significant byte first. A reader takes
the items it needs off the front of a byte string and leaves the rest; `uInt_putUInt` says that it
finds the word that was put there.
-/

namespace Xdr

abbrev Byte := BitVec 8

/-- Takes one word. -/
def uInt : List Byte → Option (BitVec 32 × List Byte)
  | a :: b :: c :: d :: rest => some (a ++ b ++ c ++ d, rest)
  | _ => none

theorem uInt_append {bs rest : List Byte} {w : BitVec 32} (h : uInt bs = some (w, rest))
    (more : List Byte) : uInt (bs ++ more) = some (w, rest ++ more) := by
  match bs with
  | a :: b :: c :: d :: tail =>
    simp only [uInt, Option.some.injEq, Prod.mk.injEq] at h
    obtain ⟨rfl, rfl⟩ := h
    rfl
  | [] | [_] | [_, _] | [_, _, _] => cases h

theorem length_of_uInt {bs rest : List Byte} {w : BitVec 32} (h : uInt bs = some (w, rest)) :
    bs.length = 4 + rest.length := by
  match bs with
  | a :: b :: c :: d :: tail =>
    simp only [uInt, Option.some.injEq, Prod.mk.injEq] at h
    obtain ⟨-, rfl⟩ := h
    simp only [List.length_cons]
    omega
  | [] | [_] | [_, _] | [_, _, _] => cases h

theorem exists_uInt {bs : List Byte} (h : 4 ≤ bs.length) :
    ∃ w rest, uInt bs = some (w, rest) ∧ bs.length = 4 + rest.length := by
  match bs with
  | a :: b :: c :: d :: tail => exact ⟨_, tail, rfl, length_of_uInt rfl⟩
  | [] | [_] | [_, _] | [_, _, _] => simp at h

/-- The four bytes of a word. -/
def putUInt (w : BitVec 32) : List Byte :=
  [w.extractLsb' 24 8, w.extractLsb' 16 8, w.extractLsb' 8 8, w.extractLsb' 0 8]

theorem append_extractLsb (w : BitVec 32) : w.extractLsb' 24 8 ++ w.extractLsb' 16 8 ++
    w.extractLsb' 8 8 ++ w.extractLsb' 0 8 = w := by
  rw [BitVec.extractLsb'_append_extractLsb'_eq_extractLsb' (by norm_num : 24 = 16 + 8),
    BitVec.extractLsb'_append_extractLsb'_eq_extractLsb' (by norm_num : 16 = 8 + 8),
    BitVec.extractLsb'_append_extractLsb'_eq_extractLsb' (by norm_num : 8 = 0 + 8)]
  exact BitVec.extractLsb'_eq_self

theorem uInt_putUInt (w : BitVec 32) (rest : List Byte) :
    uInt (putUInt w ++ rest) = some (w, rest) := by
  show some (_, rest) = _
  rw [append_extractLsb]

end Xdr
