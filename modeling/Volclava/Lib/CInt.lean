import Mathlib

/-!
# Numbers in C

A computation whose result is stored in a 32-bit `int` keeps its value only within the range of
the type; beyond it the value comes back at the other end.

- `wrap`: the value that is stored.
- `wrap_of_int`, `wrap_of_overflow`: within the range, and past its upper end.
- `toInt_add_eq`, `toInt_sub_eq`, `toInt_mul_eq`: an operation of `Int32` that stays in the range.
- `Arith`: what a machine does to the results of a computation.
- `atoi`: the value of a run of digits.
-/

namespace CInt

/-- The largest `int`. -/
def intMax : Int := 2147483647

/-- The value of a computation that is stored in an `int`. -/
def wrap (x : Int) : Int := x.bmod (2 ^ 32)

theorem wrap_of_int {x : Int} (hl : -2147483648 ≤ x) (hu : x ≤ intMax) : wrap x = x := by
  unfold wrap intMax at *
  rw [Int.bmod_def]
  split_ifs <;> omega

/-- A sum that leaves the range upwards by less than the range comes back negative. -/
theorem wrap_of_overflow {x : Int} (hl : intMax < x) (hu : x ≤ 2 * intMax) :
    wrap x = x - 4294967296 ∧ wrap x < 0 := by
  unfold wrap intMax at *
  rw [Int.bmod_def]
  split_ifs <;> omega

theorem wrap_le (x : Int) : wrap x ≤ intMax := by
  unfold wrap intMax
  rw [Int.bmod_def]
  split_ifs <;> omega

theorem bmod_of_int {x : Int} (hl : -2 ^ 31 ≤ x) (hu : x < 2 ^ 31) : x.bmod (2 ^ 32) = x :=
  wrap_of_int (by omega) (by rw [intMax]; omega)

theorem toInt_add_eq {a b : Int32} (hl : -2 ^ 31 ≤ a.toInt + b.toInt)
    (hu : a.toInt + b.toInt < 2 ^ 31) : (a + b).toInt = a.toInt + b.toInt := by
  rw [Int32.toInt_add, bmod_of_int hl hu]

theorem toInt_sub_eq {a b : Int32} (hl : -2 ^ 31 ≤ a.toInt - b.toInt)
    (hu : a.toInt - b.toInt < 2 ^ 31) : (a - b).toInt = a.toInt - b.toInt := by
  rw [Int32.toInt_sub, bmod_of_int hl hu]

theorem toInt_mul_eq {a b : Int32} (hl : -2 ^ 31 ≤ a.toInt * b.toInt)
    (hu : a.toInt * b.toInt < 2 ^ 31) : (a * b).toInt = a.toInt * b.toInt := by
  rw [Int32.toInt_mul, bmod_of_int hl hu]

theorem toInt_ofNat_eq {n : Nat} (h : n < 2 ^ 31) : (Int32.ofNat n).toInt = n := by
  rw [Int32.toInt_ofNat']
  exact bmod_of_int (by omega) (by omega)

/-- How the results of computations in `int`, `float` and `double` are stored. Nothing is assumed of
the rounding, nor of an `int` that overflows. -/
structure Arith where
  int : ℤ → ℤ
  flt : ℚ → ℚ
  dbl : ℚ → ℚ
  int_eq : ∀ z, -2 ^ 31 ≤ z → z < 2 ^ 31 → int z = z

/-- Unbounded integers, and no rounding. -/
def Arith.exact : Arith := ⟨id, id, id, fun _ _ _ => rfl⟩

theorem Arith.int_of_nonneg (ar : Arith) {z : ℤ} (hl : 0 ≤ z) (hu : z < 2 ^ 31) : ar.int z = z :=
  ar.int_eq z (by omega) hu

/-- `atoi` of a run of digits: `strtol` stops at `LONG_MAX`, and the result is cut to an `int`. -/
def atoi (digits : Nat) : Int := if digits < 2 ^ 63 then wrap digits else -1

theorem atoi_le (n : Nat) : atoi n ≤ intMax := by
  unfold atoi
  split_ifs
  · exact wrap_le _
  · decide

end CInt
