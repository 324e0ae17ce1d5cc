import Mathlib

/-!
# Limits that may be lent against

A limit counts slots that are busy and slots that are held by someone who is not using them. What
is free is the limit without both. Code that may count on held slots offers more than what is
free, but never more than the limit without the busy slots. Several limits together offer the least
of what each of them offers.

- `room_le_free_iff`: when a loan makes no difference.
- `room_eq_most`: a loan of all held slots.
- `least_le_iff`: what several limits offer together.
-/

/-- A limit with the slots counted against it. -/
structure Cap where
  limit : Int
  busy : Nat
  held : Nat
  deriving DecidableEq

namespace Cap

/-- The slots that nobody has. -/
def free (c : Cap) : Int := max 0 (c.limit - (c.busy + c.held))

/-- The slots that nobody is using. -/
def most (c : Cap) : Int := max 0 (c.limit - c.busy)

/-- What the limit offers to someone to whom `lent` held slots are lent. -/
def room (c : Cap) (lent : Int) : Int := max 0 (min (c.free + lent) (c.limit - c.busy))

theorem room_le_most (c : Cap) (lent : Int) : c.room lent ≤ c.most :=
  max_le_max le_rfl (min_le_right _ _)

theorem room_zero (c : Cap) : c.room 0 = c.free := by
  rw [room, free]
  omega

theorem room_eq_most {c : Cap} {lent : Int} (h : c.held ≤ lent) : c.room lent = c.most := by
  rw [room, most, free]
  omega

theorem most_le_free_iff (c : Cap) : c.most ≤ c.free ↔ c.held = 0 ∨ c.limit ≤ c.busy := by
  rw [most, free]
  omega

theorem room_le_free_iff {c : Cap} {lent : Int} (h : 0 < lent) :
    c.room lent ≤ c.free ↔ c.held = 0 ∨ c.limit ≤ c.busy := by
  rw [room, free]
  omega

/-! ## Several limits -/

/-- The least of some offers; without any of them there is `top`. -/
def least (top : Int) (rooms : List Int) : Int := rooms.foldr min top

@[simp] theorem least_nil (top : Int) : least top [] = top := rfl

@[simp] theorem least_cons (top r : Int) (rooms : List Int) :
    least top (r :: rooms) = min r (least top rooms) := rfl

theorem least_append (top : Int) (rooms rooms' : List Int) :
    least top (rooms ++ rooms') = min (least top rooms) (least top rooms') := by
  induction rooms with
  | nil =>
    have hle : least top rooms' ≤ top := by
      induction rooms' with
      | nil => exact le_rfl
      | cons r rooms' ih => exact (min_le_right _ _).trans ih
    simp [hle]
  | cons r rooms ih => simp [ih, min_assoc]

theorem least_le_iff {top x : Int} {rooms : List Int} :
    least top rooms ≤ x ↔ top ≤ x ∨ ∃ r ∈ rooms, r ≤ x := by
  induction rooms with
  | nil => simp
  | cons r rooms ih =>
    rw [least_cons, min_le_iff, ih]
    constructor
    · rintro (h | h | ⟨r', hr', h⟩)
      · exact .inr ⟨r, List.mem_cons_self .., h⟩
      · exact .inl h
      · exact .inr ⟨r', List.mem_cons_of_mem _ hr', h⟩
    · rintro (h | ⟨r', hr', h⟩)
      · exact .inr (.inl h)
      · rcases List.mem_cons.mp hr' with rfl | hr'
        · exact .inl h
        · exact .inr (.inr ⟨r', hr', h⟩)

end Cap
