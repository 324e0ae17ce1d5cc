import Mathlib

/-!
# Lifetimes of heap objects

A memory says of each object whether it has been allocated and whether it has been freed. An object
that is used or freed while it is not live raises the fault, which stays. Using a live object
changes nothing, so a proof that keeps track of what is live need not look at uses again.
-/

namespace Lifetime

/-- The three stages of an object. -/
inductive Life where
  | fresh | live | freed
  deriving DecidableEq, Repr

structure Mem (ι : Type*) where
  life : ι → Life
  fault : Bool

variable {ι : Type*}

namespace Mem

def init : Mem ι := ⟨fun _ => .fresh, false⟩

/-- An object is read or written. -/
def use (o : ι) (m : Mem ι) : Mem ι := if m.life o = .live then m else { m with fault := true }

variable {m : Mem ι} {o : ι}

theorem use_of_live (h : m.life o = .live) : m.use o = m := if_pos h

variable [DecidableEq ι]

/-- A new object is allocated. -/
def alloc (o : ι) (m : Mem ι) : Mem ι := { m with life := Function.update m.life o .live }

def release (o : ι) (m : Mem ι) : Mem ι where
  life := Function.update m.life o .freed
  fault := m.fault || m.life o ≠ .live

theorem release_of_live (h : m.life o = .live) :
    m.release o = { m with life := Function.update m.life o .freed } := by
  unfold release
  simp [h]

end Mem

end Lifetime
