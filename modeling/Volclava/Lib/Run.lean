import Mathlib

/-!
# Runs of a deterministic machine

A machine is a step function `step : σ → ε → σ`; a run is the list of events it takes from a
start state. `Along` says that every event of a run meets a condition in the state in which it
is taken. `inv_run` is the induction every safety result of a machine goes through: an
invariant that holds at the start and is kept by each event meeting the condition holds in
every state the run passes through.
-/

namespace Run

variable {σ ε : Type*} {step : σ → ε → σ} {ok : σ → ε → Prop} {Inv : σ → Prop}

/-- The state after the events of a run, taken from left to right. -/
def run (step : σ → ε → σ) (s : σ) (es : List ε) : σ := es.foldl step s

@[simp] theorem run_nil (s : σ) : run step s [] = s := rfl

@[simp] theorem run_cons (s : σ) (e : ε) (es : List ε) :
    run step s (e :: es) = run step (step s e) es := rfl

theorem run_append (s : σ) (es fs : List ε) :
    run step s (es ++ fs) = run step (run step s es) fs := List.foldl_append

/-- Every event of the run meets `ok` in the state in which it is taken. -/
def Along (step : σ → ε → σ) (ok : σ → ε → Prop) : σ → List ε → Prop
  | _, [] => True
  | s, e :: es => ok s e ∧ Along step ok (step s e) es

instance decidableAlong [∀ s e, Decidable (ok s e)] :
    ∀ (s : σ) (es : List ε), Decidable (Along step ok s es)
  | _, [] => inferInstanceAs (Decidable True)
  | s, e :: es =>
    have := decidableAlong (step s e) es
    inferInstanceAs (Decidable (ok s e ∧ Along step ok (step s e) es))

theorem Along.take {s : σ} {es : List ε} (h : Along step ok s es) (n : Nat) :
    Along step ok s (es.take n) := by
  induction es generalizing s n with
  | nil => simpa using h
  | cons e es ih =>
    cases n with
    | zero => trivial
    | succ n => exact ⟨h.1, ih h.2 n⟩

/-- An event of the run meets `ok` in the state reached by the events before it. -/
theorem Along.at {s : σ} {es : List ε} (h : Along step ok s es) {n : Nat} {e : ε}
    (he : es[n]? = some e) : ok (run step s (es.take n)) e := by
  induction es generalizing s n with
  | nil => simp at he
  | cons f es ih =>
    cases n with
    | zero =>
      obtain rfl : f = e := by simpa using he
      exact h.1
    | succ n => exact ih h.2 (by simpa using he)

/-- **The induction rule for runs.** -/
theorem inv_run (hstep : ∀ s e, ok s e → Inv s → Inv (step s e)) {s : σ} {es : List ε}
    (h0 : Inv s) (h : Along step ok s es) : Inv (run step s es) := by
  induction es generalizing s with
  | nil => exact h0
  | cons e es ih => exact ih (hstep s e h.1 h0) h.2

/-- What every event preserves holds after every run. -/
theorem inv_all (hstep : ∀ s e, Inv s → Inv (step s e)) {s : σ} (h0 : Inv s) (es : List ε) :
    Inv (run step s es) := by
  induction es generalizing s with
  | nil => exact h0
  | cons e es ih => exact ih (hstep s e h0)

/-- The invariant holds in every state the run passes through, not only in its last one. -/
theorem inv_take (hstep : ∀ s e, ok s e → Inv s → Inv (step s e)) {s : σ} {es : List ε}
    (h0 : Inv s) (h : Along step ok s es) (n : Nat) : Inv (run step s (es.take n)) :=
  inv_run hstep h0 (h.take n)

/-- **Progress**: what waits at a position gets what it waits for, or `R` fails there and it still
waits at the next one; so it gets it at the latest when `R` holds. -/
theorem leads_to {P Q R : Nat → Prop} (hstep : ∀ n, P n → Q n ∨ ¬R n ∧ P (n + 1)) {n m : Nat}
    (hm : n ≤ m) (hp : P n) (hr : R m) : ∃ k ≥ n, Q k := by
  by_contra hno
  push Not at hno
  have hwait : ∀ k ≥ n, P k := by
    intro k hk
    induction k, hk using Nat.le_induction with
    | base => exact hp
    | succ k hk ih => exact ((hstep k ih).resolve_left (hno k hk)).2
  exact ((hstep m (hwait m hm)).resolve_left (hno m hm)).1 hr

end Run
