import Mathlib.Logic.Relation
import Mathlib.Order.WellFounded

/-!
# Machines that may run for ever

A step function either goes on to a next state or stops with a result. A run is executed with a
fuel that bounds its steps, and the machine halts when some fuel is enough.

- `halts_iff`: if every step that does not start in a stuck state decreases a well-founded measure,
  and a stuck state is only followed by stuck states, then the machine halts exactly when its run
  never comes to a stuck state.
-/

namespace Halting

variable {σ ρ : Type*} (step : σ → σ ⊕ ρ)

/-- At most `n` steps from a state. -/
def exec : Nat → σ → Option ρ
  | 0, _ => none
  | n + 1, s =>
    match step s with
    | .inl s' => exec n s'
    | .inr r => some r

def Returns (s : σ) (r : ρ) : Prop := ∃ n, exec step n s = some r

def Halts (s : σ) : Prop := ∃ r, Returns step s r

/-- The states that a run from `s` comes to. -/
def Reaches (s t : σ) : Prop := Relation.ReflTransGen (fun s t => step s = .inl t) s t

variable {step} {s t : σ} {r r' : ρ}

theorem exec_of_inl (h : step s = .inl t) (n : Nat) : exec step (n + 1) s = exec step n t := by
  simp [exec, h]

theorem exec_of_inr (h : step s = .inr r) (n : Nat) : exec step (n + 1) s = some r := by
  simp [exec, h]

theorem returns_of_inr (h : step s = .inr r) : Returns step s r := ⟨1, exec_of_inr h 0⟩

theorem returns_iff_of_inl (h : step s = .inl t) : Returns step s r ↔ Returns step t r := by
  constructor
  · intro hret
    obtain ⟨n, hn⟩ := hret
    cases n with
    | zero => simp [exec] at hn
    | succ n => exact ⟨n, (exec_of_inl h n).symm.trans hn⟩
  · intro hret
    obtain ⟨n, hn⟩ := hret
    exact ⟨n + 1, (exec_of_inl h n).trans hn⟩

theorem returns_iff_of_reaches (h : Reaches step s t) : Returns step s r ↔ Returns step t r := by
  induction h with
  | refl => exact Iff.rfl
  | tail _ hlast ih => exact ih.trans (returns_iff_of_inl hlast)

theorem halts_iff_of_reaches (h : Reaches step s t) : Halts step s ↔ Halts step t :=
  exists_congr fun _ => returns_iff_of_reaches h

/-! ## Stuck states -/

section Stuck

variable {Stuck : σ → Prop}

/-- From a stuck state no fuel is enough. -/
theorem exec_of_stuck (hstuck : ∀ s, Stuck s → ∃ t, step s = .inl t ∧ Stuck t) (hs : Stuck s)
    (n : Nat) : exec step n s = none := by
  induction n generalizing s with
  | zero => rfl
  | succ n ih =>
    obtain ⟨t, hst, ht⟩ := hstuck s hs
    rw [exec_of_inl hst]
    exact ih ht

theorem not_halts_of_stuck (hstuck : ∀ s, Stuck s → ∃ t, step s = .inl t ∧ Stuck t)
    (hs : Stuck s) : ¬ Halts step s := by
  intro hhalts
  obtain ⟨r, n, hn⟩ := hhalts
  rw [exec_of_stuck hstuck hs] at hn
  simp at hn

variable {β : Type*} {lt : β → β → Prop} {measure : σ → β}

theorem halts_of_never_stuck (hwf : WellFounded lt)
    (hstep : ∀ s t, ¬ Stuck s → step s = .inl t → lt (measure t) (measure s))
    (hs : ∀ t, Reaches step s t → ¬ Stuck t) : Halts step s := by
  -- The induction is on the measure of the state the run is in.
  generalize hb : measure s = b
  induction b using hwf.induction generalizing s with
  | _ b ih =>
    cases hst : step s with
    | inr r => exact ⟨r, returns_of_inr hst⟩
    | inl t =>
      have hlt := hstep s t (hs s .refl) hst
      have hreach : Reaches step s t := .single hst
      refine (halts_iff_of_reaches hreach).mpr (ih _ (hb ▸ hlt) ?_ rfl)
      intro u hu
      exact hs u (hreach.trans hu)

/-- **The machine halts exactly when its run never comes to a stuck state.** -/
theorem halts_iff (hwf : WellFounded lt)
    (hstep : ∀ s t, ¬ Stuck s → step s = .inl t → lt (measure t) (measure s))
    (hstuck : ∀ s, Stuck s → ∃ t, step s = .inl t ∧ Stuck t) :
    Halts step s ↔ ∀ t, Reaches step s t → ¬ Stuck t := by
  constructor
  · intro hhalts t hreach ht
    exact not_halts_of_stuck hstuck ht ((halts_iff_of_reaches hreach).mp hhalts)
  · exact halts_of_never_stuck hwf hstep

end Stuck

end Halting
