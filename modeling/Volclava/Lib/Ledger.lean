import Mathlib

/-!
# Ledgers with a floor at zero

A ledger keeps one integer for every account `k`. The accounts are meant to show, at any
time, the sum over a table of entries of what each entry puts on the account (`Balanced`).
Movements are added with a floor at zero (`satAdd`), so a movement that would take an account
below zero is lost in part and the ledger silently stops being balanced. How a sum is stored is a
parameter `r`.

- `Balanced b w t`: every account of `b` is the sum of the weights `w` over the table `t`.
- `Balanced.focus`: one entry is singled out; the rest of every account is non-negative, and
  whoever brings the accounts to the rest plus the new entry's weight has balanced them again.
- `post`, `post_apply`: one movement posted to several accounts.
-/

namespace Ledger

open List

variable {κ ι α : Type*}

/-- Addition with a floor at zero, of sums stored by `r`. -/
def satAdd (r : Int → Int) (v d : Int) : Int := if 0 ≤ r (v + d) then r (v + d) else 0

theorem satAdd_of_nonneg {r : Int → Int} {v d : Int} (hr : r (v + d) = v + d) (h : 0 ≤ v + d) :
    satAdd r v d = v + d := by
  rw [satAdd, hr, if_pos h]

/-! ## Balanced ledgers -/

/-- Every account is the sum of what the entries of the table put on it. -/
def Balanced (b : κ → Int) (w : α → κ → Int) (t : List α) : Prop :=
  ∀ k, b k = (t.map (w · k)).sum

theorem Balanced.nil (w : α → κ → Int) : Balanced (fun _ => 0) w [] := fun _ => rfl

variable {t : List α}

theorem Balanced.append {b b' : κ → Int} {w : α → κ → Int} (h : Balanced b w t)
    (xs : List α) (h' : ∀ k, b' k = b k + (xs.map (w · k)).sum) : Balanced b' w (t ++ xs) := by
  intro k
  rw [h' k, h k, map_append, sum_append]

variable {n : Nat}

theorem sum_map_set {f : α → Int} (hn : n < t.length) (x : α) :
    ((t.set n x).map f).sum = (t.map f).sum - f t[n] + f x := by
  rw [map_set, sum_set', dif_pos (by simpa using hn), getElem_map]
  ring

theorem le_sum_map {f : α → Int} (hf : ∀ x ∈ t, 0 ≤ f x)
    (hn : n < t.length) : f t[n] ≤ (t.map f).sum :=
  single_le_sum (forall_mem_map.2 hf) _ (mem_map_of_mem (getElem_mem hn))

theorem forall_mem_set {p : α → Prop} (h : ∀ x ∈ t, p x) {x : α}
    (hx : p x) : ∀ y ∈ t.set n x, p y := fun y hy =>
  (mem_or_eq_of_mem_set hy).elim (h y) fun heq => heq ▸ hx

/-- **Focus on one entry.** The accounts split into the focused entry's weight and a
non-negative rest, and accounts that show the rest plus another entry's weight are balanced
for the table in which that entry took the focused one's place. -/
theorem Balanced.focus {b : κ → Int} {w : α → κ → Int} (h : Balanced b w t)
    (hw : ∀ x ∈ t, ∀ k, 0 ≤ w x k) (hn : n < t.length) :
    ∃ rest : κ → Int, (∀ k, 0 ≤ rest k) ∧ (∀ k, b k = rest k + w t[n] k) ∧
      ∀ b' x, (∀ k, b' k = rest k + w x k) → Balanced b' w (t.set n x) := by
  refine ⟨fun k => (t.map (w · k)).sum - w t[n] k, fun k => ?_, fun k => ?_, ?_⟩
  · exact sub_nonneg.2 (le_sum_map (fun x hx => hw x hx k) hn)
  · rw [h k]; ring
  · intro b' x hb' k
    rw [hb' k, sum_map_set hn]

/-- The rest of every account, and room for `n` in an `int` beside it. -/
structure Room (rest : κ → Int) (n : Int) : Prop where
  nonneg : ∀ k, 0 ≤ rest k
  one_le : 1 ≤ n
  lt : ∀ k, rest k + n < 2 ^ 31

/-! ## Postings -/

section Post

variable [DecidableEq κ] (r : Int → Int)

/-- Post the movement `d` to the account `k`, counter by counter. -/
def post1 (L : κ → ι → Int) (k : κ) (d : ι → Int) : κ → ι → Int :=
  Function.update L k fun i => satAdd r (L k i) (d i)

/-- Post the movement `d` to each account of `ks` in turn. -/
def post (L : κ → ι → Int) (ks : List κ) (d : ι → Int) : κ → ι → Int :=
  ks.foldl (fun L k => post1 r L k d) L

/-- The counters among `is` that a posting takes below zero, in the order they are hit. -/
def floored (is : List ι) (L : κ → ι → Int) : List κ → (ι → Int) → List ι
  | [], _ => []
  | k :: ks, d => is.filter (fun i => r (L k i + d i) < 0) ++ floored is (post1 r L k d) ks d

theorem post1_apply (L : κ → ι → Int) (k k' : κ) (d : ι → Int) (i : ι) :
    post1 r L k d k' i = if k' = k then satAdd r (L k' i) (d i) else L k' i := by
  unfold post1
  by_cases h : k' = k
  · subst h; simp
  · simp [h]

variable {ks : List κ}

theorem post_apply (hks : ks.Nodup) (L : κ → ι → Int) (d : ι → Int) (k : κ)
    (i : ι) : post r L ks d k i = if k ∈ ks then satAdd r (L k i) (d i) else L k i := by
  induction ks generalizing L with
  | nil => simp [post]
  | cons k₀ ks ih =>
    obtain ⟨hk₀, hks⟩ := nodup_cons.1 hks
    show post r (post1 r L k₀ d) ks d k i = _
    rw [ih hks, post1_apply]
    by_cases hk : k = k₀
    · subst hk; simp [hk₀]
    · simp [hk]

variable {L : κ → ι → Int} {d : ι → Int}

/-- An account that is posted to several times and stays in the black. -/
theorem post_count {k : κ} {i : ι} (h0 : 0 ≤ L k i) (h : 0 ≤ L k i + ks.count k * d i) :
    post id L ks d k i = L k i + ks.count k * d i := by
  induction ks generalizing L with
  | nil => simp [post]
  | cons k₀ ks ih =>
    show post id (post1 id L k₀ d) ks d k i = _
    by_cases hk : k₀ = k
    · subst hk
      rw [count_cons_self] at h ⊢
      push_cast at h ⊢
      have hstep : 0 ≤ L k₀ i + d i := by
        rcases le_total 0 (d i) with hd | hd
        · omega
        · nlinarith [Int.natCast_nonneg (ks.count k₀)]
      have hval : post1 id L k₀ d k₀ i = L k₀ i + d i := by
        rw [post1_apply, if_pos rfl, satAdd_of_nonneg rfl hstep]
      rw [ih (by rw [hval]; exact hstep) (by rw [hval]; linarith), hval]
      ring
    · have hval : post1 id L k₀ d k i = L k i := by
        rw [post1_apply, if_neg (Ne.symm hk)]
      rw [count_cons_of_ne hk] at h ⊢
      rw [ih (by rw [hval]; exact h0) (by rw [hval]; exact h), hval]

end Post

end Ledger
