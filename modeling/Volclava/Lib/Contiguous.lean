import Mathlib

/-!
# Lists in contiguous runs

A list is contiguous for a relation when elements related to each other have only elements
related to them in between: the classes of the relation form runs. Stated over sublists of
three, the property passes to every sublist, and an insertion is checked against the elements
before and after it.

- `Contiguous`: the property.
- `Contiguous.sublist`, `Contiguous.reverse`: sublists and the list read backwards.
- `Contiguous.insert`, `pairwise_insert`: inserting one element.
- `Contiguous.count_drop`: cutting into the first run.
-/

namespace Runs

open List

variable {α : Type*} {r : α → α → Prop}

/-- Elements between two related elements are related to them. -/
def Contiguous (r : α → α → Prop) (l : List α) : Prop :=
  ∀ x y z, [x, y, z].Sublist l → r x z → r x y

variable {l : List α}

theorem Contiguous.sublist {l' : List α} (h : Contiguous r l) (hl : l'.Sublist l) :
    Contiguous r l' :=
  fun x y z hs => h x y z (hs.trans hl)

theorem Contiguous.nil (r : α → α → Prop) : Contiguous r [] := by
  intro x y z h
  cases h

theorem Contiguous.reverse (hr : Equivalence r) (h : Contiguous r l) :
    Contiguous r l.reverse := by
  intro x y z hs hxz
  have hs' : [z, y, x].Sublist l := by simpa using hs.reverse
  exact hr.trans hxz (h z y x hs' (hr.symm hxz))

theorem Contiguous.of_reverse (hr : Equivalence r) (h : Contiguous r l.reverse) :
    Contiguous r l := by
  rw [← reverse_reverse l]
  exact h.reverse hr

variable {a : α}

/-- A sublist of a list with one more element uses the element or not. -/
theorem sublist_insert {l₁ l₂ s : List α} (h : s.Sublist (l₁ ++ a :: l₂)) :
    s.Sublist (l₁ ++ l₂) ∨
      ∃ s₁ s₂, s = s₁ ++ a :: s₂ ∧ s₁.Sublist l₁ ∧ s₂.Sublist l₂ := by
  obtain ⟨s₁, s₂, rfl, h₁, h₂⟩ := sublist_append_iff.1 h
  rcases sublist_cons_iff.1 h₂ with h₂ | ⟨t, rfl, ht⟩
  · exact .inl (h₁.append h₂)
  · exact .inr ⟨s₁, t, rfl, h₁, ht⟩

/-- **Inserting an element** keeps the runs when it lands next to its own. -/
theorem Contiguous.insert {l₁ l₂ : List α} (h : Contiguous r (l₁ ++ l₂))
    (hfirst : ∀ y z, [y, z].Sublist l₂ → r a z → r a y)
    (hmid : ∀ x ∈ l₁, ∀ z ∈ l₂, r x z → r x a)
    (hlast : ∀ x y, [x, y].Sublist l₁ → r x a → r x y) : Contiguous r (l₁ ++ a :: l₂) := by
  intro x y z hs hxz
  rcases sublist_insert hs with hs | ⟨s₁, s₂, heq, h₁, h₂⟩
  · exact h x y z hs hxz
  · -- which of the three is the new element
    match s₁, heq with
    | [], heq =>
      obtain ⟨rfl, rfl⟩ : x = a ∧ [y, z] = s₂ := by simpa using heq
      exact hfirst y z h₂ hxz
    | [_], heq =>
      obtain ⟨rfl, rfl, rfl⟩ : x = _ ∧ y = a ∧ [z] = s₂ := by simpa using heq
      exact hmid x (singleton_sublist.1 h₁) z (singleton_sublist.1 h₂) hxz
    | [_, _], heq =>
      obtain ⟨rfl, rfl, rfl, rfl⟩ : x = _ ∧ y = _ ∧ z = a ∧ [] = s₂ := by simpa using heq
      exact hlast x y h₁ hxz
    | _ :: _ :: _ :: _, heq => simp at heq

/-- A run of a new element goes in front. -/
theorem Contiguous.replicate_append (h : Contiguous (· = ·) l) (ha : a ∉ l) (n : Nat) :
    Contiguous (· = ·) (replicate n a ++ l) := by
  induction n with
  | zero => exact h
  | succ n ih =>
    show Contiguous _ ([] ++ a :: (replicate n a ++ l))
    refine Contiguous.insert ih ?_ (by simp) (by simp)
    rintro y z hs rfl
    -- before another one of its kind there is only the run
    obtain ⟨s₁, s₂, heq, h₁, h₂⟩ := sublist_append_iff.1 hs
    cases s₁ with
    | nil =>
      obtain rfl : [y, a] = s₂ := heq
      exact absurd (h₂.subset (by simp)) ha
    | cons x s₁ =>
      obtain ⟨rfl, -⟩ := cons_eq_cons.1 heq
      exact (eq_of_mem_replicate (h₁.subset mem_cons_self)).symm

/-- Inserting an element into a list ordered by a relation. -/
theorem pairwise_insert {l₁ l₂ : List α} (h : (l₁ ++ l₂).Pairwise r)
    (hbefore : ∀ x ∈ l₁, r x a) (hafter : ∀ y ∈ l₂, r a y) : (l₁ ++ a :: l₂).Pairwise r := by
  obtain ⟨h₁, h₂, h₁₂⟩ := pairwise_append.1 h
  exact pairwise_append.2 ⟨h₁, pairwise_cons.2 ⟨hafter, h₂⟩, fun x hx =>
    forall_mem_cons.2 ⟨hbefore x hx, h₁₂ x hx⟩⟩

/-- The order between two elements of a sublist of two. -/
theorem pairwise_pair (h : l.Pairwise r) {x y : α} (hs : [x, y].Sublist l) : r x y := by
  simpa using h.sublist hs

/-- **Cutting into the first run** takes elements of that run only. -/
theorem Contiguous.count_drop [DecidableEq α] {n : Nat}
    (h : Contiguous (· = ·) (a :: l)) (hn : n ≤ (a :: l).count a) (b : α) :
    ((a :: l).drop n).count b + (if b = a then n else 0) = (a :: l).count b := by
  induction l generalizing n with
  | nil =>
    match n, hn with
    | 0, _ => simp
    | 1, _ =>
      by_cases hb : b = a
      · subst hb; simp
      · simp [hb, Ne.symm hb]
    | n + 2, hn => simp at hn
  | cons c l ih =>
    match n, hn with
    | 0, _ => simp
    | n + 1, hn =>
      rw [count_cons_self] at hn
      rw [drop_succ_cons]
      rcases Nat.eq_zero_or_pos n with rfl | hpos
      · by_cases hb : b = a
        · subst hb; simp
        · simp [count_cons, hb, Ne.symm hb]
      · -- The run goes on, so its next element is the same.
        have hmem : a ∈ c :: l := count_pos_iff.1 (by omega)
        have hc : c = a := by
          rcases mem_cons.1 hmem with hca | hal
          · exact hca.symm
          · exact (h a c a (((singleton_sublist.2 hal).cons_cons c).cons_cons a) rfl).symm
        subst hc
        have hih := ih (n := n) (h.sublist (sublist_cons_self c _)) (by omega)
        rw [count_cons, ← hih]
        by_cases hb : b = c
        · subst hb; simp; omega
        · simp [hb, Ne.symm hb]

end Runs
