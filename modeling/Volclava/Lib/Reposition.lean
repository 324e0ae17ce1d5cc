import Volclava.Lib.Contiguous

/-!
# Keeping a sorted list sorted by local moves

A list ordered by a key, one element of which changes its key. `reposition` moves that element
past its neighbours on one side until the order is right again; `walk` goes through a list once
and changes every element in this way, while the elements it has moved may come up again.

- `pairwise_reposition`: the list is sorted again.
- `walk_perm`, `pairwise_walk`: a walk changes every element that is not done exactly once and
  keeps the list sorted.
-/

namespace Reposition

open List

variable {α β : Type*} [LinearOrder β] (key : α → β)

/-- Puts `c`, which stands between `left` and `right`, where its key belongs: to the right if
there is nothing on the left or the next element is smaller, else to the left. -/
def reposition (left : List α) (c : α) (right : List α) : List α :=
  if left = [] ∨ ∃ r ∈ right.head?, key r < key c then
    left ++ right.takeWhile (key · < key c) ++ c :: right.dropWhile (key · < key c)
  else if right = [] ∨ ∃ l ∈ left.getLast?, key c < key l then
    left.rdropWhile (key c < key ·) ++ c :: left.rtakeWhile (key c < key ·) ++ right
  else left ++ c :: right

theorem reposition_perm (left : List α) (c : α) (right : List α) :
    (reposition key left c right).Perm (left ++ c :: right) := by
  unfold reposition
  split_ifs
  · have h := takeWhile_append_dropWhile (p := (key · < key c)) (l := right)
    rw [append_assoc]
    refine (perm_middle).append_left left |>.trans ?_
    rw [h]
  · rw [append_assoc, cons_append]
    refine perm_middle.trans ?_
    rw [← append_assoc, rdropWhile_append_rtakeWhile]
    exact perm_middle.symm
  · rfl

/-- The list is in non-decreasing order of the key. -/
def Ordered (l : List α) : Prop := l.Pairwise fun a b => key a ≤ key b

variable {key} {l : List α}

section

variable (h : Ordered key l)
include h

theorem Ordered.le_of_mem_dropWhile (c : α) :
    ∀ b ∈ l.dropWhile (key · < key c), key c ≤ key b := by
  induction l with
  | nil => simp
  | cons a l ih =>
    obtain ⟨hal, hl⟩ := pairwise_cons.mp h
    by_cases hac : key a < key c
    · rw [dropWhile_cons_of_pos (by simpa using hac)]
      exact ih hl
    · rw [dropWhile_cons_of_neg (by simpa using hac)]
      exact forall_mem_cons.mpr ⟨not_lt.mp hac, fun b hb => (not_lt.mp hac).trans (hal b hb)⟩

theorem Ordered.le_of_mem_rdropWhile (c : α) :
    ∀ a ∈ l.rdropWhile (key c < key ·), key a ≤ key c := by
  -- The reversed list is ordered in the dual order.
  have hdual : Ordered (OrderDual.toDual ∘ key) l.reverse := pairwise_reverse.mpr h
  intro a ha
  exact hdual.le_of_mem_dropWhile c a (by simpa [List.rdropWhile] using ha)

theorem Ordered.le_getLast {z : α} (hz : z ∈ l.getLast?) :
    ∀ a ∈ l, key a ≤ key z := by
  have : Std.Refl fun a b : α => key a ≤ key b := ⟨fun _ => le_rfl⟩
  obtain ⟨-, rfl⟩ := mem_getLast?_eq_getLast hz
  exact fun a ha => List.Pairwise.rel_getLast h ha

/-- What is not above the first element is not above any. -/
theorem Ordered.le_of_head {c : α}
    (hc : ¬ ∃ r ∈ l.head?, key r < key c) : ∀ b ∈ l, key c ≤ key b := by
  cases l with
  | nil => simp
  | cons r l =>
    have hcr : key c ≤ key r := by simpa using hc
    exact forall_mem_cons.mpr
      ⟨hcr, fun b hb => hcr.trans ((pairwise_cons.mp h).1 b hb)⟩

end

/-- **A repositioned element makes the list sorted again.** -/
theorem Ordered.reposition {left right : List α} (h : Ordered key (left ++ right)) (c : α) :
    Ordered key (reposition key left c right) := by
  obtain ⟨hleft, hright, hlr⟩ := pairwise_append.mp h
  unfold Reposition.reposition
  split_ifs with h1 h2
  · -- To the right: everything on the left is below the first of the right.
    have hsplit : left ++ right =
        left ++ right.takeWhile (key · < key c) ++ right.dropWhile (key · < key c) := by
      rw [append_assoc, takeWhile_append_dropWhile]
    refine Runs.pairwise_insert (hsplit ▸ h) (fun a ha => ?_) (Ordered.le_of_mem_dropWhile hright c)
    rcases mem_append.mp ha with ha | ha
    · rcases h1 with rfl | ⟨r, hr, hrc⟩
      · simp at ha
      · exact (hlr a ha r (mem_of_mem_head? hr)).trans hrc.le
    · exact le_of_lt (by simpa using mem_takeWhile_imp ha)
  · -- To the left: nothing on the right is smaller.
    have hsplit : left ++ right = left.rdropWhile (key c < key ·) ++
        (left.rtakeWhile (key c < key ·) ++ right) := by
      rw [← append_assoc, rdropWhile_append_rtakeWhile]
    rw [append_assoc, cons_append]
    refine Runs.pairwise_insert (hsplit ▸ h) (Ordered.le_of_mem_rdropWhile hleft c) (fun b hb => ?_)
    rcases mem_append.mp hb with hb | hb
    · exact le_of_lt (by simpa using mem_rtakeWhile_imp hb)
    · exact Ordered.le_of_head hright (not_or.mp h1).2 b hb
  · -- It stays: both neighbours are in order with it.
    obtain ⟨hl, hr⟩ := not_or.mp h1
    obtain ⟨-, hll⟩ := not_or.mp h2
    obtain ⟨z, hz⟩ : ∃ z, left.getLast? = some z :=
      Option.isSome_iff_exists.mp (by rw [List.getLast?_isSome]; exact hl)
    have hzc : key z ≤ key c := by
      by_contra hlt
      exact hll ⟨z, hz, not_le.mp hlt⟩
    exact Runs.pairwise_insert h (fun a ha => (Ordered.le_getLast hleft hz a ha).trans hzc)
      (Ordered.le_of_head hright hr)

/-! ## Walking through a list that is being reordered -/

variable (key)

/-- The list around the place where a walk goes on after `c` has been put in its place: at the
element that followed `c`. If `c` has moved to the right it comes up again later. -/
def resume (left : List α) (c : α) (right : List α) : List α × List α :=
  if left = [] ∨ ∃ r ∈ right.head?, key r < key c then
    if right.takeWhile (key · < key c) = [] then (left ++ [c], right)
    else (left, right.takeWhile (key · < key c) ++ c :: right.dropWhile (key · < key c))
  else if right = [] ∨ ∃ l ∈ left.getLast?, key c < key l then
    (left.rdropWhile (key c < key ·) ++ c :: left.rtakeWhile (key c < key ·), right)
  else (left ++ [c], right)

theorem resume_append (left : List α) (c : α) (right : List α) :
    (resume key left c right).1 ++ (resume key left c right).2 = reposition key left c right := by
  unfold resume reposition
  split_ifs with h1 ht h2
  · have hd : right.dropWhile (key · < key c) = right := by
      have h := takeWhile_append_dropWhile (p := (key · < key c)) (l := right)
      rwa [ht, nil_append] at h
    rw [ht, hd]
    simp
  · simp
  · simp
  · simp

variable (f : α → α) (done : α → Bool)

/-- Goes through `right`, applying `f` to every element that is not done and putting it in its
place; at most `n` elements are looked at. -/
def walk : Nat → List α → List α → List α
  | 0, left, right => left ++ right
  | _ + 1, left, [] => left
  | n + 1, left, c :: right =>
    if done c then walk n (left ++ [c]) right
    else walk n (resume key left (f c) right).1 (resume key left (f c) right).2

/-- How many elements a walk looks at: one that is not done may come up twice. -/
def steps (l : List α) : Nat := (l.map fun a => if done a then 1 else 2).sum

variable {key f done}

theorem steps_perm {l' : List α} (h : l.Perm l') : steps done l = steps done l' :=
  (h.map _).sum_eq

/-- What is still to be looked at after one element has been put in its place. -/
theorem steps_resume {c : α} (hc : done c = true) (left right : List α) :
    steps done (resume key left c right).2 ≤ steps done right + 1 := by
  unfold resume
  split_ifs with h1 ht h2
  · exact Nat.le_succ _
  · have hp : (right.takeWhile (key · < key c) ++ c :: right.dropWhile (key · < key c)).Perm
        (c :: right) := by
      refine perm_middle.trans ?_
      rw [takeWhile_append_dropWhile]
    rw [steps_perm hp]
    simp [steps, hc, Nat.add_comm]
  · exact Nat.le_succ _
  · exact Nat.le_succ _

/-- Putting `c` in its place and changing the rest gives the same elements as changing the rest,
when the change leaves `c` alone. -/
theorem resume_map_perm {g : α → α} {c : α} (hc : g c = c) (left right : List α) :
    ((resume key left c right).1 ++ (resume key left c right).2.map g).Perm
      (left ++ c :: right.map g) := by
  unfold resume
  split_ifs with h1 ht h2
  · simp
  · refine List.Perm.append_left left ?_
    rw [map_append, map_cons, hc]
    refine perm_middle.trans ?_
    rw [← map_append, takeWhile_append_dropWhile]
  · rw [append_assoc, cons_append]
    refine perm_middle.trans ?_
    rw [← append_assoc, rdropWhile_append_rtakeWhile]
    exact perm_middle.symm
  · simp

/-- **A walk changes every element that is not done exactly once.** -/
theorem walk_perm (hdone : ∀ a, done (f a) = true) (n : Nat) (left right : List α)
    (hn : steps done right ≤ n) :
    (walk key f done n left right).Perm
      (left ++ right.map fun a => if done a then a else f a) := by
  induction n generalizing left right with
  | zero =>
    cases right with
    | nil => simp [walk]
    | cons c right =>
      have : 0 < steps done (c :: right) := by
        simp only [steps, map_cons, sum_cons]
        split_ifs <;> omega
      omega
  | succ n ih =>
    cases right with
    | nil => simp [walk]
    | cons c right =>
      by_cases hc : done c = true
      · have hle : steps done right ≤ n := by
          simp only [steps, map_cons, sum_cons, hc, if_true] at hn ⊢
          omega
        rw [walk, if_pos hc]
        refine (ih (left ++ [c]) right hle).trans ?_
        simp [hc]
      · have hle : steps done (resume key left (f c) right).2 ≤ n := by
          refine (steps_resume (hdone c) left right).trans ?_
          simp only [steps, map_cons, sum_cons, hc] at hn ⊢
          simp at hn
          omega
        rw [walk, if_neg hc]
        refine (ih _ _ hle).trans ((resume_map_perm ?_ left right).trans ?_)
        · simp [hdone c]
        · simp [hc]

/-- **A walk keeps the list sorted.** -/
theorem Ordered.walk (n : Nat) (left right : List α) (h : Ordered key (left ++ right)) :
    Ordered key (walk key f done n left right) := by
  induction n generalizing left right with
  | zero => exact h
  | succ n ih =>
    cases right with
    | nil => simpa [Reposition.walk] using h
    | cons c right =>
      rw [Reposition.walk]
      split_ifs with hc
      · exact ih _ _ (by simpa using h)
      · refine ih _ _ ?_
        rw [resume_append]
        have hrest : (left ++ right).Sublist (left ++ c :: right) :=
          (sublist_cons_self c right).append_left left
        exact Ordered.reposition (List.Pairwise.sublist hrest h) (f c)

end Reposition
