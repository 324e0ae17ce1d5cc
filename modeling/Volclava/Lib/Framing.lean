import Mathlib

/-!
# Streams of self-delimiting frames

A set of words is prefix-free when no word of it is the beginning of another one. A stream can then
be cut into such words in one way only: of two cuts, one continues the other.

- `Framing.PrefixFree`: the condition on the words.
- `Framing.cut_unique`: two cuts of one stream agree as far as both go.
-/

namespace Framing

variable {α : Type*} {Frame : List α → Prop}

/-- No frame begins another frame, and no frame is empty. -/
structure PrefixFree (Frame : List α → Prop) : Prop where
  ne_nil : ∀ m, Frame m → m ≠ []
  eq_of_begins : ∀ m n, Frame m → Frame n → m <+: n → m = n

/-- Two frames at the beginning of one stream are the same frame. -/
theorem PrefixFree.eq_of_append (h : PrefixFree Frame) {m n r s : List α} (hm : Frame m)
    (hn : Frame n) (heq : m ++ r = n ++ s) : m = n := by
  have hpm : m <+: n ++ s := heq ▸ List.prefix_append m r
  rcases List.prefix_or_prefix_of_prefix hpm (List.prefix_append n s) with hp | hp
  · exact h.eq_of_begins m n hm hn hp
  · exact (h.eq_of_begins n m hn hm hp).symm

/-- **A stream is cut into frames in one way only.** -/
theorem PrefixFree.cut_unique (h : PrefixFree Frame) {ms ns : List (List α)} {r s : List α}
    (hms : ∀ m ∈ ms, Frame m) (hns : ∀ n ∈ ns, Frame n)
    (heq : ms.flatten ++ r = ns.flatten ++ s) : ms <+: ns ∨ ns <+: ms := by
  induction ms generalizing ns with
  | nil => exact .inl (List.nil_prefix)
  | cons m ms ih =>
    cases ns with
    | nil => exact .inr (List.nil_prefix)
    | cons n ns =>
      obtain ⟨hm, hms'⟩ := List.forall_mem_cons.mp hms
      obtain ⟨hn, hns'⟩ := List.forall_mem_cons.mp hns
      simp only [List.flatten_cons, List.append_assoc] at heq
      obtain rfl := h.eq_of_append hm hn heq
      have hrest : ms.flatten ++ r = ns.flatten ++ s := List.append_cancel_left heq
      rcases ih hms' hns' hrest with hp | hp
      · exact .inl (List.cons_prefix_cons.mpr ⟨rfl, hp⟩)
      · exact .inr (List.cons_prefix_cons.mpr ⟨rfl, hp⟩)

/-- Frames whose bytes begin a stream of frames are its first ones. -/
theorem PrefixFree.begins (h : PrefixFree Frame) {ms ns : List (List α)}
    (hms : ∀ m ∈ ms, Frame m) (hns : ∀ n ∈ ns, Frame n) (hp : ms.flatten <+: ns.flatten) :
    ms <+: ns := by
  obtain ⟨r, hr⟩ := hp
  rcases h.cut_unique hms hns (hr.trans (List.append_nil _).symm) with hle | ⟨ks, rfl⟩
  · exact hle
  · cases ks with
    | nil => simp
    | cons k ks => simp [h.ne_nil k (hms k (by simp))] at hr

end Framing
