import Mathlib

/-!
# Loops with an early exit, and filling up to a limit

A `for` loop over a list that stops as soon as its guard fails is `loop`; one that changes the
entries of an array in place, with a running total, is `update`. Each comes with the rules its
users need: what every round keeps holds at the end, and how the total moves.

`fill lim cap` hands out blocks while less than `lim` and less than `cap` has been handed out,
cutting a block at `cap` only. So it keeps to `cap`, and it keeps to `lim` exactly when no block
reaches across it.

- `loop_inv`, `loop_entries`, `update_forall`, `update_map`, `update_sum`: the rules for the two
  loops.
- `fill_le_iff`: when `fill` keeps to `lim`.
- `loop_fill`, `update_fill`: loops that hand out blocks.
- `foldl_post`: loops that only add.
- `mem_foldl_addNew`, `length_foldl_addNew`: a list of the elements seen so far.
-/

namespace Loop

open List

variable {σ α : Type*}

/-! ## Loops -/

variable {l : List α} {s : σ}

section

variable {go : σ → Prop} [DecidablePred go] {body : σ → α → σ}

/-- Take the body over the list as long as the guard holds. -/
def loop (go : σ → Prop) [DecidablePred go] (body : σ → α → σ) : σ → List α → σ
  | s, [] => s
  | s, a :: l => if go s then loop go body (body s a) l else s

theorem loop_stop (h : ¬ go s) (l : List α) : loop go body s l = s := by
  cases l with
  | nil => rfl
  | cons a l => exact if_neg h

theorem loop_go (h : go s) (a : α) (l : List α) :
    loop go body s (a :: l) = loop go body (body s a) l := if_pos h

/-- What every round keeps holds at the end. -/
theorem loop_inv (Inv : σ → Prop)
    (hbody : ∀ s, ∀ a ∈ l, go s → Inv s → Inv (body s a)) (h0 : Inv s) :
    Inv (loop go body s l) := by
  induction l generalizing s with
  | nil => exact h0
  | cons a l ih =>
    by_cases h : go s
    · rw [loop_go h]
      exact ih (fun s b hb => hbody s b (mem_cons_of_mem _ hb))
        (hbody s a mem_cons_self h h0)
    · rwa [loop_stop h]

/-- A loop that puts out one entry a round puts out entries for a first part of the list. -/
theorem loop_entries {β : Type*} (out : σ → List β) {R : α → β → Prop}
    (hbody : ∀ s, ∀ a ∈ l, go s → ∃ b, out (body s a) = out s ++ [b] ∧ R a b) (s : σ) :
    ∃ l₁ l₂ bs, l = l₁ ++ l₂ ∧ out (loop go body s l) = out s ++ bs ∧ List.Forall₂ R l₁ bs := by
  induction l generalizing s with
  | nil => exact ⟨[], [], [], rfl, (append_nil _).symm, .nil⟩
  | cons a l ih =>
    by_cases h : go s
    · obtain ⟨b, hb, hR⟩ := hbody s a mem_cons_self h
      obtain ⟨l₁, l₂, bs, rfl, hbs, hRs⟩ :=
        ih (fun s c hc => hbody s c (mem_cons_of_mem _ hc)) (body s a)
      refine ⟨a :: l₁, l₂, b :: bs, rfl, ?_, .cons hR hRs⟩
      rw [loop_go h, hbs, hb, append_assoc, singleton_append]
    · exact ⟨[], a :: l, [], rfl, by rw [loop_stop h, append_nil], .nil⟩

theorem loop_append (s : σ) (l l' : List α) :
    loop go body s (l ++ l') = loop go body (loop go body s l) l' := by
  induction l generalizing s with
  | nil => rfl
  | cons a l ih =>
    by_cases h : go s
    · rw [cons_append, loop_go h, loop_go h, ih]
    · rw [loop_stop h, loop_stop h, loop_stop h]

end

section

variable {go : Int → Prop} [DecidablePred go] {body : Int → α → Int × α}

/-- Change the entries in place as long as the running total meets the guard. -/
def update (go : Int → Prop) [DecidablePred go] (body : Int → α → Int × α) :
    Int → List α → Int × List α
  | n, [] => (n, [])
  | n, a :: l =>
    if go n then
      ((update go body (body n a).1 l).1, (body n a).2 :: (update go body (body n a).1 l).2)
    else (n, a :: l)

theorem update_stop {n : Int} (h : ¬ go n) (l : List α) : update go body n l = (n, l) := by
  cases l with
  | nil => rfl
  | cons a l => exact if_neg h

theorem update_go {n : Int} (h : go n) (a : α) (l : List α) :
    update go body n (a :: l) =
      ((update go body (body n a).1 l).1, (body n a).2 :: (update go body (body n a).1 l).2) :=
  if_pos h

/-- What holds of every entry, changed or not, holds of every entry at the end. -/
theorem update_forall {P : α → Prop} (hl : ∀ a ∈ l, P a)
    (hbody : ∀ n, ∀ a ∈ l, go n → P (body n a).2) (n : Int) :
    ∀ a ∈ (update go body n l).2, P a := by
  induction l generalizing n with
  | nil => exact hl
  | cons a l ih =>
    by_cases h : go n
    · rw [update_go h]
      refine forall_mem_cons.2 ⟨hbody n a mem_cons_self h, ?_⟩
      exact ih (fun b hb => hl b (mem_cons_of_mem _ hb))
        (fun n b hb => hbody n b (mem_cons_of_mem _ hb)) _
    · rwa [update_stop h]

/-- What a round does not change of an entry stays. -/
theorem update_map {β : Type*} {g : α → β} (hbody : ∀ n a, g (body n a).2 = g a) (n : Int)
    (l : List α) : (update go body n l).2.map g = l.map g := by
  induction l generalizing n with
  | nil => rfl
  | cons a l ih =>
    by_cases h : go n
    · rw [update_go h, map_cons, map_cons, hbody, ih]
    · rw [update_stop h]

/-- The total moves with the sum of what each entry holds. -/
theorem update_sum {f : α → Int} (hbody : ∀ n a, (body n a).1 - n = f (body n a).2 - f a)
    (n : Int) (l : List α) :
    (update go body n l).1 - n = ((update go body n l).2.map f).sum - (l.map f).sum := by
  induction l generalizing n with
  | nil => simp [update]
  | cons a l ih =>
    by_cases h : go n
    · have hl := ih (body n a).1
      have ha := hbody n a
      rw [update_go h]
      simp only [map_cons, sum_cons]
      omega
    · rw [update_stop h]
      simp

end

/-! ## Filling -/

/-- Less than `lim` and less than `cap` has been handed out. -/
def Below (lim cap : Int) (total : σ → Int) (s : σ) : Prop := total s < lim ∧ total s < cap

instance (lim cap : Int) (total : σ → Int) : DecidablePred (Below lim cap total) :=
  fun s => inferInstanceAs (Decidable (total s < lim ∧ total s < cap))

/-- What has been handed out, from `t` on, after going through the blocks. -/
def fill (lim cap : Int) (t : Int) (blocks : List Int) : Int :=
  loop (Below lim cap id) (fun t b => t + min b (cap - t)) t blocks

/-- A block that begins below `lim` reaches across it. -/
def Straddles (lim : Int) : Int → List Int → Prop
  | _, [] => False
  | t, b :: blocks => (t < lim ∧ lim < t + b) ∨ Straddles lim (t + b) blocks

instance decidableStraddles (lim : Int) :
    ∀ (t : Int) (blocks : List Int), Decidable (Straddles lim t blocks)
  | _, [] => inferInstanceAs (Decidable False)
  | t, b :: blocks =>
    have := decidableStraddles lim (t + b) blocks
    inferInstanceAs (Decidable ((t < lim ∧ lim < t + b) ∨ Straddles lim (t + b) blocks))

variable {lim cap t : Int} {blocks : List Int}

theorem fill_append (lim cap t : Int) (bs bs' : List Int) :
    fill lim cap t (bs ++ bs') = fill lim cap (fill lim cap t bs) bs' :=
  loop_append t bs bs'

theorem fill_stop (h : ¬ Below lim cap id t) (blocks : List Int) :
    fill lim cap t blocks = t := loop_stop h blocks

theorem fill_go (h : Below lim cap id t) (b : Int) (blocks : List Int) :
    fill lim cap t (b :: blocks) = fill lim cap (t + min b (cap - t)) blocks :=
  loop_go h b blocks

theorem fill_le_cap (h : t ≤ cap) (blocks : List Int) : fill lim cap t blocks ≤ cap :=
  loop_inv (· ≤ cap) (fun s b _ _ (hs : s ≤ cap) => show s + min b (cap - s) ≤ cap by omega) h

/-- Blocks that begin at `lim` or above do not reach across it. -/
theorem not_straddles_of_le (hnonneg : ∀ b ∈ blocks, 0 ≤ b) (h : lim ≤ t) :
    ¬ Straddles lim t blocks := by
  induction blocks generalizing t with
  | nil => exact id
  | cons b blocks ih =>
    have hb : 0 ≤ b := hnonneg b mem_cons_self
    rintro (⟨hlt, -⟩ | hs)
    · omega
    · exact ih (fun c hc => hnonneg c (mem_cons_of_mem _ hc)) (by omega) hs

/-- **Filling keeps to `lim`** exactly when `cap` is no larger or no block reaches across. -/
theorem fill_le_iff (hnonneg : ∀ b ∈ blocks, 0 ≤ b) (hlim : t ≤ lim) (hcap : t ≤ cap) :
    fill lim cap t blocks ≤ lim ↔ cap ≤ lim ∨ ¬ Straddles lim t blocks := by
  by_cases hle : cap ≤ lim
  · simp only [hle, true_or, iff_true]
    exact (fill_le_cap hcap blocks).trans hle
  simp only [hle, false_or]
  -- from here on a block is cut at `cap` only after it has passed `lim`
  induction blocks generalizing t with
  | nil => simpa [fill, loop, Straddles] using hlim
  | cons b blocks ih =>
    have hb : 0 ≤ b := hnonneg b mem_cons_self
    have htail : ∀ c ∈ blocks, 0 ≤ c := fun c hc => hnonneg c (mem_cons_of_mem _ hc)
    by_cases hgo : t < lim
    · rw [fill_go ⟨hgo, by simp only [id]; omega⟩]
      by_cases hcross : lim < t + b
      · have hstop : ¬ Below lim cap id (t + min b (cap - t)) := by
          rintro ⟨h, -⟩
          simp only [id] at h
          omega
        rw [fill_stop hstop]
        constructor
        · intro h
          omega
        · intro h
          exact absurd (.inl ⟨hgo, hcross⟩) h
      · have hmin : min b (cap - t) = b := by omega
        rw [hmin, ih htail (by omega) (by omega)]
        simp [Straddles, hcross]
    · rw [fill_stop (fun h => hgo h.1)]
      exact iff_of_true hlim (not_straddles_of_le hnonneg (by omega))

/-- A loop whose rounds hand out the blocks one after another. `Sim` relates the state and what
is left of the list to the blocks that are left; it has to be kept only while the loop goes on. -/
theorem loop_fill (total : σ → Int) {body : σ → α → σ} (Sim : σ → List α → List Int → Prop)
    (hnil : ∀ s bs, Sim s [] bs → bs = [])
    (hcons : ∀ s a l bs, Sim s (a :: l) bs → Below lim cap total s →
      ∃ b bs', bs = b :: bs' ∧ total (body s a) = total s + min b (cap - total s) ∧
        (Below lim cap total (body s a) → Sim (body s a) l bs'))
    {bs : List Int} (h : Sim s l bs) :
    total (loop (Below lim cap total) body s l) = fill lim cap (total s) bs ∧
      (Below lim cap total (loop (Below lim cap total) body s l) →
        Sim (loop (Below lim cap total) body s l) [] []) := by
  induction l generalizing s bs with
  | nil =>
    obtain rfl := hnil s bs h
    exact ⟨rfl, fun _ => h⟩
  | cons a l ih =>
    by_cases hgo : Below lim cap total s
    · obtain ⟨b, bs', rfl, htotal, hsim⟩ := hcons s a l bs h hgo
      rw [loop_go hgo, fill_go hgo, ← htotal]
      by_cases hgo' : Below lim cap total (body s a)
      · exact ih (hsim hgo')
      · rw [loop_stop hgo', fill_stop hgo']
        exact ⟨rfl, fun h => absurd h hgo'⟩
    · rw [loop_stop hgo, fill_stop hgo]
      exact ⟨rfl, fun h => absurd h hgo⟩

theorem update_fill {body : Int → α → Int × α} {size : α → Int}
    (hbody : ∀ n a, (body n a).1 = n + min (size a) (cap - n)) (n : Int) (l : List α) :
    (update (Below lim cap id) body n l).1 = fill lim cap n (l.map size) := by
  induction l generalizing n with
  | nil => rfl
  | cons a l ih =>
    by_cases hgo : Below lim cap id n
    · rw [update_go hgo, map_cons, fill_go hgo, ← hbody]
      exact ih _
    · rw [update_stop hgo, fill_stop hgo]

/-! ## Loops that only add -/

/-- **A loop whose rounds move the state up an order.** What a round achieves for its element and
what no later round undoes holds at the end for every element. -/
theorem foldl_post (Inv : σ → Prop) (Post : σ → α → Prop) {R : σ → σ → Prop} {f : σ → α → σ}
    (hrefl : ∀ s, R s s) (htrans : ∀ {s s' s''}, R s s' → R s' s'' → R s s'')
    (hmono : ∀ {s s' a}, R s s' → Post s a → Post s' a)
    (hf : ∀ s, ∀ a ∈ l, Inv s → Inv (f s a) ∧ R s (f s a) ∧ Post (f s a) a) (hs : Inv s) :
    Inv (l.foldl f s) ∧ R s (l.foldl f s) ∧ ∀ a ∈ l, Post (l.foldl f s) a := by
  induction l generalizing s with
  | nil => exact ⟨hs, hrefl s, fun a ha => absurd ha not_mem_nil⟩
  | cons b l ih =>
    obtain ⟨hinv, hR, hpost⟩ := hf s b mem_cons_self hs
    obtain ⟨hinv', hR', hposts⟩ := ih (fun s a ha => hf s a (mem_cons_of_mem b ha)) hinv
    exact ⟨hinv', htrans hR hR', forall_mem_cons.mpr ⟨hmono hR' hpost, hposts⟩⟩

/-! ## Elements in the order in which they are seen first -/

section AddNew

variable [DecidableEq α] {made : List α} {a : α}

/-- A list with one more element, at the end unless it is there. -/
def addNew (made : List α) (a : α) : List α := if a ∈ made then made else made ++ [a]

theorem reverse_foldl_addNew (l made : List α) :
    (l.foldl addNew made).reverse = l.reverse ∪ made.reverse := by
  induction l generalizing made with
  | nil => rfl
  | cons a l ih =>
    have hone : (addNew made a).reverse = made.reverse.insert a := by
      unfold addNew
      split_ifs with ha <;> simp [ha]
    rw [foldl_cons, ih, hone, reverse_cons]
    simp only [union_def, foldr_append, foldr_cons, foldr_nil]

theorem mem_foldl_addNew : a ∈ l.foldl addNew made ↔ a ∈ made ∨ a ∈ l := by
  rw [← mem_reverse, reverse_foldl_addNew, mem_union_iff, mem_reverse,
    mem_reverse, or_comm]

theorem nodup_foldl_addNew (h : made.Nodup) (l : List α) : (l.foldl addNew made).Nodup := by
  rw [← nodup_reverse, reverse_foldl_addNew]
  exact (nodup_reverse.mpr h).union _

/-- As many elements are added as there are different ones. -/
theorem length_foldl_addNew (l : List α) : (l.foldl addNew []).length = l.dedup.length := by
  refine List.Perm.length_eq ?_
  rw [perm_ext_iff_of_nodup (nodup_foldl_addNew .nil l) (nodup_dedup l)]
  simp [mem_foldl_addNew]

end AddNew

end Loop
