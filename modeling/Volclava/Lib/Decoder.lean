import Mathlib

/-!
# Decoders

A decoder changes a state and gives a result or fails; when it fails, the state stays where it got
to, so that error exits can be written over it.

- `Decoder.Keeps`: the state before and the state after are related, by one relation after a success
  and by another after a failure. The rules for sequences and loops follow.
-/

/-- A computation on a state that may fail. -/
def Decoder (σ α : Type) := σ → Option α × σ

namespace Decoder

variable {σ α β : Type} {r : σ → σ → Prop}

def fail : Decoder σ α := fun s => (none, s)

def get : Decoder σ σ := fun s => (some s, s)

def modify (f : σ → σ) : Decoder σ Unit := fun s => (some (), f s)

def andThen (m : Decoder σ α) (k : α → Decoder σ β) : Decoder σ β := fun s =>
  match m s with
  | (some a, s') => k a s'
  | (none, s') => (none, s')

instance : Monad (Decoder σ) where
  pure a := fun s => (some a, s)
  bind := andThen

/-- Runs an error exit over the state of a failure. -/
def onFail (m : Decoder σ α) (exit : σ → σ) : Decoder σ α := fun s =>
  match m s with
  | (some a, s') => (some a, s')
  | (none, s') => (none, exit s')

/-- Runs a list of decoders, one after the other. -/
def seq : List (Decoder σ Unit) → Decoder σ Unit
  | [] => pure ()
  | m :: ms => do m; seq ms

/-- Runs the body for the numbers from `i` on, `n` times. -/
def forEach (i : Nat) (body : Nat → Decoder σ Unit) : Nat → Decoder σ Unit
  | 0 => pure ()
  | n + 1 => do body i; forEach (i + 1) body n

/-! ## Results -/

variable {m : Decoder σ α} {k : α → Decoder σ β}

theorem bind_of_some {s s' : σ} {a : α} (h : m s = (some a, s')) :
    (m >>= k) s = k a s' := by
  show andThen m k s = _
  rw [andThen, h]

theorem bind_of_none {s s' : σ} (h : m s = (none, s')) :
    (m >>= k) s = (none, s') := by
  show andThen m k s = _
  rw [andThen, h]

variable {exit : σ → σ}

theorem onFail_of_some {s s' : σ} {a : α} (h : m s = (some a, s')) :
    m.onFail exit s = (some a, s') := by
  rw [onFail, h]

theorem onFail_of_none {s s' : σ} (h : m s = (none, s')) :
    m.onFail exit s = (none, exit s') := by
  rw [onFail, h]

/-- A decoder ends in one of two ways. -/
theorem ends (m : Decoder σ α) (s : σ) :
    (∃ a s', m s = (some a, s')) ∨ ∃ s', m s = (none, s') := by
  rcases m s with ⟨o, s'⟩
  cases o with
  | some a => exact .inl ⟨a, s', rfl⟩
  | none => exact .inr ⟨s', rfl⟩

/-- What holds of all results holds of the one there is. -/
theorem forall_of_some {s t : σ} {a : α} (h : m s = (some a, t)) {P : α → σ → Prop} :
    (∀ a' t', m s = (some a', t') → P a' t') ↔ P a t := by
  refine ⟨fun hp => hp a t h, fun hp a' t' h' => ?_⟩
  rw [h, Prod.mk.injEq, Option.some.injEq] at h'
  obtain ⟨rfl, rfl⟩ := h'
  exact hp

theorem forall_of_none {s t : σ} (h : m s = (none, t)) {P : α → σ → Prop} :
    ∀ a' t', m s = (some a', t') → P a' t' := by
  intro a' t' h'
  rw [h] at h'
  cases h'

/-! ## What a decoder keeps -/

/-- The state before is related to the state after by `r` if the decoder succeeds, by `q` if it
fails. -/
def Keeps (r q : σ → σ → Prop) (m : Decoder σ α) : Prop :=
  ∀ s t, (∀ a, m s = (some a, t) → r s t) ∧ (m s = (none, t) → q s t)

/-- One relation for both outcomes. -/
theorem keeps_of_snd {r : σ → σ → Prop} (h : ∀ s, r s (m s).2) :
    Keeps r r m := by
  intro s t
  have hs := h s
  refine ⟨fun a ha => ?_, fun hn => ?_⟩
  · rwa [ha] at hs
  · rwa [hn] at hs

theorem keeps_snd {r : σ → σ → Prop} (h : Keeps r r m) (s : σ) :
    r s (m s).2 := by
  rcases m.ends s with ⟨a, t, hs⟩ | ⟨t, hs⟩
  · rw [hs]
    exact (h s t).1 a hs
  · rw [hs]
    exact (h s t).2 hs

section Rules

variable {r q : σ → σ → Prop} [Std.Refl r] [IsTrans σ r] [Trans r q q]

omit [IsTrans σ r] [Trans r q q] in
theorem keeps_pure (a : α) : Keeps r q (pure a : Decoder σ α) := by
  intro s t
  refine ⟨fun b h => ?_, fun h => ?_⟩
  · obtain rfl : s = t := congrArg Prod.snd h
    exact refl_of r s
  · cases h

variable {m : Decoder σ α}

omit [Std.Refl r] in
theorem Keeps.bind (hm : Keeps r q m)
    (hk : ∀ a, Keeps r q (k a)) : Keeps r q (m >>= k) := by
  intro s t
  rcases m.ends s with ⟨a, s', h⟩ | ⟨s', h⟩
  · rw [bind_of_some h]
    have hrs := (hm s s').1 a h
    exact ⟨fun b hb => trans_of r hrs ((hk a s' t).1 b hb),
      fun hn => Trans.trans hrs ((hk a s' t).2 hn)⟩
  · rw [bind_of_none h]
    refine ⟨fun b hb => ?_, fun hn => ?_⟩
    · cases hb
    · obtain rfl : s' = t := congrArg Prod.snd hn
      exact (hm s s').2 h

theorem keeps_seq {ms : List (Decoder σ Unit)} (h : ∀ m ∈ ms, Keeps r q m) :
    Keeps r q (seq ms) := by
  induction ms with
  | nil => exact keeps_pure ()
  | cons m ms ih =>
    exact (h m (List.mem_cons_self ..)).bind fun _ =>
      ih fun m' hm' => h m' (List.mem_cons_of_mem _ hm')

theorem keeps_forEach {body : Nat → Decoder σ Unit} {i n : Nat}
    (h : ∀ j, j < i + n → Keeps r q (body j)) : Keeps r q (forEach i body n) := by
  induction n generalizing i with
  | zero => exact keeps_pure ()
  | succ n ih =>
    refine (h i (by omega)).bind fun _ => ih fun j hj => h j (by omega)

omit [Std.Refl r] [IsTrans σ r] [Trans r q q] in
/-- Weaker relations. -/
theorem Keeps.mono {r' q' : σ → σ → Prop} (hm : Keeps r q m)
    (hr : ∀ s t, r s t → r' s t) (hq : ∀ s t, q s t → q' s t) : Keeps r' q' m :=
  fun s t => ⟨fun a ha => hr s t ((hm s t).1 a ha), fun hn => hq s t ((hm s t).2 hn)⟩

omit [Std.Refl r] [IsTrans σ r] [Trans r q q] in
/-- An error exit changes what holds after a failure. -/
theorem Keeps.onFail {q' : σ → σ → Prop} (hm : Keeps r q m)
    (h : ∀ s t, q s t → q' s (exit t)) : Keeps r q' (m.onFail exit) := by
  intro s t
  rcases m.ends s with ⟨a, s', hs⟩ | ⟨s', hs⟩
  · rw [onFail_of_some hs]
    refine ⟨fun b hb => ?_, fun hn => ?_⟩
    · obtain rfl : s' = t := congrArg Prod.snd hb
      exact (hm s s').1 a hs
    · cases hn
  · rw [onFail_of_none hs]
    refine ⟨fun b hb => ?_, fun hn => ?_⟩
    · cases hb
    · obtain rfl : exit s' = t := congrArg Prod.snd hn
      exact h s s' ((hm s s').2 hs)

end Rules

end Decoder
