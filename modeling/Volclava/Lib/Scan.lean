import Mathlib

/-!
# Formatted text

The conversions of C's `printf` and `scanf` families that line-oriented files are written and
read with, on texts as lists of characters. A scan takes the text that is left and returns the
value with the text that is left after it. Every numeric conversion skips white space first, so
two texts that differ only in leading white space scan alike (`scanInt_congr`).

- `scanInt_printInt`: what `%d` prints, `%d` reads, unless more digits follow.
- `Reads`: a text from which given integers can be read one after another, up to white space.
-/

namespace Scan

open List

/-- `isspace` in the C locale. -/
def isSpace (c : Char) : Bool :=
  c = ' ' || c = '\t' || c = '\n' || c = '\x0b' || c = '\x0c' || c = '\r'

/-- A white-space directive: all white space is skipped. -/
def skipSpace (s : List Char) : List Char := s.dropWhile isSpace

/-- `%d` of `printf`. -/
def printInt : Int → List Char
  | .ofNat n => Nat.toDigits 10 n
  | .negSucc n => '-' :: Nat.toDigits 10 (n + 1)

def scanNat (s : List Char) : Option (Nat × List Char) :=
  match s.takeWhile Char.isDigit with
  | [] => none
  | ds => some (Nat.ofDigitChars 10 ds 0, s.dropWhile Char.isDigit)

/-- A sign, if there is one, and digits. -/
def scanSigned : List Char → Option (Int × List Char)
  | '-' :: s => (scanNat s).map fun r => (-(r.1 : Int), r.2)
  | '+' :: s => (scanNat s).map fun r => ((r.1 : Int), r.2)
  | s => (scanNat s).map fun r => ((r.1 : Int), r.2)

/-- `%d` of `scanf`. -/
def scanInt (s : List Char) : Option (Int × List Char) := scanSigned (skipSpace s)

/-- `%s` of `scanf`. -/
def scanWord (s : List Char) : Option (List Char × List Char) :=
  match (skipSpace s).takeWhile (!isSpace ·) with
  | [] => none
  | w => some (w, (skipSpace s).dropWhile (!isSpace ·))

/-- A character of the format that the text has to match. -/
def scanChar (c : Char) : List Char → Option (List Char)
  | [] => none
  | d :: s => if d = c then some s else none

/-- `%d` as often as given. -/
def scanInts : Nat → List Char → Option (List Int × List Char)
  | 0, s => some ([], s)
  | n + 1, s => do
    let (i, s) ← scanInt s
    let (is, s) ← scanInts n s
    return (i :: is, s)

/-! ## Numbers -/

/-- No digit comes next. -/
def NoDigit (s : List Char) : Prop := ∀ c ∈ s.head?, c.isDigit = false

variable {c : Char} {s : List Char}

@[simp] theorem noDigit_cons : NoDigit (c :: s) ↔ c.isDigit = false := by
  constructor
  · exact fun h => h c rfl
  · rintro h d ⟨⟩
    exact h

theorem NoDigit.takeWhile_eq (h : NoDigit s) : s.takeWhile Char.isDigit = [] := by
  cases s with
  | nil => rfl
  | cons c s => exact takeWhile_cons_of_neg (by simp [noDigit_cons.1 h])

theorem NoDigit.dropWhile_eq (h : NoDigit s) : s.dropWhile Char.isDigit = s := by
  cases s with
  | nil => rfl
  | cons c s => exact dropWhile_cons_of_neg (by simp [noDigit_cons.1 h])

theorem isDigit_of_mem {n : Nat} (h : c ∈ Nat.toDigits 10 n) : c.isDigit = true :=
  Nat.isDigit_of_mem_toDigits (by norm_num) (by norm_num) h

theorem scanNat_toDigits (n : Nat) (h : NoDigit s) :
    scanNat (Nat.toDigits 10 n ++ s) = some (n, s) := by
  have hall : ∀ c ∈ Nat.toDigits 10 n, c.isDigit = true := fun c => isDigit_of_mem
  unfold scanNat
  rw [takeWhile_append_of_pos hall, h.takeWhile_eq, append_nil,
    dropWhile_append_of_pos hall, h.dropWhile_eq]
  cases hd : Nat.toDigits 10 n with
  | nil => exact absurd hd Nat.toDigits_ne_nil
  | cons d ds =>
    show some (Nat.ofDigitChars 10 (d :: ds) 0, s) = some (n, s)
    rw [← hd, Nat.ofDigitChars_toDigits (by norm_num) (by norm_num)]

theorem toDigits_cons (n : Nat) :
    ∃ d ds, Nat.toDigits 10 n = d :: ds ∧ d.isDigit = true := by
  cases hd : Nat.toDigits 10 n with
  | nil => exact absurd hd Nat.toDigits_ne_nil
  | cons d ds => exact ⟨d, ds, rfl, isDigit_of_mem (n := n) (by rw [hd]; exact mem_cons_self)⟩

theorem isSpace_of_isDigit (h : c.isDigit = true) : isSpace c = false := by
  cases hs : isSpace c with
  | false => rfl
  | true =>
    simp only [isSpace, Bool.or_eq_true, decide_eq_true_eq] at hs
    rcases hs with ((((rfl | rfl) | rfl) | rfl) | rfl) | rfl <;> simp at h

/-- A printed integer begins with a digit or a sign. -/
theorem printInt_cons (n : Int) :
    ∃ c s, printInt n = c :: s ∧ isSpace c = false ∧ (c.isDigit = true ∨ c = '-') := by
  cases n with
  | ofNat n =>
    obtain ⟨d, ds, hd, hdig⟩ := toDigits_cons n
    exact ⟨d, ds, hd, isSpace_of_isDigit hdig, .inl hdig⟩
  | negSucc n => exact ⟨'-', _, rfl, by decide, .inr rfl⟩

theorem skipSpace_printInt (n : Int) (s : List Char) :
    skipSpace (printInt n ++ s) = printInt n ++ s := by
  obtain ⟨c, t, h, hc, -⟩ := printInt_cons n
  rw [h]
  exact dropWhile_cons_of_neg (by simp [hc])

theorem scanSigned_of_isDigit {d : Char} (h : d.isDigit = true) (s : List Char) :
    scanSigned (d :: s) = (scanNat (d :: s)).map fun r => ((r.1 : Int), r.2) := by
  unfold scanSigned
  split
  · rename_i heq
    obtain ⟨rfl, -⟩ := List.cons.inj heq
    simp at h
  · rename_i heq
    obtain ⟨rfl, -⟩ := List.cons.inj heq
    simp at h
  · rfl

/-- **What `%d` prints, `%d` reads**, if no digit follows. -/
theorem scanInt_printInt (n : Int) (h : NoDigit s) :
    scanInt (printInt n ++ s) = some (n, s) := by
  rw [scanInt, skipSpace_printInt]
  cases n with
  | ofNat n =>
    obtain ⟨d, ds, hd, hdig⟩ := toDigits_cons n
    have hscan := scanNat_toDigits n h
    rw [hd, cons_append] at hscan
    rw [printInt, hd, cons_append, scanSigned_of_isDigit hdig, hscan]
    rfl
  | negSucc n =>
    show (scanNat (Nat.toDigits 10 (n + 1) ++ s)).map _ = _
    rw [scanNat_toDigits (n + 1) h]
    rfl

/-! ## Leading white space -/

@[simp] theorem skipSpace_cons (h : isSpace c = true) (s : List Char) :
    skipSpace (c :: s) = skipSpace s :=
  dropWhile_cons_of_pos h

theorem skipSpace_of_head (h : isSpace c = false) (s : List Char) :
    skipSpace (c :: s) = c :: s :=
  dropWhile_cons_of_neg (by simp [h])

@[simp] theorem skipSpace_skipSpace (s : List Char) : skipSpace (skipSpace s) = skipSpace s :=
  dropWhile_idempotent _ s

theorem scanInt_congr {s t : List Char} (h : skipSpace s = skipSpace t) :
    scanInt s = scanInt t := by
  rw [scanInt, scanInt, h]

/-- The integers `ns` can be read from `s`, and what is left is `t` up to white space. -/
def Reads (s : List Char) (ns : List Int) (t : List Char) : Prop :=
  ∃ s', scanInts ns.length s = some (ns, s') ∧ skipSpace s' = skipSpace t

theorem Reads.nil {s t : List Char} (h : skipSpace s = skipSpace t) : Reads s [] t := ⟨s, rfl, h⟩

theorem Reads.cons {s s' t : List Char} {n : Int} {ns : List Int}
    (h : skipSpace s = printInt n ++ s') (hd : NoDigit s') (hr : Reads s' ns t) :
    Reads s (n :: ns) t := by
  obtain ⟨s'', hscan, hskip⟩ := hr
  refine ⟨s'', ?_, hskip⟩
  have hn : scanInt s = some (n, s') := by
    rw [← scanInt_printInt n hd]
    exact scanInt_congr (h.trans (skipSpace_printInt n s').symm)
  simp only [length_cons, scanInts, hn, hscan, Option.bind_eq_bind, Option.bind_some]
  rfl

theorem Reads.of_skipSpace {s s' t : List Char} {ns : List Int} (h : skipSpace s = skipSpace s')
    (hr : Reads s' ns t) : Reads s ns t := by
  cases ns with
  | nil =>
    obtain ⟨s'', hscan, hskip⟩ := hr
    obtain ⟨-, rfl⟩ := Prod.mk.inj (Option.some.inj hscan)
    exact .nil (h.trans hskip)
  | cons n ns =>
    obtain ⟨s'', hscan, hskip⟩ := hr
    refine ⟨s'', ?_, hskip⟩
    rw [length_cons, scanInts, scanInt_congr h] at *
    exact hscan

/-- Reading some of the integers first. -/
theorem Reads.append {s t : List Char} {ns ms : List Int} (hr : Reads s (ns ++ ms) t) :
    ∃ s', scanInts ns.length s = some (ns, s') ∧ Reads s' ms t := by
  induction ns generalizing s with
  | nil => exact ⟨s, rfl, hr⟩
  | cons n ns ih =>
    obtain ⟨s'', hscan, hskip⟩ := hr
    rw [cons_append, length_cons, scanInts] at hscan
    obtain ⟨⟨i, s₁⟩, hn, hscan⟩ := Option.bind_eq_some_iff.mp hscan
    obtain ⟨⟨is, s₂⟩, hrest, hscan⟩ := Option.bind_eq_some_iff.mp hscan
    obtain ⟨⟨rfl, rfl⟩, rfl⟩ : (i = n ∧ is = ns ++ ms) ∧ s₂ = s'' := by simpa using hscan
    obtain ⟨s', hs', hr'⟩ := ih ⟨s₂, hrest, hskip⟩
    refine ⟨s', ?_, hr'⟩
    simp only [length_cons, scanInts, hn, hs', Option.bind_eq_bind, Option.bind_some,
      Option.pure_def]

/-! ## Words -/

theorem scanWord_append {w : List Char} (hne : w ≠ []) (hw : w.all (!isSpace ·) = true)
    (hc : isSpace c = true) (s : List Char) : scanWord (w ++ c :: s) = some (w, c :: s) := by
  have hall := all_eq_true.1 hw
  have hskip : skipSpace (w ++ c :: s) = w ++ c :: s := by
    cases w with
    | nil => exact absurd rfl hne
    | cons d w => exact skipSpace_of_head (by simpa using hall d mem_cons_self) _
  have hstop : ¬ (!isSpace c) = true := by simp [hc]
  unfold scanWord
  rw [hskip, takeWhile_append_of_pos hall,
    takeWhile_cons_of_neg (p := (!isSpace ·)) hstop, append_nil,
    dropWhile_append_of_pos hall, dropWhile_cons_of_neg (p := (!isSpace ·)) hstop]
  cases w with
  | nil => exact absurd rfl hne
  | cons d w => rfl

theorem scanWord_space (hc : isSpace c = true) (s : List Char) :
    scanWord (c :: s) = scanWord s := by
  rw [scanWord, scanWord, skipSpace_cons hc]

/-- An integer is found wherever one was printed, whatever follows. -/
theorem scanInt_isSome (n : Int) (s : List Char) : ∃ r, scanInt (printInt n ++ s) = some r := by
  have hnat : ∀ (k : Nat) (s : List Char), ∃ r, scanNat (Nat.toDigits 10 k ++ s) = some r := by
    intro k s
    obtain ⟨d, ds, hd, hdig⟩ := toDigits_cons k
    rw [hd, cons_append, scanNat, takeWhile_cons_of_pos hdig]
    exact ⟨_, rfl⟩
  rw [scanInt, skipSpace_printInt]
  cases n with
  | negSucc n =>
    obtain ⟨r, hr⟩ := hnat (n + 1) s
    show ∃ r, (scanNat (Nat.toDigits 10 (n + 1) ++ s)).map _ = some r
    rw [hr]
    exact ⟨_, rfl⟩
  | ofNat n =>
    obtain ⟨r, hr⟩ := hnat n s
    obtain ⟨d, ds, hd, hdig⟩ := toDigits_cons n
    rw [hd, cons_append] at hr
    rw [printInt, hd, cons_append, scanSigned_of_isDigit hdig, hr]
    exact ⟨_, rfl⟩

theorem length_printInt_le {n : Int} {k : Nat} (hk : 0 < k) (h : n.natAbs < 10 ^ k) :
    (printInt n).length ≤ k + 1 := by
  cases n with
  | ofNat n => exact Nat.le_succ_of_le ((Nat.length_toDigits_le_iff (by norm_num) hk).2 h)
  | negSucc n => exact Nat.succ_le_succ ((Nat.length_toDigits_le_iff (by norm_num) hk).2 h)

end Scan
