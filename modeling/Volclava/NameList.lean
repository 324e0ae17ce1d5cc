import Volclava.Lib.Scan

/-!
# Compressed lists of host names

`lsb.misc.c` writes the hosts of a parallel job in short: `lsb_compressStrList` counts equal names
that follow each other, `lsb_printNameList` prints a count and a name for each run, and
`lsb_parseShortStr` reads the text back, word by word. A word is printed into a buffer of
`MAXLINELEN` bytes.

- `expand_compress`: the runs are those of the list.
- `parseLoop_flatMap`: the words are read back.
- `lossless_of_names`: every list of names comes back whose words fit; `not_lossless`: the empty
  list and repeated empty names do not.
-/

namespace Volclava.NameList

open Scan List

abbrev Name := List Char

/-- `MAXLINELEN` -/
def maxLineLen : Nat := 4096

/-- The loop of `lsb_compressStrList`: the run of `head` has `numSameStr` names so far. -/
def compressLoop (head : Name) (numSameStr : Nat) : List Name → List (Name × Nat)
  | [] => [(head, numSameStr)]
  | s :: strList =>
    if s = head then compressLoop head (numSameStr + 1) strList
    else (head, numSameStr) :: compressLoop s 1 strList

def compressStrList : List Name → List (Name × Nat)
  | [] => []
  | s :: strList => compressLoop s 1 strList

/-- A word with the blank after it. -/
def wordText (e : Name × Nat) : List Char := printInt e.2 ++ '*' :: (e.1 ++ [' '])

/-- `lsb_printNameList` in the short format; `none` if a word does not fit into its buffer. -/
def printNameList (nameList : List (Name × Nat)) : Option (List Char) :=
  if ∀ e ∈ nameList, (wordText e).length < maxLineLen then some (nameList.flatMap wordText)
  else none

/-- The loop of `lsb_splitName`, with the name read so far and the number if a `*` was seen. A
number that cannot be read leaves the static `nameNum` as it was. -/
def splitLoop (nameNum : Int) : List Char → Name → Option Int → Name × Option Int
  | [], name, num => (name, num)
  | c :: str, name, num =>
    if c ≠ '*' then splitLoop nameNum str (name ++ [c]) num
    else
      let num := ((scanInt name).map (·.1)).getD (num.getD nameNum)
      splitLoop nameNum str [] (some (if num ≤ 0 then 1 else num))

/-- `lsb_splitName` -/
def splitName (nameNum : Int) (str : List Char) : Name × Int :=
  let (name, num) := splitLoop nameNum str [] none
  (name, if name = [] then 1 else num.getD 1)

/-- The loop of `lsb_parseShortStr`, with the places left in the list. -/
def parseLoop (nameNum : Int) : Nat → List Char → Option (List (Name × Int))
  | 0, string => if (scanWord string).isNone then some [] else none
  | numStr + 1, string =>
    match scanWord string with
    | none => some []
    | some (curStr, string) =>
      (parseLoop nameNum numStr string).map (splitName nameNum curStr :: ·)

/-- `lsb_parseShortStr`, which has no list for an empty text. -/
def parseShortStr (nameNum : Int) (string : List Char) : Option (List (Name × Int)) :=
  if string = [] then none else parseLoop nameNum (string.length / 2 + 1) string

/-- The list comes back: as runs from the text, and name by name from the runs. -/
structure Lossless (nameNum : Int) (strList : List Name) : Prop where
  parsed : (printNameList (compressStrList strList)).bind (parseShortStr nameNum) =
    some ((compressStrList strList).map fun e => (e.1, (e.2 : Int)))
  expanded : (compressStrList strList).flatMap (fun e => List.replicate e.2 e.1) = strList

/-! ## Compressing -/

theorem expand_compressLoop (head : Name) (n : Nat) (l : List Name) :
    (compressLoop head n l).flatMap (fun e => List.replicate e.2 e.1) =
      List.replicate n head ++ l := by
  induction l generalizing head n with
  | nil => simp [compressLoop]
  | cons s l ih =>
    rw [compressLoop]
    split_ifs with h
    · rw [ih, h, replicate_succ', append_assoc, singleton_append]
    · rw [flatMap_cons, ih]
      rfl

theorem expand_compress (l : List Name) :
    (compressStrList l).flatMap (fun e => List.replicate e.2 e.1) = l := by
  cases l with
  | nil => rfl
  | cons s l => exact expand_compressLoop s 1 l

theorem compressLoop_pos {head : Name} {n : Nat} (hn : 0 < n) (l : List Name) :
    ∀ e ∈ compressLoop head n l, 0 < e.2 := by
  induction l generalizing head n with
  | nil => simpa [compressLoop] using hn
  | cons s l ih =>
    rw [compressLoop]
    split_ifs
    · exact ih (Nat.succ_pos n)
    · exact forall_mem_cons.mpr ⟨hn, ih Nat.one_pos⟩

theorem mem_of_run {l : List Name} {e : Name × Nat} (he : e ∈ compressStrList l) :
    0 < e.2 ∧ e.2 ≤ l.length ∧ e.1 ∈ l := by
  have hpos : 0 < e.2 := by
    cases l with
    | nil => cases he
    | cons s l => exact compressLoop_pos Nat.one_pos l e he
  have hrun : List.replicate e.2 e.1 <+ l := by
    conv_rhs => rw [← expand_compress l]
    exact sublist_flatten_of_mem (mem_map_of_mem he)
  have hlen := hrun.length_le
  rw [length_replicate] at hlen
  exact ⟨hpos, hlen, hrun.subset (mem_replicate.mpr ⟨hpos.ne', rfl⟩)⟩

/-! ## Reading a word back -/

theorem splitLoop_append {w : List Char} (hw : '*' ∉ w) (nameNum : Int) (str name : List Char)
    (num : Option Int) :
    splitLoop nameNum (w ++ str) name num = splitLoop nameNum str (name ++ w) num := by
  induction w generalizing name with
  | nil => simp
  | cons c w ih =>
    obtain ⟨hc, hw⟩ := not_or.mp (mem_cons.not.mp hw)
    rw [cons_append, splitLoop, if_pos (Ne.symm hc), ih hw]
    simp

theorem star_notMem_printInt (n : Nat) : '*' ∉ printInt n :=
  fun h => absurd (isDigit_of_mem h) (by decide)

theorem splitName_word (nameNum : Int) {e : Name × Nat} (hpos : 0 < e.2) (hne : e.1 ≠ [])
    (hstar : '*' ∉ e.1) :
    splitName nameNum (printInt e.2 ++ '*' :: e.1) = (e.1, (e.2 : Int)) := by
  have hscan : scanInt (printInt e.2) = some ((e.2 : Int), []) := by
    simpa using scanInt_printInt (e.2 : Int) (s := []) (by simp [NoDigit])
  have hend : splitLoop nameNum e.1 [] (some (e.2 : Int)) = (e.1, some (e.2 : Int)) := by
    simpa [splitLoop] using splitLoop_append hstar nameNum [] [] (some (e.2 : Int))
  have hpos : ¬(e.2 : Int) ≤ 0 := by omega
  unfold splitName
  rw [splitLoop_append (star_notMem_printInt e.2), splitLoop, if_neg (by simp)]
  simp only [nil_append, hscan, Option.map_some, Option.getD_some, if_neg hpos, hend, if_neg hne]

theorem isSpace_printInt (n : Nat) : ∀ c ∈ printInt n, isSpace c = false :=
  fun _ h => isSpace_of_isDigit (isDigit_of_mem h)

theorem scanWord_wordText {e : Name × Nat} (hspace : ∀ c ∈ e.1, isSpace c = false) (s : List Char) :
    scanWord (wordText e ++ s) = some (printInt e.2 ++ '*' :: e.1, ' ' :: s) := by
  have hall : (printInt e.2 ++ '*' :: e.1).all (!isSpace ·) = true := by
    have hn := isSpace_printInt e.2
    simpa [forall_mem_append] using ⟨hn, by decide, hspace⟩
  simpa [wordText] using scanWord_append (c := ' ') (by simp) hall (by decide) s

theorem parseLoop_space (nameNum : Int) (numStr : Nat) (s : List Char) :
    parseLoop nameNum numStr (' ' :: s) = parseLoop nameNum numStr s := by
  cases numStr <;> simp only [parseLoop, scanWord_space (c := ' ') (by decide)]

/-- A host name: not empty, and without a star and white space. -/
structure IsHostName (w : Name) : Prop where
  ne_nil : w ≠ []
  no_star : '*' ∉ w
  no_space : ∀ c ∈ w, isSpace c = false

/-- **The words are read back.** -/
theorem parseLoop_flatMap (nameNum : Int) {l : List (Name × Nat)}
    (h : ∀ e ∈ l, 0 < e.2 ∧ IsHostName e.1) {numStr : Nat} (hlen : l.length ≤ numStr) :
    parseLoop nameNum numStr (l.flatMap wordText) =
      some (l.map fun e => (e.1, (e.2 : Int))) := by
  induction l generalizing numStr with
  | nil => cases numStr <;> rfl
  | cons e l ih =>
    obtain ⟨numStr, rfl⟩ := Nat.exists_eq_succ_of_ne_zero (Nat.ne_zero_of_lt hlen)
    obtain ⟨⟨hpos, hname⟩, hl⟩ := forall_mem_cons.mp h
    rw [flatMap_cons, parseLoop, scanWord_wordText hname.no_space]
    simp only [parseLoop_space, ih hl (Nat.le_of_succ_le_succ hlen), Option.map_some,
      splitName_word nameNum hpos hname.ne_nil hname.no_star, map_cons]

theorem length_le_wordText (l : List (Name × Nat)) :
    l.length ≤ (l.flatMap wordText).length / 2 + 1 := by
  have h : 2 * l.length ≤ (l.flatMap wordText).length := by
    induction l with
    | nil => exact le_rfl
    | cons e l ih =>
      simp only [flatMap_cons, length_append, length_cons, wordText]
      omega
  omega

/-- The word of a run fits into its buffer: the count has ten digits at most. -/
theorem length_wordText_lt {e : Name × Nat} (hcount : e.2 < 2 ^ 31)
    (hlen : e.1.length + 14 ≤ maxLineLen) : (wordText e).length < maxLineLen := by
  have hdigits : (printInt e.2).length ≤ 11 :=
    length_printInt_le (k := 10) (by norm_num) (by rw [Int.natAbs_natCast]; omega)
  simp only [wordText, length_append, length_cons, length_nil]
  omega

/-- **A list of host names comes back**, if it is not empty, has no more names than an `int` counts,
and each name leaves room in the buffer for its count. -/
theorem lossless_of_names (nameNum : Int) {strList : List Name} (hne : strList ≠ [])
    (hcount : strList.length < 2 ^ 31)
    (h : ∀ w ∈ strList, IsHostName w ∧ w.length + 14 ≤ maxLineLen) :
    Lossless nameNum strList := by
  refine ⟨?_, expand_compress strList⟩
  have hruns : compressStrList strList ≠ [] := by
    intro hnil
    rw [← expand_compress strList, hnil] at hne
    exact hne rfl
  obtain ⟨e, he⟩ := exists_mem_of_ne_nil _ hruns
  have htext : (compressStrList strList).flatMap wordText ≠ [] := fun hnil =>
    absurd (flatMap_eq_nil_iff.mp hnil e he) (by simp [wordText])
  have hfit : ∀ e ∈ compressStrList strList, (wordText e).length < maxLineLen := by
    intro e he
    obtain ⟨-, hle, hmem⟩ := mem_of_run he
    exact length_wordText_lt (hle.trans_lt hcount) (h e.1 hmem).2
  rw [printNameList, if_pos hfit, Option.bind_some, parseShortStr, if_neg htext]
  refine parseLoop_flatMap nameNum (fun e he => ?_) (length_le_wordText _)
  obtain ⟨hpos, -, hmem⟩ := mem_of_run he
  exact ⟨hpos, (h e.1 hmem).1⟩

theorem lossless_two : Lossless 0 [['a'], ['a'], ['7', 'b']] := by
  refine lossless_of_names 0 (by decide) (by decide) ?_
  have ha : IsHostName ['a'] := ⟨by decide, by decide, by simp [isSpace]⟩
  have hb : IsHostName ['7', 'b'] := ⟨by decide, by decide, by simp [isSpace]⟩
  simp [maxLineLen, ha, hb]

/-- No list comes back from the text of an empty one, and an empty name that is repeated comes back
once. -/
theorem not_lossless : ¬Lossless 0 [] ∧ ¬Lossless 0 [[], []] := by
  refine ⟨fun h => absurd h.parsed (by decide), fun h => absurd h.parsed ?_⟩
  rw [show printNameList (compressStrList [[], []]) = some ['2', '*', ' '] from rfl]
  decide

end Volclava.NameList
