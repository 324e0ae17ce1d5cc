import Volclava.Lib.CInt

/-!
# Time windows

A window is written as a pair of times, `8:30-18:00` for every day or `5:20:00-1:6:00` for a part of
the week. `addWindow` (`window.c`) adds it to a table with a list of windows for each of the days 1
to 7. A list is kept merged: `insertW` unites the new window with each one it touches and then
inserts all but the first of them again. Hours are exact; -1 and 25 stand for the two ends of a day.

- `insertW_adds`: the list covers what it covered and the new window, and stays disjoint.
- `IsTime`, `parseTime_eq_some_iff`: the times that can be written, and that the parser reads them.
- `windows_cover`: the table covers what one of the strings covers, read as a cyclic interval.
-/

namespace Volclava.Windows

open CInt List

structure Window where
  opentime : ℚ
  closetime : ℚ
  deriving DecidableEq

/-- The window has the hour. -/
def Window.Has (w : Window) (hour : ℚ) : Prop := w.opentime ≤ hour ∧ hour < w.closetime

/-- Some window of the list has the hour. -/
def Covers (l : List Window) (hour : ℚ) : Prop := ∃ w ∈ l, w.Has hour

/-! ## Inserting a window -/

/-- The window after the attempt to merge it with another one, and whether it was merged. -/
def mergeW (wp : Window) (ohour chour : ℚ) : Window × Bool :=
  if wp.opentime = -1 ∧ wp.closetime = 25 then (wp, true)
  else if ohour = -1 ∧ chour = 25 then (⟨-1, 25⟩, true)
  else if ohour = 25 ∧ chour = 25 then (wp, true)
  else if ohour ≥ chour then (wp, true)
  else if wp.opentime = 25 ∧ wp.closetime = 25 then (⟨ohour, chour⟩, true)
  else
    let ohour := if ohour ≤ 0 then -1 else ohour
    let chour := if chour ≥ 24 then 25 else chour
    if ¬ wp.opentime > chour ∧ ¬ ohour > wp.closetime then
      (⟨min ohour wp.opentime, max chour wp.closetime⟩, true)
    else (wp, false)

/-- `new_wind`, filled in unless the new window is empty. -/
def newWind (ohour chour : ℚ) : Window := if ohour < chour then ⟨ohour, chour⟩ else ⟨25, 25⟩

/-- The body of `insertW`, which calls itself for all but the first of the merged windows. -/
def insertBody (again : List Window → Window → List Window) (l : List Window) (ohour chour : ℚ) :
    List Window :=
  match l with
  | [] => [newWind ohour chour]
  | wp :: rest =>
    if (wp :: rest).any fun v => (mergeW v ohour chour).2 then
      (rest.map fun v => (mergeW v ohour chour).1).foldl again [(mergeW wp ohour chour).1]
    else wp :: rest ++ [newWind ohour chour]

def insertFuel : ℕ → List Window → ℚ → ℚ → List Window
  | 0 => insertBody fun l _ => l
  | n + 1 => insertBody fun l v => insertFuel n l v.opentime v.closetime

/-- A call inserts into a shorter list than the one it is made for, so the length is fuel enough. -/
def insertW (l : List Window) (ohour chour : ℚ) : List Window := insertFuel l.length l ohour chour

/-- A window that is not empty, or the one of a day without any. -/
def Window.Wf (w : Window) : Prop :=
  w = ⟨25, 25⟩ ∨ (-1 ≤ w.opentime ∧ w.opentime < w.closetime ∧ w.closetime ≤ 25)

def Apart (w v : Window) : Prop := w.closetime ≤ v.opentime ∨ v.closetime ≤ w.opentime

theorem Window.Wf.ends {w : Window} (h : w.Wf) : -1 ≤ w.opentime ∧ w.closetime ≤ 25 := by
  rcases h with rfl | h
  · norm_num
  · exact ⟨h.1, h.2.2⟩

variable {ohour chour : ℚ} {l : List Window} {word : List Char}

theorem wf_newWind (ho : -1 ≤ ohour) (hc : chour ≤ 25) :
    (newWind ohour chour).Wf := by
  unfold newWind
  split_ifs with h
  · exact .inr ⟨ho, h, hc⟩
  · exact .inl rfl

theorem has_newWind {ohour chour hour : ℚ} (h24 : hour < 24) :
    (newWind ohour chour).Has hour ↔ ohour ≤ hour ∧ hour < chour := by
  unfold newWind Window.Has
  split_ifs with h
  · exact Iff.rfl
  · constructor <;> intro hw
    · linarith [hw.1]
    · linarith [hw.1, hw.2]

/-- Two windows that touch make one. -/
theorem has_union {a b c d hour : ℚ} (hab : a < b) (had : a ≤ d) (hcb : c ≤ b) :
    (min c a ≤ hour ∧ hour < max d b) ↔ (a ≤ hour ∧ hour < b) ∨ (c ≤ hour ∧ hour < d) := by
  rw [min_le_iff, lt_max_iff]
  grind

/-- What merging does to a window. -/
structure Merges (wp : Window) (ohour chour : ℚ) (out : Window × Bool) : Prop where
  wf : out.1.Wf
  has : ∀ hour, 0 ≤ hour → hour < 24 →
    (out.1.Has hour ↔ wp.Has hour ∨ (out.2 = true ∧ ohour ≤ hour ∧ hour < chour))
  apart : out.2 = false →
    out.1 = wp ∧ ohour < chour ∧ (chour ≤ wp.opentime ∨ wp.closetime ≤ ohour)

theorem merges_mergeW {wp : Window} (hw : wp.Wf) (ho : -1 ≤ ohour) (hc : chour ≤ 25) :
    Merges wp ohour chour (mergeW wp ohour chour) := by
  by_cases hfull : wp.opentime = -1 ∧ wp.closetime = 25
  · rw [mergeW, if_pos hfull]
    refine ⟨hw, fun hour h0 h24 => ?_, by simp⟩
    simp only [Window.Has]
    grind
  by_cases hnew : ohour = -1 ∧ chour = 25
  · rw [mergeW, if_neg hfull, if_pos hnew]
    refine ⟨.inr (by norm_num), fun hour h0 h24 => ?_, by simp⟩
    simp only [Window.Has]
    grind
  by_cases hempty : ohour ≥ chour
  · have hsame : mergeW wp ohour chour = (wp, true) := by simp [mergeW, hfull, hnew, hempty]
    rw [hsame]
    refine ⟨hw, fun hour h0 h24 => ?_, by simp⟩
    simp only [Window.Has]
    grind
  have hnone : ¬ (ohour = 25 ∧ chour = 25) := fun h => hempty (by rw [h.1, h.2])
  by_cases hfree : wp.opentime = 25 ∧ wp.closetime = 25
  · rw [mergeW, if_neg hfull, if_neg hnew, if_neg hnone, if_neg hempty, if_pos hfree]
    refine ⟨.inr ⟨ho, not_le.mp hempty, hc⟩, fun hour h0 h24 => ?_, by simp⟩
    simp only [Window.Has]
    grind
  have hwp : -1 ≤ wp.opentime ∧ wp.opentime < wp.closetime ∧ wp.closetime ≤ 25 :=
    hw.resolve_left fun h => hfree (by simp [h])
  rw [mergeW, if_neg hfull, if_neg hnew, if_neg hnone, if_neg hempty, if_neg hfree]
  -- The ends are moved outside the day first, which changes nothing within the day.
  set o := if ohour ≤ 0 then (-1 : ℚ) else ohour with ho'
  set c := if chour ≥ 24 then (25 : ℚ) else chour with hc'
  have hlow : -1 ≤ o ∧ o ≤ ohour ∧ ∀ hour, 0 ≤ hour → (o ≤ hour ↔ ohour ≤ hour) := by grind
  have hhigh : chour ≤ c ∧ c ≤ 25 ∧ ∀ hour, hour < 24 → (hour < c ↔ hour < chour) := by grind
  dsimp only
  split_ifs with htouch
  · refine ⟨.inr ?_, fun hour h0 h24 => ?_, by simp⟩
    · grind
    · simp only [Window.Has, true_and]
      rw [has_union hwp.2.1 (by grind) (by grind), hlow.2.2 hour h0, hhigh.2.2 hour h24]
  · refine ⟨hw, fun hour h0 h24 => by simp, fun _ => ⟨rfl, not_le.mp hempty, ?_⟩⟩
    grind

/-- A list as `insertW` keeps it. -/
structure Tidy (l : List Window) : Prop where
  wf : ∀ w ∈ l, w.Wf
  apart : l.Pairwise Apart

theorem tidy_singleton {w : Window} (h : w.Wf) : Tidy [w] :=
  ⟨by simpa using h, pairwise_singleton ..⟩

/-- The list `r` is tidy and covers the hours with `P` besides those that `l` covers. -/
structure Adds (l : List Window) (P : ℚ → Prop) (r : List Window) : Prop where
  tidy : Tidy r
  covers : ∀ hour, 0 ≤ hour → hour < 24 → (Covers r hour ↔ Covers l hour ∨ P hour)

theorem Adds.trans {l m r : List Window} {P Q : ℚ → Prop} (h : Adds l P m) (h' : Adds m Q r) :
    Adds l (fun hour => P hour ∨ Q hour) r :=
  ⟨h'.tidy, fun hour h0 h24 => by rw [h'.covers hour h0 h24, h.covers hour h0 h24, or_assoc]⟩

theorem Adds.congr {l r : List Window} {P Q : ℚ → Prop} (h : Adds l P r)
    (hPQ : ∀ hour, 0 ≤ hour → hour < 24 → (P hour ↔ Q hour)) : Adds l Q r :=
  ⟨h.tidy, fun hour h0 h24 => by rw [h.covers hour h0 h24, hPQ hour h0 h24]⟩

theorem Tidy.adds_none (h : Tidy l) : Adds l (fun _ => False) l :=
  ⟨h, fun hour _ _ => by simp⟩

/-- Inserting windows one after another. -/
theorem foldl_adds {again : List Window → Window → List Window} {n : ℕ}
    (hagain : ∀ acc v, acc.length < n → Tidy acc → v.Wf →
      Adds acc v.Has (again acc v) ∧ (again acc v).length ≤ acc.length + 1)
    {vs : List Window} (hvs : ∀ v ∈ vs, v.Wf) {acc : List Window} (hacc : Tidy acc)
    (hn : acc.length + vs.length ≤ n) :
    Adds acc (Covers vs) (vs.foldl again acc) ∧
      (vs.foldl again acc).length ≤ acc.length + vs.length := by
  induction vs generalizing acc with
  | nil => exact ⟨hacc.adds_none.congr fun hour _ _ => by simp [Covers], le_rfl⟩
  | cons v vs ih =>
    rw [length_cons] at hn
    obtain ⟨hv, hvs⟩ := forall_mem_cons.mp hvs
    obtain ⟨hone, hlen⟩ := hagain acc v (by omega) hacc hv
    obtain ⟨hrest, hlen'⟩ := ih hvs hone.tidy (by omega)
    refine ⟨(hone.trans hrest).congr fun hour _ _ => by simp [Covers], ?_⟩
    rw [foldl_cons, length_cons]
    omega

theorem insertBody_adds {again : List Window → Window → List Window}
    (hagain : ∀ acc v, acc.length < l.length → Tidy acc → v.Wf →
      Adds acc v.Has (again acc v) ∧ (again acc v).length ≤ acc.length + 1) (hl : Tidy l)
    (ho : -1 ≤ ohour) (hc : chour ≤ 25) :
    Adds l (fun hour => ohour ≤ hour ∧ hour < chour) (insertBody again l ohour chour) ∧
      (insertBody again l ohour chour).length ≤ l.length + 1 := by
  have hmerge : ∀ w ∈ l, Merges w ohour chour (mergeW w ohour chour) :=
    fun w hw => merges_mergeW (hl.wf w hw) ho hc
  cases l with
  | nil =>
    refine ⟨⟨tidy_singleton (wf_newWind ho hc), fun hour _ h24 => ?_⟩, le_rfl⟩
    simp [insertBody, Covers, has_newWind h24]
  | cons wp rest =>
    by_cases hany : (wp :: rest).any fun v => (mergeW v ohour chour).2
    · -- The merged windows together cover what the list does, and the new window.
      obtain ⟨hwp, hrest⟩ := forall_mem_cons.mp hmerge
      have hwf : ∀ v ∈ rest.map fun v => (mergeW v ohour chour).1, v.Wf := by
        simpa using fun v hv => (hrest v hv).wf
      obtain ⟨hadds, hlen⟩ := foldl_adds hagain hwf (tidy_singleton hwp.wf) (by simp; omega)
      rw [insertBody, if_pos hany]
      refine ⟨⟨hadds.tidy, fun hour h0 h24 => ?_⟩, by simp at hlen ⊢; omega⟩
      rw [hadds.covers hour h0 h24]
      have hcov : Covers [(mergeW wp ohour chour).1] hour ∨
          Covers (rest.map fun v => (mergeW v ohour chour).1) hour ↔
          ∃ v ∈ wp :: rest, (mergeW v ohour chour).1.Has hour := by simp [Covers]
      rw [hcov]
      obtain ⟨u, hu, hmerged⟩ := any_eq_true.mp hany
      constructor
      · intro hv
        obtain ⟨v, hv, hhas⟩ := hv
        exact (((hmerge v hv).has hour h0 h24).mp hhas).imp (fun h => ⟨v, hv, h⟩) And.right
      · intro hor
        rcases hor with ⟨v, hv, hhas⟩ | hnew
        · exact ⟨v, hv, ((hmerge v hv).has hour h0 h24).mpr (.inl hhas)⟩
        · exact ⟨u, hu, ((hmerge u hu).has hour h0 h24).mpr (.inr ⟨hmerged, hnew⟩)⟩
    · have hnone : ∀ v ∈ wp :: rest, (mergeW v ohour chour).2 = false := by simpa using hany
      have hlt : ohour < chour := ((hmerge wp mem_cons_self).apart
        (hnone wp mem_cons_self)).2.1
      rw [insertBody, if_neg hany]
      refine ⟨⟨⟨?_, ?_⟩, fun hour h0 h24 => ?_⟩, by simp⟩
      · exact forall_mem_append.mpr ⟨hl.wf, by simpa using wf_newWind ho hc⟩
      · refine pairwise_append.mpr ⟨hl.apart, pairwise_singleton .., fun v hv u hu => ?_⟩
        rw [mem_singleton.mp hu, newWind, if_pos hlt]
        exact ((hmerge v hv).apart (hnone v hv)).2.2.symm
      · simp [Covers, has_newWind h24, or_and_right, exists_or, or_assoc]

theorem insertFuel_adds (n : ℕ) (hn : l.length ≤ n) (hl : Tidy l) (ho : -1 ≤ ohour)
    (hc : chour ≤ 25) :
    Adds l (fun hour => ohour ≤ hour ∧ hour < chour) (insertFuel n l ohour chour) ∧
      (insertFuel n l ohour chour).length ≤ l.length + 1 := by
  induction n generalizing l ohour chour with
  | zero => exact insertBody_adds (fun acc v hacc => by omega) hl ho hc
  | succ n ih =>
    exact insertBody_adds (fun acc v hacc htidy hv => ih (by omega) htidy hv.ends.1 hv.ends.2)
      hl ho hc

/-- **What a list covers after an insertion.** -/
theorem insertW_adds (hl : Tidy l) (ho : -1 ≤ ohour) (hc : chour ≤ 25) :
    Adds l (fun hour => ohour ≤ hour ∧ hour < chour) (insertW l ohour chour) :=
  (insertFuel_adds l.length le_rfl hl ho hc).1

/-! ## Reading a window -/

/-- `strchr`: the text before and after the first occurrence. -/
def strchr (c : Char) : List Char → Option (List Char × List Char)
  | [] => none
  | d :: word =>
    if d = c then some ([], word) else (strchr c word).map fun p => (d :: p.1, p.2)

/-- `strrchr`: the text before and after the last occurrence. -/
def strrchr (c : Char) (word : List Char) : Option (List Char × List Char) :=
  (strchr c word.reverse).map fun p => (p.2.reverse, p.1.reverse)

/-- The white space of C. -/
def isSpace (c : Char) : Bool := c = ' ' ∨ ('\t' ≤ c ∧ c ≤ '\r')

def digitsValue (ds : List Char) : Option ℕ :=
  if ds ≠ [] ∧ ds.all Char.isDigit then some (ds.foldl (fun n d => 10 * n + (d.toNat - 48)) 0)
  else none

/-- `strtol` on a whole word. -/
def strtol (word : List Char) : Option ℤ :=
  match word.dropWhile isSpace with
  | '-' :: ds => (digitsValue ds).map fun n : ℕ => -(n : ℤ)
  | '+' :: ds => (digitsValue ds).map Nat.cast
  | ds => (digitsValue ds).map Nat.cast

/-- A word with `isint_` and a value of `atoi` that is not negative. The value is what `atof`
has. -/
def number (word : List Char) : Option Int :=
  match strtol word with
  | some v =>
    if v < 2 ^ 63 ∧ -2 ^ 63 ≤ v ∧ wrap v > -intMax ∧ ¬ wrap v < 0 then some v else none
  | none => none

def hourOf (word : List Char) : Option ℚ :=
  match number word with
  | some v => if 23 < v then none else some v
  | none => none

def minuteOf (word : List Char) : Option ℚ :=
  match number word with
  | some v => if 59 < wrap v then none else some (wrap v)
  | none => none

def dayOf (word : List Char) : Option ℕ :=
  match number word with
  | some v =>
    let day := if wrap v = 0 then 7 else wrap v
    if day < 1 ∨ 7 < day then none else some day.toNat
  | none => none

/-- The day, which is 0 if there is none, and the hour. -/
def parseTime (word : List Char) : Option (ℕ × ℚ) :=
  match strrchr ':' word with
  | none => (hourOf word).map fun hour => (0, hour)
  | some (word, sp) => do
    let min ← minuteOf sp
    match strrchr ':' word with
    | none => (hourOf word).map fun hour => (0, hour + min / 60)
    | some (word, sp) => do
      let hour ← hourOf sp
      let day ← dayOf word
      some (day, hour + min / 60)

/-! ## Adding a window to the week -/

/-- What a day gets from a window over several days. -/
inductive Part where
  | opening
  | closing
  | whole
  deriving DecidableEq

/-- The rounds of the loop from the day the window opens to the day it closes. -/
def span (oday cday : ℕ) : ℕ → ℕ → List (ℕ × Part)
  | 0, _ => []
  | n + 1, i =>
    let i := if i = 8 then 1 else i
    if i = oday then (i, .opening) :: span oday cday n (i + 1)
    else if i = cday then [(i, .closing)]
    else (i, .whole) :: span oday cday n (i + 1)

def insertPart (ohour chour : ℚ) (l : List Window) : Part → List Window
  | .opening => insertW l ohour 25
  | .closing => insertW l (-1) chour
  | .whole => insertW l (-1) 25

/-- A day that has no list yet gets one without windows. -/
def fillEmpty (week : ℕ → List Window) : ℕ → List Window :=
  fun j => if (1 ≤ j ∧ j < 8) ∧ week j = [] then insertW (week j) 25 25 else week j

def addTimes (oday : ℕ) (ohour : ℚ) (cday : ℕ) (chour : ℚ) (week : ℕ → List Window) :
    Option (ℕ → List Window) :=
  if (oday = 0 ∨ cday = 0) ∧ oday ≠ cday then none
  else if oday = 0 then
    some fun i =>
      if 1 ≤ i ∧ i < 8 then
        if ohour = chour then insertW (week i) 25 25
        else if ohour > chour then insertW (insertW (week i) ohour 25) (-1) chour
        else insertW (week i) ohour chour
      else week i
  else if oday = cday then
    if ohour > chour then none
    else if ohour = chour then
      some (fillEmpty (Function.update week oday (insertW (week oday) 25 25)))
    else some (fillEmpty (Function.update week oday (insertW (week oday) ohour chour)))
  else
    some (fillEmpty ((span oday cday 7 oday).foldl
      (fun week v => Function.update week v.1 (insertPart ohour chour (week v.1) v.2)) week))

def addWindow (wordpair : List Char) (week : ℕ → List Window) : Option (ℕ → List Window) := do
  let (oword, cword) ← strchr '-' wordpair
  let (cday, chour) ← parseTime cword
  let (oday, ohour) ← parseTime oword
  addTimes oday ohour cday chour week

/-! ## What a window string means -/

/-- The decimal number a word writes, behind white space and a sign. -/
def Writes (word : List Char) (v : ℤ) : Prop :=
  ∃ blanks digits, (∀ c ∈ blanks, isSpace c) ∧ digits ≠ [] ∧ (∀ d ∈ digits, d.isDigit) ∧
    let n : ℕ := .ofDigits 10 (digits.reverse.map fun d => d.toNat - 48)
    (word = blanks ++ digits ∨ word = blanks ++ '+' :: digits) ∧ v = n ∨
      word = blanks ++ '-' :: digits ∧ v = -n

/-- The number is a `long`, and not negative as an `int`. -/
def IsNumber (word : List Char) (v : ℤ) : Prop :=
  Writes word v ∧ (-2 ^ 63 ≤ v ∧ v < 2 ^ 63) ∧ 0 ≤ wrap v

/-- The time that a word of the form `hour`, `hour:minute` or `day:hour:minute` stands for. The day
is 0 if there is none, and 7 for a Sunday; minutes and days are the `int` of their number. -/
inductive IsTime : List Char → ℕ → ℚ → Prop
  | hour {hh h} : IsNumber hh h → h ≤ 23 → IsTime hh 0 h
  | minute {hh h mm m} : IsNumber hh h → h ≤ 23 → IsNumber mm m → wrap m ≤ 59 →
      IsTime (hh ++ ':' :: mm) 0 (h + wrap m / 60)
  | day {dd d hh h mm m} : IsNumber dd d → wrap d ≤ 7 → IsNumber hh h → h ≤ 23 →
      IsNumber mm m → wrap m ≤ 59 →
      IsTime (dd ++ ':' :: hh ++ ':' :: mm) (if wrap d = 0 then 7 else (wrap d).toNat)
        (h + wrap m / 60)

/-- The points from `o` up to `c`, past the end and on from the beginning if `c` is before `o`. -/
def Cyclic {α : Type} [LinearOrder α] (o c p : α) : Prop :=
  if o ≤ c then o ≤ p ∧ p < c else o ≤ p ∨ p < c

/-- The window has the hour of the day: the hour alone decides if it is for every day. -/
def InWindow (oday : ℕ) (ohour : ℚ) (cday : ℕ) (chour : ℚ) (day : ℕ) (hour : ℚ) : Prop :=
  if oday = 0 then Cyclic ohour chour hour
  else Cyclic (toLex (oday, ohour)) (toLex (cday, chour)) (toLex (day, hour))

/-- The interval of two times with a hyphen between them. -/
def InWordpair (wordpair : List Char) (day : ℕ) (hour : ℚ) : Prop :=
  ∃ oword cword oday ohour cday chour, wordpair = oword ++ '-' :: cword ∧ '-' ∉ oword ∧
    IsTime oword oday ohour ∧ IsTime cword cday chour ∧ InWindow oday ohour cday chour day hour

/-! ## The parser reads what is written -/

theorem strchr_eq_some_iff {c : Char} {word a b : List Char} :
    strchr c word = some (a, b) ↔ word = a ++ c :: b ∧ c ∉ a := by
  induction word generalizing a b with
  | nil => simp [strchr]
  | cons d word ih =>
    rw [strchr]
    split_ifs with hd
    · subst hd
      cases a with
      | nil => simp
      | cons x a => simp +contextual [eq_comm]
    · cases a with
      | nil => simp [hd]
      | cons x a =>
        simp only [Option.map_eq_some_iff, Prod.exists, ih, Prod.mk.injEq, cons.injEq,
          cons_append, mem_cons]
        grind

theorem strrchr_eq_some_iff {c : Char} {word a b : List Char} :
    strrchr c word = some (a, b) ↔ word = a ++ c :: b ∧ c ∉ b := by
  have hrev : word = a ++ c :: b ↔ word.reverse = b.reverse ++ c :: a.reverse := by
    rw [← reverse_inj]
    simp
  rw [hrev, strrchr, ← mem_reverse, ← strchr_eq_some_iff]
  simp only [Option.map_eq_some_iff, Prod.exists, Prod.mk.injEq]
  constructor
  · rintro ⟨x, y, h, rfl, rfl⟩
    simpa using h
  · exact fun h => ⟨_, _, h, by simp, by simp⟩

theorem strrchr_eq_none {c : Char} {word : List Char} (h : c ∉ word) : strrchr c word = none := by
  cases hs : strrchr c word with
  | none => rfl
  | some p => exact absurd ((strrchr_eq_some_iff.mp hs).1 ▸ by simp) h

theorem digitsValue_eq_some_iff {ds : List Char} {n : ℕ} : digitsValue ds = some n ↔
    ds ≠ [] ∧ (∀ d ∈ ds, d.isDigit) ∧
      n = Nat.ofDigits 10 (ds.reverse.map fun d => d.toNat - 48) := by
  have hfold : Nat.ofDigits 10 (ds.reverse.map fun d => d.toNat - 48) =
      ds.foldl (fun n d => 10 * n + (d.toNat - 48)) 0 := by
    rw [Nat.ofDigits_eq_foldr, foldr_map, foldr_reverse]
    simp [add_comm]
  rw [hfold, digitsValue]
  split_ifs with h
  · rw [Option.some.injEq]
    exact ⟨fun hn => ⟨h.1, all_eq_true.mp h.2, hn.symm⟩, fun hn => hn.2.2.symm⟩
  · simp_all

/-- A sign or a digit ends the white space. -/
theorem dropWhile_isSpace {blanks ds : List Char} {c : Char} (hblanks : ∀ c ∈ blanks, isSpace c)
    (hc : ¬ isSpace c) : (blanks ++ c :: ds).dropWhile isSpace = c :: ds := by
  rw [dropWhile_append_of_pos hblanks, dropWhile_cons_of_neg hc]

theorem isDigit_ne {c : Char} (h : c.isDigit) : ¬ isSpace c ∧ c ≠ '-' ∧ c ≠ '+' := by
  simp only [Char.isDigit, ge_iff_le, Bool.and_eq_true, decide_eq_true_eq] at h
  simp only [isSpace, decide_eq_true_eq]
  refine ⟨?_, ?_, ?_⟩
  · rintro (rfl | ⟨-, hr⟩)
    · exact absurd h.1 (by decide)
    · exact absurd (h.1.trans hr) (by decide)
  · rintro rfl
    exact absurd h.1 (by decide)
  · rintro rfl
    exact absurd h.1 (by decide)

theorem strtol_eq_some_iff {v : ℤ} : strtol word = some v ↔ Writes word v := by
  constructor
  · intro h
    have hsplit := takeWhile_append_dropWhile (p := isSpace) (l := word)
    have hblanks : ∀ c ∈ word.takeWhile isSpace, isSpace c := fun c hc => mem_takeWhile_imp hc
    unfold strtol at h
    split at h
    all_goals
      obtain ⟨n, hn, rfl⟩ := Option.map_eq_some_iff.mp h
      obtain ⟨hne, hdigits, rfl⟩ := digitsValue_eq_some_iff.mp hn
      refine ⟨_, _, hblanks, hne, hdigits, ?_⟩
    · next hword => exact .inr ⟨by rw [← hword, hsplit], rfl⟩
    · next hword => exact .inl ⟨.inr (by rw [← hword, hsplit]), rfl⟩
    · exact .inl ⟨.inl hsplit.symm, rfl⟩
  · rintro ⟨blanks, digits, hblanks, hne, hdigits, h⟩
    have hvalue := digitsValue_eq_some_iff.mpr ⟨hne, hdigits, rfl⟩
    rcases h with ⟨rfl | rfl, rfl⟩ | ⟨rfl, rfl⟩
    · obtain ⟨d, ds, rfl⟩ := exists_cons_of_ne_nil hne
      obtain ⟨hspace, hminus, hplus⟩ := isDigit_ne (hdigits d mem_cons_self)
      rw [strtol, dropWhile_isSpace hblanks hspace]
      split
      · next h => exact absurd (cons.inj h).1 hminus
      · next h => exact absurd (cons.inj h).1 hplus
      · rw [hvalue]
        rfl
    · rw [strtol, dropWhile_isSpace hblanks (by decide)]
      simp [hvalue]
    · rw [strtol, dropWhile_isSpace hblanks (by decide)]
      simp [hvalue]

theorem number_eq_some_iff {v : ℤ} : number word = some v ↔ IsNumber word v := by
  simp only [IsNumber, ← strtol_eq_some_iff, number]
  constructor
  · intro h
    split at h
    · next u hu =>
        split_ifs at h with hok
        cases h
        exact ⟨hu, ⟨hok.2.1, hok.1⟩, not_lt.mp hok.2.2.2⟩
    · cases h
  · rintro ⟨hv, hlong, hint⟩
    have hpos : wrap v > -intMax := by
      unfold intMax
      omega
    simp only [hv]
    rw [if_pos ⟨hlong.2, hlong.1, hpos, not_lt.mpr hint⟩]

theorem IsNumber.no_colon {v : ℤ} (h : IsNumber word v) : ':' ∉ word := by
  obtain ⟨⟨blanks, digits, hblanks, -, hdigits, hword⟩, -⟩ := h
  have hb : ':' ∉ blanks := fun hmem => absurd (hblanks _ hmem) (by decide)
  have hd : ':' ∉ digits := fun hmem => absurd (hdigits _ hmem) (by decide)
  rcases hword with ⟨rfl | rfl, -⟩ | ⟨rfl, -⟩ <;> simp [hb, hd]

theorem hourOf_eq_some_iff {hour : ℚ} :
    hourOf word = some hour ↔ ∃ h, IsNumber word h ∧ h ≤ 23 ∧ hour = h := by
  simp only [← number_eq_some_iff]
  cases hn : number word <;> simp [hourOf, hn, eq_comm]

theorem minuteOf_eq_some_iff {min : ℚ} :
    minuteOf word = some min ↔ ∃ m, IsNumber word m ∧ wrap m ≤ 59 ∧ min = wrap m := by
  simp only [← number_eq_some_iff]
  cases hn : number word <;> simp [minuteOf, hn, eq_comm]

theorem dayOf_eq_some_iff {day : ℕ} : dayOf word = some day ↔
    ∃ d, IsNumber word d ∧ wrap d ≤ 7 ∧ day = if wrap d = 0 then 7 else (wrap d).toNat := by
  simp only [← number_eq_some_iff]
  cases hn : number word with
  | none => simp [dayOf, hn]
  | some v =>
    have hpos := (number_eq_some_iff.mp hn).2.2
    simp only [dayOf, hn, Option.some.injEq, exists_eq_left']
    split_ifs <;> simp <;> omega

/-- **The parser accepts the times that are written so**, with the day and hour they stand for. -/
theorem parseTime_eq_some_iff {day : ℕ} {hour : ℚ} :
    parseTime word = some (day, hour) ↔ IsTime word day hour := by
  constructor
  · intro h
    unfold parseTime at h
    split at h
    · simp only [Option.map_eq_some_iff, hourOf_eq_some_iff] at h
      obtain ⟨_, ⟨h, hh, hle, rfl⟩, heq⟩ := h
      cases heq
      exact .hour hh hle
    · next word sp hcut =>
        obtain ⟨rfl, -⟩ := strrchr_eq_some_iff.mp hcut
        obtain ⟨_, hmin, h₁⟩ := Option.bind_eq_some_iff.mp h
        obtain ⟨m, hm, hm59, rfl⟩ := minuteOf_eq_some_iff.mp hmin
        split at h₁
        · simp only [Option.map_eq_some_iff, hourOf_eq_some_iff] at h₁
          obtain ⟨_, ⟨h, hh, hle, rfl⟩, heq⟩ := h₁
          cases heq
          exact .minute hh hle hm hm59
        · next word sp hcut =>
            obtain ⟨rfl, -⟩ := strrchr_eq_some_iff.mp hcut
            obtain ⟨_, hhour, h₂⟩ := Option.bind_eq_some_iff.mp h₁
            obtain ⟨_, hday, heq⟩ := Option.bind_eq_some_iff.mp h₂
            obtain ⟨h, hh, hle, rfl⟩ := hourOf_eq_some_iff.mp hhour
            obtain ⟨d, hd, hd7, rfl⟩ := dayOf_eq_some_iff.mp hday
            cases heq
            exact .day hd hd7 hh hle hm hm59
  · intro h
    cases h with
    | hour hh hle =>
      rw [parseTime, strrchr_eq_none hh.no_colon]
      simp [hourOf_eq_some_iff.mpr ⟨_, hh, hle, rfl⟩]
    | minute hh hle hm hm59 =>
      rw [parseTime, strrchr_eq_some_iff.mpr ⟨rfl, hm.no_colon⟩]
      simp [minuteOf_eq_some_iff.mpr ⟨_, hm, hm59, rfl⟩, strrchr_eq_none hh.no_colon,
        hourOf_eq_some_iff.mpr ⟨_, hh, hle, rfl⟩]
    | @day dword d hword h _ m hd hd7 hh hle hm hm59 =>
      have hcut : strrchr ':' (dword ++ ':' :: hword) = some (dword, hword) :=
        strrchr_eq_some_iff.mpr ⟨rfl, hh.no_colon⟩
      rw [parseTime, strrchr_eq_some_iff.mpr ⟨rfl, hm.no_colon⟩]
      simp [minuteOf_eq_some_iff.mpr ⟨_, hm, hm59, rfl⟩, hcut,
        hourOf_eq_some_iff.mpr ⟨_, hh, hle, rfl⟩, dayOf_eq_some_iff.mpr ⟨_, hd, hd7, rfl⟩]

theorem IsNumber.nonneg {v : ℤ} (h : IsNumber word v) (hw : '-' ∉ word) : 0 ≤ v := by
  obtain ⟨⟨blanks, digits, -, -, -, hword⟩, -⟩ := h
  rcases hword with ⟨-, rfl⟩ | ⟨rfl, -⟩
  · positivity
  · simp at hw

theorem IsTime.bounds {day : ℕ} {hour : ℚ} (h : IsTime word day hour) :
    day ≤ 7 ∧ hour < 24 ∧ ('-' ∉ word → 0 ≤ hour) := by
  have hmin {m : ℤ} (h0 : 0 ≤ wrap m) (h59 : wrap m ≤ 59) :
      (0 : ℚ) ≤ wrap m ∧ (wrap m : ℚ) ≤ 59 := by
    exact_mod_cast And.intro h0 h59
  have hhour {h : ℤ} (hle : h ≤ 23) : (h : ℚ) ≤ 23 := by exact_mod_cast hle
  cases h with
  | hour hh hle =>
    exact ⟨by norm_num, by linarith [hhour hle], fun hw => by exact_mod_cast hh.nonneg hw⟩
  | minute hh hle hm hm59 =>
    obtain ⟨h0, h59⟩ := hmin hm.2.2 hm59
    refine ⟨by norm_num, by linarith [hhour hle], fun hw => ?_⟩
    have hpos := hh.nonneg (by simp_all)
    positivity
  | day hd hd7 hh hle hm hm59 =>
    obtain ⟨h0, h59⟩ := hmin hm.2.2 hm59
    refine ⟨by split_ifs <;> omega, by linarith [hhour hle], fun hw => ?_⟩
    have hpos := hh.nonneg (by simp_all)
    positivity

variable {day : ℕ}

/-! ## The days of a window -/

/-- The part of a day, within the day. -/
def Part.Has (ohour chour hour : ℚ) : Part → Prop
  | .opening => ohour ≤ hour
  | .closing => hour < chour
  | .whole => True

variable {week : ℕ → List Window}

section

variable {ohour chour : ℚ} (ho : 0 ≤ ohour) (hc : chour < 24)
include ho hc

theorem insertPart_adds {l : List Window} (hl : Tidy l) (part : Part) :
    Adds l (part.Has ohour chour) (insertPart ohour chour l part) := by
  cases part with
  | opening =>
    refine (insertW_adds hl (by linarith) le_rfl).congr fun hour h0 h24 => ?_
    simp only [Part.Has, and_iff_left_iff_imp]
    intro _
    linarith
  | closing =>
    refine (insertW_adds hl le_rfl (by linarith)).congr fun hour h0 h24 => ?_
    simp only [Part.Has, and_iff_right_iff_imp]
    intro _
    linarith
  | whole =>
    refine (insertW_adds hl le_rfl le_rfl).congr fun hour h0 h24 => ?_
    simp only [Part.Has, iff_true]
    constructor <;> linarith

theorem foldl_insertPart_adds (visits : List (ℕ × Part))
    (hl : Tidy (week day)) :
    Adds (week day) (fun hour => ∃ v ∈ visits, v.1 = day ∧ v.2.Has ohour chour hour)
      (visits.foldl
        (fun week v => Function.update week v.1 (insertPart ohour chour (week v.1) v.2)) week
        day) := by
  induction visits generalizing week with
  | nil => exact hl.adds_none.congr fun hour _ _ => by simp
  | cons v visits ih =>
    rw [foldl_cons]
    by_cases hv : v.1 = day
    · subst hv
      have hone := insertPart_adds ho hc hl v.2
      have hrest := @ih (Function.update week v.1 (insertPart ohour chour (week v.1) v.2))
        (by simpa using hone.tidy)
      rw [Function.update_self] at hrest
      exact (hone.trans hrest).congr fun hour _ _ => by simp
    · have hsame : Function.update week v.1 (insertPart ohour chour (week v.1) v.2) day =
          week day := Function.update_of_ne (Ne.symm hv) ..
      have hrest := @ih (Function.update week v.1 (insertPart ohour chour (week v.1) v.2))
        (hsame ▸ hl)
      rw [hsame] at hrest
      exact hrest.congr fun hour _ _ => by simp [hv]

end

theorem mem_span : ∀ oday cday day : Fin 8, oday.val ≠ 0 ∧ cday.val ≠ 0 ∧ oday ≠ cday →
    ((day.val, Part.opening) ∈ span oday cday 7 oday ↔ day = oday) ∧
      ((day.val, Part.closing) ∈ span oday cday 7 oday ↔ day = cday) ∧
      ((day.val, Part.whole) ∈ span oday cday 7 oday ↔ day.val ≠ 0 ∧
        (oday < day ∧ day < cday ∨ cday < oday ∧ (oday < day ∨ day < cday))) := by
  decide +kernel

theorem span_covers {oday cday day : ℕ} (ho : 0 < oday ∧ oday < 8) (hc : 0 < cday ∧ cday < 8)
    (hd : 0 < day ∧ day < 8) (hne : oday ≠ cday) (ohour chour hour : ℚ) :
    (∃ v ∈ span oday cday 7 oday, v.1 = day ∧ v.2.Has ohour chour hour) ↔
      InWindow oday ohour cday chour day hour := by
  obtain ⟨hopen, hclose, hwhole⟩ :=
    mem_span ⟨oday, ho.2⟩ ⟨cday, hc.2⟩ ⟨day, hd.2⟩ ⟨ho.1.ne', hc.1.ne', by simpa using hne⟩
  simp only [Fin.mk.injEq, Fin.mk_lt_mk, hd.1.ne', ne_eq, not_false_eq_true, true_and]
    at hopen hclose hwhole
  have hparts : (∃ v ∈ span oday cday 7 oday, v.1 = day ∧ v.2.Has ohour chour hour) ↔
      (day = oday ∧ ohour ≤ hour) ∨ (day = cday ∧ hour < chour) ∨
        (oday < day ∧ day < cday ∨ cday < oday ∧ (oday < day ∨ day < cday)) := by
    rw [← hopen, ← hclose, ← hwhole]
    constructor
    · intro h
      obtain ⟨⟨_, part⟩, hv, rfl, hhas⟩ := h
      cases part with
      | opening => exact .inl ⟨hv, hhas⟩
      | closing => exact .inr (.inl ⟨hv, hhas⟩)
      | whole => exact .inr (.inr hv)
    · intro h
      rcases h with h | h | h
      · exact ⟨_, h.1, rfl, h.2⟩
      · exact ⟨_, h.1, rfl, h.2⟩
      · exact ⟨_, h, rfl, trivial⟩
  rw [hparts, InWindow, if_neg ho.1.ne', Cyclic]
  simp only [Prod.Lex.toLex_le_toLex, Prod.Lex.toLex_lt_toLex]
  grind

theorem inWindow_one_day {oday : ℕ} (h0 : oday ≠ 0) (hle : ohour ≤ chour) (day : ℕ) (hour : ℚ) :
    InWindow oday ohour oday chour day hour ↔ day = oday ∧ ohour ≤ hour ∧ hour < chour := by
  rw [InWindow, if_neg h0, Cyclic]
  simp only [Prod.Lex.toLex_le_toLex, Prod.Lex.toLex_lt_toLex]
  grind

theorem insertW_adds_none {l : List Window} (hl : Tidy l) :
    Adds l (fun _ => False) (insertW l 25 25) :=
  (insertW_adds hl (by norm_num) le_rfl).congr fun hour _ h24 => by
    simp only [iff_false]
    intro hin
    linarith [hin.1]

theorem fillEmpty_adds {P : ℚ → Prop} (h : Adds l P (week day)) :
    Adds l P (fillEmpty week day) := by
  unfold fillEmpty
  split_ifs with hempty
  · exact (h.trans (insertW_adds_none h.tidy)).congr fun hour _ _ => by simp
  · exact h

theorem addTimes_adds {oday cday : ℕ} {week' : ℕ → List Window}
    (h : addTimes oday ohour cday chour week = some week') (ho : oday ≤ 7) (hc : cday ≤ 7)
    (hoh : 0 ≤ ohour) (hch : chour < 24) (hd : 1 ≤ day ∧ day < 8) (hl : Tidy (week day)) :
    Adds (week day) (InWindow oday ohour cday chour day) (week' day) := by
  have hnone := insertW_adds_none hl
  have hsome : Adds (week day) (fun hour => ohour ≤ hour ∧ hour < chour)
      (insertW (week day) ohour chour) := insertW_adds hl (by linarith) (by linarith)
  unfold addTimes at h
  by_cases hamb : (oday = 0 ∨ cday = 0) ∧ oday ≠ cday
  · rw [if_pos hamb] at h
    cases h
  rw [if_neg hamb] at h
  by_cases hzero : oday = 0
  · -- The window is for every day.
    rw [if_pos hzero] at h
    cases h
    have hin : InWindow oday ohour cday chour day = Cyclic ohour chour := by
      funext hour
      simp [InWindow, hzero]
    simp only [hd, and_self, if_true, hin]
    split_ifs with heq hgt
    · exact hnone.congr fun hour _ _ => by grind [Cyclic]
    · have hopen := insertPart_adds hoh hch hl .opening
      refine (hopen.trans (insertPart_adds hoh hch hopen.tidy .closing)).congr fun hour _ _ => ?_
      grind [Cyclic, Part.Has]
    · exact hsome.congr fun hour _ _ => by grind [Cyclic]
  rw [if_neg hzero] at h
  by_cases hsame : oday = cday
  · -- It is within one day; the others do not change.
    subst hsame
    rw [if_pos rfl] at h
    by_cases hgt : ohour > chour
    · rw [if_pos hgt] at h
      cases h
    have hin := inWindow_one_day hzero (not_lt.mp hgt)
    have hput : ∀ r, (day = oday → Adds (week day) (fun hour => ohour ≤ hour ∧ hour < chour) r) →
        Adds (week day) (InWindow oday ohour oday chour day)
          (fillEmpty (Function.update week oday r) day) := by
      intro r hr
      refine fillEmpty_adds ?_
      by_cases hday : day = oday
      · rw [hday, Function.update_self, ← hday]
        exact (hr hday).congr fun hour _ _ => by simp [hin, hday]
      · rw [Function.update_of_ne hday]
        exact hl.adds_none.congr fun hour _ _ => by simp [hin, hday]
    rw [if_neg hgt] at h
    split_ifs at h with heq
    · cases h
      exact hput _ fun hday => hday ▸ hnone.congr fun hour _ _ => by grind
    · cases h
      exact hput _ fun hday => hday ▸ hsome
  · rw [if_neg hsame] at h
    cases h
    refine fillEmpty_adds ((foldl_insertPart_adds hoh hch _ hl).congr fun hour _ _ => ?_)
    exact span_covers (by omega) (by omega) hd hsame ohour chour hour

/-- **What a window string adds.** -/
theorem addWindow_adds {wordpair : List Char} {week' : ℕ → List Window}
    (h : addWindow wordpair week = some week') (hd : 1 ≤ day ∧ day < 8)
    (hl : Tidy (week day)) : Adds (week day) (InWordpair wordpair day) (week' day) := by
  obtain ⟨⟨oword, cword⟩, hcut, h⟩ := Option.bind_eq_some_iff.mp h
  obtain ⟨⟨cday, chour⟩, hcword, h⟩ := Option.bind_eq_some_iff.mp h
  obtain ⟨⟨oday, ohour⟩, howord, h⟩ := Option.bind_eq_some_iff.mp h
  obtain ⟨ho, -, hoh⟩ := (parseTime_eq_some_iff.mp howord).bounds
  obtain ⟨hc, hch, -⟩ := (parseTime_eq_some_iff.mp hcword).bounds
  refine (addTimes_adds h ho hc (hoh (strchr_eq_some_iff.mp hcut).2) hch hd hl).congr
    fun hour _ _ => ?_
  simp only [InWordpair, ← and_assoc, ← strchr_eq_some_iff, ← parseTime_eq_some_iff]
  simp [hcut, howord, hcword]

/-- **The table covers what one of the strings covers**, and its windows are disjoint. -/
theorem windows_cover {wordpairs : List (List Char)} {week : ℕ → List Window}
    (h : wordpairs.foldlM (fun week wordpair => addWindow wordpair week) (fun _ => []) = some week)
    {day : ℕ} (hd : 1 ≤ day ∧ day < 8) :
    (week day).Pairwise Apart ∧ ∀ hour, 0 ≤ hour → hour < 24 →
      (Covers (week day) hour ↔ ∃ wordpair ∈ wordpairs, InWordpair wordpair day hour) := by
  suffices hrun : ∀ week₀ : ℕ → List Window, Tidy (week₀ day) →
      wordpairs.foldlM (fun week wordpair => addWindow wordpair week) week₀ = some week →
      Adds (week₀ day) (fun hour => ∃ wordpair ∈ wordpairs, InWordpair wordpair day hour)
        (week day) by
    obtain ⟨htidy, hcovers⟩ := hrun _ ⟨by simp, List.Pairwise.nil⟩ h
    exact ⟨htidy.apart, fun hour h0 h24 => by simpa [Covers] using hcovers hour h0 h24⟩
  clear h
  induction wordpairs with
  | nil =>
    intro week₀ hl h
    cases h
    exact hl.adds_none.congr fun hour _ _ => by simp
  | cons wordpair wordpairs ih =>
    intro week₀ hl h
    rw [foldlM_cons] at h
    obtain ⟨week₁, hone, hrest⟩ := Option.bind_eq_some_iff.mp h
    have hadds := addWindow_adds hone hd hl
    exact (hadds.trans (ih week₁ hadds.tidy hrest)).congr fun hour _ _ => by simp

/-- From Friday 20:00 over the end of the week to Monday 6:30, and every night. -/
theorem windows_cover_weekend :
    ∃ week, [ "5:20:00-1:6:30".toList, "22-4".toList].foldlM
        (fun week wordpair => addWindow wordpair week) (fun _ => []) = some week ∧
      (week 1).Pairwise Apart ∧ ∀ hour, 0 ≤ hour → hour < 24 →
        (Covers (week 1) hour ↔ ∃ wordpair ∈ [ "5:20:00-1:6:30".toList, "22-4".toList],
          InWordpair wordpair 1 hour) := by
  have hsome : ([ "5:20:00-1:6:30".toList, "22-4".toList].foldlM
      (fun week wordpair => addWindow wordpair week) (fun _ => [])).isSome = true := by
    decide +kernel
  obtain ⟨week, hweek⟩ := Option.isSome_iff_exists.mp hsome
  exact ⟨week, hweek, windows_cover hweek (by decide)⟩

end Volclava.Windows
