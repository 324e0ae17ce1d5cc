import Volclava.Lib.CInt
import Volclava.Lib.Run
import Volclava.Windows

/-!
# The cached edge of a time window

`updateTimeWindow` (`mbd.window.c`) keeps the status of a week table with the second up to which it
is good, and does nothing before that second. `getDayHour` takes the hour from the clock without its
seconds, so the distance to the edge is counted from the last full minute and added to a later
second. Besides, most of this is done in single precision; how the machine rounds is a parameter.

- `Sound`: the status holds at every second before the edge.
- `sound_run`: it does in every run that looks at the table only at full minutes, on days with a
  list, where rounding does no harm; `stale_past_closing`: a minute later it does not.
-/

namespace Volclava.Windows

/-! ## The clock -/

structure DayHour where
  day : ℕ
  hour : ℚ

/-- The seconds of a local day that have passed; `zone` is the offset of the local time. -/
def secondOfDay (zone t : ℤ) : ℤ := (t + zone) % 86400

/-- The day of the week, 1 on Mondays. The time 0 is on a Thursday. -/
def weekday (zone t : ℤ) : ℕ := (((t + zone) / 86400 + 3) % 7 + 1).toNat

/-- The hour of the clock, without the seconds. -/
def clockHour (zone t : ℤ) : ℚ :=
  (secondOfDay zone t / 3600 : ℤ) + (secondOfDay zone t / 60 % 60 : ℤ) / 60

def getDayHour (r : CInt.Arith) (zone t : ℤ) : DayHour :=
  ⟨weekday zone t, r.flt (r.dbl ((secondOfDay zone t / 3600 : ℤ) +
    r.dbl ((secondOfDay zone t / 60 % 60 : ℤ) / 60)))⟩

/-- The table is open at the second `t`. -/
def OpenAt (week : ℕ → Option (List Window)) (zone t : ℤ) : Prop :=
  ∃ l ∈ week (weekday zone t), Covers l (secondOfDay zone t / 3600 : ℚ)

/-! ## The update -/

/-- `time_t` from a floating-point number. -/
def toTime (x : ℚ) : ℤ := if 0 ≤ x then ⌊x⌋ else ⌈x⌉

/-- The time `now + (e - hour) * 3600` of `checkWindow`: the difference, the product, `now` and the
sum are each rounded to `float`. -/
def edgeSum (r : CInt.Arith) (now : ℤ) (e hour : ℚ) : ℚ :=
  r.flt (r.flt now + r.flt (r.flt (e - hour) * 3600))

/-- The loop over the windows of a day: whether one is open, and the edge. -/
def checkWindows (r : CInt.Arith) (now : ℤ) (hour : ℚ) : List Window → ℤ → Bool × ℤ
  | [], edge => (false, edge)
  | wp :: l, edge =>
    if hour ≥ wp.opentime ∧ hour < wp.closetime then
      (true, min (toTime (edgeSum r now wp.closetime hour)) edge)
    else checkWindows r now hour l (min (toTime (edgeSum r now (min wp.opentime 24) hour)) edge)

/-- The end of the day, computed in `double`, where only the sum has to be rounded. -/
def midnight (r : CInt.Arith) (now : ℤ) (hour : ℚ) : ℤ :=
  toTime (r.dbl (now + (24 - hour) * 3600))

structure TimeWindow where
  isOpen : Bool
  windEdge : ℤ
  deriving DecidableEq

def updateTimeWindow (r : CInt.Arith) (zone : ℤ) (week : ℕ → Option (List Window))
    (timeW : TimeWindow) (now : ℤ) : TimeWindow :=
  if timeW.windEdge > now ∨ timeW.windEdge = 0 then timeW
  else
    let dayhour := getDayHour r zone now
    let edge := midnight r now dayhour.hour
    match week dayhour.day with
    | none => { timeW with windEdge := edge }
    | some l =>
      ⟨(checkWindows r now dayhour.hour l edge).1, (checkWindows r now dayhour.hour l edge).2⟩

/-- The status is the one of the table at every second from now to the edge. -/
def Sound (zone : ℤ) (week : ℕ → Option (List Window)) (now : ℤ) (timeW : TimeWindow) : Prop :=
  ∀ t, now ≤ t → t < timeW.windEdge → (timeW.isOpen = true ↔ OpenAt week zone t)

/-- Rounding does a window no harm: the rounded hour is on the same side of its two ends as the
exact one, and neither of them is rounded to a later time. -/
structure Harmless (r : CInt.Arith) (now : ℤ) (hour exact : ℚ) (wp : Window) : Prop where
  opentime : wp.opentime ≤ hour ↔ wp.opentime ≤ exact
  closetime : wp.closetime ≤ hour ↔ wp.closetime ≤ exact
  edges : ∀ e ∈ [wp.closetime, min wp.opentime 24], edgeSum r now e hour ≤ now + (e - exact) * 3600

/-- The call does nothing, or it is made at a full minute, the day has a list, and rounding does
no harm to midnight and to the windows of the list. -/
def Tame (r : CInt.Arith) (zone : ℤ) (week : ℕ → Option (List Window)) (timeW : TimeWindow)
    (now : ℤ) : Prop :=
  timeW.windEdge > now ∨ timeW.windEdge = 0 ∨
    secondOfDay zone now % 60 = 0 ∧
      midnight r now (getDayHour r zone now).hour ≤ now + (24 - clockHour zone now) * 3600 ∧
      ∃ l ∈ week (weekday zone now), ∀ wp ∈ l,
        Harmless r now (getDayHour r zone now).hour (clockHour zone now) wp

theorem lt_of_lt_toTime {t : ℤ} {x : ℚ} (h : t < toTime x) : (t : ℚ) < x := by
  unfold toTime at h
  split_ifs at h
  · exact lt_of_lt_of_le (by exact_mod_cast h) (Int.floor_le x)
  · exact Int.lt_ceil.mp h

section

variable {r : CInt.Arith} {zone now : ℤ} {week : ℕ → Option (List Window)} {timeW : TimeWindow}

/-- What the loop has found out: it stops at an open window before that closes, or it has passed all
windows before any of them opens. -/
theorem checkWindows_spec {hour exact : ℚ} {l : List Window} (edge : ℤ)
    (hl : ∀ wp ∈ l, Harmless r now hour exact wp) :
    let out := checkWindows r now hour l edge
    out.2 ≤ edge ∧ ∀ t : ℤ, now ≤ t → t < out.2 → exact + (t - now) / 3600 < 24 →
      (out.1 = true ↔ Covers l (exact + (t - now) / 3600)) := by
  induction l generalizing edge with
  | nil => exact ⟨le_rfl, fun t _ _ _ => by simp [checkWindows, Covers]⟩
  | cons wp l ih =>
    obtain ⟨hwp, hl⟩ := List.forall_mem_cons.mp hl
    have hedge : ∀ e ∈ [wp.closetime, min wp.opentime 24], ∀ t : ℤ,
        t < toTime (edgeSum r now e hour) → exact + (t - now) / 3600 < e := by
      intro e he t ht
      have hlt := (lt_of_lt_toTime ht).trans_le (hwp.edges e he)
      linarith
    rw [checkWindows]
    split_ifs with hin
    · refine ⟨min_le_right _ _, fun t hnow ht _ => ?_⟩
      have hnow' : (now : ℚ) ≤ t := by exact_mod_cast hnow
      have hopen := hwp.opentime.mp hin.1
      have hclose := hedge _ (by simp) t (ht.trans_le (min_le_left _ _))
      simp only [Covers, List.exists_mem_cons_iff, true_iff]
      exact .inl ⟨by linarith, hclose⟩
    · obtain ⟨hle, hspec⟩ := ih (min (toTime (edgeSum r now (min wp.opentime 24) hour)) edge) hl
      refine ⟨hle.trans (min_le_right _ _), fun t hnow ht h24 => ?_⟩
      rw [hspec t hnow ht h24]
      have hopen := hedge _ (by simp) t (ht.trans_le (hle.trans (min_le_left _ _)))
      have hnot : ¬ wp.Has (exact + (t - now) / 3600) := by
        intro hhas
        have hlt := lt_min_iff.mp hopen
        linarith [hhas.1]
      simp [Covers, hnot]

/-- Before midnight the day stays and the hour goes on. -/
theorem same_day {t : ℤ} (hnow : now ≤ t) (ht : t - now < 86400 - secondOfDay zone now) :
    weekday zone t = weekday zone now ∧
      secondOfDay zone t = secondOfDay zone now + (t - now) := by
  unfold weekday secondOfDay at *
  constructor <;> omega

theorem clockHour_eq (h : secondOfDay zone now % 60 = 0) :
    clockHour zone now = (secondOfDay zone now : ℚ) / 3600 := by
  have hsec : secondOfDay zone now =
      3600 * (secondOfDay zone now / 3600) + 60 * (secondOfDay zone now / 60 % 60) := by omega
  have hrat : (secondOfDay zone now : ℚ) = 3600 * ((secondOfDay zone now / 3600 : ℤ) : ℚ) +
      60 * ((secondOfDay zone now / 60 % 60 : ℤ) : ℚ) := by exact_mod_cast hsec
  rw [clockHour]
  linarith

/-- **A tame call leaves a sound status.** -/
theorem sound_update {before : ℤ} (hs : Sound zone week before timeW) (hle : before ≤ now)
    (h : Tame r zone week timeW now) :
    Sound zone week now (updateTimeWindow r zone week timeW now) := by
  unfold updateTimeWindow
  split_ifs with hskip
  · exact fun t hnow => hs t (hle.trans hnow)
  · obtain ⟨hmin, hmidnight, l, hl, hharmless⟩ := ((or_assoc.mpr h).resolve_left hskip)
    have hday : week (getDayHour r zone now).day = some l := hl
    simp only [hday]
    intro t hnow ht
    obtain ⟨hedge, hspec⟩ :=
      checkWindows_spec (midnight r now (getDayHour r zone now).hour) hharmless
    have hhour := clockHour_eq hmin
    have hmid : (t : ℚ) - now < 86400 - secondOfDay zone now := by
      have hlt : (t : ℚ) < midnight r now (getDayHour r zone now).hour := by
        exact_mod_cast ht.trans_le hedge
      rw [hhour] at hmidnight
      linarith
    obtain ⟨hweek, hsec⟩ := same_day hnow (by exact_mod_cast hmid)
    rw [hspec t hnow ht (by rw [hhour]; linarith), OpenAt, hweek, hl, hsec, hhour]
    push_cast
    simp [add_div]

end

/-- **The cached status is never stale** in a run whose calls are all tame. -/
theorem sound_run (r : CInt.Arith) (zone : ℤ) (week : ℕ → Option (List Window)) (timeW : TimeWindow)
    (start : ℤ) (nows : List ℤ) (hstart : timeW.windEdge ≤ start)
    (horder : (start :: nows).IsChain (· ≤ ·))
    (h : Run.Along (updateTimeWindow r zone week) (Tame r zone week) timeW nows) (n : ℕ)
    {now : ℤ} (hnow : nows[n]? = some now) :
    Sound zone week now (Run.run (updateTimeWindow r zone week) timeW (nows.take (n + 1))) := by
  have hs : Sound zone week start timeW :=
    fun t hle hlt => absurd (hle.trans_lt hlt) (not_lt.mpr hstart)
  clear hstart
  induction nows generalizing timeW start n with
  | nil => simp at hnow
  | cons first nows ih =>
    obtain ⟨hle, horder⟩ := List.isChain_cons_cons.mp horder
    have hfirst := sound_update hs hle h.1
    cases n with
    | zero =>
      obtain rfl : first = now := by simpa using hnow
      exact hfirst
    | succ n => exact ih _ first horder h.2 n (by simpa using hnow) hfirst

/-- A call at 8:00, when a window opens, one while it is open, and one when it closes. -/
theorem sound_at_opening :
    Sound 0 (fun _ => some [⟨8, 18⟩]) 64800
      (Run.run (updateTimeWindow .exact 0 fun _ => some [⟨8, 18⟩]) ⟨false, 1⟩
        [28800, 36059, 64800]) :=
  sound_run .exact 0 _ _ 1 [28800, 36059, 64800] le_rfl (by simp)
    ⟨.inr (.inr ⟨by decide, by decide +kernel, _, rfl, List.forall_mem_singleton.mpr
        ⟨by decide +kernel, by decide +kernel, by decide +kernel⟩⟩),
      .inl (by decide +kernel),
      .inr (.inr ⟨by decide, by decide +kernel, _, rfl, List.forall_mem_singleton.mpr
        ⟨by decide +kernel, by decide +kernel, by decide +kernel⟩⟩), trivial⟩ 2 rfl

/-- A call at 10:00:59 takes the window as open until 18:00:59. -/
theorem stale_past_closing :
    ¬ Sound 0 (fun _ => some [⟨8, 18⟩]) 36059
      (updateTimeWindow .exact 0 (fun _ => some [⟨8, 18⟩]) ⟨false, 1⟩ 36059) := by
  have hupd : updateTimeWindow .exact 0 (fun _ => some [⟨8, 18⟩]) ⟨false, 1⟩ 36059 =
      ⟨true, 64859⟩ := by
    decide +kernel
  intro h
  obtain ⟨l, hl, hcovers⟩ := (h 64800 (by decide) (by rw [hupd]; decide)).mp (by rw [hupd])
  cases hl
  norm_num [Covers, Window.Has, secondOfDay] at hcovers

end Volclava.Windows
