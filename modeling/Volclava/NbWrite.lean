import Volclava.Lib.CInt

/-!
# A write with a timeout

`nb_write_timeout` (`lib.rdwr.c`) calls `write()` until all bytes are sent and looks at the clock
when the socket has no room. It takes the difference of the two times the wrong way round, so the
elapsed time is never positive, and it multiplies the timeout as an `int`.

- `NbCall.ends_iff`: a call does what it should exactly when it never looks at the clock too late
  and is not interrupted for ever.
-/

namespace Volclava

/-- `struct timeval`. -/
structure Timeval where
  tvSec : ℤ
  tvUsec : ℤ

def Timeval.us (t : Timeval) : ℤ := t.tvSec * 1000000 + t.tvUsec

/-- `US_DIFF`. -/
def usDiff (t1 t2 : Timeval) : ℤ := (t1.tvSec - t2.tvSec) * 1000000 + t1.tvUsec - t2.tvUsec

theorem usDiff_eq (t1 t2 : Timeval) : usDiff t1 t2 = t1.us - t2.us := by
  unfold usDiff Timeval.us
  ring

/-- What `write()` does. It takes no more bytes than it is given. -/
inductive SockWrite where
  | took (cc : ℕ)
  | eintr
  | eagain
  | failed

/-- The values of `lserrno`. -/
inductive LsErrno where
  | sockSys | msgSys | timeOut
  deriving DecidableEq

/-- What is returned: the bytes sent, or `-1` with the `lserrno`. -/
inductive NbRet where
  | sent (n : ℕ)
  | failed (lserrno : LsErrno)
  deriving DecidableEq

/-- The variables of the loop, with the bytes the socket has taken. -/
structure NbWrite (β : Type) where
  totalSent : ℕ
  wire : List β
  ret : Option NbRet

/-- The arguments of a call, its start, and what `write()` does and the clock shows in each
round. -/
structure NbCall (β : Type) where
  buf : List β
  timeout : ℤ
  start : Timeval
  write : ℕ → SockWrite
  now : ℕ → Timeval

namespace NbCall

variable {β : Type}

section Loop

variable (c : NbCall β)

def enter : NbWrite β :=
  ⟨0, [], if c.buf.length = 0 ∨ c.timeout < 0 then some (.failed .sockSys) else none⟩

/-- The bytes are sent, and the loop ends when they were the last ones. -/
def accept (s : NbWrite β) (cc : ℕ) : NbWrite β where
  totalSent := s.totalSent + cc
  wire := s.wire ++ (c.buf.drop s.totalSent).take cc
  ret := if s.totalSent + cc < c.buf.length then none else some (.sent (s.totalSent + cc))

/-- One round of the loop. -/
def round (s : NbWrite β) (write : SockWrite) (now : Timeval) : NbWrite β :=
  match s.ret, write with
  | some _, _ => s
  | none, .took cc =>
    let cc := min cc (c.buf.length - s.totalSent)
    if cc = 0 then { s with ret := some (.failed .msgSys) } else c.accept s cc
  | none, .eintr => s
  | none, .eagain =>
    if CInt.wrap (c.timeout * 1000000) ≤ usDiff c.start now then
      { s with ret := some (.failed .timeOut) }
    else s
  | none, .failed => { s with ret := some (.failed .sockSys) }

/-- `nb_write_timeout` after `n` rounds. -/
def nbWriteTimeout : ℕ → NbWrite β
  | 0 => c.enter
  | n + 1 => c.round (nbWriteTimeout n) (c.write n) (c.now n)

/-- The call has not returned before round `n`. -/
def Runs (n : ℕ) : Prop := (c.nbWriteTimeout n).ret = none

def elapsed (n : ℕ) : ℤ := (c.now n).us - c.start.us

/-- What the call should do. -/
structure Ends : Prop where
  returns : (∃ n, c.timeout * 1000000 < c.elapsed n) → ∃ n, ¬ c.Runs n
  timesOut : ∀ n, c.Runs n → c.write n = .eagain →
    ((c.nbWriteTimeout (n + 1)).ret = some (.failed .timeOut) ↔ c.timeout * 1000000 ≤ c.elapsed n)
  sent : ∀ n, (c.nbWriteTimeout n).ret = some (.sent c.buf.length) ↔
    (c.nbWriteTimeout n).wire = c.buf

/-- When the socket has no room, the timeout is not late, nor is it by the product that was cut to
an `int`; and once it is late, `write()` is not interrupted for ever. -/
structure InTime : Prop where
  early : ∀ n, c.Runs n → c.write n = .eagain →
    c.elapsed n < c.timeout * 1000000 ∧ -c.elapsed n < CInt.wrap (c.timeout * 1000000)
  resumes : (∃ n, c.timeout * 1000000 < c.elapsed n) →
    ∀ n, c.Runs n → ∃ m ≥ n, c.write m ≠ .eintr

end Loop

variable {c : NbCall β} {s : NbWrite β} {n : ℕ}

/-! ## Bytes -/

/-- The bytes taken are the first ones of the buffer, and all of them when the call says so. -/
structure Sound (c : NbCall β) (s : NbWrite β) : Prop where
  wire : s.wire = c.buf.take s.totalSent
  le : s.totalSent ≤ c.buf.length
  sent : s.ret = some (.sent c.buf.length) ↔ s.totalSent = c.buf.length

/-- What a round does to a call that has not returned. -/
theorem round_cases (hret : s.ret = none) (w : SockWrite) (t : Timeval) :
    (∃ e, c.round s w t = { s with ret := some (.failed e) }) ∨
    (c.round s w t = s ∧ (w = .eintr ∨ w = .eagain)) ∨
    ∃ cc, 0 < cc ∧ cc ≤ c.buf.length - s.totalSent ∧ c.round s w t = c.accept s cc := by
  unfold round
  rw [hret]
  cases w with
  | took cc =>
    dsimp only
    split_ifs with hzero
    · exact .inl ⟨_, rfl⟩
    · exact .inr (.inr ⟨_, Nat.pos_of_ne_zero hzero, min_le_right _ _, rfl⟩)
  | eintr => exact .inr (.inl ⟨rfl, .inl rfl⟩)
  | eagain =>
    dsimp only
    split_ifs
    · exact .inl ⟨_, rfl⟩
    · exact .inr (.inl ⟨rfl, .inr rfl⟩)
  | failed => exact .inl ⟨_, rfl⟩

theorem round_of_some (hret : s.ret ≠ none) (w : SockWrite) (t : Timeval) : c.round s w t = s := by
  obtain ⟨r, hr⟩ := Option.ne_none_iff_exists'.mp hret
  simp only [round, hr]

theorem Sound.round (h : Sound c s) (w : SockWrite) (t : Timeval) : Sound c (c.round s w t) := by
  by_cases hret : s.ret = none
  · have hlt : s.totalSent ≠ c.buf.length := fun heq => by simpa [hret] using h.sent.mpr heq
    rcases round_cases (c := c) hret w t with ⟨e, heq⟩ | ⟨heq, -⟩ | ⟨cc, -, hcc, heq⟩
    · rw [heq]
      exact ⟨h.wire, h.le, by simp [hlt]⟩
    · rw [heq]
      exact h
    · rw [heq]
      have hle := h.le
      refine ⟨?_, by dsimp only [accept]; omega, ?_⟩
      · rw [accept, h.wire, List.take_add]
      · dsimp only [accept]
        split_ifs with hmore
        · exact iff_of_false nofun hmore.ne
        · have heq : s.totalSent + cc = c.buf.length := by omega
          rw [heq]
          exact iff_of_true rfl rfl
  · rw [round_of_some hret]
    exact h

theorem sound_nbWriteTimeout (hbuf : c.buf ≠ []) (n : ℕ) : Sound c (c.nbWriteTimeout n) := by
  induction n with
  | zero =>
    have hlen := List.length_pos_iff.mpr hbuf
    refine ⟨rfl, Nat.zero_le _, iff_of_false ?_ hlen.ne⟩
    simp only [nbWriteTimeout, enter]
    split_ifs <;> simp
  | succ n ih => exact ih.round _ _

/-! ## Time -/

theorem ret_eq_timeOut_iff (hn : c.Runs n) (hw : c.write n = .eagain) :
    (c.nbWriteTimeout (n + 1)).ret = some (.failed .timeOut) ↔
      CInt.wrap (c.timeout * 1000000) ≤ -c.elapsed n := by
  have hdiff : usDiff c.start (c.now n) = -c.elapsed n := by
    rw [usDiff_eq, elapsed, neg_sub]
  have hn : (c.nbWriteTimeout n).ret = none := hn
  simp only [nbWriteTimeout, round, hn, hw, hdiff]
  split_ifs with hle
  · exact iff_of_true rfl hle
  · exact iff_of_false (by simp [hn]) hle

/-- The product never says that the timeout is over when it is. -/
theorem neg_lt_wrap {timeout : ℤ} (hpos : 1 ≤ timeout) (hle : timeout ≤ 86400) :
    -(timeout * 1000000) < CInt.wrap (timeout * 1000000) := by
  rcases le_or_gt timeout 2147 with h | h
  · rw [CInt.wrap_of_int (by omega) (by rw [CInt.intMax]; omega)]
    omega
  · rw [CInt.wrap, Int.bmod_def]
    split_ifs <;> omega

theorem runs_of_succ (h : c.Runs (n + 1)) : c.Runs n := by
  by_contra hret
  rw [Runs, nbWriteTimeout, round_of_some hret] at h
  exact hret h

theorem totalSent_le_succ (c : NbCall β) (n : ℕ) :
    (c.nbWriteTimeout n).totalSent ≤ (c.nbWriteTimeout (n + 1)).totalSent := by
  rw [nbWriteTimeout]
  by_cases hret : c.Runs n
  · rcases round_cases (c := c) hret (c.write n) (c.now n) with
      ⟨e, heq⟩ | ⟨heq, -⟩ | ⟨cc, -, -, heq⟩ <;> rw [heq]
    exact Nat.le_add_right _ _
  · rw [round_of_some hret]

/-- A call that is not interrupted for ever and finds the socket full only in time returns. -/
theorem InTime.returns (h : c.InTime) (hbuf : c.buf ≠ []) (hmono : Monotone c.elapsed)
    (hover : ∃ n, c.timeout * 1000000 < c.elapsed n) : ∃ n, ¬ c.Runs n := by
  by_contra hall
  push Not at hall
  obtain ⟨late, hlt⟩ := hover
  -- Beyond every number of bytes there is a round in which one more is taken.
  have hgrow : ∀ k, ∃ n ≥ late, k ≤ (c.nbWriteTimeout n).totalSent := by
    intro k
    induction k with
    | zero => exact ⟨late, le_rfl, Nat.zero_le _⟩
    | succ k ih =>
      obtain ⟨n, hn, hk⟩ := ih
      obtain ⟨m, hm, hw⟩ := h.resumes ⟨late, hlt⟩ n (hall n)
      have hk' := hk.trans (monotone_nat_of_le_succ c.totalSent_le_succ hm)
      rcases round_cases (c := c) (hall m) (c.write m) (c.now m) with
        ⟨e, heq⟩ | ⟨-, hw' | hw'⟩ | ⟨cc, hpos, -, heq⟩
      · have hret := hall (m + 1)
        rw [Runs, nbWriteTimeout, heq] at hret
        cases hret
      · exact absurd hw' hw
      · exact absurd (hlt.trans_le (hmono (hn.trans hm))) (h.early m (hall m) hw').1.not_gt
      · refine ⟨m + 1, hn.trans (hm.trans m.le_succ), ?_⟩
        rw [nbWriteTimeout, heq]
        exact Nat.add_le_add hk' hpos
  obtain ⟨n, -, hn⟩ := hgrow (c.buf.length + 1)
  exact absurd (sound_nbWriteTimeout hbuf n).le (by omega)

/-- **A timed write ends as it should** exactly when it is in time. -/
theorem ends_iff (c : NbCall β) (hbuf : c.buf ≠ []) (hpos : 1 ≤ c.timeout)
    (hle : c.timeout ≤ 86400) (hstart : ∀ n, 0 ≤ c.elapsed n) (hmono : Monotone c.elapsed) :
    c.Ends ↔ c.InTime := by
  have hwrap := neg_lt_wrap hpos hle
  constructor
  · intro h
    refine ⟨fun n hn hw => ?_, fun hover n hn => ?_⟩
    · have hiff := (ret_eq_timeOut_iff hn hw).symm.trans (h.timesOut n hn hw)
      have := hstart n
      omega
    · by_contra hall
      push Not at hall
      have hstay : ∀ m, n ≤ m → c.nbWriteTimeout m = c.nbWriteTimeout n := by
        intro m hm
        induction m, hm using Nat.le_induction with
        | base => rfl
        | succ m hm ih =>
          have hret : (c.nbWriteTimeout n).ret = none := hn
          rw [nbWriteTimeout, ih, hall m hm]
          simp only [round, hret]
      obtain ⟨m, hm⟩ := h.returns hover
      rcases le_total m n with hmn | hnm
      · exact hm (Nat.decreasingInduction' (fun k _ _ hk => runs_of_succ hk) hmn hn)
      · refine hm ?_
        rw [Runs, hstay m hnm]
        exact hn
  · intro h
    refine ⟨h.returns hbuf hmono, fun n hn hw => ?_, fun n => ?_⟩
    · rw [ret_eq_timeOut_iff hn hw]
      have := h.early n hn hw
      omega
    · have hs := sound_nbWriteTimeout hbuf n
      rw [hs.sent, hs.wire, List.take_eq_self_iff]
      exact ⟨ge_of_eq, hs.le.antisymm⟩

/-- The socket has no room for half a second. -/
def briefly : NbCall Unit :=
  ⟨[()], 1, ⟨0, 0⟩, fun n => if n = 0 then .eagain else .took 1, fun _ => ⟨0, 500000⟩⟩

theorem briefly_ends : briefly.Ends := by
  have helapsed : briefly.elapsed = fun _ => 500000 := rfl
  refine (ends_iff briefly (List.cons_ne_nil _ _) (by decide) (by decide) ?_ ?_).mpr ⟨?_, ?_⟩
  · simp [helapsed]
  · rw [helapsed]
    exact monotone_const
  · intro n _ _
    simp only [helapsed]
    decide
  · rintro ⟨n, hn⟩
    simp only [helapsed] at hn
    exact absurd hn (by decide)

/-- The socket has no room, and two seconds are over with a timeout of one. -/
def stuck : NbCall Unit := ⟨[()], 1, ⟨0, 0⟩, fun _ => .eagain, fun _ => ⟨2, 0⟩⟩

theorem stuck_never_returns : (∀ n, stuck.Runs n) ∧ ¬ stuck.Ends := by
  have hruns : ∀ n, stuck.nbWriteTimeout n = ⟨0, [], none⟩ := by
    intro n
    induction n with
    | zero => rfl
    | succ n ih => rw [nbWriteTimeout, ih]; rfl
  have hall : ∀ n, stuck.Runs n := fun n => by rw [Runs, hruns]
  refine ⟨hall, fun h => ?_⟩
  obtain ⟨n, hn⟩ := h.returns ⟨0, by decide⟩
  exact hn (hall n)

end NbCall

end Volclava
