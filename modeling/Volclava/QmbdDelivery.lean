import Volclava.QmbdSender

/-!
# Delivery of submit events to the query daemon

What the sender and the main thread guarantee together, in every interleaving: messages are written
at most once, in order and to the channel they were queued for; a blocked sender has nothing to
send; a request to stop is answered. What is not guaranteed is that a channel carries whole
messages: `chanWrite_` can fail after a part of a message, and the sender goes on with the next one.

- `Sys.distance`: how many steps the sender is away from reporting that it has stopped.
- `delivery_of_untorn`: all of this in every run in which nothing is written behind a torn message.
- `message_torn`: a message that is written behind a part of another one.
-/

namespace Volclava

open List

variable {β : Type}

namespace QmbdSync

namespace Sys

/-! ## Stopping -/

/-- The sender is blocked on the semaphore. -/
def blocked (s : Sys β) : Bool := (s.sender matches .wait) && s.qmbdSubmitWakeSem == 0

variable {s : Sys β}

theorem blocked_iff :
    s.blocked = true ↔ s.sender = .wait ∧ s.qmbdSubmitWakeSem = 0 := by
  rw [blocked, Bool.and_eq_true, beq_iff_eq]
  refine and_congr_left fun _ => ?_
  cases s.sender with
  | wait => simp
  | _ => simp

/-- The sender is on its way to the clean-up. -/
def Cleaning : SenderPc β → Prop
  | .readState | .deqTail true | .deqSlot true | .deqHead true _ | .drain | .setStopped => True
  | _ => False

/-- A request that has been posted wakes the sender or has woken it. -/
def StopInv (s : Sys β) : Prop :=
  s.qmbdSubmitSenderState = .stopRequested → s.main = .idle →
    0 < s.qmbdSubmitWakeSem ∨ Cleaning s.sender

/-- The post the main thread owes for a request. -/
def stopOwes : MainPc β → Nat
  | .stopPost => 1
  | _ => 0

/-- The steps from a place of the sender on, apart from those for messages and wake-ups. -/
def weight : SenderPc β → Nat
  | .setStopped => 1
  | .drain => 2
  | .deqTail true => 3
  | .deqSlot true => 2
  | .deqHead true _ => 1
  | .readState => 4
  | .wait => 4
  | .write _ _ => 5
  | .readChfd _ => 6
  | .recheck _ => 5
  | .deqHead false _ => 3
  | .deqSlot false => 4
  | .deqTail false => 5

/-- A bound for the number of steps of the sender until it has stopped. -/
def distance (s : Sys β) : Nat :=
  3 * s.inRing + s.qmbdSubmitWakeSem + stopOwes s.main + weight s.sender

/-- The steps the sender takes in a run, those apart at which it is blocked. -/
def senderSteps : Sys β → List (Event β) → Nat
  | _, [] => 0
  | s, .sender taken :: es =>
    (if s.blocked then 0 else 1) + senderSteps (s.step (.sender taken)) es
  | s, e :: es => senderSteps (s.step e) es

/-- What the main thread can be doing while a stop is requested. -/
theorem main_of_stopRequested (h : s.Inv) (hst : s.qmbdSubmitSenderState = .stopRequested) :
    s.main = .idle ∨ s.main = .stopPost := by
  have hmain := h.phase.main
  rw [hst] at hmain
  cases hm : s.main with
  | idle => exact .inl rfl
  | stopPost => exact .inr rfl
  | _ => rw [hm] at hmain; exact absurd hmain id

/-- While a stop is requested, calls of the main thread do nothing. -/
theorem call_of_stopRequested (h : s.Inv) (hst : s.qmbdSubmitSenderState = .stopRequested)
    {e : Event β} (he : ∀ taken, e ≠ .sender taken) :
    s.step e = s ∨ (s.main = .stopPost ∧
      s.step e = { s with qmbdSubmitWakeSem := s.qmbdSubmitWakeSem + 1, main := .idle }) := by
  have hne : s.qmbdSubmitSenderState ≠ .active := by
    rw [hst]
    decide
  have hchfd := h.phase.chfd (.inl (by rw [hst]; decide))
  have hreq : s.requestQmbdEventSenderStop = s := if_neg hne
  have hdrop : ∀ msg, s.enqueueEncodedQmbdSubmit msg = s := fun msg => if_pos (.inl hne)
  have hask : s.processQmbd = s := by
    rw [Sys.processQmbd, if_pos ⟨hchfd, by rw [hst]; decide⟩, hreq]
  cases e with
  | submit msg =>
    refine .inl ?_
    simp only [Sys.step, hdrop, ite_self]
  | requestStop =>
    refine .inl ?_
    simp only [Sys.step, hreq, ite_self]
  | processQmbd =>
    refine .inl ?_
    simp only [Sys.step, hask, ite_self]
  | main ok =>
    rcases main_of_stopRequested h hst with hm | hm
    · refine .inl ?_
      simp only [Sys.step, mainStep, hm]
    · refine .inr ⟨hm, ?_⟩
      simp only [Sys.step, mainStep, hm]
  | sender taken => exact absurd rfl (he taken)

/-- **A step of the sender brings it nearer to the stop.** -/
theorem sender_progress (h : s.Inv) (hst : s.qmbdSubmitSenderState = .stopRequested)
    (hb : s.blocked = false) (taken : Nat) :
    (s.senderStep taken).qmbdSubmitSenderState = .stopped ∨
      ((s.senderStep taken).qmbdSubmitSenderState = .stopRequested ∧
        (s.senderStep taken).distance < s.distance) := by
  cases hp : s.sender with
  | wait =>
    have hsem : s.qmbdSubmitWakeSem ≠ 0 := fun h0 => by
      rw [blocked_iff.mpr ⟨hp, h0⟩] at hb
      cases hb
    refine .inr ?_
    simp only [senderStep, hp, if_neg hsem, distance, weight, inRing]
    exact ⟨hst, by omega⟩
  | readState =>
    refine .inr ?_
    simp only [senderStep, hp, hst, distance, weight, inRing]
    exact ⟨trivial, by omega⟩
  | deqTail clean =>
    refine .inr ?_
    simp only [senderStep, hp]
    split_ifs with hempty hclean
    · simp only [distance, inRing, hp, hclean, weight]
      exact ⟨hst, by omega⟩
    · have hfalse : clean = false := by simpa using hclean
      simp only [distance, inRing, hp, hfalse, weight]
      exact ⟨hst, by omega⟩
    · refine ⟨hst, ?_⟩
      cases clean with
      | true =>
        simp only [distance, inRing, hp, weight]
        omega
      | false =>
        simp only [distance, inRing, hp, weight]
        omega
  | deqSlot clean =>
    refine .inr ?_
    simp only [senderStep, hp]
    refine ⟨hst, ?_⟩
    cases clean with
    | true =>
      simp only [distance, inRing, hp, weight]
      omega
    | false =>
      simp only [distance, inRing, hp, weight]
      omega
  | deqHead clean m =>
    obtain ⟨⟨en, hen, rfl⟩, -⟩ := h.ring.lifted m (by rw [hp]; rfl)
    have hlt : s.dequeued < s.enqueued.length := (List.getElem?_eq_some_iff.mp hen).1
    refine .inr ?_
    simp only [senderStep, hp]
    refine ⟨hst, ?_⟩
    cases clean with
    | true =>
      simp only [distance, inRing, hp, afterDequeue, weight]
      omega
    | false =>
      simp only [distance, inRing, hp, afterDequeue, weight]
      omega
  | drain =>
    refine .inr ?_
    simp only [senderStep, hp]
    split_ifs with hsem
    · simp only [distance, inRing, hp, weight]
      exact ⟨hst, by omega⟩
    · simp only [distance, inRing, weight, hp]
      exact ⟨hst, by omega⟩
  | setStopped =>
    refine .inl ?_
    simp only [senderStep, hp]
  | recheck msg =>
    have hne : s.qmbdSubmitSenderState ≠ .active := by
      rw [hst]
      decide
    refine .inr ?_
    simp only [senderStep, hp, if_neg hne, distance, inRing, weight]
    exact ⟨hst, by omega⟩
  | readChfd msg =>
    refine .inr ?_
    simp only [senderStep, hp]
    split
    · simp only [distance, inRing, hp, weight]
      exact ⟨hst, by omega⟩
    · simp only [distance, inRing, hp, weight]
      exact ⟨hst, by omega⟩
  | write msg chfd =>
    refine .inr ?_
    simp only [senderStep, hp, distance, inRing, weight]
    exact ⟨hst, by omega⟩

theorem distance_pos (s : Sys β) : 0 < s.distance := by
  have : 0 < weight s.sender := by
    unfold weight
    split
    all_goals exact Nat.succ_pos _
  rw [distance]
  omega

/-- **A request to stop is answered** after as many steps of the sender as the distance says. -/
theorem stopped_reached (h : s.Inv) (hst : s.qmbdSubmitSenderState = .stopRequested)
    {es : List (Event β)} (hes : s.distance ≤ senderSteps s es) :
    ∃ k, (Run.run step s (es.take k)).qmbdSubmitSenderState = .stopped := by
  induction es generalizing s with
  | nil =>
    have := s.distance_pos
    simp only [senderSteps] at hes
    omega
  | cons e es ih =>
    -- It is enough to find the stop after the first event.
    have hlater : (∃ k, (Run.run step (s.step e) (es.take k)).qmbdSubmitSenderState = .stopped) →
        ∃ k, (Run.run step s ((e :: es).take k)).qmbdSubmitSenderState = .stopped := by
      intro hk
      obtain ⟨k, hk⟩ := hk
      exact ⟨k + 1, hk⟩
    by_cases he : ∃ taken, e = .sender taken
    · obtain ⟨taken, rfl⟩ := he
      simp only [senderSteps] at hes
      by_cases hb : s.blocked = true
      · have hstay : s.step (.sender taken) = s := by
          obtain ⟨hp, hsem⟩ := blocked_iff.mp hb
          simp only [step, senderStep, hp, if_pos hsem]
        rw [if_pos hb, Nat.zero_add, hstay] at hes
        refine hlater ?_
        rw [hstay]
        exact ih h hst hes
      · rw [if_neg hb] at hes
        rcases sender_progress h hst (by simpa using hb) taken with hstop | ⟨hst', hlt⟩
        · exact ⟨1, hstop⟩
        · refine hlater (ih (h.step _) hst' ?_)
          have hd : (s.step (.sender taken)).distance < s.distance := hlt
          omega
    · have hne : ∀ taken, e ≠ .sender taken := fun taken heq => he ⟨taken, heq⟩
      have hsteps : senderSteps s (e :: es) = senderSteps (s.step e) es := by
        cases e with
        | sender taken => exact absurd rfl (hne taken)
        | _ => rfl
      rw [hsteps] at hes
      refine hlater ?_
      rcases call_of_stopRequested h hst hne with hstep | ⟨hm, hstep⟩
      · rw [hstep] at hes ⊢
        exact ih h hst hes
      · refine ih (h.step e) (by rw [hstep]; exact hst) (le_trans ?_ hes)
        rw [hstep]
        simp only [distance, inRing, hm, stopOwes]
        omega

/-- A sender that cleans up goes on with it until it has stopped. -/
theorem cleaning_senderStep (h : s.Inv) (hst : s.qmbdSubmitSenderState = .stopRequested)
    (hc : Cleaning s.sender) (taken : Nat) :
    (s.senderStep taken).qmbdSubmitSenderState = .stopped ∨
      Cleaning (s.senderStep taken).sender := by
  cases hp : s.sender with
  | readState =>
    simp only [senderStep, hp, hst]
    exact .inr trivial
  | deqTail clean =>
    rw [hp] at hc
    cases clean with
    | false => exact absurd hc id
    | true =>
      refine .inr ?_
      simp only [senderStep, hp]
      split_ifs
      · trivial
      · trivial
  | deqSlot clean =>
    rw [hp] at hc
    cases clean with
    | false => exact absurd hc id
    | true =>
      simp only [senderStep, hp]
      exact .inr trivial
  | deqHead clean m =>
    obtain ⟨⟨en, -, rfl⟩, -⟩ := h.ring.lifted m (by rw [hp]; rfl)
    rw [hp] at hc
    cases clean with
    | false => exact absurd hc id
    | true =>
      simp only [senderStep, hp]
      exact .inr trivial
  | drain =>
    refine .inr ?_
    simp only [senderStep, hp]
    split_ifs
    · trivial
    · trivial
  | setStopped =>
    simp only [senderStep, hp]
    exact .inl trivial
  | _ => rw [hp] at hc; exact absurd hc id

/-- Outside the clean-up a wake-up is taken only on the way to it. -/
theorem sem_senderStep (hc : ¬ Cleaning s.sender) (taken : Nat) :
    (s.senderStep taken).qmbdSubmitWakeSem = s.qmbdSubmitWakeSem ∨
      Cleaning (s.senderStep taken).sender := by
  cases hp : s.sender with
  | wait =>
    simp only [senderStep, hp]
    split_ifs
    · exact .inl rfl
    · exact .inr trivial
  | deqTail clean =>
    simp only [senderStep, hp]
    split_ifs
    · exact .inl rfl
    · exact .inl rfl
    · exact .inl rfl
  | deqSlot clean =>
    simp only [senderStep, hp]
    exact .inl trivial
  | deqHead clean m =>
    simp only [senderStep, hp]
    exact .inl trivial
  | recheck msg =>
    simp only [senderStep, hp]
    split_ifs
    · exact .inl rfl
    · exact .inl rfl
  | readChfd msg =>
    simp only [senderStep, hp]
    split
    · exact .inl rfl
    · exact .inl rfl
  | write msg chfd =>
    simp only [senderStep, hp]
    exact .inl trivial
  | _ => rw [hp] at hc; exact absurd trivial hc

/-- What a step of the sender leaves alone: the main thread, the state but for the report of a stop,
and the writes but for the message it holds. -/
theorem senderStep_frame (s : Sys β) (taken : Nat) :
    (s.senderStep taken).main = s.main ∧
      ((s.senderStep taken).qmbdSubmitSenderState = s.qmbdSubmitSenderState ∨
        s.sender = .setStopped ∧ (s.senderStep taken).qmbdSubmitSenderState = .stopped) ∧
      ((s.senderStep taken).writes = s.writes ∨ ∃ msg g, s.sender = .write msg g ∧
        (s.senderStep taken).writes = s.writes ++ [⟨g, msg, min taken msg.length⟩]) := by
  cases hp : s.sender with
  | setStopped =>
    simp only [senderStep, hp]
    exact ⟨trivial, .inr ⟨trivial, trivial⟩, .inl trivial⟩
  | write msg g =>
    simp only [senderStep, hp]
    exact ⟨trivial, .inl trivial, .inr ⟨msg, g, rfl, rfl⟩⟩
  | deqSlot _ | deqHead _ _ =>
    simp only [senderStep, hp]
    exact ⟨trivial, .inl trivial, .inl trivial⟩
  | readState | readChfd _ =>
    simp only [senderStep, hp]
    split <;> exact ⟨rfl, .inl rfl, .inl rfl⟩
  | wait | deqTail _ | drain | recheck _ =>
    simp only [senderStep, hp]
    split_ifs <;> exact ⟨rfl, .inl rfl, .inl rfl⟩

/-- The sender changes the state only from a request to the stop. -/
theorem state_senderStep (h : s.Inv) (taken : Nat) :
    (s.senderStep taken).qmbdSubmitSenderState = s.qmbdSubmitSenderState ∨
      (s.qmbdSubmitSenderState = .stopRequested ∧
        (s.senderStep taken).qmbdSubmitSenderState = .stopped) := by
  refine (senderStep_frame s taken).2.1.imp_right fun ⟨hp, hstopped⟩ => ⟨?_, hstopped⟩
  have hf := h.phase.sender
  rw [hp] at hf
  cases hst : s.qmbdSubmitSenderState with
  | stopRequested => rfl
  | stopped => rw [hst] at hf; exact absurd hf id
  | active => rw [hst] at hf; exact absurd hf id

/-- A stop is requested by the main thread, which then has to post. -/
theorem requested_mainStep (hne : s.qmbdSubmitSenderState ≠ .stopRequested) (ok : Bool)
    (hst : (s.mainStep ok).qmbdSubmitSenderState = .stopRequested) :
    (s.mainStep ok).main = .stopPost := by
  cases hm : s.main with
  | stopWrite => simp only [mainStep, hm]
  | enqHead msg =>
    simp only [mainStep, hm] at hst
    split_ifs at hst
    · exact absurd hst hne
    · exact absurd hst hne
  | openNew =>
    simp only [mainStep, hm] at hst
    split_ifs at hst
    · exact absurd hst hne
    · exact absurd hst hne
  | activate =>
    simp only [mainStep, hm] at hst
    split_ifs at hst
    exact absurd hst hne
  | _ =>
    simp only [mainStep, hm] at hst
    exact absurd hst hne

/-- A call changes only where the main thread is. -/
theorem step_cases (s : Sys β) (e : Event β) : (∃ taken, e = .sender taken) ∨
    (∃ ok, e = .main ok) ∨ ∃ pc, s.step e = { s with main := pc } := by
  have hreq : ∃ pc, s.requestQmbdEventSenderStop = { s with main := pc } := by
    rw [requestQmbdEventSenderStop]
    split_ifs
    · exact ⟨_, rfl⟩
    · exact ⟨s.main, rfl⟩
  cases e with
  | sender taken => exact .inl ⟨taken, rfl⟩
  | main ok => exact .inr (.inl ⟨ok, rfl⟩)
  | submit msg =>
    simp only [Sys.step, enqueueEncodedQmbdSubmit]
    split_ifs
    · exact .inr (.inr ⟨s.main, rfl⟩)
    · exact .inr (.inr ⟨_, rfl⟩)
    · exact .inr (.inr ⟨s.main, rfl⟩)
  | requestStop =>
    simp only [Sys.step]
    split_ifs
    · exact .inr (.inr hreq)
    · exact .inr (.inr ⟨s.main, rfl⟩)
  | processQmbd =>
    simp only [Sys.step, Sys.processQmbd]
    split_ifs
    · exact .inr (.inr hreq)
    · exact .inr (.inr ⟨_, rfl⟩)
    · exact .inr (.inr ⟨s.main, rfl⟩)

theorem StopInv.step (h : s.Inv) (hs : s.StopInv) (e : Event β) :
    (s.step e).StopInv := by
  intro hst' hidle'
  by_cases he : ∃ taken, e = .sender taken
  · obtain ⟨taken, rfl⟩ := he
    have hst : s.qmbdSubmitSenderState = .stopRequested := by
      rcases state_senderStep h taken with heq | ⟨hst, -⟩
      · exact heq.symm.trans hst'
      · exact hst
    have hidle : s.main = .idle := (senderStep_frame s taken).1.symm.trans hidle'
    by_cases hc : Cleaning s.sender
    · rcases cleaning_senderStep h hst hc taken with hstop | hc'
      · exact absurd (hstop.symm.trans hst') (by decide)
      · exact .inr hc'
    · rcases sem_senderStep hc taken with hsem | hc'
      · refine .inl ?_
        show 0 < (s.senderStep taken).qmbdSubmitWakeSem
        rw [hsem]
        exact (hs hst hidle).resolve_right hc
      · exact .inr hc'
  · have hne : ∀ taken, e ≠ .sender taken := fun taken heq => he ⟨taken, heq⟩
    by_cases hst : s.qmbdSubmitSenderState = .stopRequested
    · rcases call_of_stopRequested h hst hne with hstep | ⟨-, hstep⟩
      · rw [hstep] at hidle' ⊢
        exact hs hst hidle'
      · rw [hstep]
        exact .inl (Nat.succ_pos _)
    · exfalso
      rcases step_cases s e with hsender | ⟨ok, rfl⟩ | ⟨pc, heq⟩
      · exact he hsender
      · have hpost := requested_mainStep hst ok hst'
        rw [show (s.mainStep ok).main = .idle from hidle'] at hpost
        cases hpost
      · rw [heq] at hst'
        exact hst hst'

/-! ## Whole messages -/

/-- A part of the message was written, and only a part. -/
def Torn (w : Write β) : Prop := 0 < w.taken ∧ w.taken < w.msg.length

instance (w : Write β) : Decidable (Torn w) := inferInstanceAs (Decidable (_ ∧ _))

/-- The writes to the channel of a generation. -/
def writesTo (s : Sys β) (g : Nat) : List (Write β) := s.writes.filter fun w => w.gen = g

/-- The bytes written to the channel of a generation. -/
def stream (s : Sys β) (g : Nat) : List β :=
  ((s.writesTo g).map fun w => w.msg.take w.taken).flatten

/-- The bytes are those of whole messages, apart from what the last write added. -/
def Framed (s : Sys β) (g : Nat) : Prop :=
  ∃ (ms : List (List β)) (rest : List β), s.stream g = ms.flatten ++ rest ∧
    List.Sublist ms ((s.writesTo g).map Write.msg) ∧
    (rest = [] ∨ ∃ w ∈ (s.writesTo g).getLast?, rest = w.msg.take w.taken)

/-- No write but the last one to a channel was torn, and none is longer than its message. -/
structure WriteInv (s : Sys β) : Prop where
  untorn : ∀ g, ∀ w ∈ (s.writesTo g).dropLast, ¬ Torn w
  taken : ∀ w ∈ s.writes, w.taken ≤ w.msg.length

/-- Writes that are not torn give whole messages. -/
theorem flatten_untorn {ws : List (Write β)} (htorn : ∀ w ∈ ws, ¬ Torn w)
    (htaken : ∀ w ∈ ws, w.taken ≤ w.msg.length) :
    ∃ ms, (ws.map fun w => w.msg.take w.taken).flatten = ms.flatten ∧
      List.Sublist ms (ws.map Write.msg) := by
  induction ws with
  | nil => exact ⟨[], rfl, List.Sublist.refl _⟩
  | cons w ws ih =>
    obtain ⟨hw, hws⟩ := forall_mem_cons.mp htorn
    obtain ⟨ht, hts⟩ := forall_mem_cons.mp htaken
    obtain ⟨ms, heq, hsub⟩ := ih hws hts
    by_cases h0 : w.taken = 0
    · refine ⟨ms, ?_, hsub.cons _⟩
      rw [map_cons, flatten_cons, h0, take_zero, nil_append, heq]
    · have hfull : w.msg.length ≤ w.taken := by
        by_contra hlt
        exact hw ⟨Nat.pos_of_ne_zero h0, not_le.mp hlt⟩
      refine ⟨w.msg :: ms, ?_, hsub.cons_cons _⟩
      rw [map_cons, flatten_cons, take_of_length_le hfull, heq, flatten_cons]

theorem WriteInv.framed (h : s.WriteInv) (g : Nat) : s.Framed g := by
  have htaken : ∀ w ∈ s.writesTo g, w.taken ≤ w.msg.length :=
    fun w hw => h.taken w (mem_of_mem_filter hw)
  rcases eq_nil_or_concat (s.writesTo g) with hnil | ⟨ws, w, hcons⟩
  · refine ⟨[], [], ?_, nil_sublist _, .inl rfl⟩
    rw [stream, hnil]
    rfl
  · rw [concat_eq_append] at hcons
    have hdrop : (s.writesTo g).dropLast = ws := by rw [hcons, dropLast_concat]
    have huntorn : ∀ w' ∈ ws, ¬ Torn w' := by
      intro w' hw'
      exact h.untorn g w' (by rw [hdrop]; exact hw')
    have htaken' : ∀ w' ∈ ws, w'.taken ≤ w'.msg.length := by
      intro w' hw'
      exact htaken w' (by rw [hcons]; exact mem_append_left _ hw')
    obtain ⟨ms, heq, hsub⟩ := flatten_untorn huntorn htaken'
    refine ⟨ms, w.msg.take w.taken, ?_, ?_, .inr ⟨w, ?_, rfl⟩⟩
    · rw [stream, hcons, map_append, flatten_append, heq]
      simp
    · rw [hcons, map_append]
      exact hsub.trans (sublist_append_left _ _)
    · rw [hcons]
      simp

/-- The main thread writes nothing. -/
theorem writes_mainStep (s : Sys β) (ok : Bool) : (s.mainStep ok).writes = s.writes := by
  rw [mainStep.eq_def]
  split
  · rfl
  · split_ifs
    · rfl
    · rfl
  · rfl
  · rfl
  · rfl
  · rfl
  · rfl
  · rfl
  · split_ifs
    · rfl
    · rfl
  · split_ifs
    · rfl
    · rfl
  · rfl

/-! ## Runs -/

/-- Nothing is written to a channel to which a part of a message was written. -/
def Untorn (s : Sys β) : Event β → Prop
  | .sender _ =>
    match s.sender with
    | .write _ g => ∀ w ∈ s.writes, w.gen = g → ¬ Torn w
    | _ => True
  | _ => True

instance (s : Sys β) (e : Event β) : Decidable (s.Untorn e) := by
  cases e <;> unfold Untorn
  case sender => cases s.sender <;> dsimp only <;> infer_instance
  all_goals infer_instance

theorem WriteInv.step (h : s.WriteInv) {e : Event β} (hok : s.Untorn e) :
    (s.step e).WriteInv := by
  have hsame : (s.step e).writes = s.writes → (s.step e).WriteInv := by
    intro heq
    refine ⟨fun g w hw => h.untorn g w ?_, fun w hw => h.taken w (heq ▸ hw)⟩
    rw [writesTo, heq] at hw
    exact hw
  rcases step_cases s e with ⟨taken, rfl⟩ | ⟨ok, rfl⟩ | ⟨pc, heq⟩
  · rcases (senderStep_frame s taken).2.2 with heq | ⟨msg, g, hp, heq⟩
    · exact hsame heq
    · have hok' : ∀ w ∈ s.writes, w.gen = g → ¬ Torn w := by
        simp only [Untorn, hp] at hok
        exact hok
      have hstep : (s.step (.sender taken)).writes = s.writes ++ [⟨g, msg, min taken msg.length⟩] :=
        heq
      refine ⟨fun g' w hw => ?_, fun w hw => ?_⟩
      · rw [writesTo, hstep, filter_append] at hw
        by_cases hg : g = g'
        · -- All earlier writes to this channel are whole.
          have hlast : List.filter (fun w : Write β => w.gen = g')
              [⟨g, msg, min taken msg.length⟩] = [⟨g, msg, min taken msg.length⟩] := by
            simp [hg]
          rw [hlast, dropLast_concat] at hw
          refine hok' w (mem_of_mem_filter hw) ?_
          have := of_mem_filter hw
          simp only [decide_eq_true_eq] at this
          rw [this, hg]
        · have hlast : List.filter (fun w : Write β => w.gen = g')
              [⟨g, msg, min taken msg.length⟩] = [] := by
            simp [hg]
          rw [hlast, append_nil] at hw
          exact h.untorn g' w hw
      · rw [hstep, mem_append, mem_singleton] at hw
        rcases hw with hw | rfl
        · exact h.taken w hw
        · exact Nat.min_le_right _ _
  · exact hsame (writes_mainStep s ok)
  · exact hsame (by rw [heq])

/-- What the two threads guarantee in a state. -/
structure Delivery (s : Sys β) : Prop where
  /-- Messages are written at most once, in the order of queueing, on the channel of their
  generation. -/
  order : List.Sublist (s.writes.map Write.entry) s.enqueued
  /-- A blocked sender that is active has an empty ring, or its post is the next step. -/
  awake : s.blocked = true → s.qmbdSubmitSenderState = .active →
    s.qmbdSubmitQueueHead = s.qmbdSubmitQueueTail ∨ s.main = .enqPost
  /-- A request to stop wakes the sender and is answered after finitely many of its steps. -/
  stops : s.qmbdSubmitSenderState = .stopRequested → (s.blocked = true → s.main = .stopPost) ∧
    ∃ d, ∀ es, d ≤ senderSteps s es →
      ∃ k, (Run.run step s (es.take k)).qmbdSubmitSenderState = .stopped
  /-- The sender does not take back an activation. -/
  kept : s.qmbdSubmitSenderState = .active →
    ∀ taken, (s.step (.sender taken)).qmbdSubmitSenderState = .active
  /-- Each channel carries whole messages, apart from its last write. -/
  framed : ∀ g, s.Framed g

theorem delivery_of_inv (h : s.Inv) (hs : s.StopInv) (hw : s.WriteInv) :
    s.Delivery where
  order := h.flow.order.trans (take_sublist _ _)
  awake hb hact := by
    obtain ⟨hp, hsem⟩ := blocked_iff.mp hb
    have hwakes := h.flow.wakes hact
    have hle := h.ring.le
    rw [hp, hsem] at hwakes
    by_cases hm : s.main = .enqPost
    · exact .inr hm
    · have howes : mainOwes s.main = 0 := by
        cases hm' : s.main with
        | enqPost => exact absurd hm' hm
        | _ => rfl
      rw [howes] at hwakes
      simp only [senderOwes, inRing] at hwakes
      rw [h.ring.head, h.ring.tail, Ring.eq_iff h.ring.le h.ring.lt]
      exact .inl (by omega)
  stops hst := by
    refine ⟨fun hb => ?_, s.distance, fun es hes => stopped_reached h hst hes⟩
    obtain ⟨hp, hsem⟩ := blocked_iff.mp hb
    refine (main_of_stopRequested h hst).resolve_left fun hidle => ?_
    rcases hs hst hidle with hpos | hc
    · exact absurd hsem hpos.ne'
    · rw [hp] at hc
      exact hc
  kept hact taken := by
    rcases state_senderStep h taken with heq | ⟨hst, -⟩
    · exact heq.trans hact
    · exact absurd (hact.symm.trans hst) (by decide)
  framed := hw.framed

/-- **Delivery in every interleaving** in which nothing is written behind a torn message. -/
theorem delivery_of_untorn {es : List (Event β)} (h : Run.Along step Untorn init es) (n : Nat) :
    (Run.run step init (es.take n)).Delivery := by
  have hinit : (init : Sys β).Inv ∧ (init : Sys β).StopInv ∧ (init : Sys β).WriteInv := by
    refine ⟨inv_init, ?_, ?_⟩
    · intro hst
      cases hst
    · exact ⟨fun g w hw => by simp [writesTo, init] at hw, fun w hw => by simp [init] at hw⟩
  have hstep : ∀ (s : Sys β) e, s.Untorn e → s.Inv ∧ s.StopInv ∧ s.WriteInv →
      (s.step e).Inv ∧ (s.step e).StopInv ∧ (s.step e).WriteInv :=
    fun s e hok hs => ⟨hs.1.step e, StopInv.step hs.1 hs.2.1 e, hs.2.2.step hok⟩
  obtain ⟨hi, hs, hw⟩ := Run.inv_take hstep hinit h n
  exact delivery_of_inv hi hs hw

/-- The first query daemon is started and gets one message of three bytes. -/
def firstMessage : List (Event Nat) :=
  [.processQmbd, .main true, .main true, .main true, .main true,
    .submit [1, 2, 3], .main true, .main true, .main true, .main true,
    .sender 0, .sender 0, .sender 0, .sender 0, .sender 0, .sender 0, .sender 0]

/-- A second message is sent behind the first one. -/
def secondMessage : List (Event Nat) :=
  [.submit [4, 5], .main true, .main true, .main true, .main true,
    .sender 0, .sender 0, .sender 0, .sender 0, .sender 0, .sender 0, .sender 0, .sender 2]

/-- Both messages are written as a whole, and the sender is asked to stop. -/
def wholeMessages : List (Event Nat) :=
  firstMessage ++ .sender 3 :: secondMessage ++ [.requestStop, .main true, .main true]

theorem whole_messages_delivered :
    Run.Along step Untorn init wholeMessages ∧
      ∀ n, (Run.run step init (wholeMessages.take n)).Delivery :=
  have h : Run.Along step Untorn init wholeMessages := by decide
  ⟨h, delivery_of_untorn h⟩

/-- `chanWrite_` fails after two of the three bytes, and the next message follows. -/
def tornMessages : List (Event Nat) := firstMessage ++ .sender 2 :: secondMessage

/-- The next message is written on the same channel behind a part of the first one. -/
theorem message_torn :
    (Run.run step init tornMessages).stream 0 = [1, 2, 4, 5] ∧
      ¬ (Run.run step init tornMessages).Framed 0 := by
  have hwrites : (Run.run step init tornMessages).writesTo 0 =
      [⟨0, [1, 2, 3], 2⟩, ⟨0, [4, 5], 2⟩] := by decide
  have hstream : (Run.run step init tornMessages).stream 0 = [1, 2, 4, 5] := by
    rw [stream, hwrites]
    rfl
  refine ⟨hstream, fun h => ?_⟩
  obtain ⟨ms, rest, heq, hsub, hrest⟩ := h
  rw [hstream] at heq
  rw [hwrites] at hsub hrest
  have hms : ms ∈ ([[1, 2, 3], [4, 5]] : List (List Nat)).sublists := mem_sublists.mpr hsub
  have hnone : ∀ ms ∈ ([[1, 2, 3], [4, 5]] : List (List Nat)).sublists,
      [1, 2, 4, 5] ≠ ms.flatten ++ [] ∧ [1, 2, 4, 5] ≠ ms.flatten ++ [4, 5] := by decide
  rcases hrest with rfl | ⟨w, hw, rfl⟩
  · exact (hnone ms hms).1 heq
  · obtain rfl := Option.some.inj hw
    exact (hnone ms hms).2 heq

end Sys

end QmbdSync

end Volclava
