import Volclava.Lib.Ring
import Volclava.Lib.Run

/-!
# Sending submit events to the query daemon

The main thread of mbd puts encoded submit events into a ring, and `qmbdSenderThread`
(`mbd.syncsock.c`) writes them to the channel of the current query daemon. A semaphore counts the
wake-ups. To replace the query daemon, `processQmbd` asks the sender to stop, waits until it has
reported so, opens a channel for the next generation and activates the sender again.

Each step of the model is one access to what the threads share.

- `Sys.step`: a step of the main thread or of the sender.
- `Sys.Inv`: what holds between the ring, the semaphore, the state and the two threads.
- `ring_holds_waiting`: what follows for every interleaving.
-/

namespace Volclava

open List

variable {β : Type}

namespace QmbdSync

/-! ## The two threads -/

inductive SenderState where
  | stopped | active | stopRequested
  deriving DecidableEq

def queueSize : Nat := 1024

/-- Where the main thread is: in `qmbdEnqueueSubmitMsg`, in `requestQmbdEventSenderStop`, or in
`processQmbd`. -/
inductive MainPc (β : Type) where
  | idle
  | enqHead (msg : List β)
  | enqSlot (msg : List β)
  | enqTail (msg : List β)
  | enqPost
  | stopWrite
  | stopPost
  | closeOld
  | openNew
  | activate
  | actPost
  deriving DecidableEq

/-- Where the sender is. The steps of `qmbdDequeueSubmitMsg` are marked with whether they are made
for the clean-up. -/
inductive SenderPc (β : Type) where
  | wait
  | readState
  | deqTail (clean : Bool)
  | deqSlot (clean : Bool)
  | deqHead (clean : Bool) (msg : Option (List β))
  | drain
  | setStopped
  | recheck (msg : List β)
  | readChfd (msg : List β)
  | write (msg : List β) (chfd : Nat)
  deriving DecidableEq

/-- A message with the generation of the channel in whose time it was queued. -/
structure Entry (β : Type) where
  gen : Nat
  msg : List β
  deriving DecidableEq

/-- A call of `chanWrite_` on the channel of a generation, and the number of bytes written. -/
structure Write (β : Type) where
  gen : Nat
  msg : List β
  taken : Nat
  deriving DecidableEq

def Write.entry (w : Write β) : Entry β := ⟨w.gen, w.msg⟩

/-- The shared variables and the two threads. A channel is known by its generation. -/
structure Sys (β : Type) where
  qmbdSubmitSenderState : SenderState
  qmbdSubmitChfd : Option Nat
  qmbdSubmitQueueHead : Nat
  qmbdSubmitQueueTail : Nat
  qmbdSubmitQueue : Nat → Option (List β)
  qmbdSubmitWakeSem : Nat
  main : MainPc β
  sender : SenderPc β
  /-- History: the number of channels opened. -/
  opened : Nat
  /-- History: the messages queued. -/
  enqueued : List (Entry β)
  /-- History: how many of them have left the ring. -/
  dequeued : Nat
  /-- History: the calls of `chanWrite_`. -/
  writes : List (Write β)

namespace Sys

def init : Sys β := ⟨.stopped, none, 0, 0, fun _ => none, 0, .idle, .wait, 0, [], 0, []⟩

/-- `enqueueEncodedQmbdSubmit`: without an active query daemon the message is dropped. -/
def enqueueEncodedQmbdSubmit (s : Sys β) (msg : List β) : Sys β :=
  if s.qmbdSubmitSenderState ≠ .active ∨ s.qmbdSubmitChfd = none then s
  else { s with main := .enqHead msg }

def requestQmbdEventSenderStop (s : Sys β) : Sys β :=
  if s.qmbdSubmitSenderState = .active then { s with main := .stopWrite } else s

/-- `processQmbd` asks for a stop until the sender has stopped. -/
def processQmbd (s : Sys β) : Sys β :=
  if s.qmbdSubmitChfd ≠ none ∧ s.qmbdSubmitSenderState ≠ .stopped then
    s.requestQmbdEventSenderStop
  else { s with main := .closeOld }

/-- The next step of the main thread inside a call; `ok` says whether a channel could be opened. -/
def mainStep (s : Sys β) (ok : Bool) : Sys β :=
  match s.main with
  | .idle => s
  | .enqHead msg =>
    if (s.qmbdSubmitQueueTail + 1) % queueSize = s.qmbdSubmitQueueHead then
      { s with main := .idle }
    else { s with main := .enqSlot msg }
  | .enqSlot msg =>
    { s with
      qmbdSubmitQueue := Function.update s.qmbdSubmitQueue s.qmbdSubmitQueueTail (some msg)
      main := .enqTail msg }
  | .enqTail msg =>
    { s with
      qmbdSubmitQueueTail := (s.qmbdSubmitQueueTail + 1) % queueSize
      enqueued := s.enqueued ++ [⟨s.qmbdSubmitChfd.getD 0, msg⟩]
      main := .enqPost }
  | .enqPost => { s with qmbdSubmitWakeSem := s.qmbdSubmitWakeSem + 1, main := .idle }
  | .stopWrite => { s with qmbdSubmitSenderState := .stopRequested, main := .stopPost }
  | .stopPost => { s with qmbdSubmitWakeSem := s.qmbdSubmitWakeSem + 1, main := .idle }
  | .closeOld => { s with qmbdSubmitChfd := none, main := .openNew }
  | .openNew =>
    if ok then
      { s with qmbdSubmitChfd := some s.opened, opened := s.opened + 1, main := .activate }
    else { s with main := .idle }
  | .activate =>
    -- The control channel is opened between the two, and its failure closes this one again.
    if ok then { s with qmbdSubmitSenderState := .active, main := .actPost }
    else { s with qmbdSubmitChfd := none, main := .idle }
  | .actPost => { s with qmbdSubmitWakeSem := s.qmbdSubmitWakeSem + 1, main := .idle }

/-- Where the sender goes with what it took out of the ring. -/
def afterDequeue : Bool → Option (List β) → SenderPc β
  | true, some _ => .deqTail true
  | true, none => .drain
  | false, some msg => .recheck msg
  | false, none => .wait

/-- The next step of the sender; `taken` bounds the number of bytes `chanWrite_` writes. A blocked
sender stays where it is. -/
def senderStep (s : Sys β) (taken : Nat) : Sys β :=
  match s.sender with
  | .wait =>
    if s.qmbdSubmitWakeSem = 0 then s
    else { s with qmbdSubmitWakeSem := s.qmbdSubmitWakeSem - 1, sender := .readState }
  | .readState =>
    match s.qmbdSubmitSenderState with
    | .stopRequested => { s with sender := .deqTail true }
    | .active => { s with sender := .deqTail false }
    | .stopped => { s with sender := .wait }
  | .deqTail clean =>
    if s.qmbdSubmitQueueHead = s.qmbdSubmitQueueTail then
      { s with sender := if clean then .drain else .wait }
    else { s with sender := .deqSlot clean }
  | .deqSlot clean =>
    { s with
      qmbdSubmitQueue := Function.update s.qmbdSubmitQueue s.qmbdSubmitQueueHead none
      sender := .deqHead clean (s.qmbdSubmitQueue s.qmbdSubmitQueueHead) }
  | .deqHead clean msg =>
    { s with
      qmbdSubmitQueueHead := (s.qmbdSubmitQueueHead + 1) % queueSize
      dequeued := s.dequeued + 1
      sender := afterDequeue clean msg }
  | .drain =>
    if s.qmbdSubmitWakeSem = 0 then { s with sender := .setStopped }
    else { s with qmbdSubmitWakeSem := s.qmbdSubmitWakeSem - 1 }
  | .setStopped => { s with qmbdSubmitSenderState := .stopped, sender := .wait }
  | .recheck msg =>
    if s.qmbdSubmitSenderState = .active then { s with sender := .readChfd msg }
    else { s with sender := .wait }
  | .readChfd msg =>
    match s.qmbdSubmitChfd with
    | none => { s with sender := .wait }
    | some chfd => { s with sender := .write msg chfd }
  | .write msg chfd =>
    { s with writes := s.writes ++ [⟨chfd, msg, min taken msg.length⟩], sender := .wait }

/-- What may happen: a call of the main thread, or the next step of one of the two. -/
inductive Event (β : Type) where
  | submit (msg : List β)
  | requestStop
  | processQmbd
  | main (ok : Bool)
  | sender (taken : Nat)

/-- A call is made only between calls. -/
def step (s : Sys β) : Event β → Sys β
  | .submit msg => if s.main matches .idle then s.enqueueEncodedQmbdSubmit msg else s
  | .requestStop => if s.main matches .idle then s.requestQmbdEventSenderStop else s
  | .processQmbd => if s.main matches .idle then s.processQmbd else s
  | .main ok => s.mainStep ok
  | .sender taken => s.senderStep taken

/-! ## The invariant -/

/-- The main thread's places in each state. -/
def MainFits : SenderState → MainPc β → Prop
  | .stopped, .idle | .stopped, .stopPost | .stopped, .closeOld | .stopped, .openNew
  | .stopped, .activate => True
  | .active, .idle | .active, .enqHead _ | .active, .enqSlot _ | .active, .enqTail _
  | .active, .enqPost | .active, .stopWrite | .active, .actPost => True
  | .stopRequested, .idle | .stopRequested, .stopPost => True
  | _, _ => False

/-- The sender's places in each state: it is done with everything when it has stopped, and it cleans
up only after a request. -/
def SenderFits : SenderState → SenderPc β → Prop
  | .stopped, .wait | .stopped, .readState => True
  | .active, .wait | .active, .readState | .active, .deqTail false | .active, .deqSlot false
  | .active, .deqHead false _ | .active, .recheck _ | .active, .readChfd _
  | .active, .write _ _ => True
  | .stopRequested, _ => True
  | _, _ => False

/-- The number of messages in the ring. -/
def inRing (s : Sys β) : Nat := s.enqueued.length - s.dequeued

/-- The main thread has seen room for one more message. -/
def HasRoom : MainPc β → Prop
  | .enqSlot _ | .enqTail _ => True
  | _ => False

/-- The message the main thread has put behind the ring. -/
def published : MainPc β → Option (List β)
  | .enqTail msg => some msg
  | _ => none

/-- The message the sender has read but left in the ring. -/
def lifted : SenderPc β → Option (Option (List β))
  | .deqHead _ msg => some msg
  | _ => none

/-- The messages in the ring, from position `k` on. -/
def slotsFrom (s : Sys β) (k : Nat) : List (Option (List β)) :=
  (s.enqueued.drop k).map fun en => some en.msg

/-- The ring holds the messages that are queued and have not left it. -/
structure RingInv (s : Sys β) : Prop where
  head : s.qmbdSubmitQueueHead = s.dequeued % queueSize
  tail : s.qmbdSubmitQueueTail = s.enqueued.length % queueSize
  le : s.dequeued ≤ s.enqueued.length
  lt : s.enqueued.length < s.dequeued + queueSize
  room : HasRoom s.main → s.enqueued.length + 1 < s.dequeued + queueSize
  published : ∀ msg ∈ published s.main, s.qmbdSubmitQueue s.qmbdSubmitQueueTail = some msg
  slots : lifted s.sender = none →
    Ring.Holds queueSize s.qmbdSubmitQueue s.dequeued (s.slotsFrom s.dequeued)
  lifted : ∀ msg ∈ lifted s.sender, (∃ en, s.enqueued[s.dequeued]? = some en ∧ msg = some en.msg) ∧
    Ring.Holds queueSize s.qmbdSubmitQueue (s.dequeued + 1) (s.slotsFrom (s.dequeued + 1))
  nonempty : ∀ clean, s.sender = .deqSlot clean → s.dequeued < s.enqueued.length

/-- Where the threads can be in each state of the sender. -/
structure PhaseInv (s : Sys β) : Prop where
  main : MainFits s.qmbdSubmitSenderState s.main
  sender : SenderFits s.qmbdSubmitSenderState s.sender
  chfd : s.qmbdSubmitSenderState ≠ .stopped ∨ s.main = .activate → s.qmbdSubmitChfd ≠ none
  empty : s.qmbdSubmitSenderState = .stopped ∨ s.sender = .drain ∨ s.sender = .setStopped →
    s.dequeued = s.enqueued.length

/-- The message the sender has taken out of the ring and not yet written. -/
def heldMsg : SenderPc β → Option (List β)
  | .recheck msg | .readChfd msg | .write msg _ => some msg
  | _ => none

/-- The sender has taken a wake-up for which it has not yet looked into the ring. -/
def senderOwes : SenderPc β → Nat
  | .readState | .deqTail false | .deqSlot false | .deqHead false _ => 1
  | _ => 0

/-- The main thread is about to post for a message. -/
def mainOwes : MainPc β → Nat
  | .enqPost => 1
  | _ => 0

/-- Generations, order and wake-ups. -/
structure FlowInv (s : Sys β) : Prop where
  gens : ∀ en ∈ s.enqueued.drop s.dequeued, s.qmbdSubmitChfd = some en.gen
  held : ∀ msg ∈ heldMsg s.sender, ∃ en, s.enqueued.take s.dequeued =
    s.enqueued.take (s.dequeued - 1) ++ [en] ∧ en.msg = msg ∧ s.qmbdSubmitChfd = some en.gen
  target : ∀ msg chfd, s.sender = .write msg chfd → s.qmbdSubmitChfd = some chfd
  order : List.Sublist (s.writes.map Write.entry)
    (s.enqueued.take (s.dequeued - (heldMsg s.sender).toList.length))
  wakes : s.qmbdSubmitSenderState = .active →
    s.inRing ≤ s.qmbdSubmitWakeSem + senderOwes s.sender + mainOwes s.main

/-- What holds between all of it. -/
structure Inv (s : Sys β) : Prop where
  ring : s.RingInv
  phase : s.PhaseInv
  flow : s.FlowInv

theorem inv_init : (init : Sys β).Inv where
  ring := by
    refine ⟨rfl, rfl, le_rfl, by simp [init, queueSize], ?_, ?_, ?_, ?_, ?_⟩
    · intro h
      cases h
    · intro msg h
      cases h
    · exact fun _ => Ring.holds_nil
    · intro msg h
      cases h
    · intro clean h
      cases h
  phase := ⟨trivial, trivial, by simp [init], fun _ => rfl⟩
  flow := by
    refine ⟨by simp [init], ?_, ?_, by simp [init], by simp [init]⟩
    · intro msg h
      cases h
    · intro msg chfd h
      cases h

/-! ## Calls -/

variable {s : Sys β} {st : SenderState} {m : MainPc β}

/-- The main thread moves on without touching the ring. -/
theorem Inv.proceed (h : s.Inv) {sem : Nat}
    (hroom : HasRoom m → s.enqueued.length + 1 < s.dequeued + queueSize)
    (hpublished : published m = none) (hfits : MainFits st m) (hsender : SenderFits st s.sender)
    (hchfd : st ≠ .stopped ∨ m = .activate → s.qmbdSubmitChfd ≠ none)
    (hempty : st = .stopped → s.dequeued = s.enqueued.length)
    (hwakes : st = .active → s.inRing ≤ sem + senderOwes s.sender + mainOwes m) :
    ({ s with qmbdSubmitSenderState := st, qmbdSubmitWakeSem := sem, main := m } : Sys β).Inv := by
  refine ⟨{ h.ring with room := hroom, published := fun msg hmsg => ?_ },
    ⟨hfits, hsender, hchfd, fun he => he.elim hempty fun he => h.phase.empty (.inr he)⟩,
    { h.flow with wakes := hwakes }⟩
  have hmsg' : msg ∈ published m := hmsg
  rw [hpublished] at hmsg'
  cases hmsg'

theorem Inv.wakes_main (h : s.Inv) (hm : s.main = m)
    (hs : s.qmbdSubmitSenderState = .active) :
    s.inRing ≤ s.qmbdSubmitWakeSem + senderOwes s.sender + mainOwes m := by
  rw [← hm]
  exact h.flow.wakes hs

variable {p : SenderPc β}

theorem Inv.wakes_sender (h : s.Inv) (hp : s.sender = p) (hs : s.qmbdSubmitSenderState = .active) :
    s.inRing ≤ s.qmbdSubmitWakeSem + senderOwes p + mainOwes s.main := by
  rw [← hp]
  exact h.flow.wakes hs

/-- Only the main thread moves, and not to a place of the ring. -/
theorem Inv.goto (h : s.Inv) (howes : mainOwes s.main = 0)
    (hfits : MainFits s.qmbdSubmitSenderState m) (hroom : ¬ HasRoom m) (hact : m ≠ .activate) :
    ({ s with main := m } : Sys β).Inv := by
  refine h.proceed (fun hr => absurd hr hroom) ?_ hfits h.phase.sender
    (fun hc => h.phase.chfd (hc.imp_right fun heq => absurd heq hact))
    (fun hs => h.phase.empty (.inl hs)) fun hs => ?_
  · cases m with
    | enqTail msg => exact absurd trivial hroom
    | _ => rfl
  · have hw := h.flow.wakes hs
    rw [howes] at hw
    exact hw.trans (by simp)

theorem Inv.submit (h : s.Inv) (hidle : s.main = .idle) (msg : List β) :
    (s.enqueueEncodedQmbdSubmit msg).Inv := by
  rw [enqueueEncodedQmbdSubmit]
  split_ifs with hdrop
  · exact h
  · rw [not_or, not_not] at hdrop
    refine h.goto (by rw [hidle]; rfl) ?_ id (by simp)
    rw [hdrop.1]
    trivial

theorem Inv.requestStop (h : s.Inv) (hidle : s.main = .idle) :
    s.requestQmbdEventSenderStop.Inv := by
  rw [requestQmbdEventSenderStop]
  split_ifs with hact
  · refine h.goto (by rw [hidle]; rfl) ?_ id (by simp)
    rw [hact]
    trivial
  · exact h

theorem Inv.processQmbd (h : s.Inv) (hidle : s.main = .idle) : s.processQmbd.Inv := by
  rw [Sys.processQmbd]
  split_ifs with hask
  · exact h.requestStop hidle
  · refine h.goto (by rw [hidle]; rfl) ?_ id (by simp)
    have hstopped : s.qmbdSubmitSenderState = .stopped := by
      by_contra hne
      exact hask ⟨h.phase.chfd (.inl hne), hne⟩
    rw [hstopped]
    trivial

/-! ## Steps of the main thread -/

theorem length_slotsFrom (s : Sys β) (k : Nat) :
    (s.slotsFrom k).length = s.enqueued.length - k := by
  simp [slotsFrom]

theorem SenderFits.of_stopped (h : SenderFits .stopped p) : p = .wait ∨ p = .readState := by
  cases p with
  | wait => exact .inl rfl
  | readState => exact .inr rfl
  | _ => exact absurd h id

/-- A place the sender has after a request only. -/
theorem SenderFits.eq_stopRequested (h : SenderFits st p)
    (h1 : ¬ SenderFits .stopped p) (h2 : ¬ SenderFits .active p) : st = .stopRequested := by
  cases st with
  | stopRequested => rfl
  | stopped => exact absurd h h1
  | active => exact absurd h h2

/-- From a place it does not have when it has stopped, the sender goes to one it has as well. -/
theorem SenderFits.move {p q : SenderPc β} (h : SenderFits st p)
    (h1 : ¬ SenderFits .stopped p) (h2 : SenderFits .active p → SenderFits .active q) :
    SenderFits st q := by
  cases st with
  | stopped => exact absurd h h1
  | active => exact h2 h
  | stopRequested => trivial

theorem SenderFits.not_cleaned (h : SenderFits .active p) : p ≠ .drain ∧ p ≠ .setStopped := by
  cases p with
  | drain => exact absurd h id
  | setStopped => exact absurd h id
  | _ => simp

/-- A place the main thread has in one state only. -/
theorem MainFits.eq_active {p : MainPc β} (h : MainFits st p)
    (h1 : ¬ MainFits .stopped p) (h2 : ¬ MainFits .stopRequested p) : st = .active := by
  cases st with
  | active => rfl
  | stopped => exact absurd h h1
  | stopRequested => exact absurd h h2

theorem MainFits.eq_stopped {p : MainPc β} (h : MainFits st p)
    (h1 : ¬ MainFits .active p) (h2 : ¬ MainFits .stopRequested p) : st = .stopped := by
  cases st with
  | stopped => rfl
  | active => exact absurd h h1
  | stopRequested => exact absurd h h2

variable {msg : List β}

theorem Inv.enqHead (h : s.Inv) (hm : s.main = .enqHead msg) :
    (if (s.qmbdSubmitQueueTail + 1) % queueSize = s.qmbdSubmitQueueHead then
      { s with main := .idle } else { s with main := .enqSlot msg }).Inv := by
  have hact : s.qmbdSubmitSenderState = .active := (hm ▸ h.phase.main).eq_active id id
  split_ifs with hfull
  · refine h.goto (by rw [hm]; rfl) ?_ id (by simp)
    rw [hact]
    trivial
  · rw [h.ring.tail, h.ring.head, Ring.next_eq_iff h.ring.le h.ring.lt] at hfull
    have hlt := h.ring.lt
    refine h.proceed (fun _ => by omega) rfl (by rw [hact]; trivial) h.phase.sender
      (fun _ => h.phase.chfd (.inl (by rw [hact]; decide))) (fun hs => h.phase.empty (.inl hs))
      fun hs => (h.wakes_main hm hs :)

theorem Inv.enqSlot (h : s.Inv) (hm : s.main = .enqSlot msg) :
    ({ s with
      qmbdSubmitQueue := Function.update s.qmbdSubmitQueue s.qmbdSubmitQueueTail (some msg)
      main := .enqTail msg } : Sys β).Inv := by
  have hact : s.qmbdSubmitSenderState = .active := (hm ▸ h.phase.main).eq_active id id
  have hroom := h.ring.room (by rw [hm]; trivial)
  have hle := h.ring.le
  refine ⟨{ h.ring with
      room := fun _ => hroom
      published := ?_
      slots := fun hl => ?_
      lifted := fun m hl => ⟨(h.ring.lifted m hl).1, ?_⟩ },
    ⟨?_, h.phase.sender, fun _ => ?_, h.phase.empty⟩, { h.flow with wakes := fun hs => ?_ }⟩
  · intro msg' hmsg
    obtain rfl : msg = msg' := Option.some.inj hmsg
    exact Function.update_self ..
  · -- The slot behind the ring is not one of those in use.
    rw [h.ring.tail]
    refine (h.ring.slots hl).update_behind ?_ h.ring.lt (some msg)
    rw [length_slotsFrom]
    omega
  · obtain ⟨⟨en, hen, -⟩, hslots⟩ := h.ring.lifted m hl
    have hlt : s.dequeued < s.enqueued.length := (List.getElem?_eq_some_iff.mp hen).1
    rw [h.ring.tail]
    refine hslots.update_behind ?_ (by omega) (some msg)
    rw [length_slotsFrom]
    omega
  · show MainFits s.qmbdSubmitSenderState _
    rw [hact]
    trivial
  · exact h.phase.chfd (.inl (by rw [hact]; decide))
  · exact (h.wakes_main hm hs :)

/-- The new message is the last one of the ring. -/
theorem slotsFrom_snoc {k : Nat} (hk : k ≤ s.enqueued.length) (en : Entry β) :
    ((s.enqueued ++ [en]).drop k).map (fun en => some en.msg) = s.slotsFrom k ++ [some en.msg] := by
  rw [drop_append_of_le_length hk, map_append]
  rfl

theorem Inv.enqTail (h : s.Inv) (hm : s.main = .enqTail msg) :
    ({ s with
      qmbdSubmitQueueTail := (s.qmbdSubmitQueueTail + 1) % queueSize
      enqueued := s.enqueued ++ [⟨s.qmbdSubmitChfd.getD 0, msg⟩]
      main := .enqPost } : Sys β).Inv := by
  have hact : s.qmbdSubmitSenderState = .active := (hm ▸ h.phase.main).eq_active id id
  have hroom := h.ring.room (by rw [hm]; trivial)
  have hle := h.ring.le
  have hchfd := h.phase.chfd (.inl (by rw [hact]; decide))
  have hclean := SenderFits.not_cleaned (hact ▸ h.phase.sender)
  have hslot : s.qmbdSubmitQueue (s.enqueued.length % queueSize) = some msg := by
    rw [← h.ring.tail]
    exact h.ring.published msg (by rw [hm]; rfl)
  have htake : ∀ k, k ≤ s.dequeued →
      (s.enqueued ++ [(⟨s.qmbdSubmitChfd.getD 0, msg⟩ : Entry β)]).take k = s.enqueued.take k :=
    fun k hk => take_append_of_le_length (hk.trans hle)
  refine ⟨⟨h.ring.head, ?_, ?_, ?_, fun hr => absurd hr id, ?_, fun hl => ?_, fun m hl => ?_,
    fun c hc => ?_⟩, ⟨?_, h.phase.sender, fun _ => hchfd, fun he => ?_⟩,
    ⟨fun en hen => ?_, fun m hm' => ?_, h.flow.target, ?_, fun _ => ?_⟩⟩
  · show (s.qmbdSubmitQueueTail + 1) % queueSize = (s.enqueued ++ [_]).length % queueSize
    rw [h.ring.tail, Nat.mod_add_mod, length_append, length_singleton]
  · show s.dequeued ≤ (s.enqueued ++ [_]).length
    rw [length_append]
    omega
  · show (s.enqueued ++ [_]).length < s.dequeued + queueSize
    rw [length_append, length_singleton]
    exact hroom
  · intro msg' hmsg
    cases hmsg
  · show Ring.Holds _ _ _ (((s.enqueued ++ [_]).drop s.dequeued).map _)
    rw [slotsFrom_snoc hle]
    refine (h.ring.slots hl).snoc ?_
    rw [length_slotsFrom, Nat.add_sub_cancel' hle]
    exact hslot
  · obtain ⟨⟨en, hen, hmsg⟩, hslots⟩ := h.ring.lifted m hl
    have hlt : s.dequeued < s.enqueued.length := (List.getElem?_eq_some_iff.mp hen).1
    refine ⟨⟨en, ?_, hmsg⟩, ?_⟩
    · show (s.enqueued ++ [_])[s.dequeued]? = some en
      rw [List.getElem?_append_left hlt]
      exact hen
    · show Ring.Holds _ _ _ (((s.enqueued ++ [_]).drop (s.dequeued + 1)).map _)
      rw [slotsFrom_snoc hlt]
      refine hslots.snoc ?_
      rw [length_slotsFrom, Nat.add_sub_cancel' hlt]
      exact hslot
  · show s.dequeued < (s.enqueued ++ [_]).length
    have := h.ring.nonempty c hc
    rw [length_append]
    omega
  · show MainFits s.qmbdSubmitSenderState _
    rw [hact]
    trivial
  · rcases he with he | he | he
    · exact absurd (hact.symm.trans he) (by decide)
    · exact absurd he hclean.1
    · exact absurd he hclean.2
  · -- The message belongs to the channel it was queued for.
    have hen' : en ∈ (s.enqueued ++ [(⟨s.qmbdSubmitChfd.getD 0, msg⟩ : Entry β)]).drop
        s.dequeued := hen
    rw [drop_append_of_le_length hle, mem_append, mem_singleton] at hen'
    rcases hen' with hen' | rfl
    · exact h.flow.gens en hen'
    · obtain ⟨g, hg⟩ := Option.ne_none_iff_exists'.mp hchfd
      show s.qmbdSubmitChfd = some (s.qmbdSubmitChfd.getD 0)
      rw [hg]
      rfl
  · obtain ⟨en, hen, hrest⟩ := h.flow.held m hm'
    refine ⟨en, ?_, hrest⟩
    show (s.enqueued ++ [_]).take s.dequeued = (s.enqueued ++ [_]).take (s.dequeued - 1) ++ [en]
    rw [htake _ le_rfl, htake _ (Nat.sub_le _ _)]
    exact hen
  · show List.Sublist _ ((s.enqueued ++ [_]).take _)
    rw [htake _ (Nat.sub_le _ _)]
    exact h.flow.order
  · have hw := h.wakes_main hm hact
    show (s.enqueued ++ [_]).length - s.dequeued ≤ s.qmbdSubmitWakeSem + senderOwes s.sender + 1
    rw [length_append, length_singleton]
    simp only [inRing, mainOwes] at hw
    omega

/-- Posting ends a call. -/
theorem Inv.post (h : s.Inv) (hfits : MainFits s.qmbdSubmitSenderState (.idle : MainPc β))
    (howes : mainOwes s.main ≤ 1) :
    ({ s with qmbdSubmitWakeSem := s.qmbdSubmitWakeSem + 1, main := .idle } : Sys β).Inv := by
  refine h.proceed (fun hr => absurd hr id) rfl hfits h.phase.sender
    (fun hc => h.phase.chfd (hc.imp_right fun heq => by cases heq))
    (fun hs => h.phase.empty (.inl hs)) fun hs => ?_
  have hw := h.flow.wakes hs
  show s.inRing ≤ s.qmbdSubmitWakeSem + 1 + senderOwes s.sender + 0
  omega

theorem mainFits_idle (st : SenderState) : MainFits st (.idle : MainPc β) := by
  cases st with
  | _ => trivial

/-- A request for a stop. -/
theorem Inv.stopWrite (h : s.Inv) (hm : s.main = .stopWrite) :
    ({ s with qmbdSubmitSenderState := .stopRequested, main := .stopPost } : Sys β).Inv := by
  have hact : s.qmbdSubmitSenderState = .active := (hm ▸ h.phase.main).eq_active id id
  have hchfd := h.phase.chfd (.inl (by rw [hact]; decide))
  exact h.proceed (fun hr => absurd hr id) rfl trivial trivial (fun _ => hchfd)
    nofun nofun

/-- While the sender has stopped, the ring is empty and the sender holds nothing, so the channel can
be exchanged. -/
theorem Inv.setChfd (h : s.Inv) (hst : s.qmbdSubmitSenderState = .stopped)
    (hfits : MainFits .stopped m) (chfd : Option Nat) (opened : Nat)
    (hact : m = .activate → chfd ≠ none) :
    ({ s with qmbdSubmitChfd := chfd, opened := opened, main := m } : Sys β).Inv := by
  have hpc : s.sender = .wait ∨ s.sender = .readState :=
    SenderFits.of_stopped (hst ▸ h.phase.sender)
  have hempty := h.phase.empty (.inl hst)
  have hheld : heldMsg s.sender = none := by
    rcases hpc with hpc | hpc
    · rw [hpc]
      rfl
    · rw [hpc]
      rfl
  refine ⟨{ h.ring with room := ?_, published := ?_ },
    ⟨?_, h.phase.sender, fun hc => ?_, h.phase.empty⟩,
    ⟨fun en hen => ?_, fun msg hmsg => ?_, fun msg g hw => ?_, h.flow.order, fun hs => ?_⟩⟩
  · intro hr
    cases m with
    | enqSlot => exact absurd hfits id
    | enqTail => exact absurd hfits id
    | _ => exact absurd hr id
  · intro msg hmsg
    cases m with
    | enqTail => exact absurd hfits id
    | _ => cases hmsg
  · show MainFits s.qmbdSubmitSenderState m
    rw [hst]
    exact hfits
  · rcases hc with hc | hc
    · exact absurd hst hc
    · exact hact hc
  · have hen' : en ∈ s.enqueued.drop s.dequeued := hen
    rw [hempty, drop_length] at hen'
    cases hen'
  · have hmsg' : msg ∈ heldMsg s.sender := hmsg
    rw [hheld] at hmsg'
    cases hmsg'
  · have hw' : s.sender = .write msg g := hw
    rw [hw'] at hheld
    cases hheld
  · exact absurd (hst.symm.trans hs) (by decide)

/-- The sender is activated. -/
theorem Inv.activate (h : s.Inv) (hm : s.main = .activate) :
    ({ s with qmbdSubmitSenderState := .active, main := .actPost } : Sys β).Inv := by
  have hst : s.qmbdSubmitSenderState = .stopped := (hm ▸ h.phase.main).eq_stopped id id
  have hempty := h.phase.empty (.inl hst)
  have hpc := SenderFits.of_stopped (hst ▸ h.phase.sender)
  refine h.proceed (fun hr => absurd hr id) rfl trivial ?_ (fun _ => h.phase.chfd (.inr hm))
    (fun _ => hempty) fun _ => ?_
  · rcases hpc with hpc | hpc
    · rw [hpc]
      trivial
    · rw [hpc]
      trivial
  · rw [inRing, hempty, Nat.sub_self]
    exact Nat.zero_le _

/-- **A step of the main thread keeps the invariant.** -/
theorem Inv.mainStep (h : s.Inv) (ok : Bool) : (s.mainStep ok).Inv := by
  unfold Sys.mainStep
  split
  next => exact h
  next msg hm => exact h.enqHead hm
  next msg hm => exact h.enqSlot hm
  next msg hm => exact h.enqTail hm
  next hm => exact h.post (mainFits_idle _) (by rw [hm]; rfl)
  next hm => exact h.stopWrite hm
  next hm => exact h.post (mainFits_idle _) (by rw [hm]; exact Nat.zero_le _)
  next hm =>
    exact h.setChfd (m := .openNew) ((hm ▸ h.phase.main).eq_stopped id id) trivial none _ (by simp)
  next hm =>
    have hst := (hm ▸ h.phase.main).eq_stopped id id
    split_ifs
    · exact h.setChfd (m := .activate) hst trivial _ _ (by simp)
    · exact h.goto (by rw [hm]; rfl) (mainFits_idle _) id (by simp)
  next hm =>
    split_ifs
    · exact h.activate hm
    · exact h.setChfd (m := .idle) ((hm ▸ h.phase.main).eq_stopped id id) trivial none _ (by simp)
  next hm => exact h.post (mainFits_idle _) (by rw [hm]; exact Nat.zero_le _)

/-! ## Steps of the sender -/

/-- The sender moves on without touching the ring. -/
theorem Inv.turn (h : s.Inv) (sem : Nat) (hl : lifted s.sender = none)
    (hl' : lifted p = none) (hslot : ∀ c, p = .deqSlot c → s.dequeued < s.enqueued.length)
    (hfits : SenderFits s.qmbdSubmitSenderState p)
    (hempty : p = .drain ∨ p = .setStopped → s.dequeued = s.enqueued.length)
    (hheld : heldMsg p = none ∨ heldMsg p = heldMsg s.sender)
    (htarget : ∀ msg g, p = .write msg g → s.qmbdSubmitChfd = some g)
    (howes : s.qmbdSubmitSenderState = .active → s.inRing ≤ sem + senderOwes p + mainOwes s.main) :
    ({ s with qmbdSubmitWakeSem := sem, sender := p } : Sys β).Inv := by
  refine ⟨{ h.ring with
      slots := fun _ => h.ring.slots hl, lifted := fun msg hmsg => ?_, nonempty := hslot },
    ⟨h.phase.main, hfits, h.phase.chfd, fun he => ?_⟩,
    ⟨h.flow.gens, fun msg hmsg => ?_, htarget, ?_, howes⟩⟩
  · have hmsg' : msg ∈ lifted p := hmsg
    rw [hl'] at hmsg'
    cases hmsg'
  · rcases he with he | he
    · exact h.phase.empty (.inl he)
    · exact hempty he
  · have hmsg' : msg ∈ heldMsg p := hmsg
    rcases hheld with hh | hh
    · rw [hh] at hmsg'
      cases hmsg'
    · rw [hh] at hmsg'
      exact h.flow.held msg hmsg'
  · show List.Sublist _ (s.enqueued.take (s.dequeued - (heldMsg p).toList.length))
    rcases hheld with hh | hh
    · rw [hh]
      refine h.flow.order.trans ?_
      exact (take_prefix_take_left (Nat.sub_le_sub_left (Nat.zero_le _) _)).sublist
    · rw [hh]
      exact h.flow.order

/-- Messages in the ring, with the first one apart. -/
theorem slotsFrom_eq_cons {k : Nat} (hk : k < s.enqueued.length) :
    ∃ en, s.enqueued[k]? = some en ∧ s.slotsFrom k = some en.msg :: s.slotsFrom (k + 1) := by
  refine ⟨s.enqueued[k], List.getElem?_eq_getElem hk, ?_⟩
  rw [slotsFrom, drop_eq_getElem_cons hk, map_cons]
  rfl

variable {clean : Bool}

/-- The sender reads and clears the first slot. -/
theorem Inv.deqSlot (h : s.Inv) (hp : s.sender = .deqSlot clean) :
    ({ s with
      qmbdSubmitQueue := Function.update s.qmbdSubmitQueue s.qmbdSubmitQueueHead none
      sender := .deqHead clean (s.qmbdSubmitQueue s.qmbdSubmitQueueHead) } : Sys β).Inv := by
  have hlt := h.ring.nonempty clean hp
  have hN := h.ring.lt
  have hslots := h.ring.slots (by rw [hp]; rfl)
  obtain ⟨en, hen, hcons⟩ := slotsFrom_eq_cons hlt
  rw [hcons] at hslots
  refine ⟨{ h.ring with
      published := fun msg hmsg => ?_, slots := nofun
      lifted := fun msg hmsg => ?_, nonempty := nofun },
    ⟨h.phase.main, ?_, h.phase.chfd, fun he => ?_⟩,
    ⟨h.flow.gens, nofun, nofun, ?_, fun hs => ?_⟩⟩
  · -- The slot behind the ring is another one.
    show Function.update s.qmbdSubmitQueue s.qmbdSubmitQueueHead none s.qmbdSubmitQueueTail = _
    rw [Function.update_of_ne, h.ring.published msg hmsg]
    rw [h.ring.head, h.ring.tail]
    exact (Ring.slot_ne hlt hN).symm
  · obtain rfl : s.qmbdSubmitQueue s.qmbdSubmitQueueHead = msg := Option.some.inj hmsg
    refine ⟨⟨en, hen, ?_⟩, ?_⟩
    · rw [h.ring.head]
      exact hslots.head
    · rw [h.ring.head]
      refine hslots.tail.update_before ?_ none
      rw [length_slotsFrom]
      omega
  · exact (hp ▸ h.phase.sender).move id (by cases clean <;> exact id)
  · exact h.phase.empty (he.imp_right fun he => (by rcases he with he | he <;> cases he))
  · have := h.flow.order
    rw [hp] at this
    exact this
  · have hw := h.wakes_sender hp hs
    cases clean with
    | true => exact hw
    | false => exact hw

/-- The sender takes the first message out of the ring. -/
theorem Inv.deqHead (h : s.Inv) {m : Option (List β)}
    (hp : s.sender = .deqHead clean m) :
    ({ s with
      qmbdSubmitQueueHead := (s.qmbdSubmitQueueHead + 1) % queueSize
      dequeued := s.dequeued + 1
      sender := afterDequeue clean m } : Sys β).Inv := by
  obtain ⟨⟨en, hen, rfl⟩, hslots⟩ := h.ring.lifted m (by rw [hp]; rfl)
  obtain ⟨hlt, hget⟩ := List.getElem?_eq_some_iff.mp hen
  have htake : s.enqueued.take (s.dequeued + 1) = s.enqueued.take s.dequeued ++ [en] := by
    rw [take_succ_eq_append_getElem hlt, hget]
  have horder := h.flow.order
  rw [hp] at horder
  have hchfd : s.qmbdSubmitChfd = some en.gen := by
    refine h.flow.gens en ?_
    rw [drop_eq_getElem_cons hlt, hget]
    exact mem_cons_self ..
  have hf := h.phase.sender
  rw [hp] at hf
  refine ⟨⟨?_, h.ring.tail, hlt, ?_, fun hr => ?_, h.ring.published, fun _ => hslots,
    fun msg hmsg => ?_, fun c hc => ?_⟩, ⟨h.phase.main, ?_, h.phase.chfd, fun he => ?_⟩,
    ⟨fun en' hen' => ?_, fun msg hmsg => ?_, fun msg g hw => ?_, ?_, fun hs => ?_⟩⟩
  · show (s.qmbdSubmitQueueHead + 1) % queueSize = (s.dequeued + 1) % queueSize
    rw [h.ring.head, Nat.mod_add_mod]
  · exact h.ring.lt.trans (Nat.add_lt_add_right (Nat.lt_succ_self _) _)
  · exact (h.ring.room hr).trans (Nat.add_lt_add_right (Nat.lt_succ_self _) _)
  · cases clean with
    | true => cases hmsg
    | false => cases hmsg
  · cases clean with
    | true => cases hc
    | false => cases hc
  · exact hf.move id (by cases clean <;> exact id)
  · exfalso
    rcases he with he | he | he
    · have hst : s.qmbdSubmitSenderState = .stopped := he
      rw [hst] at hf
      exact hf
    · cases clean with
      | true => cases he
      | false => cases he
    · cases clean with
      | true => cases he
      | false => cases he
  · refine h.flow.gens en' ?_
    rw [drop_eq_getElem_cons hlt]
    exact mem_cons_of_mem _ hen'
  · cases clean with
    | true => cases hmsg
    | false =>
      obtain rfl : en.msg = msg := Option.some.inj hmsg
      exact ⟨en, htake, rfl, hchfd⟩
  · cases clean with
    | true => cases hw
    | false => cases hw
  · cases clean with
    | true =>
      show List.Sublist _ (s.enqueued.take (s.dequeued + 1))
      rw [htake]
      exact horder.trans (sublist_append_left _ _)
    | false => exact horder
  · have hw := h.wakes_sender hp hs
    show s.enqueued.length - (s.dequeued + 1) ≤ _
    have hst : s.qmbdSubmitSenderState = .active := hs
    rw [hst] at hf
    cases clean with
    | true => exact absurd hf id
    | false =>
      simp only [inRing, senderOwes] at hw
      simp only [afterDequeue, senderOwes]
      omega

theorem senderFits_wait (st : SenderState) : SenderFits st (.wait : SenderPc β) := by
  cases st with
  | _ => trivial

section

variable (h : s.Inv)
include h

/-- The message is passed to `chanWrite_`. -/
theorem Inv.write {chfd : Nat} (hp : s.sender = .write msg chfd)
    (taken : Nat) :
    ({ s with writes := s.writes ++ [⟨chfd, msg, taken⟩], sender := .wait } : Sys β).Inv := by
  obtain ⟨en, htake, rfl, hgen⟩ := h.flow.held msg (by rw [hp]; rfl)
  have hchfd : en.gen = chfd := Option.some.inj (hgen.symm.trans (h.flow.target _ _ hp))
  have horder := h.flow.order
  rw [hp] at horder
  have hring := h.ring.slots (by rw [hp]; rfl)
  refine ⟨{ h.ring with slots := fun _ => hring, lifted := nofun, nonempty := nofun },
    ⟨h.phase.main, senderFits_wait _, h.phase.chfd,
      fun he => h.phase.empty (he.imp_right fun he => ?_)⟩,
    ⟨h.flow.gens, nofun, nofun, ?_, fun hs => ?_⟩⟩
  · rcases he with he | he
    · cases he
    · cases he
  · show List.Sublist ((s.writes ++ [_]).map Write.entry) (s.enqueued.take s.dequeued)
    rw [htake, map_append]
    refine List.Sublist.append horder ?_
    rw [← hchfd]
    exact List.Sublist.refl _
  · exact (h.wakes_sender hp hs :)

/-- The sender reports that it has stopped. -/
theorem Inv.setStopped (hp : s.sender = .setStopped) :
    ({ s with qmbdSubmitSenderState := .stopped, sender := .wait } : Sys β).Inv := by
  have hempty := h.phase.empty (.inr (.inr hp))
  have hst := (hp ▸ h.phase.sender).eq_stopRequested id id
  have hmain := h.phase.main
  rw [hst] at hmain
  have horder := h.flow.order
  rw [hp] at horder
  have hring := h.ring.slots (by rw [hp]; rfl)
  refine ⟨{ h.ring with slots := fun _ => hring, lifted := nofun, nonempty := nofun },
    ⟨?_, trivial, fun hc => ?_, fun _ => hempty⟩, ⟨h.flow.gens, nofun, nofun, horder, nofun⟩⟩
  · show MainFits .stopped s.main
    cases hm : s.main with
    | idle => trivial
    | stopPost => trivial
    | _ => rw [hm] at hmain; exact absurd hmain id
  · rcases hc with hc | hc
    · exact absurd rfl hc
    · exact h.phase.chfd (.inr hc)

/-- The sender goes back to the semaphore without a debt: it owed nothing, or the ring is empty. -/
theorem Inv.toWait (hl : lifted s.sender = none)
    (howes : s.qmbdSubmitSenderState = .active → senderOwes s.sender = 0 ∨ s.inRing = 0) :
    ({ s with sender := .wait } : Sys β).Inv := by
  refine h.turn s.qmbdSubmitWakeSem hl rfl (by simp) (senderFits_wait _) (by simp) (.inl rfl)
    (by simp) fun hs => ?_
  have hw := h.flow.wakes hs
  rcases howes hs with h0 | h0
  · rw [h0] at hw
    exact hw
  · rw [h0]
    exact Nat.zero_le _

/-- The sender looks at the state. -/
theorem Inv.readState (hp : s.sender = .readState) :
    (match s.qmbdSubmitSenderState with
      | .stopRequested => { s with sender := .deqTail true }
      | .active => { s with sender := .deqTail false }
      | .stopped => { s with sender := .wait } : Sys β).Inv := by
  have hl : lifted s.sender = none := by
    rw [hp]
    rfl
  split
  next hst =>
    refine h.turn (p := .deqTail true) s.qmbdSubmitWakeSem hl rfl (by simp) (by rw [hst]; trivial)
      (by simp) (.inl rfl) (by simp) fun hs => ?_
    rw [hst] at hs
    cases hs
  next hst =>
    refine h.turn (p := .deqTail false) s.qmbdSubmitWakeSem hl rfl (by simp) (by rw [hst]; trivial)
      (by simp) (.inl rfl) (by simp) fun hs => ?_
    exact (h.wakes_sender hp hs :)
  next hst =>
    refine h.toWait hl fun hs => ?_
    rw [hst] at hs
    cases hs

/-- The sender looks for a message. -/
theorem Inv.deqTail (hp : s.sender = .deqTail clean) :
    (if s.qmbdSubmitQueueHead = s.qmbdSubmitQueueTail then
      { s with sender := if clean then .drain else .wait }
    else { s with sender := .deqSlot clean } : Sys β).Inv := by
  have hl : lifted s.sender = none := by
    rw [hp]
    rfl
  have hf := h.phase.sender
  rw [hp] at hf
  have hiff : s.qmbdSubmitQueueHead = s.qmbdSubmitQueueTail ↔ s.dequeued = s.enqueued.length := by
    rw [h.ring.head, h.ring.tail, Ring.eq_iff h.ring.le h.ring.lt]
  split_ifs with hempty hclean
  · -- The clean-up has found the ring empty.
    have hst := (hclean ▸ hf).eq_stopRequested id id
    refine h.turn (p := .drain) s.qmbdSubmitWakeSem hl rfl (by simp) (by rw [hst]; trivial)
      (fun _ => hiff.mp hempty) (.inl rfl) (by simp) fun hs => ?_
    rw [hst] at hs
    cases hs
  · refine h.toWait hl fun _ => .inr ?_
    rw [inRing, hiff.mp hempty, Nat.sub_self]
  · have hlt : s.dequeued < s.enqueued.length :=
      lt_of_le_of_ne h.ring.le fun heq => hempty (hiff.mpr heq)
    refine h.turn (p := .deqSlot clean) s.qmbdSubmitWakeSem hl rfl (fun _ _ => hlt)
      (hf.move id (by cases clean <;> exact id)) (by simp) (.inl rfl) (by simp) fun hs => ?_
    have hw := h.wakes_sender hp hs
    cases clean with
    | true => exact hw
    | false => exact hw

/-- **A step of the sender keeps the invariant.** -/
theorem Inv.senderStep (taken : Nat) : (s.senderStep taken).Inv := by
  unfold Sys.senderStep
  split
  next hp =>
    split_ifs with hsem
    · exact h
    · refine h.turn (p := .readState) _ (by rw [hp]; rfl) rfl (by simp) ?_ (by simp) (.inl rfl)
        (by simp) fun hs => ?_
      · cases s.qmbdSubmitSenderState with
        | _ => trivial
      · have hw := h.wakes_sender hp hs
        simp only [senderOwes] at hw ⊢
        omega
  next hp => exact h.readState hp
  next clean hp => exact h.deqTail hp
  next clean hp => exact h.deqSlot hp
  next clean msg hp => exact h.deqHead hp
  next hp =>
    have hst := (hp ▸ h.phase.sender).eq_stopRequested id id
    have hactive : ∀ {P : Prop}, s.qmbdSubmitSenderState = .active → P := by
      intro P hs
      rw [hst] at hs
      cases hs
    split_ifs
    · exact h.turn (p := .setStopped) s.qmbdSubmitWakeSem (by rw [hp]; rfl) rfl (by simp)
        (by rw [hst]; trivial) (fun _ => h.phase.empty (.inr (.inl hp))) (.inl rfl) (by simp)
        hactive
    · exact h.turn (p := s.sender) _ (by rw [hp]; rfl) (by rw [hp]; rfl) (by simp [hp])
        h.phase.sender (fun _ => h.phase.empty (.inr (.inl hp))) (.inr rfl) (by simp [hp]) hactive
  next hp => exact h.setStopped hp
  next msg hp =>
    have howes : senderOwes s.sender = 0 := by rw [hp]; rfl
    split_ifs with hact
    · exact h.turn (p := .readChfd msg) s.qmbdSubmitWakeSem (by rw [hp]; rfl) rfl (by simp)
        (by rw [hact]; trivial) (by simp) (.inr (by rw [hp]; rfl)) (by simp)
        fun hs => (h.wakes_sender hp hs :)
    · exact h.toWait (by rw [hp]; rfl) fun _ => .inl howes
  next msg hp =>
    have howes : senderOwes s.sender = 0 := by rw [hp]; rfl
    split
    · exact h.toWait (by rw [hp]; rfl) fun _ => .inl howes
    next g hg =>
      refine h.turn (p := .write msg g) s.qmbdSubmitWakeSem (by rw [hp]; rfl) rfl (by simp)
        ((hp ▸ h.phase.sender).move id fun _ => trivial) (by simp) (.inr (by rw [hp]; rfl)) ?_
        fun hs => (h.wakes_sender hp hs :)
      intro msg' g' hw
      cases hw
      exact hg
  next msg chfd hp => exact h.write hp _

/-- **Every step keeps the invariant.** -/
theorem Inv.step (e : Event β) : (s.step e).Inv := by
  have hidle : (s.main matches .idle) = true → s.main = .idle := by
    cases s.main with
    | idle => exact fun _ => rfl
    | _ => exact fun h => absurd h (by simp)
  cases e with
  | submit msg =>
    simp only [Sys.step]
    split_ifs with hm
    · exact h.submit (hidle hm) msg
    · exact h
  | requestStop =>
    simp only [Sys.step]
    split_ifs with hm
    · exact h.requestStop (hidle hm)
    · exact h
  | processQmbd =>
    simp only [Sys.step]
    split_ifs with hm
    · exact h.processQmbd (hidle hm)
    · exact h
  | main ok => exact h.mainStep ok
  | sender taken => exact h.senderStep taken

end

/-- **In every interleaving the ring holds the messages that wait**, an active sender has a wake-up
for each of them, and messages are written in the order of queueing. -/
theorem ring_holds_waiting (es : List (Event β)) :
    let s := Run.run step init es
    s.RingInv ∧ (s.qmbdSubmitSenderState = .active →
      s.inRing ≤ s.qmbdSubmitWakeSem + senderOwes s.sender + mainOwes s.main) ∧
      List.Sublist (s.writes.map Write.entry) s.enqueued := by
  intro s
  have h : s.Inv := Run.inv_all (fun _ e h => h.step e) inv_init es
  exact ⟨h.ring, h.flow.wakes, h.flow.order.trans (take_sublist _ _)⟩

end Sys

end QmbdSync

end Volclava
