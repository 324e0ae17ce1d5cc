import Volclava.QueryClients

/-!
# The main loop of the query daemon

Here one iteration of the loop is one step, with `handleClientIO` as a whole. A finished client is
shut down by `handleClientIO`, which an iteration only comes to when `chanEpoll_` reports a ready
channel; a worker that finishes a client makes no channel ready. A client that is finished while
nothing arrives any more stays open, and a daemon that has expired does not leave its loop before
the alarm.

Workers finish tasks before the round starts: `handleClientIO` looks at each client once, so a task
that ends in the middle of a round is as if it had ended before or after it.

- `QLoop.iterate`: one iteration.
- `closes_and_drains_iff`: finished clients are closed, and an expired daemon leaves, exactly when
  a ready channel is reported after each time a finished client is on the list.
-/

namespace Volclava.QueryLoop

structure QClient where
  chanfd : Nat
  state : ClientState
  deriving DecidableEq, Repr

/-- What happens on a channel to the master: an error, or data that its handler takes or not. -/
inductive ChanEvent where
  | error
  | read (ok : Bool)
  deriving DecidableEq, Repr

/-- What the ready channels lead to: the channel of a new client, the events of the submit and the
control channel, and for the channels of clients whether there is an error or a request, and
whether a request is decoded and finds room in the queue of its pool. -/
structure Ready where
  accepted : Option Nat
  submit : Option ChanEvent
  ctrl : Option ChanEvent
  error : Nat → Bool
  read : Nat → Bool
  queued : Nat → Bool

inductive Epoll where
  | failed
  | nothing
  | ready (r : Ready)

/-- What the world does in an iteration: the clients whose tasks the workers finish, whether the
force-exit alarm goes off, and what `chanEpoll_` reports. -/
structure LoopInput where
  done : Nat → Bool
  alarm : Bool
  epoll : Epoll

/-- The state of the loop. A channel is open or closed; `left` says that the loop has been left, and
`shut` are the clients that the last iteration has shut down. -/
structure QLoop where
  exitStatus : Nat
  listenChfd : Bool
  qmbdSubmitChfd : Bool
  qmbdCtrlChfd : Bool
  clientList : List QClient
  left : Bool
  shut : List QClient
  deriving DecidableEq, Repr

namespace QLoop

def init : QLoop := ⟨0, true, true, true, [], false, []⟩

def handleDaemonExpiration (s : QLoop) : QLoop :=
  { s with exitStatus := 1, listenChfd := false, qmbdSubmitChfd := false, qmbdCtrlChfd := false }

def acceptConnection (r : Ready) (s : QLoop) : QLoop :=
  { s with clientList := s.clientList ++ (r.accepted.map (⟨·, .connected⟩)).toList }

def processQueryRequestByThread (r : Ready) (client : QClient) : QClient :=
  { client with state := if r.queued client.chanfd then .processing else .finished }

/-- Whether `handleClientIO` shuts a client down. -/
def shuts (r : Ready) (cliPtr : QClient) : Bool :=
  cliPtr.state = .finished || (r.error cliPtr.chanfd && cliPtr.state ≠ .processing)

def handleClientIO (r : Ready) (s : QLoop) : QLoop :=
  { s with
    clientList := (s.clientList.filter (!shuts r ·)).map fun cliPtr =>
      if cliPtr.state = .connected ∧ r.read cliPtr.chanfd then processQueryRequestByThread r cliPtr
      else cliPtr
    shut := s.clientList.filter (shuts r) }

/-- The part of an iteration after `chanEpoll_` has reported ready channels. -/
def serve (r : Ready) (s : QLoop) : QLoop :=
  let s := if s.listenChfd then s.acceptConnection r else s
  let s := if s.qmbdSubmitChfd ∧ r.submit = some .error then s.handleDaemonExpiration else s
  let s := if s.qmbdCtrlChfd ∧ (r.ctrl = some .error ∨ r.ctrl = some (.read false)) then
      s.handleDaemonExpiration
    else s
  s.handleClientIO r

/-- The workers finish the clients in `done`, and the alarm may go off. -/
def interrupt (i : LoopInput) (s : QLoop) : QLoop :=
  { s with
    exitStatus := if i.alarm then 2 else s.exitStatus
    clientList := s.clientList.map fun c =>
      if c.state = .processing ∧ i.done c.chanfd then { c with state := .finished } else c
    shut := [] }

/-- One iteration of the loop. -/
def iterate (s : QLoop) (i : LoopInput) : QLoop :=
  if s.left then { s with shut := [] }
  else
    let s := s.interrupt i
    if s.exitStatus = 2 then { s with left := true }
    else if s.exitStatus ≠ 0 ∧ s.listenChfd = false ∧ s.clientList = [] then { s with left := true }
    else
      match i.epoll with
      | .failed | .nothing => s
      | .ready r => s.serve r

/-- The state before iteration `n`. -/
def before (ins : Nat → LoopInput) : Nat → QLoop
  | 0 => init
  | n + 1 => (before ins n).iterate (ins n)

end QLoop

open QLoop

def Epoll.IsReady (e : Epoll) : Prop := ∃ r, e = .ready r

/-- Every finished client is shut down. -/
def Closes (ins : Nat → LoopInput) : Prop :=
  ∀ n, ∀ c ∈ (QLoop.before ins n).clientList, c.state = .finished →
    ∃ m ≥ n, c ∈ (QLoop.before ins (m + 1)).shut

/-- A daemon that has expired with no client connected or processing leaves its loop. -/
def Drains (ins : Nat → LoopInput) : Prop :=
  ∀ n, (QLoop.before ins n).exitStatus = 1 →
    (∀ c ∈ (QLoop.before ins n).clientList, c.state = .finished) →
    ∃ m ≥ n, (QLoop.before ins m).left = true ∧ (QLoop.before ins m).exitStatus = 1

/-! ## One iteration -/

/-- What holds in a run without alarm: the daemon has expired or listens, and the loop is left only
by an expired daemon without clients. -/
structure Sound (s : QLoop) : Prop where
  status : s.exitStatus = 0 ∨ s.exitStatus = 1 ∧ s.listenChfd = false
  left : s.left = true → s.exitStatus = 1 ∧ s.clientList = []

variable {s : QLoop} {i : LoopInput} {r : Ready} {c : QClient}

theorem serve_status (h : s.exitStatus = 0 ∨ s.exitStatus = 1 ∧ s.listenChfd = false) :
    (s.serve r).exitStatus = 0 ∨ (s.serve r).exitStatus = 1 ∧ (s.serve r).listenChfd = false := by
  unfold serve
  dsimp only
  split_ifs <;> simp_all [handleDaemonExpiration, handleClientIO, acceptConnection]

/-- **The three ways of an iteration** of a run without alarm. -/
theorem iterate_cases (h : Sound s) (hl : s.left = false) (ha : i.alarm = false) :
    ((s.interrupt i).exitStatus = 1 ∧ (s.interrupt i).clientList = [] ∧
      s.iterate i = { s.interrupt i with left := true }) ∨
    (¬i.epoll.IsReady ∧ s.iterate i = s.interrupt i) ∨
    ∃ r, i.epoll = .ready r ∧ s.iterate i = (s.interrupt i).serve r := by
  have he : (s.interrupt i).exitStatus = s.exitStatus := by simp [interrupt, ha]
  have h2 : (s.interrupt i).exitStatus ≠ 2 := by
    rw [he]
    rcases h.status with h | h <;> omega
  rw [iterate, hl]
  simp only [Bool.false_eq_true, if_false, h2]
  by_cases hq : (s.interrupt i).exitStatus ≠ 0 ∧ (s.interrupt i).listenChfd = false ∧
      (s.interrupt i).clientList = []
  · refine .inl ⟨?_, hq.2.2, if_pos hq⟩
    rw [he] at hq ⊢
    exact (h.status.resolve_left hq.1).1
  · rw [if_neg hq]
    cases hep : i.epoll with
    | ready r => exact .inr (.inr ⟨r, rfl, rfl⟩)
    | _ => exact .inr (.inl ⟨by simp [Epoll.IsReady], rfl⟩)

theorem sound_iterate (h : Sound s) (ha : i.alarm = false) : Sound (s.iterate i) := by
  by_cases hl : s.left = true
  · rw [iterate, if_pos hl]
    exact ⟨h.status, h.left⟩
  have hl : s.left = false := by simpa using hl
  have hs : (s.interrupt i).exitStatus = 0 ∨
      (s.interrupt i).exitStatus = 1 ∧ (s.interrupt i).listenChfd = false := by
    simpa [interrupt, ha] using h.status
  rcases iterate_cases h hl ha with ⟨h1, h2, heq⟩ | ⟨-, heq⟩ | ⟨r, -, heq⟩ <;> rw [heq]
  · exact ⟨hs, fun _ => ⟨h1, h2⟩⟩
  · exact ⟨hs, by simp [interrupt, hl]⟩
  · refine ⟨serve_status hs, ?_⟩
    have hleft : ((s.interrupt i).serve r).left = false := by
      unfold serve
      dsimp only
      split_ifs <;> simp [handleDaemonExpiration, handleClientIO, acceptConnection, interrupt, hl]
    simp [hleft]

/-- A finished client stays on the list as it is, whatever the workers do. -/
theorem mem_interrupt (hc : c ∈ s.clientList) (hf : c.state = .finished) :
    c ∈ (s.interrupt i).clientList :=
  List.mem_map.2 ⟨c, hc, by simp [hf]⟩

/-- Clients are only added to what `handleClientIO` looks at. -/
theorem mem_shut_serve (hc : c ∈ s.clientList) (hf : c.state = .finished) :
    c ∈ (s.serve r).shut := by
  have hs : shuts r c = true := by simp [shuts, hf]
  unfold serve
  dsimp only
  split_ifs <;> simp [handleDaemonExpiration, handleClientIO, acceptConnection, hc, hs]

/-- A client is shut down only when a channel is ready. -/
theorem ready_of_mem_shut (h : c ∈ (s.iterate i).shut) : i.epoll.IsReady := by
  unfold iterate at h
  dsimp only at h
  split_ifs at h
  · simp at h
  · simp [interrupt] at h
  · simp [interrupt] at h
  · cases hep : i.epoll with
    | ready r => exact ⟨r, rfl⟩
    | _ => simp [hep, interrupt] at h

/-- **Progress of a finished client**: it is shut down when a channel is ready, else it stays. -/
theorem shut_or_stays (h : Sound s) (ha : i.alarm = false) (hc : c ∈ s.clientList)
    (hf : c.state = .finished) :
    c ∈ (s.iterate i).shut ∨ ¬i.epoll.IsReady ∧ c ∈ (s.iterate i).clientList := by
  have hl : s.left = false := by
    by_contra hl
    have := (h.left (by simpa using hl)).2
    simp [this] at hc
  have hi := mem_interrupt (i := i) hc hf
  rcases iterate_cases h hl ha with ⟨-, h2, -⟩ | ⟨hne, heq⟩ | ⟨r, -, heq⟩
  · simp [h2] at hi
  · exact .inr ⟨hne, heq ▸ hi⟩
  · exact .inl (heq ▸ mem_shut_serve hi hf)

/-- An expired daemon without clients leaves the loop. -/
theorem leaves (h : Sound s) (ha : i.alarm = false) (hs : s.exitStatus = 1)
    (hc : s.clientList = []) : (s.iterate i).left = true ∧ (s.iterate i).exitStatus = 1 := by
  have hn := (h.status.resolve_left (by simp [hs])).2
  cases hl : s.left <;> simp [iterate, interrupt, hl, ha, hs, hn, hc]

theorem serve_finished (hs : s.exitStatus = 1) (hn : s.listenChfd = false)
    (hf : ∀ c ∈ s.clientList, c.state = .finished) :
    (s.serve r).exitStatus = 1 ∧ (s.serve r).clientList = [] := by
  have hshut : ∀ c ∈ s.clientList, shuts r c = true := by
    intro c hc
    simp [shuts, hf c hc]
  unfold serve
  dsimp only
  split_ifs <;> simp_all [handleDaemonExpiration, handleClientIO]

/-! ## Whole runs -/

section Runs

variable {ins : Nat → LoopInput} (halarm : ∀ n, (ins n).alarm = false)
include halarm

theorem sound_before (n : Nat) : Sound (QLoop.before ins n) := by
  induction n with
  | zero => exact ⟨.inl rfl, by simp [QLoop.before, init]⟩
  | succ n ih => exact sound_iterate ih (halarm n)

/-- An expired daemon whose clients are finished leaves the loop, or nothing is ready and it stays
as it is. -/
theorem leaves_or_stays {n : Nat} (hs : (QLoop.before ins n).exitStatus = 1)
    (hf : ∀ c ∈ (QLoop.before ins n).clientList, c.state = .finished) :
    (∃ m ≥ n, (QLoop.before ins m).left = true ∧ (QLoop.before ins m).exitStatus = 1) ∨
    ¬(ins n).epoll.IsReady ∧ (QLoop.before ins (n + 1)).exitStatus = 1 ∧
      ∀ c ∈ (QLoop.before ins (n + 1)).clientList, c.state = .finished := by
  have h := sound_before halarm n
  by_cases hl : (QLoop.before ins n).left = true
  · exact .inl ⟨n, le_rfl, hl, hs⟩
  have hi : ((QLoop.before ins n).interrupt (ins n)).clientList =
      (QLoop.before ins n).clientList := by
    refine (List.map_congr_left fun c hc => ?_).trans (List.map_id _)
    simp [hf c hc]
  have hs' : ((QLoop.before ins n).interrupt (ins n)).exitStatus = 1 := by
    simp [interrupt, halarm n, hs]
  rcases iterate_cases h (by simpa using hl) (halarm n) with ⟨-, -, heq⟩ | ⟨hr, heq⟩ | ⟨r, -, heq⟩
  · exact .inl ⟨n + 1, by omega, by rw [QLoop.before, heq], by rw [QLoop.before, heq]; exact hs'⟩
  · refine .inr ⟨hr, ?_⟩
    rw [QLoop.before, heq, hi]
    exact ⟨hs', hf⟩
  · -- the list is empty after the round, and the next iteration leaves
    have hn := (h.status.resolve_left (by simp [hs])).2
    obtain ⟨hs₁, hc₁⟩ := serve_finished (r := r) hs' hn (hi ▸ hf)
    have h₁ := sound_before halarm (n + 1)
    rw [← heq] at hs₁ hc₁
    exact .inl ⟨n + 2, by omega, leaves h₁ (halarm (n + 1)) hs₁ hc₁⟩

/-- **Finished clients are closed and an expired daemon leaves** exactly when a ready channel is
reported after each time a finished client is on the list. -/
theorem closes_and_drains_iff :
    (Closes ins ∧ Drains ins) ↔
      ∀ n, (∃ c ∈ (QLoop.before ins n).clientList, c.state = .finished) →
        ∃ m ≥ n, (ins m).epoll.IsReady := by
  constructor
  · rintro ⟨hclose, -⟩ n ⟨c, hc, hf⟩
    obtain ⟨m, hm, hshut⟩ := hclose n c hc hf
    exact ⟨m, hm, ready_of_mem_shut hshut⟩
  intro hready
  refine ⟨fun n c hc hf => ?_, fun n hs hf => ?_⟩
  · obtain ⟨m, hm, hr⟩ := hready n ⟨c, hc, hf⟩
    exact Run.leads_to (P := fun n => c ∈ (QLoop.before ins n).clientList)
      (fun n hc => shut_or_stays (sound_before halarm n) (halarm n) hc hf) hm hc hr
  · rcases List.eq_nil_or_concat' (QLoop.before ins n).clientList with h0 | ⟨l, c, hl⟩
    · exact ⟨n + 1, by omega, leaves (sound_before halarm n) (halarm n) hs h0⟩
    · have hc : c ∈ (QLoop.before ins n).clientList := by simp [hl]
      obtain ⟨m, hm, hr⟩ := hready n ⟨c, hc, hf c hc⟩
      obtain ⟨k, hk, j, hj, hleft⟩ := Run.leads_to
        (P := fun n => (QLoop.before ins n).exitStatus = 1 ∧
          ∀ c ∈ (QLoop.before ins n).clientList, c.state = .finished)
        (fun n h => leaves_or_stays halarm h.1 h.2) hm ⟨hs, hf⟩ hr
      exact ⟨j, by omega, hleft⟩

end Runs

/-! ## A client that stays open -/

def noEvents : Ready := ⟨none, none, none, fun _ => false, fun _ => false, fun _ => false⟩

/-- A client connects and sends a request that finds the queue of its pool full; after that
`chanEpoll_` reports `e` for ever. -/
def refused (e : Epoll) : Nat → LoopInput
  | 0 => ⟨fun _ => false, false, .ready { noEvents with accepted := some 5 }⟩
  | 1 => ⟨fun _ => false, false, .ready { noEvents with read := fun _ => true }⟩
  | _ => ⟨fun _ => false, false, e⟩

theorem refused_stays_open : ¬Closes (refused .nothing) := by
  intro h
  obtain ⟨m, hm, hshut⟩ := h 2 ⟨5, .finished⟩ (by decide) rfl
  obtain ⟨r, hr⟩ := ready_of_mem_shut hshut
  obtain ⟨k, rfl⟩ := Nat.exists_eq_add_of_le' hm
  cases hr

theorem refused_closed : Closes (refused (.ready noEvents)) ∧ Drains (refused (.ready noEvents)) :=
  (closes_and_drains_iff (fun n => by rcases n with - | - | n <;> rfl)).2
    fun n _ => ⟨n + 2, by omega, noEvents, rfl⟩

end Volclava.QueryLoop
