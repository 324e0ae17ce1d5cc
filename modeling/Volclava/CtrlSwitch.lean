import Volclava.Status

/-!
# Queue and host control across a log switch

An administrator opens and closes queues and hosts, and activates and inactivates queues, with a
comment. Each action is an event of the log, and a restarted daemon replays them (`replay_qc`,
`replay_hostcontrol`). When the log is switched (`switch_log`, `mbd.log.c`), only closings and
inactivations of what is closed or inactive now are kept, one for each queue or host, and written
again by `log_queueStatusAtSwitch` and `log_hostStatusAtSwitch`. These fill in a new record and
leave its comment empty.

What a control event can do to a bit of the status is the same for the three bits: one operation
raises it, another one lowers it, and all others leave it alone (`Lever`).

- `Lever.up_kept_iff`: the bit survives unless it starts lowered and was raised.
- `comment_kept_iff`: the comment survives only if there is none.
- `control_survives_iff`: both, for all queues and hosts.
-/

namespace Volclava.Ctrl

open List

variable {N : Type}

/-! ## Records and what they control -/

/-- An event with its `queueCtrlLog` or `hostCtrlLog`, which have the same fields. -/
structure CtrlLog (N : Type) where
  eventTime : Int
  opCode : Int
  name : N
  userId : Int
  userName : String
  msg : String
  deriving DecidableEq

/-- The fields of a queue or a host that the events change. -/
structure Controlled where
  status : Status
  actionComment : Option String
  deriving DecidableEq

def queueOpen : Int := 1
def queueClosed : Int := 2
def queueActivate : Int := 3
def queueInactivate : Int := 4
def hostOpen : Int := 1
def hostClose : Int := 2
def queueStatOpen : Status := 0x01#32
def queueStatActive : Status := 0x02#32
def hostStatDisabled : Status := 0x04#32

def queueOp (opCode : Int) (qStatus : Status) : Status :=
  if opCode = queueOpen then qStatus ||| queueStatOpen
  else if opCode = queueClosed then qStatus &&& ~~~queueStatOpen
  else if opCode = queueActivate then qStatus ||| queueStatActive
  else if opCode = queueInactivate then qStatus &&& ~~~queueStatActive
  else qStatus

def hostOp (opCode : Int) (hStatus : Status) : Status :=
  if opCode = hostOpen then hStatus &&& ~~~hostStatDisabled
  else if opCode = hostClose then hStatus ||| hostStatDisabled
  else hStatus

/-- The comment of an event; an empty one is none. -/
def comment (msg : String) : Option String := if msg = "" then none else some msg

section Records

variable [DecidableEq N]

/-- The replay of an event; a name that is not configured is skipped. -/
def replayCtrl (op : Int → Status → Status) (objs : N → Option Controlled) (r : CtrlLog N) :
    N → Option Controlled :=
  match objs r.name with
  | none => objs
  | some o => Function.update objs r.name (some ⟨op r.opCode o.status, comment r.msg⟩)

def replayQc : (N → Option Controlled) → CtrlLog N → N → Option Controlled := replayCtrl queueOp

def replayHostcontrol : (N → Option Controlled) → CtrlLog N → N → Option Controlled :=
  replayCtrl hostOp

/-! ## The switch -/

/-- `queueTableUpdate`, and the same for hosts: one entry for each name, the last one. -/
def tableUpdate (tab : List (CtrlLog N)) (r : CtrlLog N) : List (CtrlLog N) :=
  if r.name ∈ tab.map CtrlLog.name then tab.map fun e => if e.name = r.name then r else e
  else tab ++ [r]

/-- `closedQueueEvents` and `inactiveQueueEvents`. -/
structure QueueTables (N : Type) where
  closed : List (CtrlLog N)
  inactive : List (CtrlLog N)

def saveQueueCtrlEvent (live : N → Option Controlled) (t : QueueTables N) (r : CtrlLog N) :
    QueueTables N :=
  match live r.name with
  | none => t
  | some q =>
    { closed :=
        if r.opCode = queueClosed ∧ has q.status queueStatOpen = false then tableUpdate t.closed r
        else t.closed
      inactive :=
        if r.opCode = queueInactivate ∧ has q.status queueStatActive = false then
          tableUpdate t.inactive r
        else t.inactive }

def saveHostCtrlEvent (live : N → Option Controlled) (tab : List (CtrlLog N)) (r : CtrlLog N) :
    List (CtrlLog N) :=
  match live r.name with
  | none => tab
  | some h =>
    if r.opCode = hostClose ∧ has h.status hostStatDisabled = true then tableUpdate tab r else tab

/-- `log_queueStatusAtSwitch` and `log_hostStatusAtSwitch`: the record is new and has no comment. -/
def logStatusAtSwitch (opCode : Int) (r : CtrlLog N) : CtrlLog N :=
  { r with opCode := opCode, msg := "" }

/-- The records `writeQueueCtrlEvent` writes for the queue events of a log. The entries of a hash
table come in the order `each` brings them into. -/
def switchQueueCtrl (each : List (CtrlLog N) → List (CtrlLog N)) (live : N → Option Controlled)
    (events : List (CtrlLog N)) : List (CtrlLog N) :=
  (each (events.foldl (saveQueueCtrlEvent live) ⟨[], []⟩).closed).map
      (logStatusAtSwitch queueClosed) ++
    (each (events.foldl (saveQueueCtrlEvent live) ⟨[], []⟩).inactive).map
      (logStatusAtSwitch queueInactivate)

def switchHostCtrl (each : List (CtrlLog N) → List (CtrlLog N)) (live : N → Option Controlled)
    (events : List (CtrlLog N)) : List (CtrlLog N) :=
  (each (events.foldl (saveHostCtrlEvent live) [])).map (logStatusAtSwitch hostClose)

/-! ## What a replay does to one queue or host -/

/-- The events for a name. -/
def mine (n : N) (events : List (CtrlLog N)) : List (CtrlLog N) :=
  events.filter fun r => r.name = n

def statusAfter (op : Int → Status → Status) (s : Status) (rs : List (CtrlLog N)) : Status :=
  rs.foldl (fun s r => op r.opCode s) s

def commentAfter (c : Option String) (rs : List (CtrlLog N)) : Option String :=
  rs.foldl (fun _ r => comment r.msg) c

theorem replayCtrl_at (op : Int → Status → Status) (objs : N → Option Controlled)
    (events : List (CtrlLog N)) (n : N) :
    events.foldl (replayCtrl op) objs n = (objs n).map fun o =>
      ⟨statusAfter op o.status (mine n events), commentAfter o.actionComment (mine n events)⟩ := by
  induction events generalizing objs with
  | nil => simp [mine, statusAfter, commentAfter]
  | cons r events ih =>
    rw [foldl_cons, ih]
    by_cases hn : r.name = n
    · subst hn
      cases ho : objs r.name with
      | none => simp [replayCtrl, ho]
      | some o => simp [replayCtrl, ho, mine, statusAfter, commentAfter]
    · have hsame : replayCtrl op objs r n = objs n := by
        cases ho : objs r.name with
        | none => simp [replayCtrl, ho]
        | some o => simp [replayCtrl, ho, Ne.symm hn]
      simp [hsame, mine, hn]

end Records

/-! ## Levers -/

/-- A bit of the status: one operation raises it, another one lowers it. -/
structure Lever (op : Int → Status → Status) where
  on : Int
  off : Int
  ne : on ≠ off
  up : Status → Bool
  up_op : ∀ opCode s,
    up (op opCode s) = if opCode = on then true else if opCode = off then false else up s

def openLever : Lever queueOp where
  on := queueOpen
  off := queueClosed
  ne := by decide
  up s := has s queueStatOpen
  up_op opCode s := by
    unfold queueOp
    split_ifs
    · exact has_or_self s (by decide)
    · exact has_and_not_self s _
    · exact has_or_other s rfl
    · exact has_and_not_other s rfl
    · rfl

def activeLever : Lever queueOp where
  on := queueActivate
  off := queueInactivate
  ne := by decide
  up s := has s queueStatActive
  up_op opCode s := by
    unfold queueOp
    by_cases h₁ : opCode = queueOpen
    · subst h₁
      exact has_or_other s rfl
    · by_cases h₂ : opCode = queueClosed
      · subst h₂
        exact has_and_not_other s rfl
      · rw [if_neg h₁, if_neg h₂]
        split_ifs
        · exact has_or_self s (by decide)
        · exact has_and_not_self s _
        · rfl

def hostLever : Lever hostOp where
  on := hostOpen
  off := hostClose
  ne := by decide
  up s := !has s hostStatDisabled
  up_op opCode s := by
    unfold hostOp
    split_ifs
    · simp [has_and_not_self]
    · simp [has_or_self s (show hostStatDisabled ≠ 0#32 by decide)]
    · rfl

variable {s : Status} {rs : List (CtrlLog N)}

section Kept

variable {op : Int → Status → Status} (l : Lever op)

/-- The last operation on the lever. -/
def Lever.lastOp (rs : List (CtrlLog N)) : Option Int :=
  ((rs.map CtrlLog.opCode).filter fun c => c = l.on ∨ c = l.off).getLast?

/-- The last operation decides. -/
theorem Lever.up_after (s : Status) (rs : List (CtrlLog N)) :
    l.up (statusAfter op s rs) =
      match l.lastOp rs with
      | none => l.up s
      | some c => decide (c = l.on) := by
  induction rs using List.reverseRecOn with
  | nil => rfl
  | append_singleton rs r ih =>
    have hstep : statusAfter op s (rs ++ [r]) = op r.opCode (statusAfter op s rs) :=
      foldl_concat ..
    rw [hstep, l.up_op, ih]
    unfold Lever.lastOp
    rw [map_append, filter_append]
    by_cases hon : r.opCode = l.on
    · simp [hon]
    · by_cases hoff : r.opCode = l.off
      · simp [hoff, l.ne.symm]
      · simp [hon, hoff]

/-- Events that never raise the lever. -/
theorem Lever.up_after_of_lower (hrs : ∀ r ∈ rs, r.opCode ≠ l.on)
    (s : Status) :
    l.up (statusAfter op s rs) = true ↔ l.up s = true ∧ ∀ r ∈ rs, r.opCode ≠ l.off := by
  induction rs generalizing s with
  | nil => simp [statusAfter]
  | cons r rs ih =>
    obtain ⟨hr, hrest⟩ := forall_mem_cons.mp hrs
    have hstep := ih hrest (op r.opCode s)
    rw [l.up_op, if_neg hr] at hstep
    show l.up (statusAfter op (op r.opCode s) rs) = true ↔ _
    rw [hstep, forall_mem_cons]
    by_cases hoff : r.opCode = l.off
    · simp [hoff]
    · simp [hoff]

/-- A lever that starts up and ends down was lowered. -/
theorem Lever.exists_lowered (hs : l.up s = true)
    (hend : l.up (statusAfter op s rs) = false) : ∃ r ∈ rs, r.opCode = l.off := by
  rw [l.up_after] at hend
  cases hlast : l.lastOp rs with
  | none =>
    rw [hlast] at hend
    exact absurd (hs.symm.trans hend) (by decide)
  | some c =>
    rw [hlast] at hend
    obtain ⟨hmem, hc⟩ := mem_filter.mp (mem_of_getLast? hlast)
    obtain ⟨r, hr, rfl⟩ := mem_map.mp hmem
    simp only [decide_eq_true_eq, decide_eq_false_iff_not] at hc hend
    exact ⟨r, hr, hc.resolve_left hend⟩

/-- The records `written` for a name when the events `rs` are: for each lever that is down now, one
that lowers it if one of the events did. -/
structure Compacts (s : Status) (rs written : List (CtrlLog N)) : Prop where
  never : ∀ r ∈ written, r.opCode ≠ l.on
  lowers : (∃ r ∈ written, r.opCode = l.off) ↔
    (∃ r ∈ rs, r.opCode = l.off) ∧ l.up (statusAfter op s rs) = false

/-- **The lever is kept unless it starts down and was raised last.** -/
theorem Lever.up_kept_iff {written : List (CtrlLog N)} (h : Compacts l s rs written) :
    l.up (statusAfter op s written) = l.up (statusAfter op s rs) ↔
      l.up s = true ∨ l.lastOp rs ≠ some l.on := by
  have hwritten := l.up_after_of_lower h.never s
  have hlow : (∀ r ∈ written, r.opCode ≠ l.off) ↔ ¬ ∃ r ∈ written, r.opCode = l.off := by simp
  rw [hlow, h.lowers] at hwritten
  have hlast := l.up_after s rs
  cases hend : l.up (statusAfter op s rs) with
  | true =>
    -- Nothing is written, so the lever is where it starts.
    have hnow : l.up (statusAfter op s written) = true ↔ l.up s = true := by
      simpa [hend] using hwritten
    rw [hnow]
    refine ⟨Or.inl, fun hor => hor.elim id fun hne => ?_⟩
    rw [hend] at hlast
    cases hop : l.lastOp rs with
    | none => simpa [hop] using hlast.symm
    | some c => simp_all
  | false =>
    have hdown : l.up (statusAfter op s written) = false := by
      by_contra hup
      obtain ⟨hs, hnot⟩ := hwritten.mp (by simpa using hup)
      exact hnot ⟨l.exists_lowered hs hend, hend⟩
    refine ⟨fun _ => .inr fun hop => ?_, fun _ => hdown⟩
    rw [hop, hend] at hlast
    simp at hlast

end Kept

/-! ## Comments -/

theorem commentAfter_eq_none_iff (rs : List (CtrlLog N)) :
    commentAfter none rs = none ↔ ∀ r ∈ rs.getLast?, r.msg = "" := by
  induction rs using List.reverseRecOn with
  | nil => simp [commentAfter]
  | append_singleton rs r _ =>
    have hlast : commentAfter none (rs ++ [r]) = comment r.msg := foldl_concat ..
    rw [hlast, List.getLast?_concat, comment]
    split_ifs with hmsg <;> simp [hmsg]

/-- **Records without a comment keep a comment only if there is none.** -/
theorem comment_kept_iff {written : List (CtrlLog N)} (h : ∀ r ∈ written, r.msg = "") :
    commentAfter none written = commentAfter none rs ↔ ∀ r ∈ rs.getLast?, r.msg = "" := by
  have hnone : commentAfter none written = none :=
    (commentAfter_eq_none_iff written).mpr fun r hr => h r (mem_of_getLast? hr)
  rw [hnone, ← commentAfter_eq_none_iff, eq_comm]

/-! ## The tables -/

section Tables

variable [DecidableEq N] (live : N → Option Controlled) (events : List (CtrlLog N))

/-- The event lowers a lever that is down now. -/
def LowersNow {op : Int → Status → Status} (l : Lever op) (live : N → Option Controlled)
    (r : CtrlLog N) : Prop :=
  ∃ o, live r.name = some o ∧ r.opCode = l.off ∧ l.up o.status = false

theorem names_tableUpdate (tab : List (CtrlLog N)) (r : CtrlLog N) (n : N) :
    n ∈ (tableUpdate tab r).map CtrlLog.name ↔ n ∈ tab.map CtrlLog.name ∨ r.name = n := by
  unfold tableUpdate
  split_ifs with hr
  · have hnames : (tab.map fun e => if e.name = r.name then r else e).map CtrlLog.name =
        tab.map CtrlLog.name := by
      rw [map_map]
      refine map_congr_left fun e _ => ?_
      by_cases he : e.name = r.name <;> simp [he]
    rw [hnames]
    refine ⟨Or.inl, fun h => h.elim id fun hn => hn ▸ hr⟩
  · simp [eq_comm (a := n)]

variable {op : Int → Status → Status}

/-- A table that is updated by the events that lower a lever now has the names of those. -/
theorem names_foldl {σ : Type} (l : Lever op) (tab : σ → List (CtrlLog N))
    {save : σ → CtrlLog N → σ}
    (hsave : ∀ t r, tab (save t r) =
      match live r.name with
      | none => tab t
      | some o =>
        if r.opCode = l.off ∧ l.up o.status = false then tableUpdate (tab t) r else tab t)
    (t : σ) (ht : tab t = []) (n : N) :
    n ∈ (tab (events.foldl save t)).map CtrlLog.name ↔
      ∃ r ∈ events, LowersNow l live r ∧ r.name = n := by
  suffices hrun : ∀ t, n ∈ (tab (events.foldl save t)).map CtrlLog.name ↔
      n ∈ (tab t).map CtrlLog.name ∨ ∃ r ∈ events, LowersNow l live r ∧ r.name = n by
    simp [hrun, ht]
  induction events with
  | nil => simp
  | cons r events ih =>
    intro t
    have hstep : n ∈ (tab (save t r)).map CtrlLog.name ↔
        n ∈ (tab t).map CtrlLog.name ∨ (LowersNow l live r ∧ r.name = n) := by
      rw [hsave, LowersNow]
      cases live r.name with
      | none => simp
      | some o =>
        dsimp only
        split_ifs with hlow
        · rw [names_tableUpdate]
          simp [hlow]
        · simp [hlow]
    rw [foldl_cons, ih, hstep]
    simp [or_assoc]

theorem closed_names (n : N) :
    n ∈ (events.foldl (saveQueueCtrlEvent live) ⟨[], []⟩).closed.map CtrlLog.name ↔
      ∃ r ∈ events, LowersNow openLever live r ∧ r.name = n := by
  refine names_foldl live events openLever QueueTables.closed (fun t r => ?_) _ rfl n
  unfold saveQueueCtrlEvent
  cases live r.name <;> rfl

theorem inactive_names (n : N) :
    n ∈ (events.foldl (saveQueueCtrlEvent live) ⟨[], []⟩).inactive.map CtrlLog.name ↔
      ∃ r ∈ events, LowersNow activeLever live r ∧ r.name = n := by
  refine names_foldl live events activeLever QueueTables.inactive (fun t r => ?_) _ rfl n
  unfold saveQueueCtrlEvent
  cases live r.name <;> rfl

theorem host_names (n : N) :
    n ∈ (events.foldl (saveHostCtrlEvent live) []).map CtrlLog.name ↔
      ∃ r ∈ events, LowersNow hostLever live r ∧ r.name = n := by
  refine names_foldl live events hostLever id (fun t r => ?_) _ rfl n
  unfold saveHostCtrlEvent
  cases live r.name with
  | none => rfl
  | some h => simp [hostLever]

variable {status : N → Option Status} {n : N}

/-- The events of a name that lower a lever now, when the levers are where the events left them. -/
theorem exists_lowersNow (l : Lever op)
    {events : List (CtrlLog N)}
    (hs : status n = some s) :
    (∃ r ∈ events, LowersNow l (events.foldl (replayCtrl op)
        fun n => (status n).map (⟨·, none⟩)) r ∧ r.name = n) ↔
      (∃ r ∈ mine n events, r.opCode = l.off) ∧
        l.up (statusAfter op s (mine n events)) = false := by
  have hlive := replayCtrl_at op (fun n => (status n).map (⟨·, none⟩)) events n
  rw [hs] at hlive
  constructor
  · intro hex
    obtain ⟨r, hr, ⟨o, ho, hop, hlow⟩, rfl⟩ := hex
    rw [hlive] at ho
    cases ho
    exact ⟨⟨r, mem_filter.mpr ⟨hr, by simp⟩, hop⟩, hlow⟩
  · intro hex
    obtain ⟨⟨r, hr, hop⟩, hlow⟩ := hex
    obtain ⟨hmem, hn⟩ := mem_filter.mp hr
    have hn : r.name = n := by simpa using hn
    exact ⟨r, hmem, ⟨_, by rw [hn]; exact hlive, hop, hlow⟩, hn⟩

/-! ## The records written -/

/-- The records of the name that are written for the entries of a table. -/
def rewritten (each : List (CtrlLog N) → List (CtrlLog N)) (opCode : Int) (n : N)
    (tab : List (CtrlLog N)) : List (CtrlLog N) :=
  mine n ((each tab).map (logStatusAtSwitch opCode))

theorem of_mem_rewritten {each : List (CtrlLog N) → List (CtrlLog N)} {opCode : Int}
    {tab : List (CtrlLog N)} {r : CtrlLog N} (hr : r ∈ rewritten each opCode n tab) :
    r.opCode = opCode ∧ r.msg = "" := by
  obtain ⟨e, _, rfl⟩ := mem_map.mp (mem_filter.mp hr).1
  exact ⟨rfl, rfl⟩

theorem exists_mem_rewritten {each : List (CtrlLog N) → List (CtrlLog N)}
    (heach : ∀ tab, (each tab).Perm tab) (opCode : Int) (n : N) (tab : List (CtrlLog N)) :
    (∃ r, r ∈ rewritten each opCode n tab) ↔ n ∈ tab.map CtrlLog.name := by
  simp [rewritten, mine, (heach tab).mem_iff, logStatusAtSwitch]

theorem mine_switchQueueCtrl (each : List (CtrlLog N) → List (CtrlLog N)) (n : N) :
    mine n (switchQueueCtrl each live events) =
      rewritten each queueClosed n (events.foldl (saveQueueCtrlEvent live) ⟨[], []⟩).closed ++
        rewritten each queueInactivate n
          (events.foldl (saveQueueCtrlEvent live) ⟨[], []⟩).inactive :=
  filter_append ..

/-- Records that lower the lever, with others that are not about it. -/
theorem Compacts.of_mem {l : Lever op}
    {written lowering : List (CtrlLog N)} (hlow : ∀ r ∈ lowering, r.opCode = l.off)
    (hsub : lowering ⊆ written)
    (hother : ∀ r ∈ written, r ∉ lowering → r.opCode ≠ l.on ∧ r.opCode ≠ l.off)
    (hex : (∃ r, r ∈ lowering) ↔
      (∃ r ∈ rs, r.opCode = l.off) ∧ l.up (statusAfter op s rs) = false) :
    Compacts l s rs written where
  never r hr := by
    by_cases hmem : r ∈ lowering
    · exact hlow r hmem ▸ l.ne.symm
    · exact (hother r hr hmem).1
  lowers := by
    rw [← hex]
    constructor
    · intro h
      obtain ⟨r, hr, hoff⟩ := h
      by_contra hno
      exact (hother r hr fun hmem => hno ⟨r, hmem⟩).2 hoff
    · intro h
      obtain ⟨r, hr⟩ := h
      exact ⟨r, hsub hr, hlow r hr⟩

/-! ## Queues and hosts -/

/-- What the configuration has for each name, with no comment. -/
def configured (status : N → Option Status) : N → Option Controlled :=
  fun n => (status n).map (⟨·, none⟩)

/-- What a switch should keep of a queue: its two bits and its comment. -/
def queueState (q : Controlled) : Bool × Bool × Option String :=
  (has q.status queueStatOpen, has q.status queueStatActive, q.actionComment)

def hostState (h : Controlled) : Bool × Option String :=
  (has h.status hostStatDisabled, h.actionComment)

/-- The last event of a queue or host has no comment. -/
def Silent (rs : List (CtrlLog N)) : Prop := ∀ r ∈ rs.getLast?, r.msg = ""

/-- The lever starts up, or the last operation on it is not the one that raises it. -/
def Settled {op : Int → Status → Status} (l : Lever op) (s : Status) (rs : List (CtrlLog N)) :
    Prop :=
  l.up s = true ∨ l.lastOp rs ≠ some l.on

variable {each : List (CtrlLog N) → List (CtrlLog N)}

theorem queue_survives_iff (heach : ∀ tab, (each tab).Perm tab)
    (events : List (CtrlLog N)) (hs : status n = some s) :
    ((switchQueueCtrl each (events.foldl replayQc (configured status)) events).foldl replayQc
        (configured status) n).map queueState =
      (events.foldl replayQc (configured status) n).map queueState ↔
      Silent (mine n events) ∧ Settled openLever s (mine n events) ∧
        Settled activeLever s (mine n events) := by
  set live := events.foldl replayQc (configured status)
  set written := mine n (switchQueueCtrl each live events) with hwritten
  rw [mine_switchQueueCtrl] at hwritten
  have hopen : Compacts openLever s (mine n events) written := by
    refine .of_mem (fun r hr => (of_mem_rewritten hr).1) (hwritten ▸ subset_append_left _ _)
      (fun r hr hnot => ?_) ?_
    · rw [hwritten] at hr
      rw [(of_mem_rewritten ((mem_append.mp hr).resolve_left hnot)).1]
      decide
    · exact (exists_mem_rewritten heach ..).trans ((closed_names ..).trans (exists_lowersNow _ hs))
  have hactive : Compacts activeLever s (mine n events) written := by
    refine .of_mem (fun r hr => (of_mem_rewritten hr).1) (hwritten ▸ subset_append_right _ _)
      (fun r hr hnot => ?_) ?_
    · rw [hwritten] at hr
      rw [(of_mem_rewritten ((mem_append.mp hr).resolve_right hnot)).1]
      decide
    · exact (exists_mem_rewritten heach ..).trans
        ((inactive_names ..).trans (exists_lowersNow _ hs))
  have hsilent : ∀ r ∈ written, r.msg = "" := by
    intro r hr
    rw [hwritten] at hr
    exact (mem_append.mp hr).elim (fun h => (of_mem_rewritten h).2)
      fun h => (of_mem_rewritten h).2
  have hstart : configured status n = some ⟨s, none⟩ := by simp [configured, hs]
  rw [Silent, ← comment_kept_iff hsilent, Settled, ← openLever.up_kept_iff hopen, Settled,
    ← activeLever.up_kept_iff hactive]
  simp only [replayQc, replayCtrl_at, hstart, Option.map_some, Option.some.injEq, queueState,
    Prod.mk.injEq, live]
  exact ⟨fun h => ⟨h.2.2, h.1, h.2.1⟩, fun h => ⟨h.2.1, h.2.2, h.1⟩⟩

theorem host_survives_iff (heach : ∀ tab, (each tab).Perm tab)
    (events : List (CtrlLog N)) (hs : status n = some s) :
    ((switchHostCtrl each (events.foldl replayHostcontrol (configured status)) events).foldl
        replayHostcontrol (configured status) n).map hostState =
      (events.foldl replayHostcontrol (configured status) n).map hostState ↔
      Silent (mine n events) ∧ Settled hostLever s (mine n events) := by
  set live := events.foldl replayHostcontrol (configured status)
  set written := mine n (switchHostCtrl each live events)
  have hhost : Compacts hostLever s (mine n events) written :=
    .of_mem (fun r hr => (of_mem_rewritten hr).1) (List.Subset.refl _)
      (fun r hr hnot => absurd hr hnot)
      ((exists_mem_rewritten heach ..).trans ((host_names ..).trans (exists_lowersNow _ hs)))
  have hstart : configured status n = some ⟨s, none⟩ := by simp [configured, hs]
  rw [Silent, ← comment_kept_iff fun r hr => (of_mem_rewritten hr).2, Settled,
    ← hostLever.up_kept_iff hhost]
  simp only [replayHostcontrol, replayCtrl_at, hstart, Option.map_some, Option.some.injEq,
    hostState, Prod.mk.injEq, hostLever, Bool.not_inj_iff, live]
  exact and_comm

/-- **The state of the queues and hosts survives a switch** exactly when none of them ends with a
comment, no queue that starts closed or inactive was opened or activated last, and no host that
starts disabled was opened last. -/
theorem control_survives_iff (heach : ∀ tab, (each tab).Perm tab)
    (queues hosts : N → Option Status) (queueEvents hostEvents : List (CtrlLog N)) :
    ((∀ n, ((switchQueueCtrl each (queueEvents.foldl replayQc (configured queues))
          queueEvents).foldl replayQc (configured queues) n).map queueState =
        (queueEvents.foldl replayQc (configured queues) n).map queueState) ∧
      ∀ n, ((switchHostCtrl each (hostEvents.foldl replayHostcontrol (configured hosts))
          hostEvents).foldl replayHostcontrol (configured hosts) n).map hostState =
        (hostEvents.foldl replayHostcontrol (configured hosts) n).map hostState) ↔
      (∀ n s, queues n = some s → Silent (mine n queueEvents) ∧
        Settled openLever s (mine n queueEvents) ∧ Settled activeLever s (mine n queueEvents)) ∧
      ∀ n s, hosts n = some s →
        Silent (mine n hostEvents) ∧ Settled hostLever s (mine n hostEvents) := by
  refine and_congr (forall_congr' fun n => ?_) (forall_congr' fun n => ?_)
  · cases hn : queues n with
    | none => simp [replayQc, replayCtrl_at, configured, hn]
    | some s => simpa using queue_survives_iff heach queueEvents hn
  · cases hn : hosts n with
    | none => simp [replayHostcontrol, replayCtrl_at, configured, hn]
    | some s => simpa using host_survives_iff heach hostEvents hn

end Tables

/-- Two queues that start open and active are closed, made inactive, closed and opened, and one of
two hosts is closed. -/
def queueEvents : List (CtrlLog Bool) :=
  [⟨10, queueClosed, true, 0, "root", ""⟩, ⟨11, queueInactivate, false, 0, "root", ""⟩,
    ⟨12, queueClosed, false, 0, "root", ""⟩, ⟨13, queueOpen, false, 0, "root", ""⟩]

def hostEvents : List (CtrlLog Bool) := [⟨14, hostClose, false, 0, "root", ""⟩]

theorem control_survives_reversed :
    (∀ n s, (fun _ : Bool => some (queueStatOpen ||| queueStatActive)) n = some s →
        Silent (mine n queueEvents) ∧ Settled openLever s (mine n queueEvents) ∧
        Settled activeLever s (mine n queueEvents)) ∧
      ∀ n s, (fun _ : Bool => some (0 : Status)) n = some s →
        Silent (mine n hostEvents) ∧ Settled hostLever s (mine n hostEvents) :=
  (@control_survives_iff Bool _ List.reverse List.reverse_perm _ _ _ _).mp (by decide)

/-- A queue that is closed with a comment loses the comment. -/
theorem comment_lost_at_switch :
    let events : List (CtrlLog Unit) := [⟨10, queueClosed, (), 0, "root", "disk full"⟩]
    let queues := configured fun _ : Unit => some (queueStatOpen ||| queueStatActive)
    let live := events.foldl replayQc queues
    (live ()).map queueState = some (false, true, some "disk full") ∧
      ((switchQueueCtrl id live events).foldl replayQc queues ()).map queueState =
        some (false, true, none) := by
  decide

end Volclava.Ctrl
