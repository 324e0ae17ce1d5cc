import Volclava.QueryClients

/-!
# Who holds a client of the query daemon

A client belongs to the main thread until its request is handed to a worker and again when the
worker marks it finished. The worker marks it two statements too early: it still writes the kind of
the request and the time into the record, which the main thread may have freed by then.

- `Qmbd.Inv`: each request is held by the main thread, one queue or one worker, and the records in
  use are live.
- `Qmbd.safe_of_undisturbed`: no run in which no client is freed between these statements uses or
  frees anything twice.
-/

namespace Volclava

open Lifetime Function List

/-! ## What is live in each phase of a request -/

namespace Prep

def buf : Prep → Life
  | .freeCtx => .freed
  | _ => .live

def xdr : Prep → Life
  | .allocXdr => .fresh
  | .freeBuf none => .fresh
  | .freeBuf (some _) => .freed
  | .freeCtx => .freed
  | _ => .live

def ctx : Prep → Life
  | .allocXdr | .header | .allocCtx => .fresh
  | .destroyXdr f | .freeXdr f | .freeBuf (some f) => if f = .queue then .live else .fresh
  | .freeBuf none => .fresh
  | _ => .live

end Prep

namespace Stage

def buf : Stage → Life
  | .setFinished | .setReqType | .setLastTime | .freeCtx => .freed
  | _ => .live

def xdr : Stage → Life
  | .freeBuf | .setFinished | .setReqType | .setLastTime | .freeCtx => .freed
  | _ => .live

/-- The client has not been marked finished. -/
def busy : Stage → Bool
  | .setReqType | .setLastTime | .freeCtx => false
  | _ => true

/-- The client has been marked finished and is still written to. -/
def late : Stage → Bool
  | .setReqType | .setLastTime => true
  | _ => false

end Stage

namespace Phase

variable {W : Type}

def buf : Phase W → Life
  | .fresh => .fresh
  | .main p => p.buf
  | .queued => .live
  | .work _ st => st.buf
  | .done _ _ => .freed

def xdr : Phase W → Life
  | .fresh => .fresh
  | .main p => p.xdr
  | .queued => .live
  | .work _ st => st.xdr
  | .done b _ => if b then .freed else .fresh

def ctx : Phase W → Life
  | .fresh => .fresh
  | .main p => p.ctx
  | .queued | .work _ _ => .live
  | .done _ b => if b then .freed else .fresh

def busy : Phase W → Bool
  | .main _ | .queued => true
  | .work _ st => st.busy
  | _ => false

def late : Phase W → Bool
  | .work _ st => st.late
  | _ => false

/-- No worker has taken the request yet. -/
def waits : Phase W → Bool
  | .main _ | .queued => true
  | _ => false

end Phase

namespace MainPc

/-- The request that the main thread has. -/
def req : MainPc → Option (Prep × Nat)
  | .prep p r _ _ => some (p, r)
  | _ => none

/-- The client that the main thread has come to, while it is in the list. -/
def cur : MainPc → Option Nat
  | .test c _ | .testConnected c _ | .shut .chanClose c _ | .shut .offList c _ | .start c _
  | .conn c _ | .dequeue c _ | .prep _ _ c _ | .finish _ c _ | .stamp c _ => some c
  | _ => none

/-- A client that is not in the list, yet or any more. -/
def unlinked : MainPc → Option Nat
  | .link c | .shut .freeHost c _ | .shut .free c _ => some c
  | _ => none

def todo : MainPc → List Nat
  | .idle | .link _ => []
  | .next t | .test _ t | .testConnected _ t | .shut _ _ t | .start _ t | .conn _ t | .dequeue _ t
  | .prep _ _ _ t | .finish _ _ t | .stamp _ t => t

/-- The client that is being shut down. -/
def shuts : MainPc → Option Nat
  | .shut _ c _ => some c
  | _ => none

/-- The client that is about to be served. -/
def starts : MainPc → Option Nat
  | .start c _ => some c
  | _ => none

/-- The client whose request is about to be taken. -/
def serves : MainPc → Option Nat
  | .conn c _ | .dequeue c _ => some c
  | _ => none

/-- The client that is about to be freed. -/
def frees : MainPc → Option Nat
  | .shut .free c _ => some c
  | _ => none

/-- The client that the main thread is about to mark finished. -/
def finishes : MainPc → Option Nat
  | .finish _ c _ => some c
  | _ => none

end MainPc

namespace Qmbd

variable {W : Type}

/-! ## The invariant -/

/-- Requests: what is allocated for them and who has them. -/
structure ReqInv (s : Qmbd W) : Prop where
  buf : ∀ r, s.mem.life (.buf r) = (s.phase r).buf
  xdr : ∀ r, s.mem.life (.xdr r) = (s.phase r).xdr
  ctx : ∀ r, s.mem.life (.ctx r) = (s.phase r).ctx
  fresh : ∀ r, s.phase r = .fresh ↔ s.numReqs ≤ r
  worker : ∀ w st r, s.worker w = some (st, r) ↔ s.phase r = .work w st
  queue : ∀ p r, r ∈ s.queue p ↔ s.phase r = .queued ∧ poolOf (s.kind r) = p
  queueNodup : ∀ p, (s.queue p).Nodup
  main : ∀ p r, s.main.req = some (p, r) ↔ s.phase r = .main p

/-- A request of the client is not over. -/
def Working (s : Qmbd W) (c : Nat) : Prop := ∃ r, (s.phase r).busy = true ∧ s.client r = c

end Qmbd

/-- The main thread may be at the statement `pc`, given the list of clients, their states and
which of them have a request that is not over. -/
structure Place (clients : List Nat) (state : Nat → ClientState) (working : Nat → Prop)
    (pc : MainPc) : Prop where
  cur : ∀ c, pc.cur = some c → c ∈ clients
  todo : ∀ c ∈ pc.todo, c ∈ clients ∧ pc.cur ≠ some c
  nodup : pc.todo.Nodup
  starts : ∀ c, pc.starts = some c → state c = .connected
  serves : ∀ c, pc.serves = some c → state c = .processing
  shuts : ∀ c, pc.shuts = some c → state c ≠ .processing
  finishes : ∀ c, pc.finishes = some c → ¬ working c

variable {queue : Pool → List Nat} {r c : Nat} {x : Nat} {pool : Pool}

namespace Qmbd

variable {W : Type} {ph : Phase W}

/-- Clients: which are live, where the main thread is with them, and which requests they have. -/
structure CliInv (s : Qmbd W) : Prop where
  live : ∀ c, s.mem.life (.client c) = .live ↔ c ∈ s.clientList ∨ s.main.unlinked = some c
  new : ∀ c, s.numClients ≤ c → s.mem.life (.client c) = .fresh
  bound : ∀ r < s.numReqs, s.client r < s.numClients
  listNodup : s.clientList.Nodup
  unlinked : ∀ c, s.main.unlinked = some c → c ∉ s.clientList
  place : Place s.clientList s.state s.Working s.main
  req : ∀ p r, s.main.req = some (p, r) → s.main.cur = some (s.client r)
  once : ∀ r < s.numReqs, ∀ r' < s.numReqs, s.client r = s.client r' → r = r'
  unserved : ∀ c, s.state c = .connected ∨ s.main.serves = some c → ∀ r < s.numReqs, s.client r ≠ c
  busy : ∀ r, (s.phase r).busy = true →
    s.client r ∈ s.clientList ∧ s.state (s.client r) = .processing
  late : ∀ r, (s.phase r).late = true → s.mem.life (.client (s.client r)) = .live
  handed : ∀ c, s.handed c ≤ 1
  unhanded : ∀ c, (∀ r < s.numReqs, s.client r ≠ c) → s.handed c = 0
  waits : ∀ r, (s.phase r).waits = true → s.handed (s.client r) = 0

structure Inv (s : Qmbd W) : Prop extends ReqInv s, CliInv s where
  fault : s.mem.fault = false

theorem inv_init : (init : Qmbd W).Inv where
  buf _ := rfl
  xdr _ := rfl
  ctx _ := rfl
  fresh r := by simp [init]
  worker w st r := by simp [init]
  queue p r := by simp [init]
  queueNodup p := nodup_nil
  main p r := by simp [init, MainPc.req]
  live c := by simp [init, Mem.init, MainPc.unlinked]
  new c _ := rfl
  bound r h := by simp [init] at h
  listNodup := nodup_nil
  unlinked c h := by simp [init, MainPc.unlinked] at h
  place := by
    refine ⟨?_, ?_, nodup_nil, ?_, ?_, ?_, ?_⟩ <;> intro c hc <;> simp [init, MainPc.cur,
      MainPc.todo, MainPc.starts, MainPc.serves, MainPc.shuts, MainPc.finishes] at hc
  req p r h := by simp [init, MainPc.req] at h
  once r h := by simp [init] at h
  unserved c _ r h := by simp [init] at h
  busy r h := by simp [init, Phase.busy] at h
  late r h := by simp [init, Phase.late] at h
  handed c := Nat.zero_le 1
  unhanded c _ := rfl
  waits r h := rfl
  fault := rfl

/-! ## One request changes hands -/

variable {s : Qmbd W} {phase : Nat → Phase W}

/-- After one request has changed its phase: what holds of a phase holds of the new one, or held
before. -/
theorem of_update (f : Phase W → Bool)
    (hx : f (Function.update phase r ph x) = true) :
    (x = r ∧ f ph = true) ∨ (x ≠ r ∧ f (phase x) = true) := by
  by_cases hxr : x = r
  · rw [hxr, update_self] at hx
    exact .inl ⟨hxr, hx⟩
  · rw [update_of_ne hxr] at hx
    exact .inr ⟨hxr, hx⟩

/-- A request with a phase that is not the first has been taken. -/
theorem lt_of_flag (hfresh : ∀ r, s.phase r = .fresh ↔ s.numReqs ≤ r) {f : Phase W → Bool}
    (hf : f .fresh = false) (hr : f (s.phase r) = true) : r < s.numReqs := by
  by_contra hge
  rw [(hfresh r).mpr (Nat.le_of_not_lt hge), hf] at hr
  cases hr

/-- After the phase `ph` the phase `ph'` asks no more of the client. -/
structure Eases (ph ph' : Phase W) : Prop where
  busy : ph'.busy = true → ph.busy = true
  late : ph'.late = true → ph.late = true ∨ ph.busy = true
  waits : ph'.waits = true → ph.waits = true

theorem Eases.update (h : Eases (phase r) ph)
    (x : Nat) : Eases (phase x) (Function.update phase r ph x) :=
  (forall_update_iff phase fun x => Eases (phase x)).mpr
    ⟨h, fun _ _ => ⟨id, .inl, id⟩⟩ x

/-- What is allocated for the request `r` is what the phase says. -/
structure LivesAs (m : Mem QObj) (r : Nat) (ph : Phase W) : Prop where
  buf : m.life (.buf r) = ph.buf
  xdr : m.life (.xdr r) = ph.xdr
  ctx : m.life (.ctx r) = ph.ctx

theorem ReqInv.livesAs (h : s.ReqInv) (r : Nat) : LivesAs s.mem r (s.phase r) :=
  ⟨h.buf r, h.xdr r, h.ctx r⟩

section Objects

variable {m : Mem QObj} {r : Nat} {ph ph' : Phase W} {l : Life} {b : Bool} (h : LivesAs m r ph)
include h

theorem LivesAs.congr (hb : ph'.buf = ph.buf) (hx : ph'.xdr = ph.xdr) (hc : ph'.ctx = ph.ctx) :
    LivesAs m r ph' := ⟨h.buf.trans hb.symm, h.xdr.trans hx.symm, h.ctx.trans hc.symm⟩

theorem LivesAs.set_buf (hb : ph'.buf = l) (hx : ph'.xdr = ph.xdr) (hc : ph'.ctx = ph.ctx) :
    LivesAs ⟨Function.update m.life (.buf r) l, b⟩ r ph' := by
  refine ⟨?_, ?_, ?_⟩
  · simp [hb]
  · simp [h.xdr, hx]
  · simp [h.ctx, hc]

theorem LivesAs.set_xdr (hb : ph'.buf = ph.buf) (hx : ph'.xdr = l) (hc : ph'.ctx = ph.ctx) :
    LivesAs ⟨Function.update m.life (.xdr r) l, b⟩ r ph' := by
  refine ⟨?_, ?_, ?_⟩
  · simp [h.buf, hb]
  · simp [hx]
  · simp [h.ctx, hc]

theorem LivesAs.set_ctx (hb : ph'.buf = ph.buf) (hx : ph'.xdr = ph.xdr) (hc : ph'.ctx = l) :
    LivesAs ⟨Function.update m.life (.ctx r) l, b⟩ r ph' := by
  refine ⟨?_, ?_, ?_⟩
  · simp [h.buf, hb]
  · simp [h.xdr, hx]
  · simp [hc]

end Objects

variable {m : Mem QObj} {pc : MainPc} {state : Nat → ClientState}

theorem livesAs_update (hself : LivesAs m r ph)
    (hother : ∀ x, x ≠ r → LivesAs m x (phase x)) (x : Nat) :
    LivesAs m x (Function.update phase r ph x) :=
  (forall_update_iff phase fun x => LivesAs m x).mpr ⟨hself, hother⟩ x

theorem ReqInv.of_livesAs (hlives : ∀ r, LivesAs s.mem r (s.phase r))
    (fresh : ∀ r, s.phase r = .fresh ↔ s.numReqs ≤ r)
    (worker : ∀ w st r, s.worker w = some (st, r) ↔ s.phase r = .work w st)
    (queue : ∀ p r, r ∈ s.queue p ↔ s.phase r = .queued ∧ poolOf (s.kind r) = p)
    (queueNodup : ∀ p, (s.queue p).Nodup)
    (main : ∀ p r, s.main.req = some (p, r) ↔ s.phase r = .main p) : s.ReqInv :=
  ⟨fun r => (hlives r).buf, fun r => (hlives r).xdr, fun r => (hlives r).ctx, fresh, worker, queue,
    queueNodup, main⟩

/-- Nothing but the objects of the request `r` differs. -/
structure OnlyReq (r : Nat) (m m' : Mem QObj) : Prop where
  other : ∀ x, x ≠ r → ∀ ph : Phase W, LivesAs m x ph → LivesAs m' x ph
  client : ∀ c, m'.life (.client c) = m.life (.client c)

theorem OnlyReq.refl (r : Nat) (m : Mem QObj) : OnlyReq (W := W) r m m :=
  ⟨fun _ _ _ h => h, fun _ => rfl⟩

theorem onlyReq_set {o : QObj} (ho : o = .buf r ∨ o = .xdr r ∨ o = .ctx r) (m : Mem QObj)
    (l : Life) (b : Bool) : OnlyReq (W := W) r m ⟨Function.update m.life o l, b⟩ := by
  constructor
  · intro x hx ph h
    refine ⟨?_, ?_, ?_⟩
    · refine (update_of_ne ?_ ..).trans h.buf
      rcases ho with rfl | rfl | rfl <;> simp [hx]
    · refine (update_of_ne ?_ ..).trans h.xdr
      rcases ho with rfl | rfl | rfl <;> simp [hx]
    · refine (update_of_ne ?_ ..).trans h.ctx
      rcases ho with rfl | rfl | rfl <;> simp [hx]
  · intro c
    refine update_of_ne ?_ ..
    rcases ho with rfl | rfl | rfl <;> simp

/-- The main thread goes on with the request it has, hands it over or gives it up. -/
theorem ReqInv.prep (h : s.ReqInv) {p : Prep} (hm : s.main.req = some (p, r))
    (hself : LivesAs m r ph)
    (hother : ∀ x, x ≠ r → LivesAs m x (s.phase x)) (hnew : ph ≠ .fresh ∧ ∀ w st, ph ≠ .work w st)
    (hpc : ∀ p' x, pc.req = some (p', x) ↔ x = r ∧ ph = .main p')
    (hq : ∀ p x, x ∈ queue p ↔ x ∈ s.queue p ∨ (x = r ∧ ph = .queued ∧ poolOf (s.kind r) = p))
    (hnd : ∀ p, (queue p).Nodup) :
    ReqInv { s with
      mem := m, queue := queue, main := pc, phase := Function.update s.phase r ph } := by
  obtain ⟨h1, h2, h3, h4, h5, h6, h7, h8⟩ := h
  have hph := (h8 p r).mp hm
  refine .of_livesAs (livesAs_update hself hother) ?_ ?_ ?_ hnd ?_ <;> grind [update_apply]

/-- The main thread takes a new request. -/
theorem ReqInv.create (h : s.ReqInv) (hm : s.main.req = none) {p : Prep} {client : Nat → Nat}
    {kind : ReqKind} (hself : LivesAs m s.numReqs (.main p : Phase W))
    (hother : ∀ x, x ≠ s.numReqs → LivesAs m x (s.phase x)) (hpc : pc.req = some (p, s.numReqs)) :
    ReqInv { s with
      mem := m, main := pc, client := client
      kind := Function.update s.kind s.numReqs kind
      numReqs := s.numReqs + 1, phase := Function.update s.phase s.numReqs (.main p) } := by
  obtain ⟨h1, h2, h3, h4, h5, h6, h7, h8⟩ := h
  have hph := (h4 s.numReqs).mpr le_rfl
  refine .of_livesAs (livesAs_update hself hother) ?_ ?_ ?_ h7 ?_ <;> grind [update_apply]

variable [DecidableEq W] in
/-- A worker goes on with its request, or is through with it. -/
theorem ReqInv.work (h : s.ReqInv) {w : W} {st : Stage} (hw : s.worker w = some (st, r))
    {pc : Option (Stage × Nat)} (hself : LivesAs m r ph)
    (hother : ∀ x, x ≠ r → LivesAs m x (s.phase x))
    (hph : (∃ st', pc = some (st', r) ∧ ph = .work w st') ∨ (pc = none ∧ ∃ x y, ph = .done x y)) :
    ReqInv { s with
      mem := m, state := state, phase := Function.update s.phase r ph
      worker := Function.update s.worker w pc } := by
  obtain ⟨h1, h2, h3, h4, h5, h6, h7, h8⟩ := h
  have hph0 := (h5 w st r).mp hw
  refine .of_livesAs (livesAs_update hself hother) ?_ ?_ ?_ h7 ?_ <;> grind [update_apply]

variable [DecidableEq W] in
/-- A worker takes a request from the queue. -/
theorem ReqInv.take (h : s.ReqInv) {w : W} {rs : List Nat}
    (hw : s.worker w = none) (hq : s.queue pool = r :: rs) {handed : Nat → Nat} :
    ReqInv { s with
      queue := Function.update s.queue pool rs
      handed := handed
      phase := Function.update s.phase r (.work w .dispatch)
      worker := Function.update s.worker w (some (.dispatch, r)) } := by
  have hlives := h.livesAs
  obtain ⟨h1, h2, h3, h4, h5, h6, h7, h8⟩ := h
  have hph := (h6 pool r).mp (by rw [hq]; exact mem_cons_self ..)
  have hself : LivesAs s.mem r (.work w .dispatch : Phase W) :=
    (hph.1 ▸ hlives r).congr rfl rfl rfl
  have hnd := h7 pool
  rw [hq, nodup_cons] at hnd
  refine .of_livesAs (livesAs_update hself fun x _ => hlives x) ?_ ?_ ?_ ?_ ?_ <;>
    grind [update_apply]

/-- The requests stay where they are. -/
theorem ReqInv.keep (h : s.ReqInv) {clients : List Nat} {n : Nat}
    (hm : ∀ r, LivesAs m r (s.phase r)) (hreq : pc.req = s.main.req) :
    ReqInv { s with
      mem := m, state := state, clientList := clients, main := pc, numClients := n } := by
  refine .of_livesAs hm h.fresh h.worker h.queue h.queueNodup fun p r => ?_
  show pc.req = some (p, r) ↔ s.phase r = .main p
  rw [hreq, h.main]

/-! ## The clients stay where they are -/

/-- Clients keep their place when no more requests are in work than before. -/
theorem CliInv.keep (h : s.CliInv) {worker : W → Option (Stage × Nat)}
    (hmem : ∀ c, m.life (.client c) = s.mem.life (.client c))
    (hconn : ∀ c, state c = .connected → s.state c = .connected)
    (hease : ∀ r, Eases (s.phase r) (phase r))
    (hbusy : ∀ r, (phase r).busy = true → state (s.client r) = s.state (s.client r))
    (hun : pc.unlinked = s.main.unlinked)
    (hserves : ∀ c, pc.serves = some c → ∀ r < s.numReqs, s.client r ≠ c)
    (hreq : ∀ p r, pc.req = some (p, r) → pc.cur = some (s.client r))
    (hplace : Place s.clientList state (fun c => ∃ r, (phase r).busy = true ∧ s.client r = c) pc) :
    CliInv { s with
      mem := m, state := state, queue := queue, main := pc, worker := worker, phase := phase } where
  live c := by
    show m.life _ = _ ↔ _ ∨ pc.unlinked = _
    rw [hmem, hun]
    exact h.live c
  new c hc := (hmem c).trans (h.new c hc)
  bound := h.bound
  listNodup := h.listNodup
  unlinked c hc := h.unlinked c (hun ▸ hc)
  place := hplace
  req := hreq
  once := h.once
  unserved c hc := hc.elim (fun hc => h.unserved c (.inl (hconn c hc))) (hserves c)
  busy r hr := by
    obtain ⟨hin, hproc⟩ := h.busy r ((hease r).busy hr)
    exact ⟨hin, (hbusy r hr).trans hproc⟩
  late r hr := by
    show m.life _ = _
    rw [hmem]
    rcases (hease r).late hr with hl | hb
    · exact h.late r hl
    · exact (h.live _).mpr (.inl (h.busy r hb).1)
  handed := h.handed
  unhanded := h.unhanded
  waits r hr := h.waits r ((hease r).waits hr)

theorem use_of_live {o : QObj} (h : s.mem.life o = .live) : s.use o = s := by
  unfold use
  rw [Mem.use_of_live h]

variable {st : ClientState}

theorem state_setState_self : (s.setState c st).state c = st :=
  update_self ..

theorem state_setState_of_ne (hx : x ≠ c) :
    (s.setState c st).state x = s.state x := update_of_ne hx ..

theorem connected_of_setState (hst : st ≠ .connected)
    (hx : (s.setState c st).state x = .connected) : s.state x = .connected := by
  by_cases heq : x = c
  · rw [heq, state_setState_self] at hx
    exact absurd hx hst
  · rwa [state_setState_of_ne heq] at hx

section

variable (h : s.Inv)
include h

theorem Inv.live_of_mem (hc : c ∈ s.clientList) :
    s.mem.life (.client c) = .live := (h.live c).mpr (.inl hc)

theorem Inv.live_of_cur (hc : s.main.cur = some c) :
    s.mem.life (.client c) = .live := h.live_of_mem (h.place.cur c hc)

/-- The client that the main thread has come to may be used. -/
theorem Inv.use_cur (hm : s.main = pc) (hc : pc.cur = some c) :
    s.use (.client c) = s := use_of_live (h.live_of_cur (hm ▸ hc))

theorem Inv.live_of_unlinked (hc : s.main.unlinked = some c) :
    s.mem.life (.client c) = .live := (h.live c).mpr (.inr hc)

/-- A request that is not over has been taken before. -/
theorem Inv.lt_of_busy (hr : (s.phase r).busy = true) : r < s.numReqs :=
  lt_of_flag h.fresh rfl hr

theorem Inv.not_working (hc : ∀ r < s.numReqs, s.client r ≠ c) :
    ¬ s.Working c := fun ⟨r, hr, hrc⟩ => hc r (h.lt_of_busy hr) hrc

/-- The main thread goes on to another statement, without a request and with the same client out of
the list. It may have changed the state of a client that has no request. -/
theorem Inv.move (hreq : s.main.req = none) (hreq' : pc.req = none)
    (hun : pc.unlinked = s.main.unlinked)
    (hserves : ∀ c, pc.serves = some c → ∀ r < s.numReqs, s.client r ≠ c)
    (hconn : ∀ c, state c = .connected → s.state c = .connected)
    (hproc : ∀ c, s.Working c → state c = s.state c)
    (hplace : Place s.clientList state s.Working pc) :
    ({ s with state := state, main := pc } : Qmbd W).Inv where
  toReqInv := by
    refine { h with main := fun p r => ?_ }
    show pc.req = some (p, r) ↔ s.phase r = .main p
    rw [← h.main, hreq, hreq']
  toCliInv := by
    refine h.toCliInv.keep (fun _ => rfl) hconn (fun _ => ⟨id, .inl, id⟩)
      (fun r hr => hproc _ ⟨r, hr, rfl⟩) hun hserves (fun p r hp => ?_) hplace
    rw [hreq'] at hp
    cases hp
  fault := h.fault

theorem Inv.goto (hreq : s.main.req = none) (hreq' : pc.req = none)
    (hun : pc.unlinked = s.main.unlinked)
    (hserves : ∀ c, pc.serves = some c → s.main.serves = some c)
    (hplace : Place s.clientList s.state s.Working pc) : (s.goto pc).Inv :=
  h.move hreq hreq' hun (fun c hc => h.unserved c (.inr (hserves c hc))) (fun _ hc => hc)
    (fun _ _ => rfl) hplace

end

end Qmbd

namespace Place

variable {clients : List Nat} {state state' : Nat → ClientState} {working working' : Nat → Prop}
  {pc pc' : MainPc}

/-- A place outside the walk through the list. -/
theorem outside (hcur : pc.cur = none) (htodo : pc.todo = []) (hstarts : pc.starts = none)
    (hserves : pc.serves = none) (hshuts : pc.shuts = none) (hfin : pc.finishes = none) :
    Place clients state working pc := by
  refine ⟨?_, ?_, by rw [htodo]; exact nodup_nil, ?_, ?_, ?_, ?_⟩
  · simp [hcur]
  · simp [htodo]
  · simp [hstarts]
  · simp [hserves]
  · simp [hshuts]
  · simp [hfin]

/-- The place before the next client. -/
theorem next {todo : List Nat} (hmem : ∀ c ∈ todo, c ∈ clients) (hnd : todo.Nodup) :
    Place clients state working (.next todo) := by
  refine ⟨?_, fun c hc => ⟨hmem c hc, by simp [MainPc.cur]⟩, hnd, ?_, ?_, ?_, ?_⟩ <;>
    exact nofun

section

variable (h : Place clients state working pc)
include h

theorem next_of {todo : List Nat} (htodo : pc.todo = todo) :
    Place clients state' working' (.next todo) :=
  htodo ▸ next (fun c hc => (h.todo c hc).1) h.nodup

/-- Another statement about the same client. -/
theorem of_cur (hcur : pc'.cur = pc.cur)
    (htodo : pc'.todo = pc.todo) (hstarts : ∀ c, pc'.starts = some c → state' c = .connected)
    (hserves : ∀ c, pc'.serves = some c → state' c = .processing)
    (hshuts : ∀ c, pc'.shuts = some c → state' c ≠ .processing)
    (hfin : ∀ c, pc'.finishes = some c → ¬ working' c) : Place clients state' working' pc' where
  cur := by rw [hcur]; exact h.cur
  todo := by rw [hcur, htodo]; exact h.todo
  nodup := by rw [htodo]; exact h.nodup
  starts := hstarts
  serves := hserves
  shuts := hshuts
  finishes := hfin

/-- Fewer clients have a request that is not over. -/
theorem mono (hw : ∀ c, working' c → working c) :
    Place clients state working' pc :=
  { h with finishes := fun c hc hwc => h.finishes c hc (hw c hwc) }

/-- A client that is being served is marked finished. -/
theorem finished (hc : state c = .processing) (hserves : pc.serves ≠ some c) :
    Place clients (Function.update state c .finished) working pc := by
  refine { h with starts := ?_, serves := ?_, shuts := ?_ }
  · intro x hx
    have hst := h.starts x hx
    rwa [update_of_ne]
    rintro rfl
    rw [hc] at hst
    cases hst
  · intro x hx
    have hxc : x ≠ c := fun heq => hserves (by rw [← heq, hx])
    rw [update_of_ne hxc]
    exact h.serves x hx
  · intro x hx
    by_cases heq : x = c
    · rw [heq, update_self]
      decide
    · rw [update_of_ne heq]
      exact h.shuts x hx

end

end Place

namespace Qmbd

variable {W : Type} {s : Qmbd W} {ph : Phase W}

section Walk

variable (h : s.Inv) {c : Nat} {todo : List Nat} {pc pc' : MainPc}
include h

/-- The walk goes on with another statement about the same client. -/
theorem Inv.goto_cur (hm : s.main = pc) (hreq : pc.req = none) (hreq' : pc'.req = none)
    (hun : pc'.unlinked = pc.unlinked) (hcur : pc'.cur = pc.cur) (htodo : pc'.todo = pc.todo)
    (hstarts : ∀ c, pc'.starts = some c → s.state c = .connected)
    (hserves : ∀ c, pc'.serves = some c → pc.serves = some c)
    (hshuts : ∀ c, pc'.shuts = some c → s.state c ≠ .processing)
    (hfin : ∀ c, pc'.finishes = some c → ¬ s.Working c) : (s.goto pc').Inv := by
  subst hm
  exact h.goto hreq hreq' hun hserves (h.place.of_cur hcur htodo hstarts
    (fun c hc => h.place.serves c (hserves c hc)) hshuts hfin)

/-- The walk goes on to the next client. -/
theorem Inv.goto_next (hm : s.main = pc) (hreq : pc.req = none) (hun : pc.unlinked = none) :
    (s.goto (.next pc.todo)).Inv := by
  subst hm
  exact h.goto hreq rfl hun.symm nofun (h.place.next_of rfl)

theorem inv_next_cons (hm : s.main = .next (c :: todo)) :
    ((s.use (.client c)).goto (.test c todo)).Inv := by
  have hmem : ∀ x ∈ c :: todo, x ∈ s.clientList := fun x hx =>
    (h.place.todo x (by rw [hm]; exact hx)).1
  have hnd : (c :: todo).Nodup := by
    have := h.place.nodup
    rwa [hm] at this
  have hc := hmem c (mem_cons_self ..)
  rw [use_of_live (h.live_of_mem hc)]
  refine h.goto (by rw [hm]; rfl) rfl (by rw [hm]; rfl) nofun ?_
  refine ⟨?_, ?_, hnd.of_cons, ?_, ?_, ?_, ?_⟩
  · intro x hx
    obtain rfl := Option.some.inj hx
    exact hc
  · intro x hx
    refine ⟨hmem x (mem_cons_of_mem _ hx), fun heq => ?_⟩
    obtain rfl := Option.some.inj heq
    exact (nodup_cons.mp hnd).1 hx
  all_goals exact nofun

theorem inv_test (hm : s.main = .test c todo) (b : Bool) :
    ((s.use (.client c)).goto
      (if s.state c = .finished ∨ (b ∧ s.state c ≠ .processing) then .shut .chanClose c todo
        else .testConnected c todo)).Inv := by
  rw [h.use_cur hm rfl]
  split_ifs with ht
  · refine h.goto_cur hm rfl rfl rfl rfl rfl nofun nofun (fun x hx => ?_) nofun
    obtain rfl := Option.some.inj hx
    rcases ht with ht | ht
    · rw [ht]
      decide
    · exact ht.2
  · exact h.goto_cur hm rfl rfl rfl rfl rfl nofun nofun nofun nofun

theorem inv_testConnected (hm : s.main = .testConnected c todo) (b : Bool) :
    ((s.use (.client c)).goto
      (if s.state c = .connected ∧ b then .start c todo else .next todo)).Inv := by
  rw [h.use_cur hm rfl]
  split_ifs with ht
  · refine h.goto_cur hm rfl rfl rfl rfl rfl (fun x hx => ?_) nofun nofun nofun
    obtain rfl := Option.some.inj hx
    exact ht.1
  · exact h.goto_next hm rfl rfl

theorem inv_chanClose (hm : s.main = .shut .chanClose c todo) :
    ((s.use (.client c)).goto (.shut .offList c todo)).Inv := by
  rw [h.use_cur hm rfl]
  refine h.goto_cur hm rfl rfl rfl rfl rfl nofun nofun (fun x hx => ?_) nofun
  exact h.place.shuts x (by rw [hm]; exact hx)

theorem inv_freeHost (hm : s.main = .shut .freeHost c todo) :
    ((s.use (.client c)).goto (.shut .free c todo)).Inv := by
  rw [use_of_live (h.live_of_unlinked (by rw [hm]; rfl))]
  refine h.goto_cur hm rfl rfl rfl rfl rfl nofun nofun (fun x hx => ?_) nofun
  exact h.place.shuts x (by rw [hm]; exact hx)

theorem inv_start (hm : s.main = .start c todo) :
    (((s.use (.client c)).setState c .processing).goto (.conn c todo)).Inv := by
  have hconn : s.state c = .connected := h.place.starts c (by rw [hm]; rfl)
  have hno := h.unserved c (.inl hconn)
  rw [h.use_cur hm rfl]
  refine h.move (by rw [hm]; rfl) rfl (by rw [hm]; rfl) ?_
    (fun x => connected_of_setState (by decide)) ?_ ?_
  · intro x hx
    obtain rfl := Option.some.inj hx
    exact hno
  · intro x hx
    refine state_setState_of_ne fun heq => ?_
    exact h.not_working hno (heq ▸ hx)
  · refine h.place.of_cur (by rw [hm]; rfl) (by rw [hm]; rfl) nofun (fun x hx => ?_) nofun nofun
    obtain rfl := Option.some.inj hx
    exact update_self ..

theorem inv_conn (hm : s.main = .conn c todo) :
    ((s.use (.client c)).goto (.dequeue c todo)).Inv := by
  rw [h.use_cur hm rfl]
  exact h.goto_cur hm rfl rfl rfl rfl rfl nofun (fun _ hx => hx) nofun nofun

theorem inv_dequeue_fails (hm : s.main = .dequeue c todo) :
    (s.goto (.finish false c todo)).Inv := by
  have hno := h.unserved c (.inr (by rw [hm]; rfl))
  refine h.goto_cur hm rfl rfl rfl rfl rfl nofun nofun nofun (fun x hx => ?_)
  obtain rfl := Option.some.inj hx
  exact h.not_working hno

theorem inv_finish {b : Bool} (hm : s.main = .finish b c todo) :
    (((s.use (.client c)).setState c .finished).goto
      (if b then .stamp c todo else .next todo)).Inv := by
  have hno : ¬ s.Working c := h.place.finishes c (by rw [hm]; rfl)
  rw [h.use_cur hm rfl]
  refine h.move (by rw [hm]; rfl) (by split_ifs <;> rfl) (by rw [hm]; split_ifs <;> rfl) ?_
    (fun x => connected_of_setState (by decide)) ?_ ?_
  · intro x hx
    split_ifs at hx <;> cases hx
  · exact fun x hx => state_setState_of_ne fun heq => hno (heq ▸ hx)
  · split_ifs
    · exact h.place.of_cur (by rw [hm]; rfl) (by rw [hm]; rfl) nofun nofun nofun nofun
    · exact h.place.next_of (by rw [hm]; rfl)

theorem inv_stamp (hm : s.main = .stamp c todo) :
    ((s.use (.client c)).goto (.next todo)).Inv := by
  rw [h.use_cur hm rfl]
  exact h.goto_next hm rfl rfl

end Walk

/-! ## Statements that change the list of clients -/

variable {m : Mem QObj}

theorem LivesAs.update_client (h : LivesAs m r ph) (c : Nat)
    (l : Life) (b : Bool) : LivesAs ⟨Function.update m.life (.client c) l, b⟩ r ph := by
  refine ⟨?_, ?_, ?_⟩
  · simp [h.buf]
  · simp [h.xdr]
  · simp [h.ctx]

variable {c : Nat} {todo : List Nat}

theorem life_update_client {life : QObj → Life} (hx : x ≠ c) (l : Life) :
    Function.update life (.client c) l (.client x) = life (.client x) :=
  update_of_ne (by simpa using hx) ..

section

variable (h : s.CliInv)
include h

theorem CliInv.lt_of_live (hc : s.mem.life (.client c) = .live) :
    c < s.numClients := by
  by_contra hge
  rw [h.new c (Nat.le_of_not_lt hge)] at hc
  cases hc

theorem CliInv.live_of_busy (hr : (s.phase r).busy = true) :
    s.mem.life (.client (s.client r)) = .live := (h.live _).mpr (.inl (h.busy r hr).1)

theorem CliInv.accept (hm : s.main = .idle) (b : Bool) :
    CliInv { s with
      mem := ⟨Function.update s.mem.life (.client s.numClients) .live, b⟩
      state := Function.update s.state s.numClients .connected
      main := .link s.numClients
      numClients := s.numClients + 1 } := { h with
  live c := by
    by_cases hc : c = s.numClients
    · simp [hc, MainPc.unlinked]
    · have hlive := h.live c
      rw [hm] at hlive
      simpa [hc, Ne.symm hc, MainPc.unlinked] using hlive
  new c hc :=
    (life_update_client (Nat.lt_of_succ_le hc).ne' _).trans (h.new c (Nat.le_of_succ_le hc))
  bound r hr := Nat.lt_succ_of_lt (h.bound r hr)
  unlinked c hc hmem := by
    obtain rfl := Option.some.inj hc
    exact lt_irrefl _ (h.lt_of_live ((h.live _).mpr (.inl hmem)))
  place := .outside rfl rfl rfl rfl rfl rfl
  req p r hp := by cases hp
  unserved c hc r hr hrc := by
    by_cases heq : c = s.numClients
    · exact absurd (hrc.trans heq) (h.bound r hr).ne
    · rcases hc with hc | hc
      · exact h.unserved c (.inl ((update_of_ne heq ..).symm.trans hc)) r hr hrc
      · cases hc
  busy r hr := by
    have hne := (h.lt_of_live (h.live_of_busy hr)).ne
    exact ⟨(h.busy r hr).1, (update_of_ne hne ..).trans (h.busy r hr).2⟩
  late r hr := (life_update_client (h.lt_of_live (h.late r hr)).ne _).trans (h.late r hr) }

theorem CliInv.link (hm : s.main = .link c) :
    CliInv { s with clientList := s.clientList ++ [c], main := .idle } := { h with
  live x := by
    have hlive := h.live x
    rw [hm] at hlive
    simpa [MainPc.unlinked, eq_comm] using hlive
  listNodup := by
    simpa using h.listNodup.concat (h.unlinked c (by rw [hm]; rfl))
  unlinked x hx := by cases hx
  place := .outside rfl rfl rfl rfl rfl rfl
  req p r hp := by cases hp
  unserved x hx := by
    exact h.unserved x (.inl (hx.resolve_right nofun))
  busy r hr := ⟨mem_append_left _ (h.busy r hr).1, (h.busy r hr).2⟩ }

theorem CliInv.offList (hm : s.main = .shut .offList c todo) :
    CliInv { s with clientList := s.clientList.erase c, main := .shut .freeHost c todo } := by
  have hc : c ∈ s.clientList := h.place.cur c (by rw [hm]; rfl)
  have hst : s.state c ≠ .processing := h.place.shuts c (by rw [hm]; rfl)
  have hmem : ∀ x, x ∈ s.clientList.erase c ↔ x ≠ c ∧ x ∈ s.clientList := fun x =>
    h.listNodup.mem_erase_iff
  have htodo : ∀ x ∈ todo, x ∈ s.clientList.erase c := by
    intro x hx
    obtain ⟨hx, hne⟩ := h.place.todo x (by rw [hm]; exact hx)
    rw [hm] at hne
    exact (hmem x).mpr ⟨fun heq => hne (congrArg some heq.symm), hx⟩
  have hnd : todo.Nodup := by
    have := h.place.nodup
    rwa [hm] at this
  exact { h with
    live x := by
      show _ ↔ x ∈ s.clientList.erase c ∨ some c = some x
      have hlive := h.live x
      rw [hm] at hlive
      rw [hlive, hmem]
      by_cases hxc : x = c
      · simp [hxc, hc, MainPc.unlinked]
      · simp [hxc, Ne.symm hxc, MainPc.unlinked]
    listNodup := h.listNodup.erase c
    unlinked x hx hmem' := by
      obtain rfl := Option.some.inj hx
      exact ((hmem c).mp hmem').1 rfl
    place := by
      refine ⟨nofun, fun x hx => ⟨htodo x hx, nofun⟩, hnd, nofun, nofun, fun x hx => ?_, nofun⟩
      obtain rfl := Option.some.inj hx
      exact hst
    req := nofun
    unserved x hx := h.unserved x (.inl (hx.resolve_right nofun))
    busy r hr := by
      obtain ⟨hin, hproc⟩ := h.busy r hr
      exact ⟨(hmem _).mpr ⟨fun heq => hst (heq ▸ hproc), hin⟩, hproc⟩ }

/-- The record of a client is freed. No worker may be about to write to it. -/
theorem CliInv.free (hm : s.main = .shut .free c todo)
    (hlate : ∀ r, (s.phase r).late = true → s.client r ≠ c) (b : Bool) :
    CliInv { s with
      mem := ⟨Function.update s.mem.life (.client c) .freed, b⟩, main := .next todo } := { h with
  live x := by
    have hno : c ∉ s.clientList := h.unlinked c (by rw [hm]; rfl)
    have hlive := h.live x
    rw [hm] at hlive
    by_cases hxc : x = c
    · simp [hxc, hno, MainPc.unlinked]
    · simpa [hxc, Ne.symm hxc, MainPc.unlinked] using hlive
  new x hx := by
    have hlive := (h.live c).mpr (.inr (by rw [hm]; rfl))
    exact (life_update_client ((h.lt_of_live hlive).trans_le hx).ne' _).trans (h.new x hx)
  unlinked x hx := by cases hx
  place := h.place.next_of (by rw [hm]; rfl)
  req p r hp := by cases hp
  unserved x hx := by
    exact h.unserved x (.inl (hx.resolve_right nofun))
  late r hr := (life_update_client (hlate r hr) _).trans (h.late r hr) }

/-- The main thread takes a new request of the client. -/
theorem CliInv.create (hfresh : ∀ r, s.phase r = .fresh ↔ s.numReqs ≤ r)
    (hm : s.main = .dequeue c todo)
    (hmem : ∀ c, m.life (.client c) = s.mem.life (.client c)) (kind : Nat → ReqKind) (p : Prep) :
    CliInv { s with
      mem := m
      client := Function.update s.client s.numReqs c
      kind := kind
      main := .prep p s.numReqs c todo
      numReqs := s.numReqs + 1
      phase := Function.update s.phase s.numReqs (.main p) } := by
  have hc : c ∈ s.clientList := h.place.cur c (by rw [hm]; rfl)
  have hst : s.state c = .processing := h.place.serves c (by rw [hm]; rfl)
  have hno := h.unserved c (.inr (by rw [hm]; rfl))
  have hlive := (h.live c).mpr (.inl hc)
  -- An old request, or the new one.
  have hold : ∀ r, r < s.numReqs → Function.update s.client s.numReqs c r = s.client r :=
    fun r hr => update_of_ne hr.ne ..
  have hnew : Function.update s.client s.numReqs c s.numReqs = c := update_self ..
  constructor
  case live =>
    intro x
    have hx := h.live x
    rw [hm] at hx
    exact hmem x ▸ hx
  case new => exact fun x hx => (hmem x).trans (h.new x hx)
  case bound =>
    intro r hr
    rcases Nat.lt_succ_iff_lt_or_eq.mp hr with hr | rfl
    · exact (hold r hr).trans_lt (h.bound r hr)
    · exact hnew.trans_lt (h.lt_of_live hlive)
  case listNodup => exact h.listNodup
  case unlinked => exact nofun
  case place =>
    exact h.place.of_cur (by rw [hm]; rfl) (by rw [hm]; rfl) nofun nofun nofun nofun
  case req =>
    intro q r hq
    injection hq with hq
    injection hq with _ hr
    subst hr
    exact congrArg some hnew.symm
  case once =>
    intro r hr r' hr' heq
    have heq : Function.update s.client s.numReqs c r =
        Function.update s.client s.numReqs c r' := heq
    rcases Nat.lt_succ_iff_lt_or_eq.mp hr with hr | rfl <;>
      rcases Nat.lt_succ_iff_lt_or_eq.mp hr' with hr' | rfl
    · rw [hold r hr, hold r' hr'] at heq
      exact h.once r hr r' hr' heq
    · rw [hold r hr, hnew] at heq
      exact absurd heq (hno r hr)
    · rw [hold r' hr', hnew] at heq
      exact absurd heq.symm (hno r' hr')
    · rfl
  case unserved =>
    intro x hx r hr
    rcases hx with hx | hx
    · show Function.update s.client s.numReqs c r ≠ x
      rcases Nat.lt_succ_iff_lt_or_eq.mp hr with hr | rfl
      · rw [hold r hr]
        exact h.unserved x (.inl hx) r hr
      · rw [hnew]
        rintro rfl
        have hx : s.state c = .connected := hx
        rw [hst] at hx
        cases hx
    · cases hx
  case busy =>
    intro r hr
    show Function.update s.client s.numReqs c r ∈ _ ∧
      s.state (Function.update s.client s.numReqs c r) = _
    rcases of_update Phase.busy hr with ⟨rfl, -⟩ | ⟨-, hr⟩
    · rw [hnew]
      exact ⟨hc, hst⟩
    · rw [hold r (lt_of_flag hfresh rfl hr)]
      exact h.busy r hr
  case late =>
    intro r hr
    show m.life (.client (Function.update s.client s.numReqs c r)) = _
    rcases of_update Phase.late hr with ⟨-, hr⟩ | ⟨-, hr⟩
    · cases hr
    · rw [hold r (lt_of_flag hfresh rfl hr), hmem]
      exact h.late r hr
  case handed => exact h.handed
  case unhanded =>
    intro x hx
    refine h.unhanded x fun r hr hrx => hx r (Nat.lt_succ_of_lt hr) ?_
    exact (hold r hr).trans hrx
  case waits =>
    intro r hr
    show s.handed (Function.update s.client s.numReqs c r) = 0
    rcases of_update Phase.waits hr with ⟨rfl, -⟩ | ⟨-, hr⟩
    · rw [hnew]
      exact h.unhanded c hno
    · rw [hold r (lt_of_flag hfresh rfl hr)]
      exact h.waits r hr

end

/-! ## Requests in the main thread -/

section Prep

variable (h : s.Inv) {p : Prep} {r c : Nat} {todo : List Nat} (hm : s.main = .prep p r c todo)
include h hm

theorem client_of_prep : s.client r = c := by
  have hreq := h.req p r (by rw [hm]; rfl)
  rw [hm] at hreq
  exact (Option.some.inj hreq).symm

theorem phase_of_prep : s.phase r = .main p := (h.main p r).mp (by rw [hm]; rfl)

theorem livesAs_of_prep : LivesAs s.mem r (.main p : Phase W) :=
  phase_of_prep h hm ▸ h.toReqInv.livesAs r

theorem eases_of_prep (ph : Phase W) (x : Nat) :
    Eases (s.phase x) (Function.update s.phase r ph x) := by
  refine .update ?_ x
  rw [phase_of_prep h hm]
  exact ⟨fun _ => rfl, fun _ => .inr rfl, fun _ => rfl⟩

/-- The main thread goes on with its request, hands it over or gives it up. -/
theorem inv_prep {pc : MainPc}
    (hself : LivesAs m r ph) (hother : OnlyReq (W := W) r s.mem m) (hfault : m.fault = false)
    (hnew : ph ≠ .fresh ∧ ∀ w st, ph ≠ .work w st)
    (hpc : ∀ p' x, pc.req = some (p', x) ↔ x = r ∧ ph = .main p')
    (hq : ∀ p x, x ∈ queue p ↔ x ∈ s.queue p ∨ (x = r ∧ ph = .queued ∧ poolOf (s.kind r) = p))
    (hnd : ∀ p, (queue p).Nodup)
    (hun : pc.unlinked = none) (hserves : pc.serves = none)
    (hcur : ∀ p' x, pc.req = some (p', x) → pc.cur = some c)
    (hplace : Place s.clientList s.state
      (fun c => ∃ x, (Function.update s.phase r ph x).busy = true ∧ s.client x = c) pc) :
    ({ s with
      mem := m, queue := queue, main := pc
      phase := Function.update s.phase r ph } : Qmbd W).Inv := by
  refine ⟨h.toReqInv.prep (by rw [hm]; rfl) hself ?_ hnew hpc hq hnd, ?_, hfault⟩
  · exact fun x hx => hother.other x hx _ (h.toReqInv.livesAs x)
  refine h.toCliInv.keep hother.client (fun _ hc => hc) (eases_of_prep h hm ph) (fun _ _ => rfl)
    (by rw [hun, hm]; rfl) ?_ ?_ hplace
  · rw [hserves]
    exact nofun
  · intro p' x hx
    obtain ⟨rfl, -⟩ := (hpc p' x).mp hx
    rw [hcur p' x hx, client_of_prep h hm]

/-- The main thread goes on with the request. -/
theorem inv_prepare {p' : Prep} (hself : LivesAs m r (.main p' : Phase W))
    (hother : OnlyReq (W := W) r s.mem m) (hfault : m.fault = false) :
    (({ s with mem := m } : Qmbd W).prepare p' r c todo).Inv := by
  refine inv_prep h hm hself hother hfault ⟨by simp, by simp⟩ ?_ ?_ h.queueNodup rfl rfl
    (fun _ _ _ => rfl) ?_
  · intro q x
    simp [MainPc.req, eq_comm, and_comm]
  · intro q x
    show x ∈ s.queue q ↔ _
    simp
  · exact h.place.of_cur (by rw [hm]; rfl) (by rw [hm]; rfl) nofun nofun nofun nofun

/-- The main thread gives the request up. -/
theorem inv_giveUp {x y : Bool} (hself : LivesAs m r (.done x y : Phase W))
    (hother : OnlyReq (W := W) r s.mem m) (hfault : m.fault = false) (b : Bool) :
    ((({ s with mem := m } : Qmbd W).setPhase r (.done x y)).goto (.finish b c todo)).Inv := by
  refine inv_prep h hm hself hother hfault ⟨by simp, by simp⟩ ?_ ?_ h.queueNodup rfl rfl
    (fun _ _ _ => rfl) ?_
  · intro q z
    simp [MainPc.req]
  · intro q z
    show z ∈ s.queue q ↔ _
    simp
  · refine h.place.of_cur (by rw [hm]; rfl) (by rw [hm]; rfl) ?_ ?_ ?_ ?_
    case refine_4 =>
      rintro z hz ⟨r', hr', hrz⟩
      obtain rfl := Option.some.inj hz
      have hbusy := (eases_of_prep h hm _ r').busy hr'
      -- The request is the only one of its client.
      have heq : r' = r := h.once r' (h.lt_of_busy hbusy) r
        (h.lt_of_busy (by rw [phase_of_prep h hm]; rfl)) (hrz.trans (client_of_prep h hm).symm)
      rw [heq, update_self] at hr'
      cases hr'
    all_goals exact nofun

/-- The request is put into the queue of a pool. -/
theorem inv_enqueue (hp : p = .addTask) (hpool : poolOf (s.kind r) = pool) :
    ((({ s with queue := Function.update s.queue pool (s.queue pool ++ [r]) } : Qmbd W).setPhase r
      .queued).goto (.next todo)).Inv := by
  subst hp
  have hself := livesAs_of_prep h hm
  have hno : r ∉ s.queue pool := fun hq => by
    rw [h.queue, phase_of_prep h hm] at hq
    cases hq.1
  refine inv_prep h hm (hself.congr rfl rfl rfl) (.refl r _) h.fault ⟨by simp, by simp⟩ ?_ ?_ ?_ rfl
    rfl nofun ?_
  · intro q x
    simp [MainPc.req]
  · intro q x
    show x ∈ Function.update s.queue pool (s.queue pool ++ [r]) q ↔ _
    by_cases hq : q = pool
    · subst hq
      simp [hpool]
    · rw [update_of_ne hq]
      simp [hpool, Ne.symm hq]
  · exact (forall_update_iff s.queue fun _ => List.Nodup).mpr
      ⟨by simpa using (h.queueNodup pool).concat hno, fun q _ => h.queueNodup q⟩
  · exact h.place.next_of (by rw [hm]; rfl)

end Prep

/-! ## The main thread -/

theorem release_of_live {o : QObj} (h : s.mem.life o = .live) :
    s.release o = { s with mem := ⟨Function.update s.mem.life o .freed, s.mem.fault⟩ } := by
  unfold release
  rw [Mem.release_of_live h]

theorem inv_prepStep (h : s.Inv) {p : Prep} (hm : s.main = .prep p r c todo)
    (size : Pool → Nat) (ok : Bool) :
    (s.prepStep size ok r c todo p).Inv := by
  have hself := livesAs_of_prep h hm
  have hsame : OnlyReq (W := W) r s.mem s.mem := .refl r _
  have hbuf := onlyReq_set (W := W) (r := r) (o := .buf r) (by simp) s.mem
  have hxdr := onlyReq_set (W := W) (r := r) (o := .xdr r) (by simp) s.mem
  have hctx := onlyReq_set (W := W) (r := r) (o := .ctx r) (by simp) s.mem
  cases p with
  | allocXdr =>
    unfold prepStep
    split_ifs
    · exact inv_prepare h hm (hself.set_xdr rfl rfl rfl) (hxdr _ _) h.fault
    · exact inv_prepare h hm (hself.congr rfl rfl rfl) hsame h.fault
  | header =>
    unfold prepStep
    rw [use_of_live hself.xdr, use_of_live hself.buf]
    refine inv_prepare h hm ?_ hsame h.fault
    split_ifs <;> exact hself.congr rfl rfl rfl
  | allocCtx =>
    unfold prepStep
    split_ifs
    · exact inv_prepare h hm (hself.set_ctx rfl rfl rfl) (hctx _ _) h.fault
    · exact inv_prepare h hm (hself.congr rfl rfl rfl) hsame h.fault
  | fillCtx =>
    unfold prepStep
    rw [use_of_live hself.ctx]
    exact inv_prepare h hm (hself.congr rfl rfl rfl) hsame h.fault
  | addTask =>
    unfold prepStep
    dsimp only
    split_ifs
    · exact inv_enqueue h hm rfl rfl
    · exact inv_prepare h hm (hself.congr rfl rfl rfl) hsame h.fault
  | destroyXdr f =>
    unfold prepStep
    rw [use_of_live hself.xdr]
    exact inv_prepare h hm (hself.congr rfl rfl rfl) hsame h.fault
  | freeXdr f =>
    unfold prepStep
    rw [release_of_live hself.xdr]
    exact inv_prepare h hm (hself.set_xdr rfl rfl rfl) (hxdr _ _) h.fault
  | freeBuf f =>
    have hrel := release_of_live hself.buf
    rcases f with - | f
    · unfold prepStep
      rw [hrel]
      exact inv_giveUp h hm (hself.set_buf rfl rfl rfl) (hbuf _ _) h.fault false
    cases f with
    | header =>
      unfold prepStep
      rw [hrel]
      exact inv_giveUp h hm (hself.set_buf rfl rfl rfl) (hbuf _ _) h.fault false
    | ctx =>
      unfold prepStep
      rw [hrel]
      exact inv_giveUp h hm (hself.set_buf rfl rfl rfl) (hbuf _ _) h.fault true
    | queue =>
      unfold prepStep
      rw [hrel]
      exact inv_prepare h hm (hself.set_buf rfl rfl rfl) (hbuf _ _) h.fault
  | freeCtx =>
    unfold prepStep
    rw [release_of_live hself.ctx]
    exact inv_giveUp h hm (hself.set_ctx rfl rfl rfl) (hctx _ _) h.fault true

/-- The worker has marked the client finished and still writes to it. -/
def writesTo (s : Qmbd W) (w : W) (c : Nat) : Bool :=
  match s.worker w with
  | some (st, r) => st.late && s.client r = c
  | none => false

/-- No worker still writes to a client that the main thread is about to free. -/
def Undisturbed (s : Qmbd W) : Prop := ∀ c ∈ s.main.frees, ∀ w, s.writesTo w c = false

instance [Fintype W] (s : Qmbd W) : Decidable s.Undisturbed := by
  unfold Undisturbed; infer_instance

theorem Undisturbed.not_late (hu : s.Undisturbed) (h : s.Inv) (hm : s.main = .shut .free c todo)
    (r : Nat) (hr : (s.phase r).late = true) :
    s.client r ≠ c := by
  intro hc
  cases hph : s.phase r with
  | work w st =>
    have hno := hu c (by rw [hm]; rfl) w
    rw [hph] at hr
    have hst : st.late = true := hr
    simp [writesTo, (h.worker w st r).mpr hph, hst, hc] at hno
  | _ =>
    rw [hph] at hr
    cases hr

theorem inv_shutStep (h : s.Inv) {st : ShutStage} (hm : s.main = .shut st c todo)
    (hu : s.Undisturbed) : (s.shutStep c todo st).Inv := by
  cases st with
  | chanClose => exact inv_chanClose h hm
  | offList =>
    unfold shutStep
    rw [h.use_cur hm rfl]
    exact ⟨h.toReqInv.keep h.toReqInv.livesAs (by rw [hm]; rfl), h.toCliInv.offList hm, h.fault⟩
  | freeHost => exact inv_freeHost h hm
  | free =>
    unfold shutStep
    rw [release_of_live (h.live_of_unlinked (by rw [hm]; rfl))]
    exact ⟨h.toReqInv.keep (fun r => (h.toReqInv.livesAs r).update_client c _ _) (by rw [hm]; rfl),
      h.toCliInv.free hm (hu.not_late h hm) _, h.fault⟩

theorem inv_dequeue (h : s.Inv) (hm : s.main = .dequeue c todo) (kind : ReqKind) :
    ({ s.alloc (.buf s.numReqs) with
      client := Function.update s.client s.numReqs c
      kind := Function.update s.kind s.numReqs kind
      numReqs := s.numReqs + 1 }.prepare .allocXdr s.numReqs c todo).Inv := by
  have hfresh := (h.fresh s.numReqs).mpr le_rfl
  have hself : LivesAs s.mem s.numReqs (.fresh : Phase W) := hfresh ▸ h.toReqInv.livesAs s.numReqs
  have honly := onlyReq_set (W := W) (r := s.numReqs) (o := .buf s.numReqs) (by simp) s.mem .live
    s.mem.fault
  refine ⟨h.toReqInv.create (by rw [hm]; rfl) (hself.set_buf rfl rfl rfl) ?_ rfl,
    h.toCliInv.create h.fresh hm honly.client _ _, h.fault⟩
  exact fun x hx => honly.other x hx _ (h.toReqInv.livesAs x)

/-- **A statement of the main thread** keeps the invariant. -/
theorem inv_mainStep (h : s.Inv) (hu : s.Undisturbed) (size : Pool → Nat) (ch : Choice) :
    (s.mainStep size ch).Inv := by
  unfold mainStep
  split
  next hm =>
    split_ifs
    · exact ⟨h.toReqInv.keep (fun r => (h.toReqInv.livesAs r).update_client _ _ _)
        (by rw [hm]; rfl), h.toCliInv.accept hm _, h.fault⟩
    · refine h.goto (by rw [hm]; rfl) rfl (by rw [hm]; rfl) nofun ?_
      exact .next (fun _ hc => hc) h.listNodup
  next c hm =>
    rw [use_of_live (h.live_of_unlinked (by rw [hm]; rfl))]
    exact ⟨h.toReqInv.keep h.toReqInv.livesAs (by rw [hm]; rfl), h.toCliInv.link hm, h.fault⟩
  next hm =>
    refine h.goto (by rw [hm]; rfl) rfl (by rw [hm]; rfl) nofun ?_
    exact .outside rfl rfl rfl rfl rfl rfl
  next c todo hm => exact inv_next_cons h hm
  next c todo hm => exact inv_test h hm ch.error
  next c todo hm => exact inv_testConnected h hm ch.read
  next st c todo hm => exact inv_shutStep h hm hu
  next c todo hm => exact inv_start h hm
  next c todo hm => exact inv_conn h hm
  next c todo hm =>
    split_ifs
    · exact inv_dequeue h hm ch.kind
    · exact inv_dequeue_fails h hm
  next p r c todo hm => exact inv_prepStep h hm size ch.ok
  next b c todo hm => exact inv_finish h hm
  next c todo hm => exact inv_stamp h hm

/-! ## The workers -/

variable [DecidableEq W]

section Work

variable (h : s.Inv) {w : W} {st : Stage} {r : Nat} (hw : s.worker w = some (st, r))
include h hw

omit [DecidableEq W] in
theorem phase_of_work : s.phase r = .work w st := (h.worker w st r).mp hw

omit [DecidableEq W] in
theorem livesAs_of_work : LivesAs s.mem r (.work w st : Phase W) :=
  phase_of_work h hw ▸ h.toReqInv.livesAs r

omit [DecidableEq W] in
theorem live_of_busy (hst : st.busy = true) : s.mem.life (.client (s.client r)) = .live :=
  h.live_of_mem (h.busy r (by rw [phase_of_work h hw]; exact hst)).1

omit [DecidableEq W] in
theorem live_of_late (hst : st.late = true) : s.mem.life (.client (s.client r)) = .live :=
  h.late r (by rw [phase_of_work h hw]; exact hst)

/-- A worker goes on with its request or is through with it. -/
theorem inv_work {pc : Option (Stage × Nat)}
    (hself : LivesAs m r ph) (hother : OnlyReq (W := W) r s.mem m) (hfault : m.fault = false)
    (hph : (∃ st', pc = some (st', r) ∧ ph = .work w st') ∨ (pc = none ∧ ∃ x y, ph = .done x y))
    (hbusy : ph.busy = true → st.busy = true)
    (hlate : ph.late = true → st.late = true ∨ st.busy = true) :
    ({ s with
      mem := m, phase := Function.update s.phase r ph
      worker := Function.update s.worker w pc } : Qmbd W).Inv := by
  have hease : Eases (s.phase r) ph := by
    rw [phase_of_work h hw]
    refine ⟨hbusy, hlate, fun hnew => ?_⟩
    rcases hph with ⟨st', -, rfl⟩ | ⟨-, y, z, rfl⟩ <;> cases hnew
  refine ⟨h.toReqInv.work hw hself ?_ hph, ?_, hfault⟩
  · exact fun x hx => hother.other x hx _ (h.toReqInv.livesAs x)
  refine h.toCliInv.keep hother.client (fun _ hc => hc) hease.update (fun _ _ => rfl) rfl
    (fun c hc => h.unserved c (.inr hc)) h.req (h.place.mono ?_)
  rintro c ⟨x, hx, hxc⟩
  exact ⟨x, (hease.update x).busy hx, hxc⟩

theorem inv_advance {st' : Stage} (hself : LivesAs m r (.work w st' : Phase W))
    (hother : OnlyReq (W := W) r s.mem m) (hfault : m.fault = false)
    (hbusy : st'.busy = true → st.busy = true)
    (hlate : st'.late = true → st.late = true ∨ st.busy = true) :
    (({ s with mem := m } : Qmbd W).advance w st' r).Inv :=
  inv_work h hw hself hother hfault (.inl ⟨st', rfl, rfl⟩) hbusy hlate

/-- The client is marked finished. -/
theorem inv_setFinished (hst : st = .setFinished) :
    ((s.setState (s.client r) .finished).advance w .setReqType r).Inv := by
  subst hst
  have hph0 := phase_of_work h hw
  have hbr : (s.phase r).busy = true := by rw [hph0]; rfl
  have hproc := (h.busy r hbr).2
  have hease : Eases (s.phase r) (.work w .setReqType) := ⟨nofun, fun _ => .inr hbr, nofun⟩
  have hother : ∀ x, (Function.update s.phase r (.work w .setReqType) x).busy = true →
      s.client x ≠ s.client r := by
    intro x hx
    rcases of_update Phase.busy hx with ⟨-, hx⟩ | ⟨hxr, hx⟩
    · cases hx
    · exact fun heq => hxr (h.once x (h.lt_of_busy hx) r (h.lt_of_busy hbr) heq)
  refine ⟨h.toReqInv.work hw ((livesAs_of_work h hw).congr rfl rfl rfl)
    (fun x _ => h.toReqInv.livesAs x) (.inl ⟨_, rfl, rfl⟩), ?_, h.fault⟩
  refine h.toCliInv.keep (fun _ => rfl) (fun c => connected_of_setState (by decide)) hease.update
    (fun x hx => state_setState_of_ne (hother x hx)) rfl (fun c hc => h.unserved c (.inr hc))
    h.req ?_
  refine (h.place.mono ?_).finished hproc fun hserves => ?_
  · rintro c ⟨x, hx, hxc⟩
    exact ⟨x, (hease.update x).busy hx, hxc⟩
  · exact h.unserved _ (.inr hserves) r (h.lt_of_busy hbr) rfl

/-- **A statement of a worker** keeps the invariant. -/
theorem inv_stageStep (more : Bool) : (s.stageStep w more r st).Inv := by
  have hself := livesAs_of_work h hw
  have hsame : OnlyReq (W := W) r s.mem s.mem := .refl r _
  cases st with
  | dispatch =>
    unfold stageStep
    rw [use_of_live hself.ctx]
    exact inv_advance h hw (hself.congr rfl rfl rfl) hsame h.fault (fun _ => rfl) nofun
  | handle =>
    have hcl := live_of_busy h hw rfl
    unfold stageStep
    dsimp only
    rw [use_of_live hself.ctx, use_of_live hcl, use_of_live hself.xdr, use_of_live hself.buf,
      ite_self]
    refine inv_advance h hw ?_ hsame h.fault (fun _ => rfl) ?_
    · split_ifs <;> exact hself.congr rfl rfl rfl
    · split_ifs <;> exact nofun
  | destroyXdr =>
    unfold stageStep
    rw [use_of_live hself.ctx, use_of_live hself.xdr]
    exact inv_advance h hw (hself.congr rfl rfl rfl) hsame h.fault (fun _ => rfl) nofun
  | freeXdr =>
    unfold stageStep
    rw [use_of_live hself.ctx, release_of_live hself.xdr]
    exact inv_advance h hw (hself.set_xdr rfl rfl rfl) (onlyReq_set (by simp) _ _ _) h.fault
      (fun _ => rfl) nofun
  | freeBuf =>
    unfold stageStep
    rw [use_of_live hself.ctx, release_of_live hself.buf]
    exact inv_advance h hw (hself.set_buf rfl rfl rfl) (onlyReq_set (by simp) _ _ _) h.fault
      (fun _ => rfl) nofun
  | setFinished =>
    unfold stageStep
    rw [use_of_live hself.ctx, use_of_live (live_of_busy h hw rfl)]
    exact inv_setFinished h hw rfl
  | setReqType =>
    unfold stageStep
    rw [use_of_live hself.ctx, use_of_live (live_of_late h hw rfl)]
    exact inv_advance h hw (hself.congr rfl rfl rfl) hsame h.fault nofun
      (fun _ => .inl rfl)
  | setLastTime =>
    unfold stageStep
    rw [use_of_live hself.ctx, use_of_live (live_of_late h hw rfl)]
    exact inv_advance h hw (hself.congr rfl rfl rfl) hsame h.fault nofun
      nofun
  | freeCtx =>
    unfold stageStep
    rw [release_of_live hself.ctx]
    exact inv_work h hw (hself.set_ctx rfl rfl rfl) (onlyReq_set (by simp) _ _ _) h.fault
      (.inr ⟨rfl, _, _, rfl⟩) nofun nofun

end Work

omit [DecidableEq W] in
theorem CliInv.take (h : s.CliInv) (hfresh : ∀ r, s.phase r = .fresh ↔ s.numReqs ≤ r) {w : W}
    (hph : s.phase r = .queued)
    {worker : W → Option (Stage × Nat)} :
    CliInv { s with
      queue := queue
      handed := Function.update s.handed (s.client r) (s.handed (s.client r) + 1)
      phase := Function.update s.phase r (.work w .dispatch)
      worker := worker } := by
  have hwaits : (s.phase r).waits = true := by rw [hph]; rfl
  have hr := lt_of_flag hfresh rfl hwaits
  have hb : ∀ x, (Function.update s.phase r (.work w .dispatch) x).busy = true →
      (s.phase x).busy = true := by
    intro x hx
    rcases of_update Phase.busy hx with ⟨rfl, -⟩ | ⟨-, hx⟩
    · rw [hph]
      rfl
    · exact hx
  have hplace : Place s.clientList s.state (fun c => ∃ x,
      (Function.update s.phase r (.work w .dispatch) x).busy = true ∧ s.client x = c) s.main :=
    h.place.mono fun c ⟨x, hx, hxc⟩ => ⟨x, hb x hx, hxc⟩
  refine ⟨h.live, h.new, h.bound, h.listNodup, h.unlinked, hplace, h.req, h.once, h.unserved,
    fun x hx => h.busy x (hb x hx), fun x hx => ?_, fun c => ?_, fun c hc => ?_, fun x hx => ?_⟩
  · rcases of_update Phase.late hx with ⟨-, hx⟩ | ⟨-, hx⟩
    · cases hx
    · exact h.late x hx
  · show Function.update s.handed (s.client r) (s.handed (s.client r) + 1) c ≤ 1
    by_cases heq : c = s.client r
    · rw [heq, update_self, h.waits r hwaits]
    · rw [update_of_ne heq]
      exact h.handed c
  · refine (update_of_ne (fun heq => hc r hr heq.symm) ..).trans (h.unhanded c hc)
  · rcases of_update Phase.waits hx with ⟨-, hx⟩ | ⟨hxr, hx⟩
    · cases hx
    · have hne : s.client x ≠ s.client r := fun heq =>
        hxr (h.once x (lt_of_flag hfresh rfl hx) r hr heq)
      exact (update_of_ne hne ..).trans (h.waits x hx)

/-- A worker takes a request from the queue. -/
theorem inv_take (h : s.Inv) {w : W} {rs : List Nat}
    (hw : s.worker w = none) (hq : s.queue pool = r :: rs) :
    (({ s with
      queue := Function.update s.queue pool rs
      handed := Function.update s.handed (s.client r) (s.handed (s.client r) + 1) } :
        Qmbd W).advance w .dispatch r).Inv := by
  have hph := ((h.queue pool r).mp (by rw [hq]; exact mem_cons_self ..)).1
  exact ⟨h.toReqInv.take hw hq, h.toCliInv.take h.fresh hph, h.fault⟩

theorem inv_workerStep (h : s.Inv) (pool : W → Pool) (w : W) (more : Bool) :
    (s.workerStep pool w more).Inv := by
  unfold workerStep
  split
  next st r hw => exact inv_stageStep h hw more
  next hw =>
    split
    · exact h
    next r rs hq => exact inv_take h hw hq

/-! ## Safety -/

/-- Nothing is used after it has been freed, and nothing is freed twice; a worker takes at most one
request of each client; and what is allocated and not freed is held by someone. -/
structure Safe (s : Qmbd W) : Prop where
  fault : s.mem.fault = false
  handed : ∀ c, s.handed c ≤ 1
  client : ∀ c, s.mem.life (.client c) = .live → c ∈ s.clientList ∨ s.main.unlinked = some c
  request : ∀ r, s.mem.life (.buf r) = .live ∨ s.mem.life (.xdr r) = .live ∨
      s.mem.life (.ctx r) = .live →
    (∃ p, s.main.req = some (p, r)) ∨ (∃ p, r ∈ s.queue p) ∨ ∃ w st, s.worker w = some (st, r)

omit [DecidableEq W] in
theorem Inv.safe (h : s.Inv) : s.Safe where
  fault := h.fault
  handed := h.handed
  client c hc := (h.live c).mp hc
  request r hr := by
    rw [h.buf, h.xdr, h.ctx] at hr
    cases hph : s.phase r with
    | fresh => simp [hph, Phase.buf, Phase.xdr, Phase.ctx] at hr
    | main p => exact .inl ⟨p, (h.main p r).mpr hph⟩
    | queued => exact .inr (.inl ⟨_, (h.queue _ r).mpr ⟨hph, rfl⟩⟩)
    | work w st => exact .inr (.inr ⟨w, st, (h.worker w st r).mpr hph⟩)
    | done x y =>
      rw [hph] at hr
      cases x <;> cases y <;> simp [Phase.buf, Phase.xdr, Phase.ctx] at hr

/-- The main thread does not free a client while a worker that has marked it finished still writes
to it. -/
def Ok (s : Qmbd W) : QEvent W → Prop
  | .main _ => s.Undisturbed
  | .work _ _ => True

theorem inv_step (C : QConf W) (s : Qmbd W) (e : QEvent W) (hok : s.Ok e) (h : s.Inv) :
    (s.step C e).Inv := by
  cases e with
  | main ch => exact inv_mainStep h hok C.size ch
  | work w more => exact inv_workerStep h C.pool w more

/-- **Clients are used safely** in every interleaving in which no client is freed between the
statements with which a worker ends its work on it. -/
theorem safe_of_undisturbed (C : QConf W) (es : List (QEvent W))
    (hok : Run.Along (step C) Ok init es) (n : Nat) : (Run.run (step C) init (es.take n)).Safe :=
  (Run.inv_take (inv_step C) inv_init hok n).safe

instance [Fintype W] (s : Qmbd W) (e : QEvent W) : Decidable (s.Ok e) := by
  cases e <;> unfold Ok <;> infer_instance

/-- One worker and short queues. -/
def oneWorker : QConf Unit := ⟨fun _ => .light, fun _ => 4⟩

/-- A client connects, its request is put into the queue, the worker takes `n` statements, and then
the main thread finds the client finished and shuts it down. -/
def serveThenShut (n : Nat) : List (QEvent Unit) :=
  let go : Choice := ⟨false, false, true, true, .queInfo⟩
  .main { go with accept := true } :: List.replicate 14 (.main go) ++
    List.replicate n (.work () false) ++ List.replicate 7 (.main go)

/-- The worker has ended before the client is shut down. -/
theorem served_and_shut_safe :
    let s := Run.run (step oneWorker) init ((serveThenShut 10).take 32)
    s.Safe ∧ s.mem.life (.client 0) = .freed ∧ s.mem.life (.ctx 0) = .freed := by
  intro s
  refine ⟨safe_of_undisturbed oneWorker (serveThenShut 10) ?_ 32, ?_, ?_⟩
  · decide +kernel
  · decide +kernel
  · decide +kernel

/-- The worker has marked the client finished, the main thread frees it, and the worker goes on to
write to it. -/
theorem write_after_free :
    let s := Run.run (step oneWorker) init (serveThenShut 7)
    s.mem.fault = false ∧ s.mem.life (.client 0) = .freed ∧
      s.worker () = some (.setReqType, 0) ∧ s.client 0 = 0 ∧
      (s.step oneWorker (.work () false)).mem.fault = true ∧
      ¬ (s.step oneWorker (.work () false)).Safe := by
  intro s
  have hfault : (s.step oneWorker (.work () false)).mem.fault = true := by decide +kernel
  refine ⟨by decide +kernel, by decide +kernel, by decide +kernel, by decide +kernel, hfault, ?_⟩
  intro hsafe
  exact absurd (hsafe.fault.symm.trans hfault) (by decide)

end Qmbd

end Volclava
