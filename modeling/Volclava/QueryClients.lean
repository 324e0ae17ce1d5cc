import Volclava.Lib.Lifetime
import Volclava.Lib.Run

/-!
# Clients of the query daemon

The query daemon answers requests with two pools of worker threads. Its main loop accepts
connections and looks at every client in turn: a client that is finished, or whose connection has
failed, is shut down and freed; a request that has arrived is decoded and put into the queue of a
pool. A worker takes a request from its queue, answers it, frees what belongs to the request and
marks the client finished.

The daemon is modelled one statement at a time. Each statement says which heap objects it reads,
writes or frees, so that a use after free raises the fault of the memory. Lists are changed by the
main thread only; the list of clients still to be looked at in a round is kept in its program
counter.

- `Qmbd.mainStep`, `Qmbd.workerStep`: one statement of the main thread and of a worker.
- `Qmbd.step`: an interleaving takes them in any order.
-/

namespace Volclava

open Lifetime

inductive ClientState where
  | connected | processing | finished
  deriving DecidableEq, Repr

inductive ReqKind where
  | jobInfo | queInfo | hostInfo | grpInfo | paramInfo | userInfo | resourceInfo | jobPeek | unknown
  deriving DecidableEq, Repr

inductive Pool where
  | light | heavy
  deriving DecidableEq, Repr

/-- Requests for job information have a pool of their own. -/
def poolOf (kind : ReqKind) : Pool := if kind = .jobInfo then .heavy else .light

/-- What is allocated and freed: the record of a client, and the context, decoding stream and buffer
of a request. -/
inductive QObj where
  | client (c : Nat)
  | ctx (r : Nat)
  | xdr (r : Nat)
  | buf (r : Nat)
  deriving DecidableEq, Repr

/-- The statements of `shutdownClient`. -/
inductive ShutStage where
  | chanClose | offList | freeHost | free
  deriving DecidableEq, Repr

/-- Why a request is given up once it has a decoding stream. -/
inductive Failure where
  | header | ctx | queue
  deriving DecidableEq, Repr

/-- The statements of `processQueryRequestByThread` from the time the request has been taken from
the channel. The last four undo it when something fails: a request without a decoding stream only
has its buffer freed. -/
inductive Prep where
  | allocXdr | header | allocCtx | fillCtx | addTask
  | destroyXdr (f : Failure)
  | freeXdr (f : Failure)
  | freeBuf (f : Option Failure)
  | freeCtx
  deriving DecidableEq, Repr

/-- The program counter of the main thread. `todo` are the clients that `handleClientIO` comes to
next. `stamp` says that the time is stored in the client after it has been marked finished. -/
inductive MainPc where
  | idle
  | link (c : Nat)
  | next (todo : List Nat)
  | test (c : Nat) (todo : List Nat)
  | testConnected (c : Nat) (todo : List Nat)
  | shut (st : ShutStage) (c : Nat) (todo : List Nat)
  | start (c : Nat) (todo : List Nat)
  | conn (c : Nat) (todo : List Nat)
  | dequeue (c : Nat) (todo : List Nat)
  | prep (p : Prep) (r c : Nat) (todo : List Nat)
  | finish (stamp : Bool) (c : Nat) (todo : List Nat)
  | stamp (c : Nat) (todo : List Nat)
  deriving DecidableEq, Repr

/-- The statements of `processRequest`. -/
inductive Stage where
  | dispatch | handle | destroyXdr | freeXdr | freeBuf | setFinished | setReqType | setLastTime
  | freeCtx
  deriving DecidableEq, Repr

/-- Where a request is: not there yet, with the main thread, in a queue, with a worker, or over. A
request that is over may have got no stream or no context. -/
inductive Phase (W : Type) where
  | fresh
  | main (p : Prep)
  | queued
  | work (w : W) (st : Stage)
  | done (xdr ctx : Bool)
  deriving DecidableEq

/-- The state of the query daemon with workers `W`. `phase` and `handed` are history: where each
request is, and how often a worker has taken a request of a client. -/
structure Qmbd (W : Type) where
  mem : Mem QObj
  state : Nat → ClientState
  clientList : List Nat
  queue : Pool → List Nat
  client : Nat → Nat
  kind : Nat → ReqKind
  main : MainPc
  worker : W → Option (Stage × Nat)
  numClients : Nat
  numReqs : Nat
  phase : Nat → Phase W
  handed : Nat → Nat

/-- What the world decides: whether a connection is waiting, whether the connection of the client
has failed or has a request, whether an allocation or a decoding succeeds, and what is asked. -/
structure Choice where
  accept : Bool
  error : Bool
  read : Bool
  ok : Bool
  kind : ReqKind
  deriving DecidableEq

namespace Qmbd

variable {W : Type}

def init : Qmbd W where
  mem := .init
  state := fun _ => .connected
  clientList := []
  queue := fun _ => []
  client := fun _ => 0
  kind := fun _ => .unknown
  main := .idle
  worker := fun _ => none
  numClients := 0
  numReqs := 0
  phase := fun _ => .fresh
  handed := fun _ => 0

def use (o : QObj) (s : Qmbd W) : Qmbd W := { s with mem := s.mem.use o }
def alloc (o : QObj) (s : Qmbd W) : Qmbd W := { s with mem := s.mem.alloc o }
def release (o : QObj) (s : Qmbd W) : Qmbd W := { s with mem := s.mem.release o }
def goto (pc : MainPc) (s : Qmbd W) : Qmbd W := { s with main := pc }
def setState (c : Nat) (st : ClientState) (s : Qmbd W) : Qmbd W :=
  { s with state := Function.update s.state c st }
def setPhase (r : Nat) (ph : Phase W) (s : Qmbd W) : Qmbd W :=
  { s with phase := Function.update s.phase r ph }

/-- The main thread goes on with the request. -/
def prepare (p : Prep) (r c : Nat) (todo : List Nat) (s : Qmbd W) : Qmbd W :=
  (s.setPhase r (.main p)).goto (.prep p r c todo)

/-- A statement of `processQueryRequestByThread` after the request has been taken. -/
def prepStep (size : Pool → Nat) (ok : Bool) (r c : Nat) (todo : List Nat) (s : Qmbd W) :
    Prep → Qmbd W
  | .allocXdr =>
    if ok then (s.alloc (.xdr r)).prepare .header r c todo
    else s.prepare (.freeBuf none) r c todo
  | .header =>
    ((s.use (.xdr r)).use (.buf r)).prepare (if ok then .allocCtx else .destroyXdr .header)
      r c todo
  | .allocCtx =>
    if ok then (s.alloc (.ctx r)).prepare .fillCtx r c todo
    else s.prepare (.destroyXdr .ctx) r c todo
  | .fillCtx => (s.use (.ctx r)).prepare .addTask r c todo
  | .addTask =>
    let pool := poolOf (s.kind r)
    if (s.queue pool).length < size pool then
      ({ s with queue := Function.update s.queue pool (s.queue pool ++ [r]) }.setPhase r
        .queued).goto (.next todo)
    else s.prepare (.destroyXdr .queue) r c todo
  | .destroyXdr f => (s.use (.xdr r)).prepare (.freeXdr f) r c todo
  | .freeXdr f => (s.release (.xdr r)).prepare (.freeBuf (some f)) r c todo
  | .freeBuf none =>
    ((s.release (.buf r)).setPhase r (.done false false)).goto (.finish false c todo)
  | .freeBuf (some .header) =>
    ((s.release (.buf r)).setPhase r (.done true false)).goto (.finish false c todo)
  | .freeBuf (some .ctx) =>
    ((s.release (.buf r)).setPhase r (.done true false)).goto (.finish true c todo)
  | .freeBuf (some .queue) => (s.release (.buf r)).prepare .freeCtx r c todo
  | .freeCtx =>
    ((s.release (.ctx r)).setPhase r (.done true true)).goto (.finish true c todo)

/-- A statement of `shutdownClient`. -/
def shutStep (c : Nat) (todo : List Nat) (s : Qmbd W) : ShutStage → Qmbd W
  | .chanClose => (s.use (.client c)).goto (.shut .offList c todo)
  | .offList =>
    { s.use (.client c) with clientList := s.clientList.erase c }.goto (.shut .freeHost c todo)
  | .freeHost => (s.use (.client c)).goto (.shut .free c todo)
  | .free => (s.release (.client c)).goto (.next todo)

/-- A statement of the main thread. -/
def mainStep (size : Pool → Nat) (ch : Choice) (s : Qmbd W) : Qmbd W :=
  match s.main with
  | .idle =>
    if ch.accept then
      ({ s.alloc (.client s.numClients) with numClients := s.numClients + 1 }.setState s.numClients
        .connected).goto (.link s.numClients)
    else s.goto (.next s.clientList)
  | .link c => { s.use (.client c) with clientList := s.clientList ++ [c] }.goto .idle
  | .next [] => s.goto .idle
  | .next (c :: todo) => (s.use (.client c)).goto (.test c todo)
  | .test c todo =>
    (s.use (.client c)).goto
      (if s.state c = .finished ∨ (ch.error ∧ s.state c ≠ .processing) then .shut .chanClose c todo
        else .testConnected c todo)
  | .testConnected c todo =>
    (s.use (.client c)).goto
      (if s.state c = .connected ∧ ch.read then .start c todo else .next todo)
  | .shut st c todo => s.shutStep c todo st
  | .start c todo => ((s.use (.client c)).setState c .processing).goto (.conn c todo)
  | .conn c todo => (s.use (.client c)).goto (.dequeue c todo)
  | .dequeue c todo =>
    if ch.ok then
      { s.alloc (.buf s.numReqs) with
        client := Function.update s.client s.numReqs c
        kind := Function.update s.kind s.numReqs ch.kind
        numReqs := s.numReqs + 1 }.prepare .allocXdr s.numReqs c todo
    else s.goto (.finish false c todo)
  | .prep p r c todo => s.prepStep size ch.ok r c todo p
  | .finish stamp c todo =>
    ((s.use (.client c)).setState c .finished).goto (if stamp then .stamp c todo else .next todo)
  | .stamp c todo => (s.use (.client c)).goto (.next todo)

variable [DecidableEq W]

/-- Worker `w` goes on with the request. -/
def advance (w : W) (st : Stage) (r : Nat) (s : Qmbd W) : Qmbd W :=
  { s.setPhase r (.work w st) with worker := Function.update s.worker w (some (st, r)) }

/-- A statement of `processRequest`. The answer to a request is one statement that may be taken any
number of times; `more` says that it is not over yet. -/
def stageStep (w : W) (more : Bool) (r : Nat) (s : Qmbd W) : Stage → Qmbd W
  | .dispatch => (s.use (.ctx r)).advance w .handle r
  | .handle =>
    let s := (s.use (.ctx r)).use (.client (s.client r))
    let s := if s.kind r = .unknown then s else (s.use (.xdr r)).use (.buf r)
    s.advance w (if more then .handle else .destroyXdr) r
  | .destroyXdr => ((s.use (.ctx r)).use (.xdr r)).advance w .freeXdr r
  | .freeXdr => ((s.use (.ctx r)).release (.xdr r)).advance w .freeBuf r
  | .freeBuf => ((s.use (.ctx r)).release (.buf r)).advance w .setFinished r
  | .setFinished =>
    (((s.use (.ctx r)).use (.client (s.client r))).setState (s.client r) .finished).advance w
      .setReqType r
  | .setReqType => ((s.use (.ctx r)).use (.client (s.client r))).advance w .setLastTime r
  | .setLastTime => ((s.use (.ctx r)).use (.client (s.client r))).advance w .freeCtx r
  | .freeCtx =>
    { (s.release (.ctx r)).setPhase r (.done true true) with
      worker := Function.update s.worker w none }

/-- A statement of a worker: without a request it takes one from the queue of its pool. -/
def workerStep (pool : W → Pool) (w : W) (more : Bool) (s : Qmbd W) : Qmbd W :=
  match s.worker w with
  | some (st, r) => s.stageStep w more r st
  | none =>
    match s.queue (pool w) with
    | [] => s
    | r :: rs =>
      { s with
        queue := Function.update s.queue (pool w) rs
        handed := Function.update s.handed (s.client r) (s.handed (s.client r) + 1) }.advance w
          .dispatch r

end Qmbd

/-- One statement of the main thread or of a worker. -/
inductive QEvent (W : Type) where
  | main (ch : Choice)
  | work (w : W) (more : Bool)

/-- The pools: which workers each has and how many requests its queue holds. -/
structure QConf (W : Type) where
  pool : W → Pool
  size : Pool → Nat

def Qmbd.step {W : Type} [DecidableEq W] (C : QConf W) (s : Qmbd W) : QEvent W → Qmbd W
  | .main ch => s.mainStep C.size ch
  | .work w more => s.workerStep C.pool w more

end Volclava
