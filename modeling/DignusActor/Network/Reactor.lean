import DignusActor.Machine.Transition

/-! # The reactors of a host

The model of `Reactor` (`reactor.rs`), of the part of `Session` that the reactors and the threads
outside share (`session.rs`, `send_buffer.rs`) and of `HostShutdown` (`tcp_host.rs`). A host runs
one reactor on each of its worker threads; worker 0 has the listener. Any number of threads call
`Session::send`, `Session::close` and `HostShutdown::shutdown`; a handler that calls a session from
inside a callback is such a thread.

Each access to memory that the threads share (an atomic, a block under a mutex) is one step. What a
reactor does by itself around it belongs to the step: its own fields, its sockets and transports,
whose results come with the action, and the callbacks of its handler, which return and are recorded
in `Worker.calls`. The events of a batch are arbitrary. What a waker or the registration of an
interest does is seen in the events only. -/

namespace DignusActor.Reactor

/-! ## `send_buffer.rs` and `session.rs` -/

structure SendBuffer where
  data : List UInt8
  offset : Nat
  maxPending : Nat
  deriving DecidableEq

namespace SendBuffer

def new (maxPending : Nat) : SendBuffer := ⟨[], 0, maxPending⟩

def pendingLen (buffer : SendBuffer) : Nat := buffer.data.length - buffer.offset

def canWrite (buffer : SendBuffer) (count : Nat) : Bool :=
  buffer.pendingLen + count ≤ buffer.maxPending

def append (buffer : SendBuffer) (bytes : List UInt8) : SendBuffer :=
  { buffer with data := buffer.data ++ bytes }

def advance (buffer : SendBuffer) (count : Nat) : SendBuffer :=
  if buffer.data.length ≤ buffer.offset + count then { buffer with data := [], offset := 0 }
  else { buffer with offset := buffer.offset + count }

end SendBuffer

inductive SendResult
  | success
  | bufferFull
  | disposed
  deriving DecidableEq

/-- The fields of a `Session` that stay what they are; `worker` has its `ReactorShared`. -/
structure Session where
  id : Nat
  token : Nat
  worker : Nat
  deriving DecidableEq

/-- The cells of a `Session`. -/
structure Cells where
  outbound : SendBuffer
  disposed : Bool
  closeRequested : Bool

/-! ## `reactor.rs` -/

/-- `LISTENER_TOKEN`. -/
def listenerToken : Nat := 0

/-- `WAKER_TOKEN`. -/
def wakerToken : Nat := 1

/-- `FIRST_CONNECTION_TOKEN`. -/
def firstConnectionToken : Nat := 2

structure Event where
  token : Nat
  readable : Bool
  writable : Bool
  deriving DecidableEq

/-- The callbacks of a `HostHandler`, by the id of the session. -/
inductive Call
  | onAccepted (id : Nat)
  | onData (id : Nat) (data : List UInt8)
  | onDisconnected (id : Nat)
  deriving DecidableEq

/-- The session that a callback is about. -/
def Call.id : Call → Nat
  | .onAccepted id | .onData id _ | .onDisconnected id => id

/-- Where a worker stands in `Reactor::run`. -/
inductive WorkerPc
  | poll
  | event
  | accept
  /-- At the load of `stopped`. -/
  | waker
  | takeIncoming
  | incoming (streams : List Nat)
  | flushPending
  | flushing (tokens : List Nat)
  | flushClose (token : Nat) (tokens : List Nat)
  | closePending
  | closing (tokens : List Nat)
  | read (token : Nat) (writable : Bool)
  | readFlush (token : Nat) (writable : Bool)
  | writableFlush (token : Nat)
  /-- At the `close` that ends `handle_connection`. -/
  | handleClose (token : Nat)
  | closeAll
  | closingAll (tokens : List Nat)
  | returnedOk
  | returnedErr
  | panicked
  deriving DecidableEq

/-- A `Reactor` with its `ReactorShared`. A stream is known by the id that goes with it, and a
connection by the number of its session. -/
structure Worker where
  listener : Bool
  connections : AList fun _ : Nat => Nat
  nextToken : Nat
  nextSessionId : Nat
  nextWorker : Nat
  /-- The rest of the batch. -/
  events : List Event
  pc : WorkerPc
  /-- The callbacks that were made on the handler. -/
  calls : List Call
  stopped : Bool
  pendingWrites : List Nat
  pendingCloses : List Nat
  incoming : List Nat

/-- Where a thread stands in `Session::send`, `Session::close` or `HostShutdown::shutdown`. -/
inductive CallerPc
  | idle
  | sent (result : SendResult)
  | sendDisposed (session : Nat) (bytes : List UInt8)
  | sendStopped (session : Nat) (bytes : List UInt8)
  | sendAppend (session : Nat) (bytes : List UInt8)
  | sendPush (session : Nat)
  | closeDisposed (session : Nat)
  | closeSwap (session : Nat)
  | closePush (session : Nat)
  | shutdown (worker : Nat)
  deriving DecidableEq

structure State (T : Type) where
  workerCount : Nat
  maxPendingSend : Nat
  workers : Nat → Worker
  /-- The sessions, in the order of `Session::new`. -/
  sessions : List Session
  cells : Nat → Cells
  callers : T → CallerPc

/-- The reactor that `build_pool` makes at an index. -/
def buildWorker (index : Nat) : Worker where
  listener := index == 0
  connections := ∅
  nextToken := firstConnectionToken
  nextSessionId := 1
  nextWorker := 0
  events := []
  pc := .poll
  calls := []
  stopped := false
  pendingWrites := []
  pendingCloses := []
  incoming := []

/-- `Reactor::build_pool`. -/
def buildPool (T : Type) (workerCount maxPendingSend : Nat) : State T where
  workerCount := max workerCount 1
  maxPendingSend := maxPendingSend
  workers := buildWorker
  sessions := []
  cells _ := ⟨.new maxPendingSend, false, false⟩
  callers _ := .idle

/-- `n += 1` for a `u64` or a `usize`: an overflow panics in a build with overflow checks and wraps
in one without. -/
def increment (overflowChecks : Bool) (n : Nat) : Option Nat :=
  if n + 1 < 2 ^ 64 then some (n + 1) else if overflowChecks then none else some 0

/-- The result of a socket, transport or `Poll` operation, where a step has one. -/
inductive Outcome
  | none
  | events (batch : List Event)
  | accepted
  | wouldBlock
  | interrupted
  | failed
  | registered (ok : Bool)
  | read (data : List UInt8) (closed : Bool)
  | written (count : Nat) (closed : Bool)
  /-- The order in which `connections.keys()` comes. -/
  | keys (tokens : List Nat)
  deriving DecidableEq

namespace State

variable {T : Type}

def setWorker (s : State T) (w : Nat) (worker : Worker) : State T :=
  { s with workers := Function.update s.workers w worker }

def goto (s : State T) (w : Nat) (pc : WorkerPc) : State T :=
  s.setWorker w { s.workers w with pc }

def setCells (s : State T) (n : Nat) (cells : Cells) : State T :=
  { s with cells := Function.update s.cells n cells }

/-- The push of a stream to `peer.incoming`. -/
def pushIncoming (s : State T) (w : Nat) (stream : Nat) : State T :=
  s.setWorker w { s.workers w with incoming := (s.workers w).incoming ++ [stream] }

/-- `accept` hands the stream over to the next worker. -/
def acceptStream (s : State T) (w nextSessionId : Nat) : State T :=
  let worker := s.workers w
  (s.setWorker w { worker with
    nextSessionId
    nextWorker := (worker.nextWorker + 1) % s.workerCount }).pushIncoming
      worker.nextWorker worker.nextSessionId

/-- The end of a round of `take_incoming` whose stream was registered. -/
def addSession (s : State T) (w id token : Nat) : State T :=
  let worker := s.workers w
  { s.setWorker w { worker with
      connections := worker.connections.insert token s.sessions.length
      calls := worker.calls ++ [.onAccepted id] } with
    sessions := s.sessions ++ [⟨id, token, w⟩] }

def onData (s : State T) (w id : Nat) (data : List UInt8) : State T :=
  s.setWorker w { s.workers w with calls := (s.workers w).calls ++ [.onData id data] }

/-- `Session::id` of session `n`. -/
def sessionId (s : State T) (n : Nat) : Nat :=
  match s.sessions[n]? with
  | some session => session.id
  | none => 0

/-- `Reactor::close`. -/
def close (s : State T) (w token : Nat) : State T :=
  let worker := s.workers w
  match worker.connections.lookup token with
  | none => s
  | some n =>
    (s.setCells n { s.cells n with disposed := true }).setWorker w { worker with
      connections := worker.connections.erase token
      calls := worker.calls ++ [.onDisconnected (s.sessionId n)] }

/-- The write of `Reactor::flush` to the transport of session `n`. -/
def write (s : State T) (n count : Nat) : State T :=
  s.setCells n { s.cells n with outbound := (s.cells n).outbound.advance count }

/-- `Reactor::flush`, with where it goes on when it has closed the connection and when not. -/
def flush (s : State T) (w token : Nat) (outcome : Outcome) (closed next : WorkerPc) :
    Option (State T) :=
  match (s.workers w).connections.lookup token, outcome with
  | none, .none => some (s.goto w next)
  | some n, .written count isClosed =>
    if count ≤ (s.cells n).outbound.pendingLen then
      some ((s.write n count).goto w (if isClosed then closed else next))
    else none
  | _, _ => none

end State

variable {T : Type}

/-- The `match` of `run` on the token of an event. -/
def Event.dispatch (event : Event) : WorkerPc :=
  if event.token = listenerToken then .accept
  else if event.token = wakerToken then .waker
  else if event.readable then .read event.token event.writable
  else if event.writable then .writableFlush event.token
  else .event

/-- Where `handle_connection` goes on after `read` has not closed the connection. -/
def afterRead (token : Nat) (writable : Bool) : WorkerPc :=
  if writable then .writableFlush token else .event

/-- The next step of a reactor. -/
def workerStep (overflowChecks : Bool) (s : State T) (w : Nat) (outcome : Outcome) :
    Option (State T) :=
  let worker := s.workers w
  match worker.pc, outcome with
  | .poll, .events batch => some (s.setWorker w { worker with events := batch, pc := .event })
  | .poll, .failed => some (s.goto w .returnedErr)
  | .event, .none =>
    match worker.events with
    | [] => some (s.goto w .poll)
    | event :: events => some (s.setWorker w { worker with events, pc := event.dispatch })
  | .accept, outcome =>
    if worker.listener then
      match outcome with
      | .accepted =>
        match increment overflowChecks worker.nextSessionId with
        | none => some (s.goto w .panicked)
        | some nextSessionId => some (s.acceptStream w nextSessionId)
      | .wouldBlock => some (s.goto w .event)
      | .interrupted => some s
      | .failed => some (s.goto w .returnedErr)
      | _ => none
    else if outcome = .none then some (s.goto w .event) else none
  | .waker, .none => some (s.goto w (if worker.stopped then .closeAll else .takeIncoming))
  | .takeIncoming, .none =>
    some (s.setWorker w { worker with incoming := [], pc := .incoming worker.incoming })
  | .incoming [], .none => some (s.goto w .flushPending)
  | .incoming (id :: streams), .registered ok =>
    match increment overflowChecks worker.nextToken with
    | none => some (s.goto w .panicked)
    | some nextToken =>
      let s := s.setWorker w { worker with nextToken, pc := .incoming streams }
      some (if ok then s.addSession w id worker.nextToken else s)
  | .flushPending, .none =>
    some (s.setWorker w { worker with pendingWrites := [], pc := .flushing worker.pendingWrites })
  | .flushing [], .none => some (s.goto w .closePending)
  | .flushing (token :: tokens), outcome =>
    s.flush w token outcome (.flushClose token tokens) (.flushing tokens)
  | .flushClose token tokens, .none => some ((s.close w token).goto w (.flushing tokens))
  | .closePending, .none =>
    some (s.setWorker w { worker with pendingCloses := [], pc := .closing worker.pendingCloses })
  | .closing [], .none => some (s.goto w .event)
  | .closing (token :: tokens), .none => some ((s.close w token).goto w (.closing tokens))
  | .read token writable, outcome =>
    match worker.connections.lookup token, outcome with
    | none, .none => some (s.goto w (afterRead token writable))
    | some n, .read data closed =>
      let s := if data.isEmpty then s else s.onData w (s.sessionId n) data
      some (s.goto w (if closed then .handleClose token else .readFlush token writable))
    | _, _ => none
  | .readFlush token writable, outcome =>
    s.flush w token outcome (.handleClose token) (afterRead token writable)
  | .writableFlush token, outcome => s.flush w token outcome (.handleClose token) .event
  | .handleClose token, .none => some ((s.close w token).goto w .event)
  | .closeAll, .keys tokens =>
    if tokens.isPerm worker.connections.keys then some (s.goto w (.closingAll tokens)) else none
  | .closingAll [], .none => some (s.goto w .returnedOk)
  | .closingAll (token :: tokens), .none =>
    some ((s.close w token).goto w (.closingAll tokens))
  | _, _ => none

section

variable [DecidableEq T]

def State.setCaller (s : State T) (t : T) (pc : CallerPc) : State T :=
  { s with callers := Function.update s.callers t pc }

/-- The next step of a thread in `send`, `close` or `shutdown`. -/
def callerStep (s : State T) (t : T) : Option (State T) :=
  match s.callers t with
  | .idle | .sent _ => none
  | .sendDisposed n bytes =>
    some (s.setCaller t (if (s.cells n).disposed then .sent .disposed else .sendStopped n bytes))
  | .sendStopped n bytes =>
    (s.sessions[n]?).map fun session =>
      s.setCaller t
        (if (s.workers session.worker).stopped then .sent .disposed else .sendAppend n bytes)
  | .sendAppend n bytes =>
    let cells := s.cells n
    if cells.outbound.canWrite bytes.length then
      some ((s.setCells n { cells with outbound := cells.outbound.append bytes }).setCaller t
        (.sendPush n))
    else some (s.setCaller t (.sent .bufferFull))
  | .sendPush n =>
    (s.sessions[n]?).map fun session =>
      let worker := s.workers session.worker
      (s.setWorker session.worker
        { worker with pendingWrites := worker.pendingWrites ++ [session.token] }).setCaller t
          (.sent .success)
  | .closeDisposed n => some (s.setCaller t (if (s.cells n).disposed then .idle else .closeSwap n))
  | .closeSwap n =>
    if (s.cells n).closeRequested then some (s.setCaller t .idle)
    else some ((s.setCells n { s.cells n with closeRequested := true }).setCaller t (.closePush n))
  | .closePush n =>
    (s.sessions[n]?).map fun session =>
      let worker := s.workers session.worker
      (s.setWorker session.worker
        { worker with pendingCloses := worker.pendingCloses ++ [session.token] }).setCaller t .idle
  | .shutdown w =>
    if w < s.workerCount then
      some ((s.setWorker w { s.workers w with stopped := true }).setCaller t (.shutdown (w + 1)))
    else some (s.setCaller t .idle)

inductive Action (T : Type)
  | worker (w : Nat) (outcome : Outcome)
  | send (t : T) (session : Nat) (bytes : List UInt8)
  | close (t : T) (session : Nat)
  | shutdown (t : T)
  | call (t : T)
  deriving DecidableEq

/-- A call starts where no call is in progress. -/
def State.begin (s : State T) (t : T) (pc : CallerPc) : Option (State T) :=
  match s.callers t with
  | .idle | .sent _ => some (s.setCaller t pc)
  | _ => none

/-- One step of the host. The sessions that threads call are those handed to `on_accepted`. -/
def step (overflowChecks : Bool) (s : State T) : Action T → Option (State T)
  | .worker w outcome =>
    if w < s.workerCount then workerStep overflowChecks s w outcome else none
  | .send t n bytes => if n < s.sessions.length then s.begin t (.sendDisposed n bytes) else none
  | .close t n => if n < s.sessions.length then s.begin t (.closeDisposed n) else none
  | .shutdown t => s.begin t (.shutdown 0)
  | .call t => callerStep s t

def machine (T : Type) [DecidableEq T] (overflowChecks : Bool) (workerCount maxPendingSend : Nat) :
    Machine (State T) (Action T) where
  Init s := s = buildPool T workerCount maxPendingSend
  step := step overflowChecks

end

end DignusActor.Reactor
