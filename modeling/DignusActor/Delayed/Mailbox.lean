import DignusActor.Machine.StoreBuffer
import DignusActor.Machine.Transition
import DignusActor.Queues.MpscRefinement

/-! # The mailbox hand-off with delayed stores

The model of `enqueue_only` and `execute` (`actor_runner.rs`), with the operations of the mailbox
(`queues/mpsc_bounded_queue.rs`) and `is_scheduled`, on a memory behind store buffers. The plain
`Release` stores (of a slot's data and sequence, and of `is_scheduled` at the end of `execute`) go
through the buffer of their thread; `swap`, `compare_exchange` and the mutex of `scheduled_actors`
are steps that are taken with an empty buffer.

The actor stays `RUNNING` and its `on_receive` returns `Done`, so the lifecycle and the poll driver
are left out. The thread of the dispatcher is `none`: it posts from the `on_receive` of this actor
or, between two executions of the runner, from others. Only it accesses `consumer_index`. -/

universe u v

namespace DignusActor.Delayed

/-- The memory that the threads share. -/
structure Memory (M : Type v) where
  mailbox : MpscBoundedQueue M
  isScheduled : Bool

/-- A plain store. -/
inductive Store (M : Type v)
  | data (position : Nat) (item : M)
  | sequence (position value : Nat)
  /-- `is_scheduled.store(false)`. -/
  | clearScheduled
  deriving DecidableEq

/-- A store reaches the memory. -/
def Memory.apply (m : Memory M) : Store M → Memory M
  | .data position item => { m with mailbox := m.mailbox.storeData position item }
  | .sequence position value => { m with mailbox := m.mailbox.storeSequence position value }
  | .clearScheduled => { m with isScheduled := false }

/-- The sequence in the slot of a position. -/
def Memory.sequence (m : Memory M) (position : Nat) : Nat := (m.mailbox.slot position).sequence

/-- Where a thread stands in `enqueue_only`, and in `schedule_self` after it. No step reads the
position once it is published. -/
inductive CallerPc (M : Type v)
  | idle
  | loadIndex (item : M)
  | loadSequence (position : Nat) (item : M)
  | compareExchange (position : Nat) (item : M)
  | write (position : Nat) (item : M)
  | publish (position : Nat)
  | loadScheduled (position : Nat)
  | swapScheduled (position : Nat)
  | schedule
  deriving DecidableEq

/-- Where the thread of the dispatcher stands in `execute`. -/
inductive WorkerPc (M : Type v)
  | idle
  | dequeue
  | read
  | release (item : M)
  /-- In `on_receive`. -/
  | receiving (item : M)
  | clearScheduled
  | peek
  | swapScheduled
  | schedule
  deriving DecidableEq

def CallerPc.isIdle : CallerPc M → Bool
  | .idle => true
  | _ => false

structure State (T : Type u) (M : Type v) where
  mem : StoreBuffer (Option T) (Memory M) (Store M)
  /-- How many entries of the runner `scheduled_actors` has. -/
  scheduled : Nat
  /-- How many are left in the batch of the dispatcher. -/
  batch : Nat
  worker : WorkerPc M
  callers : Option T → CallerPc M

variable {T : Type u} {M : Type v}

def start (T : Type u) (q : MpscBoundedQueue M) : State T M where
  mem := ⟨⟨q, false⟩, fun _ => []⟩
  scheduled := 0
  batch := 0
  worker := .idle
  callers := fun _ => .idle

inductive Action (T : Type u) (M : Type v)
  | post (t : Option T) (item : M)
  | call (t : Option T)
  /-- The dispatcher takes the entries of `scheduled_actors`. -/
  | take
  /-- The dispatcher executes an entry of its batch. -/
  | execute
  | worker
  /-- The oldest store of a thread reaches the memory. -/
  | flush (t : Option T)

namespace State

/-- What thread `t` reads. -/
def seen (s : State T M) (t : Option T) : Memory M := s.mem.view Memory.apply t

/-- Every store of thread `t` has reached the memory. -/
def drained (s : State T M) (t : Option T) : Bool := (s.mem.buffers t).isEmpty

def setMemory (s : State T M) (m : Memory M) : State T M :=
  { s with mem := { s.mem with memory := m } }

/-- The mailbox in the memory. -/
abbrev mailbox (s : State T M) : MpscBoundedQueue M := s.mem.memory.mailbox

/-- The worker can post: it is in `on_receive`, or executes another schedulable. -/
def inUserCode (s : State T M) : Bool :=
  match s.worker with
  | .idle | .receiving _ => true
  | _ => false

variable [DecidableEq T]

def setCaller (s : State T M) (t : Option T) (pc : CallerPc M) : State T M :=
  { s with callers := Function.update s.callers t pc }

def store (s : State T M) (t : Option T) (x : Store M) : State T M :=
  { s with mem := s.mem.store t x }

theorem callers_setCaller_self (s : State T M) (t : Option T) (pc : CallerPc M) :
    (s.setCaller t pc).callers t = pc :=
  Function.update_self ..

theorem callers_setCaller_of_ne (s : State T M) {t u : Option T} (h : u ≠ t) (pc : CallerPc M) :
    (s.setCaller t pc).callers u = s.callers u :=
  Function.update_of_ne h ..

end State

section

variable [DecidableEq T]

/-- The next step of a thread in `enqueue_only` or `schedule_self`. -/
def callerStep (s : State T M) (t : Option T) : Option (State T M) :=
  match s.callers t with
  | .idle => none
  | .loadIndex item => some (s.setCaller t (.loadSequence s.mailbox.producerIndex item))
  | .loadSequence position item =>
    let difference : Int := (s.seen t).sequence position - position
    if difference = 0 then some (s.setCaller t (.compareExchange position item))
    else if difference < 0 then some (s.setCaller t .idle)
    else some (s.setCaller t (.loadIndex item))
  | .compareExchange position item =>
    if s.drained t then
      if s.mailbox.producerIndex = position then
        some ((s.setMemory { s.mem.memory with
          mailbox := { s.mailbox with producerIndex := position + 1 } }).setCaller t
            (.write position item))
      else some (s.setCaller t (.loadIndex item))
    else none
  | .write position item =>
    some ((s.store t (.data position item)).setCaller t (.publish position))
  | .publish position =>
    some ((s.store t (.sequence position (position + 1))).setCaller t (.loadScheduled position))
  | .loadScheduled position =>
    some (s.setCaller t (if (s.seen t).isScheduled then .idle else .swapScheduled position))
  | .swapScheduled _ =>
    if s.drained t then
      some ((s.setMemory { s.mem.memory with isScheduled := true }).setCaller t
        (if s.mem.memory.isScheduled then .idle else .schedule))
    else none
  | .schedule =>
    if s.drained t then some ({ s with scheduled := s.scheduled + 1 }.setCaller t .idle) else none

/-- The next step of the worker in `execute`. -/
def workerStep (s : State T M) : Option (State T M) :=
  let position := s.mailbox.consumerIndex
  let difference : Int := (s.seen none).sequence position - (position + 1 : Nat)
  match s.worker with
  | .idle => none
  | .dequeue => some { s with worker := if difference = 0 then .read else .clearScheduled }
  | .read =>
    -- `assume_init_read`: reading data that was never written has no behaviour
    ((s.seen none).mailbox.slot position).data.map fun item => { s with worker := .release item }
  | .release item =>
    let s := s.store none (.sequence position (position + s.mailbox.capacity))
    some { s.setMemory { s.mem.memory with
        mailbox := { s.mailbox with consumerIndex := position + 1 } } with
      worker := .receiving item }
  | .receiving _ =>
    if (s.callers none).isIdle then some { s with worker := .dequeue } else none
  | .clearScheduled => some { s.store none .clearScheduled with worker := .peek }
  | .peek => some { s with worker := if difference = 0 then .swapScheduled else .idle }
  | .swapScheduled =>
    if s.drained none then
      some { s.setMemory { s.mem.memory with isScheduled := true } with
        worker := if s.mem.memory.isScheduled then .idle else .schedule }
    else none
  | .schedule =>
    if s.drained none then some { s with scheduled := s.scheduled + 1, worker := .idle } else none

/-- The dispatcher is between two executions of the runner. -/
def State.between (s : State T M) : Bool :=
  match s.worker, s.callers none with
  | .idle, .idle => true
  | _, _ => false

def step (s : State T M) : Action T M → Option (State T M)
  | .post t item =>
    if (s.callers t).isIdle && (t.isSome || s.inUserCode) then
      some (s.setCaller t (.loadIndex item))
    else none
  | .call t => callerStep s t
  | .take =>
    if s.between && s.drained none && s.batch == 0 then
      some { s with scheduled := 0, batch := s.scheduled }
    else none
  | .execute =>
    if s.between && s.batch != 0 then some { s with batch := s.batch - 1, worker := .dequeue }
    else none
  | .worker => workerStep s
  | .flush t => (s.mem.flush Memory.apply t).map fun mem => { s with mem }

/-- The runner of a mailbox of `capacity`, with all its interleavings and delays. -/
def machine (T : Type u) (M : Type v) [DecidableEq T] (capacity : Nat) :
    Machine (State T M) (Action T M) where
  Init s := ∃ q, MpscBoundedQueue.new M mailSlotSize capacity = some q ∧ s = start T q
  step := step

end

end DignusActor.Delayed
