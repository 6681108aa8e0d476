import DignusActor.Dispatcher.ActorDispatcher

/-! # Continuations of a dispatcher

The model of `ActorDispatcher::enqueue_continuation` (`actor_dispatcher.rs`), of `ActorYieldTask`
(`actor_yield_task.rs`) and of `ActorYieldTaskPool` (`actor_yield_task_pool.rs`), over the machine
of the dispatcher. Its entries are tasks and other schedulables `R`. A task is known by the number
of its creation, and a callback, which is owned by one holder at a time, by the number of the call
of `enqueue_continuation` that was given it.

Each block under a mutex is one step. A callback, or another schedulable, can make calls from the
worker (`none`) before it returns. The dispatcher is alive while its worker runs, and so is the pool
that a task upgrades its `Weak` to. -/

namespace DignusActor.Continuations

open Dispatcher (CallerPc)

/-- What is scheduled. No step reads the `call` of a task: it is the call that scheduled it. -/
inductive Entry (R : Type)
  | yieldTask (task call : Nat)
  | other (runner : R)
  deriving DecidableEq

/-- Where a thread stands in `enqueue_continuation`, up to its call of `schedule`. -/
inductive EnqueuerPc
  | idle
  | pop (callback : Nat)
  | set (task callback : Nat)
  deriving DecidableEq

/-- Where the worker stands in `ActorYieldTask::execute`. -/
inductive ExecutePc
  | take
  | call (callback : Nat)
  /-- In the callback. -/
  | running
  | recycleClear
  | recyclePush
  | returned
  deriving DecidableEq

structure State (T R : Type) where
  dispatcher : Dispatcher.State T (Entry R)
  innerPool : List Nat
  /-- The field of each task. -/
  sendOrPostCallback : Nat → Option Nat
  /-- How many tasks were created. -/
  created : Nat
  enqueuers : Option T → EnqueuerPc
  execute : ExecutePc
  /-- How many callbacks were given to `enqueue_continuation`. -/
  given : Nat
  /-- The callbacks that were called. -/
  ran : List Nat

variable {T R : Type}

def start (T R : Type) : State T R where
  dispatcher := Dispatcher.start T (Entry R)
  innerPool := []
  sendOrPostCallback := fun _ => none
  created := 0
  enqueuers := fun _ => .idle
  execute := .take
  given := 0
  ran := []

inductive Action (T R : Type)
  /-- A call of `enqueue_continuation` with a callback. -/
  | enqueue (t : Option T)
  | enqueuer (t : Option T)
  | schedule (t : Option T) (runner : R)
  | dispose (t : Option T)
  | call (t : Option T)
  | worker
  | wakeUp
  deriving DecidableEq

namespace State

/-- Thread `t` is in no call. -/
def free (s : State T R) (t : Option T) : Bool :=
  match s.enqueuers t, s.dispatcher.callers t with
  | .idle, .idle => true
  | _, _ => false

/-- What the worker executes is not a task, or it is in the callback. -/
def inUserCode (s : State T R) : Bool :=
  match s.dispatcher.worker with
  | .execute (.yieldTask _ _) _ => s.execute == .running
  | _ => true

/-- Thread `t` can make a call. -/
def calls (s : State T R) (t : Option T) : Bool :=
  s.free t && s.dispatcher.calls t && (t.isSome || s.inUserCode)

/-- `ActorYieldTaskPool::pop`. -/
def pop (s : State T R) : Nat × State T R :=
  match s.innerPool.getLast? with
  | some task => (task, { s with innerPool := s.innerPool.dropLast })
  | none =>
    (s.created, { s with
      created := s.created + 1
      sendOrPostCallback := Function.update s.sendOrPostCallback s.created none })

/-- The field of `task` is written. -/
def put (s : State T R) (task : Nat) (callback : Option Nat) : State T R :=
  { s with sendOrPostCallback := Function.update s.sendOrPostCallback task callback }

variable [DecidableEq T]

def setEnqueuer (s : State T R) (t : Option T) (pc : EnqueuerPc) : State T R :=
  { s with enqueuers := Function.update s.enqueuers t pc }

def setCaller (s : State T R) (t : Option T) (pc : CallerPc (Entry R)) : State T R :=
  { s with dispatcher := s.dispatcher.setCaller t pc }

/-- A step of the dispatcher. -/
def inDispatcher (s : State T R) (a : Dispatcher.Action T (Entry R)) : Option (State T R) :=
  (Dispatcher.step s.dispatcher a).map fun dispatcher => { s with dispatcher }

end State

section

variable [DecidableEq T]

/-- The next step of a thread in `enqueue_continuation`, up to its call of `schedule`. -/
def enqueuerStep (s : State T R) (t : Option T) : Option (State T R) :=
  match s.enqueuers t with
  | .idle => none
  | .pop callback =>
    let (task, s) := s.pop
    some (s.setEnqueuer t (.set task callback))
  | .set task callback =>
    some (((s.put task (some callback)).setEnqueuer t .idle).setCaller t
      (.scheduleStopped (.yieldTask task callback)))

/-- The next step of the worker in `ActorYieldTask::execute`. -/
def executeStep (s : State T R) (task : Nat) : Option (State T R) :=
  match s.execute with
  | .take =>
    some { s.put task none with
      execute := match s.sendOrPostCallback task with
        | some callback => .call callback
        | none => .recycleClear }
  | .call callback => some { s with execute := .running, ran := s.ran ++ [callback] }
  | .running => if s.free none then some { s with execute := .recycleClear } else none
  | .recycleClear => some { s.put task none with execute := .recyclePush }
  | .recyclePush => some { s with execute := .returned, innerPool := s.innerPool ++ [task] }
  | .returned => { s with execute := .take }.inDispatcher .worker

/-- The next step of the worker. -/
def workerStep (s : State T R) : Option (State T R) :=
  match s.dispatcher.worker with
  | .execute (.yieldTask task _) _ => executeStep s task
  | .execute (.other _) _ => if s.free none then s.inDispatcher .worker else none
  | _ => s.inDispatcher .worker

def step (s : State T R) : Action T R → Option (State T R)
  | .enqueue t =>
    if s.calls t then some { s.setEnqueuer t (.pop s.given) with given := s.given + 1 } else none
  | .enqueuer t => enqueuerStep s t
  | .schedule t runner => if s.calls t then s.inDispatcher (.schedule t (.other runner)) else none
  | .dispose t => if s.calls t then s.inDispatcher (.dispose t) else none
  | .call t => s.inDispatcher (.call t)
  | .worker => workerStep s
  | .wakeUp => s.inDispatcher .wakeUp

def machine (T R : Type) [DecidableEq T] : Machine (State T R) (Action T R) where
  Init s := s = start T R
  step := step

end

end DignusActor.Continuations
