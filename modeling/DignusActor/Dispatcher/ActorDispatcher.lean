import DignusActor.Machine.Transition

/-! # An actor dispatcher

The model of `ActorDispatcher` (`actor_dispatcher.rs`) and of its `Signal` (`signal.rs`): the worker
thread in `process_scheduled_actors`, and any number of threads that call `schedule` and `dispose`.
The worker is one of them (`none`): an entry calls them on it from inside its `execute`, which
returns at last.

Each atomic operation and each block under a mutex is one step. The wait on the condition variable
gives the mutex back, and ends with a `notify_one` or for no reason at all. -/

namespace DignusActor.Dispatcher

/-- Where the worker stands in `process_scheduled_actors`. -/
inductive WorkerPc (E : Type)
  /-- In `Signal::wait`, about to look at `is_signaled`. -/
  | wait
  /-- In the wait on the condition variable. -/
  | blocked
  | loadStopped
  | clearPending
  | take
  | execute (entry : E) (batch : List E)
  /-- At the load of `is_stopped` that follows an `execute`. -/
  | executed (batch : List E)
  /-- At the load of `is_stopped` that ends a round. -/
  | endRound
  | ended
  deriving DecidableEq

/-- Where a thread stands in `schedule` or `dispose`. -/
inductive CallerPc (E : Type)
  | idle
  | scheduleStopped (entry : E)
  | schedulePush (entry : E)
  /-- At the compare-exchange of `signal_pending`. -/
  | schedulePending
  | scheduleRelease
  | disposeStop
  | disposeRelease
  | disposeTake
  | disposeJoin
  deriving DecidableEq

structure State (T E : Type) where
  scheduledActors : List E
  isStopped : Bool
  /-- `worker_thread` has its handle. -/
  workerThread : Bool
  isSignaled : Bool
  signalPending : Int
  worker : WorkerPc E
  callers : Option T → CallerPc E
  /-- The entries in the order of their pushes. -/
  pushed : List E
  /-- The entries whose `execute` was called. -/
  executed : List E

variable {T E : Type}

/-- A dispatcher that was started. -/
def start (T E : Type) : State T E where
  scheduledActors := []
  isStopped := false
  workerThread := true
  isSignaled := false
  signalPending := 0
  worker := .wait
  callers := fun _ => .idle
  pushed := []
  executed := []

inductive Action (T E : Type)
  | schedule (t : Option T) (entry : E)
  | dispose (t : Option T)
  | call (t : Option T)
  | worker
  /-- The wait on the condition variable ends by itself. -/
  | wakeUp
  deriving DecidableEq

namespace State

/-- `Signal::release`. -/
def release (s : State T E) : State T E :=
  { s with
    isSignaled := true
    worker := match s.worker with
      | .blocked => .wait
      | pc => pc }

/-- The call of `execute` for the first entry of what is left of a batch. -/
def runBatch (s : State T E) : List E → State T E
  | [] => { s with worker := .take }
  | entry :: batch =>
    { s with worker := .execute entry batch, executed := s.executed ++ [entry] }

end State

/-- The next step of the worker. -/
def workerStep (s : State T E) : Option (State T E) :=
  match s.worker with
  | .wait =>
    if s.isSignaled then some { s with isSignaled := false, worker := .loadStopped }
    else some { s with worker := .blocked }
  | .blocked => none
  | .loadStopped => some { s with worker := if s.isStopped then .ended else .clearPending }
  | .clearPending => some { s with signalPending := 0, worker := .take }
  | .take =>
    if s.scheduledActors.isEmpty then some { s with worker := .endRound }
    else some ({ s with scheduledActors := [] }.runBatch s.scheduledActors)
  | .execute _ batch =>
    match s.callers none with
    | .idle => some { s with worker := .executed batch }
    | _ => none
  | .executed batch =>
    if s.isStopped then some { s with worker := .endRound } else some (s.runBatch batch)
  | .endRound => some { s with worker := if s.isStopped then .ended else .wait }
  | .ended => none

section

variable [DecidableEq T]

def State.setCaller (s : State T E) (t : Option T) (pc : CallerPc E) : State T E :=
  { s with callers := Function.update s.callers t pc }

/-- The next step of a thread in `schedule` or `dispose`. -/
def callerStep (s : State T E) (t : Option T) : Option (State T E) :=
  match s.callers t with
  | .idle => none
  | .scheduleStopped entry =>
    some (s.setCaller t (if s.isStopped then .idle else .schedulePush entry))
  | .schedulePush entry =>
    some ({ s with
      scheduledActors := s.scheduledActors ++ [entry]
      pushed := s.pushed ++ [entry] }.setCaller t .schedulePending)
  | .schedulePending =>
    if s.signalPending = 0 then some ({ s with signalPending := 1 }.setCaller t .scheduleRelease)
    else some (s.setCaller t .idle)
  | .scheduleRelease => some (s.release.setCaller t .idle)
  | .disposeStop => some ({ s with isStopped := true }.setCaller t .disposeRelease)
  | .disposeRelease => some (s.release.setCaller t .disposeTake)
  | .disposeTake =>
    if s.workerThread ∧ t ≠ none then
      some ({ s with workerThread := false }.setCaller t .disposeJoin)
    else some ({ s with workerThread := false }.setCaller t .idle)
  | .disposeJoin =>
    match s.worker with
    | .ended => some (s.setCaller t .idle)
    | _ => none

/-- The thread can make a call: the worker can from inside an `execute`. -/
def State.calls (s : State T E) : Option T → Bool
  | some _ => true
  | none => match s.worker with
    | .execute _ _ => true
    | _ => false

def State.begin (s : State T E) (t : Option T) (pc : CallerPc E) : Option (State T E) :=
  match s.callers t with
  | .idle => if s.calls t then some (s.setCaller t pc) else none
  | _ => none

/-- One step of the dispatcher. -/
def step (s : State T E) : Action T E → Option (State T E)
  | .schedule t entry => s.begin t (.scheduleStopped entry)
  | .dispose t => s.begin t .disposeStop
  | .call t => callerStep s t
  | .worker => workerStep s
  | .wakeUp =>
    match s.worker with
    | .blocked => some { s with worker := .wait }
    | _ => none

def machine (T E : Type) [DecidableEq T] : Machine (State T E) (Action T E) where
  Init s := s = start T E
  step := step

end

end DignusActor.Dispatcher
