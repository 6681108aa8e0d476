import DignusActor.Queues.MpscBoundedQueue

/-! # An actor runner and the threads inside it

The model of one `ActorRunner` (`internals/actor_runner.rs`) with its `PollDriver`
(`poll_driver.rs`): the memory of the runner, the entries for it in the scheduled queues of the
dispatchers, and every thread that can be inside one of its methods.

* A *worker* is the thread of a dispatcher. It picks the entries of its own queue in order and
  runs `execute` for each (`WorkerPc`).
* A *caller* is a call of `enqueue_only` (with the `schedule_self` that follows it in
  `ActorRegistry::post`), of `kill` or of `ActorRunnerWake::wake` (`CallerPc`). A call made by user
  code on a dispatcher thread is a caller too; what it knows of its thread is the argument
  `current` of `wake`.

Each atomic load, store, swap or compare-exchange, each block under a mutex and each step of the
mailbox is one step. User code decides what it answers: `Outcome` is the result of `on_receive`, of
polling a receive future, of `on_kill`, of the dead-letter callback and of `on_finalize`. The queue
of a dispatcher is the batch its worker is draining followed by `scheduled_actors`. -/

namespace DignusActor.ActorRunner

/-- `LIFECYCLE_RUNNING`, `LIFECYCLE_KILLING` and `LIFECYCLE_STOPPED`. -/
inductive Lifecycle
  | running
  | killing
  | stopped
  deriving DecidableEq, Repr

/-- The call that pushed an entry. Kept for the statements; the code does not record it. -/
inductive Origin
  | post
  | kill
  | completion
  | failedPoll
  | endOfExecute
  | waker
  deriving DecidableEq, Repr

/-- What user code did: it returned, it returned a pending future, or it panicked. -/
inductive Outcome (F : Type)
  | done
  | pending (future : F)
  | panicked

/-- The two parts of `execute`: `execute_pending_receive`, and what follows it. -/
inductive Part
  | pending
  | mailbox
  deriving DecidableEq, Repr

/-- The two calls of `poll_pending_receive`; the first one knows what pushed the entry. -/
inductive PollSite
  | pending (origin : Origin)
  | mailbox
  deriving DecidableEq, Repr

def PollSite.part : PollSite → Part
  | .pending _ => .pending
  | .mailbox => .mailbox

/-- The calls of `ActorDispatcher::schedule` inside `execute`. -/
inductive ScheduleSite
  | completion (part : Part)
  | kill (part : Part)
  | failedPoll
  | endOfExecute
  deriving DecidableEq, Repr

def ScheduleSite.origin : ScheduleSite → Origin
  | .completion _ => .completion
  | .kill _ => .kill
  | .failedPoll => .failedPoll
  | .endOfExecute => .endOfExecute

/-- Where a dispatcher thread stands in `execute`. -/
inductive WorkerPc (M F : Type)
  /-- Not in `execute` of this runner. -/
  | idle
  /-- The thread unwound out of `execute`. -/
  | dead
  -- `execute_pending_receive` and `PollDriver::poll`
  | loadActive (origin : Origin)
  | pollUnmark (site : PollSite)
  | pollSlot (site : PollSite)
  | pollDeactivate (site : PollSite) (ready : Bool)
  | pollReset (site : PollSite) (ready : Bool)
  | schedule (site : ScheduleSite) (checked : Bool)
  -- `self.kill()` and `publish_execution_exception` after a failed receive
  | killLifecycle (part : Part)
  | killScheduled (part : Part)
  | publish (part : Part)
  -- the lifecycle check and the mailbox loop
  | loadLifecycle
  | dequeue
  | checkLifecycle (mail : M)
  | callReceive (mail : M)
  | receiving
  | armSlot (future : F)
  | armActivate
  | armUnmark
  -- the end of `execute`
  | finalLoad
  | clearScheduled
  | peek
  | reschedule
  -- `finalize_kill` and `PollDriver::clear`
  | finalizeSwap
  | drain
  | clearSlot
  | clearActive
  | clearUnmark
  | callOnKill
  | onKill
  | onFinalize

/-- Where a caller stands in `enqueue_only`, `kill` or `wake`. -/
inductive CallerPc (D M : Type)
  | idle
  | postLifecycle (mail : M)
  | postEnqueue (mail : M)
  | postScheduled
  | postSwap
  | killLifecycle
  | killSwap
  | wakeActive (dest : D)
  | wakeMark (dest : D)
  | schedule (origin : Origin) (dest : D) (checked : Bool)

/-- The memory of the runner and of the queues it is scheduled on. -/
structure Shared (D T M F : Type) where
  mailbox : MpscBoundedQueue.State T D M
  isScheduled : Bool
  lifecycle : Lifecycle
  isActive : Bool
  isPollScheduled : Bool
  slot : Option F
  /-- The entries of this runner with each dispatcher. -/
  queue : D → List Origin
  stopped : D → Bool
  /-- The dispatchers that made a waker of this runner. -/
  wakers : D → Bool
  /-- The mails that `on_receive` was called with. -/
  delivered : List M
  /-- How many receive futures were armed, and how many of them returned `Ready` or panicked. -/
  armed : Nat
  finished : Nat
  /-- How often the compare-exchange of `kill` ran. -/
  killCalls : Nat
  onKillStarts : Nat
  onKillReturns : Nat

structure State (D T M F : Type) where
  mem : Shared D T M F
  workers : D → WorkerPc M F
  callers : T → CallerPc D M

variable {D T M F : Type}

def initial (D T F : Type) (q : MpscBoundedQueue M) : State D T M F where
  mem :=
    { mailbox := MpscBoundedQueue.initial T D q
      isScheduled := false
      lifecycle := .running
      isActive := false
      isPollScheduled := false
      slot := none
      queue := fun _ => []
      stopped := fun _ => false
      wakers := fun _ => false
      delivered := []
      armed := 0
      finished := 0
      killCalls := 0
      onKillStarts := 0
      onKillReturns := 0 }
  workers := fun _ => .idle
  callers := fun _ => .idle

inductive Action (D T M F : Type)
  | post (t : T) (mail : M)
  | kill (t : T)
  | wake (t : T) (current : Option D) (waker : D)
  | caller (t : T)
  | pick (d : D)
  | worker (d : D) (outcome : Outcome F)
  | stop (d : D)

section
variable [DecidableEq D] [DecidableEq T]

/-- The push of `ActorDispatcher::schedule`. -/
def Shared.push (m : Shared D T M F) (dest : D) (origin : Origin) : Shared D T M F :=
  { m with queue := Function.update m.queue dest (m.queue dest ++ [origin]) }

/-- One step of `mailbox.try_dequeue()` on thread `d`, with its result when it returns. -/
def Shared.tryDequeue (m : Shared D T M F) (d : D) :
    Option (Shared D T M F × Option (Option M)) :=
  let action := if (m.mailbox.consumers d).inCall then .consumer d else .dequeue d
  (MpscBoundedQueue.step m.mailbox action).map fun mailbox =>
    ({ m with mailbox }, match mailbox.consumers d with
      | .returned item => some item
      | _ => none)

/-- One step of `mailbox.try_peek()` on thread `d`, with its result when it returns. -/
def Shared.tryPeek (m : Shared D T M F) (d : D) : Option (Shared D T M F × Option Bool) :=
  let action := if (m.mailbox.consumers d).inCall then .consumer d else .peek d
  (MpscBoundedQueue.step m.mailbox action).map fun mailbox =>
    ({ m with mailbox }, match mailbox.consumers d with
      | .peeked present => some present
      | _ => none)

/-- One step of `mailbox.try_enqueue(mail)` by caller `t`, with its result when it returns. -/
def Shared.tryEnqueue (m : Shared D T M F) (t : T) (mail : M) :
    Option (Shared D T M F × Option Bool) :=
  let action := if (m.mailbox.producers t).inCall then .producer t else .enqueue t mail
  (MpscBoundedQueue.step m.mailbox action).map fun mailbox =>
    ({ m with mailbox }, match mailbox.producers t with
      | .returned accepted => some accepted
      | _ => none)

/-- What `execute` does after a call of `schedule`. -/
def ScheduleSite.next : ScheduleSite → WorkerPc M F
  | .kill part => .publish part
  | .completion _ | .failedPoll | .endOfExecute => .idle

/-- The slot block of `PollDriver::poll`: the poll of the future, and what becomes of the slot. -/
def pollSlotStep (d : D) (m : Shared D T M F) (site : PollSite) (outcome : Outcome F) :
    Shared D T M F × WorkerPc M F :=
  match m.slot with
  | none =>
    ({ m with isActive := false }, match site with
      | .pending _ => .loadLifecycle
      | .mailbox => .dequeue)
  | some _ =>
    let m := { m with wakers := Function.update m.wakers d true }
    match outcome with
    | .pending future => ({ m with slot := some future }, .idle)
    | .done => ({ m with slot := none, finished := m.finished + 1 }, .pollDeactivate site true)
    | .panicked => ({ m with slot := none, finished := m.finished + 1 }, .pollDeactivate site false)

/-- The next step of the worker of dispatcher `d` inside `execute` of a runner owned by `owner`. A
mail or a future that is thrown away is dropped without a panic. -/
def workerStep (owner d : D) (m : Shared D T M F) (outcome : Outcome F) :
    WorkerPc M F → Option (Shared D T M F × WorkerPc M F)
  | .idle | .dead => none
  | .loadActive origin =>
    if m.isActive then some (m, .pollUnmark (.pending origin)) else some (m, .loadLifecycle)
  | .pollUnmark site => some ({ m with isPollScheduled := false }, .pollSlot site)
  | .pollSlot site => some (pollSlotStep d m site outcome)
  | .pollDeactivate site ready => some ({ m with isActive := false }, .pollReset site ready)
  | .pollReset site ready =>
    some ({ m with isPollScheduled := false },
      if ready then .schedule (.completion site.part) false else .killLifecycle site.part)
  | .schedule site false =>
    if m.stopped owner then some (m, site.next) else some (m, .schedule site true)
  | .schedule site true => some (m.push owner site.origin, site.next)
  | .killLifecycle part =>
    let m := { m with killCalls := m.killCalls + 1 }
    if m.lifecycle = .running then some ({ m with lifecycle := .killing }, .killScheduled part)
    else some (m, .publish part)
  | .killScheduled part =>
    if m.isScheduled then some (m, .publish part)
    else some ({ m with isScheduled := true }, .schedule (.kill part) false)
  | .publish part =>
    match outcome, part with
    | .done, .pending => some (m, .schedule .failedPoll false)
    | .done, .mailbox => some (m, .finalLoad)
    | .panicked, _ => some (m, .dead)
    | .pending _, _ => none
  | .loadLifecycle =>
    match m.lifecycle with
    | .killing => some (m, .finalizeSwap)
    | .stopped => some (m, .idle)
    | .running => some (m, .dequeue)
  | .dequeue =>
    (m.tryDequeue d).map fun (m, result) => (m, match result with
      | none => .dequeue
      | some none => .finalLoad
      | some (some mail) => .checkLifecycle mail)
  | .checkLifecycle mail =>
    if m.lifecycle = .running then some (m, .callReceive mail) else some (m, .finalLoad)
  | .callReceive mail => some ({ m with delivered := m.delivered ++ [mail] }, .receiving)
  | .receiving =>
    match outcome with
    | .done => some (m, .dequeue)
    | .pending future => some (m, .armSlot future)
    | .panicked => some (m, .killLifecycle .mailbox)
  | .armSlot future => some ({ m with slot := some future, armed := m.armed + 1 }, .armActivate)
  | .armActivate => some ({ m with isActive := true }, .armUnmark)
  | .armUnmark => some ({ m with isPollScheduled := false }, .pollUnmark .mailbox)
  | .finalLoad =>
    if m.lifecycle = .killing then some (m, .finalizeSwap) else some (m, .clearScheduled)
  | .clearScheduled => some ({ m with isScheduled := false }, .peek)
  | .peek =>
    (m.tryPeek d).map fun (m, result) => (m, match result with
      | none => .peek
      | some true => .reschedule
      | some false => .idle)
  | .reschedule =>
    if m.isScheduled then some (m, .idle)
    else some ({ m with isScheduled := true }, .schedule .endOfExecute false)
  | .finalizeSwap =>
    if m.lifecycle = .stopped then some (m, .idle)
    else some ({ m with lifecycle := .stopped }, .drain)
  | .drain =>
    (m.tryDequeue d).map fun (m, result) => (m, match result with
      | none => .drain
      | some none => .clearSlot
      | some (some _) => .drain)
  | .clearSlot => some ({ m with slot := none }, .clearActive)
  | .clearActive => some ({ m with isActive := false }, .clearUnmark)
  | .clearUnmark => some ({ m with isPollScheduled := false }, .callOnKill)
  | .callOnKill => some ({ m with onKillStarts := m.onKillStarts + 1 }, .onKill)
  | .onKill =>
    match outcome with
    | .done => some ({ m with onKillReturns := m.onKillReturns + 1 }, .onFinalize)
    | .panicked => some (m, .dead)
    | .pending _ => none
  | .onFinalize =>
    match outcome with
    | .done => some (m, .idle)
    | .panicked => some (m, .dead)
    | .pending _ => none

/-- The next step of a caller of a runner owned by `owner`. -/
def callerStep (owner : D) (t : T) (m : Shared D T M F) :
    CallerPc D M → Option (Shared D T M F × CallerPc D M)
  | .idle => none
  | .postLifecycle mail =>
    if m.lifecycle = .running then some (m, .postEnqueue mail) else some (m, .idle)
  | .postEnqueue mail =>
    (m.tryEnqueue t mail).map fun (m, result) => (m, match result with
      | none => .postEnqueue mail
      | some false => .idle
      | some true => .postScheduled)
  | .postScheduled => if m.isScheduled then some (m, .idle) else some (m, .postSwap)
  | .postSwap =>
    if m.isScheduled then some (m, .idle)
    else some ({ m with isScheduled := true }, .schedule .post owner false)
  | .killLifecycle =>
    let m := { m with killCalls := m.killCalls + 1 }
    if m.lifecycle = .running then some ({ m with lifecycle := .killing }, .killSwap)
    else some (m, .idle)
  | .killSwap =>
    if m.isScheduled then some (m, .idle)
    else some ({ m with isScheduled := true }, .schedule .kill owner false)
  | .wakeActive dest => if m.isActive then some (m, .wakeMark dest) else some (m, .idle)
  | .wakeMark dest =>
    if m.isPollScheduled then some (m, .idle)
    else some ({ m with isPollScheduled := true }, .schedule .waker dest false)
  | .schedule origin dest false =>
    if m.stopped dest then some (m, .idle) else some (m, .schedule origin dest true)
  | .schedule origin dest true => some (m.push dest origin, .idle)

def State.setCaller (s : State D T M F) (t : T) (pc : CallerPc D M) : State D T M F :=
  { s with callers := Function.update s.callers t pc }

/-- A call of `post`, `kill` or `wake` starts where no call is in progress. -/
def State.call (s : State D T M F) (t : T) (pc : CallerPc D M) : Option (State D T M F) :=
  match s.callers t with
  | .idle => some (s.setCaller t pc)
  | _ => none

/-- One step of the runner's threads. -/
def step (owner : D) (s : State D T M F) : Action D T M F → Option (State D T M F)
  | .post t mail => s.call t (.postLifecycle mail)
  | .kill t => s.call t .killLifecycle
  | .wake t current waker =>
    if s.mem.wakers waker then s.call t (.wakeActive (current.getD waker)) else none
  | .caller t => (callerStep owner t s.mem (s.callers t)).map fun (mem, pc) =>
    { s with mem, callers := Function.update s.callers t pc }
  | .pick d =>
    match s.workers d, s.mem.queue d with
    | .idle, origin :: rest =>
      some { s with
        mem := { s.mem with queue := Function.update s.mem.queue d rest }
        workers := Function.update s.workers d (.loadActive origin) }
    | _, _ => none
  | .worker d outcome => (workerStep owner d s.mem outcome (s.workers d)).map fun (mem, pc) =>
    { s with mem, workers := Function.update s.workers d pc }
  | .stop d => some { s with mem := { s.mem with stopped := Function.update s.mem.stopped d true } }

/-- A runner owned by dispatcher `owner` with a mailbox of the given capacity. -/
def machine (T M F : Type) [DecidableEq T] (owner : D) (capacity : Nat) :
    Machine (State D T M F) (Action D T M F) where
  Init s := ∃ q, MpscBoundedQueue.new M mailSlotSize capacity = some q ∧ s = initial D T F q
  step := step owner

end

end DignusActor.ActorRunner
