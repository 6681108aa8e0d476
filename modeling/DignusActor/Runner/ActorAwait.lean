import DignusActor.Runner.Scheduled

/-! # A receive future that awaits dispatchers

The model of `ActorAwait::join` (`actor_await.rs`) around the one of a runner. The receive future is
known by the `ActorAwaiter`s that it waits on: a poll of it polls each of them, under the lock of
the slot, and may make new ones on the way, finish, or give some of them up. An awaiter that is
polled on another dispatcher than its own pushes a continuation to its own, once; the continuation
calls `wake` on that dispatcher's thread.

The queue of a dispatcher has the entries of the runner and the continuations in the order of their
pushes (`Awaiting.tasks`). The calls of the dispatcher threads that run a continuation are the
callers `.inl d`; every other call of `post`, `kill` and `wake` is one of a caller `.inr u`. -/

namespace DignusActor.ActorRunner

structure ActorAwaiter (D : Type) where
  dispatcher : D
  isScheduled : Bool
  deriving DecidableEq

/-- An entry of a scheduled queue: the runner, or the task of a continuation, with the dispatcher of
its waker. -/
inductive Task (D : Type)
  | runner
  | continuation (waker : D)
  deriving DecidableEq

/-- A poll of the receive future. -/
structure Polling (D : Type) where
  /-- The dispatcher whose thread has the lock of the slot. -/
  dispatcher : D
  /-- The awaiters that are still to be polled. -/
  rest : List (ActorAwaiter D)
  /-- The awaiters that answered `Pending`. -/
  pending : List (ActorAwaiter D)
  /-- Where a continuation is being scheduled, and whether `is_stopped` was read. -/
  scheduling : Option (D × Bool)
  deriving DecidableEq

structure Awaiting (D U M : Type) where
  runner : State D (D ⊕ U) M (List (ActorAwaiter D))
  tasks : D → List (Task D)
  polling : Option (Polling D)

namespace Awaiting

variable {D U M : Type}

inductive Action (D U M : Type)
  | runner (act : ActorRunner.Action D (D ⊕ U) M (List (ActorAwaiter D)))
  | pick (d : D)
  /-- A dispatcher runs a continuation. -/
  | resume (d : D)
  | beginPoll (d : D)
  | poll
  /-- The future makes an awaiter for dispatcher `target`. -/
  | join (target : D)
  /-- The future gives an awaiter up. -/
  | forget (awaiter : ActorAwaiter D)
  | endPoll (outcome : Outcome Unit)

/-- The step is one of the runner that goes by itself: the slot is locked only while no poll has the
lock, and a future that was not polled has no awaiter. -/
def goesAlone (s : Awaiting D U M) :
    ActorRunner.Action D (D ⊕ U) M (List (ActorAwaiter D)) → Bool
  | .post t _ | .kill t | .wake t _ _ => t.isRight
  | .caller _ | .stop _ => true
  | .pick _ => false
  | .worker d outcome =>
    match s.runner.workers d, outcome with
    | .pollSlot _, _ => s.polling.isNone && s.runner.mem.slot.isNone
    | .armSlot _, _ | .clearSlot, _ => s.polling.isNone
    | .receiving, .pending future => future.isEmpty
    | _, _ => true

/-- The queues once the runner has pushed the entries that `runner` has more. -/
def pushed (s : Awaiting D U M) (runner : State D (D ⊕ U) M (List (ActorAwaiter D))) :
    D → List (Task D) :=
  fun d => s.tasks d ++
    List.replicate ((runner.mem.queue d).length - (s.runner.mem.queue d).length) .runner

section

variable [DecidableEq D] [DecidableEq U]

/-- One step of `ActorAwaiter::poll`, or of the `enqueue_continuation` inside it. -/
def pollStep (s : Awaiting D U M) (p : Polling D) : Option (Awaiting D U M) :=
  match p.scheduling, p.rest with
  | none, [] => none
  | none, awaiter :: rest =>
    if awaiter.dispatcher = p.dispatcher then some { s with polling := some { p with rest } }
    else if awaiter.isScheduled then
      some { s with polling := some { p with rest, pending := p.pending ++ [awaiter] } }
    else
      some { s with
        polling := some { p with rest, scheduling := some (awaiter.dispatcher, false) } }
  | some (target, false), _ =>
    if s.runner.mem.stopped target then
      some { s with
        polling := some { p with pending := p.pending ++ [⟨target, true⟩], scheduling := none } }
    else some { s with polling := some { p with scheduling := some (target, true) } }
  | some (target, true), _ =>
    some { s with
      tasks := Function.update s.tasks target (s.tasks target ++ [.continuation p.dispatcher])
      polling := some { p with pending := p.pending ++ [⟨target, true⟩], scheduling := none } }

def step (owner : D) (s : Awaiting D U M) : Action D U M → Option (Awaiting D U M)
  | .runner act =>
    if s.goesAlone act then
      (ActorRunner.step owner s.runner act).map fun runner =>
        { s with runner, tasks := s.pushed runner }
    else none
  | .pick d =>
    match s.tasks d, s.runner.callers (.inl d) with
    | .runner :: rest, .idle => (ActorRunner.step owner s.runner (.pick d)).map fun runner =>
      { s with runner, tasks := Function.update s.tasks d rest }
    | _, _ => none
  | .resume d =>
    match s.tasks d, s.runner.workers d with
    | .continuation waker :: rest, .idle =>
      (ActorRunner.step owner s.runner (.wake (.inl d) (some d) waker)).map fun runner =>
        { s with runner, tasks := Function.update s.tasks d rest }
    | _, _ => none
  | .beginPoll d =>
    match s.polling, s.runner.workers d, s.runner.mem.slot with
    | none, .pollSlot _, some future => some { s with
      runner := { s.runner with
        mem := { s.runner.mem with wakers := Function.update s.runner.mem.wakers d true } }
      polling := some ⟨d, future, [], none⟩ }
    | _, _, _ => none
  | .poll => s.polling.bind s.pollStep
  | .join target =>
    match s.polling with
    | some ⟨d, rest, pending, none⟩ => some { s with
      polling := some ⟨d, ⟨target, false⟩ :: rest, pending, none⟩ }
    | _ => none
  | .forget awaiter =>
    match s.polling with
    | some ⟨d, rest, pending, none⟩ => some { s with
      polling := some (if awaiter ∈ rest then ⟨d, rest.erase awaiter, pending, none⟩
        else ⟨d, rest, pending.erase awaiter, none⟩) }
    | _ => none
  | .endPoll outcome =>
    match s.polling, outcome with
    | some ⟨d, [], pending, none⟩, .pending _ =>
      (ActorRunner.step owner s.runner (.worker d (.pending pending))).map fun runner =>
        { s with runner, polling := none }
    | some ⟨d, _, _, none⟩, .done =>
      (ActorRunner.step owner s.runner (.worker d .done)).map fun runner =>
        { s with runner, polling := none }
    | some ⟨d, _, _, none⟩, .panicked =>
      (ActorRunner.step owner s.runner (.worker d .panicked)).map fun runner =>
        { s with runner, polling := none }
    | _, _ => none

end

end Awaiting

/-- A runner owned by dispatcher `owner` with a mailbox of the given capacity, whose futures await
dispatchers. -/
def awaiting {D : Type} (U M : Type) [DecidableEq D] [DecidableEq U] (owner : D) (capacity : Nat) :
    Machine (Awaiting D U M) (Awaiting.Action D U M) where
  Init s := (machine (D ⊕ U) M (List (ActorAwaiter D)) owner capacity).Init s.runner ∧
    s = ⟨s.runner, fun _ => [], none⟩
  step := Awaiting.step owner

end DignusActor.ActorRunner
