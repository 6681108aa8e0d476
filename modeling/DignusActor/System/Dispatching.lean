import DignusActor.System.Panics

/-! # The dispatchers of the actor system

The model of `ActorDispatcher::process_scheduled_actors` (`actor_dispatcher.rs`) on the threads of
the actor system: each dispatcher takes what is in its `scheduled_actors` as a batch, and calls
`execute` for one entry after the other. An entry is the number of its actor. `ActorSystem.State`
says where the threads stand inside `execute`, and has the entries of each actor by dispatcher; here
the entries of a dispatcher stand in one queue, in their order.

The wait on the `Signal` may end at any time. A panic that unwinds out of `execute` ends the
loop. -/

namespace DignusActor.ActorRunner

variable {D M F : Type}

/-- The dispatcher that the worker is about to push an entry to. -/
def WorkerPc.pushes (owner : D) : WorkerPc M F → Option D
  | .schedule _ true => some owner
  | _ => none

/-- The dispatcher that the caller is about to push an entry to. -/
def CallerPc.pushes : CallerPc D M → Option D
  | .schedule _ dest true => some dest
  | _ => none

end DignusActor.ActorRunner

namespace DignusActor.Dispatching

open ActorSystem (Thread)

/-- Where a dispatcher thread stands in `process_scheduled_actors`. -/
inductive LoopPc
  | wait
  | take
  /-- At the head of the `for` loop, with what is left of the batch. -/
  | batch (entries : List Nat)
  | execute (n : Nat) (entries : List Nat)
  /-- At the load of `is_stopped` that follows an `execute`. -/
  | executed (entries : List Nat)
  /-- At the load of `is_stopped` that ends a round. -/
  | endRound
  | ended
  /-- A panic has unwound out of `execute`. -/
  | unwound
  deriving DecidableEq

/-- The entries of the batch whose `execute` has not returned. -/
def LoopPc.entries : LoopPc → List Nat
  | .batch entries | .executed entries => entries
  | .execute n entries => n :: entries
  | _ => []

structure State (k : Nat) (T M F A : Type) where
  system : ActorSystem.State k T M F A
  loops : Fin k → LoopPc
  scheduledActors : Fin k → List Nat
  /-- The entries in the order of their pushes. -/
  pushed : Fin k → List Nat
  /-- The entries whose `execute` has returned. -/
  executed : Fin k → List Nat
  /-- The actors whose user code has panicked on a dispatcher thread. -/
  failed : List Nat
  /-- The actors whose slots were given back. -/
  released : List Nat

variable {k : Nat} {T M F A : Type}

/-- `ActorSystem::with_capacities`, with the dispatchers started. -/
def start (k : Nat) (T M F A : Type) (actorCapacity : Nat) : State k T M F A where
  system := ActorSystem.withCapacity k T M F A actorCapacity
  loops := fun _ => .wait
  scheduledActors := fun _ => []
  pushed := fun _ => []
  executed := fun _ => []
  failed := []
  released := []

/-- The push of `ActorDispatcher::schedule` that thread `u` is about to make: the dispatcher, and
the actor. -/
def scheduling (s : ActorSystem.State k T M F A) : Thread k T → Option (Fin k × Nat)
  | .worker d => (s.busy d).bind fun n => (s.actors n).bind fun actor =>
    ((actor.run.workers d).pushes actor.owner).map (·, n)
  | .caller t =>
    match s.callers t with
    | .inRunner n | .killRunner _ n _ => (s.callerIn n t).bind fun pc => pc.pushes.map (·, n)
    | _ => none

/-- The actor whose user code panics in the step. -/
def panicking (s : ActorSystem.State k T M F A) : ActorSystem.Action k T M F A → Option Nat
  | .execute d .panicked => if s.inUserCode d then s.busy d else none
  | _ => none

namespace State

variable (s : State k T M F A)

def setLoop (d : Fin k) (pc : LoopPc) : State k T M F A :=
  { s with loops := Function.update s.loops d pc }

/-- The step inside the system, with the panics and the slots given back in it. -/
def within (a : ActorSystem.Action k T M F A) (system : ActorSystem.State k T M F A) :
    State k T M F A :=
  { s with
    system
    failed := s.failed ++ (panicking s.system a).toList
    released := s.released ++ s.system.registry.mem.data.outstanding.filter
      (· ∉ system.registry.mem.data.outstanding) }

/-- The push of `ActorDispatcher::schedule`. -/
def push : Option (Fin k × Nat) → State k T M F A
  | some (d, n) =>
    { s with
      scheduledActors := Function.update s.scheduledActors d (s.scheduledActors d ++ [n])
      pushed := Function.update s.pushed d (s.pushed d ++ [n]) }
  | none => s

/-- Dispatcher `d` after a step inside `execute`: it is in there still, or is back in the loop, or
has unwound. -/
def resume (d : Fin k) : State k T M F A :=
  match s.loops d with
  | .execute n entries =>
    if s.system.busy d = none then
      { s.setLoop d (.executed entries) with
        executed := Function.update s.executed d (s.executed d ++ [n]) }
    else if s.system.exited d then s.setLoop d .unwound
    else s
  | _ => s

end State

section
variable [DecidableEq T] [DecidableEq A]

/-- A step inside the system: of a caller, or of a dispatcher thread inside `execute`. -/
def systemStep (poisons : Bool) (s : State k T M F A) (a : ActorSystem.Action k T M F A) :
    Option (State k T M F A) :=
  (ActorSystem.step poisons s.system a).map fun system =>
    let s' := (s.within a system).push (scheduling s.system a.thread)
    match a with
    | .execute d _ => s'.resume d
    | _ => s'

/-- The end of `process_scheduled_actors`. -/
def exitLoop (poisons : Bool) (s : State k T M F A) (d : Fin k) : Option (State k T M F A) :=
  (ActorSystem.step poisons s.system (.exit d)).map fun system =>
    { s with system }.setLoop d .ended

/-- The next step of dispatcher `d` in `process_scheduled_actors`. -/
def loopStep (poisons : Bool) (s : State k T M F A) (d : Fin k) :
    LoopPc → Option (State k T M F A)
  | .wait => if s.system.stopped d then exitLoop poisons s d else some (s.setLoop d .take)
  | .take =>
    match s.scheduledActors d with
    | [] => some (s.setLoop d .endRound)
    | entries =>
      some ({ s with
        scheduledActors := Function.update s.scheduledActors d [] }.setLoop d (.batch entries))
  | .batch [] => some (s.setLoop d .take)
  | .batch (n :: entries) =>
    (ActorSystem.step poisons s.system (.pick d n)).map fun system =>
      { s with system }.setLoop d (.execute n entries)
  | .executed entries =>
    some (s.setLoop d (if s.system.stopped d then .endRound else .batch entries))
  | .endRound => if s.system.stopped d then exitLoop poisons s d else some (s.setLoop d .wait)
  | .execute .. | .ended | .unwound => none

inductive Action (k : Nat) (T M F A : Type)
  | system (a : ActorSystem.Action k T M F A)
  | loop (d : Fin k)

/-- One step of the system with its dispatchers. -/
def step (poisons : Bool) (s : State k T M F A) : Action k T M F A → Option (State k T M F A)
  | .system (.pick ..) | .system (.exit _) => none
  | .system a => systemStep poisons s a
  | .loop d => loopStep poisons s d (s.loops d)

def machine (k : Nat) (T M F A : Type) [DecidableEq T] [DecidableEq A] (poisons : Bool)
    (actorCapacity : Nat) : Machine (State k T M F A) (Action k T M F A) where
  Init s := s = start k T M F A actorCapacity
  step := step poisons

end

/-- `on_kill` and the dead-letter callback do not panic, and `finalize_kill` finds no lock
poisoned. -/
def Guarded (s : State k T M F A) : Action k T M F A → Prop
  | .system a => ActorSystem.Guarded s.system a
  | .loop _ => True

instance (s : State k T M F A) : ∀ a, Decidable (Guarded s a)
  | .system a => inferInstanceAs (Decidable (ActorSystem.Guarded s.system a))
  | .loop _ => .isTrue trivial

end DignusActor.Dispatching
