import DignusActor.Registry.ActorRegistry
import DignusActor.Runner.ActorRunner

/-! # The actor system

The model of `ActorSystem` (`actor_system.rs`): the registry, the runners it holds, the alias map,
the dispatcher threads, and the threads that spawn actors, send through handles and shut the system
down. An actor is known by the number of its reservation, which is also the runner that the
registry holds for it.

The registry and each runner are the component models of their own; a step here is a step of one
thread inside one of them, or one of its own: a load or swap of `is_disposed`, a block under the
lock of the alias map, the construction of a runner, a stop of a dispatcher. A panic that unwinds
out of the write lock of the alias map poisons it when `poisons` is set. -/

namespace DignusActor.ActorSystem

open Registry (Handle)

/-- A thread as the registry sees it: that of a dispatcher, or one of the callers. -/
inductive Thread (k : Nat) (T : Type)
  | worker (d : Fin k)
  | caller (t : T)
  deriving DecidableEq

/-- The arguments of a spawn. -/
structure Spawn (A : Type) where
  dispatcherIndex : Option Nat
  actorAlias : Option A
  mailboxCapacity : Nat
  /-- The `ActorContext` of the actor is not initialized yet. -/
  contextFresh : Bool

/-- A call of `dispose`, or of `shutdown_timeout` when `timed`. -/
structure Shutdown (k : Nat) where
  timed : Bool
  /-- The dispatcher on whose thread it runs. -/
  current : Option (Fin k)
  /-- How many spawns had returned when it was called. -/
  began : Nat

inductive Request (M : Type)
  | post (mail : M)
  | kill

def Request.kind {M : Type} : Request M → Registry.Request
  | .post _ => .post
  | .kill => .kill

/-- Where a caller stands, or how its last call ended. -/
inductive CallerPc (k : Nat) (M A : Type)
  | idle
  | panicked
  -- `spawn_with_dispatcher`, `spawn_with_auto_dispatcher` and `register_actor`
  | throwIfDisposed (spawn : Spawn A)
  | aliasCheck (spawn : Spawn A)
  | reserving (spawn : Spawn A)
  | newRunner (spawn : Spawn A) (n : Nat)
  | aliasInsert (spawn : Spawn A) (n : Nat)
  | committing (n : Nat)
  | spawned (n : Nat)
  -- `dispose` and `shutdown_timeout`
  | disposeSwap (call : Shutdown k)
  | askStop (call : Shutdown k)
  | snapshotting (call : Shutdown k)
  | killing (call : Shutdown k) (rest : List Nat)
  | killRunner (call : Shutdown k) (n : Nat) (rest : List Nat)
  | counting (call : Shutdown k)
  | counted (call : Shutdown k) (live : Nat)
  | countRemaining
  | stopDispatcher (call : Shutdown k) (i : Nat)
  | takeHandle (call : Shutdown k) (i : Nat)
  | join (call : Shutdown k) (i : Nat)
  | shutdownOk
  | shutdownTimeout (remainingActors : Nat)
  -- `ActorRef::post` and `ActorRef::kill`, and calls of a runner's methods
  | requesting (request : Request M)
  | inRunner (n : Nat)
  -- `try_get_actor_ref_by_alias`
  | aliasLookup (actorAlias : A)
  | lookedUp (handle : Option Handle)

def CallerPc.atRest {k : Nat} {M A : Type} : CallerPc k M A → Bool
  | .idle | .panicked | .spawned _ | .shutdownOk | .shutdownTimeout _ | .lookedUp _ => true
  | _ => false

/-- Where a dispatcher thread stands in `ActorSystem::finalize_kill`. -/
inductive FinalizePc (A : Type)
  | start
  | removing
  | aliasRemove (actorAlias : A)
  | done
  | panicked

structure Actor (k : Nat) (T M F A : Type) where
  owner : Fin k
  actorAlias : Option A
  run : ActorRunner.State (Fin k) T M F

/-- How far the one effective `begin_shutdown` has come. -/
inductive Disposal (T : Type)
  | notBegun
  | scanning (t : T)
  | killing (t : T)
  | done

structure State (k : Nat) (T M F A : Type) where
  registry : Registry.State (Thread k T) Nat
  actors : Nat → Option (Actor k T M F A)
  aliases : A → Option Handle
  aliasPoisoned : Bool
  isDisposed : Bool
  stopped : Fin k → Bool
  /-- The dispatcher still holds the `JoinHandle` of its thread. -/
  joinHandle : Fin k → Bool
  /-- The dispatcher's thread has ended. -/
  exited : Fin k → Bool
  /-- The actor that the dispatcher's thread is in `execute` of. -/
  busy : Fin k → Option Nat
  finalizers : Fin k → FinalizePc A
  callers : T → CallerPc k M A
  disposal : Disposal T
  /-- The actors whose spawn has returned, in that order. -/
  returned : List Nat
  /-- For each shutdown that succeeded, how many spawns had returned when it was called. -/
  succeeded : List Nat

variable {k : Nat} {T M F A : Type}

/-- `ActorSystem::with_capacities` with `k` dispatchers. -/
def withCapacity (k : Nat) (T M F A : Type) (actorCapacity : Nat) : State k T M F A where
  registry := Registry.withCapacity (Thread k T) Nat actorCapacity
  actors := fun _ => none
  aliases := fun _ => none
  aliasPoisoned := false
  isDisposed := false
  stopped := fun _ => false
  joinHandle := fun _ => true
  exited := fun _ => false
  busy := fun _ => none
  finalizers := fun _ => .start
  callers := fun _ => .idle
  disposal := .notBegun
  returned := []
  succeeded := []

section
variable [DecidableEq T] [DecidableEq A]

namespace State

variable (s : State k T M F A)

def setCaller (t : T) (pc : CallerPc k M A) : State k T M F A :=
  { s with callers := Function.update s.callers t pc }

def setActor (n : Nat) (actor : Actor k T M F A) : State k T M F A :=
  { s with actors := Function.update s.actors n (some actor) }

def setFinalizer (d : Fin k) (pc : FinalizePc A) : State k T M F A :=
  { s with finalizers := Function.update s.finalizers d pc }

/-- A step of the registry. -/
def inRegistry (poisons : Bool) (action : Registry.Action (Thread k T) Nat) :
    Option (State k T M F A) :=
  (Registry.step poisons s.registry action).map fun registry => { s with registry }

/-- A step of the runner of actor `n`. -/
def inActor (n : Nat) (action : ActorRunner.Action (Fin k) T M F) : Option (State k T M F A) :=
  (s.actors n).bind fun actor =>
    (ActorRunner.step actor.owner actor.run action).map fun run => s.setActor n { actor with run }

/-- Where caller `t` stands in the runner of actor `n`. -/
def callerIn (n : Nat) (t : T) : Option (ActorRunner.CallerPc (Fin k) M) :=
  (s.actors n).map fun actor => actor.run.callers t

/-- Where dispatcher `d` stands in the runner of actor `n`. -/
def workerIn (n : Nat) (d : Fin k) : Option (ActorRunner.WorkerPc M F) :=
  (s.actors n).map fun actor => actor.run.workers d

/-- Caller `t` is back from the runner of actor `n`. -/
def leftActor (n : Nat) (t : T) : Bool :=
  match s.callerIn n t with
  | some .idle => true
  | _ => false

/-- The panic of a spawn between `reserve` and `commit`. -/
def abandon (poisons : Bool) (t : T) : Option (State k T M F A) :=
  (s.inRegistry poisons (.abandon (.caller t))).map (·.setCaller t .panicked)

end State

/-- The dispatcher of a new actor, with the range check of `spawn_with_dispatcher` behind it. -/
def dispatcherOf (k : Nat) (spawn : Spawn A) (index : Nat) : Option (Fin k) :=
  let i := spawn.dispatcherIndex.getD (index % k)
  if h : i < k then some ⟨i, h⟩ else none

/-- `ActorRunner::new`, on dispatchers some of which may be stopped already. -/
def newActor (s : State k T M F A) (spawn : Spawn A) (owner : Fin k) :
    Option (Actor k T M F A) :=
  if spawn.contextFresh then
    (MpscBoundedQueue.new M mailSlotSize spawn.mailboxCapacity).map fun q =>
      let run := ActorRunner.initial (Fin k) T F q
      { owner
        actorAlias := spawn.actorAlias
        run := { run with mem := { run.mem with stopped := s.stopped } } }
  else none

/-- The next step of a spawn. -/
def spawnStep (poisons : Bool) (s : State k T M F A) (t : T) :
    CallerPc k M A → Option (State k T M F A)
  | .throwIfDisposed spawn =>
    let inRange := match spawn.dispatcherIndex with
      | some i => decide (i < k)
      | none => true
    some (s.setCaller t
      (if s.isDisposed || !inRange then .panicked else .aliasCheck spawn))
  | .aliasCheck spawn =>
    let isDuplicate := match spawn.actorAlias with
      | some actorAlias => s.aliasPoisoned || (s.aliases actorAlias).isSome
      | none => false
    if isDuplicate then some (s.setCaller t .panicked)
    else (s.inRegistry poisons (.reserve (.caller t))).map (·.setCaller t (.reserving spawn))
  | .reserving spawn =>
    (s.inRegistry poisons (.call (.caller t))).map fun s =>
      match s.registry.pcs (.caller t) with
      | .reserved n => s.setCaller t (.newRunner spawn n)
      | .panicked => s.setCaller t .panicked
      | _ => s
  | .newRunner spawn n =>
    (s.registry.mem.data.indexOf n).bind fun index =>
      (dispatcherOf k spawn index).bind fun owner =>
        match newActor s spawn owner with
        | some actor => some ((s.setActor n actor).setCaller t (.aliasInsert spawn n))
        | none => s.abandon poisons t
  | .aliasInsert spawn n =>
    match spawn.actorAlias, s.registry.mem.data.reservations[n]? with
    | some actorAlias, some reservation =>
      if s.aliasPoisoned then s.abandon poisons t
      else if (s.aliases actorAlias).isSome then
        (s.abandon poisons t).map ({ · with aliasPoisoned := poisons })
      else
        let aliases := Function.update s.aliases actorAlias (some reservation.toHandle)
        (s.inRegistry poisons (.commit (.caller t) n)).map
          ({ ·.setCaller t (.committing n) with aliases })
    | none, _ =>
      (s.inRegistry poisons (.commit (.caller t) n)).map (·.setCaller t (.committing n))
    | some _, none => none
  | .committing n =>
    (s.inRegistry poisons (.call (.caller t))).map fun s =>
      match s.registry.pcs (.caller t) with
      | .committed _ => { s.setCaller t (.spawned n) with returned := s.returned ++ [n] }
      | _ => s
  | _ => none

/-- The next step of a shutdown; `expired` says whether the clock is past the deadline. -/
def shutdownStep (poisons : Bool) (s : State k T M F A) (t : T) (expired : Bool) :
    CallerPc k M A → Option (State k T M F A)
  | .disposeSwap call =>
    if s.isDisposed then
      (s.inRegistry poisons (.liveCount (.caller t))).map (·.setCaller t (.counting call))
    else
      some { s.setCaller t (.askStop call) with isDisposed := true, disposal := .scanning t }
  | .askStop call =>
    (s.inRegistry poisons (.snapshotLive (.caller t))).map (·.setCaller t (.snapshotting call))
  | .snapshotting call =>
    (s.inRegistry poisons (.call (.caller t))).map fun s =>
      match s.registry.pcs (.caller t) with
      | .snapshot live => { s.setCaller t (.killing call live) with disposal := .killing t }
      | .panicked => s.setCaller t .panicked
      | _ => s
  | .killing call [] =>
    (s.inRegistry poisons (.liveCount (.caller t))).map fun s =>
      { s.setCaller t (.counting call) with disposal := .done }
  | .killing call (n :: rest) =>
    (s.inActor n (.kill t)).map (·.setCaller t (.killRunner call n rest))
  | .killRunner call n rest =>
    (s.inActor n (.caller t)).map fun s =>
      if s.leftActor n t then s.setCaller t (.killing call rest) else s
  | .counting call =>
    (s.inRegistry poisons (.call (.caller t))).map fun s =>
      match s.registry.pcs (.caller t) with
      | .counted live => s.setCaller t (.counted call live)
      | .panicked => s.setCaller t .panicked
      | _ => s
  | .counted call live =>
    if live = 0 then some (s.setCaller t (.stopDispatcher call 0))
    else
      (s.inRegistry poisons (.liveCount (.caller t))).map (·.setCaller t
        (if call.timed && expired then .countRemaining else .counting call))
  | .countRemaining =>
    (s.inRegistry poisons (.call (.caller t))).map fun s =>
      match s.registry.pcs (.caller t) with
      | .counted live => s.setCaller t (.shutdownTimeout live)
      | .panicked => s.setCaller t .panicked
      | _ => s
  | .stopDispatcher call i =>
    if h : i < k then
      some { s.setCaller t (.takeHandle call i) with
        stopped := Function.update s.stopped ⟨i, h⟩ true
        actors := fun n => (s.actors n).map fun actor =>
          { actor with
            run := { actor.run with
              mem := { actor.run.mem with
                stopped := Function.update actor.run.mem.stopped ⟨i, h⟩ true } } } }
    else some { s.setCaller t .shutdownOk with succeeded := s.succeeded ++ [call.began] }
  | .takeHandle call i =>
    if h : i < k then
      if s.joinHandle ⟨i, h⟩ then
        some { s.setCaller t (.join call i) with
          joinHandle := Function.update s.joinHandle ⟨i, h⟩ false }
      else some (s.setCaller t (.stopDispatcher call (i + 1)))
    else none
  | .join call i =>
    if h : i < k then
      if call.current = some ⟨i, h⟩ || s.exited ⟨i, h⟩ then
        some (s.setCaller t (.stopDispatcher call (i + 1)))
      else none
    else none
  | _ => none

/-- The next step of a call of `post` or `kill`, or of a lookup by alias. -/
def requestStep (poisons : Bool) (s : State k T M F A) (t : T) :
    CallerPc k M A → Option (State k T M F A)
  | .requesting request =>
    match s.registry.pcs (.caller t) with
    | .deliver _ n =>
      (s.inRegistry poisons (.call (.caller t))).bind fun s =>
        (s.inActor n (match request with
          | .post mail => .post t mail
          | .kill => .kill t)).map (·.setCaller t (.inRunner n))
    | _ =>
      (s.inRegistry poisons (.call (.caller t))).map fun s =>
        match s.registry.pcs (.caller t) with
        | .idle => s.setCaller t .idle
        | _ => s
  | .inRunner n =>
    (s.inActor n (.caller t)).map fun s => if s.leftActor n t then s.setCaller t .idle else s
  | .aliasLookup actorAlias =>
    some (s.setCaller t
      (if s.aliasPoisoned then .panicked else .lookedUp (s.aliases actorAlias)))
  | _ => none

/-- The next step of dispatcher `d` in `ActorSystem::finalize_kill` for actor `n`. -/
def finalizeStep (poisons : Bool) (s : State k T M F A) (d : Fin k) (n : Nat) :
    FinalizePc A → Option (State k T M F A)
  | .start => (s.inRegistry poisons (.remove (.worker d) n)).map (·.setFinalizer d .removing)
  | .removing =>
    (s.inRegistry poisons (.call (.worker d))).map fun s =>
      match s.registry.pcs (.worker d) with
      | .removed (some r) => s.setFinalizer d (match (s.actors r).bind (·.actorAlias) with
        | some actorAlias => .aliasRemove actorAlias
        | none => .done)
      | .removed none => s.setFinalizer d .done
      | .panicked => s.setFinalizer d .panicked
      | _ => s
  | .aliasRemove actorAlias =>
    if s.aliasPoisoned then some (s.setFinalizer d .panicked)
    else
      some { s.setFinalizer d .done with
        aliases := Function.update s.aliases actorAlias none }
  | .done =>
    (s.inActor n (.worker d .done)).map fun s =>
      { s.setFinalizer d .start with busy := Function.update s.busy d none }
  | .panicked =>
    (s.inActor n (.worker d .panicked)).map fun s =>
      { s.setFinalizer d .start with exited := Function.update s.exited d true }

/-- The next step of dispatcher `d` in `execute` of actor `n`. -/
def executeStep (poisons : Bool) (s : State k T M F A) (d : Fin k) (n : Nat)
    (outcome : ActorRunner.Outcome F) : Option (State k T M F A) :=
  match s.workerIn n d with
  | some .onFinalize => finalizeStep poisons s d n (s.finalizers d)
  | _ =>
    (s.inActor n (.worker d outcome)).map fun s =>
      match s.workerIn n d with
      | some .idle => { s with busy := Function.update s.busy d none }
      | some .dead => { s with exited := Function.update s.exited d true }
      | _ => s

inductive Action (k : Nat) (T M F A : Type)
  | spawn (t : T) (spawn : Spawn A)
  | shutdown (t : T) (timed : Bool) (current : Option (Fin k))
  | request (t : T) (request : Request M) (handle : Handle)
  | wake (t : T) (n : Nat) (current : Option (Fin k)) (waker : Fin k)
  | lookup (t : T) (actorAlias : A)
  | call (t : T) (expired : Bool)
  | pick (d : Fin k) (n : Nat)
  | execute (d : Fin k) (outcome : ActorRunner.Outcome F)
  | exit (d : Fin k)

/-- A call starts where no call is in progress. -/
def State.begin (s : State k T M F A) (t : T) (pc : CallerPc k M A) : Option (State k T M F A) :=
  if (s.callers t).atRest then some (s.setCaller t pc) else none

/-- One step of the system. -/
def step (poisons : Bool) (s : State k T M F A) :
    Action k T M F A → Option (State k T M F A)
  | .spawn t spawn => s.begin t (.throwIfDisposed spawn)
  | .shutdown t timed current =>
    s.begin t (.disposeSwap { timed, current, began := s.returned.length })
  | .request t request handle =>
    (s.inRegistry poisons (.lookup (.caller t) request.kind handle)).bind
      (·.begin t (.requesting request))
  | .wake t n current waker =>
    (s.inActor n (.wake t current waker)).bind (·.begin t (.inRunner n))
  | .lookup t actorAlias => s.begin t (.aliasLookup actorAlias)
  | .call t expired =>
    (spawnStep poisons s t (s.callers t)).or
      ((shutdownStep poisons s t expired (s.callers t)).or (requestStep poisons s t (s.callers t)))
  | .pick d n =>
    if s.busy d = none && !s.exited d then
      (s.inActor n (.pick d)).map fun s => { s with busy := Function.update s.busy d (some n) }
    else none
  | .execute d outcome => (s.busy d).bind fun n => executeStep poisons s d n outcome
  | .exit d =>
    if s.stopped d && s.busy d = none then
      some { s with exited := Function.update s.exited d true }
    else none

def machine (k : Nat) (T M F A : Type) [DecidableEq T] [DecidableEq A] (poisons : Bool)
    (actorCapacity : Nat) : Machine (State k T M F A) (Action k T M F A) where
  Init s := s = withCapacity k T M F A actorCapacity
  step := step poisons

end

end DignusActor.ActorSystem
