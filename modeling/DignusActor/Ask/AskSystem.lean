import DignusActor.Machine.Transition

/-! # The ask system

The model of `AskSystem` (`internals/ask_system.rs`) and of the awaiters it guards
(`internals/ask_awaiter.rs`, `internals/ask_reply_actor_ref.rs`). An awaiter is known by the number
of its allocation; its address is whatever the allocator chose. Threads call `register`, reply
through an `AskReplyActorRef` and call `stop`; the owner of an `AskAwaiter` polls and drops it; one
sweeper thread runs passes over the table.

Each atomic operation, each block under a mutex, each `Weak::upgrade` and each reading of the clock
is one step. Waking a waker touches nothing of the ask system and is part of the step that completes
the awaiter. -/

namespace DignusActor.Ask

variable {T M W : Type}

/-! ## `ask_awaiter.rs` -/

/-- An allocated `AskAwaiterStateHolder` with the `AskAwaiter` that was made of it. -/
structure Awaiter (M W : Type) where
  address : Nat
  /-- The deadline that `register` computed for it. -/
  deadline : Nat
  /-- Whether a message downcasts to the awaiter's `TResponse`. -/
  accepts : M → Bool
  /-- The `AskAwaiter` has not been dropped. -/
  alive : Bool
  /-- How many `Arc`s were made by `upgrade` and not yet dropped. -/
  upgraded : Nat
  response : Option M
  completed : Bool
  timedOut : Bool
  waker : Option W
  /-- The wakers that `complete` has woken. -/
  woken : List W

/-- `AskAwaiter::new`. -/
def Awaiter.new (address deadline : Nat) (accepts : M → Bool) : Awaiter M W where
  address := address
  deadline := deadline
  accepts := accepts
  alive := true
  upgraded := 0
  response := none
  completed := false
  timedOut := false
  waker := none
  woken := []

/-- `Weak::strong_count`. -/
def Awaiter.strongCount (awaiter : Awaiter M W) : Nat := awaiter.alive.toNat + awaiter.upgraded

/-- `AskAwaiterStateHolder::complete`. -/
def Awaiter.complete (awaiter : Awaiter M W) (response : Option M) (timedOut : Bool) :
    Awaiter M W :=
  if awaiter.completed then awaiter
  else
    { awaiter with
      response, timedOut
      completed := true
      waker := none
      woken := awaiter.woken ++ awaiter.waker.toList }

def Awaiter.setResponse (awaiter : Awaiter M W) (message : M) : Awaiter M W :=
  awaiter.complete (some message) false

def Awaiter.setTimeout (awaiter : Awaiter M W) : Awaiter M W := awaiter.complete none true

/-- What a poll of an `AskAwaiter` answers; the last one is its panic. -/
inductive PollResult (M : Type)
  | pending
  | ok (response : M)
  | timeout
  | responseTypeMismatch
  | alreadyConsumed

/-- `AskAwaiter::poll`. The panic of a poll after `Ready` poisons the mutex of the state in the
source; here such a poll changes nothing. -/
def Awaiter.poll (willWake : W → W → Bool) (awaiter : Awaiter M W) (waker : W) :
    Awaiter M W × PollResult M :=
  if awaiter.completed then
    if awaiter.timedOut then (awaiter, .timeout)
    else match awaiter.response with
      | none => (awaiter, .alreadyConsumed)
      | some response =>
        ({ awaiter with response := none },
          if awaiter.accepts response then .ok response else .responseTypeMismatch)
  else
    let shouldReplaceWaker := match awaiter.waker with
      | some currentWaker => !willWake currentWaker waker
      | none => true
    (if shouldReplaceWaker then { awaiter with waker := some waker } else awaiter, .pending)

/-! ## `ask_system.rs` -/

structure AskSlot where
  askAwaiter : Nat
  deadline : Nat
  deriving DecidableEq

/-- `SWEEP_CAP`, in nanoseconds. -/
def sweepCap : Nat := 100000000

/-- `MIN_SLOT_COUNT`. -/
def minSlotCount : Nat := 2 ^ 18

/-- The number of slots that `AskSystem::new` makes. -/
def slotCountFor (slotCountHint : Nat) : Nat :=
  max (Nat.nextPowerOfTwo (max slotCountHint 1)) minSlotCount

/-- Where a caller stands in `register`, in a reply or in `stop`. -/
inductive CallerPc (M : Type)
  | idle
  | panicked
  | registerStopped (timeout address : Nat) (accepts : M → Bool)
  | registerClock (timeout address : Nat) (accepts : M → Bool)
  | reserveSlot (askAwaiter : Nat)
  | replyUpgrade (askAwaiter : Nat) (message : M)
  | setResponse (askAwaiter : Nat) (message : M)
  | replyDrop (askAwaiter : Nat)
  | stopSwap
  | stopNotify
  | stopJoin
  | stopSlot (slotIndex : Nat)
  | stopUpgrade (slotIndex : Nat) (entry : AskSlot)
  | stopTimeout (slotIndex : Nat) (askAwaiter : Nat)
  | stopDrop (slotIndex : Nat) (askAwaiter : Nat)

/-- Where the sweeper stands in `run_sweeper`. -/
inductive SweeperPc
  | start
  | readClock
  | scan (now slotIndex : Nat) (expired : List Nat) (nextDeadline : Option Nat)
  | upgrade (now slotIndex : Nat) (expired : List Nat) (nextDeadline : Option Nat)
    (entry : AskSlot)
  | setTimeout (now : Nat) (expired : List Nat) (nextDeadline : Option Nat)
  | drop (now : Nat) (askAwaiter : Nat) (expired : List Nat) (nextDeadline : Option Nat)
  | waitDuration (nextDeadline : Option Nat)
  | lock (duration : Nat)
  /-- Holding `sweeper_lock`. -/
  | recheck (duration : Nat)
  | wait (duration : Nat)
  | exited

structure State (T M W : Type) where
  slotCount : Nat
  slots : Nat → Option AskSlot
  isStopped : Bool
  clock : Nat
  awaiters : Nat → Option (Awaiter M W)
  allocated : Nat
  callers : T → CallerPc M
  sweeper : SweeperPc
  /-- The awaiters that `register` has put into the table, in that order. -/
  registered : List Nat
  /-- How many of them there were when the pass in progress read the clock. -/
  passBegan : Nat
  /-- The completed passes: the clock each one read, and how many awaiters were registered then. -/
  passes : List (Nat × Nat)

/-- `AskSystem::new`. -/
def new (T M W : Type) (slotCountHint : Nat) : State T M W where
  slotCount := slotCountFor slotCountHint
  slots := fun _ => none
  isStopped := false
  clock := 0
  awaiters := fun _ => none
  allocated := 0
  callers := fun _ => .idle
  sweeper := .start
  registered := []
  passBegan := 0
  passes := []

/-- `(address >> 5) & slot_mask`. -/
def State.startIndex (s : State T M W) (address : Nat) : Nat :=
  (address >>> 5) &&& (s.slotCount - 1)

def State.setAwaiter (s : State T M W) (a : Nat) (awaiter : Awaiter M W) : State T M W :=
  { s with awaiters := Function.update s.awaiters a (some awaiter) }

def State.setSlot (s : State T M W) (i : Nat) (slot : Option AskSlot) : State T M W :=
  { s with slots := Function.update s.slots i slot }

/-- Whether `upgrade` of a `Weak` for awaiter `a` succeeds. -/
def State.upgradable (s : State T M W) (a : Nat) : Bool :=
  match s.awaiters a with
  | some awaiter => awaiter.strongCount != 0
  | none => false

/-- Change an awaiter that is allocated. -/
def State.modify (s : State T M W) (a : Nat) (f : Awaiter M W → Awaiter M W) : State T M W :=
  match s.awaiters a with
  | some awaiter => s.setAwaiter a (f awaiter)
  | none => s

def Awaiter.upgrade (awaiter : Awaiter M W) : Awaiter M W :=
  { awaiter with upgraded := awaiter.upgraded + 1 }

def Awaiter.drop (awaiter : Awaiter M W) : Awaiter M W :=
  { awaiter with upgraded := awaiter.upgraded - 1 }

/-- The minimum that `run_sweeper` keeps of the deadlines it passes by. -/
def minDeadline (nextDeadline : Option Nat) (deadline : Nat) : Option Nat :=
  some (match nextDeadline with
    | some current => min current deadline
    | none => deadline)

/-- The next step of the sweeper. -/
def sweeperStep (s : State T M W) : Option (State T M W) :=
  match s.sweeper with
  | .start => some { s with sweeper := if s.isStopped then .exited else .readClock }
  | .readClock =>
    some { s with sweeper := .scan s.clock 0 [] none, passBegan := s.registered.length }
  | .scan now i expired nextDeadline =>
    if i < s.slotCount then
      match s.slots i with
      | none => some { s with sweeper := .scan now (i + 1) expired nextDeadline }
      | some entry =>
        if entry.deadline ≤ now || !s.upgradable entry.askAwaiter then
          some { s.setSlot i none with sweeper := .upgrade now i expired nextDeadline entry }
        else
          some { s with
            sweeper := .scan now (i + 1) expired (minDeadline nextDeadline entry.deadline) }
    else some { s with sweeper := .setTimeout now expired nextDeadline }
  | .upgrade now i expired nextDeadline entry =>
    if s.upgradable entry.askAwaiter then
      some { s.modify entry.askAwaiter .upgrade with
        sweeper := .scan now (i + 1) (expired ++ [entry.askAwaiter]) nextDeadline }
    else some { s with sweeper := .scan now (i + 1) expired nextDeadline }
  | .setTimeout now [] nextDeadline =>
    some { s with
      sweeper := .waitDuration nextDeadline
      passes := s.passes ++ [(now, s.passBegan)] }
  | .setTimeout now (a :: expired) nextDeadline =>
    some { s.modify a .setTimeout with sweeper := .drop now a expired nextDeadline }
  | .drop now a expired nextDeadline =>
    some { s.modify a .drop with sweeper := .setTimeout now expired nextDeadline }
  | .waitDuration nextDeadline =>
    some { s with
      sweeper := .lock (match nextDeadline with
        | some deadline => min (deadline - s.clock) sweepCap
        | none => sweepCap) }
  | .lock duration => some { s with sweeper := .recheck duration }
  | .recheck duration =>
    some { s with sweeper := if s.isStopped then .exited else .wait duration }
  | .wait _ => some { s with sweeper := .start }
  | .exited => none

def State.setCaller (s : State T M W) [DecidableEq T] (t : T) (pc : CallerPc M) : State T M W :=
  { s with callers := Function.update s.callers t pc }

/-- The next step of a caller. The deadline of a `register` does not overflow. -/
def callerStep [DecidableEq T] (s : State T M W) (t : T) : Option (State T M W) :=
  match s.callers t with
  | .idle | .panicked => none
  | .registerStopped timeout address accepts =>
    some (s.setCaller t (if s.isStopped then .panicked else .registerClock timeout address accepts))
  | .registerClock timeout address accepts =>
    let awaiter := Awaiter.new address (s.clock + timeout) accepts
    some { (s.setAwaiter s.allocated awaiter).setCaller t (.reserveSlot s.allocated) with
      allocated := s.allocated + 1 }
  | .reserveSlot a =>
    (s.awaiters a).map fun awaiter =>
      let slot := some ⟨a, awaiter.deadline⟩
      { (s.setSlot (s.startIndex awaiter.address) slot).setCaller t .idle with
        registered := s.registered ++ [a] }
  | .replyUpgrade a message =>
    if s.upgradable a then some ((s.modify a .upgrade).setCaller t (.setResponse a message))
    else some (s.setCaller t .idle)
  | .setResponse a message =>
    some ((s.modify a (·.setResponse message)).setCaller t (.replyDrop a))
  | .replyDrop a => some ((s.modify a .drop).setCaller t .idle)
  | .stopSwap =>
    if s.isStopped then some (s.setCaller t .idle)
    else some { s.setCaller t .stopNotify with isStopped := true }
  | .stopNotify =>
    match s.sweeper with
    -- the sweeper holds the lock
    | .recheck _ => none
    | _ => some (s.setCaller t .stopJoin)
  | .stopJoin =>
    match s.sweeper with
    | .exited => some (s.setCaller t (.stopSlot 0))
    | _ => none
  | .stopSlot i =>
    if i < s.slotCount then
      match s.slots i with
      | none => some (s.setCaller t (.stopSlot (i + 1)))
      | some entry => some ((s.setSlot i none).setCaller t (.stopUpgrade i entry))
    else some (s.setCaller t .idle)
  | .stopUpgrade i entry =>
    if s.upgradable entry.askAwaiter then
      some ((s.modify entry.askAwaiter .upgrade).setCaller t (.stopTimeout i entry.askAwaiter))
    else some (s.setCaller t (.stopSlot (i + 1)))
  | .stopTimeout i a => some ((s.modify a .setTimeout).setCaller t (.stopDrop i a))
  | .stopDrop i a => some ((s.modify a .drop).setCaller t (.stopSlot (i + 1)))

inductive Action (T M W : Type)
  | register (t : T) (timeout address : Nat) (accepts : M → Bool)
  | reply (t : T) (askAwaiter : Nat) (message : M)
  | stop (t : T)
  | call (t : T)
  | sweep
  | poll (askAwaiter : Nat) (waker : W)
  | drop (askAwaiter : Nat)
  | tick (nanoseconds : Nat)

/-- A call starts where no call is in progress. -/
def State.begin [DecidableEq T] (s : State T M W) (t : T) (pc : CallerPc M) :
    Option (State T M W) :=
  match s.callers t with
  | .idle => some (s.setCaller t pc)
  | _ => none

/-- One step of the ask system. Replies, polls and drops are for awaiters that `register` handed
out; a dropped `AskAwaiter` cannot be polled. -/
def step [DecidableEq T] (willWake : W → W → Bool) (s : State T M W) :
    Action T M W → Option (State T M W)
  | .register t timeout address accepts => s.begin t (.registerStopped timeout address accepts)
  | .reply t a message =>
    if s.registered.contains a then s.begin t (.replyUpgrade a message) else none
  | .stop t => s.begin t .stopSwap
  | .call t => callerStep s t
  | .sweep => sweeperStep s
  | .poll a waker =>
    match s.awaiters a with
    | some awaiter =>
      if s.registered.contains a && awaiter.alive then
        some (s.setAwaiter a (awaiter.poll willWake waker).1)
      else none
    | none => none
  | .drop a =>
    match s.awaiters a with
    | some awaiter =>
      if s.registered.contains a && awaiter.alive then
        some (s.setAwaiter a { awaiter with alive := false })
      else none
    | none => none
  | .tick nanoseconds => some { s with clock := s.clock + nanoseconds }

def machine (T M W : Type) [DecidableEq T] (willWake : W → W → Bool) (slotCountHint : Nat) :
    Machine (State T M W) (Action T M W) where
  Init s := s = new T M W slotCountHint
  step := step willWake

end DignusActor.Ask
