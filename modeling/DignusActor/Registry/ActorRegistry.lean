import DignusActor.Machine.Transition

/-! # The actor registry

The model of `ActorRegistry` (`internals/registry.rs`) over any type of threads and any type of
runners. Each load and store of a generation, each lock and unlock of the `alloc` mutex or of the
mutex of a slot's owner, and each access under such a mutex is one step of a thread.

A panic under the `alloc` mutex poisons it when `poisons` is set, as `std::sync::Mutex` does; with
`poisons` unset the panic is an error result and nothing else. No code panics while it holds the
mutex of an owner. -/

namespace DignusActor.Registry

/-- The pair `(index, generation)` that `reserve` returns. -/
structure Handle where
  index : Nat
  generation : Nat
  deriving DecidableEq, Repr

structure Slot (R : Type) where
  generation : Nat
  owner : Option R
  /-- How often the slot was reserved. -/
  reserves : Nat
  /-- The number of its last reservation. -/
  latest : Nat

/-- What a `reserve` returned, and which of the reserves of its slot it was. -/
structure Reservation extends Handle where
  ordinal : Nat
  deriving DecidableEq, Repr

inductive Request
  | post
  | kill
  deriving DecidableEq, Repr

/-- The arguments of `post` or `kill`, and how many reservations there were when it was called. -/
structure Lookup extends Handle where
  request : Request
  began : Nat
  deriving DecidableEq, Repr

/-- A `remove` that returned `Some`, and how many reservations there were then. -/
structure Removal extends Handle where
  ended : Nat
  deriving DecidableEq, Repr

/-- Where a thread stands in a method of the registry, or what the last one returned. -/
inductive Pc (R : Type)
  | idle
  | panicked
  -- `reserve`
  | reserveLock
  | reservePop
  | reserveLoad (index : Nat)
  | reserveStore (index generation : Nat)
  | reserveLive (n : Nat)
  | reserveUnlock (n : Nat)
  | reserved (n : Nat)
  -- `commit`
  | commitLock (n : Nat) (runner : R)
  | commitStore (n : Nat) (runner : R)
  | commitUnlock (n : Nat)
  | committed (n : Nat)
  -- `post` and `kill`
  | lookupLoad (lookup : Lookup)
  | lookupLock (lookup : Lookup)
  | lookupRecheck (lookup : Lookup)
  | lookupClone (lookup : Lookup)
  | lookupUnlock (lookup : Lookup) (runner : Option R)
  | deliver (lookup : Lookup) (runner : R)
  -- `remove`
  | removeLock (handle : Handle)
  | removeLoad (handle : Handle)
  | removeStore (handle : Handle)
  | removeOwnerLock (handle : Handle)
  | removeTake (handle : Handle)
  | removeOwnerUnlock (handle : Handle) (removed : Option R)
  | removeFree (handle : Handle) (removed : Option R)
  | removeUnlock (handle : Handle) (removed : Option R)
  | removed (removed : Option R)
  -- `snapshot_live`
  | snapshotLock
  | snapshotSlot (index : Nat) (live : List R)
  | snapshotClone (index : Nat) (live : List R)
  | snapshotOwnerUnlock (index : Nat) (live : List R)
  | snapshotUnlock (live : List R)
  | snapshot (live : List R)
  -- `live_count`
  | countLock
  | countRead
  | countUnlock (live : Nat)
  | counted (live : Nat)

/-- The thread is in no method, and has no reservation to commit. -/
def Pc.atRest {R : Type} : Pc R → Bool
  | .idle | .panicked | .committed _ | .removed _ | .snapshot _ | .counted _ => true
  | _ => false

/-- The slots, and which of them can be handed out. -/
structure Data (R : Type) where
  capacity : Nat
  slots : Nat → Slot R
  /-- `alloc.free`, the last one pushed at the head. -/
  free : List Nat
  nextUnused : Nat
  /-- The reservations, in the order of their stores to a generation. -/
  reservations : List Reservation
  /-- The runner that each reservation was committed with. -/
  runners : Nat → Option R
  /-- The reservations that no `remove` has given back. -/
  outstanding : List Nat

/-- The memory of the registry with the holders of its mutexes. -/
structure Mem (T R : Type) where
  data : Data R
  live : Nat
  /-- The thread that holds the `alloc` mutex. -/
  alloc : Option T
  poisoned : Bool
  /-- The threads that hold the mutexes of the owners. -/
  owners : Nat → Option T
  /-- The calls of `enqueue_only` and `kill` on a runner. -/
  calls : List (Lookup × R)
  /-- The calls of `remove` that returned `Some`. -/
  removals : List Removal

structure State (T R : Type) where
  mem : Mem T R
  pcs : T → Pc R

variable {T R : Type}

/-- `ActorRegistry::with_capacity`. -/
def withCapacity (T R : Type) (capacity : Nat) : State T R where
  mem :=
    { data :=
        { capacity := min (max capacity 1) (2 ^ 32 - 2)
          slots := fun _ => { generation := 0, owner := none, reserves := 0, latest := 0 }
          free := []
          nextUnused := 0
          reservations := []
          runners := fun _ => none
          outstanding := [] }
      live := 0
      alloc := none
      poisoned := false
      owners := fun _ => none
      calls := []
      removals := [] }
  pcs := fun _ => .idle

/-- `wrapping_add(1)` on a `u32`. -/
def wrappingSucc (generation : Nat) : Nat := (generation + 1) % 2 ^ 32

/-! ## The accesses -/

namespace Data

def setSlot (d : Data R) (i : Nat) (slot : Slot R) : Data R :=
  { d with slots := Function.update d.slots i slot }

/-- The slot of reservation `n`. -/
def indexOf (d : Data R) (n : Nat) : Option Nat := (d.reservations[n]?).map (·.index)

/-- The store of `reserve` to the generation of slot `i`. -/
def reserve (d : Data R) (i generation : Nat) : Data R :=
  let n := d.reservations.length
  let ordinal := (d.slots i).reserves + 1
  { d.setSlot i { d.slots i with generation, reserves := ordinal, latest := n } with
    reservations := d.reservations ++ [{ index := i, generation, ordinal }]
    outstanding := d.outstanding ++ [n] }

/-- The store of `commit` to the owner of slot `i`. -/
def commit (d : Data R) (n i : Nat) (runner : R) : Data R :=
  { d.setSlot i { d.slots i with owner := some runner } with
    runners := Function.update d.runners n (some runner) }

/-- The store of `remove` to the generation. -/
def retire (d : Data R) (handle : Handle) : Data R :=
  d.setSlot handle.index
    { d.slots handle.index with generation := wrappingSucc handle.generation }

/-- `owner.take()`. -/
def takeOwner (d : Data R) (i : Nat) : Data R :=
  d.setSlot i { d.slots i with owner := none }

/-- What `remove` does to `alloc.free`. -/
def giveBack (d : Data R) (i : Nat) : Data R :=
  { d with
    free := i :: d.free
    outstanding := d.outstanding.erase (d.slots i).latest }

end Data

namespace Mem

/-- `alloc.lock().unwrap()`. -/
def lockAlloc (m : Mem T R) (t : T) (next : Pc R) : Option (Mem T R × Pc R) :=
  match m.alloc with
  | some _ => none
  | none => if m.poisoned then some (m, .panicked) else some ({ m with alloc := some t }, next)

def unlockAlloc (m : Mem T R) : Mem T R := { m with alloc := none }

/-- `owner.lock().unwrap()` on slot `i`. -/
def lockOwner (m : Mem T R) (t : T) (i : Nat) (next : Pc R) : Option (Mem T R × Pc R) :=
  match m.owners i with
  | some _ => none
  | none => some ({ m with owners := Function.update m.owners i (some t) }, next)

def unlockOwner (m : Mem T R) (i : Nat) : Mem T R :=
  { m with owners := Function.update m.owners i none }

/-- The bookkeeping of `remove`, which it skips when the slot had no owner. -/
def giveBack (m : Mem T R) (i : Nat) : Option R → Mem T R
  | some _ => { m with data := m.data.giveBack i, live := m.live - 1 }
  | none => m

/-- The end of `remove`. -/
def endRemove (m : Mem T R) (handle : Handle) : Option R → Mem T R
  | some _ =>
    { m.unlockAlloc with
      removals := m.removals ++ [{ handle with ended := m.data.reservations.length }] }
  | none => m.unlockAlloc

end Mem

/-! ## The steps -/

/-- The next step of thread `t` inside a method. -/
def callStep (poisons : Bool) (t : T) (m : Mem T R) : Pc R → Option (Mem T R × Pc R)
  | .idle | .panicked | .reserved _ | .committed _ | .removed _ | .snapshot _ | .counted _ => none
  | .reserveLock => m.lockAlloc t .reservePop
  | .reservePop =>
    match m.data.free with
    | i :: free => some ({ m with data := { m.data with free } }, .reserveLoad i)
    | [] =>
      let i := m.data.nextUnused
      if m.data.capacity ≤ i then some ({ m.unlockAlloc with poisoned := poisons }, .panicked)
      else some ({ m with data := { m.data with nextUnused := i + 1 } }, .reserveLoad i)
  | .reserveLoad i => some (m, .reserveStore i (wrappingSucc (m.data.slots i).generation))
  | .reserveStore i generation =>
    some ({ m with data := m.data.reserve i generation }, .reserveLive m.data.reservations.length)
  | .reserveLive n => some ({ m with live := m.live + 1 }, .reserveUnlock n)
  | .reserveUnlock n => some (m.unlockAlloc, .reserved n)
  | .commitLock n runner =>
    (m.data.indexOf n).bind fun i => m.lockOwner t i (.commitStore n runner)
  | .commitStore n runner =>
    (m.data.indexOf n).map fun i =>
      ({ m with data := m.data.commit n i runner }, .commitUnlock n)
  | .commitUnlock n => (m.data.indexOf n).map fun i => (m.unlockOwner i, .committed n)
  | .lookupLoad lookup =>
    if m.data.capacity ≤ lookup.index then some (m, .idle)
    else if (m.data.slots lookup.index).generation ≠ lookup.generation then some (m, .idle)
    else some (m, .lookupLock lookup)
  | .lookupLock lookup => m.lockOwner t lookup.index (.lookupRecheck lookup)
  | .lookupRecheck lookup =>
    if (m.data.slots lookup.index).generation ≠ lookup.generation then
      some (m, .lookupUnlock lookup none)
    else some (m, .lookupClone lookup)
  | .lookupClone lookup => some (m, .lookupUnlock lookup (m.data.slots lookup.index).owner)
  | .lookupUnlock lookup runner =>
    some (m.unlockOwner lookup.index, match runner with
      | some runner => .deliver lookup runner
      | none => .idle)
  | .deliver lookup runner =>
    some ({ m with calls := m.calls ++ [(lookup, runner)] }, .idle)
  | .removeLock handle => m.lockAlloc t (.removeLoad handle)
  | .removeLoad handle =>
    if m.data.capacity ≤ handle.index then some (m, .removeUnlock handle none)
    else if (m.data.slots handle.index).generation ≠ handle.generation then
      some (m, .removeUnlock handle none)
    else some (m, .removeStore handle)
  | .removeStore handle =>
    some ({ m with data := m.data.retire handle }, .removeOwnerLock handle)
  | .removeOwnerLock handle => m.lockOwner t handle.index (.removeTake handle)
  | .removeTake handle =>
    some ({ m with data := m.data.takeOwner handle.index },
      .removeOwnerUnlock handle (m.data.slots handle.index).owner)
  | .removeOwnerUnlock handle removed =>
    some (m.unlockOwner handle.index, .removeFree handle removed)
  | .removeFree handle removed =>
    some (m.giveBack handle.index removed, .removeUnlock handle removed)
  | .removeUnlock handle removed => some (m.endRemove handle removed, .removed removed)
  | .snapshotLock => m.lockAlloc t (.snapshotSlot 0 [])
  | .snapshotSlot i live =>
    if i < m.data.nextUnused then m.lockOwner t i (.snapshotClone i live)
    else some (m, .snapshotUnlock live)
  | .snapshotClone i live =>
    some (m, .snapshotOwnerUnlock i (live ++ (m.data.slots i).owner.toList))
  | .snapshotOwnerUnlock i live => some (m.unlockOwner i, .snapshotSlot (i + 1) live)
  | .snapshotUnlock live => some (m.unlockAlloc, .snapshot live)
  | .countLock => m.lockAlloc t .countRead
  | .countRead => some (m, .countUnlock m.live)
  | .countUnlock live => some (m.unlockAlloc, .counted live)

/-- A call of a method, or a step of it. -/
inductive Action (T R : Type)
  | reserve (t : T)
  | commit (t : T) (runner : R)
  /-- The spawn panics between `reserve` and `commit`. -/
  | abandon (t : T)
  | lookup (t : T) (request : Request) (handle : Handle)
  | remove (t : T) (n : Nat)
  | snapshotLive (t : T)
  | liveCount (t : T)
  | call (t : T)

section
variable [DecidableEq T]

def State.setPc (s : State T R) (t : T) (pc : Pc R) : State T R :=
  { s with pcs := Function.update s.pcs t pc }

/-- A call starts where no call is in progress. -/
def State.begin (s : State T R) (t : T) (pc : Pc R) : Option (State T R) :=
  if (s.pcs t).atRest then some (s.setPc t pc) else none

/-- One step of the registry. Threads commit what they reserved, and remove by a handle that a
reserve returned; `post` and `kill` take any handle. -/
def step (poisons : Bool) (s : State T R) : Action T R → Option (State T R)
  | .reserve t => s.begin t .reserveLock
  | .commit t runner =>
    match s.pcs t with
    | .reserved n => some (s.setPc t (.commitLock n runner))
    | _ => none
  | .abandon t =>
    match s.pcs t with
    | .reserved _ => some (s.setPc t .panicked)
    | _ => none
  | .lookup t request handle =>
    s.begin t (.lookupLoad { handle with request, began := s.mem.data.reservations.length })
  | .remove t n =>
    (s.mem.data.reservations[n]?).bind fun r => s.begin t (.removeLock r.toHandle)
  | .snapshotLive t => s.begin t .snapshotLock
  | .liveCount t => s.begin t .countLock
  | .call t => (callStep poisons t s.mem (s.pcs t)).map fun (mem, pc) =>
    { s with mem, pcs := Function.update s.pcs t pc }

def machine (T R : Type) [DecidableEq T] (poisons : Bool) (capacity : Nat) :
    Machine (State T R) (Action T R) where
  Init s := s = withCapacity T R capacity
  step := step poisons

end

end DignusActor.Registry
