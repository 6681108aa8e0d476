import DignusActor.Machine.Atomic
import DignusActor.Registry.Live

/-! # The table of handles

What the registry is for: a table of live handles, each with its runner once that is committed.
`handleTable` is the sequential object. `events` are the calls and returns of a run of the registry,
and `Abs` relates a state of the registry to a table and to where each thread stands in its call. -/

namespace DignusActor.Registry

open Object (Event Phase)

variable {T R : Type}

/-- The handles given out and not removed, with their runners. -/
structure Table (R : Type) where
  live : Finset Handle
  runners : Handle → Option R
  /-- The slots of handles that were removed before their commit; they are not used again. -/
  spent : Nat
  poisoned : Bool

inductive Input (R : Type)
  | reserve
  | commit (handle : Handle) (runner : R)
  /-- `post` and `kill`. -/
  | lookup (handle : Handle)
  | remove (handle : Handle)
  | liveCount
  deriving DecidableEq

inductive Output (R : Type)
  | handle (handle : Handle)
  | committed
  /-- The runner that `post` or `kill` reaches. -/
  | runner (runner : Option R)
  | removed (runner : Option R)
  | count (live : Nat)
  | panicked
  deriving DecidableEq

namespace Table

def get (a : Table R) (handle : Handle) : Option R :=
  if handle ∈ a.live then a.runners handle else none

def count (a : Table R) : Nat := a.live.card + a.spent

def add (a : Table R) (handle : Handle) : Table R :=
  { a with
    live := insert handle a.live
    runners := Function.update a.runners handle none }

def commit (a : Table R) (handle : Handle) (runner : R) : Table R :=
  { a with runners := Function.update a.runners handle (some runner) }

def remove (a : Table R) (handle : Handle) : Table R :=
  { a with
    live := a.live.erase handle
    spent := if handle ∈ a.live ∧ (a.runners handle).isNone then a.spent + 1 else a.spent }

end Table

/-- What a call of the table can return, and the table it leaves. -/
inductive Table.Apply (poisons : Bool) (capacity : Nat) (a : Table R) :
    Input R → Output R → Table R → Prop
  | reserve (handle : Handle) : a.poisoned = false → handle.index < capacity →
    handle.generation % 2 = 1 → (∀ g ∈ a.live, g.index ≠ handle.index) →
    Apply poisons capacity a .reserve (.handle handle) (a.add handle)
  | full : a.poisoned = false → a.count = capacity →
    Apply poisons capacity a .reserve .panicked { a with poisoned := poisons }
  | commit (handle : Handle) (runner : R) :
    Apply poisons capacity a (.commit handle runner) .committed (a.commit handle runner)
  | lookup (handle : Handle) :
    Apply poisons capacity a (.lookup handle) (.runner (a.get handle)) a
  | remove (handle : Handle) : a.poisoned = false →
    Apply poisons capacity a (.remove handle) (.removed (a.get handle)) (a.remove handle)
  | liveCount : a.poisoned = false →
    Apply poisons capacity a .liveCount (.count a.count) a
  | reservePoisoned : a.poisoned = true → Apply poisons capacity a .reserve .panicked a
  | removePoisoned (handle : Handle) : a.poisoned = true →
    Apply poisons capacity a (.remove handle) .panicked a
  | countPoisoned : a.poisoned = true → Apply poisons capacity a .liveCount .panicked a

/-- An empty table, with one call after the other. -/
def handleTable (R : Type) (poisons : Bool) (capacity : Nat) :
    Object (Table R) (Input R) (Output R) where
  Init a := a = { live := ∅, runners := fun _ => none, spent := 0, poisoned := false }
  Apply := Table.Apply poisons capacity

/-! ## The calls and the returns of the registry -/

/-- What a thread returns at a step from `pc` to `pc'`; `snapshot_live` is not a call of the
table. -/
def returned (d : Data R) : Pc R → Pc R → Option (Output R)
  | _, .reserved n => (d.reservations[n]?).map fun r => .handle r.toHandle
  | _, .committed _ => some .committed
  | _, .removed runner => some (.removed runner)
  | _, .counted live => some (.count live)
  | .deliver _ runner, .idle => some (.runner (some runner))
  | _, .idle => some (.runner none)
  | .snapshotLock, .panicked => none
  | _, .panicked => some .panicked
  | _, _ => none

def events (s : State T R) : Action T R → State T R → List (Event T (Input R) (Output R))
  | .reserve t, _ => [.call t .reserve]
  | .commit t runner, _ =>
    match s.pcs t with
    | .reserved n =>
      ((s.mem.data.reservations[n]?).map fun r => .call t (.commit r.toHandle runner)).toList
    | _ => []
  | .lookup t _ handle, _ => [.call t (.lookup handle)]
  | .remove t n, _ =>
    ((s.mem.data.reservations[n]?).map fun r => .call t (.remove r.toHandle)).toList
  | .liveCount t, _ => [.call t .liveCount]
  | .abandon _, _ | .snapshotLive _, _ => []
  | .call t, s' => ((returned s.mem.data (s.pcs t) (s'.pcs t)).map (.ret t)).toList

/-- `post` and `kill` are called with a handle of odd generation, as `reserve` returns it. -/
def LooksUpReserved (_ : State T R) : Action T R → Prop
  | .lookup _ _ handle => handle.generation % 2 = 1
  | _ => True

instance LooksUpReserved.decidable (s : State T R) :
    ∀ a : Action T R, Decidable (LooksUpReserved s a)
  | .lookup _ _ handle => inferInstanceAs (Decidable (handle.generation % 2 = 1))
  | .reserve _ | .commit .. | .abandon _ | .remove .. | .snapshotLive _ | .liveCount _
  | .call _ => .isTrue trivial

/-! ## The table of a state -/

/-- The slot of `handle` has its generation, and is reserved. -/
def Data.Holds (d : Data R) (handle : Handle) : Prop :=
  (d.slots handle.index).generation = handle.generation ∧ handle.generation % 2 = 1

/-- `remove` has retired a slot without an owner, and a commit may still come before it looks. -/
def Retiring (handle : Handle) (pc : Pc R) (phase : Phase (Input R) (Output R)) : Prop :=
  (pc = .removeOwnerLock handle ∨ pc = .removeTake handle) ∧ phase = .called (.remove handle)

/-- `remove` has taken effect on a handle with a runner, and has not given the slot back. -/
inductive Leaving : Pc R → Phase (Input R) (Output R) → Prop
  | lock (handle : Handle) (r : R) :
    Leaving (.removeOwnerLock handle) (.done (.removed (some r)))
  | take (handle : Handle) (r : R) : Leaving (.removeTake handle) (.done (.removed (some r)))
  | unlock (handle : Handle) (r : R) (phase) : Leaving (.removeOwnerUnlock handle (some r)) phase
  | free (handle : Handle) (r : R) (phase) : Leaving (.removeFree handle (some r)) phase

/-- Where a thread at `pc` stands in its call of the table. -/
def PhaseOk (d : Data R) (phase : Phase (Input R) (Output R)) : Pc R → Prop
  | .idle | .panicked | .reserved _ | .committed _ | .removed _ | .snapshot _ | .counted _
  | .snapshotLock | .snapshotSlot .. | .snapshotClone .. | .snapshotOwnerUnlock ..
  | .snapshotUnlock _ => phase = .idle
  | .reserveLock | .reservePop | .reserveLoad _ | .reserveStore .. => phase = .called .reserve
  | .reserveLive n | .reserveUnlock n =>
    ∃ r, d.reservations[n]? = some r ∧ phase = .done (.handle r.toHandle)
  | .commitLock n runner | .commitStore n runner =>
    ∃ r, d.reservations[n]? = some r ∧ phase = .called (.commit r.toHandle runner)
  | .commitUnlock _ => phase = .done .committed
  | .lookupLoad lookup | .lookupLock lookup | .lookupRecheck lookup =>
    phase = .called (.lookup lookup.toHandle) ∧ lookup.generation % 2 = 1
  | .lookupClone lookup => phase = .done (.runner (d.slots lookup.index).owner)
  | .lookupUnlock _ runner => phase = .done (.runner runner)
  | .deliver _ runner => phase = .done (.runner (some runner))
  | .removeLock handle | .removeLoad handle | .removeStore handle =>
    phase = .called (.remove handle)
  | .removeOwnerLock handle | .removeTake handle =>
    (phase = .called (.remove handle) ∧ (d.slots handle.index).owner = none) ∨
      ∃ r, phase = .done (.removed (some r)) ∧ (d.slots handle.index).owner = some r
  | .removeOwnerUnlock _ removed | .removeFree _ removed | .removeUnlock _ removed =>
    phase = .done (.removed removed)
  | .countLock | .countRead => phase = .called .liveCount
  | .countUnlock live => phase = .done (.count live)

/-- The table `a` and the phases `p` of the threads in state `s` of the registry. -/
structure Abs (s : State T R) (a : Table R) (p : T → Phase (Input R) (Output R)) : Prop where
  poisoned : a.poisoned = s.mem.poisoned
  live : ∀ h, h ∈ a.live ↔ s.mem.data.Holds h ∨ ∃ u, Retiring h (s.pcs u) (p u)
  runner : ∀ h ∈ a.live, a.runners h = (s.mem.data.slots h.index).owner
  leaving : ∀ u, Leaving (s.pcs u) (p u) → a.count + 1 = s.mem.data.outstanding.length
  counted : (∀ u, ¬Leaving (s.pcs u) (p u)) → a.count = s.mem.data.outstanding.length
  phase : ∀ t, PhaseOk s.mem.data (p t) (s.pcs t)

/-! ## What the other threads see of a step -/

section

variable {d d' : Data R} {phase : Phase (Input R) (Output R)} {pc : Pc R} {handle : Handle}

/-- The slot whose owner the thread is about to read. -/
def Pc.reads : Pc R → Option Nat
  | .lookupClone lookup => some lookup.index
  | .removeOwnerLock handle | .removeTake handle => some handle.index
  | _ => none

theorem PhaseOk.frame (h : PhaseOk d phase pc)
    (hold : ∀ (n : Nat) (r : Reservation), d.reservations[n]? = some r →
      d'.reservations[n]? = some r)
    (howner : ∀ i, pc.reads = some i → (d'.slots i).owner = (d.slots i).owner) :
    PhaseOk d' phase pc := by
  cases pc with
  | reserveLive n | reserveUnlock n | commitLock n | commitStore n =>
    obtain ⟨r, hr, hphase⟩ := h
    exact ⟨r, hold n r hr, hphase⟩
  | lookupClone lookup =>
    rw [PhaseOk, howner lookup.index rfl]
    exact h
  | removeOwnerLock handle | removeTake handle =>
    rw [PhaseOk, howner handle.index rfl]
    exact h
  | _ => exact h

/-- The handle that `remove` has given the next generation. -/
theorem Retiring.retired (h : Retiring handle pc phase) : pc.retired = some handle := by
  rcases h.1 with rfl | rfl <;> rfl

theorem not_retiring (h : pc.retired = none) (handle : Handle) : ¬Retiring handle pc phase := by
  intro hr
  cases h.symm.trans hr.retired

theorem not_leaving (h : pc.retired = none) : ¬Leaving pc phase := by
  intro hl
  cases hl <;> cases h

theorem Retiring.inAlloc (h : Retiring handle pc phase) : pc.inAlloc = true :=
  Pc.inAlloc_of_retired h.retired

theorem Leaving.inAlloc (h : Leaving pc phase) : pc.inAlloc = true := by
  cases h <;> rfl

end

end DignusActor.Registry
