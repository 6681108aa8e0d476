import DignusActor.Machine.Transition

/-! # The bounded multi-producer single-consumer queue

The mailbox of an actor (`queues/mpsc_bounded_queue.rs`). A slot carries a sequence number next to
its data; a producer claims a position with a compare-exchange on `producer_index`, writes the data
and publishes it by storing `position + 1` in the slot's sequence; the consumer reads the data and
releases the slot for the next lap by storing `position + capacity`.

Every atomic operation, every write or read of a slot's data and every access to `consumer_index`
is one step of `step`, so `machine` has all interleavings of any number of producers with the
consumers. Positions and sequences are natural numbers: the source's `i64` arithmetic on them
agrees below `2 ^ 63`. The fields of `State` after the program counters are history variables; no
step reads them. -/

universe u v w

namespace DignusActor

/-- `Slot<T>`. The data of a slot that was never written is `none`. -/
structure MpscSlot (M : Type u) where
  sequence : Nat
  data : Option M

/-- `MpscBoundedQueue<T>`: the memory shared by the producers and the consumer. -/
structure MpscBoundedQueue (M : Type u) where
  buffer : Nat → MpscSlot M
  capacity : Nat
  producerIndex : Nat
  consumerIndex : Nat
  indexMask : Nat

/-- The size of a `Slot<ActorMail>` on a 64-bit target: the sequence, a `Box` and an
`Option<Arc>` of trait objects. -/
def mailSlotSize : Nat := 8 + 16 + 16

namespace MpscBoundedQueue

/-- The loop of `normalize_to_power_of_two`; `none` is its panic on `usize` overflow. -/
def normalizeLoop (capacity : Nat) : Nat → Nat → Option Nat
  | 0, _ => none
  | fuel + 1, normalized =>
    if normalized < capacity then
      if normalized * 2 < 2 ^ 64 then normalizeLoop capacity fuel (normalized * 2) else none
    else some normalized

/-- `normalize_to_power_of_two`: 64 doublings of one overflow `usize`, so the fuel never ends. -/
def normalizeToPowerOfTwo (capacity : Nat) : Option Nat := normalizeLoop capacity 65 1

/-- `isize::MAX`. -/
def isizeMax : Nat := 2 ^ 63 - 1

/-- `MpscBoundedQueue::new` for slots of `slotSize` bytes; `none` is one of its panics, that of
`Vec::with_capacity` on more than `isize::MAX` bytes included. -/
def new (M : Type u) (slotSize capacity : Nat) : Option (MpscBoundedQueue M) :=
  if capacity < 2 then none
  else (normalizeToPowerOfTwo capacity).bind fun normalized =>
    if normalized * slotSize ≤ isizeMax then
      some
        { buffer := fun slotIndex => ⟨slotIndex, none⟩
          capacity := normalized
          producerIndex := 0
          consumerIndex := 0
          indexMask := normalized - 1 }
    else none

/-- `position as usize & self.index_mask`. -/
def slotIndex (q : MpscBoundedQueue M) (position : Nat) : Nat := position &&& q.indexMask

/-- The slot of a position. -/
def slot (q : MpscBoundedQueue M) (position : Nat) : MpscSlot M := q.buffer (q.slotIndex position)

def storeSequence (q : MpscBoundedQueue M) (position sequence : Nat) : MpscBoundedQueue M :=
  { q with
    buffer := Function.update q.buffer (q.slotIndex position) { q.slot position with sequence } }

def storeData (q : MpscBoundedQueue M) (position : Nat) (item : M) : MpscBoundedQueue M :=
  { q with
    buffer :=
      Function.update q.buffer (q.slotIndex position) { q.slot position with data := some item } }

/-- Where a producer stands in `try_enqueue`. -/
inductive ProducerPc (M : Type u)
  | idle
  | loadIndex (item : M)
  | loadSequence (position : Nat) (item : M)
  | compareExchange (position : Nat) (item : M)
  | write (position : Nat) (item : M)
  | publish (position : Nat)
  | returned (accepted : Bool)

/-- Where a consumer stands in `try_dequeue` or `try_peek`. -/
inductive ConsumerPc (M : Type u)
  | idle
  | dequeue
  | dequeueSequence (position : Nat)
  | read (position : Nat)
  | release (position : Nat) (item : M)
  | advance (position : Nat) (item : M)
  | returned (item : Option M)
  | peek
  | peekSequence (position : Nat)
  | peeked (present : Bool)

def ProducerPc.inCall : ProducerPc M → Bool
  | .idle | .returned _ => false
  | _ => true

def ConsumerPc.inCall : ConsumerPc M → Bool
  | .idle | .returned _ | .peeked _ => false
  | _ => true

/-- The queue with its producers `P` and consumers `C`, and the history of its operations. -/
structure State (P : Type v) (C : Type w) (M : Type u) where
  queue : MpscBoundedQueue M
  producers : P → ProducerPc M
  consumers : C → ConsumerPc M
  /-- The producer and the item of each successful compare-exchange, by position. -/
  claimed : List (P × M)
  /-- The items returned by `try_dequeue`. -/
  dequeued : List M
  /-- How many positions the consumer has released. -/
  released : Nat
  /-- How many positions the consumer has read the data of. -/
  reads : Nat
  /-- The position a slot's data was last written for. -/
  writtenFor : Nat → Option Nat

variable {P : Type v} {C : Type w} {M : Type u}

/-- The items of the claimed positions, in the order of the positions. -/
def State.accepted (s : State P C M) : List M := s.claimed.map Prod.snd

def initial (P : Type v) (C : Type w) (q : MpscBoundedQueue M) : State P C M where
  queue := q
  producers := fun _ => .idle
  consumers := fun _ => .idle
  claimed := []
  dequeued := []
  released := 0
  reads := 0
  writtenFor := fun _ => none

section
variable [DecidableEq P] [DecidableEq C]

def State.setProducer (s : State P C M) (t : P) (pc : ProducerPc M) : State P C M :=
  { s with producers := Function.update s.producers t pc }

def State.setConsumer (s : State P C M) (c : C) (pc : ConsumerPc M) : State P C M :=
  { s with consumers := Function.update s.consumers c pc }

/-- The next step of a producer inside `try_enqueue`. -/
def producerStep (s : State P C M) (t : P) : Option (State P C M) :=
  match s.producers t with
  | .loadIndex item => some (s.setProducer t (.loadSequence s.queue.producerIndex item))
  | .loadSequence position item =>
    let difference : Int := (s.queue.slot position).sequence - position
    if difference = 0 then some (s.setProducer t (.compareExchange position item))
    else if difference < 0 then some (s.setProducer t (.returned false))
    else some (s.setProducer t (.loadIndex item))
  | .compareExchange position item =>
    if s.queue.producerIndex = position then
      some { s.setProducer t (.write position item) with
        queue := { s.queue with producerIndex := position + 1 }
        claimed := s.claimed ++ [(t, item)] }
    else some (s.setProducer t (.loadIndex item))
  | .write position item =>
    some { s.setProducer t (.publish position) with
      queue := s.queue.storeData position item
      writtenFor := Function.update s.writtenFor (s.queue.slotIndex position) (some position) }
  | .publish position =>
    some { s.setProducer t (.returned true) with
      queue := s.queue.storeSequence position (position + 1) }
  | .idle | .returned _ => none

/-- The next step of a consumer inside `try_dequeue` or `try_peek`. Two consumers can read one slot
twice, which is undefined in the source: a run with such a read is one of the model only. -/
def consumerStep (s : State P C M) (c : C) : Option (State P C M) :=
  match s.consumers c with
  | .dequeue => some (s.setConsumer c (.dequeueSequence s.queue.consumerIndex))
  | .dequeueSequence position =>
    let difference : Int := (s.queue.slot position).sequence - (position + 1 : Nat)
    if difference = 0 then some (s.setConsumer c (.read position))
    else some (s.setConsumer c (.returned none))
  | .read position =>
    -- `assume_init_read`: reading data that was never written has no behaviour
    (s.queue.slot position).data.map fun item =>
      { s.setConsumer c (.release position item) with reads := s.reads + 1 }
  | .release position item =>
    some { s.setConsumer c (.advance position item) with
      queue := s.queue.storeSequence position (position + s.queue.capacity)
      released := s.released + 1 }
  | .advance position item =>
    some { s.setConsumer c (.returned (some item)) with
      queue := { s.queue with consumerIndex := position + 1 }
      dequeued := s.dequeued ++ [item] }
  | .peek => some (s.setConsumer c (.peekSequence s.queue.consumerIndex))
  | .peekSequence position =>
    let difference : Int := (s.queue.slot position).sequence - (position + 1 : Nat)
    some (s.setConsumer c (.peeked (difference = 0)))
  | .idle | .returned _ | .peeked _ => none

inductive Action (P : Type v) (C : Type w) (M : Type u)
  | enqueue (t : P) (item : M)
  | producer (t : P)
  | dequeue (c : C)
  | peek (c : C)
  | consumer (c : C)

/-- The consumer an action belongs to. -/
def Action.consumer? : Action P C M → Option C
  | .dequeue c | .peek c | .consumer c => some c
  | .enqueue _ _ | .producer _ => none

/-- One step: a thread calls an operation, or does the next step of the one it is in. -/
def step (s : State P C M) : Action P C M → Option (State P C M)
  | .enqueue t item =>
    if (s.producers t).inCall then none else some (s.setProducer t (.loadIndex item))
  | .producer t => producerStep s t
  | .dequeue c => if (s.consumers c).inCall then none else some (s.setConsumer c .dequeue)
  | .peek c => if (s.consumers c).inCall then none else some (s.setConsumer c .peek)
  | .consumer c => consumerStep s c

/-- The queue made by `new capacity`, for items of any size, with all its interleavings. -/
def machine (P : Type v) (C : Type w) (M : Type u) [DecidableEq P] [DecidableEq C]
    (capacity : Nat) : Machine (State P C M) (Action P C M) where
  Init s := ∃ slotSize q, new M slotSize capacity = some q ∧ s = initial P C q
  step := step

end

end MpscBoundedQueue
end DignusActor
