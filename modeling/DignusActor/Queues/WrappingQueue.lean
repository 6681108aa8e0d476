import DignusActor.Machine.Counter
import DignusActor.Queues.MpscRefinement

/-! # The bounded queue on 64-bit positions

`queues/mpsc_bounded_queue.rs` as a release build runs it: positions and sequences are `i64`, and
their arithmetic wraps around. `Sim` relates a state to one of `MpscBoundedQueue`, whose positions
are natural numbers. A step does the same in both (`Sim.step`) as long as no producer sleeps
between its load of `producer_index` and its compare-exchange while nearly `2 ^ 63` positions are
claimed (`NotLapped`). -/

universe u v

namespace DignusActor

/-- `Slot<T>`. -/
structure WrappingSlot (M : Type u) where
  sequence : BitVec 64
  data : Option M

/-- `MpscBoundedQueue<T>`. -/
structure WrappingQueue (M : Type u) where
  buffer : Nat → WrappingSlot M
  capacity : Nat
  producerIndex : BitVec 64
  consumerIndex : BitVec 64
  indexMask : Nat

namespace WrappingQueue

open MpscBoundedQueue (Action normalizeToPowerOfTwo isizeMax)

variable {P : Type v} {M : Type u}

/-- `MpscBoundedQueue::new`. -/
def new (M : Type u) (slotSize capacity : Nat) : Option (WrappingQueue M) :=
  if capacity < 2 then none
  else (normalizeToPowerOfTwo capacity).bind fun normalized =>
    if normalized * slotSize ≤ isizeMax then
      some
        { buffer := fun slotIndex => ⟨BitVec.ofNat 64 slotIndex, none⟩
          capacity := normalized
          producerIndex := 0
          consumerIndex := 0
          indexMask := normalized - 1 }
    else none

/-- `position as usize & self.index_mask`. -/
def slotIndex (q : WrappingQueue M) (position : BitVec 64) : Nat :=
  (position &&& BitVec.ofNat 64 q.indexMask).toNat

def slot (q : WrappingQueue M) (position : BitVec 64) : WrappingSlot M :=
  q.buffer (q.slotIndex position)

def storeSequence (q : WrappingQueue M) (position sequence : BitVec 64) : WrappingQueue M :=
  { q with
    buffer := Function.update q.buffer (q.slotIndex position) { q.slot position with sequence } }

def storeData (q : WrappingQueue M) (position : BitVec 64) (item : M) : WrappingQueue M :=
  { q with
    buffer :=
      Function.update q.buffer (q.slotIndex position) { q.slot position with data := some item } }

/-- Where a producer stands in `try_enqueue`. -/
inductive ProducerPc (M : Type u)
  | idle
  | loadIndex (item : M)
  | loadSequence (position : BitVec 64) (item : M)
  | compareExchange (position : BitVec 64) (item : M)
  | write (position : BitVec 64) (item : M)
  | publish (position : BitVec 64)
  | returned (accepted : Bool)

/-- Where the consumer stands in `try_dequeue` or `try_peek`. -/
inductive ConsumerPc (M : Type u)
  | idle
  | dequeue
  | dequeueSequence (position : BitVec 64)
  | read (position : BitVec 64)
  | release (position : BitVec 64) (item : M)
  | advance (position : BitVec 64) (item : M)
  | returned (item : Option M)
  | peek
  | peekSequence (position : BitVec 64)
  | peeked (present : Bool)

def ProducerPc.inCall : ProducerPc M → Bool
  | .idle | .returned _ => false
  | _ => true

def ConsumerPc.inCall : ConsumerPc M → Bool
  | .idle | .returned _ | .peeked _ => false
  | _ => true

/-- The queue with its producers `P` and its consumer, and the history of its operations. -/
structure State (P : Type v) (M : Type u) where
  queue : WrappingQueue M
  producers : P → ProducerPc M
  consumer : ConsumerPc M
  /-- The producer and the item of each successful compare-exchange. -/
  claimed : List (P × M)
  /-- The items returned by `try_dequeue`. -/
  dequeued : List M
  /-- How many positions the consumer has released. -/
  released : Nat
  /-- How many positions were claimed when a producer last loaded `producer_index`. -/
  loaded : P → Nat

def initial (P : Type v) (q : WrappingQueue M) : State P M where
  queue := q
  producers := fun _ => .idle
  consumer := .idle
  claimed := []
  dequeued := []
  released := 0
  loaded := fun _ => 0

/-- The abstract buffer: the claimed items, taken up to the released positions. -/
def State.fifo (s : State P M) : BoundedFifo M := .ofPut (s.claimed.map Prod.snd) s.released

section
variable [DecidableEq P]

def State.setProducer (s : State P M) (t : P) (pc : ProducerPc M) : State P M :=
  { s with producers := Function.update s.producers t pc }

/-- The next step of a producer inside `try_enqueue`. -/
def producerStep (s : State P M) (t : P) : Option (State P M) :=
  match s.producers t with
  | .loadIndex item =>
    some { s.setProducer t (.loadSequence s.queue.producerIndex item) with
      loaded := Function.update s.loaded t s.claimed.length }
  | .loadSequence position item =>
    let difference := ((s.queue.slot position).sequence - position).toInt
    if difference = 0 then some (s.setProducer t (.compareExchange position item))
    else if difference < 0 then some (s.setProducer t (.returned false))
    else some (s.setProducer t (.loadIndex item))
  | .compareExchange position item =>
    if s.queue.producerIndex = position then
      some { s.setProducer t (.write position item) with
        queue := { s.queue with producerIndex := position + 1 }
        claimed := s.claimed ++ [(t, item)] }
    else some (s.setProducer t (.loadIndex item))
  | .write position item =>
    some { s.setProducer t (.publish position) with queue := s.queue.storeData position item }
  | .publish position =>
    some { s.setProducer t (.returned true) with
      queue := s.queue.storeSequence position (position + 1) }
  | .idle | .returned _ => none

end

/-- The next step of the consumer inside `try_dequeue` or `try_peek`. -/
def consumerStep (s : State P M) : Option (State P M) :=
  match s.consumer with
  | .dequeue => some { s with consumer := .dequeueSequence s.queue.consumerIndex }
  | .dequeueSequence position =>
    let difference := ((s.queue.slot position).sequence - (position + 1)).toInt
    if difference = 0 then some { s with consumer := .read position }
    else some { s with consumer := .returned none }
  | .read position =>
    -- `assume_init_read`: reading data that was never written has no behaviour
    (s.queue.slot position).data.map fun item => { s with consumer := .release position item }
  | .release position item =>
    some { s with
      consumer := .advance position item
      queue := s.queue.storeSequence position (position + BitVec.ofNat 64 s.queue.capacity)
      released := s.released + 1 }
  | .advance position item =>
    some { s with
      consumer := .returned (some item)
      queue := { s.queue with consumerIndex := position + 1 }
      dequeued := s.dequeued ++ [item] }
  | .peek => some { s with consumer := .peekSequence s.queue.consumerIndex }
  | .peekSequence position =>
    let difference := ((s.queue.slot position).sequence - (position + 1)).toInt
    some { s with consumer := .peeked (difference = 0) }
  | .idle | .returned _ | .peeked _ => none

/-- One step: a thread calls an operation, or does the next step of the one it is in. -/
def step [DecidableEq P] (s : State P M) : Action P Unit M → Option (State P M)
  | .enqueue t item =>
    if (s.producers t).inCall then none else some (s.setProducer t (.loadIndex item))
  | .producer t => producerStep s t
  | .dequeue _ => if s.consumer.inCall then none else some { s with consumer := .dequeue }
  | .peek _ => if s.consumer.inCall then none else some { s with consumer := .peek }
  | .consumer _ => consumerStep s

/-- The queue made by `new capacity`, with all its interleavings. -/
def machine (P : Type v) (M : Type u) [DecidableEq P] (capacity : Nat) :
    Machine (State P M) (Action P Unit M) where
  Init s := ∃ slotSize q, new M slotSize capacity = some q ∧ s = initial P q
  step := step

/-- The producer compares its position with a sequence or with `producer_index` next. -/
def ProducerPc.compares : ProducerPc M → Bool
  | .loadSequence .. | .compareExchange .. => true
  | _ => false

/-- Fewer than `2 ^ 63`, less the capacity, were claimed since a producer loaded the position that
it compares. -/
def NotLapped (s : State P M) : Action P Unit M → Prop
  | .producer t => (s.producers t).compares = true →
    s.claimed.length + s.queue.capacity < s.loaded t + 2 ^ 63
  | _ => True

instance NotLapped.decidable (s : State P M) : ∀ a, Decidable (NotLapped s a)
  | .producer t => inferInstanceAs (Decidable ((s.producers t).compares = true →
    s.claimed.length + s.queue.capacity < s.loaded t + 2 ^ 63))
  | .enqueue .. | .dequeue _ | .peek _ | .consumer _ => .isTrue trivial

/-! ## The words of a queue -/

/-- The queue with its positions and sequences as words. -/
def wrap (q : MpscBoundedQueue M) : WrappingQueue M where
  buffer i := ⟨BitVec.ofNat 64 (q.buffer i).sequence, (q.buffer i).data⟩
  capacity := q.capacity
  producerIndex := BitVec.ofNat 64 q.producerIndex
  consumerIndex := BitVec.ofNat 64 q.consumerIndex
  indexMask := q.indexMask

def wrapProducer : MpscBoundedQueue.ProducerPc M → ProducerPc M
  | .idle => .idle
  | .loadIndex item => .loadIndex item
  | .loadSequence position item => .loadSequence (BitVec.ofNat 64 position) item
  | .compareExchange position item => .compareExchange (BitVec.ofNat 64 position) item
  | .write position item => .write (BitVec.ofNat 64 position) item
  | .publish position => .publish (BitVec.ofNat 64 position)
  | .returned accepted => .returned accepted

def wrapConsumer : MpscBoundedQueue.ConsumerPc M → ConsumerPc M
  | .idle => .idle
  | .dequeue => .dequeue
  | .dequeueSequence position => .dequeueSequence (BitVec.ofNat 64 position)
  | .read position => .read (BitVec.ofNat 64 position)
  | .release position item => .release (BitVec.ofNat 64 position) item
  | .advance position item => .advance (BitVec.ofNat 64 position) item
  | .returned item => .returned item
  | .peek => .peek
  | .peekSequence position => .peekSequence (BitVec.ofNat 64 position)
  | .peeked present => .peeked present

/-- `s` is the state `w` with its positions unwrapped. -/
structure Sim (w : State P M) (s : MpscBoundedQueue.State P Unit M) : Prop where
  queue : w.queue = wrap s.queue
  producers : ∀ t, w.producers t = wrapProducer (s.producers t)
  consumer : w.consumer = wrapConsumer (s.consumers ())
  claimed : w.claimed = s.claimed
  dequeued : w.dequeued = s.dequeued
  released : w.released = s.released
  loaded : ∀ t p item, s.producers t = .loadSequence p item ∨
    s.producers t = .compareExchange p item → w.loaded t = p

/-- A queue whose capacity fits an `i64` up to the sign. -/
structure Fits (q : MpscBoundedQueue M) : Prop where
  mask : q.indexMask = q.capacity - 1
  pow : ∃ k ≤ 63, q.capacity = 2 ^ k

section
variable {q : MpscBoundedQueue M} {p x : Nat}

theorem Fits.le (h : Fits q) : q.capacity ≤ 2 ^ 63 := by
  obtain ⟨k, hk, hcap⟩ := h.pow
  rw [hcap]
  exact Nat.pow_le_pow_right (by omega) hk

theorem Fits.slotIndex (h : Fits q) (p : Nat) :
    (wrap q).slotIndex (BitVec.ofNat 64 p) = q.slotIndex p := by
  obtain ⟨k, hk, hcap⟩ := h.pow
  have hmask : q.indexMask = 2 ^ k - 1 := by rw [h.mask, hcap]
  rw [WrappingQueue.slotIndex, MpscBoundedQueue.slotIndex, wrap, hmask,
    Counter.toNat_and_mask (by omega), Nat.and_two_pow_sub_one_eq_mod]

theorem Fits.slot (h : Fits q) (p : Nat) : (wrap q).slot (BitVec.ofNat 64 p) =
    ⟨BitVec.ofNat 64 (q.slot p).sequence, (q.slot p).data⟩ := by
  rw [WrappingQueue.slot, h.slotIndex]
  rfl

theorem Fits.storeSequence (h : Fits q) : (wrap q).storeSequence (BitVec.ofNat 64 p)
    (BitVec.ofNat 64 x) = wrap (q.storeSequence p x) := by
  simp only [WrappingQueue.storeSequence, h.slot, h.slotIndex]
  simp only [wrap, MpscBoundedQueue.storeSequence, WrappingQueue.mk.injEq, and_self, and_true]
  funext i
  by_cases hi : i = q.slotIndex p
  · subst hi
    simp
  · simp [hi]

theorem Fits.storeData (h : Fits q) {item : M} : (wrap q).storeData (BitVec.ofNat 64 p) item =
    wrap (q.storeData p item) := by
  simp only [WrappingQueue.storeData, h.slot, h.slotIndex]
  simp only [wrap, MpscBoundedQueue.storeData, WrappingQueue.mk.injEq, and_self, and_true]
  funext i
  by_cases hi : i = q.slotIndex p
  · subst hi
    simp
  · simp [hi]

theorem ofNat_succ (p : Nat) : BitVec.ofNat 64 p + 1 = BitVec.ofNat 64 (p + 1) :=
  (BitVec.ofNat_add p 1).symm

end

end WrappingQueue
end DignusActor
