import DignusActor.Queues.MpscBoundedQueue

/-! # The invariant of the bounded queue

`Inv c s` ties every slot to the positions that can use it while `c` is the only consumer. The
positions from `released` to `released + capacity` are the window: two of them never share a slot
(`Inv.slotIndex_inj`), and each is unclaimed, held by the producer that claimed it, or published
(`SlotOk`). A stale producer is harmless because a compare-exchange can only succeed at the end of
the window it loaded (`ProducerOk`). One lemma per kind of step, assembled in `Inv.step`. -/

universe u v w

namespace DignusActor.MpscBoundedQueue

variable {P : Type v} {C : Type w} {M : Type u}

/-! ## Slots -/

/-- The index of a position in a queue whose capacity is a power of two. -/
def Shape (q : MpscBoundedQueue M) : Prop :=
  q.indexMask = q.capacity - 1 ∧ ∃ k, 1 ≤ k ∧ q.capacity = 2 ^ k

theorem Shape.slotIndex {q : MpscBoundedQueue M} (h : q.Shape) (p : Nat) :
    q.slotIndex p = p % q.capacity := by
  obtain ⟨hmask, k, _, hk⟩ := h
  rw [MpscBoundedQueue.slotIndex, hmask, hk, Nat.and_two_pow_sub_one_eq_mod]

theorem Shape.two_le {q : MpscBoundedQueue M} (h : q.Shape) : 2 ≤ q.capacity := by
  obtain ⟨_, k, hk, hcap⟩ := h
  rw [hcap]
  exact Nat.le_self_pow (by omega) 2

/-- The bounds check of `self.buffer[slot_index]` never fails. -/
theorem Shape.slotIndex_lt {q : MpscBoundedQueue M} (h : q.Shape) (p : Nat) :
    q.slotIndex p < q.capacity := by
  have := h.two_le
  rw [h.slotIndex]
  exact Nat.mod_lt _ (by omega)

/-- Two positions less than a lap apart have different slots. -/
theorem Shape.slotIndex_inj {q : MpscBoundedQueue M} (h : q.Shape) {a p r : Nat}
    (hp : a ≤ p) (hp' : p < a + q.capacity) (hr : a ≤ r) (hr' : r < a + q.capacity)
    (heq : q.slotIndex p = q.slotIndex r) : p = r := by
  rw [h.slotIndex, h.slotIndex] at heq
  rcases Nat.le_total p r with hle | hle
  · have hd := Nat.dvd_of_mod_eq_zero (Nat.sub_mod_eq_zero_of_mod_eq heq.symm)
    have := Nat.eq_zero_of_dvd_of_lt hd (by omega)
    omega
  · have hd := Nat.dvd_of_mod_eq_zero (Nat.sub_mod_eq_zero_of_mod_eq heq)
    have := Nat.eq_zero_of_dvd_of_lt hd (by omega)
    omega

/-- Every slot serves some position of the lap that starts at `a`. -/
theorem Shape.exists_slotIndex {q : MpscBoundedQueue M} (h : q.Shape) (a p : Nat) :
    ∃ r, a ≤ r ∧ r < a + q.capacity ∧ q.slotIndex r = q.slotIndex p := by
  have htwo := h.two_le
  have hle : a ≤ q.capacity * a := Nat.le_mul_of_pos_left a (by omega)
  have hlt := Nat.mod_lt (p + q.capacity * a - a) (by omega : q.capacity > 0)
  refine ⟨a + (p + q.capacity * a - a) % q.capacity, by omega, by omega, ?_⟩
  rw [h.slotIndex, h.slotIndex, Nat.add_mod_mod,
    show a + (p + q.capacity * a - a) = p + q.capacity * a by omega, Nat.add_mul_mod_self_left]

theorem Shape.slotIndex_add {q : MpscBoundedQueue M} (h : q.Shape) (p : Nat) :
    q.slotIndex (p + q.capacity) = q.slotIndex p := by
  rw [h.slotIndex, h.slotIndex, Nat.add_mod_right]

@[simp] theorem slotIndex_storeSequence (q : MpscBoundedQueue M) (p x r : Nat) :
    (q.storeSequence p x).slotIndex r = q.slotIndex r := rfl

@[simp] theorem slotIndex_storeData (q : MpscBoundedQueue M) (p r : Nat) (item : M) :
    (q.storeData p item).slotIndex r = q.slotIndex r := rfl

theorem slot_storeSequence_self (q : MpscBoundedQueue M) {p r : Nat} (x : Nat)
    (h : q.slotIndex r = q.slotIndex p) :
    (q.storeSequence p x).slot r = { q.slot p with sequence := x } := by
  simp [slot, storeSequence, slotIndex] at h ⊢
  simp [h]

theorem slot_storeSequence_ne (q : MpscBoundedQueue M) {p r : Nat} (x : Nat)
    (h : q.slotIndex r ≠ q.slotIndex p) : (q.storeSequence p x).slot r = q.slot r := by
  simp [slot, storeSequence, slotIndex] at h ⊢
  simp [h]

theorem slot_storeData_self (q : MpscBoundedQueue M) {p r : Nat} (item : M)
    (h : q.slotIndex r = q.slotIndex p) :
    (q.storeData p item).slot r = { q.slot p with data := some item } := by
  simp [slot, storeData, slotIndex] at h ⊢
  simp [h]

theorem slot_storeData_ne (q : MpscBoundedQueue M) {p r : Nat} (item : M)
    (h : q.slotIndex r ≠ q.slotIndex p) : (q.storeData p item).slot r = q.slot r := by
  simp [slot, storeData, slotIndex] at h ⊢
  simp [h]

/-! ## The invariant -/

/-- The position a producer has claimed and not yet published. -/
def ProducerPc.held : ProducerPc M → Option Nat
  | .write p _ | .publish p => some p
  | _ => none

/-- Position `p` is published and not yet released. -/
def State.Published (s : State P C M) (p : Nat) : Prop :=
  p < s.claimed.length ∧ (s.queue.slot p).sequence = p + 1 ∧
    (s.queue.slot p).data = s.accepted[p]? ∧ s.writtenFor (s.queue.slotIndex p) = some p

/-- What the slot of a position of the window holds. -/
def State.SlotOk (s : State P C M) (p : Nat) : Prop :=
  (s.claimed.length ≤ p ∧ (s.queue.slot p).sequence = p) ∨
  (p < s.claimed.length ∧ (s.queue.slot p).sequence = p ∧
    ∃ t, (s.producers t).held = some p) ∨
  s.Published p

/-- What producer `t` knows at each point of `try_enqueue`. -/
def State.ProducerOk (s : State P C M) (t : P) : ProducerPc M → Prop
  | .loadSequence p _ => p ≤ s.claimed.length
  | .compareExchange p _ =>
    p ≤ s.claimed.length ∧ (p = s.claimed.length → p < s.released + s.queue.capacity)
  | .write p item =>
    s.released ≤ p ∧ s.claimed[p]? = some (t, item) ∧ (s.queue.slot p).sequence = p ∧
      s.writtenFor (s.queue.slotIndex p) ≠ some p
  | .publish p =>
    s.released ≤ p ∧ (∃ item, s.claimed[p]? = some (t, item)) ∧ (s.queue.slot p).sequence = p ∧
      (s.queue.slot p).data = s.accepted[p]? ∧ s.writtenFor (s.queue.slotIndex p) = some p
  | .idle | .loadIndex _ | .returned _ => True

/-- How the consumer's counters stand at each point of `try_dequeue` and `try_peek`. -/
def State.ConsumerOk (s : State P C M) : ConsumerPc M → Prop
  | .idle | .dequeue | .returned _ | .peek | .peeked _ =>
    s.released = s.queue.consumerIndex ∧ s.reads = s.queue.consumerIndex
  | .dequeueSequence p | .peekSequence p =>
    p = s.queue.consumerIndex ∧ s.released = s.queue.consumerIndex ∧
      s.reads = s.queue.consumerIndex
  | .read p =>
    p = s.queue.consumerIndex ∧ s.released = s.queue.consumerIndex ∧
      s.reads = s.queue.consumerIndex ∧ s.Published p
  | .release p item =>
    p = s.queue.consumerIndex ∧ s.released = s.queue.consumerIndex ∧
      s.reads = s.queue.consumerIndex + 1 ∧ s.Published p ∧ s.accepted[p]? = some item
  | .advance p item =>
    p = s.queue.consumerIndex ∧ s.released = s.queue.consumerIndex + 1 ∧
      s.reads = s.queue.consumerIndex + 1 ∧ s.accepted[p]? = some item

/-- **The queue invariant** while `c` is the only consumer. -/
structure Inv (c : C) (s : State P C M) : Prop where
  shape : s.queue.Shape
  index : s.queue.producerIndex = s.claimed.length
  bound : s.claimed.length ≤ s.released + s.queue.capacity
  window : ∀ p, s.released ≤ p → p < s.released + s.queue.capacity → s.SlotOk p
  producer : ∀ t, s.ProducerOk t (s.producers t)
  written : ∀ i p, s.writtenFor i = some p → s.queue.slotIndex p = i ∧ p < s.claimed.length
  consumer : s.ConsumerOk (s.consumers c)
  idle : ∀ c', c' ≠ c → (s.consumers c').inCall = false
  consumed : s.queue.consumerIndex ≤ s.claimed.length
  dequeued : s.dequeued = s.accepted.take s.queue.consumerIndex

theorem State.length_accepted (s : State P C M) : s.accepted.length = s.claimed.length :=
  List.length_map ..

theorem State.accepted_of_claimed {s : State P C M} {p : Nat} {t : P} {item : M}
    (h : s.claimed[p]? = some (t, item)) : s.accepted[p]? = some item := by
  simp [State.accepted, h]

/-- A held position is in the window. -/
theorem Inv.held {c : C} {s : State P C M} (H : Inv c s) {t : P} {p : Nat}
    (h : (s.producers t).held = some p) :
    s.released ≤ p ∧ (∃ item, s.claimed[p]? = some (t, item)) ∧ (s.queue.slot p).sequence = p := by
  have hp := H.producer t
  revert h hp
  cases s.producers t <;> simp [ProducerPc.held, State.ProducerOk] <;> grind

theorem Inv.held_lt {c : C} {s : State P C M} (H : Inv c s) {t : P} {p : Nat}
    (h : (s.producers t).held = some p) : p < s.claimed.length := by
  obtain ⟨_, ⟨_, h⟩, _⟩ := H.held h
  exact (List.getElem?_eq_some_iff.mp h).1

/-- A position is held by one producer. -/
theorem Inv.held_unique {c : C} {s : State P C M} (H : Inv c s) {t t' : P} {p : Nat}
    (h : (s.producers t).held = some p) (h' : (s.producers t').held = some p) : t = t' := by
  obtain ⟨_, ⟨_, h⟩, _⟩ := H.held h
  obtain ⟨_, ⟨_, h'⟩, _⟩ := H.held h'
  rw [h] at h'
  cases h'
  rfl

/-- Positions of the window with one slot are equal. -/
theorem Inv.slotIndex_inj {c : C} {s : State P C M} (H : Inv c s) {p r : Nat}
    (hp : s.released ≤ p) (hp' : p < s.released + s.queue.capacity)
    (hr : s.released ≤ r) (hr' : r < s.released + s.queue.capacity) (hne : r ≠ p) :
    s.queue.slotIndex r ≠ s.queue.slotIndex p :=
  fun h => hne (H.shape.slotIndex_inj hr hr' hp hp' h)

theorem Inv.released_le {c : C} {s : State P C M} (H : Inv c s) :
    s.released ≤ s.claimed.length := by
  have hc := H.consumer
  have := H.consumed
  have := s.length_accepted
  revert hc
  cases s.consumers c <;> simp only [State.ConsumerOk] <;> grind

/-! ## Steps that only move a program counter -/

section
variable [DecidableEq P] {c : C} {s : State P C M}

theorem producerOk_setProducer {t t' : P} {pc pc' : ProducerPc M} :
    (s.setProducer t pc).ProducerOk t' pc' ↔ s.ProducerOk t' pc' := by
  cases pc' <;> exact Iff.rfl

theorem consumerOk_setProducer {t : P} {pc : ProducerPc M} {pc' : ConsumerPc M} :
    (s.setProducer t pc).ConsumerOk pc' ↔ s.ConsumerOk pc' := by
  cases pc' <;> exact Iff.rfl

/-- Moving a producer that holds no position. -/
theorem Inv.setProducer (H : Inv c s) {t : P} {pc : ProducerPc M}
    (hold : (s.producers t).held = none) (hok : s.ProducerOk t pc) :
    Inv c (s.setProducer t pc) where
  shape := H.shape
  index := H.index
  bound := H.bound
  window p hp hp' := by
    rcases H.window p hp hp' with h | ⟨h, hseq, t', ht'⟩ | h
    · exact .inl h
    · refine .inr (.inl ⟨h, hseq, t', ?_⟩)
      have hne : t' ≠ t := by
        rintro rfl
        rw [hold] at ht'
        cases ht'
      simpa [State.setProducer, hne] using ht'
    · exact .inr (.inr h)
  producer t' := by
    rw [producerOk_setProducer]
    by_cases hne : t' = t
    · subst hne
      simpa [State.setProducer] using hok
    · simpa [State.setProducer, hne] using H.producer t'
  written := H.written
  consumer := consumerOk_setProducer.mpr H.consumer
  idle := H.idle
  consumed := H.consumed
  dequeued := H.dequeued

end

section
variable [DecidableEq C] {c : C} {s : State P C M}

theorem producerOk_setConsumer {t : P} {pc : ConsumerPc M} {pc' : ProducerPc M} :
    (s.setConsumer c pc).ProducerOk t pc' ↔ s.ProducerOk t pc' := by
  cases pc' <;> exact Iff.rfl

theorem consumerOk_setConsumer {pc pc' : ConsumerPc M} :
    (s.setConsumer c pc).ConsumerOk pc' ↔ s.ConsumerOk pc' := by
  cases pc' <;> exact Iff.rfl

theorem Inv.setConsumer (H : Inv c s) {pc : ConsumerPc M} (hok : s.ConsumerOk pc) :
    Inv c (s.setConsumer c pc) where
  shape := H.shape
  index := H.index
  bound := H.bound
  window := H.window
  producer t := producerOk_setConsumer.mpr (H.producer t)
  written := H.written
  consumer := by
    rw [consumerOk_setConsumer]
    simpa [State.setConsumer] using hok
  idle c' hne := by simpa [State.setConsumer, hne] using H.idle c' hne
  consumed := H.consumed
  dequeued := H.dequeued

end

/-! ## The steps of `try_enqueue` -/

section
variable {c : C} {s : State P C M} {t : P} {p : Nat} {item : M}

/-- The sequence that makes a producer try its compare-exchange belongs to a position inside the
window: one lap behind, the slot would hold `released` or `released + 1`. This is where a capacity
of one would fail. -/
theorem Inv.lt_of_sequence_eq (H : Inv c s) (hseq : (s.queue.slot p).sequence = p)
    (hp : p = s.claimed.length) : p < s.released + s.queue.capacity := by
  by_contra hlt
  have hbound := H.bound
  have htwo := H.shape.two_le
  have hpe : p = s.released + s.queue.capacity := by omega
  have hslot : s.queue.slot p = s.queue.slot s.released := by
    rw [slot, slot, hpe, H.shape.slotIndex_add]
  rw [hslot] at hseq
  rcases H.window s.released (Nat.le_refl _) (by omega) with h | ⟨_, h, _⟩ | h
  · omega
  · omega
  · have := h.2.1
    omega

/-- A slot of the window holds its position or the next number. -/
theorem Inv.le_sequence (H : Inv c s) (hp : s.released ≤ p)
    (hp' : p < s.released + s.queue.capacity) : p ≤ (s.queue.slot p).sequence := by
  rcases H.window p hp hp' with h | ⟨_, h, _⟩ | h
  · omega
  · omega
  · have := h.2.1
    omega

/-- A sequence behind the loaded position means that the queue is full. A producer that was lapped
finds a sequence ahead of its position instead. -/
theorem Inv.full_of_sequence_lt (H : Inv c s) (hp : p ≤ s.claimed.length)
    (hlt : (s.queue.slot p).sequence < p) :
    s.claimed.length = s.released + s.queue.capacity := by
  have hbound := H.bound
  by_contra hne
  by_cases hr : s.released ≤ p
  · have := H.le_sequence hr (by omega)
    omega
  · obtain ⟨r, hr1, hr2, heq⟩ := H.shape.exists_slotIndex s.released p
    have := H.le_sequence hr1 hr2
    rw [slot, heq, ← slot] at this
    omega

theorem State.accepted_append {s' : State P C M} {x : P × M} {y : M}
    (hc : s'.claimed = s.claimed ++ [x]) (h : s.accepted[p]? = some y) :
    s'.accepted[p]? = some y := by
  have hlt := (List.getElem?_eq_some_iff.mp h).1
  rw [State.accepted, hc, List.map_append]
  exact (List.getElem?_append_left hlt).trans h

/-- Appending a claim keeps what is known about the earlier positions. -/
theorem State.Published.append {s' : State P C M} (h : s.Published p)
    (hc : s'.claimed = s.claimed ++ [(t, item)]) (hs : s'.queue.slot p = s.queue.slot p)
    (hi : s'.queue.slotIndex p = s.queue.slotIndex p) (hw : s'.writtenFor = s.writtenFor) :
    s'.Published p := by
  obtain ⟨hlt, hseq, hdata, hwr⟩ := h
  have hacc : s'.accepted[p]? = s.accepted[p]? := by
    rw [State.accepted, hc, List.map_append, List.getElem?_append_left (by simpa using hlt)]
    rfl
  refine ⟨?_, by rw [hs, hseq], by rw [hs, hdata, hacc], by rw [hw, hi, hwr]⟩
  rw [hc, List.length_append]
  exact Nat.lt_add_right _ hlt

section
variable [DecidableEq P]

/-- The successful compare-exchange. -/
theorem Inv.claim (H : Inv c s) (hpc : s.producers t = .compareExchange p item)
    (hidx : s.queue.producerIndex = p) :
    Inv c { s.setProducer t (.write p item) with
      queue := { s.queue with producerIndex := p + 1 }
      claimed := s.claimed ++ [(t, item)] } := by
  have hp : p = s.claimed.length := hidx.symm.trans H.index
  have hok := H.producer t
  rw [hpc] at hok
  have hlt : p < s.released + s.queue.capacity := hok.2 hp
  have hrel := H.released_le
  have hcons := H.consumed
  -- the slot of the claimed position was free, so its sequence is the position
  have hseq : (s.queue.slot p).sequence = p := by
    rcases H.window p (by omega) hlt with h | ⟨h, _⟩ | h
    · exact h.2
    · omega
    · have := h.1
      omega
  have hget : ∀ {r : Nat} {x : P × M}, s.claimed[r]? = some x →
      (s.claimed ++ [(t, item)])[r]? = some x := fun h => by
    rw [List.getElem?_append_left (List.getElem?_eq_some_iff.mp h).1, h]
  constructor
  case shape => exact H.shape
  case index => simp [hp]
  case bound =>
    simp only [List.length_append, List.length_singleton]
    exact (by omega : s.claimed.length + 1 ≤ s.released + s.queue.capacity)
  case window =>
    intro r hr hr'
    rcases H.window r hr hr' with h | ⟨h, hs, t', ht'⟩ | h
    · by_cases hrp : r = p
      · subst hrp
        refine .inr (.inl ⟨?_, hseq, t, by simp [State.setProducer, ProducerPc.held]⟩)
        simp [hp]
      · refine .inl ⟨?_, h.2⟩
        simp only [List.length_append, List.length_singleton]
        omega
    · refine .inr (.inl ⟨?_, hs, t', ?_⟩)
      · simp only [List.length_append, List.length_singleton]
        omega
      · have hne : t' ≠ t := by
          rintro rfl
          rw [hpc] at ht'
          cases ht'
        simpa [State.setProducer, hne] using ht'
    · exact .inr (.inr (h.append rfl rfl rfl rfl))
  case producer =>
    intro t'
    by_cases hne : t' = t
    · subst hne
      simp only [State.setProducer, Function.update_self, State.ProducerOk]
      refine ⟨by omega, ?_, hseq, ?_⟩
      · rw [hp, List.getElem?_append_right (Nat.le_refl _)]
        simp
      · intro h
        have := (H.written _ _ h).2
        omega
    · have h := H.producer t'
      simp only [State.setProducer, Function.update_of_ne hne]
      cases hpc' : s.producers t' with
      | idle | loadIndex | returned => trivial
      | loadSequence r =>
        rw [hpc'] at h
        simp only [State.ProducerOk, List.length_append, List.length_singleton] at h ⊢
        omega
      | compareExchange r =>
        rw [hpc'] at h
        simp only [State.ProducerOk, List.length_append, List.length_singleton] at h ⊢
        omega
      | write r =>
        rw [hpc'] at h
        exact ⟨h.1, hget h.2.1, h.2.2⟩
      | publish r =>
        rw [hpc'] at h
        obtain ⟨h1, ⟨x, hx⟩, h3, h4, h5⟩ := h
        refine ⟨h1, ⟨x, hget hx⟩, h3, h4.trans ?_, h5⟩
        rw [State.accepted_of_claimed hx, State.accepted_of_claimed (hget hx)]
  case written =>
    intro i r h
    obtain ⟨h1, h2⟩ := H.written i r h
    refine ⟨h1, ?_⟩
    simp only [List.length_append, List.length_singleton]
    exact Nat.lt_succ_of_lt h2
  case consumer =>
    have h := H.consumer
    simp only [State.setProducer]
    cases hc : s.consumers c with
    | read r =>
      rw [hc] at h
      exact ⟨h.1, h.2.1, h.2.2.1, h.2.2.2.append rfl rfl rfl rfl⟩
    | release r x =>
      rw [hc] at h
      exact ⟨h.1, h.2.1, h.2.2.1, h.2.2.2.1.append rfl rfl rfl rfl,
        State.accepted_append rfl h.2.2.2.2⟩
    | advance r x =>
      rw [hc] at h
      exact ⟨h.1, h.2.1, h.2.2.1, State.accepted_append rfl h.2.2.2⟩
    | _ =>
      rw [hc] at h
      exact h
  case idle => exact H.idle
  case consumed =>
    simp only [List.length_append, List.length_singleton]
    exact Nat.le_succ_of_le hcons
  case dequeued =>
    have hlen := s.length_accepted
    refine H.dequeued.trans ?_
    simp only [State.accepted, List.map_append]
    rw [List.take_append_of_le_length]
    exact hlen ▸ hcons

/-- A step of the producer that holds `p` on the slot of `p`. No other position of the window has
that slot, so only `p` and the producer have to be looked at. -/
theorem Inv.holder (H : Inv c s) (hheld : (s.producers t).held = some p)
    {pc : ProducerPc M} {buffer : Nat → MpscSlot M} {writtenFor : Nat → Option Nat}
    (hbuf : ∀ i, i ≠ s.queue.slotIndex p → buffer i = s.queue.buffer i)
    (hfor : ∀ i, i ≠ s.queue.slotIndex p → writtenFor i = s.writtenFor i)
    (hwr : ∀ i r, writtenFor i = some r → s.queue.slotIndex r = i ∧ r < s.claimed.length)
    (hslot : State.SlotOk { s.setProducer t pc with
      queue := { s.queue with buffer }, writtenFor } p)
    (hok : State.ProducerOk { s.setProducer t pc with
      queue := { s.queue with buffer }, writtenFor } t pc) :
    Inv c { s.setProducer t pc with queue := { s.queue with buffer }, writtenFor } := by
  obtain ⟨hrel, _, hseq⟩ := H.held hheld
  have hwin : p < s.released + s.queue.capacity := Nat.lt_of_lt_of_le (H.held_lt hheld) H.bound
  -- the other positions of the window keep their slots
  have hne : ∀ {r : Nat}, s.released ≤ r → r < s.released + s.queue.capacity → r ≠ p →
      buffer (s.queue.slotIndex r) = s.queue.slot r ∧
      writtenFor (s.queue.slotIndex r) = s.writtenFor (s.queue.slotIndex r) := by
    intro r h1 h2 h3
    have hidx := H.slotIndex_inj hrel hwin h1 h2 h3
    exact ⟨hbuf _ hidx, hfor _ hidx⟩
  have hpub : ∀ {r : Nat}, s.released ≤ r → s.Published r →
      State.Published { s.setProducer t pc with
        queue := { s.queue with buffer }, writtenFor } r := by
    rintro r h1 ⟨h2, h3, h4, h5⟩
    have hrp : r ≠ p := by
      rintro rfl
      omega
    obtain ⟨hb, hw⟩ := hne h1 (Nat.lt_of_lt_of_le h2 H.bound) hrp
    exact ⟨h2, (congrArg MpscSlot.sequence hb).trans h3, (congrArg MpscSlot.data hb).trans h4,
      hw.trans h5⟩
  constructor
  case shape => exact H.shape
  case index => exact H.index
  case bound => exact H.bound
  case window =>
    intro r hr hr'
    by_cases hrp : r = p
    · subst hrp
      exact hslot
    · obtain ⟨hb, hw⟩ := hne hr hr' hrp
      rcases H.window r hr hr' with ⟨h, hs⟩ | ⟨h, hs, t', ht'⟩ | h
      · exact .inl ⟨h, (congrArg MpscSlot.sequence hb).trans hs⟩
      · refine .inr (.inl ⟨h, (congrArg MpscSlot.sequence hb).trans hs, t', ?_⟩)
        have hne : t' ≠ t := by
          rintro rfl
          rw [hheld] at ht'
          exact hrp (Option.some.inj ht').symm
        simpa [State.setProducer, hne] using ht'
      · exact .inr (.inr (hpub hr h))
  case producer =>
    intro t'
    by_cases ht : t' = t
    · subst ht
      simpa [State.setProducer] using hok
    · have h := H.producer t'
      simp only [State.setProducer, Function.update_of_ne ht]
      cases hpc' : s.producers t' with
      | write r x =>
        rw [hpc'] at h
        have hheld' : (s.producers t').held = some r := by rw [hpc']; rfl
        have hrp : r ≠ p := by
          rintro rfl
          exact ht (H.held_unique hheld' hheld)
        obtain ⟨hb, hw⟩ := hne h.1 (Nat.lt_of_lt_of_le (H.held_lt hheld') H.bound) hrp
        exact ⟨h.1, h.2.1, (congrArg MpscSlot.sequence hb).trans h.2.2.1,
          fun e => h.2.2.2 (hw.symm.trans e)⟩
      | publish r =>
        rw [hpc'] at h
        have hheld' : (s.producers t').held = some r := by rw [hpc']; rfl
        have hrp : r ≠ p := by
          rintro rfl
          exact ht (H.held_unique hheld' hheld)
        obtain ⟨hb, hw⟩ := hne h.1 (Nat.lt_of_lt_of_le (H.held_lt hheld') H.bound) hrp
        obtain ⟨h1, h2, h3, h4, h5⟩ := h
        exact ⟨h1, h2, (congrArg MpscSlot.sequence hb).trans h3,
          (congrArg MpscSlot.data hb).trans h4, hw.trans h5⟩
      | _ =>
        rw [hpc'] at h
        exact h
  case written => exact hwr
  case consumer =>
    have h := H.consumer
    simp only [State.setProducer]
    cases hc : s.consumers c with
    | read r =>
      rw [hc] at h
      exact ⟨h.1, h.2.1, h.2.2.1, hpub (h.2.1.trans h.1.symm).le h.2.2.2⟩
    | release r x =>
      rw [hc] at h
      exact ⟨h.1, h.2.1, h.2.2.1, hpub (h.2.1.trans h.1.symm).le h.2.2.2.1, h.2.2.2.2⟩
    | _ =>
      rw [hc] at h
      exact h
  case idle => exact H.idle
  case consumed => exact H.consumed
  case dequeued => exact H.dequeued

/-- The write of the data of a claimed position. -/
theorem Inv.write (H : Inv c s) (hpc : s.producers t = .write p item) :
    Inv c { s.setProducer t (.publish p) with
      queue := s.queue.storeData p item
      writtenFor := Function.update s.writtenFor (s.queue.slotIndex p) (some p) } := by
  have hok := H.producer t
  rw [hpc] at hok
  obtain ⟨hrel, hclaim, hseq, hwr⟩ := hok
  have hlt : p < s.claimed.length := (List.getElem?_eq_some_iff.mp hclaim).1
  have hself : (s.queue.storeData p item).slot p = { s.queue.slot p with data := some item } :=
    slot_storeData_self _ _ rfl
  refine H.holder (by rw [hpc]; rfl) (fun i hi => Function.update_of_ne hi ..)
    (fun i hi => Function.update_of_ne hi ..) ?_ ?_ ?_
  · intro i r h
    by_cases hi : i = s.queue.slotIndex p
    · subst hi
      rw [Function.update_self] at h
      cases h
      exact ⟨rfl, hlt⟩
    · rw [Function.update_of_ne hi] at h
      exact H.written i r h
  · refine .inr (.inl ⟨hlt, ?_, t, by simp [State.setProducer, ProducerPc.held]⟩)
    exact (congrArg MpscSlot.sequence hself).trans hseq
  · refine ⟨hrel, ⟨item, hclaim⟩, (congrArg MpscSlot.sequence hself).trans hseq, ?_, ?_⟩
    · exact (congrArg MpscSlot.data hself).trans (State.accepted_of_claimed hclaim).symm
    · exact Function.update_self ..

/-- The store that publishes a written position. -/
theorem Inv.publish (H : Inv c s) (hpc : s.producers t = .publish p) :
    Inv c { s.setProducer t (.returned true) with
      queue := s.queue.storeSequence p (p + 1) } := by
  have hok := H.producer t
  rw [hpc] at hok
  obtain ⟨hrel, ⟨item, hclaim⟩, hseq, hdata, hwr⟩ := hok
  have hlt : p < s.claimed.length := (List.getElem?_eq_some_iff.mp hclaim).1
  have hself : (s.queue.storeSequence p (p + 1)).slot p =
      { s.queue.slot p with sequence := p + 1 } := slot_storeSequence_self _ _ rfl
  refine H.holder (by rw [hpc]; rfl) (fun i hi => Function.update_of_ne hi ..)
    (fun i _ => rfl) H.written ?_ trivial
  exact .inr (.inr ⟨hlt, congrArg MpscSlot.sequence hself,
    (congrArg MpscSlot.data hself).trans hdata, hwr⟩)

end
end

/-! ## The steps of `try_dequeue` -/

section
variable [DecidableEq C] {c : C} {s : State P C M} {p : Nat} {item : M}

/-- Reading the data of a published position. -/
theorem Inv.read (H : Inv c s) (hpc : s.consumers c = .read p)
    (hdata : (s.queue.slot p).data = some item) :
    Inv c { s.setConsumer c (.release p item) with reads := s.reads + 1 } := by
  have hok := H.consumer
  rw [hpc] at hok
  obtain ⟨hp, hrel, hreads, hpub⟩ := hok
  constructor
  case producer =>
    intro t
    have h := H.producer t
    simp only [State.setConsumer]
    cases hpc' : s.producers t <;> rw [hpc'] at h <;> exact h
  case consumer =>
    simp only [State.setConsumer, Function.update_self]
    exact ⟨hp, hrel, congrArg (· + 1) hreads, hpub, hpub.2.2.1.symm.trans hdata⟩
  case idle =>
    intro c' hne
    simpa [State.setConsumer, hne] using H.idle c' hne
  case shape => exact H.shape
  case index => exact H.index
  case bound => exact H.bound
  case window => exact H.window
  case written => exact H.written
  case consumed => exact H.consumed
  case dequeued => exact H.dequeued

/-- The store that releases a read position: its slot now serves the last position of the window,
which nobody has claimed. -/
theorem Inv.release (H : Inv c s) (hpc : s.consumers c = .release p item) :
    Inv c { s.setConsumer c (.advance p item) with
      queue := s.queue.storeSequence p (p + s.queue.capacity)
      released := s.released + 1 } := by
  have hok := H.consumer
  rw [hpc] at hok
  obtain ⟨hp, hrel, hreads, hpub, hitem⟩ := hok
  have hbound := H.bound
  have htwo := H.shape.two_le
  have hseq := hpub.2.1
  have hlt := hpub.1
  have hslot : ∀ {r : Nat}, s.released ≤ r → r < s.released + s.queue.capacity → r ≠ p →
      (s.queue.storeSequence p (p + s.queue.capacity)).slot r = s.queue.slot r :=
    fun h1 h2 h3 => slot_storeSequence_ne _ _ (H.slotIndex_inj (by omega) (by omega) h1 h2 h3)
  -- the released position is published, so no producer holds it
  have hheld : ∀ {t : P} {r : Nat}, (s.producers t).held = some r → s.released + 1 ≤ r ∧
      (s.queue.storeSequence p (p + s.queue.capacity)).slot r = s.queue.slot r := by
    intro t r h
    obtain ⟨h1, _, h2⟩ := H.held h
    have h3 := H.held_lt h
    have hne : r ≠ p := by
      rintro rfl
      omega
    exact ⟨by omega, hslot h1 (by omega) hne⟩
  constructor
  case shape => exact H.shape
  case index => exact H.index
  case bound => exact (by omega : s.claimed.length ≤ s.released + 1 + s.queue.capacity)
  case window =>
    intro r hr hr'
    have hr : s.released + 1 ≤ r := hr
    have hr' : r < s.released + 1 + s.queue.capacity := hr'
    by_cases hlast : r = p + s.queue.capacity
    · refine .inl ⟨(by omega : s.claimed.length ≤ r), ?_⟩
      have : (s.queue.storeSequence p (p + s.queue.capacity)).slot r =
          { s.queue.slot p with sequence := p + s.queue.capacity } :=
        slot_storeSequence_self _ _ (by rw [hlast, H.shape.slotIndex_add])
      exact (congrArg MpscSlot.sequence this).trans hlast.symm
    · have hs := hslot (r := r) (by omega) (by omega) (by omega)
      rcases H.window r (by omega) (by omega) with ⟨h1, h2⟩ | ⟨h1, h2, h3⟩ | ⟨h1, h2, h3, h4⟩
      · exact .inl ⟨h1, (congrArg MpscSlot.sequence hs).trans h2⟩
      · exact .inr (.inl ⟨h1, (congrArg MpscSlot.sequence hs).trans h2, h3⟩)
      · exact .inr (.inr ⟨h1, (congrArg MpscSlot.sequence hs).trans h2,
          (congrArg MpscSlot.data hs).trans h3, h4⟩)
  case producer =>
    intro t
    have h := H.producer t
    simp only [State.setConsumer]
    cases hpc' : s.producers t with
    | compareExchange r x =>
      rw [hpc'] at h
      refine ⟨h.1, fun heq => ?_⟩
      have := h.2 heq
      exact (by omega : r < s.released + 1 + s.queue.capacity)
    | write r x =>
      rw [hpc'] at h
      obtain ⟨h1, h2⟩ := hheld (t := t) (r := r) (by rw [hpc']; rfl)
      exact ⟨h1, h.2.1, (congrArg MpscSlot.sequence h2).trans h.2.2.1, h.2.2.2⟩
    | publish r =>
      rw [hpc'] at h
      obtain ⟨h1, h2⟩ := hheld (t := t) (r := r) (by rw [hpc']; rfl)
      exact ⟨h1, h.2.1, (congrArg MpscSlot.sequence h2).trans h.2.2.1,
        (congrArg MpscSlot.data h2).trans h.2.2.2.1, h.2.2.2.2⟩
    | _ =>
      rw [hpc'] at h
      exact h
  case written => exact H.written
  case consumer =>
    simp only [State.setConsumer, Function.update_self]
    exact ⟨hp, congrArg (· + 1) hrel, hreads, hitem⟩
  case idle =>
    intro c' hne
    simpa [State.setConsumer, hne] using H.idle c' hne
  case consumed => exact H.consumed
  case dequeued => exact H.dequeued

/-- The write of `consumer_index` at the end of a successful `try_dequeue`. -/
theorem Inv.advance (H : Inv c s) (hpc : s.consumers c = .advance p item) :
    Inv c { s.setConsumer c (.returned (some item)) with
      queue := { s.queue with consumerIndex := p + 1 }
      dequeued := s.dequeued ++ [item] } := by
  have hok := H.consumer
  rw [hpc] at hok
  obtain ⟨hp, hrel, hreads, hitem⟩ := hok
  obtain ⟨hlt, hget⟩ := List.getElem?_eq_some_iff.mp hitem
  constructor
  case shape => exact H.shape
  case index => exact H.index
  case bound => exact H.bound
  case window => exact H.window
  case producer =>
    intro t
    have h := H.producer t
    simp only [State.setConsumer]
    cases hpc' : s.producers t <;> rw [hpc'] at h <;> exact h
  case written => exact H.written
  case consumer =>
    simp only [State.setConsumer, Function.update_self]
    exact ⟨hrel.trans (by rw [hp]), hreads.trans (by rw [hp])⟩
  case idle =>
    intro c' hne
    simpa [State.setConsumer, hne] using H.idle c' hne
  case consumed => exact s.length_accepted ▸ hlt
  case dequeued =>
    refine (congrArg (· ++ [item]) H.dequeued).trans ?_
    rw [← hp, ← hget, List.take_append_getElem hlt]
    rfl

end

/-! ## Every step -/

theorem Inv.producerStep [DecidableEq P] {c : C} {s s' : State P C M} {t : P} (H : Inv c s)
    (hs : producerStep s t = some s') : Inv c s' := by
  have hok := H.producer t
  unfold MpscBoundedQueue.producerStep at hs
  cases hpc : s.producers t with
  | idle | returned =>
    rw [hpc] at hs
    cases hs
  | loadIndex item =>
    rw [hpc] at hs
    cases hs
    exact H.setProducer (by rw [hpc]; rfl) H.index.le
  | loadSequence p item =>
    rw [hpc] at hs hok
    have hheld : (s.producers t).held = none := by rw [hpc]; rfl
    simp only at hs
    split at hs
    · rename_i hd
      cases hs
      exact H.setProducer hheld ⟨hok, fun hp => H.lt_of_sequence_eq (by omega) hp⟩
    · split at hs
      · cases hs
        exact H.setProducer hheld trivial
      · cases hs
        exact H.setProducer hheld trivial
  | compareExchange p item =>
    rw [hpc] at hs
    simp only at hs
    split at hs
    · rename_i hidx
      cases hs
      exact H.claim hpc hidx
    · cases hs
      exact H.setProducer (by rw [hpc]; rfl) trivial
  | write p item =>
    rw [hpc] at hs
    cases hs
    exact H.write hpc
  | publish p =>
    rw [hpc] at hs
    cases hs
    exact H.publish hpc

/-- The consumer finds its position published. -/
theorem Inv.published_of_sequence {c : C} {s : State P C M} {p : Nat} (H : Inv c s)
    (hp : p = s.released)
    (hseq : (s.queue.slot p).sequence = p + 1) : s.Published p := by
  have := H.shape.two_le
  rcases H.window p (by omega) (by omega) with h | h | h
  · omega
  · omega
  · exact h

theorem Inv.consumerStep [DecidableEq C] {c : C} {s s' : State P C M} (H : Inv c s)
    (hs : consumerStep s c = some s') : Inv c s' := by
  have hok := H.consumer
  unfold MpscBoundedQueue.consumerStep at hs
  cases hpc : s.consumers c with
  | idle | returned | peeked =>
    rw [hpc] at hs
    cases hs
  | dequeue | peek =>
    rw [hpc] at hs hok
    cases hs
    exact H.setConsumer ⟨rfl, hok⟩
  | dequeueSequence p =>
    rw [hpc] at hs hok
    simp only at hs
    split at hs
    · rename_i hd
      cases hs
      have hpub := H.published_of_sequence (hok.1.trans hok.2.1.symm) (by omega)
      exact H.setConsumer ⟨hok.1, hok.2.1, hok.2.2, hpub⟩
    · cases hs
      exact H.setConsumer hok.2
  | peekSequence p =>
    rw [hpc] at hs hok
    cases hs
    exact H.setConsumer hok.2
  | read p =>
    rw [hpc] at hs
    obtain ⟨item, hitem, rfl⟩ := Option.map_eq_some_iff.mp hs
    exact H.read hpc hitem
  | release p item =>
    rw [hpc] at hs
    cases hs
    exact H.release hpc
  | advance p item =>
    rw [hpc] at hs
    cases hs
    exact H.advance hpc

/-- Every step of the producers and of the one consumer keeps the invariant. -/
theorem Inv.step [DecidableEq P] [DecidableEq C] {c : C} {s s' : State P C M}
    {a : Action P C M} (H : Inv c s) (ha : ∀ c' ∈ a.consumer?, c' = c)
    (hs : step s a = some s') : Inv c s' := by
  cases a with
  | enqueue t item =>
    simp only [MpscBoundedQueue.step] at hs
    split at hs
    · cases hs
    · rename_i hcall
      cases hs
      refine H.setProducer ?_ trivial
      cases hpc : s.producers t <;> simp_all [ProducerPc.inCall, ProducerPc.held]
  | producer t => exact H.producerStep hs
  | dequeue c' | peek c' =>
    cases ha c' rfl
    have hok := H.consumer
    simp only [MpscBoundedQueue.step] at hs
    split at hs
    · cases hs
    · rename_i hcall
      cases hs
      refine H.setConsumer ?_
      cases hpc : s.consumers c <;> simp_all [ConsumerPc.inCall, State.ConsumerOk]
  | consumer c' =>
    cases ha c' rfl
    exact H.consumerStep hs

end DignusActor.MpscBoundedQueue
