import DignusActor.Queues.MpscCalls
import DignusActor.Queues.MpscRefinement

/-! # The consumer of the bounded queue gets on

Whatever the other consumers do, a step of `try_dequeue` or `try_peek` can be taken (`Readable`),
and what one consumer has still to read gets less by its own steps: `unread` counts the slots with
the sequence of a published item that the consumer has not begun to read, and `dequeueLeft` bounds
the steps to the end of the call. -/

namespace DignusActor.MpscBoundedQueue

variable {P C M : Type}

/-! ## The data a step reads is there -/

/-- A slot that was never written has the sequence of a free slot. -/
structure Readable (s : State P C M) : Prop where
  shape : s.queue.Shape
  unwritten : ∀ i, (s.queue.buffer i).data = none →
    (s.queue.buffer i).sequence % s.queue.capacity = i % s.queue.capacity
  publish : ∀ t p, s.producers t = .publish p → (s.queue.slot p).data ≠ none
  read : ∀ c p, s.consumers c = .read p → (s.queue.slot p).data ≠ none

theorem Readable.initial {slotSize capacity : Nat} {q : MpscBoundedQueue M}
    (h : new M slotSize capacity = some q) : Readable (initial P C q) where
  shape := new_shape h
  unwritten i _ := by
    obtain ⟨-, n, -, -, rfl⟩ := new_eq_some.mp h
    rfl
  publish _ _ := nofun
  read _ _ := nofun

section
variable {s s' : State P C M}

/-- What was written stays, and a slot that is not keeps the sequence of a free one. -/
theorem Readable.of_buffer (h : Readable s) (hcapacity : s'.queue.capacity = s.queue.capacity)
    (hmask : s'.queue.indexMask = s.queue.indexMask)
    (hdata : ∀ i, (s.queue.buffer i).data ≠ none → (s'.queue.buffer i).data ≠ none)
    (hsequence : ∀ i, (s'.queue.buffer i).data = none →
      (s'.queue.buffer i).sequence % s.queue.capacity = i % s.queue.capacity)
    (hpublish : ∀ t p, s'.producers t = .publish p →
      s.producers t = .publish p ∨ (s'.queue.slot p).data ≠ none)
    (hread : ∀ c p, s'.consumers c = .read p →
      s.consumers c = .read p ∨ (s'.queue.slot p).data ≠ none) : Readable s' := by
  have hslot (p : Nat) (hp : (s.queue.slot p).data ≠ none) : (s'.queue.slot p).data ≠ none := by
    have hindex : s'.queue.slotIndex p = s.queue.slotIndex p := by
      rw [slotIndex, slotIndex, hmask]
    rw [slot, hindex]
    exact hdata _ hp
  refine ⟨?_, ?_, fun t p hpc => ?_, fun c p hpc => ?_⟩
  · obtain ⟨hm, k, hk, hc⟩ := h.shape
    exact ⟨by rw [hmask, hcapacity, hm], k, hk, hcapacity.trans hc⟩
  · rw [hcapacity]
    exact hsequence
  · rcases hpublish t p hpc with hpc | hp
    · exact hslot p (h.publish t p hpc)
    · exact hp
  · rcases hread c p hpc with hpc | hp
    · exact hslot p (h.read c p hpc)
    · exact hp

theorem Shape.slotIndex_mod (h : s.queue.Shape) (p : Nat) :
    s.queue.slotIndex p % s.queue.capacity = p % s.queue.capacity := by
  rw [h.slotIndex, Nat.mod_mod]

/-- The sequence of a published position is not that of a free slot. -/
theorem Shape.succ_mod_ne (h : s.queue.Shape) (p : Nat) :
    (p + 1) % s.queue.capacity ≠ p % s.queue.capacity := by
  intro hmod
  have htwo := h.two_le
  have hlt := Nat.mod_lt p (by omega : s.queue.capacity > 0)
  rw [Nat.add_mod, Nat.mod_eq_of_lt (by omega : 1 < s.queue.capacity)] at hmod
  by_cases hlast : p % s.queue.capacity + 1 = s.queue.capacity
  · rw [hlast, Nat.mod_self] at hmod
    omega
  · rw [Nat.mod_eq_of_lt (by omega)] at hmod
    omega

/-- A slot whose sequence says that position `p` is published was written. -/
theorem Readable.data_of_sequence (h : Readable s) {p : Nat}
    (hp : (s.queue.slot p).sequence = p + 1) : (s.queue.slot p).data ≠ none := by
  intro hnone
  have hmod := h.unwritten _ hnone
  rw [h.shape.slotIndex_mod] at hmod
  exact h.shape.succ_mod_ne p (hp ▸ hmod)

variable [DecidableEq P] [DecidableEq C] {a : Action P C M} {t : P} {c : C}

omit [DecidableEq C] in
theorem Readable.producerStep (h : Readable s) (hs : producerStep s t = some s') : Readable s' := by
  have hothers {pc : ProducerPc M} (hpc : ∀ p, pc ≠ .publish p) (t' : P) (p : Nat)
      (ht' : Function.update s.producers t pc t' = .publish p) : s.producers t' = .publish p := by
    by_cases ht : t' = t
    · subst ht
      rw [Function.update_self] at ht'
      exact absurd ht' (hpc p)
    · rwa [Function.update_of_ne ht] at ht'
  unfold MpscBoundedQueue.producerStep at hs
  cases hpc : s.producers t with
  | idle | returned => simp [hpc] at hs
  | loadIndex item =>
    simp only [hpc] at hs
    cases hs
    exact h.of_buffer rfl rfl (fun _ => id) h.unwritten
      (fun t' p ht' => .inl (hothers (by simp) t' p ht')) fun _ _ => .inl
  | loadSequence p item =>
    simp only [hpc] at hs
    split at hs
    · cases hs
      exact h.of_buffer rfl rfl (fun _ => id) h.unwritten
        (fun t' p ht' => .inl (hothers (by simp) t' p ht')) fun _ _ => .inl
    · split at hs <;> cases hs <;> exact h.of_buffer rfl rfl (fun _ => id) h.unwritten
        (fun t' p ht' => .inl (hothers (by simp) t' p ht')) fun _ _ => .inl
  | compareExchange p item =>
    simp only [hpc] at hs
    split at hs <;> cases hs <;> exact h.of_buffer rfl rfl (fun _ => id) h.unwritten
      (fun t' p ht' => .inl (hothers (by simp) t' p ht')) fun _ _ => .inl
  | write p item =>
    simp only [hpc] at hs
    cases hs
    have hwritten : ((s.queue.storeData p item).slot p).data ≠ none := by
      rw [slot_storeData_self _ _ rfl]
      simp
    refine h.of_buffer rfl rfl (fun i hi => ?_) (fun i hi => ?_) (fun t' r ht' => ?_)
      fun _ _ => .inl
    · simp only [storeData, Function.update_apply]
      split
      · simp
      · exact hi
    · simp only [storeData, Function.update_apply] at hi ⊢
      split
      · rename_i heq
        rw [if_pos heq] at hi
        cases hi
      · rename_i hne
        rw [if_neg hne] at hi
        exact h.unwritten i hi
    · by_cases ht : t' = t
      · subst ht
        simp only [State.setProducer, Function.update_self, ProducerPc.publish.injEq] at ht'
        exact .inr (ht' ▸ hwritten)
      · simp only [State.setProducer, Function.update_of_ne ht] at ht'
        exact .inl ht'
  | publish p =>
    simp only [hpc] at hs
    cases hs
    have hwritten := h.publish t p hpc
    refine h.of_buffer rfl rfl (fun i hi => ?_) (fun i hi => ?_)
      (fun t' p ht' => .inl (hothers (by simp) t' p ht')) fun _ _ => .inl
    · simp only [storeSequence, Function.update_apply]
      split
      · exact hwritten
      · exact hi
    · simp only [storeSequence, Function.update_apply] at hi ⊢
      split
      · rename_i heq
        rw [if_pos heq] at hi
        exact absurd hi hwritten
      · rename_i hne
        rw [if_neg hne] at hi
        exact h.unwritten i hi

omit [DecidableEq P] in
theorem Readable.consumerStep (h : Readable s) (hs : consumerStep s c = some s') :
    Readable s' := by
  have hothers {pc : ConsumerPc M} (hpc : ∀ p, pc ≠ .read p) (c' : C) (p : Nat)
      (hc' : Function.update s.consumers c pc c' = .read p) : s.consumers c' = .read p := by
    by_cases hc : c' = c
    · subst hc
      rw [Function.update_self] at hc'
      exact absurd hc' (hpc p)
    · rwa [Function.update_of_ne hc] at hc'
  unfold MpscBoundedQueue.consumerStep at hs
  cases hpc : s.consumers c with
  | idle | returned | peeked => simp [hpc] at hs
  | dequeue | peek | peekSequence | advance =>
    simp only [hpc] at hs
    cases hs
    exact h.of_buffer rfl rfl (fun _ => id) h.unwritten (fun _ _ => .inl)
      fun c' p hc' => .inl (hothers (by simp) c' p hc')
  | dequeueSequence p =>
    simp only [hpc] at hs
    split at hs
    · rename_i hdiff
      cases hs
      have hdata := h.data_of_sequence (p := p) (by omega)
      refine h.of_buffer rfl rfl (fun _ => id) h.unwritten (fun _ _ => .inl) fun c' r hc' => ?_
      by_cases hc : c' = c
      · subst hc
        simp only [State.setConsumer, Function.update_self, ConsumerPc.read.injEq] at hc'
        exact .inr (hc' ▸ hdata)
      · simp only [State.setConsumer, Function.update_of_ne hc] at hc'
        exact .inl hc'
    · cases hs
      exact h.of_buffer rfl rfl (fun _ => id) h.unwritten (fun _ _ => .inl)
        fun c' p hc' => .inl (hothers (by simp) c' p hc')
  | read p =>
    simp only [hpc, Option.map_eq_some_iff] at hs
    obtain ⟨item, -, rfl⟩ := hs
    exact h.of_buffer rfl rfl (fun _ => id) h.unwritten (fun _ _ => .inl)
      fun c' p hc' => .inl (hothers (by simp) c' p hc')
  | release p item =>
    simp only [hpc] at hs
    cases hs
    refine h.of_buffer rfl rfl (fun i hi => ?_) (fun i hi => ?_) (fun _ _ => .inl)
      fun c' p hc' => .inl (hothers (by simp) c' p hc')
    · simp only [storeSequence, Function.update_apply]
      split
      · rename_i heq
        rw [heq] at hi
        exact hi
      · exact hi
    · simp only [storeSequence, Function.update_apply] at hi ⊢
      split
      · rename_i heq
        rw [heq, h.shape.slotIndex_mod, Nat.add_mod_right]
      · rename_i hne
        rw [if_neg hne] at hi
        exact h.unwritten i hi

theorem Readable.step (h : Readable s) (hs : step s a = some s') : Readable s' := by
  cases a with
  | producer t => exact h.producerStep hs
  | consumer c => exact h.consumerStep hs
  | enqueue t item =>
    simp only [MpscBoundedQueue.step] at hs
    split at hs <;> cases hs
    refine h.of_buffer rfl rfl (fun _ => id) h.unwritten (fun t' p ht' => .inl ?_) fun _ _ => .inl
    by_cases ht : t' = t
    · subst ht
      simp [State.setProducer] at ht'
    · simpa [State.setProducer, ht] using ht'
  | dequeue c | peek c =>
    simp only [MpscBoundedQueue.step] at hs
    split at hs <;> cases hs
    refine h.of_buffer rfl rfl (fun _ => id) h.unwritten (fun _ _ => .inl) fun c' p hc' => .inl ?_
    by_cases hc : c' = c
    · subst hc
      simp [State.setConsumer] at hc'
    · simpa [State.setConsumer, hc] using hc'

omit [DecidableEq P] in
/-- A consumer in a call can go on. -/
theorem Readable.consumerStep_isSome (h : Readable s) (hc : (s.consumers c).inCall = true) :
    (MpscBoundedQueue.consumerStep s c).isSome = true := by
  unfold MpscBoundedQueue.consumerStep
  cases hpc : s.consumers c with
  | idle | returned | peeked => simp [hpc, ConsumerPc.inCall] at hc
  | dequeue | peek | peekSequence | advance | release => rfl
  | dequeueSequence p =>
    dsimp only
    split <;> rfl
  | read p =>
    obtain ⟨item, hitem⟩ := Option.ne_none_iff_exists'.mp (h.read c p hpc)
    simp [hitem]

end

/-- A consumer is moved by its own calls. -/
theorem step_consumers_of_ne [DecidableEq P] [DecidableEq C] {s s' : State P C M} {a : Action P C M}
    {c : C} (hs : step s a = some s') (hc : a.consumer? ≠ some c) :
    s'.consumers c = s.consumers c := by
  cases a with
  | enqueue t item =>
    simp only [step] at hs
    split at hs <;> cases hs
    rfl
  | producer t =>
    simp only [step, producerStep] at hs
    split at hs <;> (try split at hs) <;> (try split at hs) <;> cases hs <;> rfl
  | dequeue c' | peek c' =>
    have hne : c ≠ c' := fun heq => hc (congrArg some heq.symm)
    simp only [step] at hs
    split at hs <;> cases hs
    exact Function.update_of_ne hne ..
  | consumer c' =>
    have hne : c ≠ c' := fun heq => hc (congrArg some heq.symm)
    simp only [step, consumerStep] at hs
    split at hs
    · cases hs
      exact Function.update_of_ne hne ..
    · split at hs <;> cases hs <;> exact Function.update_of_ne hne ..
    · obtain ⟨item, -, rfl⟩ := Option.map_eq_some_iff.mp hs
      exact Function.update_of_ne hne ..
    · cases hs
      exact Function.update_of_ne hne ..
    · cases hs
      exact Function.update_of_ne hne ..
    · cases hs
      exact Function.update_of_ne hne ..
    · cases hs
      exact Function.update_of_ne hne ..
    all_goals cases hs

/-! ## What a consumer has still to read -/

/-- The position whose data the consumer reads. -/
def ConsumerPc.reading : ConsumerPc M → Option Nat
  | .read position | .release position _ => some position
  | _ => none

/-- Slot `i` does not have the sequence of a free slot, and consumer `c` has not begun to read
it. -/
def State.Unread (s : State P C M) (c : C) (i : Nat) : Prop :=
  (s.queue.buffer i).sequence % s.queue.capacity ≠ i ∧
    (s.consumers c).reading.map s.queue.slotIndex ≠ some i

instance (s : State P C M) (c : C) : DecidablePred (s.Unread c) := fun _ =>
  inferInstanceAs (Decidable (_ ∧ _))

def State.unread (s : State P C M) (c : C) : Nat :=
  ((Finset.range s.queue.capacity).filter (s.Unread c)).card

/-- A bound on the steps of `try_dequeue` to come, with room for what is done with an item. -/
def ConsumerPc.dequeueRank : ConsumerPc M → Nat
  | .peek | .peekSequence _ => 0
  | .dequeueSequence _ => 1
  | .dequeue => 2
  | .idle | .returned _ | .peeked _ => 3
  | .advance _ _ => 15
  | .release _ _ => 16
  | .read _ => 17

/-- A bound on the steps of `try_peek` to come. -/
def ConsumerPc.peekRank : ConsumerPc M → Nat
  | .peekSequence _ => 1
  | .peek => 2
  | .idle | .returned _ | .peeked _ => 3
  | _ => 0

theorem ConsumerPc.dequeueRank_le (pc : ConsumerPc M) : pc.dequeueRank ≤ 17 := by
  cases pc <;> simp [dequeueRank]

theorem ConsumerPc.rank_of_not_inCall {pc : ConsumerPc M} (h : ¬pc.inCall = true) :
    pc.reading = none ∧ pc.dequeueRank = 3 ∧ pc.peekRank = 3 := by
  cases pc <;> first | exact ⟨rfl, rfl, rfl⟩ | exact absurd rfl h

section
variable {s s' : State P C M} {c : C}

theorem State.unread_le (hcapacity : s'.queue.capacity = s.queue.capacity)
    (h : ∀ i < s.queue.capacity, s'.Unread c i → s.Unread c i) : s'.unread c ≤ s.unread c := by
  refine Finset.card_le_card fun i hi => ?_
  simp only [Finset.mem_filter, Finset.mem_range, hcapacity] at hi ⊢
  exact ⟨hi.1, h i hi.1 hi.2⟩

theorem State.unread_lt (hcapacity : s'.queue.capacity = s.queue.capacity)
    (h : ∀ i < s.queue.capacity, s'.Unread c i → s.Unread c i) {j : Nat}
    (hj : j < s.queue.capacity) (hs : s.Unread c j) (hs' : ¬s'.Unread c j) :
    s'.unread c < s.unread c := by
  refine Finset.card_lt_card ⟨fun i hi => ?_, fun hsub => ?_⟩
  · simp only [Finset.mem_filter, Finset.mem_range, hcapacity] at hi ⊢
    exact ⟨hi.1, h i hi.1 hi.2⟩
  · have hmem := hsub (Finset.mem_filter.mpr ⟨Finset.mem_range.mpr hj, hs⟩)
    exact hs' (Finset.mem_filter.mp hmem).2

variable [DecidableEq P] [DecidableEq C]

omit [DecidableEq P] [DecidableEq C] in
/-- A consumer that does not read and does not touch the buffer has as much to read. -/
theorem State.unread_of_queue (hqueue : s'.queue = s.queue)
    (hreading : (s'.consumers c).reading = (s.consumers c).reading) :
    s'.unread c = s.unread c := by
  have hunread : s'.Unread c = s.Unread c := by
    funext i
    rw [State.Unread, State.Unread, hqueue, hreading]
  simp only [State.unread, hqueue, hunread]

/-- What a step of `try_dequeue` does: the call is begun, or goes on, or returns. -/
inductive DequeueMove (s : State P C M) (c : C) (s' : State P C M) : Prop
  | on : (s'.consumers c).inCall = true → s'.unread c ≤ s.unread c →
    (s'.consumers c).dequeueRank < (s.consumers c).dequeueRank → DequeueMove s c s'
  | read : (s'.consumers c).inCall = true → s'.unread c < s.unread c → DequeueMove s c s'
  | empty : s'.consumers c = .returned none → s'.unread c ≤ s.unread c →
    1 ≤ (s.consumers c).dequeueRank → DequeueMove s c s'
  | item (item : M) : s'.consumers c = .returned (some item) → s'.unread c ≤ s.unread c →
    15 ≤ (s.consumers c).dequeueRank → DequeueMove s c s'

omit [DecidableEq P] [DecidableEq C] in
theorem DequeueMove.unread_le (h : DequeueMove s c s') : s'.unread c ≤ s.unread c := by
  cases h with
  | on _ hle | empty _ hle | item _ _ hle => exact hle
  | read _ hlt => exact Nat.le_of_lt hlt

omit [DecidableEq P] [DecidableEq C] in
theorem DequeueMove.rank_none (h : DequeueMove s c s') (hr : s'.consumers c = .returned none) :
    1 ≤ (s.consumers c).dequeueRank := by
  cases h with
  | on hin | read hin =>
    rw [hr] at hin
    cases hin
  | empty _ _ hle => exact hle
  | item item _ _ hle => exact Nat.le_trans (by decide) hle

omit [DecidableEq P] [DecidableEq C] in
theorem DequeueMove.rank_some (h : DequeueMove s c s') {item : M}
    (hr : s'.consumers c = .returned (some item)) : 15 ≤ (s.consumers c).dequeueRank := by
  cases h with
  | on hin | read hin =>
    rw [hr] at hin
    cases hin
  | empty hnone => cases hr.symm.trans hnone
  | item _ _ _ hle => exact hle

theorem dequeue_move (h : s.queue.Shape) {a : Action P C M}
    (ha : a = .consumer c ∨ a = .dequeue c) (hno : ¬(s.consumers c).Peeking)
    (hs : step s a = some s') : DequeueMove s c s' := by
  rcases ha with rfl | rfl
  · simp only [step, consumerStep] at hs
    cases hpc : s.consumers c <;> simp only [hpc] at hs hno
    case idle | returned | peeked => cases hs
    case peek | peekSequence => exact (hno trivial).elim
    case dequeue =>
      cases hs
      refine .on (by simp [State.setConsumer, ConsumerPc.inCall]) ?_
        (by simp [State.setConsumer, hpc, ConsumerPc.dequeueRank])
      exact Nat.le_of_eq
        (State.unread_of_queue rfl (by simp [State.setConsumer, hpc, ConsumerPc.reading]))
    case dequeueSequence p =>
      split at hs
      · rename_i hdiff
        cases hs
        refine .read (by simp [State.setConsumer, ConsumerPc.inCall]) ?_
        have hseq : (s.queue.slot p).sequence = p + 1 := by omega
        refine State.unread_lt (j := s.queue.slotIndex p) rfl (fun i _ hi => ⟨hi.1, ?_⟩)
          (h.slotIndex_lt p) ⟨?_, ?_⟩ fun hi => hi.2 ?_
        · simp [hpc, ConsumerPc.reading]
        · change (s.queue.slot p).sequence % s.queue.capacity ≠ _
          rw [hseq, h.slotIndex]
          exact h.succ_mod_ne p
        · simp [hpc, ConsumerPc.reading]
        · simp [State.setConsumer, ConsumerPc.reading]
      · cases hs
        refine .empty (by simp [State.setConsumer]) ?_ (by simp [hpc, ConsumerPc.dequeueRank])
        exact Nat.le_of_eq
          (State.unread_of_queue rfl (by simp [State.setConsumer, hpc, ConsumerPc.reading]))
    case read p =>
      obtain ⟨item, -, rfl⟩ := Option.map_eq_some_iff.mp hs
      refine .on (by simp [State.setConsumer, ConsumerPc.inCall]) ?_
        (by simp [State.setConsumer, hpc, ConsumerPc.dequeueRank])
      exact Nat.le_of_eq
        (State.unread_of_queue rfl (by simp [State.setConsumer, hpc, ConsumerPc.reading]))
    case release p item =>
      cases hs
      refine .on (by simp [State.setConsumer, ConsumerPc.inCall]) ?_
        (by simp [State.setConsumer, hpc, ConsumerPc.dequeueRank])
      refine State.unread_le rfl fun i hlt hi => ?_
      have hne : i ≠ s.queue.slotIndex p := by
        rintro rfl
        refine hi.1 ?_
        simp only [storeSequence, Function.update_self]
        rw [Nat.add_mod_right, h.slotIndex]
      refine ⟨?_, by simpa [hpc, ConsumerPc.reading] using Ne.symm hne⟩
      have hsequence := hi.1
      simpa [storeSequence, hne] using hsequence
    case advance p item =>
      cases hs
      refine .item item (by simp [State.setConsumer]) ?_ (by simp [hpc, ConsumerPc.dequeueRank])
      refine State.unread_le rfl fun i _ hi => ⟨hi.1, ?_⟩
      simp [hpc, ConsumerPc.reading]
  · simp only [step] at hs
    split at hs <;> cases hs
    rename_i hcall
    obtain ⟨hreading, hrank, -⟩ := ConsumerPc.rank_of_not_inCall hcall
    refine .on ?_ (Nat.le_of_eq (State.unread_of_queue rfl ?_)) ?_ <;>
      simp only [State.setConsumer, Function.update_self]
    · rfl
    · exact hreading.symm
    · exact hrank ▸ Nat.lt_succ_self 2

/-- What a step of `try_peek` does. -/
theorem peek_move {a : Action P C M} (ha : a = .consumer c ∨ a = .peek c)
    (hno : ¬(s.consumers c).Dequeuing) (hs : step s a = some s') : s'.unread c = s.unread c ∧
      1 ≤ (s.consumers c).peekRank ∧ ((∃ b, s'.consumers c = .peeked b) ∨
        (s'.consumers c).inCall = true ∧
          (s'.consumers c).peekRank < (s.consumers c).peekRank) := by
  rcases ha with rfl | rfl
  · simp only [step, consumerStep] at hs
    cases hpc : s.consumers c <;> simp only [hpc] at hs hno
    case idle | returned | peeked => cases hs
    case peek =>
      cases hs
      refine ⟨State.unread_of_queue rfl (by simp [State.setConsumer, hpc, ConsumerPc.reading]),
        by simp [ConsumerPc.peekRank], .inr ?_⟩
      simp [State.setConsumer, ConsumerPc.inCall, ConsumerPc.peekRank]
    case peekSequence p =>
      cases hs
      refine ⟨State.unread_of_queue rfl (by simp [State.setConsumer, hpc, ConsumerPc.reading]),
        by simp [ConsumerPc.peekRank], .inl ⟨_, Function.update_self ..⟩⟩
    all_goals exact (hno trivial).elim
  · simp only [step] at hs
    split at hs <;> cases hs
    rename_i hcall
    obtain ⟨hreading, -, hrank⟩ := ConsumerPc.rank_of_not_inCall hcall
    refine ⟨State.unread_of_queue rfl ?_, by omega, .inr ⟨?_, ?_⟩⟩ <;>
      simp only [State.setConsumer, Function.update_self]
    · exact hreading.symm
    · rfl
    · exact hrank ▸ Nat.lt_succ_self 2

end

end DignusActor.MpscBoundedQueue
