import DignusActor.Queues.MpscInvariant

/-! # The calls of the bounded queue

What one step of `try_enqueue`, `try_dequeue` or `try_peek` does to the other side of the queue and
to its history: what a component that holds a queue has to know of the calls it makes. -/

namespace DignusActor.MpscBoundedQueue

variable {P C M : Type} [DecidableEq P] [DecidableEq C] {s s' : State P C M}

/-- A step of `try_enqueue`: only the compare-exchange adds to the claimed positions, and a held
position is held until the call returns `true`. -/
theorem enqueue_step {t : P} {item : M} {a : Action P C M}
    (ha : a = .producer t ∨ a = .enqueue t item) (hs : step s a = some s') :
    (s'.consumers = s.consumers ∧ s'.dequeued = s.dequeued) ∧
      (∀ t', t' ≠ t → s'.producers t' = s.producers t') ∧
      (s'.claimed = s.claimed ∨ (s'.producers t).held.isSome = true) ∧
      ((s.producers t).held.isSome = true → (s'.producers t).held.isSome = true ∨
        s'.producers t = .returned true) := by
  rcases ha with rfl | rfl
  · simp only [step, producerStep] at hs
    cases hpc : s.producers t <;> simp only [hpc] at hs <;> (repeat' split at hs) <;> cases hs <;>
      simp +contextual [State.setProducer, ProducerPc.held]
  · simp only [step] at hs
    split at hs <;> cases hs
    rename_i hno
    refine ⟨⟨rfl, rfl⟩, fun t' ht => by simp [State.setProducer, ht], .inl rfl, fun hheld => ?_⟩
    cases hpc : s.producers t <;> simp [hpc, ProducerPc.held, ProducerPc.inCall] at hheld hno

/-- Inside `try_dequeue`. -/
def ConsumerPc.Dequeuing : ConsumerPc M → Prop
  | .dequeue | .dequeueSequence _ | .read _ | .release _ _ | .advance _ _ => True
  | _ => False

/-- Inside `try_peek`. -/
def ConsumerPc.Peeking : ConsumerPc M → Prop
  | .peek | .peekSequence _ => True
  | _ => False

/-- A step of `try_dequeue`: an item is dequeued exactly when the call returns it. -/
theorem dequeue_step {c : C} {a : Action P C M} (ha : a = .consumer c ∨ a = .dequeue c)
    (hno : ¬(s.consumers c).Peeking) (hs : step s a = some s') :
    (s'.producers = s.producers ∧ s'.claimed = s.claimed) ∧ ¬(s'.consumers c).Peeking ∧
      ((s'.dequeued = s.dequeued ∧ ∀ item, s'.consumers c ≠ .returned (some item)) ∨
        ∃ item, s'.dequeued = s.dequeued ++ [item] ∧ s'.consumers c = .returned (some item)) := by
  rcases ha with rfl | rfl
  · simp only [step, consumerStep] at hs
    cases hpc : s.consumers c <;> simp only [hpc] at hs hno
    case read p =>
      obtain ⟨item, _, rfl⟩ := Option.map_eq_some_iff.mp hs
      simp [State.setConsumer, ConsumerPc.Peeking]
    case peek | peekSequence => exact (hno trivial).elim
    all_goals (try split at hs) <;> cases hs <;> simp [State.setConsumer, ConsumerPc.Peeking]
  · simp only [step] at hs
    split at hs <;> cases hs
    simp [State.setConsumer, ConsumerPc.Peeking]

/-- A step of `try_peek` changes nothing; it answers `false` on a head that is not published. -/
theorem peek_step {c : C} {a : Action P C M} (ha : a = .consumer c ∨ a = .peek c)
    (hno : ¬(s.consumers c).Dequeuing) (hs : step s a = some s') :
    (s'.producers = s.producers ∧ s'.claimed = s.claimed ∧ s'.dequeued = s.dequeued) ∧
      ¬(s'.consumers c).Dequeuing ∧
      (s'.consumers c = .peeked false →
        ∃ p, s.consumers c = .peekSequence p ∧ (s.queue.slot p).sequence ≠ p + 1) := by
  rcases ha with rfl | rfl
  · simp only [step, consumerStep] at hs
    cases hpc : s.consumers c <;> simp only [hpc] at hs hno
    case idle | returned | peeked => cases hs
    case peek =>
      cases hs
      simp [State.setConsumer, ConsumerPc.Dequeuing]
    case peekSequence p =>
      cases hs
      refine ⟨⟨rfl, rfl, rfl⟩, by simp [State.setConsumer, ConsumerPc.Dequeuing], fun h => ?_⟩
      simp only [State.setConsumer, Function.update_self, ConsumerPc.peeked.injEq,
        decide_eq_false_iff_not] at h
      exact ⟨p, rfl, by omega⟩
    all_goals exact (hno trivial).elim
  · simp only [step] at hs
    split at hs <;> cases hs
    simp [State.setConsumer, ConsumerPc.Dequeuing]

omit [DecidableEq P] [DecidableEq C] in
/-- When `try_peek` answers `false` and a claimed position is left, its producer still holds it. -/
theorem Inv.held_of_peekSequence {c : C} {p : Nat} (H : Inv c s)
    (hpc : s.consumers c = .peekSequence p) (hseq : (s.queue.slot p).sequence ≠ p + 1)
    (hlt : s.dequeued.length < s.claimed.length) : ∃ t, (s.producers t).held.isSome = true := by
  have hok := H.consumer
  rw [hpc] at hok
  obtain ⟨hp, hrel, _⟩ := hok
  have hlen : s.dequeued.length = p := by
    rw [H.dequeued, List.length_take, s.length_accepted, ← hp]
    have := H.consumed
    omega
  have htwo := H.shape.two_le
  rcases H.window p (by omega) (by omega) with h | ⟨_, _, t, ht⟩ | h
  · omega
  · exact ⟨t, by rw [ht]; rfl⟩
  · exact (hseq h.2.1).elim

end DignusActor.MpscBoundedQueue
