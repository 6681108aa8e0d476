import DignusActor.Machine.Rank
import DignusActor.Queues.MpscProgress
import DignusActor.Queues.MpscRefinement

/-! # No thread waits in the queue

A producer goes another round of `try_enqueue` only when its position was claimed by another since
it was loaded: a slot whose sequence is ahead of the position has been released for a later lap, and
a compare-exchange fails on an index that has moved (`Inv.overtaken`). So the steps of a call are
paid for by the claims of other producers, whatever all of them do in between. The consumer's calls
have no loop. -/

namespace DignusActor.MpscBoundedQueue

variable {P M : Type} {s s' : State P Unit M} {t : P}

/-- A sequence ahead of the loaded position means that the position has been claimed. -/
theorem Inv.overtaken {p : Nat} (H : Inv () s) (hp : p ≤ s.claimed.length)
    (hlt : p < (s.queue.slot p).sequence) : p < s.claimed.length := by
  by_contra hge
  obtain rfl : p = s.claimed.length := Nat.le_antisymm hp (Nat.le_of_not_lt hge)
  have hreleased := H.released_le
  rcases Nat.lt_or_ge s.claimed.length (s.released + s.queue.capacity) with hin | hfull
  · rcases H.window _ hreleased hin with h | h | h
    · omega
    · omega
    · exact hge h.1
  · -- the slot of the position is that of the oldest position, which is not released
    have hbound := H.bound
    have htwo := H.shape.two_le
    have hpe : s.claimed.length = s.released + s.queue.capacity := Nat.le_antisymm hbound hfull
    have hslot : s.queue.slot s.claimed.length = s.queue.slot s.released := by
      rw [slot, slot, hpe, H.shape.slotIndex_add]
    rw [hslot] at hlt
    rcases H.window s.released (Nat.le_refl _) (by omega) with h | h | h
    · omega
    · omega
    · have hseq := h.2.1
      omega

/-! ## The steps of a call -/

/-- A bound on the steps of `try_enqueue` to come when nobody else claims a position: a position
that has been claimed since it was loaded costs another round. -/
def ProducerPc.rank (producerIndex : Nat) : ProducerPc M → Nat
  | .idle | .returned _ => 0
  | .publish _ => 1
  | .write _ _ => 2
  | .compareExchange position _ => 3 + if position < producerIndex then 3 else 0
  | .loadSequence position _ => 4 + if position < producerIndex then 3 else 0
  | .loadIndex _ => 5

/-- The steps left in the call of producer `t`. -/
def State.left (s : State P Unit M) (t : P) : Nat := (s.producers t).rank s.queue.producerIndex

theorem ProducerPc.rank_pos {pc : ProducerPc M} {n : Nat} (h : pc.inCall = true) :
    0 < pc.rank n := by
  cases pc <;> simp [rank, inCall] at h ⊢

/-- One more claim costs one more round at most. -/
theorem ProducerPc.rank_succ_le (pc : ProducerPc M) (n : Nat) :
    pc.rank (n + 1) ≤ pc.rank n + 3 := by
  cases pc with
  | compareExchange p | loadSequence p =>
    simp only [rank]
    split <;> split <;> omega
  | _ => exact Nat.le_add_right _ 3

/-- A bound on the steps of `try_dequeue` or `try_peek` to come. -/
def ConsumerPc.rank : ConsumerPc M → Nat
  | .idle | .returned _ | .peeked _ => 0
  | .advance _ _ | .peekSequence _ => 1
  | .release _ _ | .peek => 2
  | .read _ => 3
  | .dequeueSequence _ => 4
  | .dequeue => 5

theorem ConsumerPc.rank_pos {pc : ConsumerPc M} (h : pc.inCall = true) : 0 < pc.rank := by
  cases pc <;> simp [rank, inCall] at h ⊢

/-- A step of the consumer brings its call nearer to its end, and the producers do not see it. -/
theorem consumerStep_rank {c : Unit} (hs : consumerStep s c = some s') :
    (s'.consumers c).rank + 1 ≤ (s.consumers c).rank ∧
      (s'.producers = s.producers ∧ s'.claimed = s.claimed) ∧
      s'.queue.producerIndex = s.queue.producerIndex := by
  unfold MpscBoundedQueue.consumerStep at hs
  cases hpc : s.consumers c with
  | idle | returned | peeked =>
    rw [hpc] at hs
    cases hs
  | read p =>
    rw [hpc] at hs
    obtain ⟨item, -, rfl⟩ := Option.map_eq_some_iff.mp hs
    exact ⟨by simp [State.setConsumer, ConsumerPc.rank], ⟨rfl, rfl⟩, rfl⟩
  | dequeueSequence p =>
    rw [hpc] at hs
    simp only at hs
    split at hs <;> cases hs <;>
      exact ⟨by simp [State.setConsumer, ConsumerPc.rank], ⟨rfl, rfl⟩, rfl⟩
  | dequeue | peek | peekSequence | advance | release =>
    rw [hpc] at hs
    cases hs
    exact ⟨by simp [State.setConsumer, ConsumerPc.rank], ⟨rfl, rfl⟩, rfl⟩

section
variable [DecidableEq P]

/-- The positions that producers other than `t` have claimed. -/
def State.claimsOfOthers (s : State P Unit M) (t : P) : Nat :=
  s.claimed.countP fun claim => claim.1 ≠ t

/-- A step of `try_enqueue` brings it nearer to its end. -/
theorem Inv.left_producerStep (H : Inv () s)
    (hs : MpscBoundedQueue.producerStep s t = some s') :
    s'.left t + 1 ≤ s.left t ∧ s'.claimsOfOthers t = s.claimsOfOthers t := by
  have hok := H.producer t
  unfold MpscBoundedQueue.producerStep at hs
  unfold State.left
  cases hpc : s.producers t with
  | idle | returned =>
    rw [hpc] at hs
    cases hs
  | loadIndex item =>
    rw [hpc] at hs
    cases hs
    exact ⟨by simp [State.setProducer, ProducerPc.rank], rfl⟩
  | loadSequence p item =>
    rw [hpc] at hs hok
    simp only at hs
    split at hs
    · cases hs
      refine ⟨?_, rfl⟩
      simp only [State.setProducer, Function.update_self, ProducerPc.rank]
      exact Nat.le_of_eq (Nat.add_right_comm ..)
    · split at hs
      · cases hs
        refine ⟨?_, rfl⟩
        simp only [State.setProducer, Function.update_self, ProducerPc.rank]
        exact Nat.le_add_right_of_le (by decide)
      · -- the position has been overtaken
        cases hs
        have hover := H.overtaken hok (by omega)
        rw [← H.index] at hover
        exact ⟨by simp [State.setProducer, ProducerPc.rank, hover], rfl⟩
  | compareExchange p item =>
    rw [hpc] at hs hok
    simp only at hs
    split at hs
    · rename_i hindex
      cases hs
      exact ⟨by simp [State.setProducer, ProducerPc.rank, hindex],
        by simp [State.claimsOfOthers]⟩
    · rename_i hmoved
      cases hs
      have hover : p < s.queue.producerIndex :=
        Nat.lt_of_le_of_ne (hok.1.trans_eq H.index.symm) (Ne.symm hmoved)
      exact ⟨by simp [State.setProducer, ProducerPc.rank, hover], rfl⟩
  | write p item | publish p =>
    rw [hpc] at hs
    cases hs
    exact ⟨by simp [State.setProducer, ProducerPc.rank], rfl⟩

/-- The step of another producer costs a round at most, and only by a claim. -/
theorem left_producerStep_of_ne {u : P} (hu : u ≠ t) (hs : producerStep s u = some s') :
    s'.left t + 3 * s.claimsOfOthers t ≤ s.left t + 3 * s'.claimsOfOthers t := by
  have hsame (pc : ProducerPc M) : Function.update s.producers u pc t = s.producers t :=
    Function.update_of_ne hu.symm ..
  unfold MpscBoundedQueue.producerStep at hs
  cases hpc : s.producers u with
  | idle | returned =>
    rw [hpc] at hs
    cases hs
  | loadIndex item | write p item | publish p =>
    rw [hpc] at hs
    cases hs
    simp [State.left, State.setProducer, State.claimsOfOthers, hsame, storeData, storeSequence]
  | loadSequence p item =>
    rw [hpc] at hs
    simp only at hs
    split at hs
    · cases hs
      simp [State.left, State.setProducer, State.claimsOfOthers, hsame]
    · split at hs <;> cases hs <;>
        simp [State.left, State.setProducer, State.claimsOfOthers, hsame]
  | compareExchange p item =>
    rw [hpc] at hs
    simp only at hs
    split at hs
    · rename_i hindex
      cases hs
      have hround := (s.producers t).rank_succ_le s.queue.producerIndex
      simp only [State.left, State.setProducer, State.claimsOfOthers, hsame, ← hindex,
        List.countP_append, List.countP_singleton]
      simp only [ne_eq, hu, not_false_eq_true, decide_true, if_true]
      omega
    · cases hs
      simp [State.left, State.setProducer, State.claimsOfOthers, hsame]

/-! ## A call and what happens meanwhile -/

namespace Action

/-- A step of `try_enqueue` by producer `t`. -/
def ofProducer (t : P) : Action P Unit M → Bool
  | .producer u => u = t
  | _ => false

/-- A step of `try_dequeue` or `try_peek`. -/
def ofConsumer : Action P Unit M → Bool
  | .consumer _ => true
  | _ => false

end Action

/-- Producer `t` does not call `try_enqueue` again. -/
def Enqueuing (t : P) (_ : State P Unit M) : Action P Unit M → Prop
  | .enqueue u _ => u ≠ t
  | _ => True

instance (t : P) (s : State P Unit M) : ∀ a, Decidable (Enqueuing t s a)
  | .enqueue u _ => inferInstanceAs (Decidable (u ≠ t))
  | .producer _ | .dequeue _ | .peek _ | .consumer _ => .isTrue trivial

/-- The consumer does not call the queue again. -/
def Consuming (_ : State P Unit M) : Action P Unit M → Prop
  | .dequeue _ | .peek _ => False
  | _ => True

instance (s : State P Unit M) : ∀ a, Decidable (Consuming s a)
  | .dequeue _ | .peek _ => .isFalse id
  | .enqueue _ _ | .producer _ | .consumer _ => .isTrue trivial

variable {a : Action P Unit M}

theorem Inv.left_step (H : Inv () s) (hok : Enqueuing t s a)
    (hs : MpscBoundedQueue.step s a = some s') :
    s'.left t + (if a.ofProducer t then 1 else 0) + 3 * s.claimsOfOthers t ≤
      s.left t + 3 * s'.claimsOfOthers t := by
  cases a with
  | producer u =>
    by_cases hu : u = t
    · subst hu
      obtain ⟨hleft, hothers⟩ := H.left_producerStep hs
      simp only [Action.ofProducer, decide_true, if_true, hothers]
      omega
    · simpa [Action.ofProducer, hu] using left_producerStep_of_ne hu hs
  | enqueue u item =>
    simp only [MpscBoundedQueue.step] at hs
    split at hs <;> cases hs
    simp [State.left, State.setProducer, State.claimsOfOthers, Action.ofProducer,
      Function.update_of_ne (Ne.symm hok)]
  | dequeue c | peek c =>
    simp only [MpscBoundedQueue.step] at hs
    split at hs <;> cases hs
    exact Nat.le_refl _
  | consumer c =>
    obtain ⟨-, ⟨hproducers, hclaimed⟩, hindex⟩ := consumerStep_rank hs
    simp [State.left, State.claimsOfOthers, hproducers, hclaimed, hindex, Action.ofProducer]

/-! ## The calls of a run -/

variable {capacity : Nat}

theorem reach_readable (h : (machine P Unit M capacity).Reach Machine.free s) : Readable s :=
  h.inv Readable (fun ⟨_, _, hq, hs⟩ => hs ▸ .initial hq) fun H _ hs => H.step hs

theorem enqueue_step_left {item : M} (hs : step s (.enqueue t item) = some s') :
    s'.left t = 5 ∧ s'.claimsOfOthers t = s.claimsOfOthers t := by
  simp only [step] at hs
  split at hs <;> cases hs
  exact ⟨by simp [State.left, State.setProducer, ProducerPc.rank], rfl⟩

theorem producerStep_isSome (h : (s.producers t).inCall = true) :
    (producerStep s t).isSome = true := by
  unfold producerStep
  cases hpc : s.producers t with
  | idle | returned => simp [hpc, ProducerPc.inCall] at h
  | loadIndex | write | publish => rfl
  | loadSequence =>
    dsimp only
    split
    · rfl
    · split <;> rfl
  | compareExchange =>
    dsimp only
    split <;> rfl

theorem consuming_step (hok : Consuming s a) (hs : step s a = some s') :
    (s'.consumers ()).rank + (if a.ofConsumer then 1 else 0) ≤ (s.consumers ()).rank := by
  cases a with
  | consumer c => exact (consumerStep_rank hs).1
  | producer | enqueue =>
    rw [step_consumers_of_ne hs nofun]
    exact Nat.le_refl _
  | dequeue | peek => exact hok.elim

theorem begin_rank (ha : a = .dequeue () ∨ a = .peek ()) (hs : step s a = some s') :
    (s'.consumers ()).rank ≤ 5 := by
  rcases ha with rfl | rfl
  all_goals
    simp only [step] at hs
    split at hs <;> cases hs
    simp [State.setConsumer, ConsumerPc.rank]

/-- **The queue does not block.** A call of `try_enqueue` takes at most five steps of its thread and
three more for each position that another producer claims in the meantime, a call of `try_dequeue`
or `try_peek` at most five, and until a call has returned its thread can take the next step,
wherever the other threads stand. -/
theorem calls_end (h : (machine P Unit M capacity).Reach Machine.free s) :
    (∀ t item s₁ as s', (machine P Unit M capacity).step s (.enqueue t item) = some s₁ →
      (machine P Unit M capacity).RunOk (Enqueuing t) s₁ as →
      (machine P Unit M capacity).run s₁ as = some s' →
      as.countP (Action.ofProducer t) ≤ 5 + 3 * (s'.claimsOfOthers t - s.claimsOfOthers t) ∧
      ((s'.producers t).inCall = true →
        as.countP (Action.ofProducer t) < 5 + 3 * (s'.claimsOfOthers t - s.claimsOfOthers t) ∧
        (step s' (.producer t)).isSome = true)) ∧
    (∀ a s₁ as s', a = .dequeue () ∨ a = .peek () →
      (machine P Unit M capacity).step s a = some s₁ →
      (machine P Unit M capacity).RunOk Consuming s₁ as →
      (machine P Unit M capacity).run s₁ as = some s' →
      as.countP Action.ofConsumer ≤ 5 ∧
      ((s'.consumers ()).inCall = true →
        as.countP Action.ofConsumer < 5 ∧ (step s' (.consumer ())).isSome = true)) := by
  refine ⟨fun t item s₁ as s' hcall hok hrun => ?_, fun a s₁ as s' ha hcall hok hrun => ?_⟩
  · have hreach := h.step trivial hcall
    obtain ⟨hfive, hsame⟩ := enqueue_step_left hcall
    have hcredit := (Machine.run_credit (Action.ofProducer t) (Inv ()) (·.left t)
      (3 * ·.claimsOfOthers t) (fun H hok hs => ⟨H.step (fun _ _ => rfl) hs, H.left_step hok hs⟩)
      (reach_inv hreach) hok hrun).2
    simp only [hfive, hsame] at hcredit
    refine ⟨by omega, fun hin => ⟨?_, producerStep_isSome hin⟩⟩
    have hpos : 0 < s'.left t := ProducerPc.rank_pos hin
    omega
  · have hreach := h.step trivial hcall
    have hfive := begin_rank ha hcall
    have hrank := (Machine.run_credit Action.ofConsumer (fun _ => True)
      (fun s => (s.consumers ()).rank) (fun _ => 0)
      (fun _ hok hs => ⟨trivial, consuming_step hok hs⟩) trivial hok hrun).2
    refine ⟨by omega, fun hin => ⟨?_, ?_⟩⟩
    · have hpos := ConsumerPc.rank_pos hin
      omega
    · have hreach' := hreach.run (.of_forall (fun _ _ _ => trivial) s₁) hrun
      exact (reach_readable hreach').consumerStep_isSome hin

end

/-! ## A run -/

theorem new_two_isSome : (MpscBoundedQueue.new Nat mailSlotSize 2).isSome = true := rfl

def called : State Nat Unit Nat :=
  ((machine Nat Unit Nat 2).run (initial Nat Unit ((new Nat mailSlotSize 2).get new_two_isSome))
    [.enqueue 0 7]).get rfl

/-- Producer 1 claims the position that producer 0 is about to claim. -/
def overtaking : List (Action Nat Unit Nat) :=
  List.replicate 2 (.producer 0) ++ .enqueue 1 8 :: List.replicate 5 (.producer 1) ++
    List.replicate 6 (.producer 0)

def overtook : State Nat Unit Nat := ((machine Nat Unit Nat 2).run called overtaking).get rfl

/-- The call takes as many steps as the bound says. -/
theorem calls_end_overtook : overtook.accepted = [8, 7] ∧
    overtaking.countP (Action.ofProducer 0) = 8 ∧
    5 + 3 * (overtook.claimsOfOthers 0 - 0) = 8 ∧
    overtaking.countP (Action.ofProducer 0) ≤ 5 + 3 * (overtook.claimsOfOthers 0 - 0) := by
  have hreach : (machine Nat Unit Nat 2).Reach Machine.free
      (initial Nat Unit ((new Nat mailSlotSize 2).get new_two_isSome)) :=
    .init ⟨mailSlotSize, _, rfl, rfl⟩
  refine ⟨rfl, rfl, rfl, ((calls_end hreach).1 0 7 called overtaking overtook rfl ?_ rfl).1⟩
  decide +kernel

end DignusActor.MpscBoundedQueue
