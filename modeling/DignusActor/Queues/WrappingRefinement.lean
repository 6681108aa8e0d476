import DignusActor.Queues.WrappingQueue

/-! # The wrapped queue refines the bounded buffer

Each step of the wrapped queue is a step of `MpscBoundedQueue` on the unwrapped positions. A
sequence stays within a lap of the window (`sequence_bounds`), so its signed difference to a
position that was loaded not too long ago is exact. -/

universe u v

namespace DignusActor.WrappingQueue

open MpscBoundedQueue (Action Inv)

variable {P : Type v} {M : Type u} {slotSize capacity : Nat}

/-! ## The start -/

theorem new_eq_wrap (M : Type u) (slotSize capacity : Nat) :
    new M slotSize capacity = (MpscBoundedQueue.new M slotSize capacity).map wrap := by
  unfold new MpscBoundedQueue.new
  split
  · rfl
  · cases MpscBoundedQueue.normalizeToPowerOfTwo capacity with
    | none => rfl
    | some normalized =>
      simp only [Option.bind_some]
      split <;> rfl

theorem fits_of_new {q : MpscBoundedQueue M}
    (h : MpscBoundedQueue.new M slotSize capacity = some q) : Fits q := by
  have hsome : (MpscBoundedQueue.new M slotSize capacity).isSome = true := by rw [h]; rfl
  obtain ⟨⟨-, k, hk⟩, hleast⟩ := MpscBoundedQueue.new_isLeast h
  obtain ⟨-, j, hj, hcap, -⟩ := MpscBoundedQueue.new_isSome_iff.mp hsome
  have hle : q.capacity ≤ 2 ^ 63 :=
    (hleast ⟨hcap, j, rfl⟩).trans (Nat.pow_le_pow_right (by omega) hj)
  refine ⟨(MpscBoundedQueue.new_shape h).1, k, ?_, hk⟩
  rw [hk] at hle
  exact (Nat.pow_le_pow_iff_right (by omega)).mp hle

theorem fits_of_reach [DecidableEq P] {s : MpscBoundedQueue.State P Unit M}
    (h : (MpscBoundedQueue.machine P Unit M capacity).Reach Machine.free s) : Fits s.queue := by
  obtain ⟨slotSize, q, hq⟩ : ∃ slotSize q, MpscBoundedQueue.new M slotSize capacity = some q := by
    induction h with
    | init h =>
      obtain ⟨slotSize, q, hq, -⟩ := h
      exact ⟨slotSize, q, hq⟩
    | step _ _ _ ih => exact ih
  have hcap : s.queue.capacity = q.capacity :=
    (MpscBoundedQueue.reach_capacity h).unique (MpscBoundedQueue.new_isLeast hq)
  obtain ⟨k, hk, hpow⟩ := (fits_of_new hq).pow
  exact ⟨(MpscBoundedQueue.reach_inv h).shape.1, k, hk, hcap.trans hpow⟩

/-! ## The comparisons -/

section
variable {s : MpscBoundedQueue.State P Unit M}

/-- The sequence of every slot is within the window or at its end. -/
theorem sequence_bounds (H : Inv () s) (p : Nat) : s.released ≤ (s.queue.slot p).sequence ∧
    (s.queue.slot p).sequence ≤ s.released + s.queue.capacity := by
  obtain ⟨r, hr, hr', heq⟩ := H.shape.exists_slotIndex s.released p
  have hslot : s.queue.slot p = s.queue.slot r := by
    rw [MpscBoundedQueue.slot, MpscBoundedQueue.slot, heq]
  rw [hslot]
  rcases H.window r hr hr' with ⟨-, h⟩ | ⟨-, h, -⟩ | ⟨-, h, -⟩ <;> omega

/-- The difference that `try_enqueue` computes. -/
theorem enqueue_difference (H : Inv () s) (hf : Fits s.queue) {p : Nat}
    (hp : p ≤ s.claimed.length) (hlap : s.claimed.length + s.queue.capacity < p + 2 ^ 63) :
    (BitVec.ofNat 64 (s.queue.slot p).sequence - BitVec.ofNat 64 p).toInt =
      ((s.queue.slot p).sequence : Int) - p := by
  have hseq := sequence_bounds H p
  have hle := hf.le
  have hbound := H.bound
  have hrel := H.released_le
  exact Counter.toInt_sub (w := 63) (by omega) (by omega)

/-- The difference that `try_dequeue` and `try_peek` compute. -/
theorem dequeue_difference (H : Inv () s) {p : Nat} (hp : p = s.released) :
    (BitVec.ofNat 64 (s.queue.slot p).sequence - (BitVec.ofNat 64 p + 1)).toInt =
      ((s.queue.slot p).sequence : Int) - (p + 1 : Nat) := by
  have htwo := H.shape.two_le
  rw [ofNat_succ]
  have hseq : p ≤ (s.queue.slot p).sequence ∧ (s.queue.slot p).sequence ≤ p + 1 := by
    rcases H.window p (by omega) (by omega) with ⟨-, h⟩ | ⟨-, h, -⟩ | ⟨-, h, -⟩ <;> omega
  exact Counter.toInt_sub (w := 63) (by omega) (by omega)

end

/-! ## The steps -/

section
variable [DecidableEq P] {w w' : State P M} {s : MpscBoundedQueue.State P Unit M} {t : P}

/-- A producer moves on in both. -/
theorem Sim.move {s' : MpscBoundedQueue.State P Unit M} (h : Sim w s)
    (pc : MpscBoundedQueue.ProducerPc M)
    (hw : w'.producers = Function.update w.producers t (wrapProducer pc))
    (hs : s'.producers = Function.update s.producers t pc) (hqueue : w'.queue = wrap s'.queue)
    (hclaimed : w'.claimed = s'.claimed) (hloaded : ∀ u, u ≠ t → w'.loaded u = w.loaded u)
    (hpc : ∀ p item, pc = .loadSequence p item ∨ pc = .compareExchange p item → w'.loaded t = p)
    (hwc : w'.consumer = w.consumer ∧ w'.dequeued = w.dequeued ∧ w'.released = w.released)
    (hsc : s'.consumers = s.consumers ∧ s'.dequeued = s.dequeued ∧ s'.released = s.released) :
    Sim w' s' where
  queue := hqueue
  producers u := by
    rw [hw, hs]
    by_cases hut : u = t
    · subst hut
      simp
    · simpa [hut] using h.producers u
  consumer := by rw [hwc.1, hsc.1, h.consumer]
  claimed := hclaimed
  dequeued := by rw [hwc.2.1, hsc.2.1, h.dequeued]
  released := by rw [hwc.2.2, hsc.2.2, h.released]
  loaded u p item hu := by
    rw [hs] at hu
    by_cases hut : u = t
    · subst hut
      rw [Function.update_self] at hu
      exact hpc p item hu
    · rw [Function.update_of_ne hut] at hu
      rw [hloaded u hut]
      exact h.loaded u p item hu

/-- A producer moves on without a change to the queue. -/
theorem Sim.setProducer (h : Sim w s) (pc : MpscBoundedQueue.ProducerPc M)
    (hpc : ∀ p item, pc = .loadSequence p item ∨ pc = .compareExchange p item → w.loaded t = p) :
    Sim (w.setProducer t (wrapProducer pc)) (s.setProducer t pc) :=
  h.move pc rfl rfl h.queue h.claimed (fun _ _ => rfl) hpc ⟨rfl, rfl, rfl⟩ ⟨rfl, rfl, rfl⟩

theorem Sim.producerStep (h : Sim w s) (H : Inv () s) (hf : Fits s.queue)
    (ha : NotLapped w (.producer t)) (hs : producerStep w t = some w') :
    ∃ s', MpscBoundedQueue.producerStep s t = some s' ∧ Sim w' s' := by
  have hok := H.producer t
  have hload := h.loaded t
  have hpc := h.producers t
  unfold WrappingQueue.producerStep at hs
  unfold MpscBoundedQueue.producerStep
  simp only [NotLapped, hpc, h.claimed, h.queue] at ha hs
  cases hp : s.producers t with
  | idle | returned =>
    rw [hp] at hs
    cases hs
  | loadIndex item =>
    rw [hp] at hs
    cases hs
    refine ⟨_, rfl, h.move _ rfl rfl h.queue h.claimed (fun u hut => Function.update_of_ne hut ..)
      (fun p x hpx => ?_) ⟨rfl, rfl, rfl⟩ ⟨rfl, rfl, rfl⟩⟩
    obtain ⟨rfl, -⟩ : s.queue.producerIndex = p ∧ item = x := by simpa using hpx
    exact (Function.update_self ..).trans H.index.symm
  | loadSequence p item =>
    rw [hp] at hs ha hok
    rw [hload p item (.inl hp)] at ha
    simp only [wrapProducer, hf.slot, enqueue_difference H hf hok (ha rfl)] at hs
    dsimp only
    split at hs
    · cases hs
      rw [if_pos ‹_›]
      refine ⟨_, rfl, h.setProducer (.compareExchange p item) fun r x hrx => ?_⟩
      obtain ⟨rfl, -⟩ : p = r ∧ item = x := by simpa using hrx
      exact hload p item (.inl hp)
    · rw [if_neg ‹_›]
      split at hs
      · cases hs
        rw [if_pos ‹_›]
        exact ⟨_, rfl, h.setProducer (.returned false) (by simp)⟩
      · cases hs
        rw [if_neg ‹_›]
        exact ⟨_, rfl, h.setProducer (.loadIndex item) (by simp)⟩
  | compareExchange p item =>
    rw [hp] at hs ha hok
    rw [hload p item (.inr hp)] at ha
    have hlap := ha rfl
    have hidx := H.index
    have hle := hok.1
    have heq : BitVec.ofNat 64 s.queue.producerIndex = BitVec.ofNat 64 p ↔
        s.queue.producerIndex = p := Counter.ofNat_eq_iff (w := 63) (by omega) (by omega)
    simp only [wrapProducer, wrap, heq] at hs
    dsimp only
    split at hs
    · cases hs
      rw [if_pos ‹_›]
      refine ⟨_, rfl, h.move (.write p item) rfl rfl ?_ rfl (fun _ _ => rfl) (by simp)
        ⟨rfl, rfl, rfl⟩ ⟨rfl, rfl, rfl⟩⟩
      simp only [wrap, ofNat_succ]
    · cases hs
      rw [if_neg ‹_›]
      exact ⟨_, rfl, h.setProducer (.loadIndex item) (by simp)⟩
  | write p item =>
    rw [hp] at hs
    simp only [wrapProducer, hf.storeData] at hs
    cases hs
    exact ⟨_, rfl, h.move (.publish p) rfl rfl rfl h.claimed (fun _ _ => rfl) (by simp)
      ⟨rfl, rfl, rfl⟩ ⟨rfl, rfl, rfl⟩⟩
  | publish p =>
    rw [hp] at hs
    simp only [wrapProducer, ofNat_succ, hf.storeSequence] at hs
    cases hs
    exact ⟨_, rfl, h.move (.returned true) rfl rfl rfl h.claimed (fun _ _ => rfl) (by simp)
      ⟨rfl, rfl, rfl⟩ ⟨rfl, rfl, rfl⟩⟩

omit [DecidableEq P] in
/-- The consumer moves on in both. -/
theorem Sim.consume {s' : MpscBoundedQueue.State P Unit M} (h : Sim w s)
    (pc : MpscBoundedQueue.ConsumerPc M) (hw : w'.consumer = wrapConsumer pc)
    (hs : s'.consumers () = pc) (hqueue : w'.queue = wrap s'.queue)
    (hdequeued : w'.dequeued = s'.dequeued) (hreleased : w'.released = s'.released)
    (hwp : w'.producers = w.producers ∧ w'.claimed = w.claimed ∧ w'.loaded = w.loaded)
    (hsp : s'.producers = s.producers ∧ s'.claimed = s.claimed) : Sim w' s' where
  queue := hqueue
  producers t := by rw [hwp.1, hsp.1, h.producers t]
  consumer := by rw [hw, hs]
  claimed := by rw [hwp.2.1, hsp.2, h.claimed]
  dequeued := hdequeued
  released := hreleased
  loaded t p item ht := by
    rw [hsp.1] at ht
    rw [hwp.2.2]
    exact h.loaded t p item ht

omit [DecidableEq P] in
/-- The consumer moves on without a change to the queue. -/
theorem Sim.setConsumer (h : Sim w s) (pc : MpscBoundedQueue.ConsumerPc M) :
    Sim { w with consumer := wrapConsumer pc } (s.setConsumer () pc) :=
  h.consume pc rfl (by simp [MpscBoundedQueue.State.setConsumer]) h.queue h.dequeued h.released
    ⟨rfl, rfl, rfl⟩ ⟨rfl, rfl⟩

omit [DecidableEq P] in
theorem Sim.consumerStep (h : Sim w s) (H : Inv () s) (hf : Fits s.queue)
    (hs : consumerStep w = some w') :
    ∃ s', MpscBoundedQueue.consumerStep s () = some s' ∧ Sim w' s' := by
  have hok := H.consumer
  obtain ⟨queue, producers, consumer, claimed, dequeued, released, loaded⟩ := w
  obtain rfl : queue = wrap s.queue := h.queue
  obtain rfl : consumer = wrapConsumer (s.consumers ()) := h.consumer
  unfold WrappingQueue.consumerStep at hs
  unfold MpscBoundedQueue.consumerStep
  cases hp : s.consumers () with
  | idle | returned | peeked =>
    simp only [hp] at hs
    cases hs
  | dequeue =>
    simp only [hp] at hs
    cases hs
    exact ⟨_, rfl, h.setConsumer (.dequeueSequence s.queue.consumerIndex)⟩
  | peek =>
    simp only [hp] at hs
    cases hs
    exact ⟨_, rfl, h.setConsumer (.peekSequence s.queue.consumerIndex)⟩
  | dequeueSequence p =>
    rw [hp] at hok
    simp only [hp, wrapConsumer, hf.slot,
      dequeue_difference H (hok.1.trans hok.2.1.symm)] at hs
    dsimp only
    split at hs <;> cases hs
    · rw [if_pos ‹_›]
      exact ⟨_, rfl, h.setConsumer (.read p)⟩
    · rw [if_neg ‹_›]
      exact ⟨_, rfl, h.setConsumer (.returned none)⟩
  | peekSequence p =>
    rw [hp] at hok
    simp only [hp, wrapConsumer, hf.slot,
      dequeue_difference H (hok.1.trans hok.2.1.symm)] at hs
    cases hs
    exact ⟨_, rfl, h.setConsumer (.peeked _)⟩
  | read p =>
    simp only [hp, wrapConsumer, hf.slot] at hs
    obtain ⟨item, hitem, rfl⟩ := Option.map_eq_some_iff.mp hs
    dsimp only
    rw [hitem]
    exact ⟨_, rfl, h.consume (.release p item) rfl
      (by simp [MpscBoundedQueue.State.setConsumer]) rfl h.dequeued h.released ⟨rfl, rfl, rfl⟩
      ⟨rfl, rfl⟩⟩
  | release p item =>
    have hcap : BitVec.ofNat 64 p + BitVec.ofNat 64 (wrap s.queue).capacity =
        BitVec.ofNat 64 (p + s.queue.capacity) := (BitVec.ofNat_add p _).symm
    simp only [hp, wrapConsumer, hcap, hf.storeSequence] at hs
    cases hs
    exact ⟨_, rfl, h.consume (.advance p item) rfl
      (by simp [MpscBoundedQueue.State.setConsumer]) rfl h.dequeued
      (congrArg (· + 1) h.released) ⟨rfl, rfl, rfl⟩ ⟨rfl, rfl⟩⟩
  | advance p item =>
    simp only [hp, wrapConsumer, ofNat_succ] at hs
    cases hs
    exact ⟨_, rfl, h.consume (.returned (some item)) rfl
      (by simp [MpscBoundedQueue.State.setConsumer]) rfl (congrArg (· ++ [item]) h.dequeued)
      h.released ⟨rfl, rfl, rfl⟩ ⟨rfl, rfl⟩⟩

/-- **A step on words is the step on natural numbers.** -/
theorem Sim.step (h : Sim w s) (H : Inv () s) (hf : Fits s.queue) {a : Action P Unit M}
    (ha : NotLapped w a) (hs : step w a = some w') :
    ∃ s', MpscBoundedQueue.step s a = some s' ∧ Sim w' s' := by
  cases a with
  | enqueue t item =>
    have hcall : (s.producers t).inCall = (w.producers t).inCall := by
      rw [h.producers t]
      cases s.producers t <;> rfl
    simp only [WrappingQueue.step] at hs
    simp only [MpscBoundedQueue.step, hcall]
    split at hs <;> cases hs
    rw [if_neg ‹_›]
    exact ⟨_, rfl, h.setProducer (.loadIndex item) (by simp)⟩
  | producer t => exact h.producerStep H hf ha hs
  | dequeue c | peek c =>
    have hcall : (s.consumers c).inCall = w.consumer.inCall := by
      rw [h.consumer]
      cases s.consumers c <;> rfl
    simp only [WrappingQueue.step] at hs
    simp only [MpscBoundedQueue.step, hcall]
    split at hs <;> cases hs
    rw [if_neg ‹_›]
    first | exact ⟨_, rfl, h.setConsumer .dequeue⟩ | exact ⟨_, rfl, h.setConsumer .peek⟩
  | consumer c => exact h.consumerStep H hf hs

omit [DecidableEq P] in
theorem Sim.initial (q : MpscBoundedQueue M) :
    Sim (initial P (wrap q)) (MpscBoundedQueue.initial P Unit q) :=
  ⟨rfl, fun _ => rfl, rfl, rfl, rfl, rfl, by simp [MpscBoundedQueue.initial]⟩

/-- Runs on words are runs on natural numbers. -/
theorem reach_sim (h : (machine P M capacity).Reach NotLapped w) :
    ∃ s, (MpscBoundedQueue.machine P Unit M capacity).Reach Machine.free s ∧ Sim w s := by
  induction h with
  | init h =>
    obtain ⟨slotSize, q, hq, rfl⟩ := h
    rw [new_eq_wrap] at hq
    obtain ⟨q', hq', rfl⟩ := Option.map_eq_some_iff.mp hq
    exact ⟨_, .init ⟨slotSize, q', hq', rfl⟩, .initial q'⟩
  | step _ hok hs ih =>
    obtain ⟨s, hr, hsim⟩ := ih
    obtain ⟨s', hs', hsim'⟩ := hsim.step (MpscBoundedQueue.reach_inv hr) (fits_of_reach hr) hok hs
    exact ⟨s', .step hr trivial hs', hsim'⟩

/-- **The queue on 64-bit positions refines the bounded buffer**, however often they wrap around. -/
theorem wrapped_refines (h : (machine P M capacity).Reach NotLapped w) :
    -- the run is a run of the buffer
    (BoundedFifo.machine M w.queue.capacity).Reach Machine.free w.fifo ∧
    -- the items come out in the order of their claims
    w.dequeued <+: w.claimed.map Prod.snd ∧
    w.claimed.length ≤ w.released + w.queue.capacity ∧
    -- `try_enqueue` gives up only on a sequence loaded while the queue was full
    (∀ t position item w', w.producers t = .loadSequence position item →
      NotLapped w (.producer t) → step w (.producer t) = some w' →
      w'.producers t = .returned false →
      w.claimed.length = w.released + w.queue.capacity) ∧
    -- the data that is read was written, for the next item in the order of the claims
    (∀ position, w.consumer = .read position →
      ∃ t item, w.claimed[w.dequeued.length]? = some (t, item) ∧
        (w.queue.slot position).data = some item) := by
  obtain ⟨s, hr, hsim⟩ := reach_sim h
  have H := MpscBoundedQueue.reach_inv hr
  have hf := fits_of_reach hr
  have hcap : w.queue.capacity = s.queue.capacity := by rw [hsim.queue]; rfl
  have hdeq : w.dequeued = (w.claimed.map Prod.snd).take s.queue.consumerIndex := by
    rw [hsim.dequeued, hsim.claimed]
    exact H.dequeued
  refine ⟨?_, ?_, ?_, fun t position item w' hpc hlap hs hret => ?_, fun position hpc => ?_⟩
  · rw [hcap, State.fifo, hsim.claimed, hsim.released]
    exact MpscBoundedQueue.reach_fifo hr
  · rw [hdeq]
    exact List.take_prefix _ _
  · rw [hcap, hsim.claimed, hsim.released]
    exact H.bound
  · have hp := hsim.producers t
    cases hsp : s.producers t with
    | loadSequence p x =>
      have hok := H.producer t
      rw [hsp] at hok
      rw [NotLapped, hp, hsp, hsim.loaded t p x (.inl hsp), hcap, hsim.claimed] at hlap
      simp only [WrappingQueue.step, WrappingQueue.producerStep, hp, hsp, wrapProducer, hsim.queue,
        hf.slot, enqueue_difference H hf hok (hlap rfl)] at hs
      rw [hcap, hsim.claimed, hsim.released]
      split at hs
      · cases hs
        simp [State.setProducer] at hret
      · split at hs
        · exact H.full_of_sequence_lt hok (by omega)
        · cases hs
          simp [State.setProducer] at hret
    | _ =>
      rw [hpc, hsp] at hp
      cases hp
  · have hc := hsim.consumer
    cases hsc : s.consumers () with
    | read p =>
      have hok := H.consumer
      rw [hsc] at hok
      obtain ⟨hp, -, -, hlt, -, hdata, -⟩ := hok
      rw [hpc, hsc] at hc
      cases hc
      have hlen : w.dequeued.length = p := by
        rw [hdeq, List.length_take, List.length_map, hsim.claimed, ← hp]
        exact Nat.min_eq_left (Nat.le_of_lt hlt)
      obtain ⟨⟨t, item⟩, hx⟩ : ∃ x, s.claimed[p]? = some x := ⟨_, List.getElem?_eq_getElem hlt⟩
      refine ⟨t, item, by rw [hlen, hsim.claimed, hx], ?_⟩
      rw [hsim.queue, hf.slot]
      exact hdata.trans (MpscBoundedQueue.State.accepted_of_claimed hx)
    | _ =>
      rw [hpc, hsc] at hc
      cases hc

end

/-! ## A run past the wrap -/

/-- A queue of two slots with `claimed` items put and `released` of them taken, and nobody inside a
call. -/
structure Resting (claimed released : Nat) (w : State Unit Nat) : Prop where
  capacity : w.queue.capacity = 2
  mask : w.queue.indexMask = 1
  producerIndex : w.queue.producerIndex = BitVec.ofNat 64 claimed
  consumerIndex : w.queue.consumerIndex = BitVec.ofNat 64 released
  producer : (w.producers ()).inCall = false
  consumer : w.consumer.inCall = false
  claimed : w.claimed.length = claimed
  released : w.released = released

section
variable {n : Nat} {w : State Unit Nat}

theorem Resting.enqueue (h : Resting n n w)
    (hslot : (w.queue.buffer (n % 2)).sequence = BitVec.ofNat 64 n) :
    ∃ w', (machine Unit Nat 2).run w (.enqueue () 0 :: .replicate 5 (.producer ())) = some w' ∧
      (machine Unit Nat 2).RunOk NotLapped w (.enqueue () 0 :: .replicate 5 (.producer ())) ∧
      Resting (n + 1) n w' ∧
      w'.queue.buffer =
        Function.update w.queue.buffer (n % 2) ⟨BitVec.ofNat 64 n + 1, some 0⟩ := by
  have hlap : w.queue.capacity < 2 ^ 63 := by
    rw [h.capacity]
    omega
  simp only [Nat.reducePow] at hlap
  simp [Machine.run, Machine.RunOk, machine, List.replicate, step, NotLapped, h.producer,
    h.producerIndex, State.setProducer, producerStep, slot, hslot, storeData, storeSequence,
    slotIndex, h.mask, ProducerPc.compares, hlap]
  exact ⟨h.capacity, rfl, ofNat_succ n, h.consumerIndex, by simp [ProducerPc.inCall], h.consumer,
    by simp [h.claimed], h.released⟩

theorem Resting.dequeue (h : Resting (n + 1) n w)
    (hslot : w.queue.buffer (n % 2) = ⟨BitVec.ofNat 64 n + 1, some 0⟩) :
    ∃ w', (machine Unit Nat 2).run w (.dequeue () :: .replicate 5 (.consumer ())) = some w' ∧
      (machine Unit Nat 2).RunOk NotLapped w (.dequeue () :: .replicate 5 (.consumer ())) ∧
      Resting (n + 1) (n + 1) w' ∧
      w'.queue.buffer =
        Function.update w.queue.buffer (n % 2) ⟨BitVec.ofNat 64 n + 2, some 0⟩ := by
  simp [Machine.run, Machine.RunOk, machine, List.replicate, step, NotLapped, h.consumer,
    h.consumerIndex, consumerStep, slot, hslot, storeSequence, slotIndex, h.mask, h.capacity]
  exact ⟨rfl, rfl, h.producerIndex, ofNat_succ n, h.producer, rfl, h.claimed, by simp [h.released]⟩

/-- The slots of the next two positions, when nothing waits in the queue. -/
structure Drained (n : Nat) (w : State Unit Nat) : Prop where
  resting : Resting n n w
  slot : (w.queue.buffer (n % 2)).sequence = BitVec.ofNat 64 n
  next : (w.queue.buffer ((n + 1) % 2)).sequence = BitVec.ofNat 64 (n + 1)

/-- The queue can be drained after any number of items. The induction is on that number. -/
theorem exists_drained (n : Nat) : ∃ w, (machine Unit Nat 2).Reach NotLapped w ∧ Drained n w := by
  induction n with
  | zero =>
    refine ⟨initial Unit ((new Nat 16 2).get rfl), .init ⟨16, _, rfl, rfl⟩, ?_, rfl, rfl⟩
    exact ⟨rfl, rfl, rfl, rfl, rfl, rfl, rfl, rfl⟩
  | succ n ih =>
    obtain ⟨w, hreach, h⟩ := ih
    obtain ⟨v, hput, hputOk, hv, hvbuffer⟩ := h.resting.enqueue h.slot
    have hslot : v.queue.buffer (n % 2) = ⟨BitVec.ofNat 64 n + 1, some 0⟩ := by
      rw [hvbuffer, Function.update_self]
    obtain ⟨u, htake, htakeOk, hu, hubuffer⟩ := hv.dequeue hslot
    refine ⟨u, (hreach.run hputOk hput).run htakeOk htake, hu, ?_, ?_⟩
    · -- the other slot
      have hne : (n + 1) % 2 ≠ n % 2 := by omega
      rw [hubuffer, Function.update_of_ne hne, hvbuffer, Function.update_of_ne hne, h.next]
    · have heq : (n + 1 + 1) % 2 = n % 2 := by omega
      rw [hubuffer, heq, Function.update_self]
      exact (BitVec.ofNat_add n 2).symm

/-- The positions have wrapped around: the producer is at 1, the consumer at 0. -/
theorem wrapped_refines_pastWrap :
    ∃ w : State Unit Nat, w.claimed.length = 2 ^ 64 + 1 ∧ w.queue.producerIndex = 1 ∧
      w.queue.consumerIndex = 0 ∧ (w.queue.slot 0).data = some 0 ∧
      (BoundedFifo.machine Nat w.queue.capacity).Reach Machine.free w.fifo ∧
      w.dequeued <+: w.claimed.map Prod.snd := by
  obtain ⟨w, hreach, h⟩ := exists_drained (2 ^ 64)
  obtain ⟨v, hput, hputOk, hv, hbuffer⟩ := h.resting.enqueue h.slot
  have hrefines := wrapped_refines (hreach.run hputOk hput)
  refine ⟨v, hv.claimed, hv.producerIndex, hv.consumerIndex, ?_, hrefines.1, hrefines.2.1⟩
  rw [slot, slotIndex, hv.mask, hbuffer]
  rfl

end

end DignusActor.WrappingQueue
