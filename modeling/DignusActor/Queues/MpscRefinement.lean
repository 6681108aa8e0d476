import DignusActor.Machine.BoundedFifo
import DignusActor.Queues.MpscInvariant

/-! # The bounded queue refines a bounded first-in first-out buffer

`new` builds a queue whose capacity is the least power of two that the request fits in
(`new_isLeast`, `new_isSome_iff`), so the invariant of `MpscInvariant` holds from the start
(`Inv.initial`). The buffer that the queue stands for holds the claimed positions that are not
released: the successful compare-exchange is its `put` and the release store its `take`
(`State.fifo_step`). -/

universe u v w

namespace DignusActor.MpscBoundedQueue

/-! ## The capacity -/

theorem normalizeLoop_least {capacity fuel j n : Nat}
    (hj : ∀ i < j, 2 ^ i < capacity) (h : normalizeLoop capacity fuel (2 ^ j) = some n) :
    capacity ≤ n ∧ ∃ k, n = 2 ^ k ∧ ∀ i < k, 2 ^ i < capacity := by
  induction fuel generalizing j with
  | zero => cases h
  | succ fuel ih =>
    rw [normalizeLoop] at h
    split at h
    · rename_i hlt
      split at h
      · rw [← Nat.pow_succ] at h
        refine ih (fun i hi => ?_) h
        rcases Nat.lt_succ_iff_lt_or_eq.mp hi with hi | rfl
        · exact hj i hi
        · exact hlt
      · cases h
    · rename_i hle
      cases h
      exact ⟨Nat.le_of_not_lt hle, j, rfl, hj⟩

theorem normalizeLoop_isSome {capacity fuel j : Nat} (hfuel : 65 ≤ fuel + j) (hj : j ≤ 63)
    (hcap : capacity ≤ 2 ^ 63) : (normalizeLoop capacity fuel (2 ^ j)).isSome := by
  induction fuel generalizing j with
  | zero => omega
  | succ fuel ih =>
    rw [normalizeLoop]
    split
    · rename_i hlt
      have hj' : j < 63 := (Nat.pow_lt_pow_iff_right (by omega)).mp (Nat.lt_of_lt_of_le hlt hcap)
      have hpow : 2 ^ j * 2 < 2 ^ 64 := by
        rw [← Nat.pow_succ]
        exact Nat.pow_lt_pow_right (by omega) (by omega)
      rw [if_pos hpow, ← Nat.pow_succ]
      exact ih (by omega) (by omega)
    · rfl

theorem normalizeLoop_isNone {capacity fuel j : Nat} (hj : j ≤ 63) (hcap : 2 ^ 63 < capacity) :
    normalizeLoop capacity fuel (2 ^ j) = none := by
  induction fuel generalizing j with
  | zero => rfl
  | succ fuel ih =>
    have hlt : 2 ^ j < capacity :=
      Nat.lt_of_le_of_lt (Nat.pow_le_pow_right (by omega) hj) hcap
    rw [normalizeLoop, if_pos hlt, ← Nat.pow_succ]
    split
    · rename_i hpow
      have : j + 1 < 64 := (Nat.pow_lt_pow_iff_right (by omega)).mp hpow
      exact ih (by omega)
    · rfl

/-- `normalize_to_power_of_two` gives the least power of two that the capacity fits in. -/
theorem normalize_isLeast {capacity n : Nat} (h : normalizeToPowerOfTwo capacity = some n) :
    IsLeast {n | capacity ≤ n ∧ ∃ k, n = 2 ^ k} n := by
  obtain ⟨hle, k, rfl, hk⟩ := normalizeLoop_least (j := 0) (by simp) h
  refine ⟨⟨hle, k, rfl⟩, ?_⟩
  rintro m ⟨hm, i, rfl⟩
  refine Nat.pow_le_pow_right (by omega) ?_
  by_contra hlt
  have := hk i (by omega)
  omega

/-- It panics where doubling overflows `usize`, and nowhere else. -/
theorem normalize_isSome_iff {capacity : Nat} :
    (normalizeToPowerOfTwo capacity).isSome ↔ capacity ≤ 2 ^ 63 := by
  rw [normalizeToPowerOfTwo]
  by_cases hle : capacity ≤ 2 ^ 63
  · have hsome := normalizeLoop_isSome (Nat.le_refl 65) (Nat.zero_le 63) hle
    rw [Nat.pow_zero] at hsome
    exact ⟨fun _ => hle, fun _ => hsome⟩
  · rw [← Nat.pow_zero 2, normalizeLoop_isNone (by omega) (by omega)]
    simp only [Option.isSome_none, Bool.false_eq_true, false_iff]
    exact hle

variable {P : Type v} {C : Type w} {M : Type u} {slotSize capacity : Nat} {q : MpscBoundedQueue M}

/-- What `new` makes, and of what capacities. -/
theorem new_eq_some : new M slotSize capacity = some q ↔ 2 ≤ capacity ∧
    ∃ n, normalizeToPowerOfTwo capacity = some n ∧ n * slotSize ≤ isizeMax ∧
      ⟨fun slotIndex => ⟨slotIndex, none⟩, n, 0, 0, n - 1⟩ = q := by
  rw [new]
  by_cases hcap : capacity < 2
  · simp [hcap]
  · simp only [if_neg hcap, Option.bind_eq_some_iff, Option.ite_none_right_eq_some,
      Option.some.injEq, Nat.le_of_not_lt hcap, true_and]

/-- `new` panics below two, where doubling overflows `usize`, and where the slots take more than
`isize::MAX` bytes, and nowhere else. -/
theorem new_isSome_iff : (new M slotSize capacity).isSome ↔
    2 ≤ capacity ∧ ∃ k ≤ 63, capacity ≤ 2 ^ k ∧ 2 ^ k * slotSize ≤ isizeMax := by
  simp only [Option.isSome_iff_exists, new_eq_some]
  constructor
  · rintro ⟨q, hcap, n, hn, hsize, -⟩
    obtain ⟨⟨hle, k, rfl⟩, hleast⟩ := normalize_isLeast hn
    have hle63 : 2 ^ k ≤ 2 ^ 63 :=
      hleast ⟨normalize_isSome_iff.mp (Option.isSome_of_mem hn), 63, rfl⟩
    exact ⟨hcap, k, (Nat.pow_le_pow_iff_right (by omega)).mp hle63, hle, hsize⟩
  · rintro ⟨hcap, k, hk, hle, hsize⟩
    have hle63 : capacity ≤ 2 ^ 63 := hle.trans (Nat.pow_le_pow_right (by omega) hk)
    obtain ⟨n, hn⟩ := Option.isSome_iff_exists.mp (normalize_isSome_iff.mpr hle63)
    have hnk : n ≤ 2 ^ k := (normalize_isLeast hn).2 ⟨hle, k, rfl⟩
    exact ⟨_, hcap, n, hn, (Nat.mul_le_mul_right slotSize hnk).trans hsize, rfl⟩

/-- The normalised capacity is the least power of two that the requested one fits in. -/
theorem new_isLeast (h : new M slotSize capacity = some q) :
    IsLeast {n | capacity ≤ n ∧ ∃ k, n = 2 ^ k} q.capacity := by
  obtain ⟨-, n, hn, -, rfl⟩ := new_eq_some.mp h
  exact normalize_isLeast hn

theorem new_shape (h : new M slotSize capacity = some q) : q.Shape := by
  obtain ⟨hcap, n, hn, -, rfl⟩ := new_eq_some.mp h
  obtain ⟨⟨hle, k, rfl⟩, -⟩ := normalize_isLeast hn
  refine ⟨rfl, k, ?_, rfl⟩
  by_contra hk0
  have : k = 0 := by omega
  subst this
  omega

theorem Inv.initial (c : C) (h : new M slotSize capacity = some q) : Inv c (initial P C q) := by
  have hshape := new_shape h
  obtain ⟨-, n, -, -, rfl⟩ := new_eq_some.mp h
  constructor
  case shape => exact hshape
  case index => rfl
  case bound => exact Nat.zero_le _
  case window =>
    intro p _ hp
    refine .inl ⟨Nat.zero_le _, ?_⟩
    have hp : p < n := by simpa [MpscBoundedQueue.initial] using hp
    exact (hshape.slotIndex p).trans (Nat.mod_eq_of_lt hp)
  case producer =>
    intro t
    trivial
  case written =>
    intro i p h
    cases h
  case consumer => exact ⟨rfl, rfl⟩
  case idle =>
    intro c' _
    rfl
  case consumed => exact Nat.le_refl _
  case dequeued => rfl

/-! ## The buffer behind the queue -/

/-- The abstract buffer: the items of the claimed positions, taken up to the released ones. -/
def State.fifo (s : State P C M) : BoundedFifo M := .ofPut s.accepted s.released

theorem State.fifo_producerStep [DecidableEq P] {c : C} {s s' : State P C M} {t : P}
    (H : Inv c s) (hs : producerStep s t = some s') :
    s'.fifo = s.fifo ∨
      ∃ b, (BoundedFifo.machine M s.queue.capacity).step s.fifo b = some s'.fifo := by
  have hok := H.producer t
  unfold producerStep at hs
  cases hpc : s.producers t with
  | compareExchange p item =>
    rw [hpc] at hs hok
    simp only at hs
    split at hs
    · rename_i hidx
      cases hs
      have hlen := s.length_accepted
      have hrel := H.released_le
      have hlt := hok.2 (hidx.symm.trans H.index)
      have hp : p = s.claimed.length := hidx.symm.trans H.index
      refine .inr ⟨.put item, (BoundedFifo.step_put_ofPut item (by omega) (by omega)).trans ?_⟩
      simp [State.fifo, State.accepted, State.setProducer]
    · cases hs
      exact .inl rfl
  | loadSequence p item =>
    rw [hpc] at hs
    simp only at hs
    split at hs
    · cases hs
      exact .inl rfl
    · split at hs <;> cases hs <;> exact .inl rfl
  | idle | returned | loadIndex | write | publish =>
    rw [hpc] at hs
    cases hs <;> exact .inl rfl

theorem State.fifo_consumerStep [DecidableEq C] {c : C} {s s' : State P C M}
    (H : Inv c s) (hs : consumerStep s c = some s') :
    s'.fifo = s.fifo ∨
      ∃ b, (BoundedFifo.machine M s.queue.capacity).step s.fifo b = some s'.fifo := by
  have hok := H.consumer
  unfold consumerStep at hs
  cases hpc : s.consumers c with
  | release p item =>
    rw [hpc] at hs hok
    cases hs
    obtain ⟨hp, hrel, _, hpub, _⟩ := hok
    have hlen := s.length_accepted
    have hlt := hpub.1
    exact .inr ⟨.take, BoundedFifo.step_take_ofPut s.queue.capacity (by omega)⟩
  | read p =>
    rw [hpc] at hs
    obtain ⟨item, _, rfl⟩ := Option.map_eq_some_iff.mp hs
    exact .inl rfl
  | dequeueSequence p =>
    rw [hpc] at hs
    simp only at hs
    split at hs <;> cases hs <;> exact .inl rfl
  | idle | dequeue | returned | peek | peeked | peekSequence | advance =>
    rw [hpc] at hs
    cases hs <;> exact .inl rfl

/-- Each step of the queue is a step of the buffer, or leaves the buffer as it is. -/
theorem State.fifo_step [DecidableEq P] [DecidableEq C] {c : C} {s s' : State P C M}
    {a : Action P C M} (H : Inv c s) (ha : ∀ c' ∈ a.consumer?, c' = c) (hs : step s a = some s') :
    s'.fifo = s.fifo ∨
      ∃ b, (BoundedFifo.machine M s.queue.capacity).step s.fifo b = some s'.fifo := by
  cases a with
  | producer t => exact State.fifo_producerStep H hs
  | consumer c' =>
    cases ha c' rfl
    exact State.fifo_consumerStep H hs
  | enqueue t item | dequeue c' | peek c' =>
    simp only [step] at hs
    split at hs <;> cases hs
    exact .inl rfl

/-! ## Reachable states -/

section
variable [DecidableEq P] {s s' : State P Unit M}

theorem reach_inv (h : (machine P Unit M capacity).Reach Machine.free s) : Inv () s :=
  h.inv (Inv ()) (by rintro s ⟨_, q, hq, rfl⟩; exact .initial _ hq)
    fun H _ hs => H.step (fun _ _ => rfl) hs

/-- No step changes the capacity. -/
theorem step_capacity {a : Action P Unit M} (hs : step s a = some s') :
    s'.queue.capacity = s.queue.capacity := by
  cases a with
  | producer t =>
    simp only [step, producerStep] at hs
    repeat' split at hs
    all_goals cases hs <;> rfl
  | consumer c =>
    simp only [step, consumerStep] at hs
    repeat' split at hs
    all_goals first
      | (obtain ⟨_, _, rfl⟩ := Option.map_eq_some_iff.mp hs; rfl)
      | (cases hs <;> rfl)
  | enqueue | dequeue | peek =>
    simp only [step] at hs
    split at hs <;> cases hs
    rfl

theorem reach_capacity (h : (machine P Unit M capacity).Reach Machine.free s) :
    IsLeast {n | capacity ≤ n ∧ ∃ k, n = 2 ^ k} s.queue.capacity :=
  h.inv (fun s => IsLeast {n | capacity ≤ n ∧ ∃ k, n = 2 ^ k} s.queue.capacity)
    (by rintro s ⟨_, q, hq, rfl⟩; exact new_isLeast hq) fun H _ hs => step_capacity hs ▸ H

/-- Runs of the queue are runs of the buffer. -/
theorem reach_fifo (h : (machine P Unit M capacity).Reach Machine.free s) :
    (BoundedFifo.machine M s.queue.capacity).Reach Machine.free s.fifo := by
  induction h with
  | init h =>
    obtain ⟨_, q, _, rfl⟩ := h
    exact .init rfl
  | step hr _ hs ih =>
    rw [step_capacity hs]
    rcases State.fifo_step (reach_inv hr) (fun _ _ => rfl) hs with heq | ⟨b, hb⟩
    · rwa [heq]
    · exact .step ih trivial hb

end

/-- The data that a write replaces belongs to a position that was read. -/
theorem Inv.overwrite {c : C} {s : State P C M} (H : Inv c s) {t : P} {p r : Nat} {item : M}
    (hpc : s.producers t = .write p item)
    (hr : s.writtenFor (s.queue.slotIndex p) = some r) : r < s.reads := by
  have hok := H.producer t
  rw [hpc] at hok
  obtain ⟨hrel, hclaim, _, hne⟩ := hok
  obtain ⟨hidx, hlt⟩ := H.written _ _ hr
  have hp : p < s.claimed.length := (List.getElem?_eq_some_iff.mp hclaim).1
  have hbound := H.bound
  have hreads : s.released ≤ s.reads := by
    have hc := H.consumer
    revert hc
    cases s.consumers c <;> simp only [State.ConsumerOk] <;> omega
  by_contra hge
  have : r = p := H.shape.slotIndex_inj (a := s.released) (by omega) (by omega) hrel (by omega) hidx
  subst this
  exact hne hr

/-- A claimed item that was not returned yet is with its producer, in its slot or in the hands of
the consumer. -/
theorem Inv.present {c : C} {s : State P C M} (H : Inv c s) {t : P} {p : Nat} {item : M}
    (hclaim : s.claimed[p]? = some (t, item)) (hp : s.dequeued.length ≤ p) :
    s.producers t = .write p item ∨ (s.queue.slot p).data = some item ∨
      s.consumers c = .advance p item := by
  have hacc := State.accepted_of_claimed hclaim
  have hlt : p < s.claimed.length := (List.getElem?_eq_some_iff.mp hclaim).1
  have hlen : s.dequeued.length = s.queue.consumerIndex := by
    have := H.consumed
    rw [H.dequeued, List.length_take, s.length_accepted]
    omega
  by_cases hrel : s.released ≤ p
  · have hwin : p < s.released + s.queue.capacity := Nat.lt_of_lt_of_le hlt H.bound
    rcases H.window p hrel hwin with h | ⟨_, _, t', ht'⟩ | h
    · omega
    · obtain ⟨_, ⟨item', hclaim'⟩, _⟩ := H.held ht'
      rw [hclaim] at hclaim'
      cases hclaim'
      have hok := H.producer t
      cases hpc : s.producers t with
      | write r x =>
        rw [hpc] at ht' hok
        cases ht'
        have hx := hok.2.1
        rw [hclaim] at hx
        cases hx
        exact .inl rfl
      | publish r =>
        rw [hpc] at ht' hok
        cases ht'
        exact .inr (.inl (hok.2.2.2.1.trans hacc))
      | _ =>
        rw [hpc] at ht'
        cases ht'
    · exact .inr (.inl (h.2.2.1.trans hacc))
  · have hc := H.consumer
    cases hpc : s.consumers c with
    | advance r x =>
      rw [hpc] at hc
      obtain ⟨h1, h2, _, h4⟩ := hc
      have : p = r := by omega
      subst this
      rw [hacc] at h4
      cases h4
      exact .inr (.inr rfl)
    | _ =>
      rw [hpc] at hc
      simp only [State.ConsumerOk] at hc
      omega

/-- **The queue refines a bounded first-in first-out buffer**, for every requested capacity, any
number of producers and every interleaving with the one consumer. -/
theorem refines_boundedFifo [DecidableEq P] {s : State P Unit M}
    (h : (machine P Unit M capacity).Reach Machine.free s) :
    -- the capacity is the least power of two that the requested one fits in
    IsLeast {n | capacity ≤ n ∧ ∃ k, n = 2 ^ k} s.queue.capacity ∧
    -- the run is a run of the buffer: each step is one of its steps, or leaves it as it is
    (BoundedFifo.machine M s.queue.capacity).Reach Machine.free s.fifo ∧
    (∀ a s', step s a = some s' → s'.fifo = s.fifo ∨
      ∃ b, (BoundedFifo.machine M s.queue.capacity).step s.fifo b = some s'.fifo) ∧
    -- the `k`-th item returned is the item of the producer that claimed position `k`
    (∀ (k : Nat) (item : M), s.dequeued[k]? = some item → ∃ t, s.claimed[k]? = some (t, item)) ∧
    -- data is read only after it was written for the position that is read
    (∀ p, s.consumers () = .read p → s.writtenFor (s.queue.slotIndex p) = some p ∧
      ∃ t item, s.claimed[p]? = some (t, item) ∧ (s.queue.slot p).data = some item) ∧
    -- data is overwritten only after it was read
    (∀ t p item r, s.producers t = .write p item →
      s.writtenFor (s.queue.slotIndex p) = some r → r < s.reads) ∧
    -- no item is lost: those not yet returned are still there
    (∀ (t : P) (p : Nat) (item : M), s.claimed[p]? = some (t, item) → s.dequeued.length ≤ p →
      s.producers t = .write p item ∨ (s.queue.slot p).data = some item ∨
        s.consumers () = .advance p item) ∧
    -- at most `capacity` positions are claimed and not released
    s.released ≤ s.claimed.length ∧ s.claimed.length ≤ s.released + s.queue.capacity ∧
    -- `try_enqueue` gives up only on a sequence loaded while the queue was full
    (∀ t p item s', s.producers t = .loadSequence p item → step s (.producer t) = some s' →
      s'.producers t = .returned false →
      s.claimed.length = s.released + s.queue.capacity) := by
  have H := reach_inv h
  refine ⟨reach_capacity h, reach_fifo h, fun a s' hs => State.fifo_step H (fun _ _ => rfl) hs,
    ?_, ?_, fun t p item r => H.overwrite, fun t p item => H.present, H.released_le, H.bound, ?_⟩
  · intro k item hk
    rw [H.dequeued, List.getElem?_take] at hk
    split at hk
    · simp only [State.accepted, List.getElem?_map, Option.map_eq_some_iff] at hk
      obtain ⟨⟨t, x⟩, hx, rfl⟩ := hk
      exact ⟨t, hx⟩
    · cases hk
  · intro p hp
    have hok := H.consumer
    rw [hp] at hok
    obtain ⟨_, _, _, hlt, _, hdata, hwr⟩ := hok
    obtain ⟨⟨t, item⟩, hx⟩ : ∃ x, s.claimed[p]? = some x := ⟨_, List.getElem?_eq_getElem hlt⟩
    exact ⟨hwr, t, item, hx, hdata.trans (State.accepted_of_claimed hx)⟩
  · intro t p item s' hpc hs hret
    have hok := H.producer t
    rw [hpc] at hok
    simp only [step, producerStep, hpc] at hs
    split at hs
    · cases hs
      simp [State.setProducer] at hret
    · split at hs
      · exact H.full_of_sequence_lt hok (by omega)
      · cases hs
        simp [State.setProducer] at hret

/-- Two producers enqueue one item each, the second from a stale position, and the consumer dequeues
the first item. -/
def twoProducers : List (Action (Fin 2) Unit Nat) :=
  Action.enqueue 0 5 :: Action.enqueue 1 6 :: Action.producer 1 ::
    List.replicate 5 (Action.producer 0) ++ List.replicate 6 (Action.producer 1) ++
    Action.dequeue () :: List.replicate 5 (Action.consumer ())

theorem refines_boundedFifo_twoProducers :
    ∃ t, (((machine (Fin 2) Unit Nat 3).run (initial _ _ ((new Nat 16 3).get rfl))
      twoProducers).get rfl).claimed[0]? = some (t, 5) :=
  (refines_boundedFifo (.get_free
    (show (machine (Fin 2) Unit Nat 3).Init _ from ⟨16, _, rfl, rfl⟩) rfl)).2.2.2.1 0 5 rfl

end DignusActor.MpscBoundedQueue
