import DignusActor.Delayed.Stores

/-! # The slots of the mailbox behind store buffers

The invariant of the mailbox in the view of the worker (`Slots`), which has its own stores at once
and those of a poster when they reach the memory. The worker's stores raise the sequences they
write, so what a poster reads of a slot is not ahead of that view; and a poster whose
compare-exchange succeeds has read the last store to its slot, so no store to it is in flight. -/

universe u v

namespace DignusActor.Delayed

variable {T : Type u} {M : Type v}

def Store.position? : Store M → Option Nat
  | .sequence position _ => some position
  | _ => none

/-- The position that a thread has claimed and not yet published. -/
def CallerPc.held : CallerPc M → List Nat
  | .write position _ | .publish position => [position]
  | _ => []

/-- The worker has found the front of the mailbox published. -/
def WorkerPc.Reading : WorkerPc M → Prop
  | .read | .release _ => True
  | _ => False

namespace State

/-- The sequence in the slot of a position, as the worker reads it. -/
def value (s : State T M) (position : Nat) : Nat := (s.seen none).sequence position

abbrev front (s : State T M) : Nat := s.mailbox.consumerIndex

abbrev back (s : State T M) : Nat := s.mailbox.producerIndex

/-- The positions that thread `t` has claimed and that the worker does not yet see published. -/
def held (s : State T M) : Option T → List Nat
  | none => (s.callers none).held
  | some t => (s.mem.buffers (some t)).filterMap Store.position? ++ (s.callers (some t)).held

/-- What a thread knows of the sequence that it is about to compare the position with. -/
def Ahead (s : State T M) (position : Nat) : Option T → Prop
  | none => position ≤ s.value position
  | some _ => position ≤ s.mem.memory.sequence position

end State

structure Slots (s : State T M) : Prop where
  shape : s.mailbox.Shape
  le : s.front ≤ s.back
  bound : s.back ≤ s.front + s.mailbox.capacity
  claimed : ∀ p, s.front ≤ p → p < s.back →
    s.value p = p + 1 ∨ s.value p = p ∧ ∃ t, p ∈ s.held t
  free : ∀ p, s.back ≤ p → p < s.front + s.mailbox.capacity → s.value p = p
  rising : Rising s.mem.memory (s.mem.buffers none)
  holds : ∀ t p, p ∈ s.held t → s.front ≤ p ∧ p < s.back ∧ s.value p = p
  /-- No store of the worker to the slot of a poster is in flight. -/
  apart : ∀ t p, p ∈ s.held (some t) → ∀ x ∈ s.mem.buffers none, ¬x.Touches s.mailbox p
  unique : ∀ t t' p, p ∈ s.held t → p ∈ s.held t' → t = t'
  single : ∀ t, (s.held t).length ≤ 1
  flying : ∀ t p value, .sequence p value ∈ s.mem.buffers (some t) → value = p + 1
  noClear : ∀ t, .clearScheduled ∉ s.mem.buffers (some t)
  loading : ∀ t p item, s.callers t = .loadSequence p item → p ≤ s.back
  comparing : ∀ t p item, s.callers t = .compareExchange p item → p ≤ s.back ∧ s.Ahead p t
  reading : s.worker.Reading → s.value s.front = s.front + 1

section

variable {s s' : State T M} {p r : Nat}

/-- Two positions of the window have different slots. -/
theorem Slots.slotIndex_ne (h : Slots s) (hp : s.front ≤ p) (hp' : p < s.front + s.mailbox.capacity)
    (hr : s.front ≤ r) (hr' : r < s.front + s.mailbox.capacity) (hne : p ≠ r) :
    s.mailbox.slotIndex p ≠ s.mailbox.slotIndex r :=
  fun heq => hne (h.shape.slotIndex_inj hp hp' hr hr' heq)

theorem indexMask_seen (t : Option T) : (s.seen t).mailbox.indexMask = s.mailbox.indexMask :=
  indexMask_foldl

theorem value_slot (h : s.mailbox.slotIndex p = s.mailbox.slotIndex r) : s.value p = s.value r := by
  refine sequence_slot ?_
  rwa [slotIndex_congr (indexMask_seen none), slotIndex_congr (indexMask_seen none)]

theorem start_slots {slotSize capacity : Nat} {q : MpscBoundedQueue M}
    (h : MpscBoundedQueue.new M slotSize capacity = some q) : Slots (start T q) := by
  have hshape := MpscBoundedQueue.new_shape h
  have hheld (t : Option T) : (start T q).held t = [] := by
    cases t <;> rfl
  have hnot (t : Option T) (p : Nat) : p ∉ (start T q).held t := by
    rw [hheld]
    exact List.not_mem_nil
  obtain ⟨-, n, -, -, rfl⟩ := MpscBoundedQueue.new_eq_some.mp h
  refine
    { shape := hshape
      le := le_rfl
      bound := Nat.zero_le _
      claimed := fun p _ hp => absurd hp (Nat.not_lt_zero p)
      free := fun p _ hp => ?_
      rising := trivial
      holds := fun t p hp => absurd hp (hnot t p)
      apart := fun t p hp => absurd hp (hnot (some t) p)
      unique := fun t _ p hp => absurd hp (hnot t p)
      single := fun t => (congrArg List.length (hheld t)).trans_le (Nat.zero_le 1)
      flying := fun t p value hp => by cases hp
      noClear := fun t ht => by cases ht
      loading := fun t p item hp => by cases hp
      comparing := fun t p item hp => by cases hp
      reading := fun hread => hread.elim }
  have hlt : p < 0 + n := hp
  exact (hshape.slotIndex p).trans (Nat.mod_eq_of_lt (show p < n by omega))

variable [DecidableEq T] {t : Option T} {pc : CallerPc M}

/-! ## Steps that move a program counter -/

/-- A thread that claims nothing and publishes nothing. -/
theorem Slots.caller (h : Slots s) (hheld : pc.held = (s.callers t).held)
    (hload : ∀ p item, pc = .loadSequence p item → p ≤ s.back)
    (hcompare : ∀ p item, pc = .compareExchange p item → p ≤ s.back ∧ s.Ahead p t) :
    Slots (s.setCaller t pc) := by
  have hholds (u : Option T) : (s.setCaller t pc).held u = s.held u := by
    have hpc : ((s.setCaller t pc).callers u).held = (s.callers u).held := by
      by_cases hut : u = t
      · subst hut
        rw [s.callers_setCaller_self, hheld]
      · rw [s.callers_setCaller_of_ne hut]
    cases u with
    | none => exact hpc
    | some u => exact congrArg (_ ++ ·) hpc
  have hcaller (u : Option T) {pc' : CallerPc M} (hu : (s.setCaller t pc).callers u = pc') :
      u = t ∧ pc = pc' ∨ s.callers u = pc' := by
    by_cases hut : u = t
    · subst hut
      exact .inl ⟨rfl, (s.callers_setCaller_self u pc).symm.trans hu⟩
    · exact .inr ((s.callers_setCaller_of_ne hut pc).symm.trans hu)
  refine { h with
    claimed := fun p hp hp' => ?_
    holds := fun u p hp => h.holds u p (hholds u ▸ hp)
    apart := fun u p hp => h.apart u p (hholds (some u) ▸ hp)
    unique := fun u u' p hp hp' => h.unique u u' p (hholds u ▸ hp) (hholds u' ▸ hp')
    single := fun u => hholds u ▸ h.single u
    loading := fun u p item hu => ?_
    comparing := fun u p item hu => ?_ }
  · exact (h.claimed p hp hp').imp_right fun ⟨hvalue, u, hu⟩ => ⟨hvalue, u, hholds u ▸ hu⟩
  · rcases hcaller u hu with ⟨-, hpc⟩ | hu
    · exact hload p item hpc
    · exact h.loading u p item hu
  · rcases hcaller u hu with ⟨rfl, hpc⟩ | hu
    · exact hcompare p item hpc
    · exact h.comparing u p item hu

omit [DecidableEq T] in
/-- The entries of the runner and the worker change, and nothing else. -/
theorem Slots.work (h : Slots s) {pc : WorkerPc M} {scheduled batch : Nat}
    (hread : pc.Reading → s.value s.front = s.front + 1) :
    Slots { s with worker := pc, scheduled, batch } :=
  { h with reading := hread }

/-! ## Steps on the memory -/

omit [DecidableEq T] in
/-- What the worker reads after a change of the memory that touches no slot. -/
theorem value_setMemory {m : Memory M} (hmask : m.mailbox.indexMask = s.mailbox.indexMask)
    (hm : m.sequence p = s.mem.memory.sequence p) : (s.setMemory m).value p = s.value p :=
  sequence_foldl_congr hmask hm

omit [DecidableEq T] in
theorem Slots.swap (h : Slots s) {flag : Bool} :
    Slots (s.setMemory { s.mem.memory with isScheduled := flag }) := by
  have hvalue (p : Nat) :
      (s.setMemory { s.mem.memory with isScheduled := flag }).value p = s.value p :=
    value_setMemory rfl rfl
  refine { h with
    claimed := fun p hp hp' => hvalue p ▸ h.claimed p hp hp'
    free := fun p hp hp' => hvalue p ▸ h.free p hp hp'
    rising := h.rising.congr rfl fun _ _ => rfl
    holds := fun t p hp => hvalue p ▸ h.holds t p hp
    comparing := fun t p item ht => ⟨(h.comparing t p item ht).1, ?_⟩
    reading := fun hread => (hvalue _).trans (h.reading hread) }
  cases t with
  | none => exact le_of_le_of_eq (h.comparing none p item ht).2 (hvalue p).symm
  | some t => exact (h.comparing (some t) p item ht).2

omit [DecidableEq T] in
/-- A successful compare-exchange: the position is free, and its slot has no store in flight. -/
theorem Slots.claimable (h : Slots s) {item : M}
    (hpc : s.callers t = .compareExchange s.back item) :
    s.back < s.front + s.mailbox.capacity ∧ s.value s.back = s.back ∧
      (t ≠ none → ∀ x ∈ s.mem.buffers none, ¬x.Touches s.mailbox s.back) := by
  have hahead := (h.comparing t s.back item hpc).2
  have htwo := h.shape.two_le
  have hle : s.back ≤ s.value s.back := by
    cases t with
    | none => exact hahead
    | some t => exact hahead.trans h.rising.le
  have hroom : s.back < s.front + s.mailbox.capacity := by
    by_contra hfull
    -- the slot is that of the front, where the sequence is a lap behind
    have hback : s.back = s.front + s.mailbox.capacity := le_antisymm h.bound (not_lt.mp hfull)
    have hslot : s.value s.back = s.value s.front := by
      refine value_slot ?_
      rw [hback, h.shape.slotIndex_add]
    rcases h.claimed s.front le_rfl (by omega) with hfront | ⟨hfront, -⟩
    · omega
    · omega
  have hvalue := h.free s.back le_rfl hroom
  refine ⟨hroom, hvalue, fun hnone x hx htouch => ?_⟩
  have hlt : s.mem.memory.sequence s.back < s.value s.back := h.rising.lt hx htouch
  cases t with
  | none => exact hnone rfl
  | some t => exact (hvalue ▸ hlt).not_ge hahead

/-- What a thread holds after it has moved on. -/
theorem held_setCaller (u : Option T) (hut : u ≠ t) : (s.setCaller t pc).held u = s.held u := by
  cases u with
  | none => exact congrArg CallerPc.held (s.callers_setCaller_of_ne hut pc)
  | some u => exact congrArg (_ ++ CallerPc.held ·) (s.callers_setCaller_of_ne hut pc)

theorem held_setCaller_self : (s.setCaller t pc).held t = match t with
    | none => pc.held
    | some t => (s.mem.buffers (some t)).filterMap Store.position? ++ pc.held := by
  cases t with
  | none => exact congrArg CallerPc.held (s.callers_setCaller_self none pc)
  | some t => exact congrArg (_ ++ CallerPc.held ·) (s.callers_setCaller_self (some t) pc)

omit [DecidableEq T] in
theorem held_setMemory {m : Memory M} (u : Option T) : (s.setMemory m).held u = s.held u := by
  cases u <;> rfl

/-- A thread with no store in flight holds what it is about to write. -/
theorem held_of_drained (hdrained : s.drained t = true) : (s.setCaller t pc).held t = pc.held := by
  have hbuffer : s.mem.buffers t = [] := List.isEmpty_iff.mp hdrained
  rw [held_setCaller_self]
  cases t with
  | none => rfl
  | some t =>
    dsimp only
    rw [hbuffer]
    rfl

theorem Slots.claim (h : Slots s) {item : M} (hpc : s.callers t = .compareExchange s.back item)
    (hdrained : s.drained t = true) :
    Slots ((s.setMemory { s.mem.memory with
      mailbox := { s.mailbox with producerIndex := s.back + 1 } }).setCaller t
        (.write s.back item)) := by
  obtain ⟨hroom, hback, hquiet⟩ := h.claimable hpc
  have hle := h.le
  have hnothing : s.held t = [] := by
    have hsame : s.setCaller t (.compareExchange s.back item) = s := by
      rw [State.setCaller, ← hpc, Function.update_eq_self]
    have hnone : (s.setCaller t (.compareExchange s.back item)).held t =
        (CallerPc.compareExchange s.back item).held := held_of_drained hdrained
    rwa [hsame] at hnone
  let s' := (s.setMemory { s.mem.memory with
    mailbox := { s.mailbox with producerIndex := s.back + 1 } }).setCaller t (.write s.back item)
  show Slots s'
  have hvalue (p : Nat) : s'.value p = s.value p :=
    value_setMemory (m := { s.mem.memory with
      mailbox := { s.mailbox with producerIndex := s.back + 1 } }) rfl rfl
  have hheld (u : Option T) (p : Nat) : p ∈ s'.held u ↔ u = t ∧ p = s.back ∨ p ∈ s.held u := by
    by_cases hut : u = t
    · subst hut
      rw [held_of_drained (by exact hdrained), hnothing]
      simp [CallerPc.held]
    · rw [held_setCaller u hut, held_setMemory]
      simp [hut]
  have hcaller (u : Option T) {pc : CallerPc M} (hu : s'.callers u = pc) :
      u = t ∧ pc = .write s.back item ∨ s.callers u = pc := by
    by_cases hut : u = t
    · subst hut
      exact .inl ⟨rfl, hu.symm.trans (State.callers_setCaller_self ..)⟩
    · exact .inr ((State.callers_setCaller_of_ne _ hut _).symm.trans hu)
  refine
    { shape := h.shape
      le := hle.trans (Nat.le_succ _)
      bound := hroom
      claimed := fun p hp hp' => ?_
      free := fun p hp hp' => (hvalue p).trans (h.free p (Nat.le_of_succ_le hp) hp')
      rising := h.rising.congr rfl fun _ _ => rfl
      holds := fun u p hp => ?_
      apart := fun u p hp => ?_
      unique := fun u u' p hp hp' => ?_
      single := fun u => ?_
      flying := h.flying
      noClear := h.noClear
      loading := fun u p item' hu => ?_
      comparing := fun u p item' hu => ?_
      reading := fun hread => (hvalue _).trans (h.reading hread) }
  · rw [hvalue]
    rcases Nat.lt_succ_iff_lt_or_eq.mp hp' with hp' | rfl
    · exact (h.claimed p hp hp').imp_right fun ⟨hp, u, hu⟩ => ⟨hp, u, (hheld u p).mpr (.inr hu)⟩
    · exact .inr ⟨hback, t, (hheld t _).mpr (.inl ⟨rfl, rfl⟩)⟩
  · rw [hvalue]
    rcases (hheld u p).mp hp with ⟨rfl, rfl⟩ | hp
    · exact ⟨hle, Nat.lt_succ_self _, hback⟩
    · obtain ⟨hfront, hlt, hp⟩ := h.holds u p hp
      exact ⟨hfront, hlt.trans (Nat.lt_succ_self _), hp⟩
  · rcases (hheld (some u) p).mp hp with ⟨rfl, rfl⟩ | hp
    · exact hquiet (by simp)
    · exact h.apart u p hp
  · rcases (hheld u p).mp hp with ⟨rfl, rfl⟩ | hp
    · rcases (hheld u' _).mp hp' with ⟨rfl, -⟩ | hp'
      · rfl
      · exact absurd (h.holds u' _ hp').2.1 (lt_irrefl _)
    · rcases (hheld u' _).mp hp' with ⟨-, rfl⟩ | hp'
      · exact absurd (h.holds u _ hp).2.1 (lt_irrefl _)
      · exact h.unique u u' p hp hp'
  · by_cases hut : u = t
    · subst hut
      exact (congrArg List.length (held_of_drained (by exact hdrained))).trans_le le_rfl
    · rw [held_setCaller u hut, held_setMemory]
      exact h.single u
  · rcases hcaller u hu with ⟨-, hu⟩ | hu
    · cases hu
    · exact (h.loading u p item' hu).trans (Nat.le_succ _)
  · rcases hcaller u hu with ⟨-, hu⟩ | hu
    · cases hu
    · obtain ⟨hp, hahead⟩ := h.comparing u p item' hu
      refine ⟨hp.trans (Nat.le_succ _), ?_⟩
      cases u with
      | none => exact le_of_le_of_eq hahead (hvalue p).symm
      | some u => exact hahead

/-! ## Steps that store -/

theorem mem_buffers_store {x y : Store M} {u : Option T} :
    y ∈ (s.store t x).mem.buffers u ↔ y ∈ s.mem.buffers u ∨ u = t ∧ y = x := by
  by_cases hut : u = t
  · subst hut
    rw [State.store, StoreBuffer.buffers_store_self, List.mem_append, List.mem_singleton]
    simp
  · rw [State.store, StoreBuffer.buffers_store_of_ne hut]
    simp [hut]

/-- A store that the worker does not see yet, or that is to another slot. -/
theorem value_store {x : Store M} (h : t = none → ¬x.Touches s.mailbox p) :
    (s.store t x).value p = s.value p := by
  cases t with
  | none =>
    refine (congrArg (Memory.sequence · p) StoreBuffer.view_store_self).trans ?_
    exact Memory.sequence_apply_of_not fun htouch =>
      h rfl ((Store.touches_congr (indexMask_seen none)).mp htouch)
  | some t => exact congrArg (Memory.sequence · p) (StoreBuffer.view_store_of_ne (by simp))

/-- A store of something else than a sequence. -/
theorem Slots.quietStore (h : Slots s) {x : Store M} (hx : x.position? = none)
    (hclear : x = .clearScheduled → t = none) : Slots (s.store t x) := by
  have htouch (p : Nat) : ¬x.Touches s.mailbox p := by
    cases x with
    | sequence r value => cases hx
    | data | clearScheduled => exact id
  have hvalue (p : Nat) : (s.store t x).value p = s.value p := value_store fun _ => htouch p
  have hheld (u : Option T) : (s.store t x).held u = s.held u := by
    cases u with
    | none => rfl
    | some u =>
      refine congrArg (· ++ (s.callers (some u)).held) ?_
      by_cases hut : some u = t
      · subst hut
        rw [State.store, StoreBuffer.buffers_store_self, List.filterMap_append]
        simp [hx]
      · rw [State.store, StoreBuffer.buffers_store_of_ne hut]
  refine
    { shape := h.shape
      le := h.le
      bound := h.bound
      claimed := fun p hp hp' => ?_
      free := fun p hp hp' => (hvalue p).trans (h.free p hp hp')
      rising := ?_
      holds := fun u p hp => hvalue p ▸ h.holds u p (hheld u ▸ hp)
      apart := fun u p hp y hy => ?_
      unique := fun u u' p hp hp' => h.unique u u' p (hheld u ▸ hp) (hheld u' ▸ hp')
      single := fun u => hheld u ▸ h.single u
      flying := fun u p value hy => ?_
      noClear := fun u hy => ?_
      loading := h.loading
      comparing := fun u p item hu => ⟨(h.comparing u p item hu).1, ?_⟩
      reading := fun hread => (hvalue _).trans (h.reading hread) }
  · rw [hvalue]
    exact (h.claimed p hp hp').imp_right fun ⟨hp, u, hu⟩ => ⟨hp, u, hheld u ▸ hu⟩
  · by_cases hnone : none = t
    · subst hnone
      rw [State.store, StoreBuffer.buffers_store_self]
      refine h.rising.append ?_
      cases x with
      | sequence r value => cases hx
      | data | clearScheduled => trivial
    · rw [State.store, StoreBuffer.buffers_store_of_ne hnone]
      exact h.rising
  · rcases mem_buffers_store.mp hy with hy | ⟨-, rfl⟩
    · exact h.apart u p (hheld (some u) ▸ hp) y hy
    · exact htouch p
  · rcases mem_buffers_store.mp hy with hy | ⟨-, rfl⟩
    · exact h.flying u p value hy
    · cases hx
  · rcases mem_buffers_store.mp hy with hy | ⟨hut, hy⟩
    · exact h.noClear u hy
    · rw [hclear hy.symm] at hut
      cases hut
  · cases u with
    | none => exact le_of_le_of_eq (h.comparing none p item hu).2 (hvalue p).symm
    | some u => exact (h.comparing (some u) p item hu).2

theorem Slots.publishSome (h : Slots s) {t : T} (hpc : s.callers (some t) = .publish p) :
    Slots ((s.store (some t) (.sequence p (p + 1))).setCaller (some t) (.loadScheduled p)) := by
  let s' := (s.store (some t) (.sequence p (p + 1))).setCaller (some t) (.loadScheduled p)
  show Slots s'
  have hvalue (r : Nat) : s'.value r = s.value r := value_store (by simp)
  have hheld (u : Option T) : s'.held u = s.held u := by
    by_cases hut : u = some t
    · subst hut
      rw [held_setCaller_self, State.held, hpc]
      dsimp only
      rw [State.store, StoreBuffer.buffers_store_self, List.filterMap_append]
      simp [Store.position?, CallerPc.held]
    · rw [held_setCaller u hut]
      cases u with
      | none => rfl
      | some u =>
        have hbuffer : (s.store (some t) (.sequence p (p + 1))).mem.buffers (some u) =
            s.mem.buffers (some u) := StoreBuffer.buffers_store_of_ne hut
        rw [State.held, State.held, hbuffer]
        rfl
  have hnone : s'.mem.buffers none = s.mem.buffers none :=
    StoreBuffer.buffers_store_of_ne (by simp)
  have hcaller (u : Option T) {pc : CallerPc M} (hu : s'.callers u = pc) :
      pc = .loadScheduled p ∨ s.callers u = pc := by
    by_cases hut : u = some t
    · subst hut
      exact .inl (hu.symm.trans (State.callers_setCaller_self ..))
    · exact .inr ((State.callers_setCaller_of_ne _ hut _).symm.trans hu)
  refine
    { shape := h.shape
      le := h.le
      bound := h.bound
      claimed := fun r hr hr' => ?_
      free := fun r hr hr' => (hvalue r).trans (h.free r hr hr')
      rising := hnone ▸ h.rising
      holds := fun u r hr => hvalue r ▸ h.holds u r (hheld u ▸ hr)
      apart := fun u r hr => hnone ▸ h.apart u r (hheld (some u) ▸ hr)
      unique := fun u u' r hr hr' => h.unique u u' r (hheld u ▸ hr) (hheld u' ▸ hr')
      single := fun u => hheld u ▸ h.single u
      flying := fun u r value hy => ?_
      noClear := fun u hy => ?_
      loading := fun u r item hu => ?_
      comparing := fun u r item hu => ?_
      reading := fun hread => (hvalue _).trans (h.reading hread) }
  · rw [hvalue]
    exact (h.claimed r hr hr').imp_right fun ⟨hr, u, hu⟩ => ⟨hr, u, hheld u ▸ hu⟩
  · rcases mem_buffers_store.mp hy with hy | ⟨-, hy⟩
    · exact h.flying u r value hy
    · cases hy
      rfl
  · rcases mem_buffers_store.mp hy with hy | ⟨-, hy⟩
    · exact h.noClear u hy
    · cases hy
  · rcases hcaller u hu with hu | hu
    · cases hu
    · exact h.loading u r item hu
  · rcases hcaller u hu with hu | hu
    · cases hu
    · obtain ⟨hr, hahead⟩ := h.comparing u r item hu
      refine ⟨hr, ?_⟩
      cases u with
      | none => exact le_of_le_of_eq hahead (hvalue r).symm
      | some u => exact hahead

theorem value_store_self {value : Nat} (h : s.mailbox.slotIndex r = s.mailbox.slotIndex p) :
    (s.store none (.sequence p value)).value r = value := by
  refine (congrArg (Memory.sequence · r) StoreBuffer.view_store_self).trans ?_
  refine Memory.sequence_apply_self ?_
  exact (slotIndex_congr (indexMask_seen none)).trans
    (h.trans (slotIndex_congr (indexMask_seen none)).symm)

theorem value_store_of_ne {value : Nat} (h : s.mailbox.slotIndex p ≠ s.mailbox.slotIndex r) :
    (s.store none (.sequence p value)).value r = s.value r :=
  value_store fun _ => h

theorem rising_store (h : Slots s) {value : Nat} (hlt : s.value p < value) :
    Rising s.mem.memory ((s.store none (.sequence p value)).mem.buffers none) := by
  rw [State.store, StoreBuffer.buffers_store_self]
  exact h.rising.append hlt

theorem Slots.publishNone (h : Slots s) (hpc : s.callers none = .publish p) :
    Slots ((s.store none (.sequence p (p + 1))).setCaller none (.loadScheduled p)) := by
  let s' := (s.store none (.sequence p (p + 1))).setCaller none (.loadScheduled p)
  show Slots s'
  have hnone : s.held none = [p] := by
    rw [State.held, hpc]
    rfl
  have hp : p ∈ s.held none := by simp [hnone]
  obtain ⟨hfront, hback, hvalue⟩ := h.holds none p hp
  have hbound := h.bound
  have htwo := h.shape.two_le
  have hne {r : Nat} (hr : s.front ≤ r) (hr' : r < s.front + s.mailbox.capacity) (hrp : r ≠ p) :
      s.mailbox.slotIndex p ≠ s.mailbox.slotIndex r :=
    h.slotIndex_ne hfront (by omega) hr hr' hrp.symm
  have hsame {r : Nat} (hr : s.front ≤ r) (hr' : r < s.front + s.mailbox.capacity) (hrp : r ≠ p) :
      s'.value r = s.value r := value_store_of_ne (hne hr hr' hrp)
  have hheldNone : s'.held none = [] := rfl
  have hheld (u : T) : s'.held (some u) = s.held (some u) := by
    have hbuffer : (s.store none (.sequence p (p + 1))).mem.buffers (some u) =
        s.mem.buffers (some u) := StoreBuffer.buffers_store_of_ne (by simp)
    rw [held_setCaller (some u) (by simp), State.held, State.held, hbuffer]
    rfl
  have hholds (u : Option T) (r : Nat) (hr : r ∈ s'.held u) : r ∈ s.held u ∧ r ≠ p := by
    cases u with
    | none => cases hheldNone ▸ hr
    | some u =>
      rw [hheld] at hr
      refine ⟨hr, ?_⟩
      rintro rfl
      cases h.unique _ _ r hr hp
  have hcaller (u : Option T) {pc : CallerPc M} (hu : s'.callers u = pc) :
      pc = .loadScheduled p ∨ s.callers u = pc ∧ u ≠ none := by
    by_cases hut : u = none
    · subst hut
      exact .inl (hu.symm.trans (State.callers_setCaller_self ..))
    · exact .inr ⟨(State.callers_setCaller_of_ne _ hut _).symm.trans hu, hut⟩
  refine
    { shape := h.shape
      le := h.le
      bound := h.bound
      claimed := fun r hr hr' => ?_
      free := fun r hr hr' => ?_
      rising := rising_store h (hvalue.trans_lt (Nat.lt_succ_self p))
      holds := fun u r hr => ?_
      apart := fun u r hr y hy => ?_
      unique := fun u u' r hr hr' => h.unique u u' r (hholds u r hr).1 (hholds u' r hr').1
      single := fun u => ?_
      flying := fun u r value hy => ?_
      noClear := fun u hy => ?_
      loading := fun u r item hu => ?_
      comparing := fun u r item hu => ?_
      reading := fun hread => ?_ }
  · replace hr' : r < s.back := hr'
    by_cases hrp : r = p
    · subst hrp
      exact .inl (value_store_self rfl)
    · rw [hsame hr (by omega) hrp]
      refine (h.claimed r hr hr').imp_right fun ⟨hr, u, hu⟩ => ⟨hr, u, ?_⟩
      cases u with
      | none => exact absurd (by simpa [hnone] using hu) hrp
      | some u => exact hheld u ▸ hu
  · replace hr : s.back ≤ r := hr
    exact (hsame (h.le.trans hr) hr' (by omega)).trans (h.free r hr hr')
  · obtain ⟨hr, hrp⟩ := hholds u r hr
    obtain ⟨hr, hr', hvalue⟩ := h.holds u r hr
    exact ⟨hr, hr', (hsame hr (by omega) hrp).trans hvalue⟩
  · obtain ⟨hr, hrp⟩ := hholds (some u) r hr
    obtain ⟨hr', hlt, -⟩ := h.holds _ r hr
    rcases mem_buffers_store.mp hy with hy | ⟨-, rfl⟩
    · exact h.apart u r hr y hy
    · exact hne hr' (by omega) hrp
  · cases u with
    | none => exact hheldNone ▸ Nat.zero_le 1
    | some u => exact hheld u ▸ h.single (some u)
  · rcases mem_buffers_store.mp hy with hy | ⟨hu, -⟩
    · exact h.flying u r value hy
    · cases hu
  · rcases mem_buffers_store.mp hy with hy | ⟨hu, -⟩
    · exact h.noClear u hy
    · cases hu
  · rcases hcaller u hu with hu | ⟨hu, -⟩
    · cases hu
    · exact h.loading u r item hu
  · rcases hcaller u hu with hu | ⟨hu, hut⟩
    · cases hu
    · obtain ⟨hr, hahead⟩ := h.comparing u r item hu
      cases u with
      | none => exact absurd rfl hut
      | some u => exact ⟨hr, hahead⟩
  · have hread := h.reading hread
    refine (hsame le_rfl (by omega) ?_).trans hread
    intro heq
    rw [heq, hvalue] at hread
    omega

/-- The worker gives the front of the mailbox back. -/
theorem Slots.release (h : Slots s) {item : M} (hpc : s.worker = .release item)
    {pc : WorkerPc M} (hread : ¬pc.Reading) :
    Slots { (s.store none (.sequence s.front (s.front + s.mailbox.capacity))).setMemory
        { s.mem.memory with mailbox := { s.mailbox with consumerIndex := s.front + 1 } } with
      worker := pc } := by
  let s' : State T M :=
    { (s.store none (.sequence s.front (s.front + s.mailbox.capacity))).setMemory
      { s.mem.memory with mailbox := { s.mailbox with consumerIndex := s.front + 1 } } with
    worker := pc }
  show Slots s'
  have hfront := h.reading (by rw [hpc]; trivial)
  have hle := h.le
  have hbound := h.bound
  have htwo := h.shape.two_le
  have hlt : s.front < s.back := by
    by_contra hempty
    have := h.free s.front (by omega) (by omega)
    omega
  have hvalue (r : Nat) : s'.value r =
      (s.store none (.sequence s.front (s.front + s.mailbox.capacity))).value r :=
    value_setMemory (m := { s.mem.memory with
      mailbox := { s.mailbox with consumerIndex := s.front + 1 } }) rfl rfl
  have hsame {r : Nat} (hr : s.front < r) (hr' : r < s.front + s.mailbox.capacity) :
      s'.value r = s.value r :=
    (hvalue r).trans (value_store_of_ne (h.slotIndex_ne le_rfl (by omega) hr.le hr' hr.ne))
  have hself {r : Nat} (hr : s.mailbox.slotIndex r = s.mailbox.slotIndex s.front) :
      s'.value r = s.front + s.mailbox.capacity := (hvalue r).trans (value_store_self hr)
  have hheld (u : Option T) : s'.held u = s.held u := by
    cases u with
    | none => rfl
    | some u =>
      have hbuffer : (s.store none (.sequence s.front (s.front + s.mailbox.capacity))).mem.buffers
          (some u) = s.mem.buffers (some u) := StoreBuffer.buffers_store_of_ne (by simp)
      exact congrArg (fun b : List (Store M) =>
        b.filterMap Store.position? ++ (s.callers (some u)).held) hbuffer
  have hbuffers {u : Option T} {y : Store M} (hy : y ∈ s'.mem.buffers u) :
      y ∈ s.mem.buffers u ∨ u = none ∧ y = .sequence s.front (s.front + s.mailbox.capacity) :=
    (mem_buffers_store (s := s) (t := none)).mp hy
  have hholds (u : Option T) (r : Nat) (hr : r ∈ s.held u) :
      s.front < r ∧ r < s.back ∧ s.value r = r := by
    obtain ⟨hr, hr', hvalue⟩ := h.holds u r hr
    refine ⟨lt_of_le_of_ne hr ?_, hr', hvalue⟩
    intro heq
    rw [heq, hvalue] at hfront
    omega
  refine
    { shape := h.shape
      le := hlt
      bound := hbound.trans (Nat.add_le_add_right (Nat.le_succ _) _)
      claimed := fun r hr hr' => ?_
      free := fun r hr hr' => ?_
      rising := ?_
      holds := fun u r hr => ?_
      apart := fun u r hr y hy => ?_
      unique := fun u u' r hr hr' => h.unique u u' r (hheld u ▸ hr) (hheld u' ▸ hr')
      single := fun u => hheld u ▸ h.single u
      flying := fun u r value hy => ?_
      noClear := fun u hy => ?_
      loading := h.loading
      comparing := fun u r item hu => ⟨(h.comparing u r item hu).1, ?_⟩
      reading := fun hread' => absurd hread' hread }
  · replace hr : s.front + 1 ≤ r := hr
    replace hr' : r < s.back := hr'
    rw [hsame (by omega) (by omega)]
    exact (h.claimed r (by omega) hr').imp_right fun ⟨hr, u, hu⟩ => ⟨hr, u, hheld u ▸ hu⟩
  · replace hr : s.back ≤ r := hr
    replace hr' : r < s.front + 1 + s.mailbox.capacity := hr'
    by_cases hlap : r = s.front + s.mailbox.capacity
    · rw [hself (by rw [hlap, h.shape.slotIndex_add]), hlap]
    · rw [hsame (by omega) (by omega)]
      exact h.free r hr (by omega)
  · refine (rising_store h ?_).congr rfl fun _ _ => rfl
    omega
  · obtain ⟨hr, hr', hvalue⟩ := hholds u r (hheld u ▸ hr)
    exact ⟨hr, hr', (hsame hr (by omega)).trans hvalue⟩
  · rw [hheld] at hr
    obtain ⟨hr', hlt, -⟩ := hholds _ r hr
    rcases hbuffers hy with hy | ⟨-, rfl⟩
    · exact h.apart u r hr y hy
    · exact h.slotIndex_ne le_rfl (by omega) hr'.le (by omega) hr'.ne
  · rcases hbuffers hy with hy | ⟨hu, -⟩
    · exact h.flying u r value hy
    · cases hu
  · rcases hbuffers hy with hy | ⟨hu, -⟩
    · exact h.noClear u hy
    · cases hu
  · have hahead := (h.comparing u r item hu).2
    cases u with
    | some u => exact hahead
    | none =>
      replace hahead : r ≤ s.value r := hahead
      show r ≤ s'.value r
      by_cases hslot : s.mailbox.slotIndex r = s.mailbox.slotIndex s.front
      · rw [hself hslot]
        rw [value_slot hslot, hfront] at hahead
        omega
      · rw [hvalue, value_store_of_ne fun heq => hslot heq.symm]
        exact hahead

/-! ## Stores that reach the memory -/

omit [DecidableEq T] in
/-- A store that reaches the memory moves neither end of the mailbox. -/
theorem apply_same (m : Memory M) (x : Store M) :
    (m.apply x).mailbox.consumerIndex = m.mailbox.consumerIndex ∧
      (m.apply x).mailbox.producerIndex = m.mailbox.producerIndex ∧
      (m.apply x).mailbox.capacity = m.mailbox.capacity := by
  cases x <;> exact ⟨rfl, rfl, rfl⟩

theorem mem_of_flushed {buffers : Option T → List (Store M)} {x y : Store M}
    {rest : List (Store M)} {u : Option T} (h : buffers t = x :: rest)
    (hy : y ∈ Function.update buffers t rest u) : y ∈ buffers u := by
  by_cases hut : u = t
  · subst hut
    rw [Function.update_self] at hy
    exact h ▸ List.mem_cons_of_mem _ hy
  · rwa [Function.update_of_ne hut] at hy

/-- A store that reaches the memory and changes neither what the worker sees nor what the threads
hold. -/
theorem Slots.flushSame (h : Slots s) {x : Store M} {rest : List (Store M)}
    (hbuffer : s.mem.buffers t = x :: rest)
    (hs : s' = { s with mem := ⟨s.mem.memory.apply x, Function.update s.mem.buffers t rest⟩ })
    (hvalue : ∀ p, s'.value p = s.value p) (hheld : ∀ u, s'.held u = s.held u)
    (hsequence : ∀ p, s.mem.memory.sequence p ≤ s'.mem.memory.sequence p)
    (hrising : Rising s'.mem.memory (s'.mem.buffers none)) : Slots s' := by
  subst hs
  set s' : State T M :=
    { s with mem := ⟨s.mem.memory.apply x, Function.update s.mem.buffers t rest⟩ }
  obtain ⟨hfront, hback, hcapacity⟩ : s'.front = s.front ∧ s'.back = s.back ∧
    s'.mailbox.capacity = s.mailbox.capacity := apply_same s.mem.memory x
  have hmask : s'.mailbox.indexMask = s.mailbox.indexMask := Memory.indexMask_apply
  have hsub {u : Option T} {y : Store M} (hy : y ∈ s'.mem.buffers u) : y ∈ s.mem.buffers u :=
    mem_of_flushed hbuffer hy
  refine
    { shape := ⟨by rw [hmask, hcapacity]; exact h.shape.1, by rw [hcapacity]; exact h.shape.2⟩
      le := by rw [hfront, hback]; exact h.le
      bound := by rw [hfront, hback, hcapacity]; exact h.bound
      claimed := fun p hp hp' => ?_
      free := fun p hp hp' => ?_
      rising := hrising
      holds := fun u p hp => ?_
      apart := fun u p hp y hy => ?_
      unique := fun u u' p hp hp' => h.unique u u' p (hheld u ▸ hp) (hheld u' ▸ hp')
      single := fun u => hheld u ▸ h.single u
      flying := fun u p value hy => h.flying u p value (hsub hy)
      noClear := fun u hy => h.noClear u (hsub hy)
      loading := fun u p item hu => hback ▸ h.loading u p item hu
      comparing := fun u p item hu => ?_
      reading := fun hread => ?_ }
  · rw [hvalue]
    refine (h.claimed p (hfront ▸ hp) (hback ▸ hp')).imp_right fun hclaim => ?_
    obtain ⟨hp, u, hu⟩ := hclaim
    exact ⟨hp, u, hheld u ▸ hu⟩
  · rw [hfront, hcapacity] at hp'
    exact (hvalue p).trans (h.free p (hback ▸ hp) hp')
  · rw [hvalue, hfront, hback]
    exact h.holds u p (hheld u ▸ hp)
  · rw [Store.touches_congr hmask]
    exact h.apart u p (hheld (some u) ▸ hp) y (hsub hy)
  · obtain ⟨hp, hahead⟩ := h.comparing u p item hu
    refine ⟨hback ▸ hp, ?_⟩
    cases u with
    | none => exact le_of_le_of_eq hahead (hvalue p).symm
    | some u => exact hahead.trans (hsequence p)
  · rw [hfront, hvalue]
    exact h.reading hread

/-- A store of the worker, which sees it already. -/
theorem Slots.flushNone (h : Slots s) {x : Store M} {rest : List (Store M)}
    (hbuffer : s.mem.buffers none = x :: rest) :
    Slots { s with
      mem := ⟨s.mem.memory.apply x, Function.update s.mem.buffers none rest⟩ } := by
  let s' : State T M := { s with
    mem := ⟨s.mem.memory.apply x, Function.update s.mem.buffers none rest⟩ }
  show Slots s'
  have hnone : s'.mem.buffers none = rest := Function.update_self none rest s.mem.buffers
  have hvalue (p : Nat) : s'.value p = s.value p := by
    refine congrArg (Memory.sequence · p) ?_
    rw [State.seen, State.seen, StoreBuffer.view, StoreBuffer.view, hnone, hbuffer]
    rfl
  have hheld (u : Option T) : s'.held u = s.held u := by
    cases u with
    | none => rfl
    | some u =>
      have hother : s'.mem.buffers (some u) = s.mem.buffers (some u) :=
        Function.update_of_ne (Option.some_ne_none u) rest s.mem.buffers
      rw [State.held, State.held, hother]
  have hrising := h.rising
  rw [hbuffer] at hrising
  refine h.flushSame hbuffer rfl hvalue hheld (fun p => Memory.le_apply hrising.1) ?_
  rw [hnone]
  exact hrising.2

/-- A store of a poster that is to no sequence. -/
theorem Slots.flushQuiet (h : Slots s) {t : T} {x : Store M} {rest : List (Store M)}
    (hbuffer : s.mem.buffers (some t) = x :: rest) (hx : x.position? = none) :
    Slots { s with
      mem := ⟨s.mem.memory.apply x, Function.update s.mem.buffers (some t) rest⟩ } := by
  let s' : State T M := { s with
    mem := ⟨s.mem.memory.apply x, Function.update s.mem.buffers (some t) rest⟩ }
  show Slots s'
  have hsequence (p : Nat) : s'.mem.memory.sequence p = s.mem.memory.sequence p := by
    refine Memory.sequence_apply_of_not ?_
    cases x with
    | sequence r value => cases hx
    | data | clearScheduled => exact id
  have hmask : s'.mailbox.indexMask = s.mailbox.indexMask := Memory.indexMask_apply
  have hnone : s'.mem.buffers none = s.mem.buffers none :=
    Function.update_of_ne (Option.some_ne_none t).symm rest s.mem.buffers
  have hvalue (p : Nat) : s'.value p = s.value p := by
    refine Eq.trans ?_ (sequence_foldl_congr hmask (hsequence p))
    rw [State.value, State.seen, StoreBuffer.view, hnone]
  have hheld (u : Option T) : s'.held u = s.held u := by
    cases u with
    | none => rfl
    | some u =>
      refine congrArg (· ++ (s.callers (some u)).held) ?_
      by_cases hut : some u = some t
      · have hself : s'.mem.buffers (some t) = rest :=
          Function.update_self (some t) rest s.mem.buffers
        rw [hut, hself, hbuffer, List.filterMap_cons_none hx]
      · have hother : s'.mem.buffers (some u) = s.mem.buffers (some u) :=
          Function.update_of_ne hut rest s.mem.buffers
        rw [hother]
  refine h.flushSame hbuffer rfl hvalue hheld (fun p => (hsequence p).ge) ?_
  rw [hnone]
  exact h.rising.congr hmask fun p _ => hsequence p

/-- A poster's store to the sequence of its position, which the worker now sees. -/
theorem Slots.flushPublished (h : Slots s) {t : T} {rest : List (Store M)}
    (hbuffer : s.mem.buffers (some t) = .sequence p (p + 1) :: rest) :
    Slots { s with
      mem := ⟨s.mem.memory.apply (.sequence p (p + 1)),
        Function.update s.mem.buffers (some t) rest⟩ } := by
  let s' : State T M := { s with
    mem := ⟨s.mem.memory.apply (.sequence p (p + 1)),
      Function.update s.mem.buffers (some t) rest⟩ }
  show Slots s'
  have hheldT : s.held (some t) =
      p :: (rest.filterMap Store.position? ++ (s.callers (some t)).held) := by
    rw [State.held, hbuffer]
    rfl
  have hrest : rest.filterMap Store.position? ++ (s.callers (some t)).held = [] := by
    have hsingle := h.single (some t)
    rw [hheldT, List.length_cons] at hsingle
    exact List.eq_nil_of_length_eq_zero (by omega)
  have hp : p ∈ s.held (some t) := by simp [hheldT]
  obtain ⟨hpfront, hpback, hpvalue⟩ := h.holds _ p hp
  have hapart := h.apart t p hp
  have hbound := h.bound
  have htwo := h.shape.two_le
  have hne {r : Nat} (hr : s.front ≤ r) (hr' : r < s.front + s.mailbox.capacity) (hrp : r ≠ p) :
      s.mailbox.slotIndex p ≠ s.mailbox.slotIndex r :=
    h.slotIndex_ne hpfront (by omega) hr hr' hrp.symm
  have hnone : s'.mem.buffers none = s.mem.buffers none :=
    Function.update_of_ne (Option.some_ne_none t).symm rest s.mem.buffers
  have hself : s'.mem.buffers (some t) = rest := Function.update_self (some t) rest s.mem.buffers
  have hsub {u : T} {y : Store M} (hy : y ∈ s'.mem.buffers (some u)) :
      y ∈ s.mem.buffers (some u) := mem_of_flushed hbuffer hy
  have hfold (r : Nat) : s'.value r =
      ((s.mem.buffers none).foldl Memory.apply s'.mem.memory).sequence r := by
    rw [State.value, State.seen, StoreBuffer.view, hnone]
  have hvalueSelf {r : Nat} (hr : s.mailbox.slotIndex r = s.mailbox.slotIndex p) :
      s'.value r = p + 1 := by
    rw [hfold, sequence_foldl_of_not fun y hy => ?_]
    · exact Memory.sequence_apply_self hr
    · exact fun htouch => hapart y hy ((Store.touches_slot hr).mp htouch)
  have hvalueNe {r : Nat} (hr : s.mailbox.slotIndex p ≠ s.mailbox.slotIndex r) :
      s'.value r = s.value r :=
    (hfold r).trans (sequence_foldl_congr rfl (Memory.sequence_apply_of_not hr))
  have hsame {r : Nat} (hr : s.front ≤ r) (hr' : r < s.front + s.mailbox.capacity) (hrp : r ≠ p) :
      s'.value r = s.value r := hvalueNe (hne hr hr' hrp)
  -- the poster holds nothing any more
  have hheldNil : s'.held (some t) = [] := by
    rw [State.held, hself]
    exact hrest
  have hheldNe {u : Option T} (hut : u ≠ some t) : s'.held u = s.held u := by
    cases u with
    | none => rfl
    | some u =>
      have hother : s'.mem.buffers (some u) = s.mem.buffers (some u) :=
        Function.update_of_ne hut rest s.mem.buffers
      rw [State.held, State.held, hother]
  have hheld (u : Option T) (r : Nat) : r ∈ s'.held u ↔ r ∈ s.held u ∧ r ≠ p := by
    by_cases hut : u = some t
    · subst hut
      rw [hheldT, hrest, hheldNil]
      simp
    · rw [hheldNe hut]
      refine ⟨fun hr => ⟨hr, ?_⟩, fun hr => hr.1⟩
      rintro rfl
      exact hut (h.unique u (some t) r hr hp)
  have hwindow {r : Nat} (hr : r < s.back) : r < s.front + s.mailbox.capacity :=
    hr.trans_le hbound
  refine
    { shape := h.shape
      le := h.le
      bound := h.bound
      claimed := fun r hr hr' => ?_
      free := fun r hr hr' => ?_
      rising := ?_
      holds := fun u r hr => ?_
      apart := fun u r hr y hy => h.apart u r ((hheld _ r).mp hr).1 y (hnone ▸ hy)
      unique := fun u u' r hr hr' => h.unique u u' r ((hheld u r).mp hr).1 ((hheld u' r).mp hr').1
      single := fun u => ?_
      flying := fun u r value hy => h.flying u r value (hsub hy)
      noClear := fun u hy => h.noClear u (hsub hy)
      loading := h.loading
      comparing := fun u r item hu => ⟨(h.comparing u r item hu).1, ?_⟩
      reading := fun hread => ?_ }
  · by_cases hrp : r = p
    · exact .inl (by rw [hrp, hvalueSelf rfl])
    · rw [hsame hr (hwindow hr') hrp]
      refine (h.claimed r hr hr').imp_right fun hclaim => ?_
      obtain ⟨hr, u, hu⟩ := hclaim
      exact ⟨hr, u, (hheld u r).mpr ⟨hu, hrp⟩⟩
  · replace hr : s.back ≤ r := hr
    exact (hsame (h.le.trans hr) hr' (by omega)).trans (h.free r hr hr')
  · rw [hnone]
    refine h.rising.congr rfl fun r hr => ?_
    obtain ⟨y, hy, htouch⟩ := hr
    refine Memory.sequence_apply_of_not fun hslot => ?_
    exact hapart y hy ((Store.touches_slot (Eq.symm hslot)).mp htouch)
  · obtain ⟨hr, hrp⟩ := (hheld u r).mp hr
    obtain ⟨hr, hr', hvalue⟩ := h.holds u r hr
    exact ⟨hr, hr', (hsame hr (hwindow hr') hrp).trans hvalue⟩
  · by_cases hut : u = some t
    · rw [hut, hheldNil]
      exact Nat.zero_le 1
    · rw [hheldNe hut]
      exact h.single u
  · have hahead := (h.comparing u r item hu).2
    by_cases hslot : s.mailbox.slotIndex r = s.mailbox.slotIndex p
    · have hle : s.mem.memory.sequence r ≤ s.value r := h.rising.le
      have hr : s.value r = p := (value_slot hslot).trans hpvalue
      cases u with
      | none =>
        replace hahead : r ≤ s.value r := hahead
        show r ≤ s'.value r
        rw [hvalueSelf hslot]
        omega
      | some u =>
        replace hahead : r ≤ s.mem.memory.sequence r := hahead
        show r ≤ s'.mem.memory.sequence r
        rw [show s'.mem.memory.sequence r = p + 1 from Memory.sequence_apply_self hslot]
        omega
    · have hslot : s.mailbox.slotIndex p ≠ s.mailbox.slotIndex r := fun heq => hslot heq.symm
      cases u with
      | none => exact le_of_le_of_eq hahead (hvalueNe hslot).symm
      | some u =>
        have hsame : s'.mem.memory.sequence r = s.mem.memory.sequence r :=
          Memory.sequence_apply_of_not hslot
        exact le_of_le_of_eq hahead hsame.symm
  · have hread := h.reading hread
    refine (hsame le_rfl (by omega) ?_).trans hread
    intro heq
    rw [heq, hpvalue] at hread
    omega

/-- **A store that reaches the memory keeps the slots.** -/
theorem Slots.flush (h : Slots s) {mem : StoreBuffer (Option T) (Memory M) (Store M)}
    (hs : s.mem.flush Memory.apply t = some mem) : Slots { s with mem } := by
  obtain ⟨x, rest, hbuffer, rfl⟩ := StoreBuffer.flush_eq_some hs
  cases t with
  | none => exact h.flushNone hbuffer
  | some t =>
    cases x with
    | data r item => exact h.flushQuiet hbuffer rfl
    | clearScheduled => exact h.flushQuiet hbuffer rfl
    | sequence r value =>
      obtain rfl := h.flying t r value (hbuffer ▸ List.mem_cons_self ..)
      exact h.flushPublished hbuffer

/-! ## Every step -/

omit [DecidableEq T] in
/-- The sequence that a thread reads is in the worker's view, or a store of its own wrote it, which
is a store of the next number. -/
theorem Slots.ahead (h : Slots s) (hseen : (s.seen t).sequence p = p) : s.Ahead p t := by
  cases t with
  | none => exact hseen.ge
  | some t =>
    have hcases : (s.seen (some t)).sequence p = s.mem.memory.sequence p ∨
        ∃ r value, .sequence r value ∈ s.mem.buffers (some t) ∧
          s.mailbox.slotIndex r = s.mailbox.slotIndex p ∧
            (s.seen (some t)).sequence p = value := sequence_foldl_cases
    rcases hcases with hsame | ⟨r, value, hmem, hslot, hvalue⟩
    · exact (hsame.symm.trans hseen).ge
    · have hnext : p = r + 1 := (hseen.symm.trans hvalue).trans (h.flying t r value hmem)
      have htwo := h.shape.two_le
      rw [hnext] at hslot
      have := h.shape.slotIndex_inj (a := r) le_rfl (by omega) (by omega) (by omega) hslot
      omega

theorem Slots.call (h : Slots s) (hs : callerStep s t = some s') : Slots s' := by
  unfold callerStep at hs
  cases hpc : s.callers t <;> simp only [hpc] at hs
  case idle => cases hs
  case loadIndex item =>
    cases hs
    refine h.caller (by rw [hpc]; rfl) (fun p item hp => ?_) (by simp)
    cases hp
    exact le_rfl
  case loadSequence p item =>
    have hle := h.loading t p item hpc
    split at hs
    · cases hs
      refine h.caller (by rw [hpc]; rfl) (by simp) fun p item hp => ?_
      cases hp
      exact ⟨hle, h.ahead (by omega)⟩
    · split at hs <;> cases hs <;> exact h.caller (by rw [hpc]; rfl) (by simp) (by simp)
  case compareExchange p item =>
    split at hs
    · rename_i hdrained
      split at hs <;> cases hs
      · rename_i hp
        subst hp
        exact h.claim hpc hdrained
      · exact h.caller (by rw [hpc]; rfl) (by simp) (by simp)
    · cases hs
  case write p item =>
    cases hs
    exact (h.quietStore rfl (by simp)).caller (by rw [State.store, hpc]; rfl) (by simp) (by simp)
  case publish p =>
    cases hs
    cases t with
    | none => exact h.publishNone hpc
    | some t => exact h.publishSome hpc
  case loadScheduled p =>
    cases hs
    refine h.caller ?_ ?_ ?_ <;> split <;> simp [hpc, CallerPc.held]
  case swapScheduled p =>
    split at hs <;> cases hs
    refine h.swap.caller ?_ ?_ ?_ <;> split <;> simp [hpc, CallerPc.held, State.setMemory]
  case schedule =>
    split at hs <;> cases hs
    exact (h.work h.reading).caller (by simp [hpc, CallerPc.held]) (by simp) (by simp)

theorem Slots.worker (h : Slots s) (hs : workerStep s = some s') : Slots s' := by
  unfold workerStep at hs
  cases hpc : s.worker <;> simp only [hpc] at hs
  case idle => cases hs
  case dequeue =>
    cases hs
    refine h.work fun hread => ?_
    split at hread
    · show (s.seen none).sequence s.mailbox.consumerIndex = s.mailbox.consumerIndex + 1
      omega
    · exact hread.elim
  case read =>
    obtain ⟨item, -, rfl⟩ := Option.map_eq_some_iff.mp hs
    exact h.work fun _ => h.reading (by rw [hpc]; trivial)
  case release item =>
    cases hs
    exact h.release hpc id
  case receiving =>
    split at hs <;> cases hs
    exact h.work fun hread => hread.elim
  case clearScheduled =>
    cases hs
    exact (h.quietStore rfl fun _ => rfl).work fun hread => hread.elim
  case peek =>
    cases hs
    refine h.work fun hread => ?_
    split at hread <;> exact hread.elim
  case swapScheduled =>
    split at hs <;> cases hs
    refine h.swap.work fun hread => ?_
    split at hread <;> exact hread.elim
  case schedule =>
    split at hs <;> cases hs
    exact h.work fun hread => hread.elim

theorem Slots.step {a : Action T M} (h : Slots s) (hs : step s a = some s') : Slots s' := by
  cases a with
  | post t item =>
    simp only [Delayed.step] at hs
    split at hs <;> cases hs
    rename_i hidle
    have hpc : s.callers t = .idle := by
      rw [Bool.and_eq_true] at hidle
      cases hpc : s.callers t <;> simp [hpc, CallerPc.isIdle] at hidle
      rfl
    exact h.caller (by rw [hpc]; rfl) (by simp) (by simp)
  | call t => exact h.call hs
  | take =>
    simp only [Delayed.step] at hs
    split at hs <;> cases hs
    exact h.work h.reading
  | execute =>
    simp only [Delayed.step] at hs
    split at hs <;> cases hs
    exact h.work fun hread => hread.elim
  | worker => exact h.worker hs
  | flush t =>
    obtain ⟨mem, hmem, rfl⟩ := Option.map_eq_some_iff.mp hs
    exact h.flush hmem

theorem slots_of_reach {capacity : Nat} (h : Machine.Reach (machine T M capacity) Machine.free s) :
    Slots s := by
  refine h.inv Slots ?_ fun hinv _ hs => hinv.step hs
  rintro _ ⟨q, hq, rfl⟩
  exact start_slots hq

end

end DignusActor.Delayed
