import DignusActor.Delayed.Mailbox

/-! # Stores in flight to the slots of the mailbox

What stores do to the sequence of a slot when they reach the memory, and stores that each raise the
sequence they write (`Rising`). -/

universe u v

namespace DignusActor.Delayed

variable {T : Type u} {M : Type v}

/-! ## Stores to a slot -/

/-- A store to the sequence of the slot of a position. -/
def Store.Touches (q : MpscBoundedQueue M) (position : Nat) : Store M → Prop
  | .sequence r _ => q.slotIndex r = q.slotIndex position
  | _ => False

/-- A store that raises the sequence it writes. -/
def Store.Rises (m : Memory M) : Store M → Prop
  | .sequence p value => m.sequence p < value
  | _ => True

/-- Each of the stores raises the sequence it writes, one after the other. -/
def Rising (m : Memory M) : List (Store M) → Prop
  | [] => True
  | x :: xs => x.Rises m ∧ Rising (m.apply x) xs

section

variable {m m' : Memory M} {x : Store M} {xs : List (Store M)} {p r value : Nat}

@[simp] theorem Memory.indexMask_apply : (m.apply x).mailbox.indexMask = m.mailbox.indexMask := by
  cases x <;> rfl

theorem Memory.sequence_apply_self (h : m.mailbox.slotIndex p = m.mailbox.slotIndex r) :
    (m.apply (.sequence r value)).sequence p = value := by
  rw [sequence, apply, MpscBoundedQueue.slot_storeSequence_self _ _ h]

theorem Memory.sequence_apply_of_not (h : ¬x.Touches m.mailbox p) :
    (m.apply x).sequence p = m.sequence p := by
  cases x with
  | data r item =>
    rw [sequence, apply]
    by_cases hslot : m.mailbox.slotIndex p = m.mailbox.slotIndex r
    · rw [MpscBoundedQueue.slot_storeData_self _ _ hslot, sequence, MpscBoundedQueue.slot,
        MpscBoundedQueue.slot, hslot]
    · rw [MpscBoundedQueue.slot_storeData_ne _ _ hslot, sequence]
  | sequence r value =>
    rw [sequence, apply, MpscBoundedQueue.slot_storeSequence_ne _ _ (fun hslot => h hslot.symm),
      sequence]
  | clearScheduled => rfl

theorem slotIndex_congr {q q' : MpscBoundedQueue M} (h : q'.indexMask = q.indexMask) :
    q'.slotIndex p = q.slotIndex p := by
  rw [MpscBoundedQueue.slotIndex, MpscBoundedQueue.slotIndex, h]

theorem Store.touches_congr {q q' : MpscBoundedQueue M} (h : q'.indexMask = q.indexMask) :
    x.Touches q' p ↔ x.Touches q p := by
  cases x <;> simp only [Touches, slotIndex_congr h]

/-- A store to the slot of `p` is one to every position of that slot. -/
theorem Store.touches_slot {q : MpscBoundedQueue M} (h : q.slotIndex p = q.slotIndex r) :
    x.Touches q p ↔ x.Touches q r := by
  cases x <;> simp only [Touches, h]

theorem sequence_slot (h : m.mailbox.slotIndex p = m.mailbox.slotIndex r) :
    m.sequence p = m.sequence r := by
  rw [Memory.sequence, Memory.sequence, MpscBoundedQueue.slot, MpscBoundedQueue.slot, h]

theorem indexMask_foldl : (xs.foldl Memory.apply m).mailbox.indexMask = m.mailbox.indexMask := by
  induction xs generalizing m with
  | nil => rfl
  | cons x xs ih => exact ih.trans Memory.indexMask_apply

/-- Stores to other slots. -/
theorem sequence_foldl_of_not (h : ∀ x ∈ xs, ¬x.Touches m.mailbox p) :
    (xs.foldl Memory.apply m).sequence p = m.sequence p := by
  induction xs generalizing m with
  | nil => rfl
  | cons x xs ih =>
    refine (ih fun y hy => ?_).trans (Memory.sequence_apply_of_not (h x (List.mem_cons_self ..)))
    rw [Store.touches_congr Memory.indexMask_apply]
    exact h y (List.mem_cons_of_mem _ hy)

theorem Memory.sequence_apply_congr (hmask : m'.mailbox.indexMask = m.mailbox.indexMask)
    (hp : m'.sequence p = m.sequence p) :
    (m'.apply x).sequence p = (m.apply x).sequence p := by
  by_cases h : x.Touches m.mailbox p
  · cases x with
    | sequence r value =>
      have h' : m'.mailbox.slotIndex p = m'.mailbox.slotIndex r := by
        rw [slotIndex_congr hmask, slotIndex_congr hmask]
        exact h.symm
      rw [sequence_apply_self h', sequence_apply_self h.symm]
    | data | clearScheduled => exact h.elim
  · rw [sequence_apply_of_not h, sequence_apply_of_not, hp]
    rwa [Store.touches_congr hmask]

/-- The same stores on memories that agree on a slot. -/
theorem sequence_foldl_congr (hmask : m'.mailbox.indexMask = m.mailbox.indexMask)
    (hp : m'.sequence p = m.sequence p) :
    (xs.foldl Memory.apply m').sequence p = (xs.foldl Memory.apply m).sequence p := by
  induction xs generalizing m m' with
  | nil => exact hp
  | cons x xs ih => exact ih (by simp [hmask]) (Memory.sequence_apply_congr hmask hp)

/-- The sequence in the memory, or the one that a store in flight writes. -/
theorem sequence_foldl_cases : (xs.foldl Memory.apply m).sequence p = m.sequence p ∨
    ∃ r value, .sequence r value ∈ xs ∧ m.mailbox.slotIndex r = m.mailbox.slotIndex p ∧
      (xs.foldl Memory.apply m).sequence p = value := by
  induction xs generalizing m with
  | nil => exact .inl rfl
  | cons x xs ih =>
    rcases ih (m := m.apply x) with hsame | ⟨r, value, hmem, hslot, hvalue⟩
    · by_cases htouch : x.Touches m.mailbox p
      · cases x with
        | sequence r value =>
          refine .inr ⟨r, value, List.mem_cons_self .., htouch, ?_⟩
          exact hsame.trans (Memory.sequence_apply_self (Eq.symm htouch))
        | data | clearScheduled => exact htouch.elim
      · exact .inl (hsame.trans (Memory.sequence_apply_of_not htouch))
    · rw [slotIndex_congr Memory.indexMask_apply, slotIndex_congr Memory.indexMask_apply] at hslot
      exact .inr ⟨r, value, List.mem_cons_of_mem _ hmem, hslot, hvalue⟩

/-! ## Rising stores -/

theorem Memory.le_apply (h : x.Rises m) : m.sequence p ≤ (m.apply x).sequence p := by
  by_cases htouch : x.Touches m.mailbox p
  · cases x with
    | sequence r value =>
      rw [sequence_apply_self htouch.symm, sequence_slot htouch.symm]
      exact h.le
    | data | clearScheduled => exact htouch.elim
  · exact (sequence_apply_of_not htouch).ge

theorem Rising.le (h : Rising m xs) : m.sequence p ≤ (xs.foldl Memory.apply m).sequence p := by
  induction xs generalizing m with
  | nil => exact le_rfl
  | cons x xs ih => exact (Memory.le_apply h.1).trans (ih h.2)

theorem Rising.lt (h : Rising m xs) (hx : x ∈ xs) (htouch : x.Touches m.mailbox p) :
    m.sequence p < (xs.foldl Memory.apply m).sequence p := by
  induction xs generalizing m with
  | nil => cases hx
  | cons y ys ih =>
    rcases List.mem_cons.mp hx with rfl | hx
    · refine lt_of_lt_of_le ?_ h.2.le
      cases x with
      | sequence r value =>
        rw [Memory.sequence_apply_self htouch.symm, sequence_slot htouch.symm]
        exact h.1
      | data | clearScheduled => exact htouch.elim
    · refine (Memory.le_apply h.1).trans_lt (ih h.2 hx ?_)
      rwa [Store.touches_congr Memory.indexMask_apply]

theorem Rising.append (h : Rising m xs) (hx : x.Rises (xs.foldl Memory.apply m)) :
    Rising m (xs ++ [x]) := by
  induction xs generalizing m with
  | nil => exact ⟨hx, trivial⟩
  | cons y ys ih => exact ⟨h.1, ih h.2 hx⟩

/-- The stores rise on a memory that agrees on the slots they write. -/
theorem Rising.congr (h : Rising m xs) (hmask : m'.mailbox.indexMask = m.mailbox.indexMask)
    (hagree : ∀ p, (∃ x ∈ xs, x.Touches m.mailbox p) → m'.sequence p = m.sequence p) :
    Rising m' xs := by
  induction xs generalizing m m' with
  | nil => trivial
  | cons x xs ih =>
    refine ⟨?_, ih h.2 (by simp [hmask]) fun p hp => ?_⟩
    · cases x with
      | sequence r value =>
        exact (hagree r ⟨_, List.mem_cons_self .., rfl⟩).trans_lt h.1
      | data | clearScheduled => trivial
    · obtain ⟨y, hy, htouch⟩ := hp
      rw [Store.touches_congr Memory.indexMask_apply] at htouch
      exact Memory.sequence_apply_congr hmask (hagree p ⟨y, List.mem_cons_of_mem _ hy, htouch⟩)

end

end DignusActor.Delayed
