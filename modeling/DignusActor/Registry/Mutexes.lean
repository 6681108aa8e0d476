import DignusActor.Registry.Allocation

/-! # The threads that a method waits for

A mutex has a holder only while that thread is in a section that holds it (`held_of_reach`).
`reserve`, `remove`, `snapshot_live` and `live_count` wait for the `alloc` mutex, and two of them
under it for the mutex of an owner; the thread that holds `alloc` may wait for the mutex of an owner
too, and a thread that holds only that one waits for nobody. So each of the four comes to its end
when the threads that it waits for go on (`ends_of_locksAlloc`): `work` bounds the steps that all of
them have yet to take. -/

namespace DignusActor.Registry

open Machine (Reach)

variable {T R : Type}

/-! ## The holders of the mutexes -/

/-- Who has a mutex is in a section that holds it. -/
structure Held (s : State T R) : Prop where
  alloc : ∀ t, s.mem.alloc = some t → (s.pcs t).inAlloc = true
  owner : ∀ i t, s.mem.owners i = some t → (s.pcs t).inOwner s.mem.data = some i

theorem Pc.inOwner_grows {pc : Pc R} {d d' : Data R} (h : d.Grows d') {i : Nat}
    (hi : pc.inOwner d = some i) : pc.inOwner d' = some i := by
  cases pc with
  | commitStore n | commitUnlock n => exact h.indexOf_some hi
  | _ => exact hi

/-- The methods that lock the `alloc` mutex. -/
def Method.locksAlloc : Method → Bool
  | .reserve | .remove _ | .snapshot | .count => true
  | _ => false

/-- The thread is about to lock the `alloc` mutex. -/
def Pc.atAlloc : Pc R → Bool
  | .reserveLock | .removeLock _ | .snapshotLock | .countLock => true
  | _ => false

/-- The thread has a mutex, or is about to lock `alloc`. -/
def Pc.Inside (d : Data R) (pc : Pc R) : Prop :=
  pc.inAlloc = true ∨ (∃ i, pc.inOwner d = some i) ∨ pc.atAlloc = true

/-- The thread is in no section that holds a mutex. -/
def Pc.outside (d : Data R) (pc : Pc R) : Prop :=
  pc.inAlloc = false ∧ pc.inOwner d = none

theorem Pc.atRest_of_method {pc : Pc R} (h : pc.method = .rest) : pc.atRest = true := by
  cases pc <;> first | rfl | cases h

theorem Pc.outside_of_rest {pc : Pc R} (h : pc.method = .rest) (d : Data R) : pc.outside d := by
  cases pc <;> first | exact ⟨rfl, rfl⟩ | cases h

/-- What a thread does to the mutexes: it leaves them alone, or locks or unlocks one. -/
inductive LockMove (t : T) (m : Mem T R) (pc : Pc R) (m' : Mem T R) (pc' : Pc R) : Prop
  | none : m'.alloc = m.alloc → m'.owners = m.owners → (pc.inAlloc = true → pc'.inAlloc = true) →
    (∀ i, pc.inOwner m.data = some i → pc'.inOwner m'.data = some i) → LockMove t m pc m' pc'
  | lockAlloc : m.alloc = .none → m'.alloc = some t → m'.owners = m.owners →
    pc.inOwner m.data = .none → pc'.inAlloc = true → LockMove t m pc m' pc'
  | unlockAlloc : m'.alloc = .none → m'.owners = m.owners → pc.inOwner m.data = .none →
    LockMove t m pc m' pc'
  | lockOwner (i) : m'.alloc = m.alloc → m.owners i = .none →
    m'.owners = Function.update m.owners i (some t) → pc.inOwner m.data = .none →
    (pc.inAlloc = true → pc'.inAlloc = true) → pc'.inOwner m'.data = some i →
    LockMove t m pc m' pc'
  | unlockOwner (i) : m'.alloc = m.alloc → pc.inOwner m.data = some i →
    m'.owners = Function.update m.owners i .none → (pc.inAlloc = true → pc'.inAlloc = true) →
    LockMove t m pc m' pc'

theorem CallMove.locks {poisons : Bool} {t : T} {m m' : Mem T R} {pc pc' : Pc R}
    (h : CallMove poisons t m pc m' pc') : LockMove t m pc m' pc' := by
  cases h with
  | reserveLock ha | removeLock _ ha | snapshotLock ha | countLock ha =>
    exact .lockAlloc ha rfl rfl rfl rfl
  | popFull | reserveUnlock | snapshotUnlock | countUnlock => exact .unlockAlloc rfl rfl rfl
  | removeUnlock handle removed => cases removed <;> exact .unlockAlloc rfl rfl rfl
  | commitLock n runner i hi ho => exact .lockOwner i rfl ho rfl rfl id hi
  | lookupLock lookup ho => exact .lockOwner lookup.index rfl ho rfl rfl id rfl
  | removeOwnerLock handle ho => exact .lockOwner handle.index rfl ho rfl rfl id rfl
  | snapshotSlot i live _ ho => exact .lockOwner i rfl ho rfl rfl id rfl
  | commitUnlock n i hi => exact .unlockOwner i rfl hi rfl id
  | lookupNone lookup | lookupSome lookup => exact .unlockOwner lookup.index rfl rfl rfl id
  | removeOwnerUnlock handle => exact .unlockOwner handle.index rfl rfl rfl id
  | snapshotOwnerUnlock i => exact .unlockOwner i rfl rfl rfl id
  | commitStore n runner i hi => exact .none rfl rfl id fun _ => id
  | _ => exact .none rfl rfl id fun _ => id

section
variable [DecidableEq T] {poisons : Bool} {s s' : State T R} {t u : T}

omit [DecidableEq T] in
theorem Held.of_outside (h : Held s) {mem : Mem T R} {pcs : T → Pc R}
    (halloc : mem.alloc = s.mem.alloc) (howners : mem.owners = s.mem.owners)
    (hdata : mem.data = s.mem.data) (hu : (s.pcs u).outside s.mem.data)
    (hpcs : ∀ t, t ≠ u → pcs t = s.pcs t) : Held { s with mem, pcs } where
  alloc t ht := by
    dsimp only at ht ⊢
    rw [halloc] at ht
    have hin := h.alloc t ht
    by_cases htu : t = u
    · rw [htu, hu.1] at hin
      cases hin
    · rwa [hpcs t htu]
  owner i t ht := by
    dsimp only at ht ⊢
    rw [howners] at ht
    have hin := h.owner i t ht
    by_cases htu : t = u
    · rw [htu, hu.2] at hin
      cases hin
    · rwa [hpcs t htu, hdata]

theorem Held.call_step (h : Held s) (hinv : Inv s) (hs : step poisons s (.call u) = some s') :
    Held s' := by
  have hgrows := step_grows hinv hs
  cases step_move hs with
  | @call _ m pc hcall =>
    have hself := hinv.thread u
    have halloc := h.alloc u
    have howner (i : Nat) := h.owner i u
    generalize hpc : s.pcs u = pc₀ at hcall hself halloc howner
    refine ⟨fun t ht => ?_, fun i t ht => ?_⟩
    · dsimp only at ht ⊢
      by_cases htu : t = u
      · subst htu
        rw [Function.update_self]
        cases hcall.locks with
        | none ha _ hin | lockOwner _ ha _ _ _ hin | unlockOwner _ ha _ _ hin =>
          exact hin (halloc (ha ▸ ht))
        | lockAlloc _ _ _ _ hin => exact hin
        | unlockAlloc ha => cases ha.symm.trans ht
      · rw [Function.update_of_ne htu]
        refine h.alloc t ?_
        cases hcall.locks with
        | none ha | lockOwner _ ha | unlockOwner _ ha => exact ha ▸ ht
        | lockAlloc _ ha => exact absurd (Option.some.inj (ht.symm.trans ha)) htu
        | unlockAlloc ha => cases ha.symm.trans ht
    · dsimp only at ht hgrows ⊢
      by_cases htu : t = u
      · subst htu
        rw [Function.update_self]
        cases hcall.locks with
        | none _ ho _ hin => exact hin i (howner i (ho ▸ ht))
        | lockAlloc _ _ ho hout | unlockAlloc _ ho hout =>
          cases hout.symm.trans (howner i (ho ▸ ht))
        | lockOwner j _ _ ho hout _ hin =>
          by_cases hij : i = j
          · subst hij
            exact hin
          · rw [ho, Function.update_of_ne hij] at ht
            cases hout.symm.trans (howner i ht)
        | unlockOwner j _ hin ho =>
          rw [ho] at ht
          by_cases hij : i = j
          · subst hij
            simp at ht
          · rw [Function.update_of_ne hij] at ht
            exact absurd (Option.some.inj ((howner i ht).symm.trans hin)) hij
      · rw [Function.update_of_ne htu]
        refine Pc.inOwner_grows hgrows (h.owner i t ?_)
        cases hcall.locks with
        | none _ ho | lockAlloc _ _ ho | unlockAlloc _ ho => exact ho ▸ ht
        | lockOwner j _ _ ho | unlockOwner j _ _ ho =>
          rw [ho] at ht
          by_cases hij : i = j
          · subst hij
            rw [Function.update_self] at ht
            first
            | cases ht; done
            | exact absurd (Option.some.inj ht).symm htu
          · rwa [Function.update_of_ne hij] at ht

theorem Held.step (h : Held s) (hinv : Inv s) {a : Action T R}
    (hs : Registry.step poisons s a = some s') : Held s' := by
  have hset {v : T} {pc : Pc R} (hv : (s.pcs v).outside s.mem.data) : Held (s.setPc v pc) :=
    h.of_outside rfl rfl rfl hv fun _ ht => Function.update_of_ne ht ..
  cases step_move hs with
  | call u => exact h.call_step hinv hs
  | reserve _ hrest | lookup _ _ _ hrest | remove _ _ hrest | snapshotLive _ hrest
  | liveCount _ hrest => exact hset (Pc.outside_of_rest (Pc.method_of_atRest hrest) _)
  | commit _ _ _ hpc | abandon _ _ hpc =>
    refine hset ?_
    rw [hpc]
    exact ⟨rfl, rfl⟩

theorem held_of_reach {capacity : Nat} {ok : State T R → Action T R → Prop}
    (h : Reach (machine T R poisons capacity) ok s) : Held s := by
  refine h.inv_of Inv Held inv_of_reach ?_ fun hinv hheld _ hs => hheld.step hinv hs
  rintro _ rfl
  exact ⟨by simp [withCapacity], by simp [withCapacity]⟩

/-! ## The end of a method -/

end

/-- The thread that has the mutex which thread `t` is about to lock. -/
def State.waitsFor (s : State T R) (t : T) : Option T :=
  match s.pcs t with
  | .reserveLock | .removeLock _ | .snapshotLock | .countLock => s.mem.alloc
  | .commitLock n _ => (s.mem.data.indexOf n).bind s.mem.owners
  | .lookupLock lookup => s.mem.owners lookup.index
  | .removeOwnerLock handle => s.mem.owners handle.index
  | .snapshotSlot i _ => if i < s.mem.data.nextUnused then s.mem.owners i else none
  | _ => none

/-- Thread `t`, the thread that it waits for, the thread that this one waits for, and so on. -/
inductive State.Helps (s : State T R) (t : T) : T → Prop
  | self : s.Helps t t
  | wait {u v} : s.Helps t u → s.waitsFor u = some v → s.Helps t v

/-- The steps that a thread takes until it unlocks the mutex of an owner. -/
def Pc.ownerWork : Pc R → Nat
  | .lookupRecheck _ => 3
  | .commitStore .. | .lookupClone _ | .removeTake _ | .snapshotClone .. => 2
  | .commitUnlock _ | .lookupUnlock .. | .removeOwnerUnlock .. | .snapshotOwnerUnlock .. => 1
  | _ => 0

/-- The steps until the mutex of an owner is unlocked. -/
def State.ownerWork (s : State T R) (i : Nat) : Nat :=
  match s.mem.owners i with
  | some u => (s.pcs u).ownerWork
  | none => 0

/-- A bound on the steps until a thread unlocks the `alloc` mutex, with those of the threads that it
waits for. -/
def State.allocWork (s : State T R) (t : T) : Nat :=
  match s.pcs t with
  | .reserveUnlock _ | .removeUnlock .. | .snapshotUnlock _ | .countUnlock _ => 1
  | .reserveLive _ | .removeFree .. | .countRead => 2
  | .reserveStore .. | .removeOwnerUnlock .. => 3
  | .reserveLoad _ | .removeTake _ => 4
  | .reservePop => 5
  | .removeOwnerLock handle => 5 + s.ownerWork handle.index
  | .removeStore _ => 9
  | .removeLoad _ => 10
  | .snapshotSlot i _ =>
    if i < s.mem.data.nextUnused then 8 + 6 * (s.mem.data.nextUnused - (i + 1)) + s.ownerWork i
    else 2
  | .snapshotClone i _ => 7 + 6 * (s.mem.data.nextUnused - (i + 1))
  | .snapshotOwnerUnlock i _ => 6 + 6 * (s.mem.data.nextUnused - (i + 1))
  | _ => 0

/-- A bound on the steps until the `alloc` mutex is unlocked. -/
def State.lockedWork (s : State T R) : Nat :=
  match s.mem.alloc with
  | some t => s.allocWork t
  | none => 0

/-- A bound on the steps to the end of a method that locks `alloc`, with those of the threads that
it waits for. -/
def State.work (s : State T R) (t : T) : Nat :=
  if (s.pcs t).atAlloc then 12 + 6 * s.mem.data.capacity + s.lockedWork else s.allocWork t

/-- Thread `t` comes to the end of its method, when the threads that it waits for go on: as long as
it has not, one of them can take a step, and each of their steps leads to the end. -/
inductive State.Ends [DecidableEq T] (poisons : Bool) (t : T) : State T R → Prop
  | back {s} : (s.pcs t).method.locksAlloc = false → State.Ends poisons t s
  | step {s} : (∃ u s', s.Helps t u ∧ step poisons s (.call u) = some s') →
    (∀ u s', s.Helps t u → step poisons s (.call u) = some s' → State.Ends poisons t s') →
    State.Ends poisons t s

section
variable [DecidableEq T] {poisons : Bool} {s s' : State T R} {t u : T}

omit [DecidableEq T] in
theorem Pc.ownerWork_le (pc : Pc R) : pc.ownerWork ≤ 3 := by
  cases pc <;> simp [Pc.ownerWork]

omit [DecidableEq T] in
theorem State.ownerWork_le (s : State T R) (i : Nat) : s.ownerWork i ≤ 3 := by
  unfold State.ownerWork
  split
  · exact Pc.ownerWork_le _
  · exact Nat.zero_le 3

omit [DecidableEq T] in
/-- Who has the mutex of an owner waits for nobody. -/
theorem State.waitsFor_of_inOwner {i : Nat} (h : (s.pcs t).inOwner s.mem.data = some i) :
    s.waitsFor t = none := by
  unfold State.waitsFor
  generalize s.pcs t = pc at h
  cases pc <;> first | rfl | cases h

omit [DecidableEq T] in
/-- A thread waits for the thread that has `alloc`, which it has not itself, or for one that has the
mutex of an owner. -/
theorem State.waitsFor_cases {v : T} (h : s.waitsFor t = some v) :
    s.mem.alloc = some v ∧ (s.pcs t).inAlloc = false ∨ ∃ i, s.mem.owners i = some v := by
  unfold State.waitsFor at h
  generalize s.pcs t = pc at h
  cases pc with
  | reserveLock | removeLock | snapshotLock | countLock => exact .inl ⟨h, rfl⟩
  | commitLock n runner =>
    obtain ⟨i, -, ho⟩ := Option.bind_eq_some_iff.mp h
    exact .inr ⟨i, ho⟩
  | lookupLock lookup => exact .inr ⟨_, h⟩
  | removeOwnerLock handle => exact .inr ⟨_, h⟩
  | snapshotSlot i live =>
    dsimp only at h
    split at h
    · exact .inr ⟨i, h⟩
    · cases h
  | _ => cases h

omit [DecidableEq T] in
/-- Nobody waits for more than two threads. -/
theorem State.Helps.cases (h : s.Helps t u) (hheld : Held s) : u = t ∨
    ∃ v, s.waitsFor t = some v ∧
      (u = v ∨ (s.pcs t).inAlloc = false ∧ s.mem.alloc = some v ∧ s.waitsFor v = some u) := by
  -- the holder of the mutex of an owner waits for nobody
  have hfree {i : Nat} {u v : T} (ho : s.mem.owners i = some u) (h : s.waitsFor u = some v) :
      False := by
    cases h.symm.trans (State.waitsFor_of_inOwner (hheld.owner i u ho))
  induction h with
  | self => exact .inl rfl
  | @wait u w _ hw ih =>
    rcases ih with rfl | ⟨v, hv, rfl | ⟨-, halloc, hvu⟩⟩
    · exact .inr ⟨w, hw, .inl rfl⟩
    · rcases State.waitsFor_cases hv with ⟨halloc, hout⟩ | ⟨i, ho⟩
      · exact .inr ⟨u, hv, .inr ⟨hout, halloc, hw⟩⟩
      · exact (hfree ho hw).elim
    · rcases State.waitsFor_cases hvu with ⟨-, hout⟩ | ⟨i, ho⟩
      · cases (hheld.alloc v halloc).symm.trans hout
      · exact (hfree ho hw).elim

/-- The thread that has the mutex of an owner comes closer to unlocking it. -/
theorem ownerWork_step {i : Nat} (hheld : Held s) (ho : s.mem.owners i = some u)
    (hs : step poisons s (.call u) = some s') :
    s'.ownerWork i < s.ownerWork i ∧ s'.mem.data.nextUnused = s.mem.data.nextUnused ∧
      s'.mem.alloc = s.mem.alloc := by
  have hin := hheld.owner i u ho
  have hwork : s.ownerWork i = (s.pcs u).ownerWork := by simp [State.ownerWork, ho]
  rw [hwork]
  cases step_move hs with
  | call _ hcall =>
    generalize s.pcs u = pc at hcall hin
    cases hcall with
    | commitStore | recheckStale | lookupRecheck | lookupClone | removeTake | snapshotClone =>
      refine ⟨?_, rfl, rfl⟩
      simp [State.ownerWork, ho, Pc.ownerWork]
    | commitUnlock n j hj =>
      cases hj.symm.trans hin
      exact ⟨by simp [State.ownerWork, Mem.unlockOwner, Pc.ownerWork], rfl, rfl⟩
    | lookupNone | lookupSome | removeOwnerUnlock | snapshotOwnerUnlock =>
      cases hin
      exact ⟨by simp [State.ownerWork, Mem.unlockOwner, Pc.ownerWork], rfl, rfl⟩
    | _ => cases hin

/-- The thread that has `alloc` comes closer to unlocking it. -/
theorem allocWork_step (hin : (s.pcs t).inAlloc = true)
    (hs : step poisons s (.call t) = some s') :
    s'.allocWork t < s.allocWork t ∧ (s'.mem.alloc = s.mem.alloc ∨ s'.mem.alloc = none) := by
  cases step_move hs with
  | @call _ m pc hcall =>
    have hle (i : Nat) :=
      State.ownerWork_le { s with mem := m, pcs := Function.update s.pcs t pc } i
    simp only [State.allocWork, Function.update_self]
    generalize s.pcs t = pc₀ at hcall hin
    cases hcall with
    | removeStore handle =>
      have hown := hle handle.index
      exact ⟨by dsimp only; omega, .inl rfl⟩
    | snapshotSlot i live hi =>
      dsimp only
      rw [if_pos hi]
      exact ⟨by omega, .inl rfl⟩
    | snapshotEnd i live hi =>
      dsimp only
      rw [if_neg (Nat.not_lt.mpr hi)]
      exact ⟨by omega, .inl rfl⟩
    | snapshotOwnerUnlock i live =>
      have hown := hle (i + 1)
      have hnext : (s.mem.unlockOwner i).data.nextUnused = s.mem.data.nextUnused := rfl
      refine ⟨?_, .inl rfl⟩
      simp only [hnext]
      by_cases hi : i + 1 < s.mem.data.nextUnused
      · rw [if_pos hi]
        omega
      · rw [if_neg hi]
        omega
    | removeOwnerLock handle => exact ⟨by dsimp only; omega, .inl rfl⟩
    | popFull | reserveUnlock | snapshotUnlock | countUnlock => exact ⟨by simp, .inr rfl⟩
    | removeUnlock handle removed => cases removed <;> exact ⟨by simp, .inr rfl⟩
    | snapshotClone => exact ⟨by dsimp only; omega, .inl rfl⟩
    | reserveLock | reservePoisoned | removeLock | removePoisoned | snapshotLock
    | snapshotPoisoned | countLock | countPoisoned | commitLock | commitStore | commitUnlock
    | lookupPast | lookupStale | lookupLoad | lookupLock | recheckStale | lookupRecheck
    | lookupClone | lookupNone | lookupSome | deliver => cases hin
    | _ => exact ⟨by simp, .inl rfl⟩

/-- The thread that has `alloc` waits for `u`, which comes closer to unlocking its mutex. -/
theorem allocWork_owner (hheld : Held s) (hin : (s.pcs t).inAlloc = true)
    (hw : s.waitsFor t = some u) (hs : step poisons s (.call u) = some s') :
    s'.allocWork t < s.allocWork t ∧ s'.mem.alloc = s.mem.alloc := by
  have hne : t ≠ u := by
    rintro rfl
    rcases State.waitsFor_cases hw with ⟨-, hout⟩ | ⟨i, ho⟩
    · cases hin.symm.trans hout
    · cases hw.symm.trans (State.waitsFor_of_inOwner (hheld.owner i t ho))
  have hpc := step_pcs_of_ne hs hne
  unfold State.waitsFor at hw
  simp only [State.allocWork, hpc]
  generalize s.pcs t = pc at hw hin
  cases pc with
  | removeOwnerLock handle =>
    obtain ⟨hlt, -, halloc⟩ := ownerWork_step hheld hw hs
    exact ⟨Nat.add_lt_add_left hlt 5, halloc⟩
  | snapshotSlot i live =>
    dsimp only at hw ⊢
    split at hw
    · rename_i hi
      obtain ⟨hlt, hnext, halloc⟩ := ownerWork_step hheld hw hs
      rw [hnext, if_pos hi, if_pos hi]
      exact ⟨Nat.add_lt_add_left hlt _, halloc⟩
    · cases hw
  | reserveLock | removeLock | snapshotLock | countLock | commitLock | lookupLock => cases hin
  | _ => cases hw

omit [DecidableEq T] in
theorem State.lockedWork_eq (h : s.mem.alloc = some t) : s.lockedWork = s.allocWork t := by
  simp [State.lockedWork, h]

omit [DecidableEq T] in
theorem State.lockedWork_none (h : s.mem.alloc = none) : s.lockedWork = 0 := by
  simp [State.lockedWork, h]

theorem lockedWork_step {v : T} (hheld : Held s) (halloc : s.mem.alloc = some v)
    (hu : u = v ∨ s.waitsFor v = some u) (hs : step poisons s (.call u) = some s') :
    s'.lockedWork < s.lockedWork := by
  have hin := hheld.alloc v halloc
  rw [State.lockedWork_eq halloc]
  rcases hu with rfl | hw
  · obtain ⟨hlt, halloc' | halloc'⟩ := allocWork_step hin hs
    · rwa [State.lockedWork_eq (halloc'.trans halloc)]
    · rw [State.lockedWork_none halloc']
      omega
  · obtain ⟨hlt, halloc'⟩ := allocWork_owner hheld hin hw hs
    rwa [State.lockedWork_eq (halloc'.trans halloc)]

omit [DecidableEq T] in
theorem State.work_of_inAlloc (h : (s.pcs t).inAlloc = true) : s.work t = s.allocWork t := by
  have hat : (s.pcs t).atAlloc = false := by
    generalize s.pcs t = pc at h
    cases pc <;> first | rfl | cases h
  simp [State.work, hat]

/-- A method that has `alloc` keeps it to its end. -/
theorem step_locksAlloc (hm : (s.pcs t).method.locksAlloc = true)
    (hs : step poisons s (.call t) = some s') : (s'.pcs t).method.locksAlloc = false ∨
      (s'.pcs t).method = (s.pcs t).method ∧ (s'.pcs t).inAlloc = true := by
  cases step_move hs with
  | call _ hcall =>
    simp only [Function.update_self]
    generalize s.pcs t = pc at hcall hm
    cases hcall with
    | reservePoisoned | popFull | reserveUnlock | removePoisoned | removeUnlock
    | snapshotPoisoned | snapshotUnlock | countPoisoned | countUnlock => exact .inl rfl
    | commitLock | commitStore | commitUnlock | lookupPast | lookupStale | lookupLoad | lookupLock
    | recheckStale | lookupRecheck | lookupClone | lookupNone | lookupSome | deliver => cases hm
    | _ => exact .inr ⟨rfl, rfl⟩

omit [DecidableEq T] in
theorem Pc.atAlloc_or_inAlloc {pc : Pc R} (h : pc.method.locksAlloc = true) :
    pc.atAlloc = true ∨ pc.inAlloc = true := by
  cases pc <;> first | exact .inl rfl | exact .inr rfl | cases h

omit [DecidableEq T] in
theorem State.waitsFor_of_atAlloc (h : (s.pcs t).atAlloc = true) :
    s.waitsFor t = s.mem.alloc := by
  unfold State.waitsFor
  generalize s.pcs t = pc at h
  cases pc <;> first | rfl | cases h

/-- A thread that locks `alloc` has less to do than it had to wait for. -/
theorem allocWork_locked (hb : s.mem.data.Bounded) (hat : (s.pcs t).atAlloc = true)
    (hin' : (s'.pcs t).inAlloc = true) (hs : step poisons s (.call t) = some s') :
    s'.allocWork t < 12 + 6 * s.mem.data.capacity := by
  have hunused := hb.unused
  cases step_move hs with
  | @call _ m pc hcall =>
    have hle (i : Nat) :=
      State.ownerWork_le { s with mem := m, pcs := Function.update s.pcs t pc } i
    simp only [Function.update_self] at hin'
    simp only [State.allocWork, Function.update_self]
    generalize s.pcs t = pc₀ at hcall hat
    cases hcall with
    | reserveLock | removeLock | countLock => dsimp only; omega
    | snapshotLock =>
      have hown := hle 0
      dsimp only
      split
      · omega
      · omega
    | reservePoisoned | removePoisoned | snapshotPoisoned | countPoisoned => cases hin'
    | _ => cases hat

/-- **Each step leads to the end of the method**: one of its own, or of a thread that it waits
for. -/
theorem work_step (hheld : Held s) (hb : s.mem.data.Bounded)
    (hm : (s.pcs t).method.locksAlloc = true) (hu : s.Helps t u)
    (hs : step poisons s (.call u) = some s') :
    (s'.pcs t).method.locksAlloc = false ∨
      (s'.pcs t).method = (s.pcs t).method ∧ s'.work t < s.work t := by
  by_cases hut : u = t
  · subst hut
    rcases step_locksAlloc hm hs with hend | ⟨hm', hin'⟩
    · exact .inl hend
    · refine .inr ⟨hm', ?_⟩
      rw [State.work_of_inAlloc hin']
      rcases Pc.atAlloc_or_inAlloc hm with hat | hin
      · rw [State.work, if_pos hat]
        exact Nat.lt_add_right _ (allocWork_locked hb hat hin' hs)
      · rw [State.work_of_inAlloc hin]
        exact (allocWork_step hin hs).1
  · have hpc := step_pcs_of_ne hs (Ne.symm hut)
    refine .inr ⟨by rw [hpc], ?_⟩
    obtain ⟨v, hv, hstep⟩ := (hu.cases hheld).resolve_left hut
    rcases Pc.atAlloc_or_inAlloc hm with hat | hin
    · have halloc : s.mem.alloc = some v := (State.waitsFor_of_atAlloc hat).symm.trans hv
      have hlt := lockedWork_step hheld halloc (hstep.imp_right fun h => h.2.2) hs
      rw [State.work, State.work, hpc, if_pos hat, if_pos hat, step_capacity hs]
      exact Nat.add_lt_add_left hlt _
    · rw [State.work_of_inAlloc hin, State.work_of_inAlloc (hpc ▸ hin)]
      rcases hstep with rfl | ⟨hout, -⟩
      · exact (allocWork_owner hheld hin hv hs).1
      · cases hin.symm.trans hout

/-- Who waits for nobody can take a step. -/
theorem step_call_isSome (hm : (s.pcs t).Inside s.mem.data) (hw : s.waitsFor t = none) :
    ∃ s', step poisons s (.call t) = some s' := by
  refine Option.isSome_iff_exists.mp ?_
  simp only [step, Option.isSome_map]
  unfold State.waitsFor at hw
  generalize s.pcs t = pc at hm hw
  cases pc with
  | reserveLock | removeLock | snapshotLock | countLock =>
    simp only [callStep, Mem.lockAlloc, hw]
    split <;> rfl
  | removeOwnerLock handle => simp [callStep, Mem.lockOwner, hw]
  | snapshotSlot i live =>
    simp only [callStep]
    split
    · rename_i hi
      dsimp only at hw
      rw [if_pos hi] at hw
      simp [Mem.lockOwner, hw]
    · rfl
  | commitStore n runner | commitUnlock n =>
    rcases hm with hm | ⟨i, hi⟩ | hm
    · cases hm
    · simp only [Pc.inOwner] at hi
      simp [callStep, hi]
    · cases hm
  | reservePop =>
    simp only [callStep]
    split
    · rfl
    · split <;> rfl
  | removeLoad handle | lookupRecheck lookup =>
    simp only [callStep]
    repeat' split
    all_goals rfl
  | idle | panicked | reserved | committed | removed | snapshot | counted | commitLock | lookupLoad
  | lookupLock | deliver =>
    rcases hm with hm | ⟨i, hi⟩ | hm
    · cases hm
    · cases hi
    · cases hm
  | _ => rfl

omit [DecidableEq T] in
theorem Pc.inside_of_locksAlloc {pc : Pc R} (h : pc.method.locksAlloc = true) (d : Data R) :
    pc.Inside d :=
  (Pc.atAlloc_or_inAlloc h).elim (fun h => .inr (.inr h)) .inl

omit [DecidableEq T] in
/-- A thread that is inside, and the threads that it waits for. -/
theorem State.Helps.inside (hu : s.Helps t u) (hheld : Held s)
    (hm : (s.pcs t).Inside s.mem.data) : (s.pcs u).Inside s.mem.data := by
  have hwaited {v w : T} (h : s.waitsFor v = some w) : (s.pcs w).Inside s.mem.data := by
    rcases State.waitsFor_cases h with ⟨halloc, -⟩ | ⟨i, ho⟩
    · exact .inl (hheld.alloc w halloc)
    · exact .inr (.inl ⟨i, hheld.owner i w ho⟩)
  cases hu with
  | self => exact hm
  | wait _ hw => exact hwaited hw

omit [DecidableEq T] in
theorem State.Helps.eq_self (hu : s.Helps t u) (hw : s.waitsFor t = none) : u = t := by
  induction hu with
  | self => rfl
  | wait _ h ih =>
    subst ih
    cases hw.symm.trans h

omit [DecidableEq T] in
theorem State.waitsFor_of_rest (h : (s.pcs t).method = .rest) : s.waitsFor t = none := by
  unfold State.waitsFor
  generalize s.pcs t = pc at h
  cases pc <;> first | rfl | cases h

/-- A thread that is inside, or one of the threads that it waits for, can take a step. -/
theorem helps_isSome (hheld : Held s) (hm : (s.pcs t).Inside s.mem.data) :
    ∃ u s', s.Helps t u ∧ step poisons s (.call u) = some s' := by
  -- the holder of the mutex of an owner
  have howner {u : T} {i : Nat} (hu : s.Helps t u) (ho : s.mem.owners i = some u) :
      ∃ u s', s.Helps t u ∧ step poisons s (.call u) = some s' := by
    have hin := hheld.owner i u ho
    obtain ⟨s', hs⟩ := step_call_isSome (hu.inside hheld hm) (State.waitsFor_of_inOwner hin)
    exact ⟨u, s', hu, hs⟩
  cases hw : s.waitsFor t with
  | none =>
    obtain ⟨s', hs⟩ := step_call_isSome (State.Helps.self.inside hheld hm) hw
    exact ⟨t, s', .self, hs⟩
  | some v =>
    rcases State.waitsFor_cases hw with ⟨halloc, -⟩ | ⟨i, ho⟩
    · have hin := hheld.alloc v halloc
      cases hwv : s.waitsFor v with
      | none =>
        obtain ⟨s', hs⟩ := step_call_isSome (.inl hin) hwv
        exact ⟨v, s', .wait .self hw, hs⟩
      | some u =>
        rcases State.waitsFor_cases hwv with ⟨-, hout⟩ | ⟨i, ho⟩
        · cases hin.symm.trans hout
        · exact howner (.wait (.wait .self hw) hwv) ho
    · exact howner (.wait .self hw) ho

/-- **A method that locks `alloc` ends**, when the threads that it waits for go on. -/
theorem ends_of_locksAlloc (hheld : Held s) (hinv : Inv s) (hb : s.mem.data.Bounded)
    (hm : (s.pcs t).method.locksAlloc = true) : s.Ends poisons t := by
  -- by induction on the bound of the steps to come
  induction hn : s.work t using Nat.strong_induction_on generalizing s with
  | _ n ih =>
  refine .step (helps_isSome hheld (Pc.inside_of_locksAlloc hm _)) fun u s' hu hs => ?_
  rcases work_step hheld hb hm hu hs with hend | ⟨hm', hlt⟩
  · exact .back hend
  · exact ih _ (hn ▸ hlt) (hheld.step hinv hs) (hinv.step hs) (hb.step hinv hs) (hm' ▸ hm) rfl

end

end DignusActor.Registry
