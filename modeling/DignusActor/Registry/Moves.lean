import DignusActor.Registry.ActorRegistry

/-! # What one step of the registry can do

`CallMove` lists the steps of a thread inside a method, each with what it found, and
`callStep_move` is the inversion. `Pc.method` says which method the thread is in; a step stays in
the method or returns from it (`callStep_method`). -/

namespace DignusActor.Registry

variable {T R : Type}

/-- The steps of thread `t` inside a method. -/
inductive CallMove (poisons : Bool) (t : T) (m : Mem T R) : Pc R → Mem T R → Pc R → Prop
  | reserveLock : m.alloc = none → m.poisoned = false →
    CallMove poisons t m .reserveLock { m with alloc := some t } .reservePop
  | reservePoisoned : m.poisoned = true → CallMove poisons t m .reserveLock m .panicked
  | popFree (i free) : m.data.free = i :: free →
    CallMove poisons t m .reservePop { m with data := { m.data with free } } (.reserveLoad i)
  | popFull : m.data.free = [] → m.data.capacity ≤ m.data.nextUnused →
    CallMove poisons t m .reservePop { m.unlockAlloc with poisoned := poisons } .panicked
  | popUnused : m.data.free = [] → m.data.nextUnused < m.data.capacity →
    CallMove poisons t m .reservePop
      { m with data := { m.data with nextUnused := m.data.nextUnused + 1 } }
      (.reserveLoad m.data.nextUnused)
  | reserveLoad (i) :
    CallMove poisons t m (.reserveLoad i) m
      (.reserveStore i (wrappingSucc (m.data.slots i).generation))
  | reserveStore (i generation) :
    CallMove poisons t m (.reserveStore i generation)
      { m with data := m.data.reserve i generation } (.reserveLive m.data.reservations.length)
  | reserveLive (n) :
    CallMove poisons t m (.reserveLive n) { m with live := m.live + 1 } (.reserveUnlock n)
  | reserveUnlock (n) : CallMove poisons t m (.reserveUnlock n) m.unlockAlloc (.reserved n)
  | commitLock (n runner i) : m.data.indexOf n = some i → m.owners i = none →
    CallMove poisons t m (.commitLock n runner)
      { m with owners := Function.update m.owners i (some t) } (.commitStore n runner)
  | commitStore (n runner i) : m.data.indexOf n = some i →
    CallMove poisons t m (.commitStore n runner) { m with data := m.data.commit n i runner }
      (.commitUnlock n)
  | commitUnlock (n i) : m.data.indexOf n = some i →
    CallMove poisons t m (.commitUnlock n) (m.unlockOwner i) (.committed n)
  | lookupPast (lookup) : m.data.capacity ≤ lookup.index →
    CallMove poisons t m (.lookupLoad lookup) m .idle
  | lookupStale (lookup) : (m.data.slots lookup.index).generation ≠ lookup.generation →
    CallMove poisons t m (.lookupLoad lookup) m .idle
  | lookupLoad (lookup) : lookup.index < m.data.capacity →
    (m.data.slots lookup.index).generation = lookup.generation →
    CallMove poisons t m (.lookupLoad lookup) m (.lookupLock lookup)
  | lookupLock (lookup) : m.owners lookup.index = none →
    CallMove poisons t m (.lookupLock lookup)
      { m with owners := Function.update m.owners lookup.index (some t) } (.lookupRecheck lookup)
  | recheckStale (lookup) : (m.data.slots lookup.index).generation ≠ lookup.generation →
    CallMove poisons t m (.lookupRecheck lookup) m (.lookupUnlock lookup none)
  | lookupRecheck (lookup) : (m.data.slots lookup.index).generation = lookup.generation →
    CallMove poisons t m (.lookupRecheck lookup) m (.lookupClone lookup)
  | lookupClone (lookup) :
    CallMove poisons t m (.lookupClone lookup) m
      (.lookupUnlock lookup (m.data.slots lookup.index).owner)
  | lookupNone (lookup) :
    CallMove poisons t m (.lookupUnlock lookup none) (m.unlockOwner lookup.index) .idle
  | lookupSome (lookup runner) :
    CallMove poisons t m (.lookupUnlock lookup (some runner)) (m.unlockOwner lookup.index)
      (.deliver lookup runner)
  | deliver (lookup runner) :
    CallMove poisons t m (.deliver lookup runner)
      { m with calls := m.calls ++ [(lookup, runner)] } .idle
  | removeLock (handle) : m.alloc = none → m.poisoned = false →
    CallMove poisons t m (.removeLock handle) { m with alloc := some t } (.removeLoad handle)
  | removePoisoned (handle) : m.poisoned = true →
    CallMove poisons t m (.removeLock handle) m .panicked
  | removePast (handle) : m.data.capacity ≤ handle.index →
    CallMove poisons t m (.removeLoad handle) m (.removeUnlock handle none)
  | removeStale (handle) : (m.data.slots handle.index).generation ≠ handle.generation →
    CallMove poisons t m (.removeLoad handle) m (.removeUnlock handle none)
  | removeLoad (handle) : handle.index < m.data.capacity →
    (m.data.slots handle.index).generation = handle.generation →
    CallMove poisons t m (.removeLoad handle) m (.removeStore handle)
  | removeStore (handle) :
    CallMove poisons t m (.removeStore handle) { m with data := m.data.retire handle }
      (.removeOwnerLock handle)
  | removeOwnerLock (handle) : m.owners handle.index = none →
    CallMove poisons t m (.removeOwnerLock handle)
      { m with owners := Function.update m.owners handle.index (some t) } (.removeTake handle)
  | removeTake (handle) :
    CallMove poisons t m (.removeTake handle)
      { m with data := m.data.takeOwner handle.index }
      (.removeOwnerUnlock handle (m.data.slots handle.index).owner)
  | removeOwnerUnlock (handle removed) :
    CallMove poisons t m (.removeOwnerUnlock handle removed) (m.unlockOwner handle.index)
      (.removeFree handle removed)
  | keep (handle) :
    CallMove poisons t m (.removeFree handle none) m (.removeUnlock handle none)
  | giveBack (handle runner) :
    CallMove poisons t m (.removeFree handle (some runner))
      (m.giveBack handle.index (some runner)) (.removeUnlock handle (some runner))
  | removeUnlock (handle removed) :
    CallMove poisons t m (.removeUnlock handle removed) (m.endRemove handle removed)
      (.removed removed)
  | snapshotLock : m.alloc = none → m.poisoned = false →
    CallMove poisons t m .snapshotLock { m with alloc := some t } (.snapshotSlot 0 [])
  | snapshotPoisoned : m.poisoned = true → CallMove poisons t m .snapshotLock m .panicked
  | snapshotSlot (i live) : i < m.data.nextUnused → m.owners i = none →
    CallMove poisons t m (.snapshotSlot i live)
      { m with owners := Function.update m.owners i (some t) } (.snapshotClone i live)
  | snapshotEnd (i live) : m.data.nextUnused ≤ i →
    CallMove poisons t m (.snapshotSlot i live) m (.snapshotUnlock live)
  | snapshotClone (i live) :
    CallMove poisons t m (.snapshotClone i live) m
      (.snapshotOwnerUnlock i (live ++ (m.data.slots i).owner.toList))
  | snapshotOwnerUnlock (i live) :
    CallMove poisons t m (.snapshotOwnerUnlock i live) (m.unlockOwner i)
      (.snapshotSlot (i + 1) live)
  | snapshotUnlock (live) :
    CallMove poisons t m (.snapshotUnlock live) m.unlockAlloc (.snapshot live)
  | countLock : m.alloc = none → m.poisoned = false →
    CallMove poisons t m .countLock { m with alloc := some t } .countRead
  | countPoisoned : m.poisoned = true → CallMove poisons t m .countLock m .panicked
  | countRead : CallMove poisons t m .countRead m (.countUnlock m.live)
  | countUnlock (live) : CallMove poisons t m (.countUnlock live) m.unlockAlloc (.counted live)

section
variable {poisons : Bool} {t : T} {m m' : Mem T R} {pc : Pc R}

theorem Mem.lockAlloc_cases {next : Pc R} (h : m.lockAlloc t next = some (m', pc)) :
    (m.poisoned = true ∧ m' = m ∧ pc = .panicked) ∨
      (m.alloc = none ∧ m.poisoned = false ∧ m' = { m with alloc := some t } ∧ pc = next) := by
  unfold Mem.lockAlloc at h
  split at h
  · cases h
  · split at h
    · cases h
      exact .inl ⟨‹_›, rfl, rfl⟩
    · cases h
      exact .inr ⟨‹_›, by simpa using ‹¬m.poisoned = true›, rfl, rfl⟩

theorem Mem.lockOwner_eq {i : Nat} {next : Pc R} (h : m.lockOwner t i next = some (m', pc)) :
    m.owners i = none ∧ m' = { m with owners := Function.update m.owners i (some t) } ∧
      pc = next := by
  unfold lockOwner at h
  split at h
  · cases h
  · rename_i ho
    cases h
    exact ⟨ho, rfl, rfl⟩

theorem callStep_move {pc' : Pc R} (h : callStep poisons t m pc = some (m', pc')) :
    CallMove poisons t m pc m' pc' := by
  cases pc with
  | idle | panicked | reserved | committed | removed | snapshot | counted => cases h
  | reserveLock =>
    obtain ⟨hp, rfl, rfl⟩ | ⟨ha, hp, rfl, rfl⟩ := Mem.lockAlloc_cases h
    · exact .reservePoisoned hp
    · exact .reserveLock ha hp
  | reservePop =>
    simp only [callStep] at h
    split at h
    · cases h
      exact .popFree _ _ ‹_›
    · split at h <;> cases h
      · exact .popFull ‹_› ‹_›
      · exact .popUnused ‹_› (Nat.lt_of_not_le ‹_›)
  | reserveLoad i =>
    cases h
    exact .reserveLoad i
  | reserveStore i generation =>
    cases h
    exact .reserveStore i generation
  | reserveLive n =>
    cases h
    exact .reserveLive n
  | reserveUnlock n =>
    cases h
    exact .reserveUnlock n
  | commitLock n runner =>
    simp only [callStep, Option.bind_eq_some_iff] at h
    obtain ⟨i, hi, h⟩ := h
    obtain ⟨ho, rfl, rfl⟩ := Mem.lockOwner_eq h
    exact .commitLock n runner i hi ho
  | commitStore n runner =>
    simp only [callStep, Option.map_eq_some_iff] at h
    obtain ⟨i, hi, h⟩ := h
    cases h
    exact .commitStore n runner i hi
  | commitUnlock n =>
    simp only [callStep, Option.map_eq_some_iff] at h
    obtain ⟨i, hi, h⟩ := h
    cases h
    exact .commitUnlock n i hi
  | lookupLoad lookup =>
    simp only [callStep] at h
    split at h
    · cases h
      exact .lookupPast lookup ‹_›
    · split at h <;> cases h
      · exact .lookupStale lookup ‹_›
      · exact .lookupLoad lookup (Nat.lt_of_not_le ‹_›) (Decidable.not_not.mp ‹_›)
  | lookupLock lookup =>
    obtain ⟨ho, rfl, rfl⟩ := Mem.lockOwner_eq h
    exact .lookupLock lookup ho
  | lookupRecheck lookup =>
    simp only [callStep] at h
    split at h <;> cases h
    · exact .recheckStale lookup ‹_›
    · exact .lookupRecheck lookup (Decidable.not_not.mp ‹_›)
  | lookupClone lookup =>
    cases h
    exact .lookupClone lookup
  | lookupUnlock lookup runner =>
    cases h
    cases runner with
    | none => exact .lookupNone lookup
    | some runner => exact .lookupSome lookup runner
  | deliver lookup runner =>
    cases h
    exact .deliver lookup runner
  | removeLock handle =>
    obtain ⟨hp, rfl, rfl⟩ | ⟨ha, hp, rfl, rfl⟩ := Mem.lockAlloc_cases h
    · exact .removePoisoned handle hp
    · exact .removeLock handle ha hp
  | removeLoad handle =>
    simp only [callStep] at h
    split at h
    · cases h
      exact .removePast handle ‹_›
    · split at h <;> cases h
      · exact .removeStale handle ‹_›
      · exact .removeLoad handle (Nat.lt_of_not_le ‹_›) (Decidable.not_not.mp ‹_›)
  | removeStore handle =>
    cases h
    exact .removeStore handle
  | removeOwnerLock handle =>
    obtain ⟨ho, rfl, rfl⟩ := Mem.lockOwner_eq h
    exact .removeOwnerLock handle ho
  | removeTake handle =>
    cases h
    exact .removeTake handle
  | removeOwnerUnlock handle removed =>
    cases h
    exact .removeOwnerUnlock handle removed
  | removeFree handle removed =>
    cases h
    cases removed with
    | none => exact .keep handle
    | some runner => exact .giveBack handle runner
  | removeUnlock handle removed =>
    cases h
    exact .removeUnlock handle removed
  | snapshotLock =>
    obtain ⟨hp, rfl, rfl⟩ | ⟨ha, hp, rfl, rfl⟩ := Mem.lockAlloc_cases h
    · exact .snapshotPoisoned hp
    · exact .snapshotLock ha hp
  | snapshotSlot i live =>
    simp only [callStep] at h
    split at h
    · obtain ⟨ho, rfl, rfl⟩ := Mem.lockOwner_eq h
      exact .snapshotSlot i live ‹_› ho
    · cases h
      exact .snapshotEnd i live (Nat.le_of_not_lt ‹_›)
  | snapshotClone i live =>
    cases h
    exact .snapshotClone i live
  | snapshotOwnerUnlock i live =>
    cases h
    exact .snapshotOwnerUnlock i live
  | snapshotUnlock live =>
    cases h
    exact .snapshotUnlock live
  | countLock =>
    obtain ⟨hp, rfl, rfl⟩ | ⟨ha, hp, rfl, rfl⟩ := Mem.lockAlloc_cases h
    · exact .countPoisoned hp
    · exact .countLock ha hp
  | countRead =>
    cases h
    exact .countRead
  | countUnlock live =>
    cases h
    exact .countUnlock live

end

/-! ## Methods -/

/-- Which method a thread is in, or that it holds a reservation, or neither. -/
inductive Method
  | rest
  | reserve
  | reserved (n : Nat)
  | commit (n : Nat)
  | lookup (lookup : Lookup)
  | remove (handle : Handle)
  | snapshot
  | count
  deriving DecidableEq

def Pc.method : Pc R → Method
  | .idle | .panicked | .committed _ | .removed _ | .snapshot _ | .counted _ => .rest
  | .reserveLock | .reservePop | .reserveLoad _ | .reserveStore .. | .reserveLive _
  | .reserveUnlock _ => .reserve
  | .reserved n => .reserved n
  | .commitLock n _ | .commitStore n _ | .commitUnlock n => .commit n
  | .lookupLoad lookup | .lookupLock lookup | .lookupRecheck lookup | .lookupClone lookup
  | .lookupUnlock lookup _ | .deliver lookup _ => .lookup lookup
  | .removeLock handle | .removeLoad handle | .removeStore handle | .removeOwnerLock handle
  | .removeTake handle | .removeOwnerUnlock handle _ | .removeFree handle _
  | .removeUnlock handle _ => .remove handle
  | .snapshotLock | .snapshotSlot .. | .snapshotClone .. | .snapshotOwnerUnlock ..
  | .snapshotUnlock _ => .snapshot
  | .countLock | .countRead | .countUnlock _ => .count

/-- Where a thread can stand when it returns from a method. -/
def Method.Returns : Method → Pc R → Prop
  | .rest, _ | .reserved _, _ => False
  | .reserve, pc => (∃ n, pc = .reserved n) ∨ pc = .panicked
  | .commit n, pc => pc = .committed n
  | .lookup _, pc => pc = .idle
  | .remove _, pc => (∃ removed, pc = .removed removed) ∨ pc = .panicked
  | .snapshot, pc => (∃ live, pc = .snapshot live) ∨ pc = .panicked
  | .count, pc => (∃ live, pc = .counted live) ∨ pc = .panicked

theorem Pc.method_of_atRest {pc : Pc R} (h : pc.atRest = true) : pc.method = .rest := by
  cases pc <;> first | rfl | cases h

theorem callStep_method {poisons : Bool} {t : T} {m m' : Mem T R} {pc pc' : Pc R}
    (h : callStep poisons t m pc = some (m', pc')) :
    pc'.method = pc.method ∨ pc.method.Returns pc' := by
  cases callStep_move h with
  | reservePoisoned | popFull | removePoisoned | snapshotPoisoned | countPoisoned =>
    exact .inr (.inr rfl)
  | reserveUnlock n => exact .inr (.inl ⟨n, rfl⟩)
  | commitUnlock | lookupPast | lookupStale | lookupNone | deliver => exact .inr rfl
  | removeUnlock handle removed => exact .inr (.inl ⟨removed, rfl⟩)
  | snapshotUnlock live | countUnlock live => exact .inr (.inl ⟨live, rfl⟩)
  | _ => exact .inl rfl

/-! ## Steps -/

/-- The thread that takes the step. -/
def Action.thread : Action T R → T
  | .reserve t | .commit t _ | .abandon t | .lookup t _ _ | .remove t _ | .snapshotLive t
  | .liveCount t | .call t => t

section
variable [DecidableEq T] {poisons : Bool} {s s' : State T R} {t : T}

theorem State.begin_eq_some {pc : Pc R} :
    s.begin t pc = some s' ↔ (s.pcs t).atRest = true ∧ s' = s.setPc t pc := by
  simp only [State.begin]
  split
  · rename_i hrest
    exact ⟨fun h => ⟨hrest, (Option.some.inj h).symm⟩, fun h => congrArg some h.2.symm⟩
  · rename_i hrest
    exact ⟨nofun, fun h => absurd h.1 hrest⟩

/-- What a step of the registry can be: a call begins or is given up, or goes on. -/
inductive Move (poisons : Bool) (s : State T R) : Action T R → State T R → Prop
  | reserve (t : T) : (s.pcs t).atRest = true → Move poisons s (.reserve t) (s.setPc t .reserveLock)
  | commit (t : T) (n runner) : s.pcs t = .reserved n →
    Move poisons s (.commit t runner) (s.setPc t (.commitLock n runner))
  | abandon (t : T) (n) : s.pcs t = .reserved n → Move poisons s (.abandon t) (s.setPc t .panicked)
  | lookup (t : T) (request) (handle : Handle) : (s.pcs t).atRest = true →
    Move poisons s (.lookup t request handle)
      (s.setPc t (.lookupLoad { handle with request, began := s.mem.data.reservations.length }))
  | remove (t : T) (n) {r : Reservation} : (s.pcs t).atRest = true →
    s.mem.data.reservations[n]? = some r →
    Move poisons s (.remove t n) (s.setPc t (.removeLock r.toHandle))
  | snapshotLive (t : T) : (s.pcs t).atRest = true →
    Move poisons s (.snapshotLive t) (s.setPc t .snapshotLock)
  | liveCount (t : T) : (s.pcs t).atRest = true →
    Move poisons s (.liveCount t) (s.setPc t .countLock)
  | call (t : T) {m pc} : CallMove poisons t s.mem (s.pcs t) m pc →
    Move poisons s (.call t) { s with mem := m, pcs := Function.update s.pcs t pc }

theorem step_move {a : Action T R} (h : step poisons s a = some s') : Move poisons s a s' := by
  cases a with
  | reserve t =>
    obtain ⟨hrest, rfl⟩ := State.begin_eq_some.mp h
    exact .reserve t hrest
  | commit t runner =>
    simp only [step] at h
    split at h <;> cases h
    exact .commit t _ runner ‹_›
  | abandon t =>
    simp only [step] at h
    split at h <;> cases h
    exact .abandon t _ ‹_›
  | lookup t request handle =>
    obtain ⟨hrest, rfl⟩ := State.begin_eq_some.mp h
    exact .lookup t request handle hrest
  | remove t n =>
    obtain ⟨r, hr, h⟩ := Option.bind_eq_some_iff.mp h
    obtain ⟨hrest, rfl⟩ := State.begin_eq_some.mp h
    exact .remove t n hrest hr
  | snapshotLive t =>
    obtain ⟨hrest, rfl⟩ := State.begin_eq_some.mp h
    exact .snapshotLive t hrest
  | liveCount t =>
    obtain ⟨hrest, rfl⟩ := State.begin_eq_some.mp h
    exact .liveCount t hrest
  | call t =>
    obtain ⟨⟨m, pc⟩, hcall, rfl⟩ := Option.map_eq_some_iff.mp h
    exact .call t (callStep_move hcall)

/-- A thread in the middle of a method can only go on with it. -/
theorem step_inside {a : Action T R} (h : step poisons s a = some s')
    (hrest : (s.pcs a.thread).atRest = false) (hreserved : ∀ n, s.pcs a.thread ≠ .reserved n) :
    ∃ m pc, CallMove poisons a.thread s.mem (s.pcs a.thread) m pc ∧
      s' = { s with mem := m, pcs := Function.update s.pcs a.thread pc } := by
  cases step_move h with
  | call t hcall => exact ⟨_, _, hcall, rfl⟩
  | commit t n runner hpc => exact absurd hpc (hreserved n)
  | abandon t n hpc => exact absurd hpc (hreserved n)
  | reserve t hr | lookup t _ _ hr | remove t _ hr | snapshotLive t hr | liveCount t hr =>
    cases hrest.symm.trans hr

theorem step_pcs_of_ne {a : Action T R} (h : step poisons s a = some s') {u : T}
    (hu : u ≠ a.thread) : s'.pcs u = s.pcs u := by
  cases step_move h <;> exact Function.update_of_ne hu ..

theorem step_call_method (h : step poisons s (.call t) = some s') :
    (s'.pcs t).method = (s.pcs t).method ∨ (s.pcs t).method.Returns (s'.pcs t) := by
  obtain ⟨⟨m, pc⟩, hcall, rfl⟩ := Option.map_eq_some_iff.mp h
  simp only [Function.update_self]
  exact callStep_method hcall

/-- A thread that commits took the reservation and the runner at the call. -/
theorem step_committing {a : Action T R} (h : step poisons s a = some s') {n : Nat} {r : R}
    (ht : s'.pcs t = .commitLock n r ∨ s'.pcs t = .commitStore n r) :
    (s.pcs t = .commitLock n r ∨ s.pcs t = .commitStore n r) ∨
      a = .commit t r ∧ s.pcs t = .reserved n := by
  by_cases hta : t = a.thread
  · cases step_move h with
    | commit u m runner hm =>
      cases hta
      simp only [State.setPc, Action.thread, Function.update_self, Pc.commitLock.injEq,
        reduceCtorEq, or_false] at ht
      obtain ⟨rfl, rfl⟩ := ht
      exact .inr ⟨rfl, hm⟩
    | call u hcall =>
      cases hta
      simp only [Action.thread, Function.update_self] at ht
      generalize hpc : s.pcs u = pc at hcall
      rcases ht with rfl | rfl <;> cases hcall
      exact .inl (.inl hpc)
    | _ =>
      cases hta
      simp [State.setPc, Action.thread] at ht
  · rw [step_pcs_of_ne h hta] at ht
    exact .inl ht

/-- What a step of thread `t` does to the slots and the reservations. -/
inductive DataMove (s : State T R) (t : T) (d' : Data R) : Prop
  | same : d'.slots = s.mem.data.slots → d'.reservations = s.mem.data.reservations →
    d'.runners = s.mem.data.runners → d'.outstanding = s.mem.data.outstanding → DataMove s t d'
  | reserve (i g : Nat) : s.pcs t = .reserveStore i g → d' = s.mem.data.reserve i g →
    DataMove s t d'
  | commit (n : Nat) (r : R) (i : Nat) : s.pcs t = .commitStore n r →
    s.mem.data.indexOf n = some i → d' = s.mem.data.commit n i r → DataMove s t d'
  | retire (handle : Handle) : s.pcs t = .removeStore handle → d' = s.mem.data.retire handle →
    DataMove s t d'
  | takeOwner (handle : Handle) : s.pcs t = .removeTake handle →
    d' = s.mem.data.takeOwner handle.index → DataMove s t d'
  | giveBack (handle : Handle) (r : R) : s.pcs t = .removeFree handle (some r) →
    d' = s.mem.data.giveBack handle.index → DataMove s t d'

theorem step_data {a : Action T R} (h : step poisons s a = some s') :
    DataMove s a.thread s'.mem.data := by
  cases step_move h with
  | call t hcall =>
    generalize hpc : s.pcs t = pc at hcall
    cases hcall with
    | reserveStore i g => exact .reserve i g hpc rfl
    | commitStore n r i hi => exact .commit n r i hpc hi rfl
    | removeStore handle => exact .retire handle hpc rfl
    | removeTake handle => exact .takeOwner handle hpc rfl
    | giveBack handle r => exact .giveBack handle r hpc rfl
    | removeUnlock handle removed => cases removed <;> exact .same rfl rfl rfl rfl
    | _ => exact .same rfl rfl rfl rfl
  | _ => exact .same rfl rfl rfl rfl

end

end DignusActor.Registry
