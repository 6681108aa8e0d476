import DignusActor.Machine.Atomic

/-! # The signal of a dispatcher

The model of `Signal` (`signal.rs`): a flag under a mutex, and a condition variable. Any number of
threads call `wait` and `release`. A wait on the condition variable gives the mutex back, and ends
by a `notify_one`, which may choose any of those that wait, or for no reason at all.

Nothing of this is seen from outside: each call takes effect at one instant, a `release` where it
sets the flag and a `wait` where it takes it back (`signal_linearizable`), so the model of the
dispatcher takes each for one step; and nobody sleeps on a flag that is set unless somebody is about
to look at it or to notify. -/

namespace DignusActor.Signal

/-- Where a thread stands in `wait` or `release`. -/
inductive Pc
  | idle
  /-- At the lock of the mutex: on the way in, or woken. -/
  | waitLock
  /-- At the test of the loop, with the mutex. -/
  | waitTest
  /-- In the wait on the condition variable. -/
  | asleep
  | waitClear
  | waitUnlock
  | releaseLock
  | releaseSet
  | releaseNotify
  | releaseUnlock
  deriving DecidableEq

structure State (T : Type) where
  isSignaled : Bool
  mutex : Option T
  /-- The threads in the wait on the condition variable. -/
  sleepers : List T
  pcs : T → Pc

/-- `Signal::new`. -/
def new (T : Type) : State T where
  isSignaled := false
  mutex := none
  sleepers := []
  pcs := fun _ => .idle

inductive Action (T : Type)
  | wait (t : T)
  | release (t : T)
  /-- A step of a call; a `notify_one` wakes the sleeper at place `i`. -/
  | call (t : T) (i : Nat)
  /-- The wait on the condition variable ends by itself. -/
  | wakeUp (t : T)
  deriving DecidableEq

section
variable {T : Type} [DecidableEq T]

namespace State

variable (s : State T)

def setPc (t : T) (pc : Pc) : State T := { s with pcs := Function.update s.pcs t pc }

def lock (t : T) (pc : Pc) : Option (State T) :=
  match s.mutex with
  | some _ => none
  | none => some { s.setPc t pc with mutex := some t }

def unlock (t : T) (pc : Pc) : State T := { s.setPc t pc with mutex := none }

/-- Thread `t` is woken. -/
def wake (t : T) : State T := { s.setPc t .waitLock with sleepers := s.sleepers.erase t }

end State

/-- The next step of thread `t`. -/
def callStep (s : State T) (t : T) (i : Nat) : Pc → Option (State T)
  | .idle | .asleep => none
  | .waitLock => s.lock t .waitTest
  | .waitTest =>
    if s.isSignaled then some (s.setPc t .waitClear)
    else some { s.unlock t .asleep with sleepers := s.sleepers ++ [t] }
  | .waitClear => some { s.setPc t .waitUnlock with isSignaled := false }
  | .waitUnlock => some (s.unlock t .idle)
  | .releaseLock => s.lock t .releaseSet
  | .releaseSet => some { s.setPc t .releaseNotify with isSignaled := true }
  | .releaseNotify =>
    match s.sleepers with
    | [] => some (s.setPc t .releaseUnlock)
    | _ :: _ => (s.sleepers[i]?).map fun u => (s.wake u).setPc t .releaseUnlock
  | .releaseUnlock => some (s.unlock t .idle)

def step (s : State T) : Action T → Option (State T)
  | .wait t => if s.pcs t = .idle then some (s.setPc t .waitLock) else none
  | .release t => if s.pcs t = .idle then some (s.setPc t .releaseLock) else none
  | .call t i => callStep s t i (s.pcs t)
  | .wakeUp t => if s.pcs t = .asleep then some (s.wake t) else none

def machine (T : Type) [DecidableEq T] : Machine (State T) (Action T) where
  Init s := s = new T
  step := step

/-! ## What one step can do -/

/-- The steps, with what each found and what it changed. -/
inductive Move (s : State T) : Action T → State T → Prop
  | wait (t) : s.pcs t = .idle → Move s (.wait t) (s.setPc t .waitLock)
  | release (t) : s.pcs t = .idle → Move s (.release t) (s.setPc t .releaseLock)
  | wakeUp (t) : s.pcs t = .asleep → Move s (.wakeUp t) (s.wake t)
  | waitLock (t i) : s.pcs t = .waitLock → s.mutex = none →
    Move s (.call t i) { s.setPc t .waitTest with mutex := some t }
  | releaseLock (t i) : s.pcs t = .releaseLock → s.mutex = none →
    Move s (.call t i) { s.setPc t .releaseSet with mutex := some t }
  | signaled (t i) : s.pcs t = .waitTest → s.isSignaled = true →
    Move s (.call t i) (s.setPc t .waitClear)
  | sleep (t i) : s.pcs t = .waitTest → s.isSignaled = false →
    Move s (.call t i) { s.unlock t .asleep with sleepers := s.sleepers ++ [t] }
  | waitClear (t i) : s.pcs t = .waitClear →
    Move s (.call t i) { s.setPc t .waitUnlock with isSignaled := false }
  | releaseSet (t i) : s.pcs t = .releaseSet →
    Move s (.call t i) { s.setPc t .releaseNotify with isSignaled := true }
  | notifyNone (t i) : s.pcs t = .releaseNotify → s.sleepers = [] →
    Move s (.call t i) (s.setPc t .releaseUnlock)
  | notify (t u i) : s.pcs t = .releaseNotify → u ∈ s.sleepers →
    Move s (.call t i) ((s.wake u).setPc t .releaseUnlock)
  | unlock (t i) : s.pcs t = .waitUnlock ∨ s.pcs t = .releaseUnlock →
    Move s (.call t i) (s.unlock t .idle)

variable {s s' : State T} {a : Action T} {t u : T}

theorem State.lock_eq_some {pc : Pc} (h : s.lock t pc = some s') :
    s.mutex = none ∧ s' = { s.setPc t pc with mutex := some t } := by
  unfold lock at h
  split at h
  · cases h
  · rename_i hfree
    exact ⟨hfree, (Option.some.inj h).symm⟩

theorem step_move (h : step s a = some s') : Move s a s' := by
  cases a with
  | wait t =>
    simp only [step] at h
    split at h <;> cases h
    exact .wait t ‹_›
  | release t =>
    simp only [step] at h
    split at h <;> cases h
    exact .release t ‹_›
  | wakeUp t =>
    simp only [step] at h
    split at h <;> cases h
    exact .wakeUp t ‹_›
  | call t i =>
    simp only [step] at h
    cases hpc : s.pcs t <;> rw [hpc] at h <;> simp only [callStep] at h
    case waitLock =>
      obtain ⟨hfree, rfl⟩ := State.lock_eq_some h
      exact .waitLock t i hpc hfree
    case releaseLock =>
      obtain ⟨hfree, rfl⟩ := State.lock_eq_some h
      exact .releaseLock t i hpc hfree
    case waitTest =>
      split at h <;> cases h
      · exact .signaled t i hpc ‹_›
      · exact .sleep t i hpc (Bool.eq_false_iff.mpr ‹_›)
    case releaseNotify =>
      split at h
      · cases h
        exact .notifyNone t i hpc ‹_›
      · obtain ⟨u, hu, rfl⟩ := Option.map_eq_some_iff.mp h
        exact .notify t u i hpc (List.mem_of_getElem? hu)
    case idle | asleep => cases h
    case waitClear =>
      cases h
      exact .waitClear t i hpc
    case releaseSet =>
      cases h
      exact .releaseSet t i hpc
    case waitUnlock =>
      cases h
      exact .unlock t i (.inl hpc)
    case releaseUnlock =>
      cases h
      exact .unlock t i (.inr hpc)

end

/-! ## The invariant -/

namespace Pc

/-- With the mutex. -/
def locked : Pc → Bool
  | .waitTest | .waitClear | .waitUnlock | .releaseSet | .releaseNotify | .releaseUnlock => true
  | _ => false

/-- About to look at the flag, or to take it back. -/
def willTest : Pc → Bool
  | .waitLock | .waitTest | .waitClear => true
  | _ => false

end Pc

/-- Somebody is about to look at the flag, or to notify. -/
def State.Attended {T : Type} (s : State T) : Prop :=
  ∃ t, (s.pcs t).willTest = true ∨ s.pcs t = .releaseNotify

structure Inv {T : Type} (s : State T) : Prop where
  mutex : ∀ t, (s.pcs t).locked = true ↔ s.mutex = some t
  asleep : ∀ t, s.pcs t = .asleep ↔ t ∈ s.sleepers
  nodup : s.sleepers.Nodup
  clear : ∀ t, s.pcs t = .waitClear → s.isSignaled = true
  attended : s.isSignaled = true → s.sleepers = [] ∨ s.Attended

section
variable {T : Type} [DecidableEq T] {s s' : State T} {a : Action T} {t u : T} {pc : Pc}

/-- What holds of each thread holds when one has moved. -/
theorem forall_update {P : T → Pc → Prop} (h : ∀ u, u ≠ t → P u (s.pcs u)) (ht : P t pc) (u : T) :
    P u (Function.update s.pcs t pc u) := by
  by_cases hut : u = t
  · subst hut
    rwa [Function.update_self]
  · rw [Function.update_of_ne hut]
    exact h u hut

omit [DecidableEq T] in
theorem Inv.unlocked_of_ne (H : Inv s) (ht : (s.pcs t).locked = true) (hu : u ≠ t) :
    (s.pcs u).locked = false := by
  by_contra hlocked
  have hmutex := (H.mutex u).mp (by simpa using hlocked)
  rw [(H.mutex t).mp ht] at hmutex
  exact hu (Option.some.inj hmutex).symm

theorem State.Attended.setPc (h : s.Attended)
    (ht : (s.pcs t).willTest = false ∧ s.pcs t ≠ .releaseNotify ∨
      pc.willTest = true ∨ pc = .releaseNotify) : (s.setPc t pc).Attended := by
  obtain ⟨u, hu⟩ := h
  by_cases hut : u = t
  · subst hut
    refine ⟨u, ?_⟩
    simp only [State.setPc, Function.update_self]
    rcases ht with ⟨htest, hnotify⟩ | ht
    · rcases hu with hu | hu
      · cases htest.symm.trans hu
      · exact absurd hu hnotify
    · exact ht
  · exact ⟨u, by simpa [State.setPc, Function.update_of_ne hut] using hu⟩

theorem State.Attended.of_setPc (h : pc.willTest = true ∨ pc = .releaseNotify) :
    (s.setPc t pc).Attended :=
  ⟨t, by simpa [State.setPc] using h⟩

/-- A thread that keeps the mutex, or stays without it, moves on. -/
theorem Inv.setPc (H : Inv s) (hlocked : pc.locked = (s.pcs t).locked)
    (hasleep : s.pcs t ≠ .asleep ∧ pc ≠ .asleep) (hclear : pc = .waitClear → s.isSignaled = true)
    (hattended : s.isSignaled = true → s.sleepers = [] ∨ (s.setPc t pc).Attended) :
    Inv (s.setPc t pc) where
  mutex := forall_update (P := fun u pc => pc.locked = true ↔ s.mutex = some u)
    (fun u _ => H.mutex u) (by rw [hlocked]; exact H.mutex t)
  asleep := forall_update (P := fun u pc => pc = .asleep ↔ u ∈ s.sleepers)
    (fun u _ => H.asleep u) (iff_of_false hasleep.2 fun h => hasleep.1 ((H.asleep t).mpr h))
  nodup := H.nodup
  clear := forall_update (P := fun _ pc => pc = .waitClear → s.isSignaled = true)
    (fun u _ => H.clear u) hclear
  attended := hattended

/-- A thread takes the mutex. -/
theorem Inv.lock (H : Inv s) (hfree : s.mutex = none) (hlocked : pc.locked = true)
    (hasleep : s.pcs t ≠ .asleep ∧ pc ≠ .asleep) (hclear : pc ≠ .waitClear)
    (htest : (s.pcs t).willTest = true → pc.willTest = true)
    (hnotify : s.pcs t ≠ .releaseNotify) : Inv { s.setPc t pc with mutex := some t } where
  mutex := by
    refine forall_update (P := fun u pc => pc.locked = true ↔ some t = some u)
      (fun u hu => iff_of_false ?_ fun h => hu (Option.some.inj h).symm) (iff_of_true hlocked rfl)
    rw [H.mutex, hfree]
    nofun
  asleep := forall_update (P := fun u pc => pc = .asleep ↔ u ∈ s.sleepers)
    (fun u _ => H.asleep u) (iff_of_false hasleep.2 fun h => hasleep.1 ((H.asleep t).mpr h))
  nodup := H.nodup
  clear := forall_update (P := fun _ pc => pc = .waitClear → s.isSignaled = true)
    (fun u _ => H.clear u) fun h => absurd h hclear
  attended hs := (H.attended hs).imp_right fun hatt => by
    refine State.Attended.setPc hatt ?_
    cases hold : (s.pcs t).willTest with
    | false => exact .inl ⟨rfl, hnotify⟩
    | true => exact .inr (.inl (htest hold))

/-- The thread that has the mutex gives it back. -/
theorem Inv.unlock (H : Inv s) (ht : (s.pcs t).locked = true) (hlocked : pc.locked = false)
    {sleepers : List T} (hasleep : ∀ u, u ≠ t → (u ∈ sleepers ↔ u ∈ s.sleepers))
    (hself : pc = .asleep ↔ t ∈ sleepers) (hnodup : sleepers.Nodup)
    (hattended : s.isSignaled = true → sleepers = [] ∨ (s.setPc t pc).Attended) :
    Inv { s.unlock t pc with sleepers } where
  mutex := by
    refine forall_update (P := fun u pc => pc.locked = true ↔ none = some u)
      (fun u hu => iff_of_false ?_ nofun) (iff_of_false (by simp [hlocked]) nofun)
    rw [H.unlocked_of_ne ht hu]
    nofun
  asleep := forall_update (P := fun u pc => pc = .asleep ↔ u ∈ sleepers)
    (fun u hu => (H.asleep u).trans (hasleep u hu).symm) hself
  nodup := hnodup
  clear := forall_update (P := fun _ pc => pc = .waitClear → s.isSignaled = true)
    (fun u _ => H.clear u) fun h => by
      rw [h] at hlocked
      cases hlocked
  attended := hattended

theorem Inv.wake (H : Inv s) (hu : s.pcs u = .asleep) : Inv (s.wake u) where
  mutex := by
    refine forall_update (P := fun v pc => pc.locked = true ↔ s.mutex = some v)
      (fun v _ => H.mutex v) (iff_of_false nofun fun h => ?_)
    have hlocked := (H.mutex u).mpr h
    rw [hu] at hlocked
    cases hlocked
  asleep := forall_update (P := fun v pc => pc = .asleep ↔ v ∈ s.sleepers.erase u)
    (fun v hv => by rw [H.asleep, List.mem_erase_of_ne hv])
    (iff_of_false nofun fun h => H.nodup.not_mem_erase h)
  nodup := H.nodup.erase u
  clear := forall_update (P := fun _ pc => pc = .waitClear → s.isSignaled = true)
    (fun v _ => H.clear v) nofun
  attended _ := .inr (.of_setPc (.inl rfl))

/-- The thread with the mutex writes the flag. -/
theorem Inv.write (H : Inv s) {b : Bool} (ht : (s.pcs t).locked = true)
    (hlocked : pc.locked = true) (hclear : pc ≠ .waitClear)
    (hattended : b = true → (s.setPc t pc).Attended) :
    Inv { s.setPc t pc with isSignaled := b } where
  mutex := forall_update (P := fun u pc => pc.locked = true ↔ s.mutex = some u)
    (fun u _ => H.mutex u) (iff_of_true hlocked ((H.mutex t).mp ht))
  asleep := forall_update (P := fun u pc => pc = .asleep ↔ u ∈ s.sleepers)
    (fun u _ => H.asleep u) (iff_of_false (fun h => by rw [h] at hlocked; cases hlocked) fun h => by
      rw [(H.asleep t).mpr h] at ht
      cases ht)
  nodup := H.nodup
  clear := by
    refine forall_update (P := fun _ pc => pc = .waitClear → b = true) (fun u hu h => ?_)
      fun h => absurd h hclear
    -- nobody else is past the loop
    have hfalse := H.unlocked_of_ne ht hu
    rw [h] at hfalse
    cases hfalse
  attended hb := .inr (hattended hb)

theorem Inv.step (H : Inv s) (h : Signal.step s a = some s') : Inv s' := by
  cases step_move h with
  | wait t hpc =>
    exact H.setPc (by rw [hpc]; rfl) ⟨by simp [hpc], nofun⟩ nofun
      fun hs => .inr (.of_setPc (.inl rfl))
  | release t hpc =>
    refine H.setPc (by rw [hpc]; rfl) ⟨by simp [hpc], nofun⟩ nofun fun hs => ?_
    exact (H.attended hs).imp_right fun hatt => hatt.setPc (.inl ⟨by rw [hpc]; rfl, by simp [hpc]⟩)
  | wakeUp t hpc => exact H.wake hpc
  | waitLock t i hpc hfree =>
    exact H.lock hfree rfl ⟨by simp [hpc], nofun⟩ nofun (fun _ => rfl) (by simp [hpc])
  | releaseLock t i hpc hfree =>
    exact H.lock hfree rfl ⟨by simp [hpc], nofun⟩ nofun (by simp [hpc, Pc.willTest]) (by simp [hpc])
  | signaled t i hpc hs =>
    exact H.setPc (by rw [hpc]; rfl) ⟨by simp [hpc], nofun⟩ (fun _ => hs)
      fun _ => .inr (.of_setPc (.inl rfl))
  | sleep t i hpc hs =>
    have hnot : t ∉ s.sleepers := fun hmem => by
      have hasleep := (H.asleep t).mpr hmem
      rw [hpc] at hasleep
      cases hasleep
    refine H.unlock (by rw [hpc]; rfl) rfl (fun u hu => ?_) (by simp) ?_ fun htrue => ?_
    · simp [hu]
    · exact List.nodup_append.mpr ⟨H.nodup, List.nodup_singleton t, fun u hu v hv heq =>
        hnot (List.mem_singleton.mp hv ▸ heq ▸ hu)⟩
    · cases hs.symm.trans htrue
  | waitClear t i hpc => exact H.write (by rw [hpc]; rfl) rfl nofun nofun
  | releaseSet t i hpc =>
    exact H.write (by rw [hpc]; rfl) rfl nofun fun _ => .of_setPc (.inr rfl)
  | notifyNone t i hpc hnone =>
    exact H.setPc (by rw [hpc]; rfl) ⟨by simp [hpc], nofun⟩ nofun fun _ => .inl hnone
  | notify t u i hpc hu =>
    have hasleep := (H.asleep u).mpr hu
    have hne : t ≠ u := fun heq => by
      rw [heq, hasleep] at hpc
      cases hpc
    have hpc' : (s.wake u).pcs t = .releaseNotify := by
      simpa [State.wake, State.setPc, Function.update_of_ne hne] using hpc
    refine (H.wake hasleep).setPc (by rw [hpc']; rfl) ⟨by simp [hpc'], nofun⟩ nofun fun _ => .inr ?_
    exact ⟨u, .inl (by simp [State.wake, State.setPc, Function.update_of_ne hne.symm, Pc.willTest])⟩
  | unlock t i hpc =>
    have hlocked : (s.pcs t).locked = true := by rcases hpc with hpc | hpc <;> rw [hpc] <;> rfl
    refine H.unlock hlocked rfl (fun _ _ => Iff.rfl) (iff_of_false nofun fun hmem => ?_) H.nodup
      fun hs => (H.attended hs).imp_right fun hatt => hatt.setPc (.inl ?_)
    · rw [(H.asleep t).mpr hmem] at hlocked
      cases hlocked
    · rcases hpc with hpc | hpc <;> rw [hpc] <;> exact ⟨rfl, nofun⟩

theorem inv_of_reach {ok : State T → Action T → Prop} (h : (machine T).Reach ok s) : Inv s := by
  refine h.inv Inv ?_ fun H _ hs => H.step hs
  rintro _ rfl
  exact ⟨fun _ => iff_of_false nofun nofun, fun _ => iff_of_false nofun nofun, .nil, fun _ => nofun,
    nofun⟩

end

/-! ## The calls, from outside -/

inductive Input
  | wait
  | release
  deriving DecidableEq, Repr

/-- A `release` sets the flag, and a `wait` takes it back. -/
inductive Takes : Bool → Input → Unit → Bool → Prop
  | wait : Takes true .wait () false
  | release (isSet : Bool) : Takes isSet .release () true

def autoReset : Object Bool Input Unit where
  Init s := s = false
  Apply := Takes

/-- The call that the thread is in, and whether it has taken effect. -/
def Pc.phase : Pc → Object.Phase Input Unit
  | .idle => .idle
  | .waitLock | .waitTest | .asleep | .waitClear => .called .wait
  | .releaseLock | .releaseSet => .called .release
  | .waitUnlock | .releaseNotify | .releaseUnlock => .done ()

section
variable {T : Type} [DecidableEq T] {s s' : State T} {a : Action T} {t : T} {pc : Pc}
  {h : List (Object.Event T Input Unit)}

/-- The calls and returns of a step. -/
def events (s : State T) (a : Action T) (_ : State T) : List (Object.Event T Input Unit) :=
  match a with
  | .wait t => [.call t .wait]
  | .release t => [.call t .release]
  | .call t _ => match s.pcs t with
    | .waitUnlock | .releaseUnlock => [.ret t ()]
    | _ => []
  | .wakeUp _ => []

/-- The flag, and where the threads stand in their calls. -/
def State.Shows (s : State T) (b : Bool) (p : T → Object.Phase Input Unit) : Prop :=
  b = s.isSignaled ∧ p = fun t => (s.pcs t).phase

theorem phase_update (t : T) (pc : Pc) : (fun u => (Function.update s.pcs t pc u).phase) =
    Function.update (fun u => (s.pcs u).phase) t pc.phase := by
  funext u
  by_cases hut : u = t
  · subst hut
    simp
  · simp [Function.update_of_ne hut]

theorem phase_of_eq (hpc : pc.phase = (s.pcs t).phase) :
    (fun u => (Function.update s.pcs t pc u).phase) = fun u => (s.pcs u).phase := by
  rw [phase_update, hpc, Function.update_eq_self]

theorem State.Shows.step (H : Inv s) (hs : Signal.step s a = some s') {b : Bool}
    {p : T → Object.Phase Input Unit} (hshows : s.Shows b p) (hatomic : autoReset.Atomic b p h) :
    ∃ b' p', autoReset.Atomic b' p' (h ++ events s a s') ∧ s'.Shows b' p' := by
  obtain ⟨rfl, rfl⟩ := hshows
  -- a step that is not seen
  have hquiet {t : T} {i : Nat} (hpc : s.pcs t ≠ .waitUnlock ∧ s.pcs t ≠ .releaseUnlock) :
      autoReset.Atomic s.isSignaled (fun u => (s.pcs u).phase) (h ++ events s (.call t i) s') := by
    have hnone : events s (.call t i) s' = [] := by
      simp only [events]
      split
      · exact absurd ‹_› hpc.1
      · exact absurd ‹_› hpc.2
      · rfl
    rwa [hnone, List.append_nil]
  cases step_move hs with
  | wait t hpc =>
    exact ⟨_, _, .call t .wait hatomic (by rw [hpc]; rfl), rfl, (phase_update t _).symm⟩
  | release t hpc =>
    exact ⟨_, _, .call t .release hatomic (by rw [hpc]; rfl), rfl, (phase_update t _).symm⟩
  | wakeUp t hpc =>
    refine ⟨_, _, ?_, rfl, (phase_of_eq (by rw [hpc]; rfl)).symm⟩
    rwa [events, List.append_nil]
  | waitLock t i hpc | releaseLock t i hpc | signaled t i hpc | sleep t i hpc =>
    exact ⟨_, _, hquiet (by simp [hpc]), rfl, (phase_of_eq (by rw [hpc]; rfl)).symm⟩
  | notifyNone t i hpc =>
    exact ⟨_, _, hquiet (by simp [hpc]), rfl, (phase_of_eq (by rw [hpc]; rfl)).symm⟩
  | notify t u i hpc hu =>
    refine ⟨_, _, hquiet (by simp [hpc]), rfl, ?_⟩
    have hasleep := (H.asleep u).mpr hu
    have hne : t ≠ u := fun heq => by
      rw [heq, hasleep] at hpc
      cases hpc
    have hwake : (fun v => ((s.wake u).pcs v).phase) = fun v => (s.pcs v).phase :=
      phase_of_eq (by rw [hasleep]; rfl)
    have hpc' : (s.wake u).pcs t = .releaseNotify := by
      simpa [State.wake, State.setPc, Function.update_of_ne hne] using hpc
    exact (hwake.symm.trans (phase_of_eq (by rw [hpc']; rfl)).symm)
  | waitClear t i hpc =>
    have htake : Takes s.isSignaled .wait () false := by
      rw [H.clear t hpc]
      exact .wait
    exact ⟨_, _, .effect t () (hquiet (by simp [hpc])) (by rw [hpc]; rfl) htake, rfl,
      (phase_update t .waitUnlock).symm⟩
  | releaseSet t i hpc =>
    exact ⟨_, _, .effect t () (hquiet (by simp [hpc])) (by rw [hpc]; rfl) (.release _), rfl,
      (phase_update t .releaseNotify).symm⟩
  | unlock t i hpc =>
    refine ⟨_, _, ?_, rfl, (phase_update t .idle).symm⟩
    rcases hpc with hpc | hpc
    all_goals
      simp only [events, hpc]
      exact .ret t () hatomic (by rw [hpc]; rfl)

/-- The thread that has the mutex can go on; while nobody has it, who waits for it can. -/
theorem Inv.exists_step (H : Inv s) (ht : s.pcs t ≠ .idle ∧ s.pcs t ≠ .asleep) :
    ∃ u s', Signal.step s (.call u 0) = some s' := by
  cases hmutex : s.mutex with
  | some u =>
    refine ⟨u, Option.isSome_iff_exists.mp ?_⟩
    have hlocked := (H.mutex u).mpr hmutex
    simp only [Signal.step]
    cases hpc : s.pcs u with
    | idle | asleep | waitLock | releaseLock => simp [hpc, Pc.locked] at hlocked
    | waitTest =>
      simp only [callStep]
      split <;> rfl
    | releaseNotify =>
      simp only [callStep]
      split
      · rfl
      · simp [*]
    | waitClear | waitUnlock | releaseSet | releaseUnlock => rfl
  | none =>
    refine ⟨t, Option.isSome_iff_exists.mp ?_⟩
    have hfree : ¬(s.pcs t).locked = true := by
      rw [H.mutex, hmutex]
      nofun
    simp only [Signal.step]
    cases hpc : s.pcs t with
    | idle => exact absurd hpc ht.1
    | asleep => exact absurd hpc ht.2
    | waitLock | releaseLock => simp [callStep, State.lock, hmutex]
    | _ => simp [hpc, Pc.locked] at hfree

/-- **The signal is an auto-reset flag.** In every run of any threads, the calls of `wait` and
`release` take effect one after the other, each `release` by setting the flag and each `wait` by
taking it back; while the flag is set, somebody sleeps only if somebody is about to look at the flag
or to notify; and a call is stuck only in the wait on the condition variable. -/
theorem signal_linearizable (H : (machine T).Traced Machine.free events s h) :
    autoReset.Linearizable h ∧
      (s.isSignaled = true → (∃ t, s.pcs t = .asleep) → s.Attended) ∧
      ((∃ t, s.pcs t ≠ .idle ∧ s.pcs t ≠ .asleep) →
        ∃ u s', (machine T).step s (.call u 0) = some s') := by
  have hinv := inv_of_reach H.reach
  obtain ⟨b, p, hatomic, -⟩ := H.simulates State.Shows
    (fun hs => ⟨false, rfl, by subst hs; exact ⟨rfl, rfl⟩⟩)
    fun hreach hshows _ hs hatomic => hshows.step (inv_of_reach hreach) hs hatomic
  refine ⟨hatomic.toLinearizable, fun hs ⟨t, ht⟩ => ?_, fun ⟨t, ht⟩ => hinv.exists_step ht⟩
  refine (hinv.attended hs).resolve_left fun hnone => ?_
  have hmem := (hinv.asleep t).mp ht
  rw [hnone] at hmem
  cases hmem

end

/-! ## A run -/

/-- Threads 0 and 1 wait. Thread 2 releases twice before any of them looks: the flag is set once,
and one of the two sleeps on. -/
def twoSleepers : List (Action Nat) :=
  [.wait 0, .call 0 0, .call 0 0, .wait 1, .call 1 0, .call 1 0, .release 2] ++
    List.replicate 4 (.call 2 1) ++ .release 2 :: List.replicate 4 (.call 2 0) ++
    List.replicate 4 (.call 1 0) ++ List.replicate 2 (.call 0 0)

theorem signal_linearizable_twoSleepers :
    autoReset.Linearizable ((machine Nat).trace events (new Nat) twoSleepers) ∧
      ((machine Nat).run (new Nat) twoSleepers).map (fun s => (s.isSignaled, s.sleepers)) =
        some (false, [0]) := by
  refine ⟨(signal_linearizable (.get rfl ?_ ?_)).1, ?_⟩
  · exact .of_forall (fun _ _ _ => trivial) _
  · decide
  · decide

example : (machine Nat).trace events (new Nat) twoSleepers =
    [.call 0 .wait, .call 1 .wait, .call 2 .release, .ret 2 (), .call 2 .release, .ret 2 (),
      .ret 1 ()] := by
  decide

end DignusActor.Signal
