import DignusActor.Runner.Moves

/-! # What `is_scheduled` promises

A thread that finds `is_scheduled` set leaves the actor to somebody else. `State.Due` lists who that
can be: an entry in a queue, an armed receive future, a post or kill about to push an entry, or a
worker that has yet to look at the lifecycle for the last time. `ServedInv` says that the promise is
kept while no dispatcher stops and the dead-letter callback returns, up to the gap at the end of
`execute`: a worker between its last look at the lifecycle and the store that clears the flag. -/

namespace DignusActor.ActorRunner

variable {D T M F : Type}

/-- No dispatcher is stopped, and the dead-letter callback does not panic. -/
def Served (s : State D T M F) : Action D T M F → Prop
  | .stop _ => False
  | .worker d .panicked => ∀ part, s.workers d ≠ .publish part
  | _ => True

instance (s : State D T M F) : ∀ a, Decidable (Served s a)
  | .stop _ => .isFalse id
  | .worker d .panicked => by
    cases h : s.workers d with
    | publish part => exact .isFalse fun hno => hno part h
    | _ => exact .isTrue fun _ hpc => by cases h.symm.trans hpc
  | .post _ _ | .kill _ | .wake _ _ _ | .caller _ | .pick _ | .worker _ .done
  | .worker _ (.pending _) => .isTrue trivial

/-- The worker will look at the lifecycle again, push an entry, or leave a future armed. -/
def WorkerPc.WillRun : WorkerPc M F → Prop
  | .idle | .dead | .clearScheduled | .peek | .reschedule => False
  | _ => True

/-- The worker has swapped the lifecycle to `STOPPED` in `finalize_kill`. -/
def WorkerPc.Finalizing : WorkerPc M F → Prop
  | .drain | .clearSlot | .clearActive | .clearUnmark | .callOnKill | .onKill | .onFinalize => True
  | _ => False

/-- The caller is a post or a kill on its way to push an entry. -/
def CallerPc.Pushing : CallerPc D M → Prop
  | .schedule origin _ _ => origin ≠ .waker
  | _ => False

/-- Somebody is due to run the actor. -/
inductive State.Due (s : State D T M F) : Prop
  | entry (d : D) : s.mem.queue d ≠ [] → s.Due
  | future : s.mem.slot.isSome = true → s.Due
  | caller (t : T) : (s.callers t).Pushing → s.Due
  | worker (d : D) : (s.workers d).WillRun → s.Due

structure ServedInv (s : State D T M F) : Prop where
  stopped : ∀ d, s.mem.stopped d = false
  finalizing : ∀ d, (s.workers d).Finalizing → s.mem.lifecycle = .stopped
  scheduled : s.mem.lifecycle ≠ .stopped → s.mem.isScheduled = true →
    s.Due ∨ ∃ d, s.workers d = .clearScheduled

variable [DecidableEq D] [DecidableEq T]

/-! ## What one thread does -/

section
variable {owner d : D} {t : T} {o : Outcome F} {m m' : Shared D T M F}

theorem callerStep_lifecycle {pc pc' : CallerPc D M}
    (h : callerStep owner t m pc = some (m', pc')) :
    m'.lifecycle = m.lifecycle ∨
      m.lifecycle = .running ∧ m'.lifecycle = .killing ∧ pc' = .killSwap := by
  cases callerStep_move h with
  | killRunning hrun => exact .inr ⟨hrun, rfl, rfl⟩
  | _ => exact .inl rfl

/-- A caller that sets `is_scheduled`, or is about to push, pushes an entry. -/
theorem callerStep_pushing {pc pc' : CallerPc D M} (hstop : ∀ d, m.stopped d = false)
    (h : callerStep owner t m pc = some (m', pc')) :
    (m'.isScheduled = m.isScheduled ∨ pc'.Pushing) ∧
      (pc.Pushing → pc'.Pushing ∨ ∃ d, m'.queue d ≠ []) := by
  cases callerStep_move h with
  | postSwap | killSwap => exact ⟨.inr nofun, False.elim⟩
  | dropEntry _ dest hdest =>
    rw [hstop dest] at hdest
    cases hdest
  | checkEntry => exact ⟨.inl rfl, .inl⟩
  | pushEntry _ dest => exact ⟨.inl rfl, fun _ => .inr ⟨dest, by simp [Shared.push]⟩⟩
  | _ => exact ⟨.inl rfl, False.elim⟩

/-- A caller only adds entries. -/
theorem callerStep_queue {pc pc' : CallerPc D M} (h : callerStep owner t m pc = some (m', pc'))
    {d' : D} (hq : m.queue d' ≠ []) : m'.queue d' ≠ [] := by
  cases callerStep_move h with
  | pushEntry origin dest =>
    by_cases hd : d' = dest
    · subst hd
      simp [Shared.push]
    · simpa [Shared.push, hd] using hq
  | _ => exact hq

variable {pc pc' : WorkerPc M F}

/-- The lifecycle moves from `RUNNING` to `KILLING` and to `STOPPED`. -/
theorem workerStep_lifecycle (h : workerStep owner d m o pc = some (m', pc')) :
    m'.lifecycle = m.lifecycle ∨
      (m.lifecycle = .running ∧ m'.lifecycle = .killing ∧ pc'.WillRun) ∨
      (m.lifecycle ≠ .stopped ∧ m'.lifecycle = .stopped ∧ pc = .finalizeSwap ∧ pc' = .drain) := by
  cases workerStep_move h with
  | killRunning _ hrun => exact .inr (.inl ⟨hrun, rfl, trivial⟩)
  | finalizeSwap hne => exact .inr (.inr ⟨hne, rfl, rfl, rfl⟩)
  | _ => exact .inl rfl

/-- A worker in `finalize_kill` came there through the swap to `STOPPED`. -/
theorem workerStep_finalizing (h : workerStep owner d m o pc = some (m', pc'))
    (hfin : pc.Finalizing → m.lifecycle = .stopped) (hpc' : pc'.Finalizing) :
    m'.lifecycle = .stopped := by
  cases workerStep_move h with
  | finalizeSwap => rfl
  | dropEntry site | pushEntry site => cases site <;> exact hpc'.elim
  | drain | drainNone | clearSlot | clearActive | clearUnmark | callOnKill | onKill =>
    exact hfin trivial
  | _ => exact hpc'.elim

/-- A worker that sets `is_scheduled` pushes an entry. -/
theorem workerStep_isScheduled (h : workerStep owner d m o pc = some (m', pc')) :
    m'.isScheduled = m.isScheduled ∨ pc'.WillRun ∨ m'.isScheduled = false := by
  cases workerStep_move h with
  | killPush | reschedule => exact .inr (.inl trivial)
  | clearScheduled => exact .inr (.inr rfl)
  | _ => exact .inl rfl

theorem workerStep_stopped (h : workerStep owner d m o pc = some (m', pc')) :
    m'.stopped = m.stopped := by
  cases workerStep_move h <;> rfl

/-- A worker only adds entries. -/
theorem workerStep_queue (h : workerStep owner d m o pc = some (m', pc')) {d' : D}
    (hq : m.queue d' ≠ []) : m'.queue d' ≠ [] := by
  cases workerStep_move h with
  | pushEntry site =>
    by_cases hd : d' = owner
    · subst hd
      simp [Shared.push]
    · simpa [Shared.push, hd] using hq
  | _ => exact hq

/-- A worker that takes the future out of the slot runs on. -/
theorem workerStep_slot (h : workerStep owner d m o pc = some (m', pc'))
    (hslot : m.slot.isSome = true) : m'.slot.isSome = true ∨ pc'.WillRun := by
  cases workerStep_move h with
  | pollFinished | clearSlot => exact .inr trivial
  | pollPending | armSlot => exact .inl rfl
  | _ => exact .inl hslot

/-- Where a worker that will run goes: it runs on, it has left the actor to an armed future or to an
entry, the actor is stopped, or it has looked at the lifecycle for the last time. -/
theorem workerStep_willRun (hstop : ∀ d, m.stopped d = false)
    (hpanic : ∀ part, pc = .publish part → o ≠ .panicked)
    (hfin : pc.Finalizing → m.lifecycle = .stopped)
    (h : workerStep owner d m o pc = some (m', pc')) (hpc : pc.WillRun) :
    pc'.WillRun ∨ m'.slot.isSome = true ∨ (∃ d, m'.queue d ≠ []) ∨ m'.lifecycle = .stopped ∨
      pc = .finalLoad ∧ pc' = .clearScheduled ∧ m' = m ∧ m.lifecycle ≠ .killing := by
  cases workerStep_move h with
  | pollPending => exact .inr (.inl rfl)
  | dropEntry _ hdest =>
    rw [hstop owner] at hdest
    cases hdest
  | pushEntry site => exact .inr (.inr (.inl ⟨owner, by simp [Shared.push]⟩))
  | publishPanic part ho => exact (hpanic part rfl ho).elim
  | lifecycleStopped hl | finalizeAgain hl => exact .inr (.inr (.inr (.inl hl)))
  | finalLoad hl => exact .inr (.inr (.inr (.inr ⟨rfl, rfl, rfl, hl⟩)))
  | onKillPanic | onFinalize | onFinalizePanic => exact .inr (.inr (.inr (.inl (hfin trivial))))
  | clearScheduled | peek | peekTrue | peekFalse | rescheduleSeen => exact hpc.elim
  | _ => exact .inl trivial

end

/-! ## What the system does -/

section
variable {owner : D} {s s' : State D T M F} {a : Action D T M F}

/-- `STOPPED` is final. -/
theorem step_stopped (hs : ActorRunner.step owner s a = some s') (h : s.mem.lifecycle = .stopped) :
    s'.mem.lifecycle = .stopped := by
  cases step_move hs with
  | post | kill | wake | pick | stop => exact h
  | caller hc =>
    rcases callerStep_lifecycle hc with h' | ⟨h', _⟩
    · exact h'.trans h
    · rw [h] at h'
      cases h'
  | worker hw =>
    rcases workerStep_lifecycle hw with h' | ⟨h', _⟩ | ⟨_, h', _⟩
    · exact h'.trans h
    · rw [h] at h'
      cases h'
    · exact h'

/-- Somebody stays due to run the actor until it is stopped, or until a worker looks at the
lifecycle for the last time and finds no kill. -/
theorem State.Due.step (hdue : s.Due) (H : ServedInv s) (hok : Served s a)
    (hs : step owner s a = some s') :
    s'.Due ∨ s'.mem.lifecycle = .stopped ∨
      (∃ d, s'.workers d = .clearScheduled) ∧ s.mem.lifecycle ≠ .killing ∧
        s'.mem.lifecycle = s.mem.lifecycle := by
  cases step_move hs with
  | @post t mail hidle | @kill t hidle | @wake t _ _ hidle =>
    left
    cases hdue with
    | entry d hq => exact .entry d hq
    | future hslot => exact .future hslot
    | worker d hrun => exact .worker d hrun
    | caller t' hpush =>
      have hne : t' ≠ t := by
        rintro rfl
        rw [hidle] at hpush
        exact hpush
      exact .caller t' (by simpa [State.setCaller, hne] using hpush)
  | @caller t m' pc' h =>
    left
    obtain ⟨_, hpushing⟩ := callerStep_pushing H.stopped h
    cases hdue with
    | entry d hq => exact .entry d (callerStep_queue h hq)
    | future hslot => exact .future ((callerStep_frame h).1 ▸ hslot)
    | worker d hrun => exact .worker d hrun
    | caller t' hpush =>
      by_cases ht : t' = t
      · subst ht
        rcases hpushing hpush with h' | ⟨d, hd⟩
        · exact .caller t' (by simpa using h')
        · exact .entry d hd
      · exact .caller t' (by simpa [ht] using hpush)
  | @pick d origin rest hidle hq =>
    left
    exact .worker d (by simp [WorkerPc.WillRun])
  | @worker d o m' pc' h =>
    cases hdue with
    | entry d' hq => exact .inl (.entry d' (workerStep_queue h hq))
    | future hslot =>
      rcases workerStep_slot h hslot with h' | h'
      · exact .inl (.future h')
      · exact .inl (.worker d (by simpa using h'))
    | caller t hpush => exact .inl (.caller t hpush)
    | worker d' hrun =>
      by_cases hd : d' = d
      · subst hd
        have hpanic : ∀ part, s.workers d' = .publish part → o ≠ .panicked := by
          rintro part hpc rfl
          exact hok part hpc
        rcases workerStep_willRun H.stopped hpanic (H.finalizing d') h hrun with
          h' | h' | ⟨e, h'⟩ | h' | ⟨_, hpc', rfl, hne⟩
        · exact .inl (.worker d' (by simpa using h'))
        · exact .inl (.future h')
        · exact .inl (.entry e h')
        · exact .inr (.inl h')
        · exact .inr (.inr ⟨⟨d', by simpa using hpc'⟩, hne, rfl⟩)
      · exact .inl (.worker d' (by simpa [hd] using hrun))
  | stop d => exact hok.elim

/-- A worker stays between its last look at the lifecycle and the store that clears the flag until
it makes that store. -/
theorem clearScheduled_step {d : D} (hpc : s.workers d = .clearScheduled)
    (hs : step owner s a = some s') (hset : s'.mem.isScheduled = true) :
    s'.workers d = .clearScheduled := by
  cases step_move hs with
  | post | kill | wake | caller | stop => exact hpc
  | @pick d' origin rest hidle hq =>
    have hne : d ≠ d' := by
      rintro rfl
      rw [hidle] at hpc
      cases hpc
    simpa [hne] using hpc
  | @worker d' o m' pc' h =>
    have hne : d ≠ d' := by
      rintro rfl
      rw [hpc] at h
      cases h
      cases hset
    simpa [hne] using hpc

theorem ServedInv.scheduled_step (H : ServedInv s) (hok : Served s a)
    (hs : step owner s a = some s') (hlive : s'.mem.lifecycle ≠ .stopped)
    (hset : s'.mem.isScheduled = true) : s'.Due ∨ ∃ d, s'.workers d = .clearScheduled := by
  have kept : s.mem.lifecycle ≠ .stopped → s.mem.isScheduled = true →
      s'.Due ∨ ∃ d, s'.workers d = .clearScheduled := by
    intro hl hset₀
    rcases H.scheduled hl hset₀ with hdue | ⟨d, hd⟩
    · rcases hdue.step H hok hs with h | h | ⟨h, _⟩
      · exact .inl h
      · exact (hlive h).elim
      · exact .inr h
    · exact .inr ⟨d, clearScheduled_step hd hs hset⟩
  have hl : s.mem.lifecycle ≠ .stopped := fun h => hlive (step_stopped hs h)
  cases step_move hs with
  | post | kill | wake | pick | stop => exact kept hl hset
  | @caller t m' pc' h =>
    rcases (callerStep_pushing H.stopped h).1 with h' | h'
    · exact kept hl (h'.symm.trans hset)
    · exact .inl (.caller t (by simpa using h'))
  | @worker d o m' pc' h =>
    rcases workerStep_isScheduled h with h' | h' | h'
    · exact kept hl (h'.symm.trans hset)
    · exact .inl (.worker d (by simpa using h'))
    · rw [show m'.isScheduled = true from hset] at h'
      cases h'

theorem ServedInv.step (H : ServedInv s) (hok : Served s a) (hs : step owner s a = some s') :
    ServedInv s' := by
  refine ⟨?_, ?_, H.scheduled_step hok hs⟩
  · cases step_move hs with
    | post | kill | wake | pick => exact H.stopped
    | caller h =>
      obtain ⟨_, _, _, _, hstop, _⟩ := callerStep_frame h
      exact fun d => (congrFun hstop d).trans (H.stopped d)
    | worker h => exact fun d => (congrFun (workerStep_stopped h) d).trans (H.stopped d)
    | stop => exact hok.elim
  · intro d' hd'
    cases step_move hs with
    | post | kill | wake | stop => exact H.finalizing d' hd'
    | caller => exact step_stopped hs (H.finalizing d' hd')
    | @pick d origin rest hidle hq =>
      by_cases hd : d' = d
      · subst hd
        simp [WorkerPc.Finalizing] at hd'
      · exact H.finalizing d' (by simpa [hd] using hd')
    | @worker d o m' pc' h =>
      by_cases hd : d' = d
      · subst hd
        exact workerStep_finalizing h (H.finalizing d') (by simpa using hd')
      · exact step_stopped hs (H.finalizing d' (by simpa [hd] using hd'))

omit [DecidableEq D] [DecidableEq T] in
theorem ServedInv.initial (q : MpscBoundedQueue M) : ServedInv (initial D T F q) where
  stopped _ := rfl
  finalizing _ := False.elim
  scheduled _ h := by cases h

end

end DignusActor.ActorRunner
