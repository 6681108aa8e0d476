import DignusActor.Dispatcher.Scheduling

/-! # What the dispatcher does with its entries

What a step keeps of the entries that a thread is about to push, that wait, and that the worker
executes. -/

namespace DignusActor.Dispatcher

open Machine (Reach)

variable {T E : Type}

/-- The entry that a thread is about to push. -/
def CallerPc.entryOf : CallerPc E → Option E
  | .scheduleStopped entry | .schedulePush entry => some entry
  | _ => none

/-- The entry in execution. -/
def WorkerPc.executing? : WorkerPc E → Option E
  | .execute entry _ => some entry
  | _ => none

/-- The entries that were pushed and wait for their execution. -/
def State.waiting (s : State T E) : List E := s.worker.batch ++ s.scheduledActors

/-- What a step of a caller keeps. -/
structure SameExecution (s s' : State T E) : Prop where
  executing : s'.worker.executing? = s.worker.executing?
  executed : s'.executed = s.executed
  stopped : s.isStopped = true → s'.isStopped = true

/-- A thread goes on with its entry, or drops it on a stopped dispatcher, or pushes it. -/
inductive CallMove (s s' : State T E) (t : Option T) [DecidableEq T] : Prop
  | still (pc : CallerPc E) :
    pc.entryOf = (s.callers t).entryOf ∨ pc.entryOf = none ∧ s.isStopped = true →
    s'.callers = Function.update s.callers t pc → s'.pushed = s.pushed →
    s'.waiting = s.waiting → CallMove s s' t
  | push (entry : E) :
    (s.callers t).entryOf = some entry →
    s'.callers = Function.update s.callers t .schedulePending →
    s'.pushed = s.pushed ++ [entry] → s'.waiting = s.waiting ++ [entry] → CallMove s s' t

/-- The worker starts an entry that waits, or none, and it drops entries only when stopped. -/
inductive WorkerMove (s s' : State T E) : Prop
  | rest : s'.worker.executing? = none → s'.executed = s.executed →
    s'.waiting.Sublist s.waiting → WorkerMove s s'
  | begin (entry : E) : s.worker.executing? = none → s'.worker.executing? = some entry →
    s'.executed = s.executed ++ [entry] → s.waiting = entry :: s'.waiting → WorkerMove s s'

section

variable {s s' : State T E}

theorem State.release_executing : s.release.worker.executing? = s.worker.executing? := by
  unfold release
  cases s.worker <;> rfl

theorem State.release_waiting : s.release.waiting = s.waiting := by
  rw [waiting, waiting, release_batch]
  rfl

theorem WorkerMove.runBatch {entries : List E} (hrun : s.worker.executing? = none)
    (hwait : s.waiting = entries ++ s'.scheduledActors) (hexecuted : s'.executed = s.executed) :
    WorkerMove s (s'.runBatch entries) := by
  cases entries with
  | nil => exact .rest rfl hexecuted (hwait ▸ .refl _)
  | cons entry batch => exact .begin entry hrun rfl (by rw [← hexecuted]; rfl) hwait

theorem workerStep_move (h : workerStep s = some s') : WorkerMove s s' ∧
    s'.callers = s.callers ∧ s'.pushed = s.pushed ∧ s'.isStopped = s.isStopped := by
  unfold workerStep at h
  cases hpc : s.worker <;> simp only [hpc] at h
  case wait =>
    split at h <;> cases h <;>
      exact ⟨.rest rfl rfl (by simp [State.waiting, hpc, WorkerPc.batch]), rfl, rfl, rfl⟩
  case blocked => cases h
  case loadStopped | endRound =>
    cases h
    split <;> exact ⟨.rest rfl rfl (by simp [State.waiting, hpc, WorkerPc.batch]), rfl, rfl, rfl⟩
  case clearPending =>
    cases h
    exact ⟨.rest rfl rfl (by simp [State.waiting, hpc, WorkerPc.batch]), rfl, rfl, rfl⟩
  case take =>
    split at h <;> cases h
    · exact ⟨.rest rfl rfl (by simp [State.waiting, hpc, WorkerPc.batch]), rfl, rfl, rfl⟩
    · refine ⟨.runBatch (by rw [hpc]; rfl) (by simp [State.waiting, hpc, WorkerPc.batch]) rfl, ?_⟩
      cases s.scheduledActors <;> exact ⟨rfl, rfl, rfl⟩
  case execute =>
    split at h <;> cases h
    exact ⟨.rest rfl rfl (by simp [State.waiting, hpc, WorkerPc.batch]), rfl, rfl, rfl⟩
  case executed batch =>
    split at h <;> cases h
    · exact ⟨.rest rfl rfl (by simp [State.waiting, hpc, WorkerPc.batch]), rfl, rfl, rfl⟩
    · refine ⟨.runBatch (by rw [hpc]; rfl) (by simp [State.waiting, hpc, WorkerPc.batch]) rfl, ?_⟩
      cases batch <;> exact ⟨rfl, rfl, rfl⟩
  case ended => cases h

variable [DecidableEq T] {t : Option T}

theorem wakeUp_move (h : step s .wakeUp = some s') : s.worker.executing? = none ∧
    s'.worker.executing? = none ∧ WorkerMove s s' ∧ s'.callers = s.callers ∧
    s'.pushed = s.pushed ∧ s'.isStopped = s.isStopped := by
  unfold step at h
  cases hpc : s.worker <;> simp only [hpc] at h <;> cases h
  exact ⟨rfl, rfl, .rest rfl rfl (by simp [State.waiting, hpc, WorkerPc.batch]), rfl, rfl, rfl⟩

theorem callerStep_move (h : callerStep s t = some s') :
    CallMove s s' t ∧ SameExecution s s' := by
  unfold callerStep at h
  cases hpc : s.callers t <;> simp only [hpc] at h
  case idle => cases h
  case scheduleStopped entry =>
    cases h
    refine ⟨.still _ ?_ rfl rfl rfl, rfl, rfl, id⟩
    rw [hpc]
    split
    · exact .inr ⟨rfl, ‹_›⟩
    · exact .inl rfl
  case schedulePush entry =>
    cases h
    exact ⟨.push entry (by rw [hpc]; rfl) rfl rfl (List.append_assoc ..).symm, rfl, rfl, id⟩
  case schedulePending =>
    split at h <;> cases h <;>
      exact ⟨.still _ (.inl (by rw [hpc]; rfl)) rfl rfl rfl, rfl, rfl, id⟩
  case scheduleRelease | disposeRelease =>
    cases h
    exact ⟨.still _ (.inl (by rw [hpc]; rfl)) rfl rfl State.release_waiting,
      State.release_executing, rfl, id⟩
  case disposeStop =>
    cases h
    exact ⟨.still _ (.inl (by rw [hpc]; rfl)) rfl rfl rfl, rfl, rfl, fun _ => rfl⟩
  case disposeTake =>
    split at h <;> cases h <;>
      exact ⟨.still _ (.inl (by rw [hpc]; rfl)) rfl rfl rfl, rfl, rfl, id⟩
  case disposeJoin =>
    split at h <;> cases h
    exact ⟨.still _ (.inl (by rw [hpc]; rfl)) rfl rfl rfl, rfl, rfl, id⟩

/-! ## What goes on without a stop -/

/-- After the store of `dispose`. -/
def CallerPc.Disposing : CallerPc E → Prop
  | .disposeRelease | .disposeTake | .disposeJoin => True
  | _ => False

omit [DecidableEq T] in
theorem State.release_ended (h : s.release.worker = .ended) : s.worker = .ended := by
  unfold release at h
  cases hpc : s.worker <;> simp [hpc] at h ⊢

omit [DecidableEq T] in
theorem runBatch_not_ended {entries : List E} : (s.runBatch entries).worker ≠ .ended := by
  cases entries <;> simp [State.runBatch]

/-- The worker ends, and `dispose` goes on, only when the dispatcher is stopped. -/
structure Stopping (s : State T E) : Prop where
  disposing : ∀ t, (s.callers t).Disposing → s.isStopped = true
  ended : s.worker = .ended → s.isStopped = true

theorem Stopping.setCaller (h : Stopping s) {pc : CallerPc E}
    (hpc : pc.Disposing → s.isStopped = true) : Stopping (s.setCaller t pc) where
  disposing u hu := by
    simp only [State.setCaller] at hu
    by_cases hut : u = t
    · subst hut
      rw [Function.update_self] at hu
      exact hpc hu
    · rw [Function.update_of_ne hut] at hu
      exact h.disposing u hu
  ended := h.ended

omit [DecidableEq T] in
theorem Stopping.release (h : Stopping s) : Stopping s.release :=
  ⟨h.disposing, fun hended => h.ended (State.release_ended hended)⟩

theorem Stopping.call (h : Stopping s) (hs : callerStep s t = some s') : Stopping s' := by
  unfold callerStep at hs
  cases hpc : s.callers t <;> simp only [hpc] at hs
  case idle => cases hs
  case scheduleStopped =>
    cases hs
    refine h.setCaller fun hd => ?_
    split at hd <;> exact hd.elim
  case schedulePush entry =>
    cases hs
    have hpushed : Stopping { s with
        scheduledActors := s.scheduledActors ++ [entry], pushed := s.pushed ++ [entry] } :=
      ⟨h.disposing, h.ended⟩
    exact hpushed.setCaller (by simp [CallerPc.Disposing])
  case schedulePending =>
    have hmarked : Stopping { s with signalPending := 1 } := ⟨h.disposing, h.ended⟩
    split at hs <;> cases hs
    · exact hmarked.setCaller (by simp [CallerPc.Disposing])
    · exact h.setCaller (by simp [CallerPc.Disposing])
  case scheduleRelease =>
    cases hs
    exact h.release.setCaller (by simp [CallerPc.Disposing])
  case disposeStop =>
    cases hs
    have hstopped : Stopping { s with isStopped := true } := ⟨fun _ _ => rfl, fun _ => rfl⟩
    exact hstopped.setCaller fun _ => rfl
  case disposeRelease =>
    cases hs
    exact h.release.setCaller fun _ => h.disposing t (by rw [hpc]; trivial)
  case disposeTake =>
    have hstop := h.disposing t (by rw [hpc]; trivial)
    have htaken : Stopping { s with workerThread := false } := ⟨h.disposing, h.ended⟩
    split at hs <;> cases hs <;> exact htaken.setCaller fun _ => hstop
  case disposeJoin =>
    split at hs <;> cases hs
    exact h.setCaller (by simp [CallerPc.Disposing])

omit [DecidableEq T] in
theorem Stopping.worker (h : Stopping s) (hs : workerStep s = some s') : Stopping s' := by
  obtain ⟨-, hcallers, -, hstop⟩ := workerStep_move hs
  refine ⟨fun t ht => hstop ▸ h.disposing t (hcallers ▸ ht), fun hended => ?_⟩
  rw [hstop]
  unfold workerStep at hs
  cases hpc : s.worker <;> simp only [hpc] at hs
  case wait | take | executed =>
    split at hs <;> cases hs
    all_goals first | cases hended | exact absurd hended runBatch_not_ended
  case loadStopped | endRound =>
    cases hs
    by_contra hrun
    simp [hrun] at hended
  case execute =>
    split at hs <;> cases hs
    cases hended
  case blocked | ended => cases hs
  case clearPending =>
    cases hs
    cases hended

theorem Stopping.step {a : Action T E} (h : Stopping s) (hs : step s a = some s') :
    Stopping s' := by
  have hbegin {t : Option T} {pc : CallerPc E} (hpc : ¬pc.Disposing)
      (hs : s.begin t pc = some s') : Stopping s' := by
    unfold State.begin at hs
    split at hs
    · split at hs <;> cases hs
      exact h.setCaller fun hd => absurd hd hpc
    · cases hs
  cases a with
  | schedule t entry => exact hbegin id hs
  | dispose t => exact hbegin id hs
  | call t => exact h.call hs
  | worker => exact h.worker hs
  | wakeUp =>
    obtain ⟨-, -, -, hcallers, -, hstop⟩ := wakeUp_move hs
    refine ⟨fun t ht => hstop ▸ h.disposing t (hcallers ▸ ht), fun hended => ?_⟩
    simp only [Dispatcher.step] at hs
    split at hs <;> cases hs
    cases hended

theorem stopping_of_reach (h : Reach (machine T E) Machine.free s) : Stopping s := by
  refine h.inv Stopping ?_ fun hinv _ hs => hinv.step hs
  rintro _ rfl
  exact ⟨fun _ h => h.elim, fun h => by cases h⟩

theorem callerStep_some (hpc : s.callers t ≠ .idle) (hjoin : s.callers t ≠ .disposeJoin) :
    ∃ s', callerStep s t = some s' := by
  unfold callerStep
  cases h : s.callers t <;> simp only [h] at hpc hjoin ⊢
  case idle => exact absurd rfl hpc
  case disposeJoin => exact absurd rfl hjoin
  case schedulePending | disposeTake => split <;> exact ⟨_, rfl⟩
  all_goals exact ⟨_, rfl⟩

omit [DecidableEq T] in
theorem workerStep_some (hidle : s.callers none = .idle) (hblocked : s.worker ≠ .blocked)
    (hended : s.worker ≠ .ended) : ∃ s', workerStep s = some s' := by
  unfold workerStep
  cases h : s.worker <;> simp only [h, hidle] at hblocked hended ⊢
  case blocked => exact absurd rfl hblocked
  case ended => exact absurd rfl hended
  case wait | take | executed => split <;> exact ⟨_, rfl⟩
  all_goals exact ⟨_, rfl⟩

end

end DignusActor.Dispatcher
