import DignusActor.Dispatcher.ActorDispatcher

/-! # The entries of a dispatcher

`schedule` releases the signal only when it finds `signal_pending` clear, and the worker clears
first `is_signaled` and then `signal_pending` before it drains the queue. So a mark that is set has
its release still to come, or done and not yet taken up (`Inv.signaled`), and an entry in the queue
has the mark, or a thread about to set it, or a worker that is draining (`Inv.due`). -/

namespace DignusActor.Dispatcher

open Machine (Reach)

variable {T E : Type}

/-- The entries of the batch that are still to be executed. -/
def WorkerPc.batch : WorkerPc E → List E
  | .execute _ batch | .executed batch => batch
  | _ => []

/-- In `Signal::wait`. -/
def WorkerPc.Waiting : WorkerPc E → Prop
  | .wait | .blocked => True
  | _ => False

/-- Between `Signal::wait` and the clearing of `signal_pending`. -/
def WorkerPc.Woken : WorkerPc E → Prop
  | .loadStopped | .clearPending => True
  | _ => False

/-- In the loop that empties the queue. -/
def WorkerPc.Draining : WorkerPc E → Prop
  | .take | .execute .. | .executed _ => True
  | _ => False

/-- Between the push of `schedule` and its return. -/
def CallerPc.Signaling : CallerPc E → Prop
  | .schedulePending | .scheduleRelease => True
  | _ => False

structure Inv (s : State T E) : Prop where
  entries : s.isStopped = false → s.pushed = s.executed ++ s.worker.batch ++ s.scheduledActors
  signaled : s.isStopped = false → s.signalPending ≠ 0 →
    s.isSignaled = true ∨ s.worker.Woken ∨ ∃ t, s.callers t = .scheduleRelease
  due : s.isStopped = false → s.scheduledActors ≠ [] →
    s.signalPending ≠ 0 ∨ s.worker.Draining ∨ ∃ t, s.callers t = .schedulePending
  blocked : s.worker = .blocked → s.isSignaled = false

section

variable {s s' : State T E}

theorem start_inv : Inv (start T E) :=
  ⟨fun _ => rfl, fun _ h => absurd rfl h, fun _ h => absurd rfl h, fun _ => rfl⟩

theorem State.release_batch : s.release.worker.batch = s.worker.batch := by
  unfold release
  cases s.worker <;> rfl

theorem State.release_draining (h : s.worker.Draining) : s.release.worker.Draining := by
  unfold release
  cases hpc : s.worker with
  | take | execute | executed => trivial
  | _ =>
    rw [hpc] at h
    exact h.elim

theorem State.release_not_blocked : s.release.worker ≠ .blocked := by
  unfold release
  cases s.worker <;> exact nofun

/-- A dispatcher that is stopped owes nothing to its entries. -/
theorem Inv.of_stopped (hstop : s.isStopped = true)
    (hblocked : s.worker = .blocked → s.isSignaled = false) : Inv s := by
  have hfalse {P : Prop} (hrun : s.isStopped = false) : P :=
    (Bool.false_ne_true (hrun.symm.trans hstop)).elim
  exact ⟨hfalse, hfalse, hfalse, hblocked⟩

/-! ## The steps of the worker -/

theorem Inv.runBatch {entries : List E} (h : s.isStopped = false →
      s.pushed = s.executed ++ entries ++ s.scheduledActors)
    (hsignaled : s.isStopped = false → s.signalPending ≠ 0 →
      s.isSignaled = true ∨ ∃ t, s.callers t = .scheduleRelease) : Inv (s.runBatch entries) := by
  have hsignaled' (hrun : s.isStopped = false) (hpending : s.signalPending ≠ 0)
      (pc : WorkerPc E) : s.isSignaled = true ∨ pc.Woken ∨ ∃ t, s.callers t = .scheduleRelease :=
    (hsignaled hrun hpending).imp_right .inr
  cases entries with
  | nil =>
    exact ⟨h, fun hrun hp => hsignaled' hrun hp _, fun _ _ => .inr (.inl trivial),
      fun h => by cases h⟩
  | cons entry batch =>
    refine ⟨fun hrun => ?_, fun hrun hp => hsignaled' hrun hp _, fun _ _ => .inr (.inl trivial),
      fun h => by cases h⟩
    simpa [State.runBatch, WorkerPc.batch] using h hrun

theorem Inv.worker (hinv : Inv s) (h : workerStep s = some s') : Inv s' := by
  obtain ⟨hentries, hsignaled, hdue, hblocked⟩ := hinv
  unfold workerStep at h
  cases hpc : s.worker <;> rw [hpc] at hentries hsignaled hdue <;> simp only [hpc] at h
  case wait =>
    split at h <;> cases h
    · exact ⟨hentries, fun _ _ => .inr (.inl trivial), hdue, fun h => by cases h⟩
    · rename_i hfree
      exact ⟨hentries, hsignaled, hdue, fun _ => Bool.eq_false_iff.mpr hfree⟩
  case blocked => cases h
  case loadStopped =>
    cases h
    by_cases hstop : s.isStopped = true
    · rw [if_pos hstop]
      exact .of_stopped hstop (by simp)
    · rw [if_neg hstop]
      exact ⟨hentries, fun _ _ => .inr (.inl trivial), hdue, fun h => by cases h⟩
  case clearPending =>
    cases h
    exact ⟨hentries, fun _ hp => absurd rfl hp, fun _ _ => .inr (.inl trivial), fun h => by cases h⟩
  case take =>
    have hsignaled' (hrun : s.isStopped = false) (hp : s.signalPending ≠ 0) :
        s.isSignaled = true ∨ ∃ t, s.callers t = .scheduleRelease :=
      (hsignaled hrun hp).imp_right fun h => h.resolve_left id
    split at h <;> cases h
    · rename_i hempty
      exact ⟨hentries, fun hrun hp => (hsignaled' hrun hp).imp_right .inr,
        fun _ hne => absurd (List.isEmpty_iff.mp hempty) hne, fun h => by cases h⟩
    · refine Inv.runBatch (fun hrun => ?_) hsignaled'
      simpa [WorkerPc.batch] using hentries hrun
  case execute =>
    split at h <;> cases h
    exact ⟨hentries, hsignaled, fun _ _ => .inr (.inl trivial), fun h => by cases h⟩
  case executed =>
    split at h <;> cases h
    · exact .of_stopped ‹_› (by simp)
    · exact Inv.runBatch hentries fun hrun hp =>
        (hsignaled hrun hp).imp_right fun h => h.resolve_left id
  case endRound =>
    cases h
    by_cases hstop : s.isStopped = true
    · rw [if_pos hstop]
      exact .of_stopped hstop (by simp)
    · rw [if_neg hstop]
      exact ⟨hentries, hsignaled, hdue, fun h => by cases h⟩
  case ended => cases h

/-! ## The steps of the callers -/

variable [DecidableEq T] {t : Option T}

/-- A thread that is neither about to release nor about to mark goes on. -/
theorem Inv.setCaller (hinv : Inv s) {pc : CallerPc E}
    (hrelease : s.callers t = .scheduleRelease → s.isStopped = false → s.isSignaled = true)
    (hpending : s.callers t = .schedulePending → s.isStopped = false → s.signalPending ≠ 0) :
    Inv (s.setCaller t pc) := by
  have hother {pc' : CallerPc E} {u : Option T} (hu : s.callers u = pc') (hut : u ≠ t) :
      ∃ u, (s.setCaller t pc).callers u = pc' :=
    ⟨u, (Function.update_of_ne hut ..).trans hu⟩
  refine ⟨hinv.entries, fun hrun hp => ?_, fun hrun hne => ?_, hinv.blocked⟩
  · rcases hinv.signaled hrun hp with h | h | ⟨u, hu⟩
    · exact .inl h
    · exact .inr (.inl h)
    · by_cases hut : u = t
      · subst hut
        exact .inl (hrelease hu hrun)
      · exact .inr (.inr (hother hu hut))
  · rcases hinv.due hrun hne with h | h | ⟨u, hu⟩
    · exact .inl h
    · exact .inr (.inl h)
    · by_cases hut : u = t
      · subst hut
        exact .inl (hpending hu hrun)
      · exact .inr (.inr (hother hu hut))

omit [DecidableEq T] in
theorem Inv.release (hinv : Inv s) : Inv s.release := by
  refine ⟨fun hrun => ?_, fun _ _ => .inl rfl, fun hrun hne => ?_,
    fun h => absurd h State.release_not_blocked⟩
  · rw [State.release_batch]
    exact hinv.entries hrun
  · exact (hinv.due hrun hne).imp_right (.imp_left State.release_draining)

theorem Inv.push (hinv : Inv s) (ht : s.callers t ≠ .scheduleRelease) {entry : E} :
    Inv ({ s with
      scheduledActors := s.scheduledActors ++ [entry]
      pushed := s.pushed ++ [entry] }.setCaller t .schedulePending) := by
  refine ⟨fun hrun => ?_, fun hrun hp => ?_, fun _ _ => .inr (.inr ⟨t, Function.update_self ..⟩),
    hinv.blocked⟩
  · rw [State.setCaller, hinv.entries hrun, List.append_assoc]
  · rcases hinv.signaled hrun hp with h | h | ⟨u, hu⟩
    · exact .inl h
    · exact .inr (.inl h)
    · have hut : u ≠ t := by
        rintro rfl
        exact ht hu
      exact .inr (.inr ⟨u, (Function.update_of_ne hut ..).trans hu⟩)

theorem Inv.call (hinv : Inv s) (h : callerStep s t = some s') : Inv s' := by
  unfold callerStep at h
  cases hpc : s.callers t <;> simp only [hpc] at h
  case idle => cases h
  case scheduleStopped =>
    cases h
    exact hinv.setCaller (by simp [hpc]) (by simp [hpc])
  case schedulePush =>
    cases h
    exact hinv.push (by simp [hpc])
  case schedulePending =>
    split at h <;> cases h
    · exact ⟨hinv.entries, fun _ _ => .inr (.inr ⟨t, Function.update_self ..⟩),
        fun _ _ => .inl Int.one_ne_zero, hinv.blocked⟩
    · exact hinv.setCaller (by simp [hpc]) fun _ _ => ‹_›
  case scheduleRelease =>
    cases h
    exact hinv.release.setCaller (fun _ _ => rfl) (by simp [State.release, hpc])
  case disposeStop =>
    cases h
    exact .of_stopped rfl hinv.blocked
  case disposeRelease =>
    cases h
    exact hinv.release.setCaller (fun _ _ => rfl) (by simp [State.release, hpc])
  case disposeTake =>
    have htaken : Inv { s with workerThread := false } :=
      ⟨hinv.entries, hinv.signaled, hinv.due, hinv.blocked⟩
    split at h <;> cases h <;> exact htaken.setCaller (by simp [hpc]) (by simp [hpc])
  case disposeJoin =>
    split at h <;> cases h
    exact hinv.setCaller (by simp [hpc]) (by simp [hpc])

theorem Inv.begin (hinv : Inv s) {pc : CallerPc E} (h : s.begin t pc = some s') : Inv s' := by
  unfold State.begin at h
  split at h
  · rename_i hpc
    split at h <;> cases h
    exact hinv.setCaller (by simp [hpc]) (by simp [hpc])
  · cases h

theorem Inv.step {a : Action T E} (hinv : Inv s) (h : step s a = some s') : Inv s' := by
  cases a with
  | schedule t entry => exact hinv.begin h
  | dispose t => exact hinv.begin h
  | call t => exact hinv.call h
  | worker => exact hinv.worker h
  | wakeUp =>
    simp only [Dispatcher.step] at h
    split at h <;> cases h
    rename_i hpc
    obtain ⟨hentries, hsignaled, hdue, -⟩ := hinv
    rw [hpc] at hentries hsignaled hdue
    exact ⟨hentries, hsignaled, hdue, fun h => by cases h⟩

theorem inv_of_reach (h : Reach (machine T E) Machine.free s) : Inv s := by
  refine h.inv Inv ?_ fun hinv _ hs => hinv.step hs
  rintro _ rfl
  exact start_inv

/-! ## Nothing is lost -/

/-- **Scheduling keeps the entries in order and loses none.** Until a dispatcher is stopped, what it
has executed is a prefix of what was pushed, and the rest is in its batch and in its queue; and
whenever the worker is in `Signal::wait` with `is_signaled` false and no `schedule` is between its
push and its return, the queue is empty. -/
theorem scheduled_in_order (h : Reach (machine T E) Machine.free s) (hrun : s.isStopped = false) :
    s.executed <+: s.pushed ∧ s.pushed = s.executed ++ s.worker.batch ++ s.scheduledActors ∧
      (s.worker.Waiting → s.isSignaled = false → (∀ t, ¬(s.callers t).Signaling) →
        s.scheduledActors = []) := by
  have hinv := inv_of_reach h
  have hentries := hinv.entries hrun
  refine ⟨⟨s.worker.batch ++ s.scheduledActors, ?_⟩, hentries, fun hwait hfree hquiet => ?_⟩
  · rw [hentries, List.append_assoc]
  by_contra hne
  -- the entry has a mark, and the mark a release
  rcases hinv.due hrun hne with hp | hdrain | ⟨t, ht⟩
  · rcases hinv.signaled hrun hp with hset | hwoken | ⟨t, ht⟩
    · exact Bool.false_ne_true (hfree.symm.trans hset)
    · cases hpc : s.worker with
      | loadStopped | clearPending =>
        rw [hpc] at hwait
        exact hwait
      | _ =>
        rw [hpc] at hwoken
        exact hwoken
    · exact hquiet t (by rw [ht]; trivial)
  · cases hpc : s.worker with
    | take | execute | executed =>
      rw [hpc] at hwait
      exact hwait
    | _ =>
      rw [hpc] at hdrain
      exact hdrain
  · exact hquiet t (by rw [ht]; trivial)

end

/-! ## Runs -/

/-- A thread schedules an entry, which schedules another one; a second thread schedules a third one
while `signal_pending` is set. The worker has executed all three and waits again. -/
def drained : State Bool Nat :=
  ((machine Bool Nat).run (start Bool Nat)
    ([Action.schedule (some true) 0] ++ List.replicate 3 (Action.call (some true)) ++
      [Action.schedule (some false) 1] ++ List.replicate 3 (Action.call (some false)) ++
      [Action.call (some true)] ++ List.replicate 4 Action.worker ++
      [Action.schedule none 2] ++ List.replicate 4 (Action.call none) ++
      List.replicate 15 Action.worker)).get (by decide +kernel)

theorem scheduled_in_order_drained :
    drained.worker = .blocked ∧ drained.isSignaled = false ∧ drained.executed = [0, 1, 2] ∧
      drained.executed <+: drained.pushed ∧
      drained.pushed = drained.executed ++ drained.worker.batch ++ drained.scheduledActors ∧
      (drained.worker.Waiting → drained.isSignaled = false →
        (∀ t, ¬(drained.callers t).Signaling) → drained.scheduledActors = []) :=
  ⟨by decide +kernel, by decide +kernel, by decide +kernel,
    scheduled_in_order (.get_free rfl _) (by decide +kernel)⟩

end DignusActor.Dispatcher
