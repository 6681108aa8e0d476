import DignusActor.Dispatcher.Scheduling
import DignusActor.Machine.Rank

/-! # The end of a dispatcher

`dispose` sets `is_stopped` and then releases the signal, so a worker that has not seen the flag
when it goes to wait finds the signal (`Announced`). From then on the worker takes few more steps of
its own and begins at most one more entry, whatever is scheduled meanwhile, and it can take them
unless the entry that it executes is still in a call (`disposal_ends`). -/

namespace DignusActor.Dispatcher

open Machine (Reach)

variable {T E : Type}

/-- The stop is there to be seen: the worker will not wait for good. -/
structure Announced (s : State T E) : Prop where
  stopped : s.isStopped = true
  awake : s.worker ≠ .blocked
  signaled : s.worker = .wait → s.isSignaled = true

/-- The steps of the worker to its end. -/
def WorkerPc.toEnd : WorkerPc E → Nat
  | .ended => 0
  | .loadStopped | .endRound => 1
  | .wait | .executed _ => 2
  | .blocked | .execute .. => 3
  | .take => 4
  | .clearPending => 5

/-- The action is a step of the worker. -/
def Action.isWorker : Action T E → Bool
  | .worker => true
  | _ => false

/-- The entries that a worker of a stopped dispatcher can still begin. -/
def WorkerPc.toBegin : WorkerPc E → Nat
  | .take | .clearPending => 1
  | _ => 0

theorem WorkerPc.toEnd_eq_zero {pc : WorkerPc E} : pc.toEnd = 0 ↔ pc = .ended := by
  cases pc <;> simp [toEnd]

theorem WorkerPc.toEnd_le (pc : WorkerPc E) : pc.toEnd ≤ 5 := by
  cases pc <;> simp [toEnd]

theorem WorkerPc.toBegin_le (pc : WorkerPc E) : pc.toBegin ≤ 1 := by
  cases pc <;> simp [toBegin]

section
variable {s s' : State T E}

/-- The worker comes closer to its end, and begins no more entries than it can. -/
theorem Announced.worker (h : Announced s) (hs : workerStep s = some s') :
    Announced s' ∧ s'.worker.toEnd + 1 ≤ s.worker.toEnd ∧
      s'.executed.length + s'.worker.toBegin ≤ s.executed.length + s.worker.toBegin := by
  have hstopped := h.stopped
  unfold workerStep at hs
  cases hpc : s.worker with
  | wait =>
    simp only [hpc, h.signaled hpc, if_true, Option.some.injEq] at hs
    subst hs
    exact ⟨⟨hstopped, by simp, by simp⟩, Nat.le_refl _, Nat.le_refl _⟩
  | blocked => exact absurd hpc h.awake
  | loadStopped | endRound =>
    simp only [hpc, hstopped, if_true, Option.some.injEq] at hs
    subst hs
    exact ⟨⟨rfl, by simp, by simp⟩, Nat.le_refl _, Nat.le_refl _⟩
  | clearPending =>
    simp only [hpc, Option.some.injEq] at hs
    subst hs
    exact ⟨⟨hstopped, by simp, by simp⟩, Nat.le_refl _, Nat.le_refl _⟩
  | take =>
    simp only [hpc] at hs
    split at hs <;> cases hs
    · exact ⟨⟨hstopped, by simp, by simp⟩, by simp [WorkerPc.toEnd], by simp [WorkerPc.toBegin]⟩
    · rename_i hne
      obtain ⟨entry, batch, hcons⟩ := List.exists_cons_of_ne_nil (by simpa using hne)
      rw [hcons]
      refine ⟨⟨hstopped, by simp [State.runBatch], by simp [State.runBatch]⟩, Nat.le_refl _, ?_⟩
      simp [State.runBatch, WorkerPc.toBegin]
  | execute entry batch =>
    simp only [hpc] at hs
    split at hs <;> cases hs
    exact ⟨⟨hstopped, by simp, by simp⟩, Nat.le_refl _, Nat.le_refl _⟩
  | executed batch =>
    simp only [hpc, hstopped, if_true, Option.some.injEq] at hs
    subst hs
    exact ⟨⟨rfl, by simp, by simp⟩, Nat.le_refl _, Nat.le_refl _⟩
  | ended => simp [hpc] at hs

/-- The worker can go on, or has ended, or executes an entry that is in a call. -/
theorem Announced.enabled (h : Announced s) :
    s.worker = .ended ∨ (∃ s', workerStep s = some s') ∨
      ∃ entry batch, s.worker = .execute entry batch ∧ s.callers none ≠ .idle := by
  cases hpc : s.worker with
  | wait =>
    refine .inr (.inl ?_)
    simp only [workerStep, hpc, h.signaled hpc, if_true]
    exact ⟨_, rfl⟩
  | blocked => exact absurd hpc h.awake
  | loadStopped | clearPending | endRound =>
    refine .inr (.inl ?_)
    simp only [workerStep, hpc]
    exact ⟨_, rfl⟩
  | take =>
    refine .inr (.inl ?_)
    simp only [workerStep, hpc]
    split <;> exact ⟨_, rfl⟩
  | execute entry batch =>
    cases hcall : s.callers none with
    | idle =>
      refine .inr (.inl ?_)
      simp only [workerStep, hpc, hcall]
      exact ⟨_, rfl⟩
    | _ => exact .inr (.inr ⟨entry, batch, rfl, nofun⟩)
  | executed batch =>
    refine .inr (.inl ?_)
    simp only [workerStep, hpc]
    split <;> exact ⟨_, rfl⟩
  | ended => exact .inl rfl

theorem State.release_worker : s.release.worker = s.worker ∨
    s.worker = .blocked ∧ s.release.worker = .wait := by
  unfold release
  cases s.worker with
  | blocked => exact .inr ⟨rfl, rfl⟩
  | _ => exact .inl rfl

variable [DecidableEq T] {t : Option T}

/-- What a step of a thread does to the worker: nothing, or it releases the signal. -/
theorem callerStep_signals (h : callerStep s t = some s') :
    (s'.worker = s.worker ∧ s'.isSignaled = s.isSignaled ∧ s.callers t ≠ .disposeRelease ∨
      s'.worker = s.release.worker ∧ s'.isSignaled = true) ∧
    s'.executed = s.executed ∧
    (s'.isStopped = s.isStopped ∨ s'.isStopped = true ∧ s'.callers t = .disposeRelease) ∧
    ∀ u, u ≠ t → s'.callers u = s.callers u := by
  have hcallers {q : State T E} {pc : CallerPc E} (hq : q.callers = s.callers) (u : Option T)
      (hu : u ≠ t) : (q.setCaller t pc).callers u = s.callers u :=
    (Function.update_of_ne hu ..).trans (congrFun hq u)
  unfold callerStep at h
  cases hpc : s.callers t with
  | idle => simp [hpc] at h
  | scheduleStopped entry =>
    simp only [hpc, Option.some.injEq] at h
    subst h
    exact ⟨.inl ⟨rfl, rfl, nofun⟩, rfl, .inl rfl, hcallers rfl⟩
  | schedulePush entry =>
    simp only [hpc, Option.some.injEq] at h
    subst h
    exact ⟨.inl ⟨rfl, rfl, nofun⟩, rfl, .inl rfl, hcallers rfl⟩
  | schedulePending =>
    simp only [hpc] at h
    split at h <;> cases h <;> exact ⟨.inl ⟨rfl, rfl, nofun⟩, rfl, .inl rfl, hcallers rfl⟩
  | scheduleRelease | disposeRelease =>
    simp only [hpc, Option.some.injEq] at h
    subst h
    exact ⟨.inr ⟨rfl, rfl⟩, rfl, .inl rfl, hcallers rfl⟩
  | disposeStop =>
    simp only [hpc, Option.some.injEq] at h
    subst h
    exact ⟨.inl ⟨rfl, rfl, nofun⟩, rfl, .inr ⟨rfl, Function.update_self ..⟩, hcallers rfl⟩
  | disposeTake =>
    simp only [hpc] at h
    split at h <;> cases h <;> exact ⟨.inl ⟨rfl, rfl, nofun⟩, rfl, .inl rfl, hcallers rfl⟩
  | disposeJoin =>
    simp only [hpc] at h
    split at h <;> cases h
    exact ⟨.inl ⟨rfl, rfl, nofun⟩, rfl, .inl rfl, hcallers rfl⟩

theorem Announced.call (h : Announced s) (hs : callerStep s t = some s') :
    Announced s' ∧ s'.worker.toEnd ≤ s.worker.toEnd ∧
      s'.executed.length + s'.worker.toBegin ≤ s.executed.length + s.worker.toBegin := by
  obtain ⟨hworker, hexecuted, hstopped, -⟩ := callerStep_signals hs
  have hstopped' : s'.isStopped = true := by
    rcases hstopped with hsame | ⟨htrue, -⟩
    · exact hsame.trans h.stopped
    · exact htrue
  -- a worker that does not wait on the condition variable stays where it is
  have hrelease : s.release.worker = s.worker :=
    State.release_worker.resolve_right fun hblocked => h.awake hblocked.1
  have hsame : s'.worker = s.worker := by
    rcases hworker with ⟨hsame, -, -⟩ | ⟨hsame, -⟩
    · exact hsame
    · exact hsame.trans hrelease
  rw [hexecuted, hsame]
  refine ⟨⟨hstopped', hsame ▸ h.awake, fun hwait => ?_⟩, Nat.le_refl _, Nat.le_refl _⟩
  rcases hworker with ⟨-, hsignaled, -⟩ | ⟨-, hsignaled⟩
  · exact hsignaled.trans (h.signaled (hsame ▸ hwait))
  · exact hsignaled

theorem State.begin_eq {pc : CallerPc E} (h : s.begin t pc = some s') : s' = s.setCaller t pc := by
  unfold State.begin at h
  split at h
  · split at h <;> cases h
    rfl
  · cases h

/-- A step lowers the rank if it is one of the worker, and never raises it. -/
theorem Announced.step {a : Action T E} (h : Announced s) (hs : step s a = some s') :
    Announced s' ∧ s'.worker.toEnd + (if a.isWorker then 1 else 0) ≤ s.worker.toEnd ∧
      s'.executed.length + s'.worker.toBegin ≤ s.executed.length + s.worker.toBegin := by
  cases a with
  | schedule t entry | dispose t =>
    rw [State.begin_eq hs]
    exact ⟨⟨h.stopped, h.awake, h.signaled⟩, Nat.le_refl _, Nat.le_refl _⟩
  | call t => exact h.call hs
  | worker => exact h.worker hs
  | wakeUp =>
    simp only [Dispatcher.step] at hs
    split at hs <;> cases hs
    exact absurd ‹_› h.awake

omit [DecidableEq T] in
theorem workerStep_same (hs : workerStep s = some s') :
    s'.callers = s.callers ∧ s'.isStopped = s.isStopped := by
  unfold workerStep at hs
  cases hpc : s.worker with
  | blocked | ended => simp [hpc] at hs
  | wait | take =>
    simp only [hpc] at hs
    split at hs <;> cases hs
    · exact ⟨rfl, rfl⟩
    · cases s.scheduledActors <;> exact ⟨rfl, rfl⟩
  | loadStopped | clearPending | endRound =>
    simp only [hpc, Option.some.injEq] at hs
    subst hs
    exact ⟨rfl, rfl⟩
  | execute entry batch =>
    simp only [hpc] at hs
    split at hs <;> cases hs
    exact ⟨rfl, rfl⟩
  | executed batch =>
    simp only [hpc] at hs
    split at hs <;> cases hs
    · exact ⟨rfl, rfl⟩
    · cases batch <;> exact ⟨rfl, rfl⟩

/-- A `dispose` stays at its release until it announces the stop. -/
theorem step_disposeRelease {a : Action T E} (hs : step s a = some s')
    (hstop : s.isStopped = true) (ht : s.callers t = .disposeRelease) :
    Announced s' ∨ s'.callers t = .disposeRelease := by
  cases a with
  | schedule u entry | dispose u =>
    refine .inr ?_
    have hut : t ≠ u := by
      rintro rfl
      simp only [Dispatcher.step, State.begin, ht, reduceCtorEq] at hs
    rw [State.begin_eq hs]
    exact (Function.update_of_ne hut ..).trans ht
  | call u =>
    by_cases hut : t = u
    · subst hut
      simp only [Dispatcher.step, callerStep, ht, Option.some.injEq] at hs
      subst hs
      exact .inl ⟨hstop, State.release_not_blocked, fun _ => rfl⟩
    · exact .inr (((callerStep_signals hs).2.2.2 t hut).trans ht)
  | worker =>
    refine .inr ?_
    rw [(workerStep_same hs).1]
    exact ht
  | wakeUp =>
    simp only [Dispatcher.step] at hs
    split at hs <;> cases hs
    exact .inr ht

/-- Only a `dispose` stops the dispatcher. -/
theorem step_isStopped {a : Action T E} (hs : step s a = some s') (hstop : s'.isStopped = true) :
    s.isStopped = true ∨ ∃ t, s'.callers t = .disposeRelease := by
  cases a with
  | schedule u entry | dispose u =>
    rw [State.begin_eq hs] at hstop
    exact .inl hstop
  | call u =>
    rcases (callerStep_signals hs).2.2.1 with hsame | ⟨-, ht⟩
    · exact .inl (hsame ▸ hstop)
    · exact .inr ⟨u, ht⟩
  | worker => exact .inl ((workerStep_same hs).2 ▸ hstop)
  | wakeUp =>
    simp only [Dispatcher.step] at hs
    split at hs <;> cases hs
    exact .inl hstop

/-- A stop is announced, or a `dispose` is about to announce it. -/
theorem announced_of_reach (h : Reach (machine T E) Machine.free s) (hstop : s.isStopped = true) :
    Announced s ∨ ∃ t, s.callers t = .disposeRelease := by
  refine h.inv (fun s => s.isStopped = true →
    Announced s ∨ ∃ t, s.callers t = .disposeRelease) ?_ ?_ hstop
  · rintro _ rfl hstop
    cases hstop
  · intro s a s' hi _ hs hstop'
    rcases step_isStopped hs hstop' with hstop | hrelease
    · rcases hi hstop with hann | ⟨t, ht⟩
      · exact .inl (hann.step hs).1
      · exact (step_disposeRelease hs hstop ht).imp_right fun ht => ⟨t, ht⟩
    · exact .inr hrelease

/-- **A disposed dispatcher ends.** Once the dispatcher is stopped and no `dispose` stands between
its store and its release, the worker can go on, or has ended, or executes an entry that is in a
call; and in every continuation it takes at most as many steps as it is from its end, five at the
most, and begins at most one more entry. -/
theorem disposal_ends (h : Reach (machine T E) Machine.free s) (hstop : s.isStopped = true)
    (hrelease : ∀ t, s.callers t ≠ .disposeRelease) :
    (s.worker = .ended ∨ (∃ s', step s .worker = some s') ∨
      ∃ entry batch, s.worker = .execute entry batch ∧ s.callers none ≠ .idle) ∧
    ∀ as s', (machine T E).run s as = some s' →
      s'.worker.toEnd + as.countP Action.isWorker ≤ s.worker.toEnd ∧ s.worker.toEnd ≤ 5 ∧
        (as.countP Action.isWorker = s.worker.toEnd → s'.worker = .ended) ∧
        s'.executed.length ≤ s.executed.length + 1 := by
  have hann : Announced s := (announced_of_reach h hstop).resolve_right fun ⟨t, ht⟩ =>
    hrelease t ht
  refine ⟨hann.enabled, fun as s' hrun => ?_⟩
  have hbegin := s.worker.toBegin_le
  obtain ⟨⟨-, hexecuted⟩, hrank⟩ := Machine.run_rank Action.isWorker
    (fun q => Announced q ∧
      q.executed.length + q.worker.toBegin ≤ s.executed.length + s.worker.toBegin)
    (fun q => q.worker.toEnd)
    (fun {q a q'} hq hs => by
      obtain ⟨hann', hle, hexec⟩ := hq.1.step hs
      exact ⟨⟨hann', Nat.le_trans hexec hq.2⟩, hle⟩)
    ⟨hann, Nat.le_refl _⟩ hrun
  refine ⟨hrank, s.worker.toEnd_le, fun hall => ?_, by omega⟩
  apply WorkerPc.toEnd_eq_zero.mp
  omega

end

/-- A thread disposes while the worker executes the first of two entries. -/
def disposedBusy : State Bool Nat :=
  ((machine Bool Nat).run (start Bool Nat)
    ([.schedule (some true) 7] ++ List.replicate 4 (.call (some true)) ++
      [.schedule (some false) 8, .call (some false), .call (some false), .call (some false)] ++
      List.replicate 4 .worker ++
      [.dispose (some true), .call (some true), .call (some true)])).get (by decide)

theorem disposal_ends_disposedBusy :
    disposedBusy.worker = .execute 7 [8] ∧
      ∀ as s', (machine Bool Nat).run disposedBusy as = some s' →
        as.countP Action.isWorker ≤ 3 ∧ s'.executed.length ≤ 2 := by
  have hworker : disposedBusy.worker = .execute 7 [8] := by decide
  have hreach : Reach (machine Bool Nat) Machine.free disposedBusy := .get_free rfl _
  have hrelease : ∀ t, disposedBusy.callers t ≠ .disposeRelease := by decide
  refine ⟨hworker, fun as s' hrun => ?_⟩
  obtain ⟨hcount, -, -, hexecuted⟩ := (disposal_ends hreach (by decide) hrelease).2 as s' hrun
  rw [hworker] at hcount
  have hlen : disposedBusy.executed.length = 1 := by decide
  simp only [WorkerPc.toEnd] at hcount
  exact ⟨by omega, by omega⟩

end DignusActor.Dispatcher
