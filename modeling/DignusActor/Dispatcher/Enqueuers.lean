import DignusActor.Dispatcher.ActorYieldTask
import DignusActor.Dispatcher.Moves

/-! # The threads that enqueue continuations

A thread between the call of `enqueue_continuation` and its call of `schedule` is in no call of the
dispatcher, and if it is the worker, it is in a callback or in another schedulable (`Apart`). So a
run with continuations is a run of the dispatcher (`dispatcher_reach`). -/

namespace DignusActor.Continuations

open Machine (Reach)
open Dispatcher (CallerPc)

variable {T R : Type} {s s' : State T R}

/-- A thread in `enqueue_continuation` can call the dispatcher. -/
def Apart (s : State T R) : Prop := ∀ t, s.enqueuers t ≠ .idle →
  s.dispatcher.callers t = .idle ∧ s.dispatcher.calls t = true ∧ (t = none → s.inUserCode = true)

/-! ## What the steps do -/

section

variable {t : Option T}

theorem State.free_iff : s.free t = true ↔
    s.enqueuers t = .idle ∧ s.dispatcher.callers t = .idle := by
  unfold free
  cases s.enqueuers t <;> cases s.dispatcher.callers t <;> simp

theorem State.free_of_calls (h : s.calls t = true) :
    s.enqueuers t = .idle ∧ s.dispatcher.callers t = .idle := by
  rw [calls, Bool.and_eq_true, Bool.and_eq_true] at h
  exact free_iff.mp h.1.1

theorem executing_task {i n : Nat} {batch : List (Entry R)}
    (h : s.dispatcher.worker = .execute (.yieldTask i n) batch) :
    s.dispatcher.worker.executing? = some (.yieldTask i n) := by
  rw [h]
  rfl

end

section

variable [DecidableEq T] {t : Option T}

/-- What a call of `schedule` or `dispose` does to the dispatcher. -/
theorem begin_eq {pc : CallerPc (Entry R)} {d d' : Dispatcher.State T (Entry R)}
    (h : d.begin t pc = some d') : d' = d.setCaller t pc := by
  unfold Dispatcher.State.begin at h
  split at h
  · split at h <;> cases h
    rfl
  · cases h

/-- The worker does a step of `execute`, or goes on in the dispatcher with no task in execution. -/
theorem workerStep_cases (hs : workerStep s = some s') :
    (∃ i n, s.dispatcher.worker.executing? = some (.yieldTask i n) ∧
      executeStep s i = some s') ∨
    (∀ i n, s.dispatcher.worker.executing? ≠ some (.yieldTask i n)) ∧
      s.inDispatcher .worker = some s' := by
  unfold workerStep at hs
  split at hs
  · exact .inl ⟨_, _, executing_task ‹_›, hs⟩
  · rename_i hpc
    split at hs
    · refine .inr ⟨fun i n hexec => ?_, hs⟩
      rw [hpc] at hexec
      cases hexec
    · cases hs
  · rename_i htask _
    refine .inr ⟨fun i n hexec => ?_, hs⟩
    unfold Dispatcher.WorkerPc.executing? at hexec
    split at hexec
    · rename_i batch hpc
      cases hexec
      exact htask _ _ batch hpc
    · cases hexec

omit [DecidableEq T] in
theorem State.pop_same : s.pop.2.dispatcher = s.dispatcher ∧ s.pop.2.enqueuers = s.enqueuers ∧
    s.pop.2.given = s.given ∧ s.pop.2.execute = s.execute ∧ s.pop.2.ran = s.ran := by
  unfold pop
  split <;> exact ⟨rfl, rfl, rfl, rfl, rfl⟩

/-- What a step of the worker keeps of the callers. -/
theorem workerStep_calls (hs : workerStep s = some s') : s'.enqueuers = s.enqueuers ∧
    s'.dispatcher.callers = s.dispatcher.callers ∧ s'.dispatcher.pushed = s.dispatcher.pushed ∧
    s'.given = s.given ∧ s'.dispatcher.isStopped = s.dispatcher.isStopped := by
  rcases workerStep_cases hs with ⟨i, n, -, hs⟩ | ⟨-, hs⟩
  · unfold executeStep at hs
    cases hpc : s.execute <;> simp only [hpc] at hs
    case returned =>
      obtain ⟨d, hd, rfl⟩ := Option.map_eq_some_iff.mp hs
      obtain ⟨-, hcallers, hpushed, hstop⟩ := Dispatcher.workerStep_move hd
      exact ⟨rfl, hcallers, hpushed, rfl, hstop⟩
    case running =>
      split at hs <;> cases hs
      exact ⟨rfl, rfl, rfl, rfl, rfl⟩
    all_goals
      cases hs
      exact ⟨rfl, rfl, rfl, rfl, rfl⟩
  · obtain ⟨d, hd, rfl⟩ := Option.map_eq_some_iff.mp hs
    obtain ⟨-, hcallers, hpushed, hstop⟩ := Dispatcher.workerStep_move hd
    exact ⟨rfl, hcallers, hpushed, rfl, hstop⟩

/-! ## The runs of the dispatcher -/

omit [DecidableEq T] in
theorem calls_congr {d d' : Dispatcher.State T (Entry R)}
    (h : d'.worker.executing? = d.worker.executing?) : d'.calls t = d.calls t := by
  cases t with
  | some t => rfl
  | none =>
    have hcalls (d : Dispatcher.State T (Entry R)) :
        d.calls none = d.worker.executing?.isSome := by
      unfold Dispatcher.State.calls
      cases d.worker <;> rfl
    rw [hcalls, hcalls, h]

omit [DecidableEq T] in
theorem inUserCode_congr (hexec : s'.dispatcher.worker.executing? = s.dispatcher.worker.executing?)
    (hpc : s'.execute = s.execute) : s'.inUserCode = s.inUserCode := by
  unfold State.inUserCode
  unfold Dispatcher.WorkerPc.executing? at hexec
  rw [hpc]
  cases hw : s.dispatcher.worker with
  | execute entry batch =>
    cases hw' : s'.dispatcher.worker with
    | execute entry' batch' =>
      simp only [hw, hw', Option.some.injEq] at hexec
      subst hexec
      cases entry' <;> rfl
    | _ => simp [hw, hw'] at hexec
  | _ =>
    cases hw' : s'.dispatcher.worker with
    | execute entry' batch' => simp [hw, hw'] at hexec
    | _ => rfl

omit [DecidableEq T] in
theorem Apart.entry_none (h : Apart s) (hbusy : s.enqueuers t ≠ .idle) :
    (s.dispatcher.callers t).entryOf = none := by
  rw [(h t hbusy).1]
  rfl

omit [DecidableEq T] in
theorem Apart.same (h : Apart s) (henqueuers : ∀ u, s'.enqueuers u ≠ .idle →
      s.enqueuers u ≠ .idle ∧ s'.dispatcher.callers u = s.dispatcher.callers u)
    (hexec : s'.dispatcher.worker.executing? = s.dispatcher.worker.executing?)
    (hpc : s'.execute = s.execute) : Apart s' := by
  intro u hu
  obtain ⟨hbusy, hcallers⟩ := henqueuers u hu
  obtain ⟨hidle, hcalls, hcode⟩ := h u hbusy
  exact ⟨hcallers.trans hidle, (calls_congr hexec).trans hcalls,
    fun hnone => (inUserCode_congr hexec hpc).trans (hcode hnone)⟩

/-- The worker makes no step while it is in `enqueue_continuation`. -/
theorem Apart.worker_idle (h : Apart s) (hs : workerStep s = some s') :
    s.enqueuers none = .idle := by
  by_contra hbusy
  obtain ⟨-, hcalls, hcode⟩ := h none hbusy
  have hfree : s.free none = false := by
    rw [Bool.eq_false_iff]
    exact fun hfree => hbusy (State.free_iff.mp hfree).1
  have hcode := hcode rfl
  unfold workerStep at hs
  unfold State.inUserCode at hcode
  unfold Dispatcher.State.calls at hcalls
  cases hw : s.dispatcher.worker with
  | execute entry batch =>
    rw [hw] at hcode
    cases entry with
    | yieldTask i n => simp [hw, executeStep, beq_iff_eq.mp hcode, hfree] at hs
    | other runner => simp [hw, hfree] at hs
  | _ =>
    rw [hw] at hcalls
    cases hcalls

theorem Apart.worker (h : Apart s) (hs : workerStep s = some s') : Apart s' := by
  have hnone := h.worker_idle hs
  obtain ⟨henqueuers, hcallers, -⟩ := workerStep_calls hs
  intro u hu
  rw [henqueuers] at hu
  obtain ⟨hidle, -⟩ := h u hu
  cases u with
  | none => exact absurd hnone hu
  | some u => exact ⟨(congrFun hcallers _).trans hidle, rfl, fun hnone => by cases hnone⟩

theorem Apart.step {a : Action T R} (h : Apart s) (hs : step s a = some s') : Apart s' := by
  cases a with
  | enqueue t =>
    simp only [Continuations.step] at hs
    split at hs <;> cases hs
    rename_i hcalls
    have hidle := (State.free_of_calls hcalls).2
    rw [State.calls, Bool.and_eq_true, Bool.and_eq_true] at hcalls
    intro u hu
    by_cases hut : u = t
    · subst hut
      refine ⟨hidle, hcalls.1.2, ?_⟩
      rintro rfl
      exact hcalls.2
    · exact h u fun hu' => hu ((Function.update_of_ne hut ..).trans hu')
  | enqueuer t =>
    simp only [Continuations.step, enqueuerStep] at hs
    cases hpc : s.enqueuers t <;> simp only [hpc] at hs <;> cases hs
    · obtain ⟨hdispatcher, henqueuers, -, hexecute, -⟩ := s.pop_same
      refine h.same (fun u hu => ⟨fun hu' => hu ?_, congrFun (congrArg _ hdispatcher) u⟩)
        (congrArg (·.worker.executing?) hdispatcher) hexecute
      have hut : u ≠ t := by
        rintro rfl
        cases hpc.symm.trans hu'
      exact (Function.update_of_ne hut ..).trans ((congrFun henqueuers u).trans hu')
    · have hne {u : Option T} (hu : Function.update s.enqueuers t .idle u ≠ .idle) : u ≠ t := by
        rintro rfl
        exact hu (Function.update_self ..)
      exact h.same (fun u hu => ⟨fun hu' => hu ((Function.update_of_ne (hne hu) ..).trans hu'),
        Function.update_of_ne (hne hu) ..⟩) rfl rfl
  | schedule t runner | dispose t =>
    simp only [Continuations.step] at hs
    split at hs
    · rename_i hcalls
      obtain ⟨d, hd, rfl⟩ := Option.map_eq_some_iff.mp hs
      cases begin_eq hd
      refine h.same (fun u hu => ⟨hu, Function.update_of_ne ?_ ..⟩) rfl rfl
      rintro rfl
      exact hu (State.free_of_calls hcalls).1
    · cases hs
  | call t =>
    obtain ⟨d, hd, rfl⟩ := Option.map_eq_some_iff.mp hs
    obtain ⟨hmove, hexec, -⟩ := Dispatcher.callerStep_move hd
    have hbusy : s.dispatcher.callers t ≠ .idle := by
      intro hidle
      rw [Dispatcher.step, Dispatcher.callerStep, hidle] at hd
      cases hd
    refine h.same (fun u hu => ⟨hu, ?_⟩) hexec rfl
    have hut : u ≠ t := by
      rintro rfl
      exact hbusy (h u hu).1
    cases hmove with
    | still pc _ hcallers => exact (congrFun hcallers u).trans (Function.update_of_ne hut ..)
    | push entry _ hcallers => exact (congrFun hcallers u).trans (Function.update_of_ne hut ..)
  | worker => exact h.worker hs
  | wakeUp =>
    obtain ⟨d, hd, rfl⟩ := Option.map_eq_some_iff.mp hs
    obtain ⟨hnone, hnone', -, hcallers, -⟩ := Dispatcher.wakeUp_move hd
    exact h.same (fun u hu => ⟨hu, congrFun hcallers u⟩) (hnone'.trans hnone.symm) rfl

/-- The call of `schedule` by a thread in `enqueue_continuation`. -/
theorem Apart.begin (h : Apart s) (hbusy : s.enqueuers t ≠ .idle)
    (caller : CallerPc (Entry R)) :
    s.dispatcher.begin t caller = some (s.dispatcher.setCaller t caller) := by
  obtain ⟨hidle, hcalls, -⟩ := h t hbusy
  rw [Dispatcher.State.begin, hidle]
  exact if_pos hcalls

theorem apart_of_reach (h : Reach (machine T R) Machine.free s) : Apart s := by
  refine h.inv Apart ?_ fun hinv _ hs => hinv.step hs
  rintro _ rfl _ h
  exact absurd rfl h

theorem dispatcher_reach (h : Reach (machine T R) Machine.free s) :
    Reach (Dispatcher.machine T (Entry R)) Machine.free s.dispatcher := by
  refine h.map (·.dispatcher) ?_ fun {s a s'} hreach _ _ hs => ?_
  · rintro _ rfl
    exact rfl
  have hinside {s s' : State T R} {b : Dispatcher.Action T (Entry R)}
      (hs : s.inDispatcher b = some s') :
      (Dispatcher.machine T (Entry R)).step s.dispatcher b = some s'.dispatcher := by
    obtain ⟨d, hd, rfl⟩ := Option.map_eq_some_iff.mp hs
    exact hd
  have happart := apart_of_reach hreach
  cases a with
  | enqueue t =>
    simp only [machine, Continuations.step] at hs
    split at hs <;> cases hs
    exact .inl rfl
  | enqueuer t =>
    simp only [machine, Continuations.step, enqueuerStep] at hs
    cases hpc : s.enqueuers t <;> simp only [hpc] at hs <;> cases hs
    · exact .inl s.pop_same.1
    · exact .inr ⟨.schedule t _, trivial, happart.begin (by rw [hpc]; simp) _⟩
  | schedule t runner | dispose t =>
    simp only [machine, Continuations.step] at hs
    split at hs
    · exact .inr ⟨_, trivial, hinside hs⟩
    · cases hs
  | call t => exact .inr ⟨_, trivial, hinside hs⟩
  | worker =>
    rcases workerStep_cases hs with ⟨i, n, -, hs⟩ | ⟨-, hs⟩
    · unfold executeStep at hs
      cases hpc : s.execute <;> simp only [hpc] at hs
      case returned =>
        obtain ⟨d, hd, rfl⟩ := Option.map_eq_some_iff.mp hs
        exact .inr ⟨.worker, trivial, hd⟩
      case running =>
        split at hs <;> cases hs
        exact .inl rfl
      all_goals
        cases hs
        exact .inl rfl
    · exact .inr ⟨_, trivial, hinside hs⟩
  | wakeUp => exact .inr ⟨_, trivial, hinside hs⟩

end

end DignusActor.Continuations
