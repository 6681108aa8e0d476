import DignusActor.Dispatcher.YieldTasks

/-! # Every continuation runs once

A callback that was given to `enqueue_continuation` is with one thread, or its task was scheduled,
once (`Calls`). The tasks are executed in the order of the queue and each still has its callback, so
the callbacks are called in the order in which they were scheduled (`State.Faithful`). -/

namespace DignusActor.Continuations

open Machine (Reach)
open Dispatcher (CallerPc WorkerPc)

variable {T R : Type}

def Entry.call? : Entry R → Option Nat
  | .yieldTask _ call => some call
  | .other _ => none

/-- A thread that stands there has the callback. -/
def Carried (pc : EnqueuerPc) (caller : CallerPc (Entry R)) (callback : Nat) : Prop :=
  pc = .pop callback ∨ (∃ task, pc = .set task callback) ∨
    ∃ task, caller.entryOf = some (.yieldTask task callback)

namespace State

/-- Thread `t` has a callback that it was given, and it has not yet scheduled its task. -/
def Carries (s : State T R) (t : Option T) (callback : Nat) : Prop :=
  Carried (s.enqueuers t) (s.dispatcher.callers t) callback

/-- The callbacks in the order in which their tasks were scheduled. -/
def scheduled (s : State T R) : List Nat := s.dispatcher.pushed.filterMap Entry.call?

/-- The callback of the task in execution, until it is called. -/
def current (s : State T R) : List Nat :=
  match s.dispatcher.worker.executing?, s.execute with
  | some (.yieldTask _ call), .take => [call]
  | some (.yieldTask _ call), .call _ => [call]
  | _, _ => []

end State

/-- Each callback is with one thread, or its task was scheduled once. -/
structure Calls (s : State T R) : Prop where
  scheduled_nodup : s.scheduled.Nodup
  scheduled_lt : ∀ n ∈ s.scheduled, n < s.given
  carried_lt : ∀ t n, s.Carries t n → n < s.given
  carried_new : ∀ t n, s.Carries t n → n ∉ s.scheduled
  carried_inj : ∀ t t' n, s.Carries t n → s.Carries t' n → t = t'
  complete : s.dispatcher.isStopped = false → ∀ n < s.given,
    n ∈ s.scheduled ∨ ∃ t, s.Carries t n

/-- The executed tasks, in order, had the callbacks that were called. -/
def State.Faithful (s : State T R) : Prop :=
  s.dispatcher.executed.filterMap Entry.call? = s.ran ++ s.current

section

variable {s s' : State T R} {i n : Nat}

theorem start_calls : Calls (start T R) where
  scheduled_nodup := List.nodup_nil
  scheduled_lt _ h := by cases h
  carried_lt t n h := by
    rcases h with h | ⟨_, h⟩ | ⟨_, h⟩
    · cases h
    · cases h
    · cases h
  carried_new t n _ h := by cases h
  carried_inj t t' n h := by
    rcases h with h | ⟨_, h⟩ | ⟨_, h⟩
    · cases h
    · cases h
    · cases h
  complete _ n h := absurd h (Nat.not_lt_zero n)

/-- A thread keeps what it carries, or drops it on a stopped dispatcher. -/
theorem Calls.same (h : Calls s) (hscheduled : s'.scheduled = s.scheduled)
    (hgiven : s'.given = s.given) (hcarries : ∀ t n, s'.Carries t n → s.Carries t n)
    (hback : s'.dispatcher.isStopped = false →
      s.dispatcher.isStopped = false ∧ ∀ t n, s.Carries t n → s'.Carries t n) : Calls s' where
  scheduled_nodup := hscheduled ▸ h.scheduled_nodup
  scheduled_lt n hn := hgiven ▸ h.scheduled_lt n (hscheduled ▸ hn)
  carried_lt t n hn := hgiven ▸ h.carried_lt t n (hcarries t n hn)
  carried_new t n hn := hscheduled ▸ h.carried_new t n (hcarries t n hn)
  carried_inj t t' n hn hn' := h.carried_inj t t' n (hcarries t n hn) (hcarries t' n hn')
  complete hrun n hn := by
    obtain ⟨hrun, hback⟩ := hback hrun
    rw [hscheduled]
    exact (h.complete hrun n (hgiven ▸ hn)).imp_right fun ⟨t, ht⟩ => ⟨t, hback t n ht⟩

/-- A thread is given a callback. -/
theorem Calls.give (h : Calls s) {t : Option T} (hscheduled : s'.scheduled = s.scheduled)
    (hgiven : s'.given = s.given + 1) (hstop : s'.dispatcher.isStopped = s.dispatcher.isStopped)
    (hcarries : ∀ u n, s'.Carries u n ↔ s.Carries u n ∨ u = t ∧ n = s.given) : Calls s' where
  scheduled_nodup := hscheduled ▸ h.scheduled_nodup
  scheduled_lt n hn := by
    rw [hgiven]
    exact (h.scheduled_lt n (hscheduled ▸ hn)).trans (Nat.lt_succ_self _)
  carried_lt u n hn := by
    rw [hgiven]
    rcases (hcarries u n).mp hn with hn | ⟨-, rfl⟩
    · exact (h.carried_lt u n hn).trans (Nat.lt_succ_self _)
    · exact Nat.lt_succ_self _
  carried_new u n hn := by
    rw [hscheduled]
    rcases (hcarries u n).mp hn with hn | ⟨-, rfl⟩
    · exact h.carried_new u n hn
    · exact fun hmem => (h.scheduled_lt _ hmem).false
  carried_inj u u' n hn hn' := by
    rcases (hcarries u n).mp hn with hn | ⟨rfl, rfl⟩
    · rcases (hcarries u' n).mp hn' with hn' | ⟨-, rfl⟩
      · exact h.carried_inj u u' n hn hn'
      · exact absurd (h.carried_lt u _ hn) (lt_irrefl _)
    · rcases (hcarries u' _).mp hn' with hn' | ⟨rfl, -⟩
      · exact absurd (h.carried_lt u' _ hn') (lt_irrefl _)
      · rfl
  complete hrun n hn := by
    rw [hscheduled]
    rcases Nat.lt_succ_iff_lt_or_eq.mp (hgiven ▸ hn) with hn | rfl
    · exact (h.complete (hstop ▸ hrun) n hn).imp_right fun ⟨u, hu⟩ =>
        ⟨u, (hcarries u n).mpr (.inl hu)⟩
    · exact .inr ⟨t, (hcarries t _).mpr (.inr ⟨rfl, rfl⟩)⟩

/-- A thread schedules the task of the callback that it carries. -/
theorem Calls.schedule (h : Calls s) {t : Option T} (hn : s.Carries t n)
    (hscheduled : s'.scheduled = s.scheduled ++ [n]) (hgiven : s'.given = s.given)
    (hrunning : s'.dispatcher.isStopped = false → s.dispatcher.isStopped = false)
    (hcarries : ∀ u m, s'.Carries u m ↔ s.Carries u m ∧ u ≠ t)
    (honly : ∀ m, s.Carries t m → m = n) : Calls s' where
  scheduled_nodup := by
    rw [hscheduled]
    exact List.nodup_append_comm.mp
      (List.nodup_cons.mpr ⟨h.carried_new t n hn, h.scheduled_nodup⟩)
  scheduled_lt m hm := by
    rw [hgiven]
    rcases List.mem_append.mp (hscheduled ▸ hm) with hm | hm
    · exact h.scheduled_lt m hm
    · exact List.mem_singleton.mp hm ▸ h.carried_lt t n hn
  carried_lt u m hm := hgiven ▸ h.carried_lt u m ((hcarries u m).mp hm).1
  carried_new u m hm hmem := by
    obtain ⟨hm, hut⟩ := (hcarries u m).mp hm
    rcases List.mem_append.mp (hscheduled ▸ hmem) with hmem | hmem
    · exact h.carried_new u m hm hmem
    · cases List.mem_singleton.mp hmem
      exact hut (h.carried_inj u t n hm hn)
  carried_inj u u' m hm hm' :=
    h.carried_inj u u' m ((hcarries u m).mp hm).1 ((hcarries u' m).mp hm').1
  complete hrun m hm := by
    rw [hscheduled]
    rcases h.complete (hrunning hrun) m (hgiven ▸ hm) with hm | ⟨u, hu⟩
    · exact .inl (List.mem_append_left _ hm)
    · by_cases hut : u = t
      · subst hut
        exact .inl (List.mem_append_right _ (List.mem_singleton.mpr (honly m hu)))
      · exact .inr ⟨u, (hcarries u m).mpr ⟨hu, hut⟩⟩

section

variable [DecidableEq T] {t u : Option T} {pc : EnqueuerPc} {caller : CallerPc (Entry R)}

theorem State.carries_update (hpc : s'.enqueuers = Function.update s.enqueuers t pc)
    (hcaller : s'.dispatcher.callers = Function.update s.dispatcher.callers t caller) :
    s'.Carries u n ↔ u = t ∧ Carried pc caller n ∨ u ≠ t ∧ s.Carries u n := by
  rw [Carries, hpc, hcaller]
  by_cases hut : u = t
  · subst hut
    simp
  · simp [hut, Carries]

theorem State.carries_caller (hpc : s'.enqueuers = s.enqueuers)
    (hcaller : s'.dispatcher.callers = Function.update s.dispatcher.callers t caller) :
    s'.Carries u n ↔ u = t ∧ Carried (s.enqueuers t) caller n ∨ u ≠ t ∧ s.Carries u n :=
  carries_update (hpc.trans (Function.update_eq_self ..).symm) hcaller

omit [DecidableEq T] in
theorem State.not_carries (h : s.free t = true) : ¬s.Carries t n := by
  obtain ⟨hpc, hcaller⟩ := free_iff.mp h
  simp [Carries, Carried, hpc, hcaller, CallerPc.entryOf]

omit [DecidableEq T] in
theorem State.carries_entry (h : Apart s) {entry : Entry R}
    (hentry : (s.dispatcher.callers t).entryOf = some entry) :
    s.Carries t n ↔ ∃ i, entry = .yieldTask i n := by
  have hidle : s.enqueuers t = .idle := by
    by_contra hpc
    cases hentry.symm.trans (h.entry_none hpc)
  simp [Carries, Carried, hidle, hentry]

/-! ### The steps -/

theorem Calls.enqueue (h : Calls s) (hfree : s.free t = true) :
    Calls { s.setEnqueuer t (.pop s.given) with given := s.given + 1 } := by
  refine h.give (t := t) rfl rfl rfl fun u n => ?_
  have hentry : (s.dispatcher.callers t).entryOf = none := by
    rw [(State.free_iff.mp hfree).2]
    rfl
  refine (State.carries_update (s := s) (t := t) (by rfl)
    (by exact (Function.update_eq_self ..).symm)).trans ?_
  change u = t ∧ Carried (.pop s.given) (s.dispatcher.callers t) n ∨ _ ↔ _
  by_cases hut : u = t
  · subst hut
    simp [Carried, hentry, State.not_carries hfree, eq_comm]
  · simp [hut]

/-- A step of thread `t` after which it carries what it carried. -/
theorem Calls.move (h : Calls s) (hpc : s'.enqueuers = Function.update s.enqueuers t pc)
    (hcaller : s'.dispatcher.callers = Function.update s.dispatcher.callers t caller)
    (hpushed : s'.dispatcher.pushed = s.dispatcher.pushed) (hgiven : s'.given = s.given)
    (hcarried : ∀ n, Carried pc caller n → s.Carries t n)
    (hback : s'.dispatcher.isStopped = false → s.dispatcher.isStopped = false ∧
      ∀ n, s.Carries t n → Carried pc caller n) : Calls s' := by
  refine h.same (by rw [State.scheduled, State.scheduled, hpushed]) hgiven (fun u n hu => ?_)
    fun hrun => ⟨(hback hrun).1, fun u n hu => ?_⟩
  · rcases (State.carries_update hpc hcaller).mp hu with ⟨rfl, hu⟩ | ⟨-, hu⟩
    · exact hcarried n hu
    · exact hu
  · refine (State.carries_update hpc hcaller).mpr ?_
    by_cases hut : u = t
    · exact .inl ⟨hut, (hback hrun).2 n (hut ▸ hu)⟩
    · exact .inr ⟨hut, hu⟩

theorem Calls.pop (h : Calls s) (happart : Apart s) (hpc : s.enqueuers t = .pop n) :
    Calls (s.pop.2.setEnqueuer t (.set s.pop.1 n)) := by
  obtain ⟨hdispatcher, henqueuers, hgiven, -, -⟩ := s.pop_same
  have hentry := happart.entry_none (t := t) (by rw [hpc]; simp)
  have hcarries (m : Nat) :
      Carried (.set s.pop.1 n) (s.dispatcher.callers t) m ↔ s.Carries t m := by
    simp [State.Carries, Carried, hpc, hentry]
  refine h.move (t := t) (by rw [State.setEnqueuer, henqueuers])
    ((congrArg _ hdispatcher).trans (Function.update_eq_self ..).symm) (congrArg _ hdispatcher)
    hgiven
    (fun m => (hcarries m).mp) fun hrun => ⟨?_, fun m => (hcarries m).mpr⟩
  exact (congrArg _ hdispatcher).symm.trans hrun

theorem Calls.set (h : Calls s) (happart : Apart s) (hpc : s.enqueuers t = .set i n) :
    Calls (((s.put i (some n)).setEnqueuer t .idle).setCaller t
      (.scheduleStopped (.yieldTask i n))) := by
  have hentry := happart.entry_none (t := t) (by rw [hpc]; simp)
  have hcaller : (.scheduleStopped (.yieldTask i n) : CallerPc (Entry R)).entryOf =
      some (.yieldTask i n) := rfl
  have hcarries (m : Nat) :
      Carried .idle (.scheduleStopped (.yieldTask i n) : CallerPc (Entry R)) m ↔
      s.Carries t m := by
    simp [State.Carries, Carried, hpc, hentry, hcaller]
  exact h.move rfl rfl rfl rfl (fun m => (hcarries m).mp) fun hrun =>
    ⟨hrun, fun m => (hcarries m).mpr⟩

theorem Calls.begin (h : Calls s) {d : Dispatcher.State T (Entry R)} (hfree : s.free t = true)
    (hcaller : ∀ i n, caller.entryOf ≠ some (.yieldTask i n))
    (hd : s.dispatcher.begin t caller = some d) : Calls { s with dispatcher := d } := by
  cases begin_eq hd
  have hidle := (State.free_iff.mp hfree).1
  refine h.move (Function.update_eq_self ..).symm rfl rfl rfl (fun m hm => ?_) fun hrun =>
    ⟨hrun, fun m hm => absurd hm (State.not_carries hfree)⟩
  rw [hidle] at hm
  rcases hm with hm | ⟨_, hm⟩ | ⟨_, hm⟩
  · cases hm
  · cases hm
  · exact absurd hm (hcaller _ _)

theorem Calls.call (h : Calls s) (happart : Apart s) (hs : s.inDispatcher (.call t) = some s') :
    Calls s' := by
  obtain ⟨d, hd, rfl⟩ := Option.map_eq_some_iff.mp hs
  obtain ⟨hmove, hexec⟩ := Dispatcher.callerStep_move hd
  have hrunning (hrun : d.isStopped = false) : s.dispatcher.isStopped = false := by
    by_contra hstop
    exact Bool.false_ne_true (hrun.symm.trans (hexec.stopped (by simpa using hstop)))
  cases hmove with
  | still pc hpc hcallers hpushed _ =>
    refine h.move (Function.update_eq_self ..).symm hcallers hpushed rfl (fun m hm => ?_)
      fun hrun => ⟨hrunning hrun, fun m hm => ?_⟩
    · refine hm.imp_right (.imp_right fun ⟨i, hi⟩ => ⟨i, ?_⟩)
      rcases hpc with hpc | ⟨hpc, -⟩
      · exact hpc ▸ hi
      · cases hpc.symm.trans hi
    · refine hm.imp_right (.imp_right fun ⟨i, hi⟩ => ⟨i, ?_⟩)
      rcases hpc with hpc | ⟨-, hstop⟩
      · exact hpc.trans hi
      · exact absurd (hstop.symm.trans (hrunning hrun)) (by simp)
  | push entry hentry hcallers hpushed _ =>
    have hnone (m : Nat) : ¬Carried (s.enqueuers t) (.schedulePending : CallerPc (Entry R)) m := by
      have hidle : s.enqueuers t = .idle := by
        by_contra hpc
        cases hentry.symm.trans (happart.entry_none hpc)
      simp [Carried, hidle, CallerPc.entryOf]
    cases entry with
    | other runner =>
      have hcarries (m : Nat) : ¬s.Carries t m := by
        rw [State.carries_entry happart hentry]
        simp
      refine h.same ?_ rfl (fun u m hu => ?_) fun hrun => ⟨hrunning hrun, fun u m hu => ?_⟩
      · simp [State.scheduled, hpushed, Entry.call?]
      · rcases (State.carries_caller (s := s) (by rfl) (by exact hcallers)).mp hu with
          ⟨-, hu⟩ | ⟨-, hu⟩
        · exact absurd hu (hnone m)
        · exact hu
      · refine (State.carries_caller (s := s) (by rfl) (by exact hcallers)).mpr (.inr ⟨?_, hu⟩)
        rintro rfl
        exact hcarries m hu
    | yieldTask i n =>
      have hcarries (m : Nat) : s.Carries t m ↔ n = m := by
        rw [State.carries_entry happart hentry]
        simp
      refine h.schedule (t := t) (n := n) ((hcarries n).mpr rfl) ?_ rfl ?_ (fun u m => ?_)
        fun m hm => ((hcarries m).mp hm).symm
      · simp [State.scheduled, hpushed, Entry.call?]
      · exact hrunning
      · refine (State.carries_caller (s := s) (by rfl) (by exact hcallers)).trans ?_
        simp [hnone, and_comm]

theorem Calls.step {a : Action T R} (h : Calls s) (happart : Apart s) (hs : step s a = some s') :
    Calls s' := by
  cases a with
  | enqueue t =>
    simp only [Continuations.step] at hs
    split at hs <;> cases hs
    exact h.enqueue (State.free_iff.mpr (State.free_of_calls ‹_›))
  | enqueuer t =>
    simp only [Continuations.step, enqueuerStep] at hs
    cases hpc : s.enqueuers t <;> simp only [hpc] at hs <;> cases hs
    · exact h.pop happart hpc
    · exact h.set happart hpc
  | schedule t runner =>
    simp only [Continuations.step] at hs
    split at hs
    · obtain ⟨d, hd, rfl⟩ := Option.map_eq_some_iff.mp hs
      exact h.begin (State.free_iff.mpr (State.free_of_calls ‹_›)) (by simp [CallerPc.entryOf]) hd
    · cases hs
  | dispose t =>
    simp only [Continuations.step] at hs
    split at hs
    · obtain ⟨d, hd, rfl⟩ := Option.map_eq_some_iff.mp hs
      exact h.begin (State.free_iff.mpr (State.free_of_calls ‹_›)) (by simp [CallerPc.entryOf]) hd
    · cases hs
  | call t => exact h.call happart hs
  | worker =>
    obtain ⟨hpc, hcallers, hpushed, hgiven, hstop⟩ := workerStep_calls hs
    refine h.same (by rw [State.scheduled, State.scheduled, hpushed]) hgiven (fun t n ht => ?_)
      fun hrun => ⟨hstop ▸ hrun, fun t n ht => ?_⟩
    · rwa [State.Carries, hpc, hcallers] at ht
    · rwa [State.Carries, hpc, hcallers]
  | wakeUp =>
    obtain ⟨d, hd, rfl⟩ := Option.map_eq_some_iff.mp hs
    obtain ⟨-, -, -, hcallers, hpushed, hstop⟩ := Dispatcher.wakeUp_move hd
    refine h.same (by rw [State.scheduled, State.scheduled, hpushed]) rfl (fun t n ht => ?_)
      fun hrun => ⟨hstop ▸ hrun, fun t n ht => ?_⟩
    · rwa [State.Carries, hcallers] at ht
    · rwa [State.Carries, hcallers]

/-! ## The order of the callbacks -/

omit [DecidableEq T] in
/-- A step that neither starts an entry nor calls a callback. -/
theorem State.Faithful.same (h : s.Faithful)
    (hexecuted : s'.dispatcher.executed = s.dispatcher.executed) (hran : s'.ran = s.ran)
    (hexec : s'.dispatcher.worker.executing? = s.dispatcher.worker.executing?)
    (hpc : s'.execute = s.execute) : s'.Faithful := by
  rwa [Faithful, current, hexecuted, hran, hexec, hpc]

omit [DecidableEq T] in
theorem State.current_nil
    (h : ∀ i n, s.dispatcher.worker.executing? ≠ some (.yieldTask i n)) : s.current = [] := by
  unfold current
  split
  · exact (h _ _ ‹_›).elim
  · exact (h _ _ ‹_›).elim
  · rfl

omit [DecidableEq T] in
theorem State.Faithful.worker (h : s.Faithful) {d : Dispatcher.State T (Entry R)}
    (hcurrent : s.current = []) (hmove : Dispatcher.WorkerMove s.dispatcher d) :
    State.Faithful { s with execute := .take, dispatcher := d } := by
  rw [Faithful, hcurrent, List.append_nil] at h
  rw [Faithful]
  cases hmove with
  | rest hnone hexecuted _ =>
    rw [current_nil (by simp [hnone]), List.append_nil]
    exact hexecuted ▸ h
  | begin entry _ hsome hexecuted _ =>
    show d.executed.filterMap Entry.call? = s.ran ++ _
    rw [hexecuted, List.filterMap_append, h]
    simp only [current, hsome]
    cases entry <;> rfl

theorem State.Faithful.execute (h : s.Faithful) (htasks : Tasks s)
    (hexec : s.dispatcher.worker.executing? = some (.yieldTask i n))
    (hs : executeStep s i = some s') : s'.Faithful := by
  have hkeeps := htasks.kept.executing i n hexec
  unfold Faithful at h
  unfold executeStep at hs
  cases hpc : s.execute <;> rw [hpc] at hkeeps <;> simp only [hpc] at hs <;>
    simp only [current, hexec, hpc] at h
  case take =>
    cases hs
    rw [show s.sendOrPostCallback i = some n from hkeeps]
    simpa only [Faithful, current, put, hexec] using h
  case call callback =>
    cases hs
    obtain ⟨rfl, -⟩ := hkeeps
    simpa only [Faithful, current, hexec, List.append_nil] using h
  case running =>
    split at hs <;> cases hs
    simpa only [Faithful, current, hexec] using h
  case recycleClear | recyclePush =>
    cases hs
    simpa only [Faithful, current, put, hexec] using h
  case returned =>
    obtain ⟨d, hd, rfl⟩ := Option.map_eq_some_iff.mp hs
    obtain ⟨hmove, -⟩ := Dispatcher.workerStep_move hd
    exact State.Faithful.worker (s := s) (by simpa only [Faithful, current, hexec, hpc] using h)
      (by simp only [current, hexec, hpc]) hmove

omit [DecidableEq T] in
theorem State.Faithful.goIdle (h : s.Faithful) (htasks : Tasks s)
    {d : Dispatcher.State T (Entry R)}
    (hexec : ∀ i n, s.dispatcher.worker.executing? ≠ some (.yieldTask i n))
    (hmove : Dispatcher.WorkerMove s.dispatcher d) :
    State.Faithful { s with dispatcher := d } := by
  have hworker := h.worker (current_nil hexec) hmove
  rwa [← htasks.kept.ready hexec] at hworker

theorem State.Faithful.step {a : Action T R} (h : s.Faithful) (htasks : Tasks s)
    (hs : step s a = some s') : s'.Faithful := by
  cases a with
  | enqueue t =>
    simp only [Continuations.step] at hs
    split at hs <;> cases hs
    exact h.same rfl rfl rfl rfl
  | enqueuer t =>
    obtain ⟨hdispatcher, -, -, hpc', hran⟩ := s.pop_same
    simp only [Continuations.step, enqueuerStep] at hs
    cases hpc : s.enqueuers t <;> simp only [hpc] at hs <;> cases hs
    · exact h.same (congrArg _ hdispatcher) hran (congrArg (·.worker.executing?) hdispatcher) hpc'
    · exact h.same rfl rfl rfl rfl
  | schedule t runner | dispose t =>
    simp only [Continuations.step] at hs
    split at hs
    · obtain ⟨d, hd, rfl⟩ := Option.map_eq_some_iff.mp hs
      cases begin_eq hd
      exact h.same rfl rfl rfl rfl
    · cases hs
  | call t =>
    obtain ⟨d, hd, rfl⟩ := Option.map_eq_some_iff.mp hs
    obtain ⟨-, hexec, hexecuted, -⟩ := Dispatcher.callerStep_move hd
    exact h.same hexecuted rfl hexec rfl
  | worker =>
    rcases workerStep_cases hs with ⟨i, n, hexec, hs⟩ | ⟨hexec, hs⟩
    · exact h.execute htasks hexec hs
    · obtain ⟨d, hd, rfl⟩ := Option.map_eq_some_iff.mp hs
      obtain ⟨hmove, -⟩ := Dispatcher.workerStep_move hd
      exact h.goIdle htasks hexec hmove
  | wakeUp =>
    obtain ⟨d, hd, rfl⟩ := Option.map_eq_some_iff.mp hs
    obtain ⟨hexec, -, hmove, -⟩ := Dispatcher.wakeUp_move hd
    exact h.goIdle htasks (by simp [hexec]) hmove

theorem inv_of_reach (h : Reach (machine T R) Machine.free s) :
    Tasks s ∧ Calls s ∧ s.Faithful := by
  refine h.inv_of Apart (fun s => Tasks s ∧ Calls s ∧ s.Faithful) apart_of_reach ?_
    fun happart ⟨htasks, hcalls, hfaithful⟩ _ hs =>
      ⟨htasks.step happart hs, hcalls.step happart hs, hfaithful.step htasks hs⟩
  rintro _ rfl
  exact ⟨start_tasks, start_calls, rfl⟩

/-! ## At rest -/

/-- Every call has returned, and the worker waits with nothing signaled. -/
def State.Resting (s : State T R) : Prop :=
  (∀ t, s.free t = true) ∧ s.dispatcher.worker.Waiting ∧ s.dispatcher.isSignaled = false

/-- A call of a thread. -/
def Action.IsCall : Action T R → Prop
  | .enqueue _ | .schedule _ _ | .dispose _ => True
  | _ => False

theorem executeStep_some (hfree : s.free none = true)
    (hexec : s.dispatcher.worker.executing? ≠ none) : ∃ s', executeStep s i = some s' := by
  unfold executeStep
  cases hpc : s.execute with
  | running => exact ⟨_, if_pos hfree⟩
  | returned =>
    obtain ⟨d, hd⟩ := Dispatcher.workerStep_some (State.free_iff.mp hfree).2
      (fun hw => hexec (by rw [hw]; rfl)) fun hw => hexec (by rw [hw]; rfl)
    exact ⟨_, Option.map_eq_some_iff.mpr ⟨d, hd, rfl⟩⟩
  | _ => exact ⟨_, rfl⟩

theorem workerStep_some (hfree : s.free none = true)
    (hblocked : s.dispatcher.worker ≠ .blocked) (hended : s.dispatcher.worker ≠ .ended) :
    ∃ s', workerStep s = some s' := by
  obtain ⟨d, hd⟩ := Dispatcher.workerStep_some (State.free_iff.mp hfree).2 hblocked hended
  have hinside : s.inDispatcher .worker = some { s with dispatcher := d } :=
    Option.map_eq_some_iff.mpr ⟨d, hd, rfl⟩
  unfold workerStep
  cases hw : s.dispatcher.worker with
  | execute entry batch =>
    cases entry with
    | yieldTask i n => exact executeStep_some hfree (by rw [hw]; simp [WorkerPc.executing?])
    | other runner => exact ⟨_, (if_pos hfree).trans hinside⟩
  | _ => exact ⟨_, hinside⟩

/-- Until it is at rest, a dispatcher that is not stopped goes on without a new call. -/
theorem goes_on (h : Reach (machine T R) Machine.free s) (hrun : s.dispatcher.isStopped = false) :
    s.Resting ∨ ∃ a, ¬a.IsCall ∧ ∃ s', step s a = some s' := by
  have hreach := dispatcher_reach h
  have hstopping := Dispatcher.stopping_of_reach hreach
  have hnot : s.dispatcher.isStopped ≠ true := by simp [hrun]
  by_cases hfree : ∀ t, s.free t = true
  · by_cases hblocked : s.dispatcher.worker = .blocked
    · have hsignal := (Dispatcher.inv_of_reach hreach).blocked hblocked
      exact .inl ⟨hfree, hblocked ▸ trivial, hsignal⟩
    · exact .inr ⟨.worker, id, workerStep_some (hfree none) hblocked fun hended =>
        hnot (hstopping.ended hended)⟩
  · obtain ⟨t, ht⟩ := not_forall.mp hfree
    cases hpc : s.enqueuers t with
    | idle =>
      obtain ⟨d, hd⟩ := Dispatcher.callerStep_some
        (fun hidle => ht (State.free_iff.mpr ⟨hpc, hidle⟩))
        fun hjoin => hnot (hstopping.disposing t (hjoin ▸ trivial))
      exact .inr ⟨.call t, id, _, Option.map_eq_some_iff.mpr ⟨d, hd, rfl⟩⟩
    | pop n | set i n =>
      refine .inr ⟨.enqueuer t, id, ?_⟩
      simp only [step, enqueuerStep, hpc]
      exact ⟨_, rfl⟩

/-- The continuations of a dispatcher that is not stopped. -/
structure RunOnce (s : State T R) : Prop where
  /-- No task is twice among the pool, the execution and the queue. -/
  placed : s.placed.Nodup
  /-- A task in the hands of an enqueuer is in no other place. -/
  held : ∀ t i, s.Holds t i → i ∉ s.placed ∧ ∀ t', s.Holds t' i → t' = t
  pool : ∀ i ∈ s.innerPool, s.sendOrPostCallback i = none
  /-- `set` overwrites no callback. -/
  unset : ∀ t i n, s.enqueuers t = .set i n → s.sendOrPostCallback i = none
  /-- A task in the queue has the callback of the call that scheduled it. -/
  kept : ∀ i n, .yieldTask i n ∈ s.dispatcher.waiting → s.sendOrPostCallback i = some n
  /-- Each callback was scheduled at most once, -/
  scheduled : s.scheduled.Nodup
  /-- and it was scheduled if it is with no thread any more. -/
  given : ∀ n, n < s.given ↔ n ∈ s.scheduled ∨ ∃ t, s.Carries t n
  carried : ∀ t n, s.Carries t n → n ∉ s.scheduled ∧ ∀ t', s.Carries t' n → t' = t
  /-- The callbacks are called in the order in which they were scheduled. -/
  order : s.scheduled = s.ran ++ s.current ++ s.dispatcher.waiting.filterMap Entry.call?
  /-- The threads go on without a new call until the dispatcher is at rest, -/
  goesOn : s.Resting ∨ ∃ a, ¬a.IsCall ∧ ∃ s', step s a = some s'
  /-- and then each callback was called. -/
  ended : s.Resting → s.ran = s.scheduled ∧ ∀ n, n ∈ s.ran ↔ n < s.given

/-- **Every continuation runs once.** -/
theorem continuations_run_once (h : Reach (machine T R) Machine.free s)
    (hrun : s.dispatcher.isStopped = false) : RunOnce s := by
  obtain ⟨htasks, hcalls, hfaithful⟩ := inv_of_reach h
  have hgiven (n : Nat) : n < s.given ↔ n ∈ s.scheduled ∨ ∃ t, s.Carries t n := by
    refine ⟨hcalls.complete hrun n, ?_⟩
    rintro (hn | ⟨t, hn⟩)
    · exact hcalls.scheduled_lt n hn
    · exact hcalls.carried_lt t n hn
  obtain ⟨-, hentries, hempty⟩ := Dispatcher.scheduled_in_order (dispatcher_reach h) hrun
  have horder : s.scheduled =
      s.ran ++ s.current ++ s.dispatcher.waiting.filterMap Entry.call? := by
    rw [State.scheduled, hentries, List.append_assoc, List.filterMap_append, hfaithful]
    rfl
  refine
    { placed := htasks.located.placed
      held := fun t i hi => ⟨htasks.located.held t i hi, fun t' hi' =>
        htasks.located.held_inj t' t i hi' hi⟩
      pool := htasks.kept.pool
      unset := htasks.kept.unset
      kept := htasks.kept.waiting
      scheduled := hcalls.scheduled_nodup
      given := hgiven
      carried := fun t n hn => ⟨hcalls.carried_new t n hn, fun t' hn' =>
        hcalls.carried_inj t' t n hn' hn⟩
      order := horder
      goesOn := goes_on h hrun
      ended := ?_ }
  rintro ⟨hfree, hwait, hsignal⟩
  have hqueue : s.dispatcher.scheduledActors = [] := by
    refine hempty hwait hsignal fun t ht => ?_
    rw [(State.free_iff.mp (hfree t)).2] at ht
    exact ht
  have hidle : s.dispatcher.waiting = [] ∧ s.current = [] := by
    unfold Dispatcher.State.waiting State.current
    cases hw : s.dispatcher.worker with
    | wait | blocked => exact ⟨hqueue, rfl⟩
    | _ =>
      rw [hw] at hwait
      exact hwait.elim
  have hran : s.ran = s.scheduled := by
    rw [horder, hidle.1, hidle.2, List.append_nil, List.filterMap_nil, List.append_nil]
  refine ⟨hran, fun n => ?_⟩
  rw [hran, hgiven]
  exact ⟨.inl, fun hn => hn.resolve_right fun ⟨t, ht⟩ => State.not_carries (hfree t) ht⟩

end

end

/-! ## Runs -/

/-- A continuation enqueues another one, and a third one takes the task of the first from the pool
while the second waits. The worker has called all three and waits again. -/
def drained : State Bool Unit :=
  ((machine Bool Unit).run (start Bool Unit)
    (List.flatten [[.enqueue (some true)], .replicate 2 (.enqueuer (some true)),
      .replicate 4 (.call (some true)), .replicate 6 .worker,
      [.enqueue none], .replicate 2 (.enqueuer none), .replicate 4 (.call none),
      .replicate 4 .worker, [.enqueue (some false)], .replicate 2 (.enqueuer (some false)),
      .replicate 3 (.call (some false)), .replicate 24 .worker])).get (by decide +kernel)

theorem continuations_run_once_drained :
    drained.ran = [0, 1, 2] ∧ drained.created = 2 ∧ RunOnce drained :=
  ⟨by decide +kernel, by decide +kernel,
    continuations_run_once (.get_free rfl _) (by decide +kernel)⟩

end DignusActor.Continuations
