import DignusActor.System.Batches
import DignusActor.System.Returning

/-! # The loops and their entries

What one step of the system with its dispatchers can do (`step_move`), and what every guarded step
keeps: a dispatcher is in `execute` exactly when its thread is in a runner, and no loop unwinds
(`LoopOk`); each entry that was pushed has been executed, or is in the batch or the queue, in this
order, as long as the dispatcher is not stopped (`QueueOk`). -/

namespace DignusActor.Dispatching

open Machine (Reach)
open ActorSystem (Thread)

variable {k : Nat} {T M F A : Type}

/-! ## The steps -/

/-- The entries of the batch that the loop has still to pick. -/
def LoopPc.rest : LoopPc → List Nat
  | .batch entries | .executed entries | .execute _ entries => entries
  | _ => []

/-- What a push adds to the queue of dispatcher `d`. -/
def pushedTo (o : Option (Fin k × Nat)) (d : Fin k) : List Nat :=
  match o with
  | some (e, n) => if e = d then [n] else []
  | none => []

theorem count_pushedTo (o : Option (Fin k × Nat)) (d : Fin k) (n : Nat) :
    (pushedTo o d).count n = if o = some (d, n) then 1 else 0 := by
  cases o with
  | none => rfl
  | some p =>
    obtain ⟨e, m⟩ := p
    by_cases he : e = d
    · by_cases hm : m = n <;> simp [pushedTo, he, hm]
    · simp [pushedTo, he]

namespace State

variable (s : State k T M F A) (o : Option (Fin k × Nat)) (d : Fin k)

section
variable (a : ActorSystem.Action k T M F A) (system : ActorSystem.State k T M F A)

@[simp] theorem within_system : (s.within a system).system = system := rfl

@[simp] theorem within_loops : (s.within a system).loops = s.loops := rfl

@[simp] theorem within_executed : (s.within a system).executed = s.executed := rfl

@[simp] theorem within_scheduledActors :
    (s.within a system).scheduledActors = s.scheduledActors := rfl

@[simp] theorem within_pushed : (s.within a system).pushed = s.pushed := rfl

end

@[simp] theorem push_system : (s.push o).system = s.system := by
  unfold push
  split <;> rfl

@[simp] theorem push_loops : (s.push o).loops = s.loops := by
  unfold push
  split <;> rfl

@[simp] theorem push_executed : (s.push o).executed = s.executed := by
  unfold push
  split <;> rfl

@[simp] theorem push_failed : (s.push o).failed = s.failed := by
  unfold push
  split <;> rfl

@[simp] theorem push_released : (s.push o).released = s.released := by
  unfold push
  split <;> rfl

theorem push_scheduledActors :
    (s.push o).scheduledActors d = s.scheduledActors d ++ pushedTo o d := by
  cases o with
  | none => simp [push, pushedTo]
  | some p =>
    obtain ⟨e, n⟩ := p
    by_cases he : e = d
    · subst he
      simp [push, pushedTo]
    · simp [push, pushedTo, he, Ne.symm he]

theorem push_pushed : (s.push o).pushed d = s.pushed d ++ pushedTo o d := by
  cases o with
  | none => simp [push, pushedTo]
  | some p =>
    obtain ⟨e, n⟩ := p
    by_cases he : e = d
    · subst he
      simp [push, pushedTo]
    · simp [push, pushedTo, he, Ne.symm he]

end State

/-- What a step inside `execute` does to the loop of its dispatcher. -/
inductive ResumeMove (s : State k T M F A) (d : Fin k) : State k T M F A → Prop
  | inside : (∀ n entries, s.loops d = .execute n entries → s.system.busy d ≠ none ∧
    s.system.exited d = false) → ResumeMove s d s
  | back (n entries) : s.loops d = .execute n entries → s.system.busy d = none →
    ResumeMove s d { s.setLoop d (.executed entries) with
      executed := Function.update s.executed d (s.executed d ++ [n]) }
  | unwound (n entries) : s.loops d = .execute n entries → s.system.busy d ≠ none →
    s.system.exited d = true → ResumeMove s d (s.setLoop d .unwound)

theorem State.resume_move (s : State k T M F A) (d : Fin k) : ResumeMove s d (s.resume d) := by
  unfold State.resume
  split
  · rename_i n entries hpc
    split
    · exact .back n entries hpc ‹_›
    · split
      · exact .unwound n entries hpc ‹_› ‹_›
      · refine .inside fun m entries' hm => ?_
        exact ⟨‹_›, by simpa using ‹¬s.system.exited d = true›⟩
  · rename_i hne
    exact .inside fun n entries hpc => absurd hpc (hne n entries)

variable [DecidableEq T] [DecidableEq A] {poisons : Bool} {s s' : State k T M F A}

/-- The steps of the loop of dispatcher `d`. -/
inductive LoopMove (poisons : Bool) (s : State k T M F A) (d : Fin k) :
    LoopPc → State k T M F A → Prop
  | wait : s.system.stopped d = false → LoopMove poisons s d .wait (s.setLoop d .take)
  | exit {pc system} : pc = .wait ∨ pc = .endRound →
    ActorSystem.step poisons s.system (.exit d) = some system →
    LoopMove poisons s d pc ({ s with system }.setLoop d .ended)
  | takeNone : s.scheduledActors d = [] → LoopMove poisons s d .take (s.setLoop d .endRound)
  | take : LoopMove poisons s d .take
    ({ s with
      scheduledActors := Function.update s.scheduledActors d [] }.setLoop d
        (.batch (s.scheduledActors d)))
  | batchEnd : LoopMove poisons s d (.batch []) (s.setLoop d .take)
  | pick (n entries) {system} : ActorSystem.step poisons s.system (.pick d n) = some system →
    LoopMove poisons s d (.batch (n :: entries))
      ({ s with system }.setLoop d (.execute n entries))
  | executed (entries) : s.system.stopped d = false →
    LoopMove poisons s d (.executed entries) (s.setLoop d (.batch entries))
  | drop (entries) : s.system.stopped d = true →
    LoopMove poisons s d (.executed entries) (s.setLoop d .endRound)
  | endRound : s.system.stopped d = false →
    LoopMove poisons s d .endRound (s.setLoop d .wait)

theorem loopStep_move {d : Fin k} {pc : LoopPc} (h : loopStep poisons s d pc = some s') :
    LoopMove poisons s d pc s' := by
  cases pc with
  | wait | endRound =>
    simp only [loopStep, exitLoop] at h
    split at h
    · obtain ⟨system, hs, rfl⟩ := Option.map_eq_some_iff.mp h
      exact .exit (by simp) hs
    · cases h
      first
      | exact .wait (by simpa using ‹¬s.system.stopped d = true›)
      | exact .endRound (by simpa using ‹¬s.system.stopped d = true›)
  | take =>
    simp only [loopStep] at h
    split at h <;> cases h
    · exact .takeNone ‹_›
    · exact .take
  | batch entries =>
    cases entries with
    | nil =>
      cases h
      exact .batchEnd
    | cons n entries =>
      obtain ⟨system, hs, rfl⟩ := Option.map_eq_some_iff.mp h
      exact .pick n entries hs
  | executed entries =>
    cases h
    split
    · exact .drop entries ‹_›
    · exact .executed entries (by simpa using ‹¬s.system.stopped d = true›)
  | _ => cases h

/-- A step of a caller, of a dispatcher inside `execute`, or of the loop of one. -/
inductive StepMove (poisons : Bool) (s s' : State k T M F A) : Action k T M F A → Prop
  | call (a t) {system} : a.thread = .caller t →
    ActorSystem.step poisons s.system a = some system →
    s' = (s.within a system).push (scheduling s.system (.caller t)) →
    StepMove poisons s s' (.system a)
  | execute (d : Fin k) (o) {system} :
    ActorSystem.step poisons s.system (.execute d o) = some system →
    ResumeMove ((s.within (.execute d o) system).push (scheduling s.system (.worker d))) d s' →
    StepMove poisons s s' (.system (.execute d o))
  | loop (d : Fin k) : LoopMove poisons s d (s.loops d) s' → StepMove poisons s s' (.loop d)

theorem step_move {a : Action k T M F A} (h : step poisons s a = some s') :
    StepMove poisons s s' a := by
  cases a with
  | loop d => exact .loop d (loopStep_move h)
  | system b =>
    cases b with
    | pick | exit => cases h
    | execute d o =>
      obtain ⟨system, hs, rfl⟩ := Option.map_eq_some_iff.mp h
      exact .execute d o hs (State.resume_move ..)
    | _ =>
      obtain ⟨system, hs, rfl⟩ := Option.map_eq_some_iff.mp h
      exact .call _ _ rfl hs rfl

/-- The system runs as a system. -/
theorem system_reach {capacity : Nat}
    (h : Reach (machine k T M F A poisons capacity) Guarded s) :
    Reach (ActorSystem.machine k T M F A poisons capacity) ActorSystem.Guarded s.system := by
  refine h.map State.system ?_ fun _ _ hok hs => ?_
  · rintro _ rfl
    rfl
  · cases step_move hs with
    | call a t _ hstep hs' =>
      subst hs'
      exact .inr ⟨a, hok, by simpa [ActorSystem.machine] using hstep⟩
    | execute d o hstep hresume =>
      refine .inr ⟨.execute d o, hok, ?_⟩
      cases hresume <;> simpa [ActorSystem.machine, State.setLoop] using hstep
    | loop d hloop =>
      generalize State.loops _ d = pc at hloop
      cases hloop with
      | exit _ hstep => exact .inr ⟨.exit d, trivial, hstep⟩
      | pick n _ hstep => exact .inr ⟨.pick d n, trivial, hstep⟩
      | _ => exact .inl rfl

/-! ## The loops -/

omit [DecidableEq T] [DecidableEq A] in
/-- Where the loop of dispatcher `d` stands, beside where its thread stands in the system. -/
structure LoopOk (s : State k T M F A) (d : Fin k) : Prop where
  unwound : s.loops d ≠ .unwound
  busy : ∀ n entries, s.loops d = .execute n entries → s.system.busy d = some n
  idle : (∀ n entries, s.loops d ≠ .execute n entries) → s.system.busy d = none
  exited : s.system.exited d = true → s.loops d = .ended
  ended : s.loops d = .ended → s.system.stopped d = true

section
variable {d : Fin k}

omit [DecidableEq T] [DecidableEq A] in
theorem LoopOk.execute (h : LoopOk s d) {n : Nat} (hbusy : s.system.busy d = some n) :
    ∃ entries, s.loops d = .execute n entries := by
  by_contra hne
  have hnone := h.idle fun m entries hpc => by
    cases (h.busy m entries hpc).symm.trans hbusy
    exact hne ⟨entries, hpc⟩
  cases hnone.symm.trans hbusy

omit [DecidableEq T] [DecidableEq A] in
theorem LoopOk.of_eq (h : LoopOk s d) (hloops : s'.loops d = s.loops d)
    (hbusy : s'.system.busy d = s.system.busy d) (hexited : s'.system.exited d = s.system.exited d)
    (hstopped : s.system.stopped d = true → s'.system.stopped d = true) : LoopOk s' d where
  unwound := hloops ▸ h.unwound
  busy := by
    rw [hloops, hbusy]
    exact h.busy
  idle := by
    rw [hloops, hbusy]
    exact h.idle
  exited := by
    rw [hloops, hexited]
    exact h.exited
  ended hd := hstopped (h.ended (hloops ▸ hd))

theorem stopped_mono {system : ActorSystem.State k T M F A} {u : Thread k T}
    (h : ActorSystem.Move poisons s.system system u) (hd : s.system.stopped d = true) :
    system.stopped d = true := by
  by_contra hd'
  cases (h.unstopped (by simpa using hd')).symm.trans hd

/-- A step of a loop is seen by its own dispatcher only. -/
theorem LoopMove.of_ne {pc : LoopPc} (h : LoopMove poisons s d pc s') {d' : Fin k} (hd : d' ≠ d) :
    s'.loops d' = s.loops d' ∧ s'.system.busy d' = s.system.busy d' ∧
      s'.system.exited d' = s.system.exited d' := by
  cases h with
  | exit _ hstep =>
    obtain ⟨-, -, rfl⟩ := ActorSystem.step_exit hstep
    simp [State.setLoop, hd]
  | pick n entries hstep =>
    obtain ⟨_, _, -, -, -, -, rfl⟩ := ActorSystem.step_pick hstep
    simp [State.setLoop, ActorSystem.State.setActor, hd]
  | _ => simp [State.setLoop, hd]

theorem LoopMove.stopped {pc : LoopPc} (h : LoopMove poisons s d pc s') :
    s'.system.stopped = s.system.stopped := by
  cases h with
  | exit _ hstep =>
    obtain ⟨-, -, rfl⟩ := ActorSystem.step_exit hstep
    rfl
  | pick n entries hstep =>
    obtain ⟨_, _, -, -, -, -, rfl⟩ := ActorSystem.step_pick hstep
    rfl
  | _ => rfl

/-- The loop of the dispatcher that takes the step. -/
theorem LoopOk.loop_step (h : LoopOk s d) (hmove : LoopMove poisons s d (s.loops d) s') :
    LoopOk s' d := by
  generalize hpc : s.loops d = pc at hmove
  -- a step that leaves the system alone
  have hstay {pc' : LoopPc} (hloops : s'.loops = Function.update s.loops d pc')
      (hsystem : s'.system = s.system) (hne : ∀ n entries, pc ≠ .execute n entries)
      (hne' : ∀ n entries, pc' ≠ .execute n entries) (hended : pc ≠ .ended)
      (hended' : pc' ≠ .ended) (hunwound : pc' ≠ .unwound) : LoopOk s' d := by
    refine ⟨?_, ?_, ?_, ?_, ?_⟩ <;> rw [hloops, Function.update_self] <;> try rw [hsystem]
    · exact hunwound
    · exact fun n entries heq => absurd heq (hne' n entries)
    · exact fun _ => h.idle (hpc ▸ hne)
    · exact fun hd => absurd (hpc ▸ h.exited hd) hended
    · exact fun heq => absurd heq hended'
  cases hmove with
  | wait | takeNone | take | batchEnd | executed | drop | endRound =>
    exact hstay rfl rfl (by simp) (by simp) (by simp) (by simp) (by simp)
  | exit _ hstep =>
    obtain ⟨hstopped, hbusy, rfl⟩ := ActorSystem.step_exit hstep
    refine ⟨?_, ?_, ?_, ?_, ?_⟩ <;> simp [State.setLoop, hbusy, hstopped]
  | pick n entries hstep =>
    obtain ⟨actor, run, hbusy, hexited, ha, hrun, rfl⟩ := ActorSystem.step_pick hstep
    refine ⟨?_, ?_, ?_, ?_, ?_⟩ <;>
      simp [State.setLoop, ActorSystem.State.setActor, hexited]

/-- The dispatcher that takes a step inside `execute`. -/
theorem LoopOk.execute_step (h : LoopOk s d) (hsurviving : ActorSystem.Surviving s.system)
    {o : ActorRunner.Outcome F} {system : ActorSystem.State k T M F A}
    (hok : ActorSystem.Guarded s.system (.execute d o))
    (hstep : ActorSystem.step poisons s.system (.execute d o) = some system)
    {o' : Option (Fin k × Nat)}
    (hresume : ResumeMove ((s.within (.execute d o) system).push o') d s') : LoopOk s' d := by
  obtain ⟨n, actor, hbusy, -⟩ := ActorSystem.step_execute hstep
  obtain ⟨entries, hpc⟩ := h.execute hbusy
  have hunexited : system.exited d = false := by
    rw [hsurviving.exited_execute hok hstep]
    by_contra hd
    cases hpc.symm.trans (h.exited (by simpa using hd))
  cases hresume with
  | inside hin =>
    have hne := (hin n entries (by simpa using hpc)).1
    simp only [State.push_system, State.within_system] at hne
    have hbusy' := (ActorSystem.step_execute_busy hstep hbusy).resolve_left hne
    refine ⟨?_, ?_, ?_, ?_, ?_⟩ <;> simp [hpc, hbusy', hunexited]
  | back m entries' hpc' hnone =>
    simp only [State.push_system, State.within_system] at hnone
    refine ⟨?_, ?_, ?_, ?_, ?_⟩ <;> simp [State.setLoop, hnone, hunexited]
  | unwound m entries' hpc' _ hexits =>
    simp only [State.push_system, State.within_system] at hexits
    cases hexits.symm.trans hunexited

omit [DecidableEq T] [DecidableEq A] in
/-- A step inside `execute` is seen by its own loop only. -/
theorem ResumeMove.of_ne (h : ResumeMove s d s') {d' : Fin k} (hd : d' ≠ d) :
    s'.loops d' = s.loops d' ∧ s'.system = s.system := by
  cases h <;> simp [State.setLoop, hd]

theorem LoopOk.step (h : ∀ d, LoopOk s d) (hsurviving : ActorSystem.Surviving s.system)
    {a : Action k T M F A} (hok : Guarded s a) (hs : Dispatching.step poisons s a = some s')
    (d : Fin k) : LoopOk s' d := by
  cases step_move hs with
  | loop e hmove =>
    by_cases hd : d = e
    · subst hd
      exact (h d).loop_step hmove
    · obtain ⟨hloops, hbusy, hexited⟩ := hmove.of_ne hd
      exact (h d).of_eq hloops hbusy hexited (by rw [hmove.stopped]; exact id)
  | call a t ht hstep hs' =>
    subst hs'
    have hmove := ActorSystem.step_move hstep
    rw [ht] at hmove
    cases hmove with
    | caller _ hpc hcall =>
      refine (h d).of_eq (by simp) (by simp [hcall.workers.1]) (by simp [hcall.exited]) ?_
      simpa using stopped_mono (.caller t hpc hcall)
  | execute e o hstep hresume =>
    by_cases hd : d = e
    · subst hd
      exact (h d).execute_step hsurviving hok hstep hresume
    · have hmove := ActorSystem.step_move hstep
      obtain ⟨hloops, hsystem⟩ := hresume.of_ne hd
      refine (h d).of_eq (by simpa using hloops) ?_ ?_ ?_
      · rw [hsystem]
        simpa using (hmove.workers_of_ne (by simpa [ActorSystem.Action.thread] using Ne.symm hd)).1
      · rw [hsystem]
        simp [hsurviving.exited_execute hok hstep]
      · rw [hsystem]
        simpa using stopped_mono hmove

/-! ## The entries -/

omit [DecidableEq T] [DecidableEq A] in
/-- The entries of dispatcher `d`: each one that is in its batch or its queue is an entry of its
actor; and each one that was pushed has been executed, or is in the batch or the queue. -/
structure QueueOk (s : State k T M F A) (d : Fin k) : Prop where
  count : ∀ n, (s.loops d).rest.count n + (s.scheduledActors d).count n ≤ s.system.entries d n
  history : s.system.stopped d = false →
    s.pushed d = s.executed d ++ (s.loops d).entries ++ s.scheduledActors d

omit [DecidableEq T] [DecidableEq A] in
/-- A step inside the system, with what it pushes. -/
theorem QueueOk.push (h : QueueOk s d) {a : ActorSystem.Action k T M F A}
    {system : ActorSystem.State k T M F A} {o : Option (Fin k × Nat)}
    (hentries : ∀ n, system.entries d n =
      s.system.entries d n + if o = some (d, n) then 1 else 0)
    (hunstopped : system.stopped d = false → s.system.stopped d = false) :
    QueueOk ((s.within a system).push o) d where
  count n := by
    have hcount := h.count n
    simp only [State.push_system, State.within_system, State.push_loops, State.within_loops,
      State.push_scheduledActors, State.within_scheduledActors, hentries, List.count_append,
      count_pushedTo]
    omega
  history hd := by
    simp only [State.push_system, State.within_system] at hd
    simp [State.push_pushed, State.push_scheduledActors, h.history (hunstopped hd)]

/-- The loop of the dispatcher that takes the step. -/
theorem QueueOk.loop_step (h : QueueOk s d) (hmove : LoopMove poisons s d (s.loops d) s') :
    QueueOk s' d := by
  have hcount := h.count
  have hhistory := h.history
  have hstopped := hmove.stopped
  generalize hpc : s.loops d = pc at hmove hcount hhistory
  cases hmove with
  | wait | takeNone | batchEnd | executed | endRound =>
    refine ⟨?_, ?_⟩
    · simpa [State.setLoop, LoopPc.rest] using hcount
    · simpa [State.setLoop, LoopPc.entries] using hhistory
  | take =>
    refine ⟨?_, ?_⟩
    · simpa [State.setLoop, LoopPc.rest] using hcount
    · simpa [State.setLoop, LoopPc.entries] using hhistory
  | drop entries hd =>
    refine ⟨fun n => ?_, fun hd' => ?_⟩
    · have hn := hcount n
      simp only [State.setLoop, LoopPc.rest, Function.update_self, List.count_nil] at hn ⊢
      omega
    · cases hd.symm.trans hd'
  | exit hpc' hstep =>
    obtain ⟨hd, -, rfl⟩ := ActorSystem.step_exit hstep
    refine ⟨fun n => ?_, fun hd' => ?_⟩
    · have hn := hcount n
      simp only [State.setLoop, LoopPc.rest, Function.update_self, List.count_nil] at hn ⊢
      exact Nat.le_trans (Nat.add_le_add_right (Nat.zero_le _) _) hn
    · cases hd.symm.trans hd'
  | pick n entries hstep =>
    refine ⟨fun m => ?_, ?_⟩
    · have hn := hcount m
      have hentries := ActorSystem.step_pick_entries hstep d m
      simp only [State.setLoop, LoopPc.rest, Function.update_self, List.count_cons, beq_iff_eq,
        true_and, eq_comm (a := n)] at hn hentries ⊢
      omega
    · rw [hstopped]
      simpa [State.setLoop, LoopPc.entries] using hhistory

/-- A step of another loop. -/
theorem QueueOk.loop_of_ne (h : QueueOk s d) {e : Fin k} {pc : LoopPc}
    (hmove : LoopMove poisons s e pc s') (hd : d ≠ e) : QueueOk s' d := by
  obtain ⟨hloops, -⟩ := hmove.of_ne hd
  have hcount := h.count
  have hhistory := h.history
  cases hmove with
  | take =>
    refine ⟨?_, ?_⟩
    · rw [hloops]
      simpa [State.setLoop, hd] using hcount
    · rw [hloops]
      simpa [State.setLoop, hd] using hhistory
  | exit _ hstep =>
    obtain ⟨-, -, rfl⟩ := ActorSystem.step_exit hstep
    exact ⟨by rw [hloops]; exact hcount, by rw [hloops]; exact hhistory⟩
  | pick n entries hstep =>
    refine ⟨fun m => ?_, ?_⟩
    · have hentries := ActorSystem.step_pick_entries hstep d m
      simp only [hd, false_and, if_false, Nat.add_zero] at hentries
      rw [hloops]
      exact hentries ▸ hcount m
    · obtain ⟨_, _, -, -, -, -, rfl⟩ := ActorSystem.step_pick hstep
      rw [hloops]
      exact hhistory
  | _ => exact ⟨by rw [hloops]; exact hcount, by rw [hloops]; exact hhistory⟩

omit [DecidableEq T] [DecidableEq A] in
/-- The dispatcher that comes back from `execute`. -/
theorem QueueOk.resume {e : Fin k} (h : QueueOk s d) (hresume : ResumeMove s e s')
    (hunwound : s'.loops e ≠ .unwound) : QueueOk s' d := by
  cases hresume with
  | inside => exact h
  | unwound => exact absurd (Function.update_self ..) hunwound
  | back n entries hpc =>
    by_cases hd : d = e
    · subst hd
      refine ⟨?_, ?_⟩
      · have hcount := h.count
        rw [hpc] at hcount
        simpa [State.setLoop, LoopPc.rest] using hcount
      · have hhistory := h.history
        rw [hpc] at hhistory
        simpa [State.setLoop, LoopPc.entries] using hhistory
    · refine ⟨?_, ?_⟩
      · simpa [State.setLoop, hd] using h.count
      · simpa [State.setLoop, hd] using h.history

theorem QueueOk.step (h : QueueOk s d) (hl : ActorSystem.Linked s.system)
    (hunwound : ∀ d, s'.loops d ≠ .unwound) {a : Action k T M F A}
    (hs : Dispatching.step poisons s a = some s') : QueueOk s' d := by
  cases Dispatching.step_move hs with
  | loop e hmove =>
    by_cases hd : d = e
    · subst hd
      exact h.loop_step hmove
    · exact h.loop_of_ne hmove hd
  | call a t ht hstep hs' =>
    subst hs'
    exact h.push (ActorSystem.step_call_entries hstep hl ht d)
      (ActorSystem.step_move hstep).unstopped
  | execute e o hstep hresume =>
    exact (h.push (ActorSystem.step_execute_entries hstep d)
      (ActorSystem.step_move hstep).unstopped).resume hresume (hunwound e)

end

end DignusActor.Dispatching
