import DignusActor.System.Loops

/-! # A panicking actor does not take its dispatcher down

In a run where `on_kill` and the dead-letter callback do not panic and `finalize_kill` finds no lock
poisoned, a panic of an actor stays with the actor (`contained_of_guarded`): no dispatcher loop
unwinds, each `execute` returns to it, the entries of each dispatcher are executed in their order,
and the actor comes to `STOPPED` and gives its slot back once. A panic of `on_kill` takes the thread
down with the entries it had left (`notContained_onKill`). -/

namespace DignusActor.ActorRunner

variable {D T M F : Type}

/-- A runner that nobody has called. -/
theorem initial_failureInv [DecidableEq D] [DecidableEq T] {q : MpscBoundedQueue M}
    {stopped : D → Bool} (hstopped : ∀ d, stopped d = false) {failed : Prop} (h : ¬failed) :
    FailureInv failed
      { initial D T F q with mem := { (initial D T F q).mem with stopped } } where
  served := ⟨hstopped, fun _ => False.elim, fun _ => nofun⟩
  failed hfailed := absurd hfailed h
  finalized := nofun

end DignusActor.ActorRunner

namespace DignusActor.ActorSystem

open ActorRunner (FailureInv FinalizeInv)

variable {k : Nat} {T M F A : Type} [DecidableEq T] [DecidableEq A]
  {poisons : Bool} {s s' : State k T M F A} {u : Thread k T}

omit [DecidableEq A] in
theorem Actor.Evolves.failureInv {actor actor' : Actor k T M F A} (h : actor.Evolves u actor')
    {failed failed' : Prop} (H : FailureInv failed actor.run) (hfin : FinalizeInv actor.run)
    (hstop : ∀ d, actor'.run.mem.stopped d = false) (halive : actor'.run.Alive)
    (hfailed : failed' → failed ∨ actor'.run.Failed) : FailureInv failed' actor'.run := by
  rcases h.run with hrun | ⟨action, hrun, -⟩
  · rw [hrun] at hfailed ⊢
    exact ⟨H.served, fun h => (hfailed h).elim H.failed id, H.finalized⟩
  · exact H.step hfin hrun hstop halive hfailed

/-- The actor whose user code panics has failed. -/
theorem failed_of_panicking {a : Action k T M F A} (hok : Guarded s a)
    (hs : step poisons s a = some s') {n : Nat} (hn : Dispatching.panicking s a = some n) :
    s.actors n ≠ none ∧ ∀ actor', s'.actors n = some actor' → actor'.run.Failed := by
  cases a with
  | execute d o =>
    cases o with
    | panicked =>
      simp only [Dispatching.panicking] at hn
      split at hn
      · rename_i huser
        obtain ⟨m, actor, hbusy, ha, hmove⟩ := step_execute hs
        cases hn.symm.trans hbusy
        rw [State.inUserCode_eq hbusy ha] at huser
        refine ⟨by simp [ha], fun actor' ha' => ?_⟩
        cases hmove with
        | finalize hw => simp [ActorRunner.State.inUserCode, hw] at huser
        | run _ hrun hactors =>
          rw [hactors, Function.update_self] at ha'
          cases ha'
          exact ActorRunner.failed_of_panicked hrun huser
            ((State.unguarded_eq hbusy ha).symm.trans hok.1)
      · cases hn
    | _ => cases hn
  | _ => cases hn

end DignusActor.ActorSystem

namespace DignusActor.Dispatching

open Machine (Reach)
open ActorRunner (FailureInv Quiescent)

variable {k : Nat} {T M F A : Type}

/-! ## The histories -/

/-- The step inside the system, and what it adds to the histories. -/
structure SystemMove [DecidableEq T] [DecidableEq A] (poisons : Bool) (s s' : State k T M F A)
    (a : ActorSystem.Action k T M F A) : Prop where
  guarded : ActorSystem.Guarded s.system a
  step : ActorSystem.step poisons s.system a = some s'.system
  failed : s'.failed = s.failed ++ (panicking s.system a).toList
  released : s'.released = s.released ++ s.system.registry.mem.data.outstanding.filter
    (· ∉ s'.system.registry.mem.data.outstanding)

/-- While no dispatcher is stopped, an actor that has failed is on its way to the end. -/
structure FailuresOk (s : State k T M F A) : Prop where
  known : ∀ n ∈ s.failed, s.system.actors n ≠ none
  failure : ∀ n actor, s.system.actors n = some actor → (∀ d, s.system.stopped d = false) →
    FailureInv (n ∈ s.failed) actor.run

/-- A slot is given back once. -/
structure ReleasesOk (s : State k T M F A) : Prop where
  nodup : s.released.Nodup
  mem_iff : ∀ n, n ∈ s.released ↔ n < s.system.registry.mem.data.reservations.length ∧
    n ∉ s.system.registry.mem.data.outstanding

section
variable [DecidableEq T] [DecidableEq A] {poisons : Bool} {s s' : State k T M F A}

omit [DecidableEq T] [DecidableEq A] in
theorem append_filter_notMem_self (released l : List Nat) :
    released ++ l.filter (· ∉ l) = released := by
  have hnil : l.filter (· ∉ l) = [] :=
    List.filter_eq_nil_iff.mpr fun n hn h => of_decide_eq_true h hn
  rw [hnil, List.append_nil]

theorem step_history {a : Action k T M F A} (hok : Guarded s a)
    (hs : step poisons s a = some s') :
    (s'.system = s.system ∧ s'.failed = s.failed ∧ s'.released = s.released) ∨
      ∃ b, SystemMove poisons s s' b := by
  cases step_move hs with
  | call b t _ hstep hs' =>
    subst hs'
    exact .inr ⟨b, hok, by simpa using hstep, by simp [State.within], by simp [State.within]⟩
  | execute d o hstep hresume =>
    refine .inr ⟨.execute d o, hok, ?_, ?_, ?_⟩
    · cases hresume <;> simpa [State.setLoop] using hstep
    · cases hresume <;> simp [State.within, State.setLoop]
    · cases hresume <;> simp [State.within, State.setLoop]
  | loop d hloop =>
    generalize s.loops d = pc at hloop
    cases hloop with
    | exit _ hstep =>
      refine .inr ⟨.exit d, trivial, hstep, by simp [State.setLoop, panicking], ?_⟩
      obtain ⟨-, -, rfl⟩ := ActorSystem.step_exit hstep
      exact (append_filter_notMem_self ..).symm
    | pick n _ hstep =>
      refine .inr ⟨.pick d n, trivial, hstep, by simp [State.setLoop, panicking], ?_⟩
      obtain ⟨_, _, -, -, -, -, rfl⟩ := ActorSystem.step_pick hstep
      exact (append_filter_notMem_self ..).symm
    | _ => exact .inl ⟨rfl, rfl, rfl⟩

theorem FailuresOk.step (h : FailuresOk s) (hl : ActorSystem.Linked s.system)
    (hsurviving : ActorSystem.Surviving s'.system) (hstops : s'.system.StopsKnown)
    {a : Action k T M F A} (hok : Guarded s a) (hs : Dispatching.step poisons s a = some s') :
    FailuresOk s' := by
  rcases step_history hok hs with ⟨hsystem, hfailed, -⟩ | ⟨b, hb⟩
  · refine ⟨?_, ?_⟩
    · rw [hsystem, hfailed]
      exact h.known
    · rw [hsystem, hfailed]
      exact h.failure
  have hmove := ActorSystem.step_move hb.step
  have hnew {n : Nat} (hn : n ∈ s'.failed) :
      n ∈ s.failed ∨ panicking s.system b = some n := by
    rw [hb.failed] at hn
    exact (List.mem_append.mp hn).imp_right Option.mem_toList.mp
  refine ⟨fun n hn => ?_, fun n actor' ha' hstopped => ?_⟩
  · refine hmove.ne_none ?_
    rcases hnew hn with hn | hn
    · exact h.known n hn
    · exact (ActorSystem.failed_of_panicking hb.guarded hb.step hn).1
  · rcases hl.actor_cases hmove ha' with ⟨hnone, _, _, _, -, -, hcreated⟩ | ⟨actor, ha, hevolves⟩
    · obtain ⟨-, q, -, rfl⟩ := ActorSystem.newActor_eq_some.mp hcreated
      refine ActorRunner.initial_failureInv (fun d => hmove.unstopped (hstopped d)) fun hn => ?_
      rcases hnew hn with hn | hn
      · exact h.known n hn hnone
      · exact (ActorSystem.failed_of_panicking hb.guarded hb.step hn).1 hnone
    · refine hevolves.failureInv (h.failure n actor ha fun d => hmove.unstopped (hstopped d))
        (hl.finalize n actor ha) (fun d => ?_) (hsurviving.alive n actor' ha') fun hn => ?_
      · rw [hstops n actor' ha']
        exact hstopped d
      · exact (hnew hn).imp_right fun hn =>
          (ActorSystem.failed_of_panicking hb.guarded hb.step hn).2 actor' ha'

theorem ReleasesOk.step (h : ReleasesOk s) (hinv : Registry.Inv s.system.registry)
    {a : Action k T M F A} (hok : Guarded s a) (hs : Dispatching.step poisons s a = some s') :
    ReleasesOk s' := by
  rcases step_history hok hs with ⟨hsystem, -, hreleased⟩ | ⟨b, hb⟩
  · refine ⟨?_, ?_⟩
    · rw [hreleased]
      exact h.nodup
    · rw [hsystem, hreleased]
      exact h.mem_iff
  have hreleased := hb.released
  have hdistinct := hinv.data.distinct
  rcases (ActorSystem.step_move hb.step).registry with hsame | ⟨c, hc, -⟩
  · rw [hsame, append_filter_notMem_self] at hreleased
    refine ⟨?_, ?_⟩
    · rw [hreleased]
      exact h.nodup
    · rw [hreleased, hsame]
      exact h.mem_iff
  · refine ⟨?_, fun n => ?_⟩
    · rw [hreleased]
      refine List.Nodup.append h.nodup (hdistinct.filter _) ?_
      intro n hn hn'
      exact ((h.mem_iff n).mp hn).2 (List.mem_of_mem_filter hn')
    · have hlength := (Registry.step_grows hinv hc).length
      rw [hreleased, List.mem_append, h.mem_iff, List.mem_filter, decide_eq_true_eq]
      constructor
      · rintro (⟨hlt, hn⟩ | ⟨hn, hn'⟩)
        · refine ⟨Nat.lt_of_lt_of_le hlt hlength, fun hn' => ?_⟩
          rcases Registry.step_mem_outstanding hc hn' with hn' | hle
          · exact hn hn'
          · exact absurd hlt (Nat.not_lt.mpr hle)
        · obtain ⟨i, hi, -⟩ := hinv.data.outstanding n hn
          exact ⟨Nat.lt_of_lt_of_le (Registry.Data.indexOf_lt hi) hlength, hn'⟩
      · rintro ⟨hlt, hn'⟩
        by_cases hn : n ∈ s.system.registry.mem.data.outstanding
        · exact .inr ⟨hn, hn'⟩
        · exact .inl ⟨(Registry.step_lt_length hc hlt).resolve_right hn', hn⟩

end

/-! ## Containment -/

/-- What a panic of an actor leaves as it is. -/
structure Contained [DecidableEq T] [DecidableEq A] (poisons : Bool) (s : State k T M F A) :
    Prop where
  /-- No panic comes to `process_scheduled_actors`. -/
  unwound : ∀ d, s.loops d ≠ .unwound
  /-- `execute` returns. -/
  returns : ∀ d, s.system.Returns poisons d
  /-- The loop goes on, until the dispatcher is stopped. -/
  continues : ∀ d, (∃ n entries, s.loops d = .execute n entries) ∨
    s.loops d = .ended ∧ s.system.stopped d = true ∨ (step poisons s (.loop d)).isSome = true
  /-- Each entry is executed, in the order of the pushes. -/
  entries : ∀ d, s.system.stopped d = false →
    s.pushed d = s.executed d ++ (s.loops d).entries ++ s.scheduledActors d
  /-- The actor comes to `STOPPED`, and `on_finalize` is called. -/
  failed : ∀ n ∈ s.failed, (∀ d, s.system.stopped d = false) → ∃ actor,
    s.system.actors n = some actor ∧ actor.run.Failed ∧ (Quiescent actor.run →
      actor.run.mem.lifecycle = .stopped ∧ actor.run.mem.onKillReturns = 1 ∧
        s.released.count n = 1)
  /-- A slot is given back once, through `on_finalize`. -/
  released : ∀ n ∈ s.released, s.released.count n = 1 ∧
    ∃ actor, s.system.actors n = some actor ∧ actor.run.mem.onKillReturns = 1

section
variable [DecidableEq T] [DecidableEq A] {poisons : Bool} {capacity : Nat} {s : State k T M F A}

theorem loopOk_of_guarded (h : Reach (machine k T M F A poisons capacity) Guarded s) :
    ∀ d, LoopOk s d := by
  refine h.inv_of (fun s => ActorSystem.Surviving s.system) (fun s => ∀ d, LoopOk s d)
    (fun h => ActorSystem.surviving_of_guarded (system_reach h)) ?_
    fun hsurviving hloops hok hs => LoopOk.step hloops hsurviving hok hs
  rintro _ rfl d
  refine ⟨?_, ?_, ?_, ?_, ?_⟩ <;> simp [start, ActorSystem.withCapacity]

theorem queueOk_of_guarded (h : Reach (machine k T M F A poisons capacity) Guarded s) (d : Fin k) :
    QueueOk s d := by
  induction h with
  | init h =>
    subst h
    refine ⟨?_, ?_⟩ <;> simp [start, LoopPc.rest, LoopPc.entries]
  | step hr hok hs ih =>
    exact ih.step (ActorSystem.linked_of_reach (system_reach hr))
      (fun e => (loopOk_of_guarded (hr.step hok hs) e).unwound) hs

theorem failuresOk_of_guarded (h : Reach (machine k T M F A poisons capacity) Guarded s) :
    FailuresOk s := by
  induction h with
  | init h =>
    subst h
    refine ⟨?_, ?_⟩ <;> simp [start, ActorSystem.withCapacity]
  | step hr hok hs ih =>
    have hsystem := system_reach (hr.step hok hs)
    exact ih.step (ActorSystem.linked_of_reach (system_reach hr))
      (ActorSystem.surviving_of_guarded hsystem) (ActorSystem.stopped_of_reach hsystem) hok hs

theorem releasesOk_of_guarded (h : Reach (machine k T M F A poisons capacity) Guarded s) :
    ReleasesOk s := by
  induction h with
  | init h =>
    subst h
    refine ⟨?_, ?_⟩ <;>
      simp [start, ActorSystem.withCapacity, Registry.withCapacity]
  | step hr hok hs ih => exact ih.step (ActorSystem.registry_inv (system_reach hr)) hok hs

/-- The loop of a dispatcher goes on. -/
theorem loop_isSome {d : Fin k} (hloop : LoopOk s d) (hqueue : QueueOk s d)
    (hseat : ActorSystem.Seated s.system) : (∃ n entries, s.loops d = .execute n entries) ∨
      s.loops d = .ended ∧ s.system.stopped d = true ∨
        (step poisons s (.loop d)).isSome = true := by
  have hcount := hqueue.count
  have hidle := hloop.idle
  have hexit (hstopped : s.system.stopped d = true)
      (hne : ∀ n entries, s.loops d ≠ .execute n entries) :
      (exitLoop poisons s d).isSome = true := by
    simp [exitLoop, ActorSystem.step, hstopped, hidle hne]
  cases hpc : s.loops d with
  | execute n entries => exact .inl ⟨n, entries, rfl⟩
  | ended => exact .inr (.inl ⟨rfl, hloop.ended hpc⟩)
  | unwound => exact absurd hpc hloop.unwound
  | wait | endRound =>
    refine .inr (.inr ?_)
    simp only [step, hpc, loopStep]
    split
    · exact hexit ‹_› (by simp [hpc])
    · rfl
  | take =>
    refine .inr (.inr ?_)
    simp only [step, hpc, loopStep]
    split <;> rfl
  | executed entries => exact .inr (.inr (by simp [step, hpc, loopStep]))
  | batch entries =>
    refine .inr (.inr ?_)
    cases entries with
    | nil => simp [step, hpc, loopStep]
    | cons n entries =>
      have hn := hcount n
      simp only [hpc, LoopPc.rest, List.count_cons_self] at hn
      have hunexited : s.system.exited d = false := by
        by_contra hd
        cases hpc.symm.trans (hloop.exited (by simpa using hd))
      have hpick : (ActorSystem.step poisons s.system (.pick d n)).isSome = true :=
        ActorSystem.step_pick_isSome hseat (hidle (by simp [hpc])) hunexited (by omega)
      simpa [step, hpc, loopStep] using hpick

/-- **A panicking actor does not take its dispatcher down**, when `on_kill` and the dead-letter
callback do not panic and `finalize_kill` finds no lock poisoned. -/
theorem contained_of_guarded (h : Reach (machine k T M F A poisons capacity) Guarded s) :
    Contained poisons s := by
  have hsystem := system_reach h
  have hloops := loopOk_of_guarded h
  have hreleases := releasesOk_of_guarded h
  have hl := ActorSystem.linked_of_reach hsystem
  refine ⟨fun d => (hloops d).unwound, ActorSystem.returns_of_guarded hsystem, fun d => ?_,
    fun d => (queueOk_of_guarded h d).history, fun n hn hstopped => ?_, fun n hn => ?_⟩
  · exact loop_isSome (hloops d) (queueOk_of_guarded h d) (ActorSystem.seated_of_reach hsystem)
  · have hfailures := failuresOk_of_guarded h
    obtain ⟨actor, ha⟩ := Option.ne_none_iff_exists'.mp (hfailures.known n hn)
    have hfailure := hfailures.failure n actor ha hstopped
    refine ⟨actor, ha, hfailure.failed hn, fun hquiet => ?_⟩
    obtain ⟨hlifecycle, hreturns⟩ :=
      hfailure.finalized_of_quiescent (hl.finalize n actor ha) hn hquiet
    refine ⟨hlifecycle, hreturns, List.count_eq_one_of_mem hreleases.nodup ?_⟩
    refine (hreleases.mem_iff n).mpr ⟨hl.known n actor ha, fun hout => ?_⟩
    -- its `on_kill` has returned, and nobody is in its `on_finalize`
    obtain ⟨d, -, hw, -⟩ := (ActorSystem.vacating_of_guarded hsystem).gone n actor ha
      (Nat.le_of_eq hreturns.symm) hout
    cases (hquiet.workers d).symm.trans hw
  · refine ⟨List.count_eq_one_of_mem hreleases.nodup hn, ?_⟩
    obtain ⟨hlt, hout⟩ := (hreleases.mem_iff n).mp hn
    obtain ⟨actor, ha, hreturns⟩ := (ActorSystem.released_of_reach hsystem).returned n hlt hout
    have honce := (hl.finalize n actor ha).once
    exact ⟨actor, ha, by omega⟩

/-- Two actors are spawned and a mail is posted to each; the dispatcher takes both entries as a
batch, and the first actor panics in `on_receive`. -/
def receivePanic : List (Action 1 Nat Nat Nat Nat) := List.flatten
  [[.system (.spawn 0 ⟨none, none, 2, true⟩)], .replicate 13 (.system (.call 0 false)),
    [.system (.spawn 0 ⟨none, none, 2, true⟩)], .replicate 13 (.system (.call 0 false)),
    [.system (.request 0 (.post 7) ⟨0, 1⟩)], .replicate 17 (.system (.call 0 false)),
    [.system (.request 0 (.post 8) ⟨1, 1⟩)], .replicate 17 (.system (.call 0 false)),
    .replicate 3 (.loop 0), .replicate 10 (.system (.execute 0 .done)),
    [.system (.execute 0 .panicked)]]

/-- The first actor comes to its end, and the second one is executed. -/
def received : State 1 Nat Nat Nat Nat :=
  ((machine 1 Nat Nat Nat Nat true 4).run (start 1 Nat Nat Nat Nat 4)
    (List.flatten [receivePanic, .replicate 23 (.system (.execute 0 .done)),
      .replicate 2 (.loop 0), .replicate 19 (.system (.execute 0 .done)),
      .replicate 4 (.loop 0)])).get (by decide +kernel)

theorem contained_of_guarded_received : received.loops 0 = .wait ∧ received.pushed 0 = [0, 1] ∧
    received.executed 0 = [0, 1] ∧ received.failed = [0] ∧ received.released = [0] ∧
    Contained true received := by
  have hreach : Reach (machine 1 Nat Nat Nat Nat true 4) Guarded received :=
    .get rfl (by decide +kernel) _
  exact ⟨by decide +kernel, by decide +kernel, by decide +kernel, by decide +kernel,
    by decide +kernel, contained_of_guarded hreach⟩

/-- `on_kill` of the first actor panics too. -/
def killPanic : State 1 Nat Nat Nat Nat :=
  ((machine 1 Nat Nat Nat Nat true 4).run (start 1 Nat Nat Nat Nat 4)
    (List.flatten [receivePanic, .replicate 12 (.system (.execute 0 .done)),
      [.system (.execute 0 .panicked)]])).get (by decide +kernel)

/-- The thread has ended with the entry of the second actor, and the first one holds its slot. -/
theorem notContained_onKill : Reach (machine 1 Nat Nat Nat Nat true 4) Machine.free killPanic ∧
    killPanic.loops 0 = .unwound ∧ killPanic.pushed 0 = [0, 1] ∧ killPanic.executed 0 = [] ∧
    killPanic.failed = [0, 0] ∧ killPanic.released = [] ∧
    (killPanic.system.actors 0).map (·.run.mem.lifecycle) = some .stopped ∧
    ¬Contained true killPanic := by
  have hunwound : killPanic.loops 0 = .unwound := by decide +kernel
  exact ⟨.get_free rfl _, hunwound, by decide +kernel, by decide +kernel, by decide +kernel,
    by decide +kernel, by decide +kernel, fun h => h.unwound 0 hunwound⟩

end

end DignusActor.Dispatching
