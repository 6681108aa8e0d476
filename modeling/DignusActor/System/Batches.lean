import DignusActor.System.Dispatching

/-! # The entries of the actors

What a step does to the number of entries that an actor has with a dispatcher: the push that the
thread is about to make adds one (`step_entries`), `pick` takes one away, and nothing else changes
it. Each runner knows the dispatchers that are stopped (`stopped_of_reach`). -/

namespace DignusActor.ActorRunner

variable {D T M F : Type} [DecidableEq D] [DecidableEq T]

section
variable {owner d : D} {t : T} {o : Outcome F} {m m' : Shared D T M F}

omit [DecidableEq T] in
theorem Shared.push_length (m : Shared D T M F) (dest : D) (origin : Origin) (d : D) :
    ((m.push dest origin).queue d).length =
      (m.queue d).length + if some dest = some d then 1 else 0 := by
  by_cases hd : d = dest
  · subst hd
    simp [Shared.push]
  · simp [Shared.push, hd, Ne.symm hd]

theorem callerStep_pushes {pc pc' : CallerPc D M} (h : callerStep owner t m pc = some (m', pc'))
    (d : D) : (m'.queue d).length =
      (m.queue d).length + if pc.pushes = some d then 1 else 0 := by
  cases callerStep_move h with
  | pushEntry origin dest => exact m.push_length dest origin d
  | _ => simp [CallerPc.pushes]

theorem workerStep_pushes {pc pc' : WorkerPc M F} {d' : D}
    (h : workerStep owner d' m o pc = some (m', pc')) (d : D) : (m'.queue d).length =
      (m.queue d).length + if pc.pushes owner = some d then 1 else 0 := by
  cases workerStep_move h with
  | pushEntry site => exact m.push_length owner site.origin d
  | _ => simp [WorkerPc.pushes]

end

/-- No thread inside a runner stops a dispatcher. -/
theorem step_mem_stopped {owner : D} {s s' : State D T M F} {a : Action D T M F}
    (h : step owner s a = some s') (ha : ∀ d, a ≠ .stop d) : s'.mem.stopped = s.mem.stopped := by
  cases step_move h with
  | caller hstep =>
    obtain ⟨_, _, _, _, hstopped, _⟩ := callerStep_frame hstep
    exact hstopped
  | worker hstep => exact workerStep_stopped hstep
  | stop d => exact absurd rfl (ha d)
  | _ => rfl

end DignusActor.ActorRunner

namespace DignusActor.ActorSystem

open Machine (Reach)
open Dispatching (scheduling)

variable {k : Nat} {T M F A : Type}

/-- How many entries actor `n` has with dispatcher `d`. -/
def State.entries (s : State k T M F A) (d : Fin k) (n : Nat) : Nat :=
  match s.actors n with
  | some actor => (actor.run.mem.queue d).length
  | none => 0

section
variable {s s' : State k T M F A} {d : Fin k} {n : Nat} {actor : Actor k T M F A}

theorem State.entries_eq (ha : s.actors n = some actor) :
    s.entries d n = (actor.run.mem.queue d).length := by
  simp [State.entries, ha]

theorem State.entries_congr (h : s'.actors n = s.actors n) : s'.entries d n = s.entries d n := by
  simp [State.entries, h]

/-- A step of the runner of actor `m` that adds what `pushed` says. -/
theorem State.entries_update {m : Nat} (ha : s.actors m = some actor)
    {run : ActorRunner.State (Fin k) T M F} {pushed : Option (Fin k)}
    (hactors : s'.actors = Function.update s.actors m (some { actor with run }))
    (hrun : ∀ d, (run.mem.queue d).length =
      (actor.run.mem.queue d).length + if pushed = some d then 1 else 0) :
    s'.entries d n = s.entries d n + if pushed.map (·, m) = some (d, n) then 1 else 0 := by
  by_cases hnm : n = m
  · subst hnm
    have ha' : s'.actors n = some { actor with run } := by simp [hactors]
    rw [State.entries_eq ha, State.entries_eq ha', hrun]
    cases pushed with
    | none => simp
    | some dest => simp
  · rw [State.entries_congr (s := s) (by simp [hactors, hnm])]
    cases pushed with
    | none => simp
    | some dest => simp [Ne.symm hnm]

theorem scheduling_caller {t : T} (h : s.callers t = .inRunner n ∨
    ∃ call rest, s.callers t = .killRunner call n rest) (ha : s.actors n = some actor) :
    scheduling s (.caller t) = (actor.run.callers t).pushes.map (·, n) := by
  rcases h with h | ⟨call, rest, h⟩ <;> simp [scheduling, h, State.callerIn, ha]

theorem scheduling_worker (hbusy : s.busy d = some n) (ha : s.actors n = some actor) :
    scheduling s (.worker d) = ((actor.run.workers d).pushes actor.owner).map (·, n) := by
  simp [scheduling, hbusy, ha]

end

section
variable [DecidableEq T] [DecidableEq A] {poisons : Bool} {s s' : State k T M F A}

theorem CallMove.entries {t : T} {pc : CallerPc k M A} (h : CallMove poisons s t pc s')
    (hpc : s.callers t = pc) (hl : Linked s) (d : Fin k) (n : Nat) : s'.entries d n =
      s.entries d n + if scheduling s (.caller t) = some (d, n) then 1 else 0 := by
  -- a step of a runner that pushes nothing
  have hquiet {m : Nat} {actor : Actor k T M F A} {run : ActorRunner.State (Fin k) T M F}
      (ha : s.actors m = some actor)
      (hactors : s'.actors = Function.update s.actors m (some { actor with run }))
      (hrun : run.mem.queue = actor.run.mem.queue) : s'.entries d n = s.entries d n := by
    have hnone : s'.entries d n =
        s.entries d n + if none.map (·, m) = some (d, n) then 1 else 0 :=
      State.entries_update ha hactors (by simp [hrun])
    simpa using hnone
  -- a step of a call in progress
  have hcall {m : Nat} {actor : Actor k T M F A} {run : ActorRunner.State (Fin k) T M F}
      (hin : s.callers t = .inRunner m ∨ ∃ call rest, s.callers t = .killRunner call m rest)
      (ha : s.actors m = some actor)
      (hrun : ActorRunner.step actor.owner actor.run (.caller t) = some run)
      (hactors : s'.actors = Function.update s.actors m (some { actor with run })) :
      s'.entries d n =
        s.entries d n + if scheduling s (.caller t) = some (d, n) then 1 else 0 := by
    rw [scheduling_caller hin ha]
    refine State.entries_update ha hactors fun d => ?_
    cases ActorRunner.step_move hrun with
    | caller hstep => exact ActorRunner.callerStep_pushes hstep d
  cases h with
  | inRunner m ha hrun | runnerReturn m ha hrun => exact hcall (.inl hpc) ha hrun rfl
  | killRunner call m rest ha hrun | killReturn call m rest ha hrun =>
    exact hcall (.inr ⟨call, rest, hpc⟩) ha hrun rfl
  | kill call m rest ha hrun =>
    rw [hquiet ha rfl (by cases ActorRunner.step_move hrun; rfl)]
    simp [scheduling, hpc]
  | deliver request lookup m _ _ ha hrun =>
    rw [hquiet ha rfl (by cases request <;> cases ActorRunner.step_move hrun <;> rfl)]
    simp [scheduling, hpc]
  | beginWake m current waker hrest ha hrun =>
    rw [hquiet ha rfl (by cases ActorRunner.step_move hrun; rfl)]
    cases pc <;> first | cases hrest; done | simp [scheduling, hpc]
  | newRunner spawn m hnew =>
    simp only [scheduling, hpc, if_neg, reduceCtorEq, not_false_eq_true, Nat.add_zero]
    by_cases hnm : n = m
    · subst hnm
      obtain ⟨-, q, -, rfl⟩ := newActor_eq_some.mp hnew
      simp [State.entries, State.setCaller, State.setActor, hl.newRunner_none hpc,
        ActorRunner.initial]
    · exact State.entries_congr (by simp [State.setCaller, State.setActor, hnm])
  | stop call dest =>
    simp only [scheduling, hpc, if_neg, reduceCtorEq, not_false_eq_true, Nat.add_zero]
    cases ha : s.actors n with
    | none => simp [State.entries, State.setCaller, ha]
    | some actor => simp [State.entries, State.setCaller, ha, Actor.stop]
  | beginSpawn _ hrest | beginShutdown _ _ hrest | beginLookup _ hrest
  | beginRequest _ _ hrest =>
    cases pc <;> first | cases hrest; done | simp [scheduling, hpc, State.entries, State.setCaller]
  | _ => simp [scheduling, hpc, State.entries, State.setCaller]

/-- Dispatcher `d` takes a step inside `execute`. -/
theorem step_execute_entries {d : Fin k} {o : ActorRunner.Outcome F}
    (h : step poisons s (.execute d o) = some s') (d' : Fin k) (n : Nat) : s'.entries d' n =
      s.entries d' n + if scheduling s (.worker d) = some (d', n) then 1 else 0 := by
  obtain ⟨m, actor, hbusy, ha, hmove⟩ := step_execute h
  rw [scheduling_worker hbusy ha]
  have hrun {run : ActorRunner.State (Fin k) T M F} {o : ActorRunner.Outcome F}
      (hactors : s'.actors = Function.update s.actors m (some { actor with run }))
      (hrun : ActorRunner.step actor.owner actor.run (.worker d o) = some run) :
      s'.entries d' n = s.entries d' n +
        if ((actor.run.workers d).pushes actor.owner).map (·, m) = some (d', n) then 1 else 0 := by
    refine State.entries_update ha hactors fun d => ?_
    cases ActorRunner.step_move hrun with
    | worker hstep => exact ActorRunner.workerStep_pushes hstep d
  cases hmove with
  | run _ hstep hactors => exact hrun hactors hstep
  | finalize hw hfin =>
    generalize s.finalizers d = pc at hfin
    cases hfin with
    | done hstep | panicked hstep => exact hrun rfl hstep
    | _ => simp [hw, ActorRunner.WorkerPc.pushes, State.entries, State.setFinalizer]

theorem step_call_entries {a : Action k T M F A} {t : T} (h : step poisons s a = some s')
    (hl : Linked s) (ht : a.thread = .caller t) (d : Fin k) (n : Nat) : s'.entries d n =
      s.entries d n + if scheduling s (.caller t) = some (d, n) then 1 else 0 := by
  have hmove := step_move h
  rw [ht] at hmove
  cases hmove with
  | caller _ hpc hcall => exact hcall.entries hpc hl d n

/-- `pick` takes an entry. -/
theorem step_pick_entries {d : Fin k} {m : Nat} (h : step poisons s (.pick d m) = some s')
    (d' : Fin k) (n : Nat) :
    s.entries d' n = s'.entries d' n + if d' = d ∧ n = m then 1 else 0 := by
  obtain ⟨actor, run, -, -, ha, hrun, rfl⟩ := step_pick h
  cases ActorRunner.step_move hrun with
  | @pick _ origin rest hidle hq =>
    by_cases hnm : n = m
    · subst hnm
      by_cases hd : d' = d
      · subst hd
        simp [State.entries, State.setActor, ha, hq]
      · simp [State.entries, State.setActor, ha, hd]
    · simp [State.entries, State.setActor, hnm]

/-- A dispatcher that is free can pick an entry. -/
theorem step_pick_isSome {d : Fin k} {n : Nat} (hseat : Seated s) (hbusy : s.busy d = none)
    (hexited : s.exited d = false) (hn : 0 < s.entries d n) :
    (step poisons s (.pick d n)).isSome = true := by
  unfold State.entries at hn
  split at hn
  · rename_i actor ha
    have hidle := hseat.idle hbusy ha
    obtain ⟨origin, rest, hq⟩ := List.exists_cons_of_length_pos hn
    simp [step, hbusy, hexited, State.inActor, ha, ActorRunner.step, hidle, hq]
  · exact absurd hn (Nat.lt_irrefl 0)

/-! ## The dispatchers that are stopped -/

/-- Each runner knows the dispatchers that are stopped. -/
def State.StopsKnown (s : State k T M F A) : Prop :=
  ∀ n actor, s.actors n = some actor → actor.run.mem.stopped = s.stopped

omit [DecidableEq T] [DecidableEq A] in
theorem State.StopsKnown.update (h : s.StopsKnown) {m : Nat} {actor : Actor k T M F A}
    (ha : s.actors m = some actor) {run : ActorRunner.State (Fin k) T M F}
    (hactors : s'.actors = Function.update s.actors m (some { actor with run }))
    (hrun : run.mem.stopped = actor.run.mem.stopped) (hstopped : s'.stopped = s.stopped) :
    s'.StopsKnown := by
  intro n actor' ha'
  rw [hactors] at ha'
  rw [hstopped]
  by_cases hnm : n = m
  · subst hnm
    rw [Function.update_self] at ha'
    cases ha'
    exact hrun.trans (h n actor ha)
  · rw [Function.update_of_ne hnm] at ha'
    exact h n actor' ha'

theorem CallMove.stopped {t : T} {pc : CallerPc k M A} (hmove : CallMove poisons s t pc s')
    (h : s.StopsKnown) : s'.StopsKnown := by
  cases hmove with
  | inRunner m ha hrun | runnerReturn m ha hrun | killRunner _ m _ ha hrun
  | killReturn _ m _ ha hrun | kill _ m _ ha hrun | beginWake m _ _ _ ha hrun =>
    exact h.update ha rfl (ActorRunner.step_mem_stopped hrun (by simp)) rfl
  | deliver request _ m _ _ ha hrun =>
    refine h.update ha rfl (ActorRunner.step_mem_stopped hrun ?_) rfl
    cases request <;> simp [Request.action]
  | newRunner spawn m hnew =>
    intro n actor' ha'
    simp only [State.setCaller, State.setActor] at ha' ⊢
    by_cases hnm : n = m
    · subst hnm
      rw [Function.update_self] at ha'
      cases ha'
      obtain ⟨-, q, -, rfl⟩ := newActor_eq_some.mp hnew
      rfl
    · rw [Function.update_of_ne hnm] at ha'
      exact h n actor' ha'
  | stop call d =>
    intro n actor' ha'
    obtain ⟨actor, ha, rfl⟩ := Option.map_eq_some_iff.mp ha'
    simp only [Actor.stop, State.setCaller, h n actor ha]
  | _ => exact h

theorem WorkMove.stopped {d : Fin k} (hmove : WorkMove poisons s d s')
    (h : s.StopsKnown) : s'.StopsKnown := by
  cases hmove with
  | pick m _ ha hrun hs | execute m _ _ ha _ hrun _ _ hs | «return» m _ _ ha _ hrun _ hs
  | unwind m _ _ ha _ hrun _ hs =>
    subst hs
    exact h.update ha rfl (ActorRunner.step_mem_stopped hrun (by simp)) rfl
  | exit _ hs =>
    subst hs
    exact h
  | finalize m _ ha _ _ hfin =>
    cases hfin with
    | done hrun | panicked hrun =>
      exact h.update ha rfl (ActorRunner.step_mem_stopped hrun (by simp)) rfl
    | _ => exact h

/-- A stopped dispatcher stays stopped. -/
theorem Move.unstopped {u : Thread k T} (h : Move poisons s s' u) {d : Fin k}
    (hd : s'.stopped d = false) : s.stopped d = false := by
  cases h with
  | caller t _ hcall =>
    cases hcall with
    | stop call d' =>
      by_cases hne : d = d'
      · subst hne
        simp [State.setCaller] at hd
      · simpa [State.setCaller, hne] using hd
    | _ => exact hd
  | worker d' hwork => exact (congrFun hwork.sameCalls.stopped d).symm.trans hd

theorem Move.stopped {u : Thread k T} (hmove : Move poisons s s' u) (h : s.StopsKnown) :
    s'.StopsKnown := by
  cases hmove with
  | caller t _ hcall => exact hcall.stopped h
  | worker d hwork => exact hwork.stopped h

theorem stopped_of_reach {capacity : Nat} {ok : State k T M F A → Action k T M F A → Prop}
    (h : Reach (machine k T M F A poisons capacity) ok s) : s.StopsKnown := by
  refine h.inv State.StopsKnown ?_ fun hstopped _ hs => ?_
  · rintro _ rfl _ _ h
    cases h
  · exact (step_move hs).stopped hstopped

end

end DignusActor.ActorSystem
