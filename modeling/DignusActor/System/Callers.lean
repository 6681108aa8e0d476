import DignusActor.System.Vacated

/-! # Where the callers stand in the runners

A caller is in the runner whose method it has called, and in no other (`callersSeated_of_reach`), so
it finds itself free there when it comes to the next one. A kill inside a runner takes at most four
steps, and waits for nobody (`killing_call`). -/

namespace DignusActor.ActorRunner

variable {D T M F : Type}

/-- The steps that a call of `kill` has yet to take. -/
def CallerPc.killWork : CallerPc D M → Nat
  | .killLifecycle => 4
  | .killSwap => 3
  | .schedule _ _ false => 2
  | .schedule _ _ true => 1
  | _ => 0

variable [DecidableEq D] [DecidableEq T] {owner : D} {s s' : State D T M F} {t : T}

/-- Each step of a kill leads to its end. -/
theorem killWork_step (h : 0 < (s.callers t).killWork)
    (hs : step owner s (.caller t) = some s') :
    s'.callers t = .idle ∨ 0 < (s'.callers t).killWork ∧
      (s'.callers t).killWork < (s.callers t).killWork := by
  cases step_move hs with
  | caller hc =>
    have hmove := callerStep_move hc
    simp only [Function.update_self]
    generalize s.callers t = pc at hmove h
    cases hmove with
    | killAgain | killSeen | dropEntry | pushEntry => exact .inl rfl
    | killRunning | killSwap | checkEntry => simp [CallerPc.killWork]
    | _ => cases h

end DignusActor.ActorRunner

namespace DignusActor.ActorSystem

open Machine (Reach)

variable {k : Nat} {T M F A : Type}

/-- The runner whose method the caller is in. -/
def CallerPc.runner : CallerPc k M A → Option Nat
  | .inRunner n | .killRunner _ n _ => some n
  | _ => none

theorem CallerPc.runner_of_atRest {pc : CallerPc k M A} (h : pc.atRest = true) :
    pc.runner = none := by
  cases pc <;> first | rfl | cases h

/-- A caller is in the runner whose method it has called, and in no other. -/
def CallersSeated (s : State k T M F A) : Prop :=
  ∀ t n actor, s.actors n = some actor → actor.run.callers t ≠ .idle →
    (s.callers t).runner = some n

/-- A caller takes a step of one runner, and is in it afterwards or free. -/
structure CallerSeat (s : State k T M F A) (t : T) (s' : State k T M F A) (n : Nat)
    (actor : Actor k T M F A) (run : ActorRunner.State (Fin k) T M F) : Prop where
  found : s.actors n = some actor
  runner : (s.callers t).runner = none ∨ (s.callers t).runner = some n
  actors : s'.actors = Function.update s.actors n (some { actor with run })
  seat : (s'.callers t).runner = some n ∨ run.callers t = .idle

section
variable [DecidableEq T] [DecidableEq A] {poisons : Bool} {s s' : State k T M F A}
  {u : Thread k T} {t : T} {pc : CallerPc k M A}

/-- What a step of a caller does to the runners. -/
theorem CallMove.seat (h : CallMove poisons s t pc s') (hpc : s.callers t = pc) :
    (∃ n actor run, CallerSeat s t s' n actor run) ∨ pc.runner = none ∧
      ∀ n actor', s'.actors n = some actor' → actor'.run.callers t = .idle ∨
        ∃ actor, s.actors n = some actor ∧ actor'.run.callers = actor.run.callers := by
  cases h with
  | beginWake n _ _ hrest ha =>
    refine .inl ⟨n, _, _, ha, .inl ?_, rfl, .inl ?_⟩
    · rw [hpc]
      exact CallerPc.runner_of_atRest hrest
    · simp [State.setCaller, CallerPc.runner]
  | kill _ n _ ha | deliver _ _ n _ _ ha =>
    refine .inl ⟨n, _, _, ha, .inl (by rw [hpc]; rfl), rfl, .inl ?_⟩
    simp [State.setCaller, CallerPc.runner]
  | killRunner _ n _ ha | inRunner n ha =>
    refine .inl ⟨n, _, _, ha, .inr (by rw [hpc]; rfl), rfl, .inl ?_⟩
    exact congrArg CallerPc.runner hpc
  | killReturn _ n _ ha _ hidle | runnerReturn n ha _ hidle =>
    exact .inl ⟨n, _, _, ha, .inr (by rw [hpc]; rfl), rfl, .inr hidle⟩
  | newRunner spawn n hnew =>
    refine .inr ⟨rfl, fun m actor' ha' => ?_⟩
    by_cases hmn : m = n
    · subst hmn
      simp only [State.setCaller, State.setActor, Function.update_self] at ha'
      cases ha'
      exact .inl ((newActor_untouched hnew).callers t)
    · simp only [State.setCaller, State.setActor, Function.update_of_ne hmn] at ha'
      exact .inr ⟨actor', ha', rfl⟩
  | stop call d =>
    refine .inr ⟨rfl, fun m actor' ha' => .inr ?_⟩
    obtain ⟨actor, ha, rfl⟩ := Option.map_eq_some_iff.mp ha'
    exact ⟨actor, ha, rfl⟩
  | beginSpawn _ hrest | beginShutdown _ _ hrest | beginLookup _ hrest
  | beginRequest _ _ hrest =>
    exact .inr ⟨CallerPc.runner_of_atRest hrest, fun m actor' ha' => .inr ⟨actor', ha', rfl⟩⟩
  | _ => exact .inr ⟨rfl, fun m actor' ha' => .inr ⟨actor', ha', rfl⟩⟩

theorem CallersSeated.step (h : CallersSeated s) (hl : Linked s) (hmove : Move poisons s s' u) :
    CallersSeated s' := by
  intro t n actor' ha' hne
  by_cases hu : u = .caller t
  · subst hu
    cases hmove with
    | caller _ hpc hcall =>
      rcases hcall.seat hpc with ⟨m, actor, run, hseat⟩ | ⟨hnone, hkept⟩
      · by_cases hnm : n = m
        · subst hnm
          rw [hseat.actors, Function.update_self] at ha'
          cases ha'
          exact hseat.seat.resolve_right hne
        · rw [hseat.actors, Function.update_of_ne hnm] at ha'
          have hin := h t n actor' ha' hne
          rcases hseat.runner with hr | hr
          · cases hr.symm.trans hin
          · exact absurd (Option.some.inj (hin.symm.trans hr)) hnm
      · rcases hkept n actor' ha' with hidle | ⟨actor, ha, hsame⟩
        · exact absurd hidle hne
        · have hin := h t n actor ha (hsame ▸ hne)
          rw [hpc, hnone] at hin
          cases hin
  · rw [hmove.callers_of_ne hu]
    rcases hl.actor_cases hmove ha' with ⟨-, _, _, _, -, -, hnew⟩ | ⟨actor, ha, hevolves⟩
    · exact absurd ((newActor_untouched hnew).callers t) hne
    · refine h t n actor ha ?_
      rcases hevolves.run with hrun | ⟨action, hrun, htaken⟩
      · rwa [← hrun]
      · rwa [← ActorRunner.step_callers_of_ne hrun fun ht => hu (htaken.calling t ht)]

omit [DecidableEq T] [DecidableEq A] in
theorem CallersSeated.idle (h : CallersSeated s) {n : Nat} {actor : Actor k T M F A}
    (ha : s.actors n = some actor) (hn : (s.callers t).runner ≠ some n) :
    actor.run.callers t = .idle := by
  by_contra hne
  exact hn (h t n actor ha hne)

theorem callersSeated_of_reach {capacity : Nat} {ok : State k T M F A → Action k T M F A → Prop}
    (h : Reach (machine k T M F A poisons capacity) ok s) : CallersSeated s := by
  refine h.inv_of Linked CallersSeated linked_of_reach ?_ fun hl hs _ hstep =>
    hs.step hl (step_move hstep)
  rintro _ rfl _ _ _ ha
  cases ha

/-! ## A shutdown in a runner -/

/-- A shutdown that is in a runner is in `kill`. -/
def KillsSeated (s : State k T M F A) : Prop :=
  ∀ t call n rest, s.callers t = .killRunner call n rest → ∃ actor, s.actors n = some actor ∧
    0 < (actor.run.callers t).killWork

theorem KillsSeated.step (h : KillsSeated s) (hl : Linked s) (hmove : Move poisons s s' u) :
    KillsSeated s' := by
  intro t call n rest hpc'
  by_cases hu : u = .caller t
  · subst hu
    cases hmove with
    | caller _ hpc hcall =>
      cases hcall with
      | kill call' m rest' ha hrun =>
        simp only [State.setCaller, State.setActor, Function.update_self,
          CallerPc.killRunner.injEq] at hpc'
        obtain ⟨rfl, rfl, rfl⟩ := hpc'
        refine ⟨_, Function.update_self .., ?_⟩
        cases ActorRunner.step_move hrun
        simp [ActorRunner.State.setCaller, ActorRunner.CallerPc.killWork]
      | killRunner call' m rest' ha hrun hne =>
        cases hpc.symm.trans hpc'
        obtain ⟨actor, ha', hwork⟩ := h t call n rest hpc
        cases ha'.symm.trans ha
        refine ⟨_, Function.update_self .., ?_⟩
        exact ((ActorRunner.killWork_step hwork hrun).resolve_left hne).1
      | reserving | committing | snapshotting | counting | countRemaining | requesting
      | inRunner => cases hpc.symm.trans hpc'
      | _ => simp [State.setCaller, State.setActor] at hpc'
  · rw [hmove.callers_of_ne hu] at hpc'
    obtain ⟨actor, ha, hwork⟩ := h t call n rest hpc'
    obtain ⟨actor', ha', hevolves⟩ := hl.evolves hmove ha
    refine ⟨actor', ha', ?_⟩
    rcases hevolves.run with hrun | ⟨action, hrun, htaken⟩
    · rwa [hrun]
    · rwa [ActorRunner.step_callers_of_ne hrun fun ht => hu (htaken.calling t ht)]

end

end DignusActor.ActorSystem
