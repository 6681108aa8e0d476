import DignusActor.System.Waiting

/-! # `execute` returns to its dispatcher

`State.Returns` says that a dispatcher thread comes back from `execute`, with the threads that it
waits for in the `finalize_kill` of the system, whatever user code answers, short of a panic that
no `catch_unwind` stands around. It holds of every state of a guarded run (`returns_of_guarded`): by
the induction on `execute` up to `on_finalize`, and as every `finalize_kill` completes from there.
-/

namespace DignusActor.ActorSystem

open Machine (Reach)

variable {k : Nat} {T M F A : Type} [DecidableEq T] [DecidableEq A]

/-- Dispatcher `d`, and the threads that it waits for, come to the end of its `execute`. -/
def State.Returns (poisons : Bool) (d : Fin k) (s : State k T M F A) : Prop :=
  s.Completes poisons Guarded (.worker d) fun s => s.busy d = none

section
variable {poisons : Bool} {s s' : State k T M F A} {d : Fin k} {n : Nat} {capacity : Nat}

theorem step_execute_busy {o : ActorRunner.Outcome F}
    (hs : ActorSystem.step poisons s (.execute d o) = some s') (hbusy : s.busy d = some n) :
    s'.busy d = none ∨ s'.busy d = some n := by
  have hmove := step_move hs
  generalize hu : Action.thread (.execute d o : Action k T M F A) = u at hmove
  cases hmove with
  | caller => cases hu
  | worker _ hwork =>
    cases hu
    rcases hwork.seat with ⟨-, hsame⟩ | ⟨m, actor, run, hseat⟩
    · exact .inr (hsame ▸ hbusy)
    · have hm : m = n := by
        rcases hseat.busy with hm | hm
        · cases hm.symm.trans hbusy
        · exact Option.some.inj (hm.symm.trans hbusy)
      rcases hseat.seat with ⟨hm', -⟩ | ⟨hnone, -⟩
      · exact .inr (hm ▸ hm')
      · exact .inl hnone

/-- By the induction on the end of `execute`. -/
theorem returns_running {owner : Fin k} {run : ActorRunner.State (Fin k) T M F}
    (hreturns : run.Returns owner d) :
    ∀ {s : State k T M F A} {n}, Reach (machine k T M F A poisons capacity) Guarded s →
      s.busy d = some n → (∃ actorAlias, s.actors n = some ⟨owner, actorAlias, run⟩) →
        s.Returns poisons d := by
  induction hreturns with
  | idle hidle =>
    rintro s n h hbusy ⟨actorAlias, ha⟩
    exact absurd hidle ((seated_of_reach h).busy_eq hbusy ha)
  | @step run hex hall ih =>
    rintro s n h hbusy ⟨actorAlias, ha⟩
    by_cases hw : run.workers d = .onFinalize
    · exact completes_finalizing (fun h => (surviving_of_guarded h).finalize d) h ⟨hbusy, ha, hw⟩
    have hl := linked_of_reach h
    have hstart : s.finalizers d = .start := (hl.worker d).start fun m actor hm ha' => by
      cases hm.symm.trans hbusy
      cases ha'.symm.trans ha
      exact hw
    have hwait : s.registry.waitsFor (.worker d) = none :=
      Registry.State.waitsFor_of_rest ((hl.worker d).rest (by simp [hstart]))
    refine .step ?_ fun a s' hu hok hs => ?_
    · obtain ⟨o, run', hrun, -⟩ := hex
      obtain ⟨s', hs⟩ : ∃ s', ActorSystem.step poisons s (.execute d o) = some s' := by
        refine Option.isSome_iff_exists.mp ?_
        simp only [ActorSystem.step, hbusy, Option.bind_some, executeStep]
        split
        · rename_i hin
          simp only [State.workerIn, ha, Option.map_some, Option.some.injEq] at hin
          exact absurd hin hw
        · simp [State.inActor, ha, hrun]
      exact ⟨_, s', .self, hs⟩
    · obtain ⟨o, rfl⟩ := step_of_busy hs (hu.eq_self hwait) hbusy
      obtain ⟨m, actor, hm, ha', hmove⟩ := step_execute hs
      cases hm.symm.trans hbusy
      cases ha'.symm.trans ha
      cases hmove with
      | finalize hfin => exact absurd hfin hw
      | @run run' _ hrun hactors =>
        have h' := h.step hok hs
        rcases step_execute_busy hs hbusy with hbusy' | hbusy'
        · exact .done hbusy'
        · exact ih o run' hrun (hok.not_dead hbusy ha hw hrun) h' hbusy'
            ⟨actorAlias, by rw [hactors, Function.update_self]⟩

/-- **`execute` returns.** In a guarded run each dispatcher comes back from `execute`. -/
theorem returns_of_guarded (h : Reach (machine k T M F A poisons capacity) Guarded s)
    (d : Fin k) : s.Returns poisons d := by
  cases hbusy : s.busy d with
  | none => exact .done hbusy
  | some n =>
    obtain ⟨actor, ha, -⟩ := (seated_of_reach h).busy d n hbusy
    have hreturns : actor.run.Returns actor.owner d :=
      (executeInv_of_reach h n actor ha).returns ((surviving_of_guarded h).alive n actor ha d)
    exact returns_running hreturns h hbusy ⟨actor.actorAlias, ha⟩

end

end DignusActor.ActorSystem
