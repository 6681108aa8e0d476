import DignusActor.Runner.Finalize
import DignusActor.Runner.Kill

/-! # A receive that panics

`catch_unwind` stands around `on_receive` and around the poll of a receive future, and the thread
that caught a panic kills the actor. `State.Failed` says what has become of the failure: the kill is
still to come, or the actor is in `KILLING` with somebody due to run it, or it is stopped. The calls
of `on_kill`, of the dead-letter callback and of `on_finalize` stand in no `catch_unwind`: a panic
there ends the thread (`WorkerPc.dead`), and nothing here says anything about a runner with such a
thread. -/

namespace DignusActor.ActorRunner

variable {D T M F : Type}

/-- The thread has caught a panic, and its kill is to come. -/
def WorkerPc.Failing : WorkerPc M F → Prop
  | .pollDeactivate _ false | .pollReset _ false | .killLifecycle _ => True
  | _ => False

/-- A receive of the actor has failed. -/
inductive State.Failed (s : State D T M F) : Prop
  | failing (d : D) : (s.workers d).Failing → s.Failed
  | killing : s.mem.lifecycle = .killing → s.Due → s.Failed
  | stopped : s.mem.lifecycle = .stopped → s.Failed

/-- No thread has unwound out of `execute`. -/
def State.Alive (s : State D T M F) : Prop := ∀ d, s.workers d ≠ .dead

/-- Dispatcher `d` is in a call of user code: of `on_receive`, of the poll of a future, of `on_kill`
or of the dead-letter callback. -/
def State.inUserCode (s : State D T M F) (d : D) : Bool :=
  match s.workers d with
  | .receiving | .publish _ | .onKill => true
  | .pollSlot _ => s.mem.slot.isSome
  | _ => false

/-- Dispatcher `d` is in a call of user code that no `catch_unwind` stands around. -/
def State.unguarded (s : State D T M F) (d : D) : Bool :=
  match s.workers d with
  | .publish _ | .onKill => true
  | _ => false

/-- Of a runner with no dead thread: somebody serves it, and it is finalized once it is stopped;
`failed` says that a receive of it has failed. -/
structure FailureInv (failed : Prop) (s : State D T M F) : Prop where
  served : ServedInv s
  failed : failed → s.Failed
  finalized : s.mem.lifecycle = .stopped →
    1 ≤ s.mem.onKillReturns ∨ ∃ d, (s.workers d).stage ≠ none

theorem State.Failed.stopped_of_quiescent {s : State D T M F} (h : s.Failed)
    (hq : Quiescent s) : s.mem.lifecycle = .stopped := by
  cases h with
  | failing d hd =>
    rw [hq.workers d] at hd
    exact hd.elim
  | killing _ hdue => exact absurd hdue hq.not_due
  | stopped h => exact h

variable [DecidableEq D] [DecidableEq T]

section
variable {owner d : D} {t : T} {o : Outcome F} {m m' : Shared D T M F} {pc pc' : WorkerPc M F}

/-- A thread dies of a panic in an unguarded call, or in `on_finalize`. -/
theorem workerStep_dead (h : workerStep owner d m o pc = some (m', .dead)) :
    o = .panicked ∧ ((∃ part, pc = .publish part) ∨ pc = .onKill ∨ pc = .onFinalize) := by
  generalize hpc' : WorkerPc.dead = pc' at h
  cases workerStep_move h with
  | publishPanic part ho => exact ⟨ho, .inl ⟨part, rfl⟩⟩
  | onKillPanic ho => exact ⟨ho, .inr (.inl rfl)⟩
  | onFinalizePanic ho => exact ⟨ho, .inr (.inr rfl)⟩
  | dropEntry site | pushEntry site => cases site <;> cases hpc'
  | _ => cases hpc'

/-- A thread that fails kills the actor. -/
theorem workerStep_failing (h : workerStep owner d m o pc = some (m', pc')) (hpc : pc.Failing) :
    pc'.Failing ∨ m'.lifecycle ≠ .running ∧ pc'.WillRun := by
  cases workerStep_move h with
  | pollDeactivate site ready => cases ready <;> exact .inl hpc
  | pollFailed => exact .inl trivial
  | killRunning => exact .inr ⟨by simp, trivial⟩
  | killAgain _ hne => exact .inr ⟨hne, trivial⟩
  | _ => exact hpc.elim

/-- A panic that is caught makes the thread fail. -/
theorem workerStep_panicked (h : workerStep owner d m .panicked pc = some (m', pc'))
    (hpc : pc = .receiving ∨ (∃ site, pc = .pollSlot site) ∧ m.slot.isSome = true) :
    pc'.Failing := by
  rcases hpc with rfl | ⟨⟨site, rfl⟩, hslot⟩
  · cases h
    trivial
  · obtain ⟨future, hf⟩ := Option.isSome_iff_exists.mp hslot
    simp only [workerStep, pollSlotStep, hf, Option.some.injEq, Prod.mk.injEq] at h
    obtain ⟨-, rfl⟩ := h
    trivial

/-- A thread in `finalize_kill` stays there until it has come through, or dies. -/
theorem workerStep_stage (h : workerStep owner d m o pc = some (m', pc')) (hpc : pc.stage ≠ none) :
    pc'.stage ≠ none ∨ pc = .onFinalize ∨ pc' = .dead := by
  cases workerStep_move h with
  | drain | drainNone | clearSlot | clearActive | clearUnmark | callOnKill | onKill =>
    exact .inl (by simp [WorkerPc.stage])
  | onKillPanic | onFinalizePanic => exact .inr (.inr rfl)
  | onFinalize => exact .inr (.inl rfl)
  | _ => exact absurd rfl hpc

end

section
variable {owner d : D} {s s' : State D T M F} {a : Action D T M F}

/-- The steps that no stop and no death of a thread comes of. -/
theorem served_of_alive (hs : step owner s a = some s') (hstop : ∀ d, s'.mem.stopped d = false)
    (halive : s'.Alive) : Served s a := by
  cases step_move hs with
  | stop d =>
    have hd := hstop d
    simp at hd
  | @worker d o mem pc hw =>
    cases o with
    | panicked =>
      rintro part hpc
      rw [hpc] at hw
      refine halive d ?_
      cases hw
      exact Function.update_self ..
    | _ => trivial
  | _ => trivial

theorem State.Failed.step (h : s.Failed) (H : ServedInv s) (hok : Served s a)
    (hs : ActorRunner.step owner s a = some s') : s'.Failed := by
  cases h with
  | stopped h => exact .stopped (step_stopped hs h)
  | killing hkill hdue =>
    rcases hdue.step H hok hs with hdue' | hstop | ⟨-, hne, -⟩
    · cases hl : s'.mem.lifecycle with
      | killing => exact .killing hl hdue'
      | stopped => exact .stopped hl
      | running =>
        -- no step takes the kill back
        exfalso
        cases step_move hs with
        | caller hc =>
          rcases callerStep_lifecycle hc with h | ⟨-, h, -⟩
          · cases hkill.symm.trans (h.symm.trans hl)
          · cases h.symm.trans hl
        | worker hw =>
          rcases workerStep_lifecycle hw with h | ⟨-, h, -⟩ | ⟨-, h, -⟩
          · cases hkill.symm.trans (h.symm.trans hl)
          · cases h.symm.trans hl
          · cases h.symm.trans hl
        | _ => cases hkill.symm.trans hl
    · exact .stopped hstop
    · exact absurd hkill hne
  | failing d hd =>
    by_cases hda : a.dispatcher = some d
    · cases step_move hs with
      | pick hidle =>
        cases hda
        rw [hidle] at hd
        exact hd.elim
      | @worker _ _ mem _ hw =>
        cases hda
        rcases workerStep_failing hw hd with hd' | ⟨hne, hrun⟩
        · exact .failing d (by simpa using hd')
        · cases hl : mem.lifecycle with
          | running => exact absurd hl hne
          | killing => exact .killing hl (.worker d (by simpa using hrun))
          | stopped => exact .stopped hl
      | _ => cases hda
    · exact .failing d (step_workers_of_ne hs hda ▸ hd)

/-- The actor has failed when user code panics and the thread survives. -/
theorem failed_of_panicked (hs : step owner s (.worker d .panicked) = some s')
    (huser : s.inUserCode d = true) (hguard : s.unguarded d = false) : s'.Failed := by
  cases step_move hs with
  | worker hw =>
    refine .failing d ?_
    simp only [Function.update_self]
    refine workerStep_panicked hw ?_
    unfold State.inUserCode at huser
    unfold State.unguarded at hguard
    split at huser
    · rename_i hpc
      exact .inl hpc
    · rename_i hpc
      rw [hpc] at hguard
      cases hguard
    · rename_i hpc
      rw [hpc] at hguard
      cases hguard
    · rename_i site hpc
      exact .inr ⟨⟨site, hpc⟩, huser⟩
    · cases huser

theorem finalized_step (hf : s.mem.lifecycle = .stopped →
      1 ≤ s.mem.onKillReturns ∨ ∃ d, (s.workers d).stage ≠ none) (hfin : FinalizeInv s)
    (hs : step owner s a = some s') (halive : s'.Alive) (hstop : s'.mem.lifecycle = .stopped) :
    1 ≤ s'.mem.onKillReturns ∨ ∃ d, (s'.workers d).stage ≠ none := by
  have hold (hl : s.mem.lifecycle = .stopped) :
      1 ≤ s'.mem.onKillReturns ∨ ∃ d, (s'.workers d).stage ≠ none := by
    rcases hf hl with hret | ⟨d, hd⟩
    · exact .inl (Nat.le_trans hret (step_history hs).2)
    by_cases hda : a.dispatcher = some d
    · cases step_move hs with
      | pick hidle =>
        cases hda
        rw [hidle] at hd
        exact absurd rfl hd
      | @worker _ _ m pc hw =>
        cases hda
        rcases workerStep_stage hw hd with hpc | hpc | rfl
        · exact .inr ⟨d, by simpa using hpc⟩
        · have hret := (hfin.stage d (1, 1) (by rw [hpc]; rfl)).2
          exact .inl (Nat.le_trans (Nat.le_of_eq hret.symm) (step_history hs).2)
        · exact absurd (Function.update_self ..) (halive d)
      | _ => cases hda
    · exact .inr ⟨d, by rwa [step_workers_of_ne hs hda]⟩
  cases step_move hs with
  | caller hc =>
    rcases callerStep_lifecycle hc with hl | ⟨-, hl, -⟩
    · exact hold (hl.symm.trans hstop)
    · cases hstop.symm.trans hl
  | @worker d o m pc hw =>
    rcases workerStep_lifecycle hw with hl | ⟨-, hl, -⟩ | ⟨-, -, -, rfl⟩
    · exact hold (hl.symm.trans hstop)
    · cases hstop.symm.trans hl
    · exact .inr ⟨d, by simp [WorkerPc.stage]⟩
  | _ => exact hold hstop

theorem FailureInv.step {failed failed' : Prop} (H : FailureInv failed s) (hfin : FinalizeInv s)
    (hs : ActorRunner.step owner s a = some s') (hstop : ∀ d, s'.mem.stopped d = false)
    (halive : s'.Alive) (hfailed : failed' → failed ∨ s'.Failed) : FailureInv failed' s' where
  served := H.served.step (served_of_alive hs hstop halive) hs
  failed h := by
    rcases hfailed h with h | h
    · exact (H.failed h).step H.served (served_of_alive hs hstop halive) hs
    · exact h
  finalized := finalized_step H.finalized hfin hs halive

omit [DecidableEq D] [DecidableEq T] in
/-- An actor that has failed and that nobody is due to run was stopped, and `on_kill` returned. -/
theorem FailureInv.finalized_of_quiescent {failed : Prop} (H : FailureInv failed s)
    (hfin : FinalizeInv s) (hfailed : failed) (hq : Quiescent s) :
    s.mem.lifecycle = .stopped ∧ s.mem.onKillReturns = 1 := by
  have hstop := (H.failed hfailed).stopped_of_quiescent hq
  refine ⟨hstop, ?_⟩
  have honce := hfin.once
  rcases H.finalized hstop with hret | ⟨d, hd⟩
  · omega
  · rw [hq.workers d] at hd
    exact absurd rfl hd

end

end DignusActor.ActorRunner
