import DignusActor.Runner.Scheduled

/-! # `on_kill` runs once

The swap to `STOPPED` in `finalize_kill` lets one thread through, once. So in every run `on_kill` is
called at most once, and a thread that has come to `on_finalize` has seen it return. -/

namespace DignusActor.ActorRunner

open Machine (Reach)

variable {D T M F : Type}

/-- How often `on_kill` has been called, and how often it has returned, at the steps of
`finalize_kill`. -/
def WorkerPc.stage : WorkerPc M F → Option (Nat × Nat)
  | .drain | .clearSlot | .clearActive | .clearUnmark | .callOnKill => some (0, 0)
  | .onKill => some (1, 0)
  | .onFinalize => some (1, 1)
  | _ => none

structure FinalizeInv (s : State D T M F) : Prop where
  killed : s.mem.lifecycle ≠ .running → 1 ≤ s.mem.killCalls
  swapping : ∀ d, s.workers d = .finalizeSwap → s.mem.lifecycle ≠ .running
  stopped : ∀ d, (s.workers d).stage ≠ none → s.mem.lifecycle = .stopped
  unique : ∀ d d', (s.workers d).stage ≠ none → (s.workers d').stage ≠ none → d = d'
  unstopped : s.mem.lifecycle ≠ .stopped → s.mem.onKillStarts = 0 ∧ s.mem.onKillReturns = 0
  stage : ∀ d p, (s.workers d).stage = some p →
    s.mem.onKillStarts = p.1 ∧ s.mem.onKillReturns = p.2
  once : s.mem.onKillReturns ≤ s.mem.onKillStarts ∧ s.mem.onKillStarts ≤ 1

variable [DecidableEq D] [DecidableEq T]

/-- What a step of a worker does to the history of `on_kill`. -/
inductive OnKillMove (m : Shared D T M F) (pc : WorkerPc M F) (m' : Shared D T M F)
    (pc' : WorkerPc M F) : Prop
  | other : m'.onKillStarts = m.onKillStarts → m'.onKillReturns = m.onKillReturns →
    (pc'.stage = none ∨ pc'.stage = pc.stage) → OnKillMove m pc m' pc'
  | swap : m.lifecycle ≠ .stopped → m' = { m with lifecycle := .stopped } →
    pc = .finalizeSwap → pc' = .drain → OnKillMove m pc m' pc'
  | start : m' = { m with onKillStarts := m.onKillStarts + 1 } → pc = .callOnKill →
    pc' = .onKill → OnKillMove m pc m' pc'
  | finish : m' = { m with onKillReturns := m.onKillReturns + 1 } → pc = .onKill →
    pc' = .onFinalize → OnKillMove m pc m' pc'

section
variable {owner d : D} {t : T} {o : Outcome F} {m m' : Shared D T M F}

omit [DecidableEq D] in
theorem ScheduleSite.next_stage (site : ScheduleSite) :
    (site.next : WorkerPc M F).stage = none := by
  cases site <;> rfl

variable {pc pc' : WorkerPc M F}

theorem workerStep_onKill (h : workerStep owner d m o pc = some (m', pc')) :
    OnKillMove m pc m' pc' := by
  cases workerStep_move h with
  | finalizeSwap hne => exact .swap hne rfl rfl rfl
  | callOnKill => exact .start rfl rfl rfl
  | onKill => exact .finish rfl rfl rfl
  | drain | drainNone | clearSlot | clearActive | clearUnmark => exact .other rfl rfl (.inr rfl)
  | dropEntry site | pushEntry site => exact .other rfl rfl (.inl site.next_stage)
  | _ => exact .other rfl rfl (.inl rfl)

theorem workerStep_killCalls (h : workerStep owner d m o pc = some (m', pc')) :
    m.killCalls ≤ m'.killCalls ∧ (m.lifecycle = .running → m'.lifecycle = .killing →
      1 ≤ m'.killCalls) := by
  cases workerStep_move h with
  | killRunning => exact ⟨Nat.le_succ _, fun _ _ => Nat.le_add_left 1 _⟩
  | killAgain => exact ⟨Nat.le_succ _, fun _ _ => Nat.le_add_left 1 _⟩
  | _ => exact ⟨Nat.le_refl _, fun h h' => by simp_all [Shared.push]⟩

theorem workerStep_finalizeSwap (h : workerStep owner d m o pc = some (m', .finalizeSwap)) :
    m'.lifecycle = .killing := by
  generalize hpc' : WorkerPc.finalizeSwap = pc' at h
  cases workerStep_move h with
  | lifecycleKilling hk | finalKilling hk => exact hk
  | dropEntry site | pushEntry site => cases site <;> cases hpc'
  | _ => cases hpc'

theorem callerStep_onKill {pc pc' : CallerPc D M}
    (h : callerStep owner t m pc = some (m', pc')) :
    m'.onKillStarts = m.onKillStarts ∧ m'.onKillReturns = m.onKillReturns ∧
      m.killCalls ≤ m'.killCalls ∧ (m.lifecycle = .running → m'.lifecycle = .killing →
        1 ≤ m'.killCalls) := by
  cases callerStep_move h with
  | killRunning => exact ⟨rfl, rfl, Nat.le_succ _, fun _ _ => Nat.le_add_left 1 _⟩
  | killAgain => exact ⟨rfl, rfl, Nat.le_succ _, fun _ _ => Nat.le_add_left 1 _⟩
  | _ => exact ⟨rfl, rfl, Nat.le_refl _, fun h h' => by simp_all [Shared.push]⟩

theorem workerStep_running (h : workerStep owner d m o pc = some (m', pc'))
    (hm : m.lifecycle = .running → m.killCalls = 0) (hm' : m'.lifecycle = .running) :
    m'.killCalls = 0 := by
  cases workerStep_move h with
  | killRunning | finalizeSwap => cases hm'
  | killAgain part hne => exact absurd hm' hne
  | _ => exact hm hm'

theorem callerStep_running {pc pc' : CallerPc D M} (h : callerStep owner t m pc = some (m', pc'))
    (hm : m.lifecycle = .running → m.killCalls = 0) (hm' : m'.lifecycle = .running) :
    m'.killCalls = 0 := by
  cases callerStep_move h with
  | killRunning => cases hm'
  | killAgain hne => exact absurd hm' hne
  | _ => exact hm hm'

end

section
variable {owner : D} {s s' : State D T M F} {a : Action D T M F}

omit [DecidableEq D] [DecidableEq T] in
/-- A step that neither the workers nor the lifecycle notice. -/
theorem FinalizeInv.of_same (H : FinalizeInv s) (hw : s'.workers = s.workers)
    (hl : s'.mem.lifecycle = s.mem.lifecycle) (hk : s.mem.killCalls ≤ s'.mem.killCalls)
    (hs : s'.mem.onKillStarts = s.mem.onKillStarts)
    (hr : s'.mem.onKillReturns = s.mem.onKillReturns) : FinalizeInv s' where
  killed h := Nat.le_trans (H.killed (hl ▸ h)) hk
  swapping := by
    rw [hw, hl]
    exact H.swapping
  stopped := by
    rw [hw, hl]
    exact H.stopped
  unique := by
    rw [hw]
    exact H.unique
  unstopped := by
    rw [hl, hs, hr]
    exact H.unstopped
  stage := by
    rw [hw, hs, hr]
    exact H.stage
  once := by
    rw [hs, hr]
    exact H.once

theorem FinalizeInv.caller (H : FinalizeInv s) {t : T} {m : Shared D T M F} {pc : CallerPc D M}
    (h : callerStep owner t s.mem (s.callers t) = some (m, pc)) :
    FinalizeInv { s with mem := m, callers := Function.update s.callers t pc } := by
  obtain ⟨hs, hr, hk, hnew⟩ := callerStep_onKill h
  rcases callerStep_lifecycle h with hl | ⟨hrun, hkill, -⟩
  · exact H.of_same rfl hl hk hs hr
  · -- a kill of a running actor: no worker is in `finalize_kill`
    refine ⟨fun _ => hnew hrun hkill, fun d _ => ?_, fun d hd => ?_, H.unique, fun _ => ?_, ?_, ?_⟩
    · simp [hkill]
    · cases hrun.symm.trans (H.stopped d hd)
    · dsimp only
      rw [hs, hr]
      exact H.unstopped (by simp [hrun])
    · dsimp only
      rw [hs, hr]
      exact H.stage
    · dsimp only
      rw [hs, hr]
      exact H.once

omit [DecidableEq T] in
/-- While a worker is inside `finalize_kill` nobody else is. -/
theorem FinalizeInv.only (H : FinalizeInv s) {d d' : D} {pc : WorkerPc M F}
    (hin : (s.workers d).stage ≠ none)
    (h : (Function.update s.workers d pc d').stage ≠ none) : d' = d := by
  by_contra hdd
  rw [Function.update_of_ne hdd] at h
  exact hdd (H.unique d' d h hin)

theorem FinalizeInv.worker (H : FinalizeInv s) {d : D} {o : Outcome F} {m : Shared D T M F}
    {pc : WorkerPc M F} (h : workerStep owner d s.mem o (s.workers d) = some (m, pc)) :
    FinalizeInv { s with mem := m, workers := Function.update s.workers d pc } := by
  obtain ⟨hk, hnew⟩ := workerStep_killCalls h
  have hlife := workerStep_lifecycle h
  have hkilled : m.lifecycle ≠ .running → 1 ≤ m.killCalls := fun hne => by
    rcases hlife with hl | ⟨hrun, hkill, -⟩ | ⟨hne', hstop, hpc, -⟩
    · exact Nat.le_trans (H.killed (hl ▸ hne)) hk
    · exact hnew hrun hkill
    · exact Nat.le_trans (H.killed (H.swapping d hpc)) hk
  have hrunning : s.mem.lifecycle ≠ .running → m.lifecycle ≠ .running := fun hne => by
    rcases hlife with hl | ⟨hrun, -⟩ | ⟨-, hstop, -⟩
    · rwa [hl]
    · exact absurd hrun hne
    · simp [hstop]
  have hswapping : ∀ d', Function.update s.workers d pc d' = .finalizeSwap →
      m.lifecycle ≠ .running := by
    intro d' hd'
    by_cases hdd : d' = d
    · subst hdd
      rw [Function.update_self] at hd'
      simp [workerStep_finalizeSwap (hd' ▸ h)]
    · rw [Function.update_of_ne hdd] at hd'
      exact hrunning (H.swapping d' hd')
  cases workerStep_onKill h with
  | other hs hr hstage =>
    -- nobody comes into `finalize_kill`
    have hold (d' : D) (p : Nat × Nat)
        (hp : (Function.update s.workers d pc d').stage = some p) :
        (s.workers d').stage = some p := by
      by_cases hdd : d' = d
      · subst hdd
        rw [Function.update_self] at hp
        rcases hstage with h | h
        · cases h.symm.trans hp
        · exact h ▸ hp
      · rwa [Function.update_of_ne hdd] at hp
    have hold' (d' : D) (hne : (Function.update s.workers d pc d').stage ≠ none) :
        (s.workers d').stage ≠ none := by
      obtain ⟨p, hp⟩ := Option.ne_none_iff_exists'.mp hne
      simp [hold d' p hp]
    have hstopped (hstop : s.mem.lifecycle = .stopped) : m.lifecycle = .stopped := by
      rcases hlife with hl | ⟨hrun, -⟩ | ⟨-, h, -⟩
      · rw [hl, hstop]
      · cases hrun.symm.trans hstop
      · exact h
    refine ⟨hkilled, hswapping, fun d' hd' => hstopped (H.stopped d' (hold' d' hd')),
      fun d' d'' h' h'' => H.unique d' d'' (hold' d' h') (hold' d'' h''), fun hne => ?_, ?_, ?_⟩
    · dsimp only
      rw [hs, hr]
      exact H.unstopped fun hstop => hne (hstopped hstop)
    · dsimp only
      rw [hs, hr]
      exact fun d' p hp => H.stage d' p (hold d' p hp)
    · dsimp only
      rw [hs, hr]
      exact H.once
  | swap hne hm hpc hpc' =>
    subst hm hpc'
    obtain ⟨hs, hr⟩ := H.unstopped hne
    -- the worker that swaps is the only one inside
    have honly (d' : D) (h' : (Function.update s.workers d .drain d').stage ≠ none) : d' = d := by
      by_contra hdd
      rw [Function.update_of_ne hdd] at h'
      exact hne (H.stopped d' h')
    refine ⟨hkilled, hswapping, fun _ _ => rfl,
      fun d' d'' h' h'' => (honly d' h').trans (honly d'' h'').symm, fun h' => absurd rfl h',
      fun d' p hp => ?_, H.once⟩
    cases honly d' (by simp [hp])
    simp only [Function.update_self] at hp
    cases hp
    exact ⟨hs, hr⟩
  | start hm hpc hpc' =>
    subst hm hpc'
    have hin : (s.workers d).stage = some (0, 0) := by rw [hpc]; rfl
    obtain ⟨hs, hr⟩ := H.stage d _ hin
    have hstop := H.stopped d (by simp [hin])
    have honly (d' : D) (h' : (Function.update s.workers d .onKill d').stage ≠ none) : d' = d :=
      H.only (by simp [hin]) h'
    refine ⟨hkilled, hswapping, fun _ _ => hstop,
      fun d' d'' h' h'' => (honly d' h').trans (honly d'' h'').symm, fun h' => absurd hstop h',
      fun d' p hp => ?_, ?_⟩
    · cases honly d' (by simp [hp])
      simp only [Function.update_self] at hp
      cases hp
      exact ⟨congrArg (· + 1) hs, hr⟩
    · exact ⟨hr ▸ Nat.zero_le _, Nat.le_of_eq (congrArg (· + 1) hs)⟩
  | finish hm hpc hpc' =>
    subst hm hpc'
    have hin : (s.workers d).stage = some (1, 0) := by rw [hpc]; rfl
    obtain ⟨hs, hr⟩ := H.stage d _ hin
    have hstop := H.stopped d (by simp [hin])
    have honly (d' : D) (h' : (Function.update s.workers d .onFinalize d').stage ≠ none) :
        d' = d :=
      H.only (by simp [hin]) h'
    refine ⟨hkilled, hswapping, fun _ _ => hstop,
      fun d' d'' h' h'' => (honly d' h').trans (honly d'' h'').symm, fun h' => absurd hstop h',
      fun d' p hp => ?_, ?_⟩
    · cases honly d' (by simp [hp])
      simp only [Function.update_self] at hp
      cases hp
      exact ⟨hs, congrArg (· + 1) hr⟩
    · dsimp only
      rw [hs, hr]
      exact ⟨Nat.le_refl 1, Nat.le_refl 1⟩

theorem FinalizeInv.step (H : FinalizeInv s) (h : step owner s a = some s') : FinalizeInv s' := by
  cases step_move h with
  | post | kill | wake | stop => exact H.of_same rfl rfl (Nat.le_refl _) rfl rfl
  | caller hc => exact H.caller hc
  | worker hw => exact H.worker hw
  | @pick d origin rest hidle hq =>
    have hold (d' : D) (p : Nat × Nat)
        (hp : (Function.update s.workers d (.loadActive origin) d').stage = some p) :
        (s.workers d').stage = some p := by
      by_cases hdd : d' = d
      · subst hdd
        rw [Function.update_self] at hp
        cases hp
      · rwa [Function.update_of_ne hdd] at hp
    have hold' (d' : D)
        (hne : (Function.update s.workers d (.loadActive origin) d').stage ≠ none) :
        (s.workers d').stage ≠ none := by
      obtain ⟨p, hp⟩ := Option.ne_none_iff_exists'.mp hne
      simp [hold d' p hp]
    refine ⟨H.killed, fun d' hd' => ?_, fun d' hd' => H.stopped d' (hold' d' hd'),
      fun d' d'' h' h'' => H.unique d' d'' (hold' d' h') (hold' d'' h''), H.unstopped,
      fun d' p hp => H.stage d' p (hold d' p hp), H.once⟩
    by_cases hdd : d' = d
    · subst hdd
      simp at hd'
    · exact H.swapping d' (by simpa [hdd] using hd')

/-- `on_kill` has not returned when a thread comes to `on_finalize`. -/
theorem FinalizeInv.onKillReturns_of_entering (H : FinalizeInv s) {d : D} {o : Outcome F}
    (h : ActorRunner.step owner s (.worker d o) = some s') (hpc : s.workers d ≠ .onFinalize)
    (hpc' : s'.workers d = .onFinalize) : s.mem.onKillReturns = 0 := by
  cases step_move h with
  | worker hw =>
    simp only [Function.update_self] at hpc'
    subst hpc'
    generalize hpc₀ : s.workers d = pc₀ at hw hpc
    cases workerStep_onKill hw with
    | other _ _ hstage =>
      rcases hstage with hstage | hstage
      · cases hstage
      · cases pc₀ <;> first | exact absurd rfl hpc | cases hstage
    | swap _ _ _ h | start _ _ h => cases h
    | finish _ h => exact (H.stage d (1, 0) (by rw [hpc₀, h]; rfl)).2

/-- What has been counted stays counted. -/
theorem step_history (h : step owner s a = some s') : s.mem.killCalls ≤ s'.mem.killCalls ∧
    s.mem.onKillReturns ≤ s'.mem.onKillReturns := by
  cases step_move h with
  | caller hc =>
    obtain ⟨-, hr, hk, -⟩ := callerStep_onKill hc
    exact ⟨hk, Nat.le_of_eq hr.symm⟩
  | worker hw =>
    refine ⟨(workerStep_killCalls hw).1, ?_⟩
    cases workerStep_onKill hw with
    | other _ hr => exact Nat.le_of_eq hr.symm
    | swap _ hm | start hm => exact hm ▸ Nat.le_refl _
    | finish hm => exact hm ▸ Nat.le_succ _
  | _ => exact ⟨Nat.le_refl _, Nat.le_refl _⟩

theorem step_killLifecycle {t : T} (h : step owner s (.caller t) = some s')
    (ht : s.callers t = .killLifecycle) : 1 ≤ s'.mem.killCalls := by
  cases step_move h with
  | caller hc =>
    rw [ht] at hc
    cases callerStep_move hc <;> exact Nat.le_add_left 1 _

/-- An actor that is still running has not been killed. -/
theorem step_running (h : step owner s a = some s')
    (hs : s.mem.lifecycle = .running → s.mem.killCalls = 0)
    (hs' : s'.mem.lifecycle = .running) : s'.mem.killCalls = 0 := by
  cases step_move h with
  | @caller t mem _ hc => exact callerStep_running hc hs hs'
  | @worker d o mem _ hw => exact workerStep_running hw hs hs'
  | _ => exact hs hs'

omit [DecidableEq D] [DecidableEq T] in
theorem initial_finalizeInv (q : MpscBoundedQueue M) : FinalizeInv (initial D T F q) where
  killed h := absurd rfl h
  swapping _ := nofun
  stopped _ h := absurd rfl h
  unique _ _ h := absurd rfl h
  unstopped _ := ⟨rfl, rfl⟩
  stage _ _ := nofun
  once := ⟨Nat.le_refl 0, Nat.zero_le 1⟩

theorem finalizeInv_of_reach {capacity : Nat}
    {ok : State D T M F → Action D T M F → Prop}
    (h : Reach (machine T M F owner capacity) ok s) : FinalizeInv s := by
  refine h.inv FinalizeInv ?_ fun H _ hs => H.step hs
  rintro s ⟨q, -, rfl⟩
  exact initial_finalizeInv q

end

end DignusActor.ActorRunner
