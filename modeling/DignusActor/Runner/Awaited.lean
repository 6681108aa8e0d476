import DignusActor.Runner.ActorAwait

/-! # Who polls an awaiter on its dispatcher

An `ActorAwaiter` pushes its continuation once. When the continuation runs, it wakes the runner, and
the entry of that wake is to be polled on the dispatcher of the awaiter. But a wake that finds the
runner marked pushes nothing, wherever the entry of the earlier wake is queued, so an awaiter can be
left with nobody to poll it on its dispatcher (`stranded_coalescedWake`). That is the only way: as
long as every continuation that is not heard leaves something in the queue of its dispatcher
(`Heard`), a waiting awaiter is attended (`attended_of_heard`). -/

namespace DignusActor.ActorRunner

open Machine (Reach)

variable {D T U M F : Type}

/-- On the way to a poll of the future in the slot. -/
def WorkerPc.AboutToPoll : WorkerPc M F → Prop
  | .loadActive _ | .pollUnmark _ | .pollSlot _ => True
  | _ => False

def WorkerPc.isIdle : WorkerPc M F → Bool
  | .idle => true
  | _ => false

theorem WorkerPc.isIdle_iff (pc : WorkerPc M F) : pc.isIdle = true ↔ pc = .idle := by
  cases pc <;> simp [isIdle]

def CallerPc.isIdle : CallerPc D M → Bool
  | .idle => true
  | _ => false

theorem CallerPc.isIdle_iff (pc : CallerPc D M) : pc.isIdle = true ↔ pc = .idle := by
  cases pc <;> simp [isIdle]

/-- In a `wake` with destination `d`. -/
def CallerPc.WakingOn (d : D) : CallerPc D M → Prop
  | .wakeActive dest | .wakeMark dest | .schedule .waker dest _ => dest = d
  | _ => False

namespace Awaiting

/-- The queue of dispatcher `d` has a continuation or the runner, a continuation runs there, or the
dispatcher has picked the runner and is on the way to a poll. -/
inductive Attended (s : Awaiting D U M) (d : D) : Prop
  | queued : s.tasks d ≠ [] → Attended s d
  | resumed : (s.runner.callers (.inl d)).WakingOn d → Attended s d
  | picked : (s.runner.workers d).AboutToPoll → Attended s d

/-- The awaiters of the future in the slot, as they are now. -/
def awaiters (s : Awaiting D U M) : List (ActorAwaiter D) :=
  match s.polling with
  | some p => p.rest ++ p.pending
  | none => s.runner.mem.slot.getD []

/-- The future waits on an awaiter for dispatcher `d` that has pushed its continuation. -/
def Waits (s : Awaiting D U M) (d : D) : Prop := ⟨d, true⟩ ∈ s.awaiters

/-- The future does not wait on dispatcher `d`, or something is left in the queue there. -/
def Spared (s : Awaiting D U M) (d : D) : Prop := s.Waits d → s.tasks d ≠ []

/-- A continuation that finds the runner inactive or marked is spared, and so is a dispatcher that
picks the runner and finds it inactive; and no dispatcher is stopped. -/
def Heard (s : Awaiting D U M) : Action D U M → Prop
  | .runner (.caller (.inl d)) =>
    match s.runner.callers (.inl d) with
    | .wakeActive _ => s.runner.mem.isActive = false → s.Spared d
    | .wakeMark _ => s.runner.mem.isPollScheduled = true → s.Spared d
    | _ => True
  | .runner (.worker d _) =>
    match s.runner.workers d with
    | .loadActive _ => s.runner.mem.isActive = false → s.Spared d
    | _ => True
  | .runner (.stop _) => False
  | _ => True

end Awaiting

variable [DecidableEq D]

/-! ## What the threads of the runner do -/

section

variable [DecidableEq T] {owner d : D} {t : T} {o : Outcome F} {m m' : Shared D T M F}

/-- A wake goes on, or pushes its entry, or finds the runner inactive or marked. -/
theorem callerStep_wakingOn {pc pc' : CallerPc D M} (hstop : m.stopped d = false)
    (h : callerStep owner t m pc = some (m', pc')) (hpc : pc.WakingOn d) :
    pc'.WakingOn d ∨ pc' = .idle ∧ ((m.queue d).length < (m'.queue d).length ∨
      (m.isActive = false ∧ ∃ dest, pc = .wakeActive dest) ∨
      m.isPollScheduled = true ∧ ∃ dest, pc = .wakeMark dest) := by
  cases callerStep_move h with
  | wakeActive | wakeMark => exact .inl hpc
  | wakeInactive dest hinactive => exact .inr ⟨rfl, .inr (.inl ⟨hinactive, dest, rfl⟩)⟩
  | wakeMarked dest hmark => exact .inr ⟨rfl, .inr (.inr ⟨hmark, dest, rfl⟩)⟩
  | dropEntry origin dest hdest =>
    cases origin with
    | waker =>
      cases hpc
      cases hstop.symm.trans hdest
    | _ => exact hpc.elim
  | checkEntry origin => exact .inl (by cases origin <;> exact hpc)
  | pushEntry origin dest =>
    cases origin with
    | waker =>
      cases hpc
      exact .inr ⟨rfl, .inl (by simp [Shared.push])⟩
    | _ => exact hpc.elim
  | _ => exact hpc.elim

variable {pc pc' : WorkerPc M F}

/-- A worker on the way to a poll polls the future, unless it finds the runner inactive. -/
theorem workerStep_aboutToPoll (h : workerStep owner d m o pc = some (m', pc'))
    (hpc : pc.AboutToPoll) : pc'.AboutToPoll ∨
      (m.isActive = false ∧ ∃ origin, pc = .loadActive origin) ∨ ∃ site, pc = .pollSlot site := by
  cases workerStep_move h with
  | active | pollUnmark => exact .inl trivial
  | inactive origin hinactive => exact .inr (.inl ⟨hinactive, origin, rfl⟩)
  | pollEmpty | pollPending | pollFinished => exact .inr (.inr ⟨_, rfl⟩)
  | pollEmptyLoop => exact .inr (.inr ⟨_, rfl⟩)
  | _ => exact hpc.elim

/-- What a worker that polls no future does to the slot. -/
theorem workerStep_slotAlone (h : workerStep owner d m o pc = some (m', pc'))
    (hpoll : ∀ site, pc = .pollSlot site → m.slot = none) : m'.slot = m.slot ∨
      (pc = .clearSlot ∧ m'.slot = none) ∨ ∃ f, pc = .armSlot f ∧ m'.slot = some f := by
  cases workerStep_move h with
  | pollPending site _ hslot | pollFinished site _ hslot =>
    rw [hpoll site rfl] at hslot
    cases hslot
  | armSlot f => exact .inr (.inr ⟨f, rfl, rfl⟩)
  | clearSlot => exact .inr (.inl ⟨rfl, rfl⟩)
  | _ => exact .inl rfl

/-- The future that is armed is the one that `on_receive` returned. -/
theorem workerStep_armSlot {f : F} (h : workerStep owner d m o pc = some (m', .armSlot f)) :
    pc = .receiving ∧ o = .pending f := by
  generalize hpc' : WorkerPc.armSlot f = pc' at h
  cases workerStep_move h with
  | receivePending future ho =>
    cases hpc'
    exact ⟨rfl, ho⟩
  | dropEntry site | pushEntry site => cases site <;> cases hpc'
  | _ => cases hpc'

end

namespace Awaiting

/-! ## The invariant -/

structure Inv (s : Awaiting D U M) : Prop where
  running : ∀ d, s.runner.mem.stopped d = false
  calling : ∀ d, s.runner.callers (.inl d) = .idle ∨ (s.runner.callers (.inl d)).WakingOn d
  creating : ∀ d f, s.runner.workers d = .armSlot f → f = []
  polls : ∀ p, s.polling = some p → (∃ site, s.runner.workers p.dispatcher = .pollSlot site) ∧
    s.runner.mem.slot.isSome = true
  pending : ∀ p, s.polling = some p → ∀ a ∈ p.pending,
    a.isScheduled = true ∧ a.dispatcher ≠ p.dispatcher
  scheduling : ∀ p t b, s.polling = some p → p.scheduling = some (t, b) → t ≠ p.dispatcher
  scheduled : ∀ f, s.polling = none → s.runner.mem.slot = some f → ∀ a ∈ f, a.isScheduled = true
  attended : ∀ d, s.Waits d → s.Attended d

section

variable {s s' : Awaiting D U M} {d : D}

omit [DecidableEq D] in
theorem Attended.congr (h : s.Attended d) (htasks : s.tasks d ≠ [] → s'.tasks d ≠ [])
    (hcallers : s'.runner.callers (.inl d) = s.runner.callers (.inl d))
    (hworkers : s'.runner.workers d = s.runner.workers d) : s'.Attended d := by
  cases h with
  | queued h => exact .queued (htasks h)
  | resumed h => exact .resumed (hcallers ▸ h)
  | picked h => exact .picked (hworkers ▸ h)

omit [DecidableEq D] in
theorem pushed_ne_nil {runner : State D (D ⊕ U) M (List (ActorAwaiter D))}
    (h : s.tasks d ≠ []) : s.pushed runner d ≠ [] :=
  List.append_ne_nil_of_left_ne_nil h _

omit [DecidableEq D] in
theorem pushed_of_lt {runner : State D (D ⊕ U) M (List (ActorAwaiter D))}
    (h : (s.runner.mem.queue d).length < (runner.mem.queue d).length) : s.pushed runner d ≠ [] := by
  refine List.append_ne_nil_of_right_ne_nil _ fun hnil => ?_
  have hlength := congrArg List.length hnil
  rw [List.length_replicate, List.length_nil] at hlength
  omega

omit [DecidableEq D] in
theorem Waits.of_slot (h : s'.Waits d) (hpolling : s'.polling = s.polling)
    (hslot : s'.runner.mem.slot = s.runner.mem.slot) : s.Waits d := by
  unfold Waits awaiters at h ⊢
  rwa [hpolling, hslot] at h

variable [DecidableEq U] {owner : D} {runner : State D (D ⊕ U) M (List (ActorAwaiter D))}

/-! ## The steps of the runner by itself -/

/-- A call of a thread that runs no continuation starts. -/
theorem Inv.begin (hinv : s.Inv) {t : D ⊕ U} {pc : CallerPc D M} (ht : t.isRight = true) :
    Inv { s with
      runner := s.runner.setCaller t pc, tasks := s.pushed (s.runner.setCaller t pc) } := by
  have hcallers (e : D) :
      (s.runner.setCaller t pc).callers (.inl e) = s.runner.callers (.inl e) := by
    refine Function.update_of_ne (fun he => ?_) ..
    rw [← he] at ht
    cases ht
  refine { hinv with
    calling := fun e => ?_
    attended := fun e hwaits => (hinv.attended e hwaits).congr pushed_ne_nil (hcallers e) rfl }
  dsimp only
  rw [hcallers e]
  exact hinv.calling e

theorem Inv.caller (hinv : s.Inv) {t : D ⊕ U} (hok : s.Heard (.runner (.caller t)))
    {mem : Shared D (D ⊕ U) M (List (ActorAwaiter D))} {pc : CallerPc D M}
    (h : callerStep owner t s.runner.mem (s.runner.callers t) = some (mem, pc))
    (hrunner : runner = { s.runner with mem, callers := Function.update s.runner.callers t pc }) :
    Inv { s with runner, tasks := s.pushed runner } := by
  subst hrunner
  obtain ⟨hslot, -, -, -, hstopped, -, -⟩ := callerStep_frame h
  have hother {e : D} (he : .inl e ≠ t) :
      Function.update s.runner.callers t pc (.inl e) = s.runner.callers (.inl e) :=
    Function.update_of_ne he ..
  -- what a continuation does
  have hself {e : D} (he : .inl e = t) (hwaking : (s.runner.callers (.inl e)).WakingOn e) :
      pc.WakingOn e ∨ pc = .idle ∧ (s.Waits e →
        s.tasks e ≠ [] ∨ (s.runner.mem.queue e).length < (mem.queue e).length) := by
    subst he
    refine (callerStep_wakingOn (hinv.running e) h hwaking).imp_right
      (And.imp_right fun hends hwaits => ?_)
    rcases hends with hpush | ⟨hinactive, dest, hpc⟩ | ⟨hmark, dest, hpc⟩
    · exact .inr hpush
    · simp only [Heard, hpc] at hok
      exact .inl (hok hinactive hwaits)
    · simp only [Heard, hpc] at hok
      exact .inl (hok hmark hwaits)
  refine { hinv with
    running := fun e => (congrFun hstopped e).trans (hinv.running e)
    calling := fun e => ?_
    polls := fun p hp => ⟨(hinv.polls p hp).1, by rw [hslot]; exact (hinv.polls p hp).2⟩
    scheduled := fun f hp hf => hinv.scheduled f hp (hslot.symm.trans hf)
    attended := fun e hwaits => ?_ }
  · dsimp only
    by_cases he : .inl e = t
    · rw [← he, Function.update_self]
      rcases hinv.calling e with hidle | hwaking
      · rw [← he, hidle] at h
        cases h
      · exact (hself he hwaking).symm.imp And.left id
    · rw [hother he]
      exact hinv.calling e
  · have hwaits' : s.Waits e := hwaits.of_slot rfl hslot
    have hatt := hinv.attended e hwaits'
    by_cases he : .inl e = t
    · cases hatt with
      | queued hne => exact .queued (pushed_ne_nil hne)
      | picked hpc => exact .picked hpc
      | resumed hwaking =>
        rcases hself he hwaking with hgoes | ⟨-, hends⟩
        · refine .resumed ?_
          dsimp only
          rw [← he, Function.update_self]
          exact hgoes
        · rcases hends hwaits' with hne | hlt
          · exact .queued (pushed_ne_nil hne)
          · exact .queued (pushed_of_lt hlt)
    · exact hatt.congr pushed_ne_nil (hother he) rfl

theorem Inv.worker (hinv : s.Inv) {d : D} {o : Outcome (List (ActorAwaiter D))}
    (hok : s.Heard (.runner (.worker d o))) (halone : s.goesAlone (.worker d o) = true)
    {mem : Shared D (D ⊕ U) M (List (ActorAwaiter D))} {pc : WorkerPc M (List (ActorAwaiter D))}
    (h : workerStep owner d s.runner.mem o (s.runner.workers d) = some (mem, pc))
    (hrunner : runner = { s.runner with mem, workers := Function.update s.runner.workers d pc }) :
    Inv { s with runner, tasks := s.pushed runner } := by
  subst hrunner
  have hpoll (site : PollSite) (hpc : s.runner.workers d = .pollSlot site) :
      s.polling = none ∧ s.runner.mem.slot = none := by
    simpa [goesAlone, hpc] using halone
  have hother {e : D} (he : e ≠ d) :
      Function.update s.runner.workers d pc e = s.runner.workers e := Function.update_of_ne he ..
  have hslot := workerStep_slotAlone h fun site hpc => (hpoll site hpc).2
  -- the slot changes only while no poll has its lock, and loses all awaiters then
  have hchange : mem.slot = s.runner.mem.slot ∨
      s.polling = none ∧ mem.slot.getD [] = [] := by
    rcases hslot with hslot | ⟨hpc, hslot⟩ | ⟨f, hpc, hslot⟩
    · exact .inl hslot
    · refine .inr ⟨?_, by rw [hslot]; rfl⟩
      simpa [goesAlone, hpc] using halone
    · refine .inr ⟨?_, by rw [hslot, hinv.creating d f hpc]; rfl⟩
      simpa [goesAlone, hpc] using halone
  refine { hinv with
    running := fun e => (congrFun (workerStep_stopped h) e).trans (hinv.running e)
    creating := fun e f hf => ?_
    polls := fun p hp => ?_
    scheduled := fun f hp hf a ha => ?_
    attended := fun e hwaits => ?_ }
  · dsimp only at hf
    by_cases he : e = d
    · rw [he, Function.update_self] at hf
      obtain ⟨hpc, ho⟩ := workerStep_armSlot (hf ▸ h)
      simpa [goesAlone, hpc, ho] using halone
    · rw [hother he] at hf
      exact hinv.creating e f hf
  · obtain ⟨⟨site, hsite⟩, hsome⟩ := hinv.polls p hp
    have hne : p.dispatcher ≠ d := by
      rintro rfl
      cases (hpoll site hsite).1.symm.trans hp
    refine ⟨⟨site, (hother hne).trans hsite⟩, ?_⟩
    rcases hchange with hsame | ⟨hnone, -⟩
    · dsimp only
      rw [hsame]
      exact hsome
    · cases hnone.symm.trans hp
  · rcases hchange with hsame | ⟨-, hnil⟩
    · exact hinv.scheduled f hp (hsame.symm.trans hf) a ha
    · dsimp only at hf
      rw [hf, Option.getD_some] at hnil
      rw [hnil] at ha
      cases ha
  · have hwaits' : s.Waits e := by
      rcases hchange with hsame | ⟨hnone, hnil⟩
      · exact hwaits.of_slot rfl hsame
      · simp [Waits, awaiters, hnone, hnil] at hwaits
    have hatt := hinv.attended e hwaits'
    by_cases he : e = d
    · subst he
      cases hatt with
      | queued hne => exact .queued (pushed_ne_nil hne)
      | resumed hwaking => exact .resumed hwaking
      | picked hpc =>
        rcases workerStep_aboutToPoll h hpc with hgoes | ⟨hinactive, origin, hload⟩ | ⟨site, hsite⟩
        · refine .picked ?_
          dsimp only
          rw [Function.update_self]
          exact hgoes
        · simp only [Heard, hload] at hok
          exact .queued (pushed_ne_nil (hok hinactive hwaits'))
        · obtain ⟨hnone, hempty⟩ := hpoll site hsite
          simp [Waits, awaiters, hnone, hempty] at hwaits'
    · exact hatt.congr pushed_ne_nil rfl (hother he)

theorem Inv.alone (hinv : s.Inv) {act : ActorRunner.Action D (D ⊕ U) M (List (ActorAwaiter D))}
    (hok : s.Heard (.runner act)) (halone : s.goesAlone act = true)
    (h : ActorRunner.step owner s.runner act = some runner) :
    Inv { s with runner, tasks := s.pushed runner } := by
  cases step_move h with
  | post | kill | wake => exact hinv.begin halone
  | caller hstep => exact hinv.caller hok hstep rfl
  | pick => cases halone
  | worker hstep => exact hinv.worker hok halone hstep rfl
  | stop => exact hok.elim

/-! ## The steps around the runner -/

theorem Inv.pick (hinv : s.Inv) {d : D} {rest : List (Task D)}
    (h : ActorRunner.step owner s.runner (.pick d) = some runner) :
    Inv { s with runner, tasks := Function.update s.tasks d rest } := by
  cases step_move h with
  | pick hidle hqueue =>
    have hother {e : D} {pc : WorkerPc M (List (ActorAwaiter D))} (he : e ≠ d) :
        Function.update s.runner.workers d pc e = s.runner.workers e := Function.update_of_ne he ..
    refine { hinv with
      creating := fun e f hf => ?_
      polls := fun p hp => ?_
      attended := fun e hwaits => ?_ }
    · dsimp only at hf
      by_cases he : e = d
      · rw [he, Function.update_self] at hf
        cases hf
      · rw [hother he] at hf
        exact hinv.creating e f hf
    · obtain ⟨⟨site, hsite⟩, hsome⟩ := hinv.polls p hp
      have hne : p.dispatcher ≠ d := by
        rintro rfl
        cases hidle.symm.trans hsite
      exact ⟨⟨site, (hother hne).trans hsite⟩, hsome⟩
    · by_cases he : e = d
      · refine .picked ?_
        dsimp only
        rw [he, Function.update_self]
        trivial
      · refine (hinv.attended e hwaits).congr (fun hne => ?_) rfl (hother he)
        dsimp only
        rwa [Function.update_of_ne he]

theorem Inv.resume (hinv : s.Inv) {d waker : D} {rest : List (Task D)}
    (h : ActorRunner.step owner s.runner (.wake (.inl d) (some d) waker) = some runner) :
    Inv { s with runner, tasks := Function.update s.tasks d rest } := by
  cases step_move h with
  | wake hidle hwaker =>
    have hother {e : D} {pc : CallerPc D M} (he : e ≠ d) :
        Function.update s.runner.callers (.inl d) pc (.inl e) = s.runner.callers (.inl e) :=
      Function.update_of_ne (fun heq => he (Sum.inl.inj heq)) ..
    refine { hinv with
      calling := fun e => ?_
      attended := fun e hwaits => ?_ }
    · dsimp only [State.setCaller]
      by_cases he : e = d
      · rw [he, Function.update_self]
        exact .inr rfl
      · rw [hother he]
        exact hinv.calling e
    · by_cases he : e = d
      · refine .resumed ?_
        dsimp only [State.setCaller]
        rw [he, Function.update_self]
        rfl
      · refine (hinv.attended e hwaits).congr (fun hne => ?_) (hother he) rfl
        dsimp only
        rwa [Function.update_of_ne he]

/-! ## The steps of a poll -/

omit [DecidableEq D] [DecidableEq U] in
/-- A poll of an awaiter leaves the runner alone. -/
theorem Inv.polled (hinv : s.Inv) {p p' : Polling D} {tasks : D → List (Task D)}
    (hp : s.polling = some p) (hdispatcher : p'.dispatcher = p.dispatcher)
    (hpending : ∀ a ∈ p'.pending, a ∈ p.pending ∨
      a.isScheduled = true ∧ a.dispatcher ≠ p.dispatcher)
    (hscheduling : ∀ t b, p'.scheduling = some (t, b) → t ≠ p.dispatcher)
    (htasks : ∀ e, s.tasks e ≠ [] → tasks e ≠ [])
    (hwaits : ∀ e, ⟨e, true⟩ ∈ p'.rest ++ p'.pending → s.Waits e ∨ tasks e ≠ []) :
    Inv { s with tasks, polling := some p' } := by
  refine { hinv with
    polls := fun q hq => ?_
    pending := fun q hq a ha => ?_
    scheduling := fun q t b hq ht => ?_
    scheduled := fun f hq => by cases hq
    attended := fun e he => ?_ }
  · cases hq
    rw [hdispatcher]
    exact hinv.polls p hp
  · cases hq
    rw [hdispatcher]
    exact (hpending a ha).elim (hinv.pending p hp a) id
  · cases hq
    rw [hdispatcher]
    exact hscheduling t b ht
  · rcases hwaits e he with hold | hne
    · exact (hinv.attended e hold).congr (htasks e) rfl rfl
    · exact .queued hne

omit [DecidableEq U] in
theorem Inv.pollStep (hinv : s.Inv) {p : Polling D} (hp : s.polling = some p)
    (h : s.pollStep p = some s') : s'.Inv := by
  have hawaiters : s.awaiters = p.rest ++ p.pending := by
    unfold awaiters
    rw [hp]
  have hsame (a : ActorAwaiter D) (ha : a ∈ p.pending) :
      a ∈ p.pending ∨ a.isScheduled = true ∧ a.dispatcher ≠ p.dispatcher := .inl ha
  unfold Awaiting.pollStep at h
  split at h
  · cases h
  · rename_i awaiter rest hscheduling hrest
    rw [hrest] at hawaiters
    have hwaits (e : D) (he : ⟨e, true⟩ ∈ rest ++ p.pending) : s.Waits e := by
      rw [Waits, hawaiters]
      exact List.mem_cons_of_mem _ he
    split at h
    · -- the awaiter is ready
      cases h
      exact hinv.polled hp rfl hsame (hinv.scheduling p · · hp) (fun _ => id) fun e he =>
        .inl (hwaits e he)
    · rename_i hne
      split at h <;> cases h
      · rename_i hscheduled
        refine hinv.polled hp rfl (fun a ha => ?_) (hinv.scheduling p · · hp) (fun _ => id)
          fun e he => .inl ?_
        · refine (List.mem_append.mp ha).imp_right fun ha => ?_
          rw [List.mem_singleton.mp ha]
          exact ⟨hscheduled, hne⟩
        · rw [Waits, hawaiters]
          dsimp only at he
          grind
      · refine hinv.polled hp rfl hsame (fun t b ht => ?_) (fun _ => id) fun e he =>
          .inl (hwaits e he)
        cases ht
        exact hne
  · rename_i target hscheduling
    split at h
    · rename_i hstopped
      cases (hinv.running target).symm.trans hstopped
    · cases h
      refine hinv.polled hp rfl hsame (fun t b ht => ?_) (fun _ => id) fun e he => .inl ?_
      · cases ht
        exact hinv.scheduling p target false hp hscheduling
      · rw [Waits, hawaiters]
        exact he
  · -- the continuation is pushed
    rename_i target hscheduling
    cases h
    have htarget := hinv.scheduling p target true hp hscheduling
    have hkept (e : D) (he : s.tasks e ≠ []) : Function.update s.tasks target
        (s.tasks target ++ [.continuation p.dispatcher]) e ≠ [] := by
      by_cases het : e = target
      · rw [het, Function.update_self]
        exact List.concat_ne_nil _ _
      · rwa [Function.update_of_ne het]
    refine hinv.polled hp rfl (fun a ha => ?_) (fun t b ht => by cases ht) hkept fun e he => ?_
    · refine (List.mem_append.mp ha).imp_right fun ha => ?_
      rw [List.mem_singleton.mp ha]
      exact ⟨rfl, htarget⟩
    · by_cases het : e = target
      · rw [het, Function.update_self]
        exact .inr (List.concat_ne_nil _ _)
      · left
        rw [Waits, hawaiters]
        dsimp only at he
        grind

omit [DecidableEq U] in
theorem Inv.beginPoll (hinv : s.Inv) {d : D} {site : PollSite} {future : List (ActorAwaiter D)}
    (hnone : s.polling = none) (hpc : s.runner.workers d = .pollSlot site)
    (hslot : s.runner.mem.slot = some future) :
    Inv { s with
      runner := { s.runner with
        mem := { s.runner.mem with wakers := Function.update s.runner.mem.wakers d true } }
      polling := some ⟨d, future, [], none⟩ } := by
  refine { hinv with
    polls := fun p hp => ?_
    pending := fun p hp a ha => ?_
    scheduling := fun p t b hp ht => ?_
    scheduled := fun f hp => by cases hp
    attended := fun e he => ?_ }
  · cases hp
    exact ⟨⟨site, hpc⟩, by rw [hslot]; rfl⟩
  · cases hp
    cases ha
  · cases hp
    cases ht
  · have hwaits : s.Waits e := by
      simpa [Waits, awaiters, hnone, hslot] using he
    exact (hinv.attended e hwaits).congr id rfl rfl

/-- The future answers. -/
theorem Inv.endPoll (hinv : s.Inv) {p : Polling D} (hp : s.polling = some p)
    {o : Outcome (List (ActorAwaiter D))} (ho : ∀ f, o = .pending f → f = p.pending)
    (h : ActorRunner.step owner s.runner (.worker p.dispatcher o) = some runner) :
    Inv { s with runner, polling := none } := by
  obtain ⟨⟨site, hsite⟩, hsome⟩ := hinv.polls p hp
  obtain ⟨future, hslot⟩ := Option.isSome_iff_exists.mp hsome
  have hwaits {e : D} (he : ⟨e, true⟩ ∈ p.pending) : s.Waits e ∧ e ≠ p.dispatcher := by
    refine ⟨?_, (hinv.pending p hp _ he).2⟩
    unfold Waits awaiters
    rw [hp]
    exact List.mem_append_right _ he
  cases step_move h with
  | @worker _ _ mem pc hstep =>
    have hother {e : D} (he : e ≠ p.dispatcher) :
        Function.update s.runner.workers p.dispatcher pc e = s.runner.workers e :=
      Function.update_of_ne he ..
    have hstopped := workerStep_stopped hstep
    rw [hsite] at hstep
    -- what is left in the slot
    have hleft : (∀ f, mem.slot = some f → f = p.pending) ∧ ∀ f, pc ≠ .armSlot f := by
      simp only [workerStep, pollSlotStep, hslot] at hstep
      cases o with
      | pending future =>
        cases hstep
        refine ⟨fun f hf => ?_, by simp⟩
        cases hf
        exact ho future rfl
      | done | panicked =>
        cases hstep
        exact ⟨fun f hf => (by cases hf), by simp⟩
    refine { hinv with
      running := fun e => (congrFun hstopped e).trans (hinv.running e)
      creating := fun e f hf => ?_
      polls := fun q hq => by cases hq
      pending := fun q hq => by cases hq
      scheduling := fun q t b hq => by cases hq
      scheduled := fun f _ hf a ha => ?_
      attended := fun e he => ?_ }
    · dsimp only at hf
      by_cases hed : e = p.dispatcher
      · rw [hed, Function.update_self] at hf
        exact absurd hf (hleft.2 f)
      · rw [hother hed] at hf
        exact hinv.creating e f hf
    · rw [hleft.1 f hf] at ha
      exact (hinv.pending p hp a ha).1
    · unfold Waits awaiters at he
      dsimp only at he
      cases hf : mem.slot with
      | none =>
        rw [hf] at he
        cases he
      | some f =>
        rw [hf, Option.getD_some, hleft.1 f hf] at he
        obtain ⟨hold, hne⟩ := hwaits he
        exact (hinv.attended e hold).congr id rfl (hother hne)

theorem Inv.step (hinv : s.Inv) {act : Action D U M} (hok : s.Heard act)
    (h : s.step owner act = some s') : s'.Inv := by
  cases act with
  | runner act =>
    simp only [Awaiting.step] at h
    split at h
    · obtain ⟨runner, hstep, rfl⟩ := Option.map_eq_some_iff.mp h
      exact hinv.alone hok ‹_› hstep
    · cases h
  | pick d =>
    simp only [Awaiting.step] at h
    split at h
    · obtain ⟨runner, hstep, rfl⟩ := Option.map_eq_some_iff.mp h
      exact hinv.pick hstep
    · cases h
  | resume d =>
    simp only [Awaiting.step] at h
    split at h
    · obtain ⟨runner, hstep, rfl⟩ := Option.map_eq_some_iff.mp h
      exact hinv.resume hstep
    · cases h
  | beginPoll d =>
    simp only [Awaiting.step] at h
    split at h <;> cases h
    exact hinv.beginPoll ‹_› ‹_› ‹_›
  | poll =>
    obtain ⟨p, hp, hstep⟩ := Option.bind_eq_some_iff.mp h
    exact hinv.pollStep hp hstep
  | join target =>
    simp only [Awaiting.step] at h
    split at h <;> cases h
    rename_i d rest pending hp
    refine hinv.polled hp rfl (fun _ => .inl) (fun t b ht => by cases ht) (fun _ => id)
      fun e he => .inl ?_
    unfold Waits awaiters
    rw [hp]
    dsimp only at he ⊢
    grind
  | forget awaiter =>
    simp only [Awaiting.step] at h
    split at h <;> cases h
    rename_i d rest pending hp
    have hwaits (e : D) (he : ⟨e, true⟩ ∈ rest ++ pending) : s.Waits e := by
      unfold Waits awaiters
      rw [hp]
      exact he
    split
    · refine hinv.polled hp rfl (fun _ => .inl) (fun t b ht => by cases ht) (fun _ => id)
        fun e he => .inl (hwaits e ?_)
      exact (List.mem_append.mp he).elim (List.mem_append_left _ <| List.mem_of_mem_erase ·)
        (List.mem_append_right _)
    · refine hinv.polled hp rfl (fun a ha => .inl (List.mem_of_mem_erase ha))
        (fun t b ht => by cases ht) (fun _ => id) fun e he => .inl (hwaits e ?_)
      exact (List.mem_append.mp he).elim (List.mem_append_left _)
        (List.mem_append_right _ <| List.mem_of_mem_erase ·)
  | endPoll outcome =>
    simp only [Awaiting.step] at h
    split at h
    · rename_i d pending _ hp
      obtain ⟨runner, hstep, rfl⟩ := Option.map_eq_some_iff.mp h
      refine hinv.endPoll hp (fun f hf => ?_) hstep
      cases hf
      rfl
    · rename_i d rest pending hp
      obtain ⟨runner, hstep, rfl⟩ := Option.map_eq_some_iff.mp h
      exact hinv.endPoll hp (fun f hf => by cases hf) hstep
    · rename_i d rest pending hp
      obtain ⟨runner, hstep, rfl⟩ := Option.map_eq_some_iff.mp h
      exact hinv.endPoll hp (fun f hf => by cases hf) hstep
    · cases h

theorem inv_of_reach {capacity : Nat} (h : Reach (awaiting U M owner capacity) Heard s) :
    s.Inv := by
  refine h.inv Inv ?_ fun hinv hok hs => hinv.step hok hs
  rintro s ⟨⟨q, -, hrunner⟩, hs⟩
  rw [hs, hrunner]
  exact
    { running := fun _ => rfl
      calling := fun _ => .inl rfl
      creating := fun _ _ hf => by cases hf
      polls := fun _ hp => by cases hp
      pending := fun _ hp => by cases hp
      scheduling := fun _ _ _ hp => by cases hp
      scheduled := fun _ _ hf => by cases hf
      attended := fun _ he => by cases he }

end

/-! ## A waiting receive is attended -/

/-- All queues are empty, and no dispatcher runs anything. -/
structure Drained (s : Awaiting D U M) : Prop where
  tasks : ∀ d, s.tasks d = []
  workers : ∀ d, s.runner.workers d = .idle
  callers : ∀ d, s.runner.callers (.inl d) = .idle

/-- Every awaiter that answered `Pending` is attended or in a poll, and a receive that waits on
awaiters only is not left with all queues empty. -/
def NeverStranded (s : Awaiting D U M) : Prop :=
  (∀ future, s.runner.mem.slot = some future → ∀ awaiter ∈ future,
    s.polling.isSome = true ∨ s.Attended awaiter.dispatcher) ∧
  (s.Drained → ∀ future, s.runner.mem.slot = some future → future = [])

omit [DecidableEq D] in
theorem Drained.not_attended {s : Awaiting D U M} (h : s.Drained) (d : D) : ¬s.Attended d := by
  rintro (hq | hc | hw)
  · exact hq (h.tasks d)
  · rw [h.callers d] at hc
    exact hc
  · rw [h.workers d] at hw
    exact hw

/-- **`ActorAwait::join` does not strand its actor** as long as every continuation that finds the
runner inactive or marked leaves something in the queue of its dispatcher, and so does every
dispatcher that picks the runner and finds it inactive, while the future waits on an awaiter for
that dispatcher. -/
theorem attended_of_heard [DecidableEq U] {owner : D} {capacity : Nat} {s : Awaiting D U M}
    (h : Reach (awaiting U M owner capacity) Heard s) : s.NeverStranded := by
  have hinv := inv_of_reach h
  have hattended (future : List (ActorAwaiter D)) (hslot : s.runner.mem.slot = some future)
      (awaiter : ActorAwaiter D) (ha : awaiter ∈ future) :
      s.polling.isSome = true ∨ s.Attended awaiter.dispatcher := by
    cases hp : s.polling with
    | some p => exact .inl rfl
    | none =>
      refine .inr (hinv.attended _ ?_)
      have hscheduled := hinv.scheduled future hp hslot awaiter ha
      unfold Waits awaiters
      rw [hp, hslot, ← hscheduled]
      exact ha
  refine ⟨hattended, fun hdrained future hslot => ?_⟩
  refine List.eq_nil_iff_forall_not_mem.mpr fun awaiter ha => ?_
  rcases hattended future hslot awaiter ha with hp | hatt
  · obtain ⟨p, hp⟩ := Option.isSome_iff_exists.mp hp
    obtain ⟨⟨site, hsite⟩, -⟩ := hinv.polls p hp
    cases (hdrained.workers _).symm.trans hsite
  · exact hdrained.not_attended _ hatt

/-! ## Runs -/

instance (s : Awaiting D U M) (d : D) : Decidable (s.Spared d) :=
  inferInstanceAs (Decidable (_ ∈ _ → s.tasks d ≠ []))

instance (s : Awaiting D U M) : DecidablePred s.Heard := fun act => by
  unfold Heard
  split
  · split <;> infer_instance
  · split <;> infer_instance
  · exact .isFalse id
  · exact .isTrue trivial

instance (pc : WorkerPc M F) : Decidable (pc = .idle) :=
  decidable_of_iff _ pc.isIdle_iff

instance (pc : CallerPc D M) : Decidable (pc = .idle) :=
  decidable_of_iff _ pc.isIdle_iff

/-- A receive on dispatcher `false` awaits dispatcher `true`: its first poll pushes the
continuation. -/
def joined : List (Action Bool Unit Bool) :=
  .runner (.post (.inr ()) true) :: List.replicate 11 (.runner (.caller (.inr ()))) ++
    .pick false :: List.replicate 10 (.runner (.worker false .done)) ++
    List.replicate 5 (.runner (.worker false (.pending []))) ++
    [.beginPoll false, .join true, .poll, .poll, .poll, .endPoll (.pending ())]

def twoDispatchers : Awaiting Bool Unit Bool :=
  ⟨initial Bool (Bool ⊕ Unit) (List (ActorAwaiter Bool))
      ((MpscBoundedQueue.new Bool mailSlotSize 2).get rfl), fun _ => [], none⟩

theorem twoDispatchers_init : (awaiting Unit Bool false 2).Init twoDispatchers :=
  ⟨⟨_, rfl, rfl⟩, rfl⟩

/-- The continuation runs on its dispatcher and pushes the runner there. -/
def resumed : Awaiting Bool Unit Bool :=
  ((awaiting Unit Bool false 2).run twoDispatchers
    (joined ++ .resume true :: List.replicate 4 (.runner (.caller (.inl true))))).get
      (by decide +kernel)

theorem attended_of_heard_resumed :
    resumed.runner.mem.slot = some [⟨true, true⟩] ∧ resumed.tasks true = [.runner] ∧
      resumed.tasks false = [] ∧ resumed.NeverStranded :=
  ⟨by decide +kernel, by decide +kernel, by decide +kernel,
    attended_of_heard (.get twoDispatchers_init (by decide +kernel) _)⟩

/-- A thread wakes the receive before the continuation runs, which finds the runner marked. The
runner is polled on its owner once more, and nothing is left in any queue. -/
def coalescedWake : Awaiting Bool Unit Bool :=
  ((awaiting Unit Bool false 2).run twoDispatchers
    (joined ++ .runner (.wake (.inr ()) none false) ::
      List.replicate 4 (.runner (.caller (.inr ()))) ++
      .resume true :: List.replicate 2 (.runner (.caller (.inl true))) ++
      .pick false :: List.replicate 2 (.runner (.worker false .done)) ++
      [.beginPoll false, .poll, .endPoll (.pending ())])).get (by decide +kernel)

theorem stranded_coalescedWake :
    Reach (awaiting Unit Bool (false : Bool) 2) Machine.free coalescedWake ∧
      coalescedWake.runner.mem.slot = some [⟨true, true⟩] ∧ coalescedWake.polling = none ∧
      coalescedWake.Drained ∧ ¬coalescedWake.NeverStranded := by
  have hslot : coalescedWake.runner.mem.slot = some [⟨true, true⟩] := by decide +kernel
  have hdrained : coalescedWake.Drained :=
    ⟨by decide +kernel, by decide +kernel, by decide +kernel⟩
  refine ⟨.get_free twoDispatchers_init _, hslot, by decide +kernel, hdrained, fun h => ?_⟩
  cases h.2 hdrained _ hslot

end Awaiting

end DignusActor.ActorRunner
