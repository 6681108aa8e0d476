import DignusActor.Runner.ActorRunner

/-! # What one step of a runner can do

`Move` lists the kinds of steps, `WorkerMove` the steps of `execute` and `CallerMove` those of a
caller. The inversions `step_move`, `workerStep_move` and `callerStep_move` say once what a step can
do, so that no invariant proof unfolds a step function. The mailbox operations change only the
mailbox (`tryDequeue_eq`, `tryPeek_eq`, `tryEnqueue_eq`). -/

namespace DignusActor.ActorRunner

variable {D T M F : Type} [DecidableEq D] [DecidableEq T]

/-- The kinds of steps of a runner. -/
inductive Move (owner : D) (s : State D T M F) : Action D T M F → State D T M F → Prop
  | post {t : T} (mail : M) : s.callers t = .idle →
    Move owner s (.post t mail) (s.setCaller t (.postLifecycle mail))
  | kill {t : T} : s.callers t = .idle → Move owner s (.kill t) (s.setCaller t .killLifecycle)
  | wake {t : T} {current : Option D} {waker : D} : s.callers t = .idle → s.mem.wakers waker →
    Move owner s (.wake t current waker) (s.setCaller t (.wakeActive (current.getD waker)))
  | caller {t : T} {mem : Shared D T M F} {pc : CallerPc D M} :
    callerStep owner t s.mem (s.callers t) = some (mem, pc) →
    Move owner s (.caller t) { s with mem, callers := Function.update s.callers t pc }
  | pick {d : D} {origin : Origin} {rest : List Origin} : s.workers d = .idle →
    s.mem.queue d = origin :: rest →
    Move owner s (.pick d) { s with
      mem := { s.mem with queue := Function.update s.mem.queue d rest }
      workers := Function.update s.workers d (.loadActive origin) }
  | worker {d : D} {outcome : Outcome F} {mem : Shared D T M F} {pc : WorkerPc M F} :
    workerStep owner d s.mem outcome (s.workers d) = some (mem, pc) →
    Move owner s (.worker d outcome) { s with mem, workers := Function.update s.workers d pc }
  | stop (d : D) : Move owner s (.stop d)
    { s with mem := { s.mem with stopped := Function.update s.mem.stopped d true } }

omit [DecidableEq D] in
theorem State.call_eq_some {s s' : State D T M F} {t : T} {pc : CallerPc D M}
    (h : s.call t pc = some s') : s.callers t = .idle ∧ s' = s.setCaller t pc := by
  unfold State.call at h
  split at h
  · rename_i hpc
    cases h
    exact ⟨hpc, rfl⟩
  · cases h

theorem step_move {owner : D} {s s' : State D T M F} {a : Action D T M F}
    (h : step owner s a = some s') : Move owner s a s' := by
  cases a with
  | post t mail =>
    obtain ⟨hpc, rfl⟩ := State.call_eq_some h
    exact .post mail hpc
  | kill t =>
    obtain ⟨hpc, rfl⟩ := State.call_eq_some h
    exact .kill hpc
  | wake t current waker =>
    simp only [step] at h
    split at h
    · rename_i hw
      obtain ⟨hpc, rfl⟩ := State.call_eq_some h
      exact .wake hpc hw
    · cases h
  | caller t =>
    obtain ⟨⟨mem, pc⟩, hs, rfl⟩ := Option.map_eq_some_iff.mp h
    exact .caller hs
  | pick d =>
    simp only [step] at h
    split at h
    · rename_i hpc hq
      cases h
      exact .pick hpc hq
    · cases h
  | worker d outcome =>
    obtain ⟨⟨mem, pc⟩, hs, rfl⟩ := Option.map_eq_some_iff.mp h
    exact .worker hs
  | stop d =>
    cases h
    exact .stop d

/-- The dispatcher whose thread takes the step. -/
def Action.dispatcher : Action D T M F → Option D
  | .pick d | .worker d _ => some d
  | _ => none

theorem step_workers_of_ne {owner d : D} {s s' : State D T M F} {a : Action D T M F}
    (h : step owner s a = some s') (hd : a.dispatcher ≠ some d) : s'.workers d = s.workers d := by
  cases step_move h with
  | pick | worker => exact Function.update_of_ne (fun heq => hd (congrArg some heq.symm)) ..
  | _ => rfl

/-- The caller that takes the step. -/
def Action.calling : Action D T M F → Option T
  | .post t _ | .kill t | .wake t _ _ | .caller t => some t
  | _ => none

theorem step_callers_of_ne {owner : D} {t : T} {s s' : State D T M F} {a : Action D T M F}
    (h : step owner s a = some s') (ht : a.calling ≠ some t) : s'.callers t = s.callers t := by
  cases step_move h with
  | post | kill | wake | caller =>
    exact Function.update_of_ne (fun heq => ht (congrArg some heq.symm)) ..
  | _ => rfl

section
variable {m m' : Shared D T M F}

theorem tryDequeue_eq {d : D} {r : Option (Option M)} (h : m.tryDequeue d = some (m', r)) :
    ∃ a mailbox, (a = .consumer d ∨ a = .dequeue d) ∧
      MpscBoundedQueue.step m.mailbox a = some mailbox ∧ m' = { m with mailbox } ∧
      (r = none → ∀ item, mailbox.consumers d ≠ .returned item) ∧
      ∀ item, r = some item → mailbox.consumers d = .returned item := by
  obtain ⟨mailbox, hs, he⟩ := Option.map_eq_some_iff.mp h
  cases he
  refine ⟨_, mailbox, ?_, hs, rfl, fun hr item hi => ?_, fun item hr => ?_⟩
  · split
    · exact .inl rfl
    · exact .inr rfl
  · rw [hi] at hr
    cases hr
  · split at hr
    · rename_i hc
      rw [hc, Option.some.inj hr]
    · cases hr

theorem tryPeek_eq {d : D} {r : Option Bool} (h : m.tryPeek d = some (m', r)) :
    ∃ a mailbox, (a = .consumer d ∨ a = .peek d) ∧
      MpscBoundedQueue.step m.mailbox a = some mailbox ∧ m' = { m with mailbox } ∧
      ∀ b, r = some b → mailbox.consumers d = .peeked b := by
  obtain ⟨mailbox, hs, he⟩ := Option.map_eq_some_iff.mp h
  cases he
  refine ⟨_, mailbox, ?_, hs, rfl, fun b hr => ?_⟩
  · split
    · exact .inl rfl
    · exact .inr rfl
  · split at hr
    · rename_i hc
      rw [hc, Option.some.inj hr]
    · cases hr

theorem tryEnqueue_eq {t : T} {mail : M} {r : Option Bool}
    (h : m.tryEnqueue t mail = some (m', r)) :
    ∃ a mailbox, (a = .producer t ∨ a = .enqueue t mail) ∧
      MpscBoundedQueue.step m.mailbox a = some mailbox ∧ m' = { m with mailbox } ∧
      (r = none → ∀ b, mailbox.producers t ≠ .returned b) ∧
      ∀ b, r = some b → mailbox.producers t = .returned b := by
  obtain ⟨mailbox, hs, he⟩ := Option.map_eq_some_iff.mp h
  cases he
  refine ⟨_, mailbox, ?_, hs, rfl, fun hr b hb => ?_, fun b hr => ?_⟩
  · split
    · exact .inl rfl
    · exact .inr rfl
  · rw [hb] at hr
    cases hr
  · split at hr
    · rename_i hc
      rw [hc, Option.some.inj hr]
    · cases hr

end

/-! ## The steps of `execute` -/

/-- The steps of a worker, each with what it found in memory. -/
inductive WorkerMove (owner d : D) (m : Shared D T M F) (o : Outcome F) :
    WorkerPc M F → Shared D T M F → WorkerPc M F → Prop
  | active (origin) : m.isActive = true →
    WorkerMove owner d m o (.loadActive origin) m (.pollUnmark (.pending origin))
  | inactive (origin) : m.isActive = false →
    WorkerMove owner d m o (.loadActive origin) m .loadLifecycle
  | pollUnmark (site) :
    WorkerMove owner d m o (.pollUnmark site) { m with isPollScheduled := false } (.pollSlot site)
  | pollEmpty (origin) : m.slot = none →
    WorkerMove owner d m o (.pollSlot (.pending origin)) { m with isActive := false } .loadLifecycle
  | pollEmptyLoop : m.slot = none →
    WorkerMove owner d m o (.pollSlot .mailbox) { m with isActive := false } .dequeue
  | pollPending (site) (future) : m.slot.isSome = true →
    WorkerMove owner d m o (.pollSlot site)
      { m with wakers := Function.update m.wakers d true, slot := some future } .idle
  | pollFinished (site) (ready) : m.slot.isSome = true →
    WorkerMove owner d m o (.pollSlot site)
      { m with wakers := Function.update m.wakers d true, slot := none, finished := m.finished + 1 }
      (.pollDeactivate site ready)
  | pollDeactivate (site) (ready) :
    WorkerMove owner d m o (.pollDeactivate site ready) { m with isActive := false }
      (.pollReset site ready)
  | pollReady (site) :
    WorkerMove owner d m o (.pollReset site true) { m with isPollScheduled := false }
      (.schedule (.completion site.part) false)
  | pollFailed (site) :
    WorkerMove owner d m o (.pollReset site false) { m with isPollScheduled := false }
      (.killLifecycle site.part)
  | dropEntry (site) : m.stopped owner = true →
    WorkerMove owner d m o (.schedule site false) m site.next
  | checkEntry (site) : m.stopped owner = false →
    WorkerMove owner d m o (.schedule site false) m (.schedule site true)
  | pushEntry (site) :
    WorkerMove owner d m o (.schedule site true) (m.push owner site.origin) site.next
  | killRunning (part) : m.lifecycle = .running →
    WorkerMove owner d m o (.killLifecycle part)
      { m with killCalls := m.killCalls + 1, lifecycle := .killing } (.killScheduled part)
  | killAgain (part) : m.lifecycle ≠ .running →
    WorkerMove owner d m o (.killLifecycle part) { m with killCalls := m.killCalls + 1 }
      (.publish part)
  | killSeen (part) : m.isScheduled = true →
    WorkerMove owner d m o (.killScheduled part) m (.publish part)
  | killPush (part) : m.isScheduled = false →
    WorkerMove owner d m o (.killScheduled part) { m with isScheduled := true }
      (.schedule (.kill part) false)
  | publishPending : o = .done →
    WorkerMove owner d m o (.publish .pending) m (.schedule .failedPoll false)
  | publishMailbox : o = .done → WorkerMove owner d m o (.publish .mailbox) m .finalLoad
  | publishPanic (part) : o = .panicked → WorkerMove owner d m o (.publish part) m .dead
  | lifecycleKilling : m.lifecycle = .killing →
    WorkerMove owner d m o .loadLifecycle m .finalizeSwap
  | lifecycleStopped : m.lifecycle = .stopped → WorkerMove owner d m o .loadLifecycle m .idle
  | lifecycleRunning : m.lifecycle = .running → WorkerMove owner d m o .loadLifecycle m .dequeue
  | dequeue {a mailbox} : a = .consumer d ∨ a = .dequeue d →
    MpscBoundedQueue.step m.mailbox a = some mailbox →
    (∀ item, mailbox.consumers d ≠ .returned item) →
    WorkerMove owner d m o .dequeue { m with mailbox } .dequeue
  | dequeueNone {a mailbox} : a = .consumer d ∨ a = .dequeue d →
    MpscBoundedQueue.step m.mailbox a = some mailbox → mailbox.consumers d = .returned none →
    WorkerMove owner d m o .dequeue { m with mailbox } .finalLoad
  | dequeueSome {a mailbox} (mail) : a = .consumer d ∨ a = .dequeue d →
    MpscBoundedQueue.step m.mailbox a = some mailbox → mailbox.consumers d = .returned (some mail) →
    WorkerMove owner d m o .dequeue { m with mailbox } (.checkLifecycle mail)
  | checkRunning (mail) : m.lifecycle = .running →
    WorkerMove owner d m o (.checkLifecycle mail) m (.callReceive mail)
  | checkKilled (mail) : m.lifecycle ≠ .running →
    WorkerMove owner d m o (.checkLifecycle mail) m .finalLoad
  | callReceive (mail) :
    WorkerMove owner d m o (.callReceive mail) { m with delivered := m.delivered ++ [mail] }
      .receiving
  | receiveDone : o = .done → WorkerMove owner d m o .receiving m .dequeue
  | receivePending (future) : o = .pending future →
    WorkerMove owner d m o .receiving m (.armSlot future)
  | receivePanic : o = .panicked → WorkerMove owner d m o .receiving m (.killLifecycle .mailbox)
  | armSlot (future) :
    WorkerMove owner d m o (.armSlot future) { m with slot := some future, armed := m.armed + 1 }
      .armActivate
  | armActivate : WorkerMove owner d m o .armActivate { m with isActive := true } .armUnmark
  | armUnmark :
    WorkerMove owner d m o .armUnmark { m with isPollScheduled := false } (.pollUnmark .mailbox)
  | finalKilling : m.lifecycle = .killing → WorkerMove owner d m o .finalLoad m .finalizeSwap
  | finalLoad : m.lifecycle ≠ .killing → WorkerMove owner d m o .finalLoad m .clearScheduled
  | clearScheduled : WorkerMove owner d m o .clearScheduled { m with isScheduled := false } .peek
  | peek {a mailbox} : a = .consumer d ∨ a = .peek d →
    MpscBoundedQueue.step m.mailbox a = some mailbox →
    WorkerMove owner d m o .peek { m with mailbox } .peek
  | peekTrue {a mailbox} : a = .consumer d ∨ a = .peek d →
    MpscBoundedQueue.step m.mailbox a = some mailbox → mailbox.consumers d = .peeked true →
    WorkerMove owner d m o .peek { m with mailbox } .reschedule
  | peekFalse {a mailbox} : a = .consumer d ∨ a = .peek d →
    MpscBoundedQueue.step m.mailbox a = some mailbox → mailbox.consumers d = .peeked false →
    WorkerMove owner d m o .peek { m with mailbox } .idle
  | rescheduleSeen : m.isScheduled = true → WorkerMove owner d m o .reschedule m .idle
  | reschedule : m.isScheduled = false →
    WorkerMove owner d m o .reschedule { m with isScheduled := true }
      (.schedule .endOfExecute false)
  | finalizeAgain : m.lifecycle = .stopped → WorkerMove owner d m o .finalizeSwap m .idle
  | finalizeSwap : m.lifecycle ≠ .stopped →
    WorkerMove owner d m o .finalizeSwap { m with lifecycle := .stopped } .drain
  | drain {a mailbox} : a = .consumer d ∨ a = .dequeue d →
    MpscBoundedQueue.step m.mailbox a = some mailbox →
    WorkerMove owner d m o .drain { m with mailbox } .drain
  | drainNone {a mailbox} : a = .consumer d ∨ a = .dequeue d →
    MpscBoundedQueue.step m.mailbox a = some mailbox → mailbox.consumers d = .returned none →
    WorkerMove owner d m o .drain { m with mailbox } .clearSlot
  | clearSlot : WorkerMove owner d m o .clearSlot { m with slot := none } .clearActive
  | clearActive : WorkerMove owner d m o .clearActive { m with isActive := false } .clearUnmark
  | clearUnmark :
    WorkerMove owner d m o .clearUnmark { m with isPollScheduled := false } .callOnKill
  | callOnKill :
    WorkerMove owner d m o .callOnKill { m with onKillStarts := m.onKillStarts + 1 } .onKill
  | onKill : o = .done →
    WorkerMove owner d m o .onKill { m with onKillReturns := m.onKillReturns + 1 } .onFinalize
  | onKillPanic : o = .panicked → WorkerMove owner d m o .onKill m .dead
  | onFinalize : o = .done → WorkerMove owner d m o .onFinalize m .idle
  | onFinalizePanic : o = .panicked → WorkerMove owner d m o .onFinalize m .dead

section
variable {owner d : D} {o : Outcome F} {m m' : Shared D T M F} {pc pc' : WorkerPc M F}

theorem workerStep_pollSlot {site : PollSite}
    (h : workerStep owner d m o (.pollSlot site) = some (m', pc')) :
    WorkerMove owner d m o (.pollSlot site) m' pc' := by
  simp only [workerStep, pollSlotStep] at h
  cases hslot : m.slot with
  | none =>
    simp only [hslot] at h
    cases site <;> cases h
    · simpa only [hslot] using WorkerMove.pollEmpty _ hslot
    · simpa only [hslot] using WorkerMove.pollEmptyLoop hslot
  | some f =>
    have hsome : m.slot.isSome = true := by rw [hslot]; rfl
    simp only [hslot] at h
    cases o <;> cases h
    · exact .pollFinished site true hsome
    · exact .pollPending site _ hsome
    · exact .pollFinished site false hsome

theorem workerStep_mailbox (hpc : pc = .dequeue ∨ pc = .peek ∨ pc = .drain)
    (h : workerStep owner d m o pc = some (m', pc')) : WorkerMove owner d m o pc m' pc' := by
  rcases hpc with rfl | rfl | rfl <;> obtain ⟨⟨m₁, r⟩, hm, he⟩ := Option.map_eq_some_iff.mp h
  · obtain ⟨a, mailbox, ha, hstep, rfl, hnone, hr⟩ := tryDequeue_eq hm
    rcases r with _ | _ | mail <;> cases he
    · exact .dequeue ha hstep (hnone rfl)
    · exact .dequeueNone ha hstep (hr _ rfl)
    · exact .dequeueSome mail ha hstep (hr _ rfl)
  · obtain ⟨a, mailbox, ha, hstep, rfl, hr⟩ := tryPeek_eq hm
    rcases r with _ | _ | _ <;> cases he
    · exact .peek ha hstep
    · exact .peekFalse ha hstep (hr _ rfl)
    · exact .peekTrue ha hstep (hr _ rfl)
  · obtain ⟨a, mailbox, ha, hstep, rfl, _, hr⟩ := tryDequeue_eq hm
    rcases r with _ | _ | mail <;> cases he
    · exact .drain ha hstep
    · exact .drainNone ha hstep (hr _ rfl)
    · exact .drain ha hstep

theorem workerStep_move (h : workerStep owner d m o pc = some (m', pc')) :
    WorkerMove owner d m o pc m' pc' := by
  cases pc with
  | idle | dead => cases h
  | dequeue | peek | drain => exact workerStep_mailbox (by simp) h
  | pollSlot site => exact workerStep_pollSlot h
  | loadActive origin =>
    simp only [workerStep] at h
    split at h <;> cases h
    · exact .active origin (by assumption)
    · exact .inactive origin (Bool.eq_false_iff.mpr (by assumption))
  | pollReset site ready =>
    cases ready <;> cases h
    · exact .pollFailed site
    · exact .pollReady site
  | schedule site checked =>
    cases checked with
    | false =>
      simp only [workerStep] at h
      split at h <;> cases h
      · exact .dropEntry site (by assumption)
      · exact .checkEntry site (Bool.eq_false_iff.mpr (by assumption))
    | true =>
      cases h
      exact .pushEntry site
  | killLifecycle part =>
    simp only [workerStep] at h
    split at h <;> cases h
    · exact .killRunning part (by assumption)
    · exact .killAgain part (by assumption)
  | killScheduled part =>
    simp only [workerStep] at h
    split at h <;> cases h
    · exact .killSeen part (by assumption)
    · exact .killPush part (Bool.eq_false_iff.mpr (by assumption))
  | publish part =>
    cases o <;> cases part <;> cases h
    · exact .publishPending rfl
    · exact .publishMailbox rfl
    · exact .publishPanic _ rfl
    · exact .publishPanic _ rfl
  | loadLifecycle =>
    simp only [workerStep] at h
    split at h <;> cases h
    · exact .lifecycleKilling (by assumption)
    · exact .lifecycleStopped (by assumption)
    · exact .lifecycleRunning (by assumption)
  | checkLifecycle mail =>
    simp only [workerStep] at h
    split at h <;> cases h
    · exact .checkRunning mail (by assumption)
    · exact .checkKilled mail (by assumption)
  | receiving =>
    cases o <;> cases h
    · exact .receiveDone rfl
    · exact .receivePending _ rfl
    · exact .receivePanic rfl
  | finalLoad =>
    simp only [workerStep] at h
    split at h <;> cases h
    · exact .finalKilling (by assumption)
    · exact .finalLoad (by assumption)
  | reschedule =>
    simp only [workerStep] at h
    split at h <;> cases h
    · exact .rescheduleSeen (by assumption)
    · exact .reschedule (Bool.eq_false_iff.mpr (by assumption))
  | finalizeSwap =>
    simp only [workerStep] at h
    split at h <;> cases h
    · exact .finalizeAgain (by assumption)
    · exact .finalizeSwap (by assumption)
  | onKill =>
    cases o <;> cases h
    · exact .onKill rfl
    · exact .onKillPanic rfl
  | onFinalize =>
    cases o <;> cases h
    · exact .onFinalize rfl
    · exact .onFinalizePanic rfl
  | _ =>
    cases h
    constructor

end

/-! ## The steps of a caller -/

/-- The steps of a caller, each with what it found in memory. -/
inductive CallerMove (owner : D) (t : T) (m : Shared D T M F) :
    CallerPc D M → Shared D T M F → CallerPc D M → Prop
  | postRunning (mail) : m.lifecycle = .running →
    CallerMove owner t m (.postLifecycle mail) m (.postEnqueue mail)
  | postRejected (mail) : m.lifecycle ≠ .running →
    CallerMove owner t m (.postLifecycle mail) m .idle
  | enqueue {a mailbox} (mail) : a = .producer t ∨ a = .enqueue t mail →
    MpscBoundedQueue.step m.mailbox a = some mailbox →
    (∀ b, mailbox.producers t ≠ .returned b) →
    CallerMove owner t m (.postEnqueue mail) { m with mailbox } (.postEnqueue mail)
  | enqueueFull {a mailbox} (mail) : a = .producer t ∨ a = .enqueue t mail →
    MpscBoundedQueue.step m.mailbox a = some mailbox → mailbox.producers t = .returned false →
    CallerMove owner t m (.postEnqueue mail) { m with mailbox } .idle
  | enqueued {a mailbox} (mail) : a = .producer t ∨ a = .enqueue t mail →
    MpscBoundedQueue.step m.mailbox a = some mailbox → mailbox.producers t = .returned true →
    CallerMove owner t m (.postEnqueue mail) { m with mailbox } .postScheduled
  | postSeen : m.isScheduled = true → CallerMove owner t m .postScheduled m .idle
  | postScheduled : m.isScheduled = false → CallerMove owner t m .postScheduled m .postSwap
  | postSwapSeen : m.isScheduled = true → CallerMove owner t m .postSwap m .idle
  | postSwap : m.isScheduled = false →
    CallerMove owner t m .postSwap { m with isScheduled := true } (.schedule .post owner false)
  | killRunning : m.lifecycle = .running →
    CallerMove owner t m .killLifecycle
      { m with killCalls := m.killCalls + 1, lifecycle := .killing } .killSwap
  | killAgain : m.lifecycle ≠ .running →
    CallerMove owner t m .killLifecycle { m with killCalls := m.killCalls + 1 } .idle
  | killSeen : m.isScheduled = true → CallerMove owner t m .killSwap m .idle
  | killSwap : m.isScheduled = false →
    CallerMove owner t m .killSwap { m with isScheduled := true } (.schedule .kill owner false)
  | wakeActive (dest) : m.isActive = true →
    CallerMove owner t m (.wakeActive dest) m (.wakeMark dest)
  | wakeInactive (dest) : m.isActive = false → CallerMove owner t m (.wakeActive dest) m .idle
  | wakeMarked (dest) : m.isPollScheduled = true → CallerMove owner t m (.wakeMark dest) m .idle
  | wakeMark (dest) : m.isPollScheduled = false →
    CallerMove owner t m (.wakeMark dest) { m with isPollScheduled := true }
      (.schedule .waker dest false)
  | dropEntry (origin) (dest) : m.stopped dest = true →
    CallerMove owner t m (.schedule origin dest false) m .idle
  | checkEntry (origin) (dest) : m.stopped dest = false →
    CallerMove owner t m (.schedule origin dest false) m (.schedule origin dest true)
  | pushEntry (origin) (dest) :
    CallerMove owner t m (.schedule origin dest true) (m.push dest origin) .idle

theorem callerStep_move {owner : D} {t : T} {m m' : Shared D T M F} {pc pc' : CallerPc D M}
    (h : callerStep owner t m pc = some (m', pc')) : CallerMove owner t m pc m' pc' := by
  cases pc with
  | idle => cases h
  | postEnqueue mail =>
    obtain ⟨⟨m₁, r⟩, hm, he⟩ := Option.map_eq_some_iff.mp h
    obtain ⟨a, mailbox, ha, hstep, rfl, hnone, hr⟩ := tryEnqueue_eq hm
    rcases r with _ | _ | _ <;> cases he
    · exact .enqueue mail ha hstep (hnone rfl)
    · exact .enqueueFull mail ha hstep (hr _ rfl)
    · exact .enqueued mail ha hstep (hr _ rfl)
  | schedule origin dest checked =>
    cases checked with
    | false =>
      simp only [callerStep] at h
      split at h <;> cases h
      · exact .dropEntry origin dest (by assumption)
      · exact .checkEntry origin dest (Bool.eq_false_iff.mpr (by assumption))
    | true =>
      cases h
      exact .pushEntry origin dest
  | postLifecycle mail =>
    simp only [callerStep] at h
    split at h <;> cases h
    · exact .postRunning mail (by assumption)
    · exact .postRejected mail (by assumption)
  | killLifecycle =>
    simp only [callerStep] at h
    split at h <;> cases h
    · exact .killRunning (by assumption)
    · exact .killAgain (by assumption)
  | postScheduled =>
    simp only [callerStep] at h
    split at h <;> cases h
    · exact .postSeen (by assumption)
    · exact .postScheduled (Bool.eq_false_iff.mpr (by assumption))
  | postSwap =>
    simp only [callerStep] at h
    split at h <;> cases h
    · exact .postSwapSeen (by assumption)
    · exact .postSwap (Bool.eq_false_iff.mpr (by assumption))
  | killSwap =>
    simp only [callerStep] at h
    split at h <;> cases h
    · exact .killSeen (by assumption)
    · exact .killSwap (Bool.eq_false_iff.mpr (by assumption))
  | wakeActive dest =>
    simp only [callerStep] at h
    split at h <;> cases h
    · exact .wakeActive dest (by assumption)
    · exact .wakeInactive dest (Bool.eq_false_iff.mpr (by assumption))
  | wakeMark dest =>
    simp only [callerStep] at h
    split at h <;> cases h
    · exact .wakeMarked dest (by assumption)
    · exact .wakeMark dest (Bool.eq_false_iff.mpr (by assumption))

/-- A caller leaves the poll driver and the history of the actor's methods alone. -/
theorem callerStep_frame {owner : D} {t : T} {m m' : Shared D T M F} {pc pc' : CallerPc D M}
    (h : callerStep owner t m pc = some (m', pc')) :
    m'.slot = m.slot ∧ m'.isActive = m.isActive ∧ m'.wakers = m.wakers ∧
      m'.delivered = m.delivered ∧ m'.stopped = m.stopped ∧ m'.armed = m.armed ∧
      m'.finished = m.finished := by
  cases callerStep_move h <;> exact ⟨rfl, rfl, rfl, rfl, rfl, rfl, rfl⟩

end DignusActor.ActorRunner
