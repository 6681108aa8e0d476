import DignusActor.Runner.Exclusion
import DignusActor.Runner.Scheduled

/-! # Pending receives on one dispatcher thread

One thread arms, polls and clears, so the slot and `is_active` agree whenever it is out of `execute`
(`PollInv`). A wake that finds the runner marked relies on the entry of the wake that marked it. The
mark is taken back only at the start of a poll and around a completion, so while a future waits the
entry is still in the queue, or its wake has yet to push it (`WakeInv`). -/

namespace DignusActor.ActorRunner

open Machine (Reach)

variable {T M F : Type}

/-! ## The slot and `is_active` -/

/-- The slot and `is_active` along `execute`. -/
def PollPhase (m : Shared Unit T M F) : WorkerPc M F → Prop
  | .idle | .loadActive _ => m.slot.isSome = m.isActive
  | .pollUnmark _ | .pollSlot _ | .armUnmark => m.slot.isSome = true ∧ m.isActive = true
  | .armActivate => m.slot.isSome = true ∧ m.isActive = false
  | .pollDeactivate _ _ => m.slot = none ∧ m.isActive = true
  | _ => m.slot = none ∧ m.isActive = false

structure PollInv (s : State Unit T M F) : Prop where
  phase : PollPhase s.mem (s.workers ())
  outstanding : s.mem.armed = s.mem.finished + s.mem.slot.isSome.toNat

section
variable [DecidableEq T] {o : Outcome F} {m m' : Shared Unit T M F} {pc pc' : WorkerPc M F}

theorem PollPhase.worker (H : PollPhase m pc) (h : workerStep () () m o pc = some (m', pc')) :
    PollPhase m' pc' := by
  cases workerStep_move h with
  | pollEmpty _ hslot | pollEmptyLoop hslot =>
    have hsome := H.1
    rw [hslot] at hsome
    cases hsome
  | pollPending => exact H.2.symm
  | pollFinished => exact ⟨rfl, H.2⟩
  | active origin ha => exact ⟨H.trans ha, ha⟩
  | inactive origin ha => exact ⟨by simpa [PollPhase, ha] using H, ha⟩
  | dropEntry site | pushEntry site =>
    cases site <;> simpa [PollPhase, ScheduleSite.next, Shared.push, H.1] using H.2
  | _ => simp_all [PollPhase]

omit [DecidableEq T] in
theorem PollPhase.congr (H : PollPhase m pc) (hslot : m'.slot = m.slot)
    (hactive : m'.isActive = m.isActive) : PollPhase m' pc := by
  cases pc <;> simpa only [PollPhase, hslot, hactive] using H

variable {s s' : State Unit T M F} {a : Action Unit T M F}

theorem PollInv.step (H : PollInv s) (hs : ActorRunner.step () s a = some s') : PollInv s' := by
  cases step_move hs with
  | post | kill | wake => exact ⟨H.phase, H.outstanding⟩
  | stop => exact ⟨H.phase.congr rfl rfl, H.outstanding⟩
  | caller h =>
    obtain ⟨hslot, hactive, _, _, _, harmed, hfinished⟩ := callerStep_frame h
    refine ⟨H.phase.congr hslot hactive, ?_⟩
    dsimp only
    rw [hslot, harmed, hfinished]
    exact H.outstanding
  | pick hidle =>
    have hphase := H.phase
    rw [hidle] at hphase
    exact ⟨hphase, H.outstanding⟩
  | worker h =>
    have hphase := H.phase
    refine ⟨hphase.worker h, workerStep_outstanding H.outstanding (fun f hf => ?_) (fun hc => ?_) h⟩
    · rw [hf] at hphase
      exact hphase.1
    · rw [hc] at hphase
      exact hphase.1

omit [DecidableEq T] in
theorem PollInv.initial (q : MpscBoundedQueue M) : PollInv (initial Unit T F q) := ⟨rfl, rfl⟩

end

/-! ## Wakes -/

/-- Inside `wake`. -/
def CallerPc.Waking : CallerPc Unit M → Prop
  | .wakeActive _ | .wakeMark _ | .schedule .waker _ _ => True
  | _ => False

/-- About to push the entry of a wake. -/
def CallerPc.PushingWake : CallerPc Unit M → Prop
  | .schedule .waker _ _ => True
  | _ => False

/-- Past the store with which a poll begins, and not in `execute` for anything else. -/
def WorkerPc.Waiting : WorkerPc M F → Prop
  | .idle | .pollSlot _ => True
  | _ => False

/-- The runner with the history of its wakes and of its futures. A future is known by the number of
those that were armed before it. -/
structure Watched (T M F : Type) where
  runner : State Unit T M F
  /-- A wake was called since the last poll began. -/
  woken : Bool
  /-- The future in the slot. -/
  inSlot : Nat
  /-- The future whose completion callback the worker has taken out of the slot. -/
  taken : Nat
  /-- The futures that returned `Ready` (`true`) or panicked. -/
  results : List (Nat × Bool)
  /-- The futures whose completion callback was called. -/
  callbacks : List Nat

/-- What the history says of a step of the worker. -/
def Watched.noteWorker (w : Watched T M F) (outcome : Outcome F) : Watched T M F :=
  match w.runner.workers () with
  | .pollUnmark _ => { w with woken := false }
  | .pollSlot _ =>
    match w.runner.mem.slot, outcome with
    | some _, .done => { w with results := w.results ++ [(w.inSlot, true)], taken := w.inSlot }
    | some _, .panicked => { w with results := w.results ++ [(w.inSlot, false)] }
    | _, _ => w
  | .pollReset _ true => { w with callbacks := w.callbacks ++ [w.taken] }
  | .armSlot _ => { w with inSlot := w.runner.mem.armed }
  | _ => w

def Watched.note (w : Watched T M F) : Action Unit T M F → Watched T M F
  | .wake .. => { w with woken := true }
  | .worker _ outcome => w.noteWorker outcome
  | _ => w

def watch (T M F : Type) [DecidableEq T] (capacity : Nat) :
    Machine (Watched T M F) (Action Unit T M F) where
  Init w := (machine T M F () capacity).Init w.runner ∧
    w = { runner := w.runner, woken := false, inSlot := 0, taken := 0, results := [],
          callbacks := [] }
  step w a := (step () w.runner a).map fun runner => { w.note a with runner }

/-- No dispatcher is stopped. -/
def Unstopped (_ : Watched T M F) : Action Unit T M F → Prop
  | .stop _ => False
  | _ => True

instance (w : Watched T M F) : ∀ a, Decidable (Unstopped w a)
  | .stop _ => .isFalse id
  | .post .. | .kill _ | .wake .. | .caller _ | .pick _ | .worker .. => .isTrue trivial

/-- The entry of the wake that marked the runner is queued, or its wake has yet to push it. -/
structure WakeInv (w : Watched T M F) : Prop where
  running : w.runner.mem.stopped () = false
  marked : (w.runner.workers ()).Waiting → w.runner.mem.isActive = true →
    w.runner.mem.isPollScheduled = true →
    w.runner.mem.queue () ≠ [] ∨ ∃ t, (w.runner.callers t).PushingWake
  woken : (w.runner.workers ()).Waiting → w.runner.mem.isActive = true → w.woken = true →
    w.runner.mem.queue () ≠ [] ∨ ∃ t, (w.runner.callers t).Waking

theorem CallerPc.PushingWake.waking {pc : CallerPc Unit M} (h : pc.PushingWake) : pc.Waking := by
  unfold PushingWake at h
  split at h
  · trivial
  · cases h

section
variable [DecidableEq T] {t : T} {o : Outcome F} {m m' : Shared Unit T M F}

/-- A caller that sets the mark is about to push, and one about to push stays there until it has
pushed. -/
theorem callerStep_pushingWake {pc pc' : CallerPc Unit M} (hrun : m.stopped () = false)
    (h : callerStep () t m pc = some (m', pc')) :
    (m'.isPollScheduled = m.isPollScheduled ∨ pc'.PushingWake) ∧
      (pc.PushingWake → pc'.PushingWake ∨ m'.queue () ≠ []) := by
  cases callerStep_move h with
  | wakeMark => exact ⟨.inr trivial, False.elim⟩
  | dropEntry _ dest hstop => cases hrun.symm.trans hstop
  | checkEntry origin => exact ⟨.inl rfl, by cases origin <;> exact .inl⟩
  | pushEntry => exact ⟨.inl rfl, fun _ => .inr (by simp [Shared.push])⟩
  | _ => exact ⟨.inl rfl, False.elim⟩

/-- A wake in progress goes on, or has pushed its entry, or has found the future gone or the runner
marked. -/
theorem callerStep_waking {pc pc' : CallerPc Unit M} (hrun : m.stopped () = false)
    (h : callerStep () t m pc = some (m', pc')) (hw : pc.Waking) :
    pc'.Waking ∨ m'.queue () ≠ [] ∨ m.isActive = false ∨
      (m.isPollScheduled = true ∧ ¬pc.PushingWake ∧ m' = m) := by
  cases callerStep_move h with
  | wakeInactive _ hinactive => exact .inr (.inr (.inl hinactive))
  | wakeMarked _ hmark => exact .inr (.inr (.inr ⟨hmark, id, rfl⟩))
  | dropEntry _ dest hstop => cases hrun.symm.trans hstop
  | checkEntry origin => exact .inl (by cases origin <;> exact hw)
  | pushEntry => exact .inr (.inl (by simp [Shared.push]))
  | wakeActive | wakeMark => exact .inl trivial
  | _ => exact hw.elim

/-- The worker waits for the future only after a poll that returned `Pending`. -/
theorem PollPhase.waiting {pc pc' : WorkerPc M F} (H : PollPhase m pc)
    (h : workerStep () () m o pc = some (m', pc')) (hw : pc'.Waiting) (ha : m'.isActive = true) :
    (pc.Waiting ∧ m'.isPollScheduled = m.isPollScheduled ∧ m'.queue = m.queue ∧
      m.isActive = true) ∨ (∃ site, pc = .pollUnmark site) ∧ m'.isPollScheduled = false := by
  cases workerStep_move h with
  | pollUnmark site => exact .inr ⟨⟨site, rfl⟩, rfl⟩
  | pollPending => exact .inl ⟨trivial, rfl, rfl, ha⟩
  | dropEntry site | pushEntry site => cases H.2.symm.trans ha
  | lifecycleStopped | peekFalse | rescheduleSeen | finalizeAgain | onFinalize =>
    cases H.2.symm.trans ha
  | _ => cases hw

variable {w w' : Watched T M F} {a : Action Unit T M F}

omit [DecidableEq T] in
theorem Watched.woken_of_noteWorker (h : (w.noteWorker o).woken = true) : w.woken = true := by
  unfold noteWorker at h
  split at h
  · cases h
  · split at h <;> exact h
  all_goals exact h

/-- A call begins where no call is in progress. -/
theorem WakeInv.begin (H : WakeInv w) {pc : CallerPc Unit M} (hidle : w.runner.callers t = .idle)
    (hw : w'.runner = w.runner.setCaller t pc) (hwoken : w'.woken = w.woken ∨ pc.Waking) :
    WakeInv w' := by
  have hother {P : CallerPc Unit M → Prop} (hP : ¬P .idle) (h : ∃ u, P (w.runner.callers u)) :
      ∃ u, P (w'.runner.callers u) := by
    obtain ⟨u, hu⟩ := h
    refine ⟨u, ?_⟩
    by_cases hut : u = t
    · rw [hut, hidle] at hu
      exact (hP hu).elim
    · simpa [hw, State.setCaller, Function.update_of_ne hut] using hu
  refine ⟨by rw [hw]; exact H.running, ?_, ?_⟩
  · intro hwait hactive hmark
    rw [hw] at hwait hactive hmark
    exact (H.marked hwait hactive hmark).imp (by rw [hw]; exact id) (hother id)
  · intro hwait hactive hwoken'
    rcases hwoken with hwoken | hpc
    · rw [hw] at hwait hactive
      exact (H.woken hwait hactive (hwoken.symm.trans hwoken')).imp (by rw [hw]; exact id)
        (hother id)
    · exact .inr ⟨t, by simpa [hw, State.setCaller] using hpc⟩

theorem WakeInv.caller (H : WakeInv w) {pc : CallerPc Unit M}
    (h : callerStep () t w.runner.mem (w.runner.callers t) = some (m', pc)) :
    WakeInv { w with runner := { w.runner with
      mem := m', callers := Function.update w.runner.callers t pc } } := by
  obtain ⟨-, hactive, -, -, hstopped, -⟩ := callerStep_frame h
  obtain ⟨hmark, hpush⟩ := callerStep_pushingWake H.running h
  have hqueue (hq : w.runner.mem.queue () ≠ []) : m'.queue () ≠ [] := callerStep_queue h hq
  -- an entry of a wake comes into the queue, or stays about to come
  have hpushing (hp : w.runner.mem.queue () ≠ [] ∨ ∃ u, (w.runner.callers u).PushingWake) :
      m'.queue () ≠ [] ∨ ∃ u, (Function.update w.runner.callers t pc u).PushingWake := by
    rcases hp with hq | ⟨u, hu⟩
    · exact .inl (hqueue hq)
    · by_cases hut : u = t
      · subst hut
        rcases hpush hu with hu | hq
        · exact .inr ⟨u, by rwa [Function.update_self]⟩
        · exact .inl hq
      · exact .inr ⟨u, by rwa [Function.update_of_ne hut]⟩
  refine ⟨by rw [hstopped]; exact H.running, fun hwait ha hm => ?_, fun hwait ha hwoken => ?_⟩
  · dsimp only at hwait ha hm ⊢
    rcases hmark with hmark | hpc
    · exact hpushing (H.marked hwait (hactive ▸ ha) (hmark ▸ hm))
    · exact .inr ⟨t, by rwa [Function.update_self]⟩
  · dsimp only at hwait ha hwoken ⊢
    rcases H.woken hwait (hactive ▸ ha) hwoken with hq | ⟨u, hu⟩
    · exact .inl (hqueue hq)
    · by_cases hut : u = t
      · subst hut
        rcases callerStep_waking H.running h hu with hu | hq | hinactive | ⟨hm, -, hsame⟩
        · exact .inr ⟨u, by rwa [Function.update_self]⟩
        · exact .inl hq
        · rw [hactive, hinactive] at ha
          cases ha
        · -- the mark belongs to another wake
          exact (hpushing (H.marked hwait (hactive ▸ ha) hm)).imp_right fun ⟨v, hv⟩ =>
            ⟨v, hv.waking⟩
      · exact .inr ⟨u, by rwa [Function.update_of_ne hut]⟩

theorem WakeInv.step (H : WakeInv w) (hp : PollInv w.runner) (hok : Unstopped w a)
    {capacity : Nat} (hs : (watch T M F capacity).step w a = some w') : WakeInv w' := by
  obtain ⟨runner, hstep, rfl⟩ := Option.map_eq_some_iff.mp hs
  cases step_move hstep with
  | post mail hidle => exact H.begin hidle rfl (.inl rfl)
  | kill hidle => exact H.begin hidle rfl (.inl rfl)
  | wake hidle => exact H.begin hidle rfl (.inr trivial)
  | caller h => exact H.caller h
  | pick => exact ⟨H.running, False.elim, False.elim⟩
  | stop => exact hok.elim
  | @worker _ o m' pc' h =>
    have hrunning : m'.stopped () = false := (workerStep_stopped h) ▸ H.running
    refine ⟨hrunning, fun hwait ha hm => ?_, fun hwait ha hwoken => ?_⟩ <;>
      dsimp only [Function.update_self] at hwait ha ⊢
    · rcases hp.phase.waiting h hwait ha with ⟨hw, hmark, hq, ha⟩ | ⟨-, hmark⟩
      · rw [hq]
        exact H.marked hw ha (hmark ▸ hm)
      · cases hmark.symm.trans hm
    · rcases hp.phase.waiting h hwait ha with ⟨hw, -, hq, ha⟩ | ⟨⟨site, hpc⟩, -⟩
      · rw [hq]
        exact H.woken hw ha (Watched.woken_of_noteWorker hwoken)
      · simp only [Watched.note, Watched.noteWorker, hpc] at hwoken
        cases hwoken

/-! ## Completion callbacks -/

/-- The callback that the worker has taken and not called yet. -/
def Watched.owed (w : Watched T M F) : List Nat :=
  match w.runner.workers () with
  | .pollDeactivate _ true | .pollReset _ true => [w.taken]
  | _ => []

structure HistoryInv (w : Watched T M F) : Prop where
  numbers : w.results.map Prod.fst = List.range w.runner.mem.finished
  inSlot : w.runner.mem.slot.isSome = true → w.inSlot = w.runner.mem.finished
  callbacks : w.callbacks ++ w.owed = (w.results.filter Prod.snd).map Prod.fst

omit [DecidableEq T] in
theorem HistoryInv.congr (H : HistoryInv w)
    (hfinished : w'.runner.mem.finished = w.runner.mem.finished)
    (hslot : w'.runner.mem.slot.isSome = true → w.runner.mem.slot.isSome = true)
    (hinSlot : w'.inSlot = w.inSlot) (hresults : w'.results = w.results)
    (hcallbacks : w'.callbacks ++ w'.owed = w.callbacks ++ w.owed) : HistoryInv w' := by
  refine ⟨?_, fun h => ?_, ?_⟩
  · rw [hresults, hfinished]
    exact H.numbers
  · rw [hinSlot, hfinished]
    exact H.inSlot (hslot h)
  · rw [hresults, hcallbacks]
    exact H.callbacks

/-- The poll of the future in the slot. -/
theorem HistoryInv.pollSlot (H : HistoryInv w) (hp : PollInv w.runner) {site : PollSite}
    {pc : WorkerPc M F} (hpc : w.runner.workers () = .pollSlot site)
    (h : workerStep () () w.runner.mem o (.pollSlot site) = some (m', pc)) :
    HistoryInv { w.noteWorker o with runner := { w.runner with
      mem := m', workers := Function.update w.runner.workers () pc } } := by
  have hphase := hp.phase
  rw [hpc] at hphase
  obtain ⟨f, hslot⟩ := Option.isSome_iff_exists.mp hphase.1
  have hnumber : w.inSlot = w.runner.mem.finished := H.inSlot hphase.1
  have hcallbacks := H.callbacks
  simp only [Watched.owed, hpc, List.append_nil] at hcallbacks
  simp only [workerStep, pollSlotStep, hslot] at h
  cases o with
  | pending future =>
    cases h
    refine H.congr rfl (fun _ => hphase.1) ?_ ?_ ?_ <;>
      simp [Watched.noteWorker, Watched.owed, hpc, hslot]
  | done =>
    cases h
    refine ⟨?_, (fun hsome => by cases hsome), ?_⟩
    · simp [Watched.noteWorker, hpc, hslot, H.numbers, hnumber, List.range_succ]
    · simp [Watched.noteWorker, Watched.owed, hpc, hslot, hcallbacks]
  | panicked =>
    cases h
    refine ⟨?_, (fun hsome => by cases hsome), ?_⟩
    · simp [Watched.noteWorker, hpc, hslot, H.numbers, hnumber, List.range_succ]
    · simp [Watched.noteWorker, Watched.owed, hpc, hslot, hcallbacks]

theorem HistoryInv.worker (H : HistoryInv w) (hp : PollInv w.runner) {pc : WorkerPc M F}
    (h : workerStep () () w.runner.mem o (w.runner.workers ()) = some (m', pc)) :
    HistoryInv { w.noteWorker o with runner := { w.runner with
      mem := m', workers := Function.update w.runner.workers () pc } } := by
  have hphase := hp.phase
  generalize hpc : w.runner.workers () = old at h hphase
  cases workerStep_move h with
  | pollPending site | pollFinished site | pollEmpty origin | pollEmptyLoop =>
    exact H.pollSlot hp hpc h
  | armSlot f =>
    have harmed := hp.outstanding
    rw [hphase.1] at harmed
    refine ⟨?_, fun _ => ?_, ?_⟩
    · simpa [Watched.noteWorker, hpc] using H.numbers
    · simpa [Watched.noteWorker, hpc] using harmed
    · simpa [Watched.noteWorker, Watched.owed, hpc] using H.callbacks
  | pollReady site =>
    refine H.congr rfl id ?_ ?_ ?_ <;> simp [Watched.noteWorker, Watched.owed, hpc]
  | pollDeactivate site ready =>
    refine H.congr rfl id ?_ ?_ ?_ <;>
      cases ready <;> simp [Watched.noteWorker, Watched.owed, hpc]
  | clearSlot =>
    refine H.congr rfl (fun hsome => by cases hsome) ?_ ?_ ?_ <;>
      simp [Watched.noteWorker, Watched.owed, hpc]
  | dropEntry site | pushEntry site =>
    refine H.congr rfl id ?_ ?_ ?_ <;>
      cases site <;> simp [Watched.noteWorker, Watched.owed, hpc, ScheduleSite.next]
  | _ => refine H.congr rfl id ?_ ?_ ?_ <;> simp [Watched.noteWorker, Watched.owed, hpc]

theorem HistoryInv.step (H : HistoryInv w) (hp : PollInv w.runner) {capacity : Nat}
    (hs : (watch T M F capacity).step w a = some w') : HistoryInv w' := by
  obtain ⟨runner, hstep, rfl⟩ := Option.map_eq_some_iff.mp hs
  cases step_move hstep with
  | post | kill | wake | stop => exact H.congr rfl id rfl rfl rfl
  | caller h =>
    obtain ⟨hslot, -, -, -, -, -, hfinished⟩ := callerStep_frame h
    exact H.congr hfinished (fun hsome => by rwa [← hslot]) rfl rfl rfl
  | pick hidle =>
    refine H.congr rfl id rfl rfl ?_
    simp [Watched.note, Watched.owed, hidle]
  | worker h => exact H.worker hp h

theorem watch_runner {capacity : Nat} {ok : Watched T M F → Action Unit T M F → Prop}
    (h : Reach (watch T M F capacity) ok w) :
    (machine T M F () capacity).Reach Machine.free w.runner := by
  refine h.map Watched.runner (fun h => h.1) fun _ _ _ hs => ?_
  obtain ⟨runner, hrunner, rfl⟩ := Option.map_eq_some_iff.mp hs
  exact .inr ⟨_, trivial, hrunner⟩

theorem pollInv_of_reach {capacity : Nat} {s : State Unit T M F}
    (h : (machine T M F () capacity).Reach Machine.free s) : PollInv s :=
  h.inv PollInv (fun ⟨q, _, hs⟩ => hs ▸ .initial q) fun H _ hs => H.step hs

theorem wakeInv_of_reach {capacity : Nat} (h : Reach (watch T M F capacity) Unstopped w) :
    WakeInv w := by
  refine h.inv_of (fun w => PollInv w.runner) WakeInv
    (fun h => pollInv_of_reach (watch_runner h)) ?_ fun hp H hok hs => H.step hp hok hs
  rintro w ⟨⟨q, _, hq⟩, hw⟩
  refine ⟨by rw [hq]; rfl, fun _ hactive => ?_, fun _ _ hwoken => ?_⟩
  · rw [hq] at hactive
    cases hactive
  · rw [hw] at hwoken
    cases hwoken

theorem historyInv_of_reach {capacity : Nat} {ok : Watched T M F → Action Unit T M F → Prop}
    (h : Reach (watch T M F capacity) ok w) : HistoryInv w := by
  refine h.inv_of (fun w => PollInv w.runner) HistoryInv
    (fun h => pollInv_of_reach (watch_runner h)) ?_ fun hp H _ hs => H.step hp hs
  rintro w ⟨⟨q, _, hq⟩, hw⟩
  rw [hw]
  refine ⟨by rw [hq]; rfl, fun hslot => ?_, by simp [Watched.owed, hq, ActorRunner.initial]⟩
  rw [hq] at hslot
  cases hslot

omit [DecidableEq T] in
/-- The futures whose callback was called returned `Ready`, and no callback is called twice. -/
theorem HistoryInv.called (H : HistoryInv w) : w.callbacks.Nodup ∧ ∀ n,
    (n ∈ w.callbacks → (n, true) ∈ w.results) ∧
    ((n, true) ∈ w.results → n ∈ w.callbacks ∨ w.owed = [n]) ∧
    ((n, false) ∈ w.results → n ∉ w.callbacks) := by
  have hnodup : (w.results.map Prod.fst).Nodup := H.numbers ▸ List.nodup_range
  have hready : (w.callbacks ++ w.owed).Nodup := by
    rw [H.callbacks]
    exact hnodup.sublist (List.filter_sublist.map _)
  have hmem (n : Nat) : n ∈ w.callbacks ++ w.owed ↔ (n, true) ∈ w.results := by
    simp [H.callbacks]
  refine ⟨hready.of_append_left, fun n => ⟨fun hn => ?_, fun hn => ?_, fun hn hcalled => ?_⟩⟩
  · exact (hmem n).mp (List.mem_append_left _ hn)
  · rcases List.mem_append.mp ((hmem n).mpr hn) with hn | hn
    · exact .inl hn
    · right
      unfold Watched.owed at hn ⊢
      split at hn
      · rw [List.mem_singleton.mp hn]
      · rw [List.mem_singleton.mp hn]
      · cases hn
  · -- the two results would be of one future
    have htrue := (hmem n).mp (List.mem_append_left _ hcalled)
    cases List.inj_on_of_nodup_map hnodup hn htrue rfl

/-- **No wake of a pending receive is lost**, with one polling thread: while a future waits with no
entry queued and no wake or `execute` in progress, no wake was called since its last poll began. The
slot and `is_active` agree between two calls of `execute`, and the completion callback of a future
is called once if it returned `Ready`, never if it panicked. -/
theorem no_wake_lost {capacity : Nat} (h : Reach (watch T M F capacity) Unstopped w) :
    (w.runner.mem.slot.isSome = true → w.runner.mem.queue () = [] → w.runner.workers () = .idle →
      (∀ t, ¬(w.runner.callers t).Waking) → w.woken = false) ∧
    (w.runner.workers () = .idle → w.runner.mem.slot.isSome = w.runner.mem.isActive) ∧
    w.results.map Prod.fst = List.range w.runner.mem.finished ∧
    w.callbacks.Nodup ∧ ∀ n, (n ∈ w.callbacks → (n, true) ∈ w.results) ∧
      ((n, true) ∈ w.results → n ∈ w.callbacks ∨ w.owed = [n]) ∧
      ((n, false) ∈ w.results → n ∉ w.callbacks) := by
  have hp := pollInv_of_reach (watch_runner h)
  have hw := wakeInv_of_reach h
  have hh := historyInv_of_reach h
  have hagree (hidle : w.runner.workers () = .idle) :
      w.runner.mem.slot.isSome = w.runner.mem.isActive := by
    have hphase := hp.phase
    rwa [hidle] at hphase
  refine ⟨fun hslot hqueue hidle hcallers => ?_, hagree, hh.numbers, hh.called⟩
  refine Bool.eq_false_iff.mpr fun hwoken => ?_
  rcases hw.woken (by rw [hidle]; trivial) ((hagree hidle).symm.trans hslot) hwoken with
    hq | ⟨t, ht⟩
  · exact hq hqueue
  · exact hcallers t ht

end

/-! ## A run -/

section
open List

def watched : Watched Nat Nat Unit where
  runner := initial _ _ _ ((MpscBoundedQueue.new Nat mailSlotSize 16).get rfl)
  woken := false
  inSlot := 0
  taken := 0
  results := []
  callbacks := []

theorem watched_init : (watch Nat Nat Unit 16).Init watched := ⟨⟨_, rfl, rfl⟩, rfl⟩

/-- The receive of the first mail is woken and completes; a stale wake is late, and the receive of
the second mail is left waiting. -/
def staleWake : List (Action Unit Nat Nat Unit) :=
  Action.post 0 7 :: replicate 11 (Action.caller 0) ++
    Action.post 1 8 :: replicate 8 (Action.caller 1) ++
    Action.pick () :: replicate 10 (Action.worker () .done) ++
    replicate 6 (Action.worker () (.pending ())) ++
    Action.wake 0 none () :: replicate 4 (Action.caller 0) ++
    Action.wake 1 (some ()) () :: Action.caller 1 ::
    Action.pick () :: replicate 7 (Action.worker () .done) ++
    replicate 3 (Action.caller 1) ++
    Action.pick () :: replicate 10 (Action.worker () .done) ++
    replicate 6 (Action.worker () (.pending ())) ++
    Action.pick () :: replicate 3 (Action.worker () (.pending ()))

theorem no_wake_lost_staleWake : ∃ w, Reach (watch Nat Nat Unit 16) Unstopped w ∧
    w.runner.mem.delivered = [7, 8] ∧ w.results = [(0, true)] ∧ w.callbacks = [0] ∧
    w.runner.mem.slot.isSome = true ∧ w.woken = false := by
  have hreach : Reach (watch Nat Nat Unit 16) Unstopped
      (((watch Nat Nat Unit 16).run watched staleWake).get rfl) := by
    refine .get watched_init ?_ rfl
    decide +kernel
  refine ⟨_, hreach, rfl, rfl, rfl, rfl, (no_wake_lost hreach).1 rfl rfl rfl fun t => ?_⟩
  match t with
  | 0 => exact id
  | 1 => exact id
  | _ + 2 => exact id

end

end DignusActor.ActorRunner
