import DignusActor.Machine.Transition

/-! # The poll driver

The model of `PollDriver` (`poll_driver.rs`) by itself: any number of threads that call `arm`,
`clear`, `try_mark_poll_scheduled` and `poll` in any order. Each atomic operation is one step, and
so is each block under the lock of `slot`, but for the one in `poll`, which has the lock as long as
the future is polled. The futures are numbered in the order of `arm`; what their polls returned and
how often their completion callbacks were called is recorded.

Whoever uses it, no two polls overlap, a future that has returned `Ready` or panicked is not polled
again, and its completion callback is called once, after `Ready` (`poll_protocol`). -/

namespace DignusActor.PollDriver

open Machine (Reach)

/-! ## The model -/

/-- What a poll of a future does. -/
inductive PollResult
  | pending
  | ready
  | panicked
  deriving DecidableEq

inductive PollOutcome
  | ready
  | pending
  | failed
  | idle
  deriving DecidableEq

/-- Where a thread stands in a call. -/
inductive Pc
  | idle
  | armSlot (onComplete : Bool)
  | armActivate
  | armUnmark
  | clearSlot
  | clearActive
  | clearUnmark
  | markActive
  | markSwap
  /-- `try_mark_poll_scheduled` has returned. -/
  | marked (won : Bool)
  | pollUnmark
  | pollSlot
  /-- In the poll of a future, with the lock. -/
  | polling (n : Nat)
  | pollDeactivate (n : Nat) (ready : Bool)
  | pollReset (n : Nat) (ready : Bool)
  /-- At the completion callback. -/
  | complete (n : Nat)
  /-- `poll` has returned. -/
  | polled (outcome : PollOutcome)
  deriving DecidableEq

structure Future where
  /-- It came with a completion callback. -/
  onComplete : Bool
  polls : List PollResult
  completions : Nat
  deriving DecidableEq

structure State (T : Type) where
  isActive : Bool
  isPollScheduled : Bool
  slot : Option Nat
  /-- The thread that has the lock of `slot`. -/
  lock : Option T
  pcs : T → Pc
  /-- How many futures were armed. -/
  armed : Nat
  futures : Nat → Future
  /-- How often `is_poll_scheduled` was set by `try_mark_poll_scheduled`, and cleared. -/
  marks : Nat
  unmarks : Nat

def new (T : Type) : State T where
  isActive := false
  isPollScheduled := false
  slot := none
  lock := none
  pcs _ := .idle
  armed := 0
  futures _ := ⟨false, [], 0⟩
  marks := 0
  unmarks := 0

inductive Action (T : Type)
  | arm (t : T) (onComplete : Bool)
  | clear (t : T)
  | tryMarkPollScheduled (t : T)
  | poll (t : T)
  /-- The next step of a call; a poll of a future has this result. -/
  | call (t : T) (result : PollResult)
  deriving DecidableEq

/-- Where a poll leaves its thread. -/
def PollResult.next (n : Nat) : PollResult → Pc
  | .pending => .polled .pending
  | .ready => .pollDeactivate n true
  | .panicked => .pollDeactivate n false

/-- No call is in progress. -/
def Pc.rests : Pc → Bool
  | .idle | .marked _ | .polled _ => true
  | _ => false

section
variable {T : Type}

/-- `is_poll_scheduled.store(false)`. -/
def State.unmark (s : State T) : State T :=
  { s with isPollScheduled := false, unmarks := s.unmarks + 1 }

def State.setFuture (s : State T) (n : Nat) (future : Future) : State T :=
  { s with futures := Function.update s.futures n future }

/-- The end of the poll of future `n`. -/
def State.polled (s : State T) (n : Nat) (result : PollResult) : State T :=
  { s with
    lock := none
    slot := if result = PollResult.pending then some n else none }.setFuture n
      { s.futures n with polls := (s.futures n).polls ++ [result] }

variable [DecidableEq T]

def State.goto (s : State T) (t : T) (pc : Pc) : State T :=
  { s with pcs := Function.update s.pcs t pc }

/-- The next step of a call. A future that leaves the slot is dropped without a panic. -/
def callStep (s : State T) (t : T) (result : PollResult) : Option (State T) :=
  match s.pcs t with
  | .idle | .marked _ | .polled _ => none
  | .armSlot onComplete =>
    if s.lock = none then
      some (({ s with slot := some s.armed, armed := s.armed + 1 }.setFuture s.armed
        ⟨onComplete, [], 0⟩).goto t .armActivate)
    else none
  | .armActivate => some ({ s with isActive := true }.goto t .armUnmark)
  | .armUnmark => some (s.unmark.goto t .idle)
  | .clearSlot =>
    if s.lock = none then some ({ s with slot := none }.goto t .clearActive) else none
  | .clearActive => some ({ s with isActive := false }.goto t .clearUnmark)
  | .clearUnmark => some (s.unmark.goto t .idle)
  | .markActive => some (s.goto t (if s.isActive then .markSwap else .marked false))
  | .markSwap =>
    if s.isPollScheduled then some (s.goto t (.marked false))
    else some ({ s with isPollScheduled := true, marks := s.marks + 1 }.goto t (.marked true))
  | .pollUnmark => some (s.unmark.goto t .pollSlot)
  | .pollSlot =>
    if s.lock = none then
      match s.slot with
      | none => some ({ s with isActive := false }.goto t (.polled .idle))
      | some n => some ({ s with lock := some t }.goto t (.polling n))
    else none
  | .polling n => some ((s.polled n result).goto t (result.next n))
  | .pollDeactivate n ready => some ({ s with isActive := false }.goto t (.pollReset n ready))
  | .pollReset n ready =>
    some (s.unmark.goto t
      (if ready then if (s.futures n).onComplete then .complete n else .polled .ready
      else .polled .failed))
  | .complete n =>
    some ((s.setFuture n
      { s.futures n with completions := (s.futures n).completions + 1 }).goto t (.polled .ready))

def step (s : State T) : Action T → Option (State T)
  | .arm t onComplete => if (s.pcs t).rests then some (s.goto t (.armSlot onComplete)) else none
  | .clear t => if (s.pcs t).rests then some (s.goto t .clearSlot) else none
  | .tryMarkPollScheduled t => if (s.pcs t).rests then some (s.goto t .markActive) else none
  | .poll t => if (s.pcs t).rests then some (s.goto t .pollUnmark) else none
  | .call t result => callStep s t result

def machine (T : Type) [DecidableEq T] : Machine (State T) (Action T) where
  Init s := s = new T
  step := step

end

/-! ## What every step keeps -/

/-- The future whose `Ready` a thread is on the way to report. -/
def Pc.reports : Pc → Option Nat
  | .pollDeactivate n true | .pollReset n true | .complete n => some n
  | _ => none

/-- The last poll of the future returned `Ready`. -/
def Future.Done (future : Future) : Prop := future.polls.getLast? = some .ready

structure Inv {T : Type} (s : State T) : Prop where
  holder : ∀ t n, s.pcs t = .polling n → s.lock = some t ∧ s.slot = some n
  held : ∀ t, s.lock = some t → ∃ n, s.pcs t = .polling n
  waiting : ∀ n, s.slot = some n → n < s.armed ∧ ∀ r ∈ (s.futures n).polls, r = .pending
  fresh : ∀ n, s.armed ≤ n → (s.futures n).polls = [] ∧ (s.futures n).completions = 0
  history : ∀ n, ∀ r ∈ (s.futures n).polls.dropLast, r = .pending
  reports : ∀ t n, (s.pcs t).reports = some n →
    (s.futures n).Done ∧ (s.futures n).completions = 0
  reporter : ∀ t u n, (s.pcs t).reports = some n → (s.pcs u).reports = some n → t = u
  complete : ∀ t n, s.pcs t = .complete n → (s.futures n).onComplete = true
  completed : ∀ n, (s.futures n).completions ≠ 0 →
    (s.futures n).completions = 1 ∧ (s.futures n).onComplete = true ∧ (s.futures n).Done
  owed : ∀ n, (s.futures n).Done → (s.futures n).onComplete = true →
    (s.futures n).completions = 1 ∨ ∃ t, (s.pcs t).reports = some n
  marks : s.marks ≤ s.unmarks + if s.isPollScheduled then 1 else 0

section
variable {T : Type} {s s' : State T} {t : T}

theorem new_inv (T : Type) : Inv (new T) where
  holder _ _ h := nomatch h
  held _ h := nomatch h
  waiting _ h := nomatch h
  fresh _ _ := ⟨rfl, rfl⟩
  history _ _ h := nomatch h
  reports _ _ h := nomatch h
  reporter _ _ _ h := nomatch h
  complete _ _ h := nomatch h
  completed _ h := absurd rfl h
  owed _ h := nomatch h
  marks := Nat.zero_le _

/-- A future that is done is not in the slot. -/
theorem Inv.not_done (h : Inv s) {n : Nat} (hn : s.slot = some n) : ¬(s.futures n).Done := by
  intro hdone
  obtain ⟨-, hpending⟩ := h.waiting n hn
  cases hpending _ (List.mem_of_getLast? hdone)

/-- The flags are not what the invariant is about. -/
theorem Inv.flags (h : Inv s) {isActive isPollScheduled : Bool} {marks unmarks : Nat}
    (hmarks : marks ≤ unmarks + if isPollScheduled then 1 else 0) :
    Inv { s with isActive, isPollScheduled, marks, unmarks } :=
  { h with marks := hmarks }

theorem Inv.unmark (h : Inv s) : Inv s.unmark := by
  refine h.flags ?_
  have hmarks := h.marks
  split at hmarks <;> simp only [Bool.false_eq_true, if_false] <;> omega

theorem Inv.arm (h : Inv s) (hlock : s.lock = none) (onComplete : Bool) :
    Inv ({ s with slot := some s.armed, armed := s.armed + 1 }.setFuture s.armed
      ⟨onComplete, [], 0⟩) := by
  have hnone (u : T) (n : Nat) (hu : s.pcs u = .polling n) : False := by
    rw [(h.holder u n hu).1] at hlock
    cases hlock
  have hself : (Function.update s.futures s.armed ⟨onComplete, [], 0⟩) s.armed =
      ⟨onComplete, [], 0⟩ := Function.update_self ..
  have hother {n : Nat} (hn : n ≠ s.armed) :
      (Function.update s.futures s.armed ⟨onComplete, [], 0⟩) n = s.futures n :=
    Function.update_of_ne hn ..
  -- a future that has been polled was armed before
  have hne {n : Nat} (hdone : (s.futures n).Done) : n ≠ s.armed := by
    rintro rfl
    rw [Future.Done, (h.fresh _ (Nat.le_refl _)).1] at hdone
    cases hdone
  refine ⟨fun u n hu => (hnone u n hu).elim, fun u hu => ?_, fun n hn => ?_, fun n hn => ?_,
    fun n r hr => ?_, fun u n hu => ?_, h.reporter, fun u n hu => ?_, fun n hn => ?_,
    fun n hdone hcallback => ?_, h.marks⟩
  · cases hlock.symm.trans hu
  · cases hn
    refine ⟨Nat.lt_succ_self _, fun r hr => ?_⟩
    simp only [State.setFuture, hself] at hr
    cases hr
  · simp only [State.setFuture] at hn ⊢
    rw [hother (by omega)]
    exact h.fresh n (by omega)
  · simp only [State.setFuture] at hr
    by_cases hn : n = s.armed
    · rw [hn, hself] at hr
      cases hr
    · rw [hother hn] at hr
      exact h.history n r hr
  · obtain ⟨hdone, hzero⟩ := h.reports u n hu
    simp only [State.setFuture, hother (hne hdone)]
    exact ⟨hdone, hzero⟩
  · have hu : s.pcs u = .complete n := hu
    have hdone := (h.reports u n (by rw [hu]; rfl)).1
    simp only [State.setFuture, hother (hne hdone)]
    exact h.complete u n hu
  · simp only [State.setFuture] at hn ⊢
    by_cases hn' : n = s.armed
    · rw [hn', hself] at hn
      exact absurd rfl hn
    · rw [hother hn'] at hn ⊢
      exact h.completed n hn
  · simp only [State.setFuture] at hdone hcallback ⊢
    by_cases hn' : n = s.armed
    · rw [hn', hself] at hdone
      cases hdone
    · rw [hother hn'] at hdone hcallback ⊢
      exact h.owed n hdone hcallback

theorem Inv.clear (h : Inv s) (hlock : s.lock = none) : Inv { s with slot := none } :=
  { h with
    holder := fun u n hu => by
      rw [(h.holder u n hu).1] at hlock
      cases hlock
    waiting := fun n hn => by cases hn }

variable [DecidableEq T]

theorem State.goto_self (s : State T) (t : T) (pc : Pc) : (s.goto t pc).pcs t = pc :=
  Function.update_self ..

theorem State.goto_of_ne {u : T} (s : State T) (pc : Pc) (h : u ≠ t) :
    (s.goto t pc).pcs u = s.pcs u := Function.update_of_ne h ..

/-- A thread goes on without the lock, and what it has to report stays, or needs no callback. -/
theorem Inv.goto (h : Inv s) {pc : Pc} (hpc : ∀ n, s.pcs t ≠ .polling n)
    (hpc' : ∀ n, pc ≠ .polling n) (hreports : ∀ n, pc.reports = some n → (s.pcs t).reports = some n)
    (howed : ∀ n, (s.pcs t).reports = some n → pc.reports = some n ∨
      (s.futures n).onComplete = false)
    (hcomplete : ∀ n, pc = .complete n → (s.futures n).onComplete = true) :
    Inv (s.goto t pc) := by
  have hback (u : T) (n : Nat) (hu : ((s.goto t pc).pcs u).reports = some n) :
      (s.pcs u).reports = some n := by
    by_cases hut : u = t
    · subst hut
      rw [State.goto_self] at hu
      exact hreports n hu
    · rwa [State.goto_of_ne s pc hut] at hu
  refine { h with
    holder := fun u n hu => ?_
    held := fun u hu => ?_
    reports := fun u n hu => h.reports u n (hback u n hu)
    reporter := fun u v n hu hv => h.reporter u v n (hback u n hu) (hback v n hv)
    complete := fun u n hu => ?_
    owed := fun n hdone hcallback => ?_ }
  · by_cases hut : u = t
    · subst hut
      rw [State.goto_self] at hu
      exact absurd hu (hpc' n)
    · rw [State.goto_of_ne s pc hut] at hu
      exact h.holder u n hu
  · obtain ⟨n, hn⟩ := h.held u hu
    have hut : u ≠ t := by
      rintro rfl
      exact hpc n hn
    exact ⟨n, (State.goto_of_ne s pc hut).trans hn⟩
  · by_cases hut : u = t
    · subst hut
      rw [State.goto_self] at hu
      exact hcomplete n hu
    · rw [State.goto_of_ne s pc hut] at hu
      exact h.complete u n hu
  · rcases h.owed n hdone hcallback with hone | ⟨u, hu⟩
    · exact .inl hone
    · refine .inr ?_
      by_cases hut : u = t
      · subst hut
        rcases howed n hu with hpc | hfalse
        · exact ⟨u, by rw [State.goto_self]; exact hpc⟩
        · cases hcallback.symm.trans hfalse
      · exact ⟨u, by rw [State.goto_of_ne s pc hut]; exact hu⟩

/-- A thread takes the lock for a poll. -/
theorem Inv.lock (h : Inv s) (hlock : s.lock = none) {n : Nat} (hn : s.slot = some n)
    (ht : (s.pcs t).reports = none) : Inv ({ s with lock := some t }.goto t (.polling n)) := by
  have hback (u : T) (m : Nat)
      (hu : (({ s with lock := some t }.goto t (.polling n)).pcs u).reports = some m) :
      (s.pcs u).reports = some m := by
    by_cases hut : u = t
    · subst hut
      rw [State.goto_self] at hu
      cases hu
    · rwa [State.goto_of_ne _ _ hut] at hu
  refine { h with
    holder := fun u m hu => ?_
    held := fun u hu => ?_
    reports := fun u m hu => h.reports u m (hback u m hu)
    reporter := fun u v m hu hv => h.reporter u v m (hback u m hu) (hback v m hv)
    complete := fun u m hu => ?_
    owed := fun m hdone hcallback => ?_ }
  · by_cases hut : u = t
    · subst hut
      rw [State.goto_self] at hu
      cases hu
      exact ⟨rfl, hn⟩
    · rw [State.goto_of_ne _ _ hut] at hu
      cases hlock.symm.trans (h.holder u m hu).1
  · cases hu
    exact ⟨n, State.goto_self ..⟩
  · by_cases hut : u = t
    · subst hut
      rw [State.goto_self] at hu
      cases hu
    · rw [State.goto_of_ne _ _ hut] at hu
      exact h.complete u m hu
  · refine (h.owed m hdone hcallback).imp_right ?_
    rintro ⟨u, hu⟩
    have hut : u ≠ t := by
      rintro rfl
      cases ht.symm.trans hu
    exact ⟨u, by rw [State.goto_of_ne _ _ hut]; exact hu⟩

omit [DecidableEq T] in
/-- A future that is not done has no one to report it. -/
theorem Inv.not_reports (h : Inv s) {n m : Nat} (hn : ¬(s.futures n).Done) {u : T}
    (hu : (s.pcs u).reports = some m) : m ≠ n := by
  rintro rfl
  exact hn (h.reports u m hu).1

/-- What a poll leaves of its future. -/
theorem Inv.polled (h : Inv s) {n : Nat} (ht : s.pcs t = .polling n) (result : PollResult) :
    Inv ((s.polled n result).goto t (result.next n)) := by
  obtain ⟨hlock, hslot⟩ := h.holder t n ht
  obtain ⟨hlt, hpending⟩ := h.waiting n hslot
  have hnot := h.not_done hslot
  have hzero : (s.futures n).completions = 0 := by
    by_contra hne
    exact hnot (h.completed n hne).2.2
  have hself : ((s.polled n result).goto t (result.next n)).futures n =
      { s.futures n with polls := (s.futures n).polls ++ [result] } := Function.update_self ..
  have hother {m : Nat} (hm : m ≠ n) :
      ((s.polled n result).goto t (result.next n)).futures m = s.futures m :=
    Function.update_of_ne hm ..
  have hpcs {u : T} (hu : u ≠ t) : ((s.polled n result).goto t (result.next n)).pcs u = s.pcs u :=
    State.goto_of_ne _ _ hu
  have hdone : (((s.polled n result).goto t (result.next n)).futures n).Done ↔ result = .ready := by
    rw [hself, Future.Done, List.getLast?_concat, Option.some.injEq]
  have hreports {u : T} {m : Nat}
      (hu : (((s.polled n result).goto t (result.next n)).pcs u).reports = some m) :
      u = t ∧ m = n ∧ result = .ready ∨ u ≠ t ∧ m ≠ n ∧ (s.pcs u).reports = some m := by
    by_cases hut : u = t
    · subst hut
      rw [State.goto_self] at hu
      cases result <;> cases hu
      exact .inl ⟨rfl, rfl, rfl⟩
    · rw [hpcs hut] at hu
      exact .inr ⟨hut, h.not_reports hnot hu, hu⟩
  refine ⟨fun u m hu => ?_, nofun, fun m hm => ?_, fun m hm => ?_, fun m r hr => ?_,
    fun u m hu => ?_, fun u v m hu hv => ?_, fun u m hu => ?_, fun m hm => ?_,
    fun m hm hcallback => ?_, h.marks⟩
  · by_cases hut : u = t
    · subst hut
      rw [State.goto_self] at hu
      cases result <;> cases hu
    · rw [hpcs hut] at hu
      cases hlock.symm.trans (h.holder u m hu).1
      exact absurd rfl hut
  · have hm : (if result = PollResult.pending then some n else none) = some m := hm
    split at hm <;> cases hm
    rename_i hresult
    refine ⟨hlt, fun r hr => ?_⟩
    rw [hself, hresult] at hr
    rcases List.mem_append.mp hr with hr | hr
    · exact hpending r hr
    · exact List.mem_singleton.mp hr
  · have hm : s.armed ≤ m := hm
    rw [hother (by omega)]
    exact h.fresh m hm
  · by_cases hm : m = n
    · subst hm
      rw [hself, List.dropLast_concat] at hr
      exact hpending r hr
    · rw [hother hm] at hr
      exact h.history m r hr
  · rcases hreports hu with ⟨-, rfl, hresult⟩ | ⟨-, hm, hu⟩
    · exact ⟨hdone.mpr hresult, by rw [hself]; exact hzero⟩
    · rw [hother hm]
      exact h.reports u m hu
  · rcases hreports hu with ⟨hut, hm, -⟩ | ⟨-, hm, hu⟩ <;>
      rcases hreports hv with ⟨hvt, hm', -⟩ | ⟨-, hm', hv⟩
    · exact hut.trans hvt.symm
    · exact absurd hm hm'
    · exact absurd hm' hm
    · exact h.reporter u v m hu hv
  · by_cases hut : u = t
    · subst hut
      rw [State.goto_self] at hu
      cases result <;> cases hu
    · rw [hpcs hut] at hu
      rw [hother (h.not_reports hnot (by rw [hu]; rfl))]
      exact h.complete u m hu
  · by_cases hmn : m = n
    · subst hmn
      rw [hself] at hm
      exact absurd hzero hm
    · rw [hother hmn] at hm ⊢
      exact h.completed m hm
  · by_cases hmn : m = n
    · subst hmn
      refine .inr ⟨t, ?_⟩
      rw [State.goto_self, hdone.mp hm]
      rfl
    · rw [hother hmn] at hm hcallback ⊢
      refine (h.owed m hm hcallback).imp_right ?_
      rintro ⟨u, hu⟩
      have hut : u ≠ t := by
        rintro rfl
        rw [ht] at hu
        cases hu
      exact ⟨u, by rw [hpcs hut]; exact hu⟩

/-- A thread calls the completion callback of its future. -/
theorem Inv.callback (h : Inv s) {n : Nat} (ht : s.pcs t = .complete n) :
    Inv ((s.setFuture n
      { s.futures n with completions := (s.futures n).completions + 1 }).goto t
        (.polled .ready)) := by
  have htn : (s.pcs t).reports = some n := by
    rw [ht]
    rfl
  obtain ⟨hdone, hzero⟩ := h.reports t n htn
  set s₁ := (s.setFuture n
    { s.futures n with completions := (s.futures n).completions + 1 }).goto t
      (.polled .ready) with hs₁
  have hself : s₁.futures n = { s.futures n with completions := 1 } := by
    rw [hs₁]
    simp only [State.goto, State.setFuture, Function.update_self, hzero]
  have hother {m : Nat} (hm : m ≠ n) : s₁.futures m = s.futures m := Function.update_of_ne hm ..
  have hpcs {u : T} (hu : u ≠ t) : s₁.pcs u = s.pcs u := State.goto_of_ne _ _ hu
  have hpct : s₁.pcs t = .polled .ready := State.goto_self ..
  have hreports {u : T} {m : Nat} (hu : (s₁.pcs u).reports = some m) :
      m ≠ n ∧ u ≠ t ∧ (s.pcs u).reports = some m := by
    by_cases hut : u = t
    · subst hut
      rw [hpct] at hu
      cases hu
    · rw [hpcs hut] at hu
      refine ⟨?_, hut, hu⟩
      rintro rfl
      exact hut (h.reporter u t m hu htn)
  have hsame (m : Nat) : (s₁.futures m).polls = (s.futures m).polls ∧
      (s₁.futures m).onComplete = (s.futures m).onComplete := by
    by_cases hm : m = n
    · subst hm
      rw [hself]
      exact ⟨rfl, rfl⟩
    · rw [hother hm]
      exact ⟨rfl, rfl⟩
  refine ⟨fun u m hu => ?_, fun u hu => ?_, fun m hm => ?_, fun m hm => ?_, fun m r hr => ?_,
    fun u m hu => ?_, fun u v m hu hv => ?_, fun u m hu => ?_, fun m hm => ?_,
    fun m hm hcallback => ?_, h.marks⟩
  · by_cases hut : u = t
    · subst hut
      rw [hpct] at hu
      cases hu
    · rw [hpcs hut] at hu
      exact h.holder u m hu
  · obtain ⟨m, hm⟩ := h.held u hu
    have hut : u ≠ t := by
      rintro rfl
      cases ht.symm.trans hm
    exact ⟨m, (hpcs hut).trans hm⟩
  · rw [(hsame m).1]
    exact h.waiting m hm
  · obtain ⟨hpolls, hcompletions⟩ := h.fresh m hm
    have hmn : m ≠ n := by
      rintro rfl
      rw [Future.Done, hpolls] at hdone
      cases hdone
    rw [hother hmn]
    exact ⟨hpolls, hcompletions⟩
  · rw [(hsame m).1] at hr
    exact h.history m r hr
  · obtain ⟨hmn, -, hu⟩ := hreports hu
    rw [hother hmn]
    exact h.reports u m hu
  · exact h.reporter u v m (hreports hu).2.2 (hreports hv).2.2
  · have hut : u ≠ t := by
      rintro rfl
      rw [hpct] at hu
      cases hu
    rw [hpcs hut] at hu
    rw [(hsame m).2]
    exact h.complete u m hu
  · by_cases hmn : m = n
    · subst hmn
      rw [hself]
      exact ⟨rfl, h.complete t m ht, hdone⟩
    · rw [hother hmn] at hm ⊢
      exact h.completed m hm
  · by_cases hmn : m = n
    · subst hmn
      rw [hself]
      exact .inl rfl
    · rw [hother hmn] at hm hcallback ⊢
      refine (h.owed m hm hcallback).imp_right ?_
      rintro ⟨u, hu⟩
      have hut : u ≠ t := by
        rintro rfl
        exact hmn (Option.some.inj (hu.symm.trans htn))
      exact ⟨u, by rw [hpcs hut]; exact hu⟩

theorem Inv.call (h : Inv s) {result : PollResult} (hs : callStep s t result = some s') :
    Inv s' := by
  -- a thread that neither has the lock nor anything to report
  have hplain {q : State T} {pc : Pc} (hq : Inv q) (hpcs : q.pcs = s.pcs)
      (hpc : ∀ n, s.pcs t ≠ .polling n) (hreports : (s.pcs t).reports = none)
      (hpc' : pc.reports = none) (hpoll : ∀ n, pc ≠ .polling n)
      (hcomplete : ∀ n, pc ≠ .complete n) : Inv (q.goto t pc) := by
    refine hq.goto (hpcs ▸ hpc) hpoll (fun n hn => ?_) (fun n hn => ?_)
      fun n hn => absurd hn (hcomplete n)
    · cases hpc'.symm.trans hn
    · rw [hpcs, hreports] at hn
      cases hn
  unfold callStep at hs
  cases hpc : s.pcs t with
  | idle | marked | polled => simp [hpc] at hs
  | armSlot onComplete =>
    simp only [hpc] at hs
    split at hs <;> cases hs
    refine hplain (h.arm ‹_› onComplete) rfl ?_ ?_ rfl nofun nofun <;> rw [hpc]
    · exact nofun
    · rfl
  | armActivate | clearActive =>
    simp only [hpc, Option.some.injEq] at hs
    subst hs
    refine hplain (h.flags h.marks) rfl ?_ ?_ rfl nofun nofun <;> rw [hpc]
    · exact nofun
    · rfl
  | armUnmark | clearUnmark | pollUnmark =>
    simp only [hpc, Option.some.injEq] at hs
    subst hs
    refine hplain h.unmark rfl ?_ ?_ rfl nofun nofun <;> rw [hpc]
    · exact nofun
    · rfl
  | clearSlot =>
    simp only [hpc] at hs
    split at hs <;> cases hs
    refine hplain (h.clear ‹_›) rfl ?_ ?_ rfl nofun nofun <;> rw [hpc]
    · exact nofun
    · rfl
  | markActive =>
    simp only [hpc, Option.some.injEq] at hs
    subst hs
    cases s.isActive
    all_goals
      refine hplain h rfl ?_ ?_ rfl nofun nofun <;> rw [hpc]
      · exact nofun
      · rfl
  | markSwap =>
    simp only [hpc] at hs
    split at hs <;> cases hs
    · refine hplain h rfl ?_ ?_ rfl nofun nofun <;> rw [hpc]
      · exact nofun
      · rfl
    · rename_i hunmarked
      refine hplain (h.flags ?_) rfl ?_ ?_ rfl nofun nofun
      · have hmarks := h.marks
        rw [if_neg hunmarked] at hmarks
        rw [if_pos rfl]
        exact Nat.succ_le_succ hmarks
      · rw [hpc]
        exact nofun
      · rw [hpc]
        rfl
  | pollSlot =>
    simp only [hpc] at hs
    split at hs
    · split at hs <;> cases hs
      · refine hplain (h.flags h.marks) rfl ?_ ?_ rfl nofun nofun <;> rw [hpc]
        · exact nofun
        · rfl
      · exact h.lock ‹_› ‹_› (by rw [hpc]; rfl)
    · cases hs
  | polling n =>
    simp only [hpc, Option.some.injEq] at hs
    subst hs
    exact h.polled hpc result
  | pollDeactivate n ready =>
    simp only [hpc, Option.some.injEq] at hs
    subst hs
    refine (h.flags h.marks).goto ?_ nofun ?_ ?_ nofun <;> dsimp only <;> rw [hpc]
    · exact nofun
    · cases ready <;> exact fun _ => id
    · cases ready
      · exact nofun
      · exact fun _ => .inl
  | pollReset n ready =>
    simp only [hpc, Option.some.injEq] at hs
    subst hs
    have hreset (m : Nat) (hm : (s.pcs t).reports = some m) : ready = true ∧ m = n := by
      rw [hpc] at hm
      cases ready <;> cases hm
      exact ⟨rfl, rfl⟩
    cases ready with
    | false =>
      refine h.unmark.goto ?_ nofun nofun (fun m hm => ?_) nofun
      · exact fun m hm => nomatch hpc.symm.trans hm
      · cases (hreset m hm).1
    | true =>
      cases hcallback : (s.futures n).onComplete with
      | false =>
        refine h.unmark.goto ?_ nofun nofun (fun m hm => ?_) nofun
        · exact fun m hm => nomatch hpc.symm.trans hm
        · rw [(hreset m hm).2]
          exact .inr hcallback
      | true =>
        refine h.unmark.goto ?_ nofun (fun m hm => ?_) (fun m hm => ?_) fun m hm => ?_
        · exact fun m hm => nomatch hpc.symm.trans hm
        · cases hm
          change (s.pcs t).reports = some n
          rw [hpc]
          rfl
        · rw [(hreset m hm).2]
          exact .inl rfl
        · cases hm
          exact hcallback
  | complete n =>
    simp only [hpc, Option.some.injEq] at hs
    subst hs
    exact h.callback hpc

omit [DecidableEq T] in
theorem Pc.rests_reports {pc : Pc} (h : pc.rests = true) :
    pc.reports = none ∧ ∀ n, pc ≠ .polling n := by
  cases pc with
  | idle | marked | polled => exact ⟨rfl, nofun⟩
  | _ => cases h

/-- A call begins. -/
theorem Inv.begin (h : Inv s) {pc : Pc}
    (hs : (if (s.pcs t).rests then some (s.goto t pc) else none) = some s')
    (hreports : pc.reports = none) (hpoll : ∀ n, pc ≠ .polling n)
    (hcomplete : ∀ n, pc ≠ .complete n) : Inv s' := by
  split at hs <;> cases hs
  obtain ⟨hnone, hpc⟩ := Pc.rests_reports ‹_›
  refine h.goto hpc hpoll (fun n hn => ?_) (fun n hn => ?_) fun n hn => absurd hn (hcomplete n)
  · cases hreports.symm.trans hn
  · cases hnone.symm.trans hn

theorem Inv.step (h : Inv s) {a : Action T} (hs : step s a = some s') : Inv s' := by
  cases a with
  | arm t | clear t | tryMarkPollScheduled t | poll t => exact h.begin hs rfl nofun nofun
  | call t result => exact h.call hs

theorem inv_of_reach (h : Reach (machine T) Machine.free s) : Inv s := by
  refine h.inv Inv ?_ fun hi _ hs => hi.step hs
  rintro _ rfl
  exact new_inv T

/-! ## The protocol -/

/-- **The protocol of a poll driver.** In every run, whoever calls it when: no two polls of futures
overlap; what is polled is the future in the slot, and it has been pending till then; so a future
that has returned `Ready` or panicked is not polled again. A completion callback is called at most
once, after its future has returned `Ready`; one that is due has been called, or one thread is on
its way to it. `try_mark_poll_scheduled` returns `true` at most once for each time the mark is
cleared, and once before. -/
theorem poll_protocol (h : Reach (machine T) Machine.free s) :
    (∀ t u n m, s.pcs t = .polling n → s.pcs u = .polling m → t = u) ∧
    (∀ t n, s.pcs t = .polling n → s.slot = some n ∧ ∀ r ∈ (s.futures n).polls, r = .pending) ∧
    (∀ n, ∀ r ∈ (s.futures n).polls.dropLast, r = .pending) ∧
    (∀ n, (s.futures n).completions ≤ 1 ∧ ((s.futures n).completions = 1 →
      (s.futures n).onComplete = true ∧ (s.futures n).polls.getLast? = some .ready)) ∧
    (∀ n, (s.futures n).polls.getLast? = some .ready → (s.futures n).onComplete = true →
      (s.futures n).completions = 1 ∨
        (s.futures n).completions = 0 ∧ ∃! t, (s.pcs t).reports = some n) ∧
    s.marks ≤ s.unmarks + 1 := by
  have hinv := inv_of_reach h
  refine ⟨fun t u n m ht hu => ?_, fun t n ht => ?_, hinv.history, fun n => ⟨?_, fun hone => ?_⟩,
    fun n hdone hcallback => ?_, ?_⟩
  · have hlock := (hinv.holder t n ht).1
    rw [(hinv.holder u m hu).1] at hlock
    exact (Option.some.inj hlock).symm
  · obtain ⟨-, hslot⟩ := hinv.holder t n ht
    exact ⟨hslot, (hinv.waiting n hslot).2⟩
  · by_cases hzero : (s.futures n).completions = 0
    · exact hzero ▸ Nat.zero_le 1
    · exact Nat.le_of_eq (hinv.completed n hzero).1
  · exact (hinv.completed n (hone ▸ Nat.one_ne_zero)).2
  · rcases hinv.owed n hdone hcallback with hone | ⟨t, ht⟩
    · exact .inl hone
    · exact .inr ⟨(hinv.reports t n ht).2, t, ht, fun u hu => hinv.reporter u t n hu ht⟩
  · have hmarks := hinv.marks
    split at hmarks <;> omega

end

/-- One thread polls a future to its end while another arms the next; the callback is still due. -/
def armedBetween : State Bool :=
  ((machine Bool).run (new Bool)
    ([.arm true true] ++ List.replicate 3 (.call true .pending) ++ [.tryMarkPollScheduled false] ++
      List.replicate 2 (.call false .pending) ++ [.poll true] ++
      List.replicate 3 (.call true .pending) ++ [.poll true] ++
      List.replicate 3 (.call true .ready) ++ [.arm false true] ++
      List.replicate 3 (.call false .pending) ++
      List.replicate 2 (.call true .pending))).get (by decide +kernel)

theorem poll_protocol_armedBetween :
    (armedBetween.futures 0).polls = [.pending, .ready] ∧
      ((armedBetween.futures 0).completions = 1 ∨
        (armedBetween.futures 0).completions = 0 ∧
          ∃! t, (armedBetween.pcs t).reports = some 0) := by
  have hpolls : (armedBetween.futures 0).polls = [.pending, .ready] := by decide +kernel
  have hcallback : (armedBetween.futures 0).onComplete = true := by decide +kernel
  have hreach : Reach (machine Bool) Machine.free armedBetween := .get_free rfl _
  refine ⟨hpolls, (poll_protocol hreach).2.2.2.2.1 0 ?_ hcallback⟩
  rw [hpolls]
  rfl

end DignusActor.PollDriver
