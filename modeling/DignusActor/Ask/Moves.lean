import DignusActor.Ask.AskSystem

/-! # The steps of the ask system

What each step does to the awaiters (`State.Later`) and to the sweeper's table (`State.Move`), said
once for the steps outside `stop`, and what a step of `stop` does (`State.StopMove`). -/

namespace DignusActor.Ask

variable {T M W : Type} [DecidableEq T]

/-! ## What a step does to an awaiter -/

/-- What the steps may do to an awaiter. -/
structure Awaiter.Le (w w' : Awaiter M W) : Prop where
  address : w'.address = w.address
  deadline : w'.deadline = w.deadline
  alive : w'.alive = true → w.alive = true
  completed : w.completed = true → w'.completed = true

namespace Awaiter

variable (w : Awaiter M W)

theorem Le.refl : Le w w := ⟨rfl, rfl, id, id⟩

theorem le_complete (response : Option M) (timedOut : Bool) :
    Le w (w.complete response timedOut) := by
  unfold complete
  split
  · exact .refl w
  · exact ⟨rfl, rfl, id, fun _ => rfl⟩

theorem le_upgrade : Le w w.upgrade := ⟨rfl, rfl, id, id⟩

theorem le_drop : Le w w.drop := ⟨rfl, rfl, id, id⟩

theorem le_poll (willWake : W → W → Bool) (waker : W) : Le w (w.poll willWake waker).1 := by
  have hpending (replace : Bool) :
      Le w (if replace then { w with waker := some waker } else w) := by
    cases replace
    · exact .refl w
    · exact ⟨rfl, rfl, id, id⟩
  unfold poll
  split
  · split
    · exact .refl w
    · split
      · exact .refl w
      · exact ⟨rfl, rfl, id, id⟩
  · exact hpending _

theorem setTimeout_completed : w.setTimeout.completed = true := by
  unfold setTimeout complete
  split
  · assumption
  · rfl

end Awaiter

/-- Every awaiter that was allocated before the step is what it was, up to `Awaiter.Le`. -/
def State.Later (s t : State T M W) : Prop :=
  ∀ a < s.allocated, ∀ w', t.awaiters a = some w' → ∃ w, s.awaiters a = some w ∧ w.Le w'

section Later

variable {s t : State T M W}

omit [DecidableEq T] in
theorem State.Later.of_awaiters (h : t.awaiters = s.awaiters) : s.Later t :=
  fun _ _ w' hw => ⟨w', h ▸ hw, .refl w'⟩

omit [DecidableEq T] in
theorem State.Later.set {a : Nat} {w w' : Awaiter M W} (ha : s.awaiters a = some w)
    (hle : w.Le w') (h : t.awaiters = Function.update s.awaiters a (some w')) : s.Later t := by
  intro b _ v hv
  rw [h] at hv
  by_cases hb : b = a
  · subst hb
    rw [Function.update_self] at hv
    cases hv
    exact ⟨w, ha, hle⟩
  · rw [Function.update_of_ne hb] at hv
    exact ⟨v, hv, .refl v⟩

omit [DecidableEq T] in
theorem State.Later.modify {a : Nat} {f : Awaiter M W → Awaiter M W} (hf : ∀ w, Awaiter.Le w (f w))
    (h : t.awaiters = (s.modify a f).awaiters) : s.Later t := by
  unfold State.modify at h
  split at h
  · rename_i w hw
    exact .set hw (hf w) h
  · exact .of_awaiters h

end Later

/-! ## What a step does to the table -/

/-- A step that neither the table nor the sweeper notices. -/
structure State.SameTable (s t : State T M W) : Prop where
  slotCount : t.slotCount = s.slotCount
  slots : t.slots = s.slots
  sweeper : t.sweeper = s.sweeper
  registered : t.registered = s.registered
  passBegan : t.passBegan = s.passBegan
  passes : t.passes = s.passes

/-- The caller is in `stop`. -/
def CallerPc.Stopping : CallerPc M → Prop
  | .stopSwap | .stopNotify | .stopJoin | .stopSlot _ | .stopUpgrade .. | .stopTimeout ..
  | .stopDrop .. => True
  | _ => False

omit [DecidableEq T] in
theorem State.modify_eq (s : State T M W) (a : Nat) (f : Awaiter M W → Awaiter M W) :
    s.modify a f =
      { s with awaiters := Function.update s.awaiters a ((s.awaiters a).map f) } := by
  unfold State.modify
  split
  · rename_i w hw
    rw [hw]
    rfl
  · rename_i hw
    rw [hw, Option.map_none, ← hw, Function.update_eq_self]

/-- The awaiters that the sweeper has taken out of the table and will time out. -/
def SweeperPc.Holds : SweeperPc → Nat → Prop
  | .scan _ _ expired _, a | .setTimeout _ expired _, a | .drop _ _ expired _, a => a ∈ expired
  | .upgrade _ _ expired _ entry, a => a ∈ expired ∨ a = entry.askAwaiter
  | _, _ => False

/-- The clock that the pass in progress has read. -/
def SweeperPc.now : SweeperPc → Option Nat
  | .scan now .. | .upgrade now .. | .setTimeout now .. | .drop now .. => some now
  | _ => none

/-- The pass in progress has yet to look at slot `j`. -/
def SweeperPc.Ahead : SweeperPc → Nat → Prop
  | .scan _ i .., j => i ≤ j
  | .upgrade _ i .., j => i < j
  | _, _ => False

/-- What a step of the sweeper does. -/
inductive State.Sweep (s t : State T M W) : Prop
  | between (pc : SweeperPc) : s.sweeper.now = none → s.sweeper ≠ .readClock → pc.now = none →
    t = { s with sweeper := pc } → s.Sweep t
  | readClock : s.sweeper = .readClock →
    t = { s with sweeper := .scan s.clock 0 [] none, passBegan := s.registered.length } →
    s.Sweep t
  | skip (now i : Nat) (expired : List Nat) (nextDeadline nextDeadline' : Option Nat) :
    s.sweeper = .scan now i expired nextDeadline → i < s.slotCount →
    (∀ entry, s.slots i = some entry → now < entry.deadline) →
    t = { s with sweeper := .scan now (i + 1) expired nextDeadline' } → s.Sweep t
  | take (now i : Nat) (expired : List Nat) (nextDeadline : Option Nat) (entry : AskSlot) :
    s.sweeper = .scan now i expired nextDeadline → s.slots i = some entry →
    t = { s.setSlot i none with sweeper := .upgrade now i expired nextDeadline entry } →
    s.Sweep t
  | scanned (now i : Nat) (expired : List Nat) (nextDeadline : Option Nat) :
    s.sweeper = .scan now i expired nextDeadline → s.slotCount ≤ i →
    t = { s with sweeper := .setTimeout now expired nextDeadline } → s.Sweep t
  | upgrade (now i : Nat) (expired : List Nat) (nextDeadline : Option Nat) (entry : AskSlot) :
    s.sweeper = .upgrade now i expired nextDeadline entry →
    t = { s.modify entry.askAwaiter .upgrade with
      sweeper := .scan now (i + 1) (expired ++ [entry.askAwaiter]) nextDeadline } → s.Sweep t
  | gone (now i : Nat) (expired : List Nat) (nextDeadline : Option Nat) (entry : AskSlot) :
    s.sweeper = .upgrade now i expired nextDeadline entry →
    s.upgradable entry.askAwaiter = false →
    t = { s with sweeper := .scan now (i + 1) expired nextDeadline } → s.Sweep t
  | timeout (now a : Nat) (expired : List Nat) (nextDeadline : Option Nat) :
    s.sweeper = .setTimeout now (a :: expired) nextDeadline →
    t = { s.modify a .setTimeout with sweeper := .drop now a expired nextDeadline } → s.Sweep t
  | drop (now a : Nat) (expired : List Nat) (nextDeadline : Option Nat) :
    s.sweeper = .drop now a expired nextDeadline →
    t = { s.modify a .drop with sweeper := .setTimeout now expired nextDeadline } → s.Sweep t
  | finish (now : Nat) (nextDeadline : Option Nat) :
    s.sweeper = .setTimeout now [] nextDeadline →
    t = { s with
      sweeper := .waitDuration nextDeadline
      passes := s.passes ++ [(now, s.passBegan)] } → s.Sweep t

omit [DecidableEq T] in
theorem sweeperStep_sweep {s t : State T M W} (h : sweeperStep s = some t) : s.Sweep t := by
  unfold sweeperStep at h
  cases hpc : s.sweeper with
  | start | recheck =>
    simp only [hpc, Option.some.injEq] at h
    subst h
    exact .between _ (hpc ▸ rfl) (by simp [hpc]) (by split <;> rfl) rfl
  | readClock =>
    simp only [hpc, Option.some.injEq] at h
    exact .readClock hpc h.symm
  | waitDuration | lock | wait =>
    simp only [hpc, Option.some.injEq] at h
    subst h
    exact .between _ (hpc ▸ rfl) (by simp [hpc]) rfl rfl
  | scan now i expired nextDeadline =>
    simp only [hpc] at h
    split at h
    · rename_i hi
      split at h
      · rename_i hslot
        cases h
        exact .skip now i expired _ _ hpc hi (by simp [hslot]) rfl
      · rename_i entry hslot
        split at h <;> cases h
        · exact .take now i expired _ entry hpc hslot rfl
        · rename_i hkeep
          refine .skip now i expired _ _ hpc hi (fun entry' hentry' => ?_) rfl
          cases hslot.symm.trans hentry'
          simp only [Bool.or_eq_true, decide_eq_true_eq, not_or] at hkeep
          exact Nat.lt_of_not_le hkeep.1
    · rename_i hi
      cases h
      exact .scanned now i expired _ hpc (Nat.le_of_not_lt hi) rfl
  | upgrade now i expired nextDeadline entry =>
    simp only [hpc] at h
    split at h <;> cases h
    · exact .upgrade now i expired _ entry hpc rfl
    · rename_i hgone
      exact .gone now i expired _ entry hpc (Bool.eq_false_iff.mpr hgone) rfl
  | setTimeout now expired nextDeadline =>
    cases expired with
    | nil =>
      simp only [hpc, Option.some.injEq] at h
      exact .finish now _ hpc h.symm
    | cons a expired =>
      simp only [hpc, Option.some.injEq] at h
      exact .timeout now a expired _ hpc h.symm
  | drop now a expired nextDeadline =>
    simp only [hpc, Option.some.injEq] at h
    exact .drop now a expired _ hpc h.symm
  | exited => simp [hpc] at h

/-- The part of the state that the sweeper only reads. -/
structure State.SameCalls (s t : State T M W) : Prop where
  callers : t.callers = s.callers
  allocated : t.allocated = s.allocated
  slotCount : t.slotCount = s.slotCount
  registered : t.registered = s.registered
  later : s.Later t

omit [DecidableEq T] in
theorem State.Sweep.sameCalls {s t : State T M W} (h : s.Sweep t) : s.SameCalls t := by
  have hmodify (a : Nat) (f : Awaiter M W → Awaiter M W) (hf : ∀ w, Awaiter.Le w (f w))
      (pc : SweeperPc) : s.SameCalls { s.modify a f with sweeper := pc } := by
    refine ⟨?_, ?_, ?_, ?_, .modify hf rfl⟩ <;> rw [State.modify_eq]
  cases h with
  | between _ _ _ _ h | readClock _ h | skip _ _ _ _ _ _ _ _ h | take _ _ _ _ _ _ _ h
  | scanned _ _ _ _ _ _ h | gone _ _ _ _ _ _ _ h | finish _ _ _ h =>
    subst h
    exact ⟨rfl, rfl, rfl, rfl, .of_awaiters rfl⟩
  | upgrade _ _ _ _ _ _ h =>
    subst h
    exact hmodify _ _ Awaiter.le_upgrade _
  | timeout _ _ _ _ _ h =>
    subst h
    exact hmodify _ _ (fun w => w.le_complete _ _) _
  | drop _ _ _ _ _ h =>
    subst h
    exact hmodify _ _ Awaiter.le_drop _

/-- What a step outside `stop` does. -/
inductive State.Move (s : State T M W) (act : Action T M W) (t : State T M W) : Prop
  | quiet : s.SameTable t → s.Move act t
  | reserve (x : T) (a : Nat) (w : Awaiter M W) : act = .call x → s.callers x = .reserveSlot a →
    s.awaiters a = some w →
    t = { (s.setSlot (s.startIndex w.address) (some ⟨a, w.deadline⟩)).setCaller x .idle with
      registered := s.registered ++ [a] } → s.Move act t
  | sweep : s.Sweep t → s.Move act t

/-- What holds between the two states of a step outside `stop`. -/
structure State.Follows (s : State T M W) (act : Action T M W) (t : State T M W) : Prop where
  move : s.Move act t
  later : s.Later t
  allocated : s.allocated ≤ t.allocated
  callers (y : T) : t.callers y = s.callers y ∨
    ¬(t.callers y).Stopping ∧ ∀ a, t.callers y = .reserveSlot a → a < t.allocated

theorem State.setCaller_callers (s : State T M W) (x y : T) (pc : CallerPc M) :
    (s.setCaller x pc).callers y = s.callers y ∨ (s.setCaller x pc).callers y = pc := by
  by_cases hy : y = x
  · subst hy
    exact .inr (Function.update_self ..)
  · exact .inl (Function.update_of_ne hy ..)

/-- A caller that goes on to `pc` brings neither `stop` nor an unallocated awaiter in. -/
theorem State.setCaller_follows {s u t : State T M W} {x : T} {pc : CallerPc M}
    (hcallers : t.callers = (u.setCaller x pc).callers) (hu : u.callers = s.callers)
    (hstop : ¬pc.Stopping) (hres : ∀ a, pc = .reserveSlot a → a < t.allocated) (y : T) :
    t.callers y = s.callers y ∨
      ¬(t.callers y).Stopping ∧ ∀ a, t.callers y = .reserveSlot a → a < t.allocated := by
  rw [hcallers]
  rcases u.setCaller_callers x y pc with h | h <;> rw [h]
  · exact .inl (congrFun hu y)
  · exact .inr ⟨hstop, hres⟩

theorem State.modify_follows {s : State T M W} {act : Action T M W} {x : T} {a : Nat}
    {f : Awaiter M W → Awaiter M W} {pc : CallerPc M} (hf : ∀ w, Awaiter.Le w (f w))
    (hstop : ¬pc.Stopping)
    (hres : ∀ a, pc ≠ .reserveSlot a) : s.Follows act ((s.modify a f).setCaller x pc) := by
  refine ⟨.quiet ?_, .modify hf rfl, ?_,
    State.setCaller_follows rfl ?_ hstop fun a ha => absurd ha (hres a)⟩ <;>
    rw [State.modify_eq]
  · exact ⟨rfl, rfl, rfl, rfl, rfl, rfl⟩
  · exact Nat.le_refl _

/-- A caller's step touches the table only in `reserve_slot`. -/
theorem callerStep_follows {s t : State T M W} {x : T} (h : callerStep s x = some t)
    (hstop : ¬(s.callers x).Stopping) : s.Follows (.call x) t := by
  unfold callerStep at h
  cases hpc : s.callers x with
  | idle | panicked => simp [hpc] at h
  | registerStopped =>
    simp only [hpc, Option.some.injEq] at h
    subst h
    refine ⟨.quiet ⟨rfl, rfl, rfl, rfl, rfl, rfl⟩, .of_awaiters rfl, Nat.le_refl _,
      State.setCaller_follows rfl rfl ?_ ?_⟩
    · split <;> exact id
    · split <;> exact nofun
  | registerClock =>
    simp only [hpc, Option.some.injEq] at h
    subst h
    refine ⟨.quiet ⟨rfl, rfl, rfl, rfl, rfl, rfl⟩, fun a ha w hw => ?_, Nat.le_succ _,
      State.setCaller_follows rfl rfl id fun a ha => ?_⟩
    · -- the new awaiter is not one of those allocated before
      exact ⟨w, by simpa [State.setCaller, State.setAwaiter, Nat.ne_of_lt ha] using hw, .refl w⟩
    · cases ha
      exact Nat.lt_succ_self _
  | reserveSlot a =>
    simp only [hpc, Option.map_eq_some_iff] at h
    obtain ⟨w, hw, rfl⟩ := h
    exact ⟨.reserve x a w rfl hpc hw rfl, .of_awaiters rfl, Nat.le_refl _,
      State.setCaller_follows rfl rfl id nofun⟩
  | replyUpgrade a message =>
    simp only [hpc] at h
    split at h <;> cases h
    · exact State.modify_follows Awaiter.le_upgrade id nofun
    · exact ⟨.quiet ⟨rfl, rfl, rfl, rfl, rfl, rfl⟩, .of_awaiters rfl, Nat.le_refl _,
        State.setCaller_follows rfl rfl id nofun⟩
  | setResponse a message =>
    simp only [hpc, Option.some.injEq] at h
    subst h
    exact State.modify_follows (fun w => w.le_complete _ _) id nofun
  | replyDrop a =>
    simp only [hpc, Option.some.injEq] at h
    subst h
    exact State.modify_follows Awaiter.le_drop id nofun
  | stopSwap | stopNotify | stopJoin | stopSlot | stopUpgrade | stopTimeout | stopDrop =>
    exact absurd (hpc ▸ trivial) hstop

theorem State.begin_follows {s t : State T M W} {act : Action T M W} {x : T} {pc : CallerPc M}
    (h : s.begin x pc = some t) (hstop : ¬pc.Stopping) (hres : ∀ a, pc ≠ .reserveSlot a) :
    s.Follows act t := by
  unfold State.begin at h
  split at h
  · cases h
    exact ⟨.quiet ⟨rfl, rfl, rfl, rfl, rfl, rfl⟩, .of_awaiters rfl, Nat.le_refl _,
      State.setCaller_follows rfl rfl hstop fun a ha => absurd ha (hres a)⟩
  · cases h

/-- The actions of a run in which nobody calls `stop`. -/
def Action.isStop : Action T M W → Bool
  | .stop _ => true
  | _ => false

theorem step_follows {willWake : W → W → Bool} {s t : State T M W} {act : Action T M W}
    (h : step willWake s act = some t) (hact : act.isStop = false)
    (hstop : ∀ x, act = .call x → ¬(s.callers x).Stopping) : s.Follows act t := by
  have hset {a : Nat} {w w' : Awaiter M W} (hw : s.awaiters a = some w) (hle : w.Le w') :
      s.Follows act (s.setAwaiter a w') :=
    ⟨.quiet ⟨rfl, rfl, rfl, rfl, rfl, rfl⟩, .set hw hle rfl, Nat.le_refl _, fun _ => .inl rfl⟩
  cases act with
  | register => exact State.begin_follows h id nofun
  | reply x a message =>
    simp only [step] at h
    split at h
    · exact State.begin_follows h id nofun
    · cases h
  | stop => cases hact
  | call x => exact callerStep_follows h (hstop x rfl)
  | sweep =>
    have hsweep := sweeperStep_sweep h
    have hsame := hsweep.sameCalls
    exact ⟨.sweep hsweep, hsame.later, Nat.le_of_eq hsame.allocated.symm,
      fun y => .inl (congrFun hsame.callers y)⟩
  | poll a waker =>
    simp only [step] at h
    split at h
    · rename_i w hw
      split at h <;> cases h
      exact hset hw (w.le_poll ..)
    · cases h
  | drop a =>
    simp only [step] at h
    split at h
    · rename_i w hw
      split at h <;> cases h
      exact hset hw ⟨rfl, rfl, nofun, id⟩
    · cases h
  | tick =>
    cases h
    exact ⟨.quiet ⟨rfl, rfl, rfl, rfl, rfl, rfl⟩, .of_awaiters rfl, Nat.le_refl _,
      fun _ => .inl rfl⟩

/-! ## What a step of `stop` does -/

/-- What a step of a thread in `stop` does. -/
inductive State.StopMove (s : State T M W) (x : T) (t : State T M W) : Prop
  | swap : s.callers x = .stopSwap → s.isStopped = false →
    t = { s.setCaller x .stopNotify with isStopped := true } → s.StopMove x t
  | stopped : s.callers x = .stopSwap → s.isStopped = true → t = s.setCaller x .idle →
    s.StopMove x t
  | notify : s.callers x = .stopNotify → t = s.setCaller x .stopJoin → s.StopMove x t
  | join : s.callers x = .stopJoin → s.sweeper = .exited → t = s.setCaller x (.stopSlot 0) →
    s.StopMove x t
  | skip (i : Nat) : s.callers x = .stopSlot i → i < s.slotCount → s.slots i = none →
    t = s.setCaller x (.stopSlot (i + 1)) → s.StopMove x t
  | take (i : Nat) (entry : AskSlot) : s.callers x = .stopSlot i → s.slots i = some entry →
    t = (s.setSlot i none).setCaller x (.stopUpgrade i entry) → s.StopMove x t
  | drained (i : Nat) : s.callers x = .stopSlot i → s.slotCount ≤ i → t = s.setCaller x .idle →
    s.StopMove x t
  | upgrade (i : Nat) (entry : AskSlot) : s.callers x = .stopUpgrade i entry →
    t = (s.modify entry.askAwaiter .upgrade).setCaller x (.stopTimeout i entry.askAwaiter) →
    s.StopMove x t
  | gone (i : Nat) (entry : AskSlot) : s.callers x = .stopUpgrade i entry →
    s.upgradable entry.askAwaiter = false → t = s.setCaller x (.stopSlot (i + 1)) →
    s.StopMove x t
  | timeout (i a : Nat) : s.callers x = .stopTimeout i a →
    t = (s.modify a .setTimeout).setCaller x (.stopDrop i a) → s.StopMove x t
  | drop (i a : Nat) : s.callers x = .stopDrop i a →
    t = (s.modify a .drop).setCaller x (.stopSlot (i + 1)) → s.StopMove x t

theorem callerStep_stopMove {s t : State T M W} {x : T} (h : callerStep s x = some t)
    (hstop : (s.callers x).Stopping) : s.StopMove x t := by
  unfold callerStep at h
  cases hpc : s.callers x with
  | stopSwap =>
    simp only [hpc] at h
    split at h <;> cases h
    · exact .stopped hpc ‹_› rfl
    · exact .swap hpc (Bool.eq_false_iff.mpr ‹_›) rfl
  | stopNotify =>
    simp only [hpc] at h
    split at h <;> cases h
    exact .notify hpc rfl
  | stopJoin =>
    simp only [hpc] at h
    split at h <;> cases h
    exact .join hpc ‹_› rfl
  | stopSlot i =>
    simp only [hpc] at h
    split at h
    · split at h <;> cases h
      · exact .skip i hpc ‹_› ‹_› rfl
      · exact .take i _ hpc ‹_› rfl
    · cases h
      exact .drained i hpc (Nat.le_of_not_lt ‹_›) rfl
  | stopUpgrade i entry =>
    simp only [hpc] at h
    split at h <;> cases h
    · exact .upgrade i entry hpc rfl
    · exact .gone i entry hpc (Bool.eq_false_iff.mpr ‹_›) rfl
  | stopTimeout i a =>
    simp only [hpc, Option.some.injEq] at h
    exact .timeout i a hpc h.symm
  | stopDrop i a =>
    simp only [hpc, Option.some.injEq] at h
    exact .drop i a hpc h.symm
  | _ =>
    rw [hpc] at hstop
    exact hstop.elim

end DignusActor.Ask
