import DignusActor.Ask.History
import DignusActor.Ask.Stop

/-! # An ask resolves once

The first call of `set_response` or `set_timeout` to take the lock of an awaiter's state decides
every answer of its future. A timeout is one that the sweeper or `stop` had reason for (`Timely`):
the sweeper takes an entry out of the table at or after its deadline, or because its awaiter is
gone, and then it cannot be upgraded any more. -/

namespace DignusActor.Ask

open Machine (Reach)

variable {T M W : Type} [DecidableEq T]

/-! ## Who times an awaiter out -/

/-- The deadline of awaiter `a` is not after `now`. -/
def State.Past (s : State T M W) (now a : Nat) : Prop :=
  ∃ w, s.awaiters a = some w ∧ w.deadline ≤ now

/-- What the sweeper has in its hands is past its deadline, or gone. -/
def State.Found (s : State T M W) : SweeperPc → Prop
  | .scan now _ expired _ | .setTimeout now expired _ | .drop now _ expired _ =>
    ∀ a ∈ expired, s.Past now a
  | .upgrade now _ expired _ entry =>
    (∀ a ∈ expired, s.Past now a) ∧ ∃ w, s.awaiters entry.askAwaiter = some w ∧
      (w.deadline ≤ now ∨ w.strongCount = 0)
  | _ => True

/-- The thread is in `stop`, past its swap. -/
def CallerPc.Stopped : CallerPc M → Prop
  | .stopSwap => False
  | pc => pc.Stopping

structure Timely (s : Traced T M W) : Prop where
  slots : ∀ i entry, s.ask.slots i = some entry →
    ∃ w, s.ask.awaiters entry.askAwaiter = some w ∧ w.deadline = entry.deadline
  found : s.ask.Found s.ask.sweeper
  reads : ∀ now, s.ask.sweeper.now = some now → now ∈ s.reads
  stopped : ∀ x, (s.ask.callers x).Stopped → s.ask.isStopped = true
  timeouts : ∀ a, none ∈ (s.history a).completions →
    s.ask.isStopped = true ∨ ∃ now ∈ s.reads, s.ask.Past now a

section

variable {willWake : W → W → Bool} {s t : State T M W} {act : Action T M W}

/-- Every awaiter keeps its deadline, and none that is gone comes back. -/
def State.Lasting (s t : State T M W) : Prop :=
  ∀ a w, s.awaiters a = some w → ∃ w', t.awaiters a = some w' ∧ w'.deadline = w.deadline ∧
    (w.strongCount = 0 → w'.strongCount = 0)

theorem Awaiter.complete_references (w : Awaiter M W) (response : Option M) (timedOut : Bool) :
    (w.complete response timedOut).deadline = w.deadline ∧
      (w.complete response timedOut).strongCount = w.strongCount := by
  unfold complete
  split <;> exact ⟨rfl, rfl⟩

theorem Awaiter.poll_references (willWake : W → W → Bool) (w : Awaiter M W) (v : W) :
    (w.poll willWake v).1.deadline = w.deadline ∧
      (w.poll willWake v).1.strongCount = w.strongCount := by
  unfold poll
  split
  · split
    · exact ⟨rfl, rfl⟩
    · split <;> exact ⟨rfl, rfl⟩
  · dsimp only
    split <;> split <;> exact ⟨rfl, rfl⟩

theorem Awaiter.poll_accepts (willWake : W → W → Bool) (w : Awaiter M W) (v : W) :
    (w.poll willWake v).1.accepts = w.accepts := by
  unfold poll
  split
  · split
    · rfl
    · split <;> rfl
  · dsimp only
    split <;> split <;> rfl

theorem step_lasting (hfresh : s.awaiters s.allocated = none)
    (h : step willWake s act = some t) : s.Lasting t := by
  have hupdate {a : Nat} {w w' : Awaiter M W} (hw : s.awaiters a = some w)
      (ht : t.awaiters = Function.update s.awaiters a (some w'))
      (hd : w'.deadline = w.deadline ∧ w'.strongCount = w.strongCount) : s.Lasting t := by
    intro b v hv
    rw [ht]
    by_cases hba : b = a
    · subst hba
      cases hw.symm.trans hv
      exact ⟨w', Function.update_self .., hd.1, fun h => hd.2.trans h⟩
    · exact ⟨v, (Function.update_of_ne hba ..).trans hv, rfl, id⟩
  cases step_touch h with
  | quiet hsame =>
    intro a w hw
    have hrel := hsame a
    rw [hw] at hrel
    cases hw' : t.awaiters a with
    | none =>
      rw [hw'] at hrel
      cases hrel
    | some w' =>
      rw [hw'] at hrel
      cases hrel with
      | some hrel => exact ⟨w', rfl, hrel.deadline, hrel.strongCount⟩
  | register address deadline accepts hawaiters =>
    intro a w hw
    have ha : a ≠ s.allocated := by
      rintro rfl
      cases hfresh.symm.trans hw
    exact ⟨w, by rw [hawaiters, Function.update_of_ne ha, hw], rfl, id⟩
  | complete x a response _ _ hawaiters =>
    cases hw : s.awaiters a with
    | none =>
      rw [hw, Option.map_none, ← hw, Function.update_eq_self] at hawaiters
      intro b v hv
      exact ⟨v, hawaiters ▸ hv, rfl, id⟩
    | some w =>
      rw [hw, Option.map_some] at hawaiters
      exact hupdate hw hawaiters (w.complete_references ..)
  | poll a v w _ hw hawaiters => exact hupdate hw hawaiters (w.poll_references willWake v)

omit [DecidableEq T] in
theorem State.Lasting.past (h : s.Lasting t) {now a : Nat} (hp : s.Past now a) : t.Past now a := by
  obtain ⟨w, hw, hle⟩ := hp
  obtain ⟨w', hw', hdeadline, -⟩ := h a w hw
  exact ⟨w', hw', hdeadline ▸ hle⟩

omit [DecidableEq T] in
theorem State.Lasting.found (h : s.Lasting t) {pc : SweeperPc} (hf : s.Found pc) : t.Found pc := by
  cases pc with
  | scan | setTimeout | drop => exact fun a ha => h.past (hf a ha)
  | upgrade now i expired next entry =>
    obtain ⟨hexpired, w, hw, hdue⟩ := hf
    obtain ⟨w', hw', hdeadline, hgone⟩ := h _ w hw
    exact ⟨fun a ha => h.past (hexpired a ha), w', hw',
      hdue.imp (fun hle => hdeadline ▸ hle) hgone⟩
  | _ => trivial

omit [DecidableEq T] in
/-- The sweeper takes out of the table what is past its deadline, and what is gone. -/
theorem sweeperStep_found (h : sweeperStep s = some t) (hf : s.Found s.sweeper)
    (hslots : ∀ i entry, s.slots i = some entry →
      ∃ w, s.awaiters entry.askAwaiter = some w ∧ w.deadline = entry.deadline) :
    s.Found t.sweeper := by
  cases sweeperStep_sweep h with
  | between pc _ _ hpc ht =>
    subst ht
    cases pc <;> first | exact True.intro | cases hpc
  | readClock hpc ht =>
    subst ht
    exact nofun
  | skip now i expired nd nd' hpc _ _ ht =>
    subst ht
    rw [hpc] at hf
    exact hf
  | take now i expired nd entry hpc hslot ht =>
    rw [hpc] at hf
    obtain ⟨w, hw, hdeadline⟩ := hslots i entry hslot
    unfold sweeperStep at h
    simp only [hpc, hslot] at h
    split at h
    · split at h <;> cases h
      · rename_i hdue
        refine ⟨hf, w, hw, ?_⟩
        simpa [State.upgradable, hw, hdeadline] using hdue
      · exact hf
    · cases h
      exact hf
  | scanned now i expired nd hpc _ ht =>
    subst ht
    rw [hpc] at hf
    exact hf
  | upgrade now i expired nd entry hpc ht =>
    clear ht
    rw [hpc] at hf
    obtain ⟨hexpired, w, hw, hdue⟩ := hf
    unfold sweeperStep at h
    simp only [hpc] at h
    split at h <;> cases h
    · rename_i hup
      have hcount : w.strongCount ≠ 0 := by simpa [State.upgradable, hw] using hup
      intro a ha
      rcases List.mem_append.mp ha with ha | ha
      · exact hexpired a ha
      · rw [List.mem_singleton.mp ha]
        exact ⟨w, hw, hdue.resolve_right hcount⟩
    · exact hexpired
  | gone now i expired nd entry hpc _ ht =>
    subst ht
    rw [hpc] at hf
    exact hf.1
  | timeout now a expired nd hpc ht =>
    subst ht
    rw [hpc] at hf
    exact fun b hb => hf b (List.mem_cons_of_mem a hb)
  | drop now a expired nd hpc ht =>
    subst ht
    rw [hpc] at hf
    exact hf
  | finish now nd hpc ht =>
    subst ht
    trivial

omit [DecidableEq T] in
theorem CallerPc.Stopped.stopping {pc : CallerPc M} (h : pc.Stopped) : pc.Stopping := by
  cases pc <;> first | exact h | exact h.elim

theorem State.StopMove.isStopped {x : T} (h : s.StopMove x t)
    (hstopped : (s.callers x).Stopped → s.isStopped = true) : t.isStopped = true := by
  cases h with
  | swap _ _ ht =>
    subst ht
    rfl
  | stopped _ hs ht =>
    subst ht
    exact hs
  | notify hpc ht | join hpc _ ht | skip _ hpc _ _ ht | take _ _ hpc _ ht | drained _ hpc _ ht
  | gone _ _ hpc _ ht =>
    subst ht
    exact hstopped (hpc ▸ trivial)
  | upgrade _ _ hpc ht | timeout _ _ hpc ht | drop _ _ hpc ht =>
    rw [State.modify_eq] at ht
    subst ht
    exact hstopped (hpc ▸ trivial)

/-- A thread comes past the swap of `stop` only when the system is stopped. -/
theorem step_stopped (h : step willWake s act = some t)
    (hstopped : ∀ x, (s.callers x).Stopped → s.isStopped = true) :
    (s.isStopped = true → t.isStopped = true) ∧
      ∀ x, (t.callers x).Stopped → t.isStopped = true := by
  by_cases hin : ∃ x, act = .call x ∧ (s.callers x).Stopping
  · obtain ⟨x, rfl, hstop⟩ := hin
    have ht := (callerStep_stopMove h hstop).isStopped (hstopped x)
    exact ⟨fun _ => ht, fun _ _ => ht⟩
  · have haside := step_aside h fun x hact hstop => hin ⟨x, hact, hstop⟩
    refine ⟨fun hs => haside.isStopped.trans hs, fun y hy => haside.isStopped.trans ?_⟩
    cases hact : act.isStop with
    | false =>
      have hf := step_follows h hact fun x hact hstop => hin ⟨x, hact, hstop⟩
      rcases hf.callers y with hsame | ⟨hstop, -⟩
      · exact hstopped y (hsame ▸ hy)
      · exact absurd hy.stopping hstop
    | true =>
      cases act with
      | stop x =>
        obtain ⟨-, rfl⟩ := State.begin_eq h
        rcases s.setCaller_callers x y .stopSwap with hsame | hsame <;> rw [hsame] at hy
        · exact hstopped y hy
        · exact hy.elim
      | _ => cases hact

omit [DecidableEq T] in
theorem completes_none {a : Nat} (hc : s.completes act = some (a, none))
    (hf : s.Found s.sweeper) (hstopped : ∀ x, (s.callers x).Stopped → s.isStopped = true) :
    s.isStopped = true ∨ ∃ now, s.sweeper.now = some now ∧ s.Past now a := by
  cases act with
  | call x =>
    simp only [State.completes] at hc
    split at hc <;> cases hc
    rename_i hpc
    exact .inl (hstopped x (hpc ▸ trivial))
  | sweep =>
    simp only [State.completes] at hc
    split at hc <;> cases hc
    rename_i hpc
    rw [hpc] at hf ⊢
    exact .inr ⟨_, rfl, hf a List.mem_cons_self⟩
  | _ => cases hc

/-- An entry of the table was there, or is the one of a registration. -/
def State.Entered (s t : State T M W) : Prop :=
  ∀ i entry, t.slots i = some entry → s.slots i = some entry ∨
    ∃ w, s.awaiters entry.askAwaiter = some w ∧ w.deadline = entry.deadline

omit [DecidableEq T] in
theorem State.Entered.of_eq (h : t.slots = s.slots) : s.Entered t :=
  fun _ _ hslot => .inl (h ▸ hslot)

omit [DecidableEq T] in
theorem State.Entered.of_clear {i : Nat} (h : t.slots = Function.update s.slots i none) :
    s.Entered t := by
  intro j entry hslot
  rw [h] at hslot
  by_cases hj : j = i
  · rw [hj, Function.update_self] at hslot
    cases hslot
  · exact .inl ((Function.update_of_ne hj ..).symm.trans hslot)

omit [DecidableEq T] in
theorem State.Sweep.entered (h : s.Sweep t) : s.Entered t := by
  cases h with
  | between _ _ _ _ ht | readClock _ ht | skip _ _ _ _ _ _ _ _ ht | scanned _ _ _ _ _ _ ht
  | gone _ _ _ _ _ _ _ ht | finish _ _ _ ht =>
    subst ht
    exact .of_eq rfl
  | take _ _ _ _ _ _ _ ht =>
    subst ht
    exact .of_clear rfl
  | upgrade _ _ _ _ _ _ ht | timeout _ _ _ _ _ ht | drop _ _ _ _ _ ht =>
    rw [State.modify_eq] at ht
    subst ht
    exact .of_eq rfl

theorem State.StopMove.entered {x : T} (h : s.StopMove x t) : s.Entered t := by
  cases h with
  | take _ _ _ _ ht =>
    subst ht
    exact .of_clear rfl
  | swap _ _ ht | stopped _ _ ht | notify _ ht | join _ _ ht | skip _ _ _ _ ht | drained _ _ _ ht
  | gone _ _ _ _ ht =>
    subst ht
    exact .of_eq rfl
  | upgrade _ _ _ ht | timeout _ _ _ ht | drop _ _ _ ht =>
    rw [State.modify_eq] at ht
    subst ht
    exact .of_eq rfl

theorem step_entered (h : step willWake s act = some t) : s.Entered t := by
  by_cases hin : ∃ x, act = .call x ∧ (s.callers x).Stopping
  · obtain ⟨x, rfl, hstop⟩ := hin
    exact (callerStep_stopMove h hstop).entered
  · cases hact : act.isStop with
    | true =>
      cases act with
      | stop x =>
        obtain ⟨-, rfl⟩ := State.begin_eq h
        exact .of_eq rfl
      | _ => cases hact
    | false =>
      cases (step_follows h hact fun x hact hstop => hin ⟨x, hact, hstop⟩).move with
      | quiet htable => exact .of_eq htable.slots
      | reserve x a w _ _ hw ht =>
        subst ht
        intro i entry hslot
        by_cases hi : i = s.startIndex w.address
        · subst hi
          cases (Function.update_self ..).symm.trans hslot
          exact .inr ⟨w, hw, rfl⟩
        · exact .inl ((Function.update_of_ne hi ..).symm.trans hslot)
      | sweep hsweep => exact hsweep.entered

theorem callerStep_sweeper {x : T} (h : callerStep s x = some t) : t.sweeper = s.sweeper := by
  by_cases hstop : (s.callers x).Stopping
  · exact (callerStep_stopMove h hstop).sameAsks.sweeper
  · unfold callerStep at h
    cases hpc : s.callers x with
    | idle | panicked => simp [hpc] at h
    | registerStopped | registerClock =>
      simp only [hpc, Option.some.injEq] at h
      subst h
      rfl
    | reserveSlot =>
      simp only [hpc, Option.map_eq_some_iff] at h
      obtain ⟨w, -, rfl⟩ := h
      rfl
    | replyUpgrade =>
      simp only [hpc] at h
      split at h <;> cases h
      · simp only [State.setCaller, State.modify_eq]
      · rfl
    | setResponse | replyDrop =>
      simp only [hpc, Option.some.injEq] at h
      subst h
      simp only [State.setCaller, State.modify_eq]
    | _ => exact absurd (hpc ▸ trivial) hstop

/-- Only the sweeper moves the sweeper. -/
theorem step_sweeper (h : step willWake s act = some t) (hact : act ≠ .sweep) :
    t.sweeper = s.sweeper := by
  cases act with
  | register | stop =>
    obtain ⟨-, rfl⟩ := State.begin_eq h
    rfl
  | reply x a message =>
    simp only [step] at h
    split at h
    · obtain ⟨-, rfl⟩ := State.begin_eq h
      rfl
    · cases h
  | call x => exact callerStep_sweeper h
  | sweep => exact absurd rfl hact
  | poll | drop =>
    simp only [step] at h
    split at h
    · split at h <;> cases h
      rfl
    · cases h
  | tick =>
    cases h
    rfl

end

section

variable {willWake : W → W → Bool} {s s' : Traced T M W} {u : State T M W}

theorem Traced.note_reads {act : Ask.Action T M W}
    (h : act ≠ .sweep ∨ s.ask.sweeper ≠ .readClock) : (s.note willWake act).reads = s.reads := by
  unfold note
  split
  · split <;> rfl
  · split
    · split <;> rfl
    · rename_i hx _
      split
      · rename_i hclock
        have hact : act = .sweep := by cases act <;> cases hx; rfl
        exact absurd hclock (h.resolve_left fun hne => hne hact)
      · rfl
    · rfl

/-- The clock that the sweeper has read is noted. -/
theorem Timely.reads_sweep (H : Timely s) (h : s.ask.Sweep u) :
    (∀ now ∈ s.reads, now ∈ (s.note willWake .sweep).reads) ∧
      ∀ now, u.sweeper.now = some now → now ∈ (s.note willWake .sweep).reads := by
  have hsame (hclock : s.ask.sweeper ≠ .readClock) (hu : u.sweeper.now = s.ask.sweeper.now) :
      (∀ now ∈ s.reads, now ∈ (s.note willWake .sweep).reads) ∧
        ∀ now, u.sweeper.now = some now → now ∈ (s.note willWake .sweep).reads := by
    rw [Traced.note_reads (.inr hclock), hu]
    exact ⟨fun _ => id, H.reads⟩
  cases h with
  | between pc hnow hclock hpc ht =>
    subst ht
    exact hsame hclock (hpc.trans hnow.symm)
  | readClock hpc ht =>
    subst ht
    have hnote : (s.note willWake .sweep).reads = s.reads ++ [s.ask.clock] := by
      simp [Traced.note, Action.thread, State.completes, hpc]
    rw [hnote]
    refine ⟨fun now hnow => List.mem_append_left _ hnow, fun now hnow => ?_⟩
    cases hnow
    exact List.mem_append_right _ (List.mem_singleton_self _)
  | finish now nd hpc ht =>
    subst ht
    rw [Traced.note_reads (.inr (by simp [hpc]))]
    exact ⟨fun _ => id, fun _ hnow => by cases hnow⟩
  | skip _ _ _ _ _ hpc _ _ ht | take _ _ _ _ _ hpc _ ht | scanned _ _ _ _ hpc _ ht
  | upgrade _ _ _ _ _ hpc ht | gone _ _ _ _ _ hpc _ ht | timeout _ _ _ _ hpc ht
  | drop _ _ _ _ hpc ht =>
    subst ht
    exact hsame (by simp [hpc]) (congrArg SweeperPc.now hpc).symm

theorem Timely.reads_note (H : Timely s) {act : Action T M W}
    (h : step willWake s.ask act = some u) :
    (∀ now ∈ s.reads, now ∈ (s.note willWake act).reads) ∧
      ∀ now, u.sweeper.now = some now → now ∈ (s.note willWake act).reads := by
  by_cases hact : act = .sweep
  · subst hact
    exact H.reads_sweep (sweeperStep_sweep h)
  · rw [Traced.note_reads (.inl hact), step_sweeper h hact]
    exact ⟨fun _ => id, H.reads⟩

/-- A timeout is one that was there, or the completion of the step. -/
theorem Traced.note_timeout {act : Ask.Action T M W} {a : Nat}
    (h : none ∈ ((s.note willWake act).history a).completions) :
    none ∈ (s.history a).completions ∨ s.ask.completes act = some (a, none) := by
  unfold note at h
  split at h
  · split at h
    · rename_i b _ _ _ _
      by_cases hab : a = b
      · subst hab
        simp only [noteAnswer, Function.update_self] at h
        exact .inl h
      · simp only [noteAnswer, Function.update_of_ne hab] at h
        exact .inl h
    · exact .inl h
  · split at h
    · rename_i x b response _ hc
      split at h
      · by_cases hab : a = b
        · subst hab
          simp only [noteCompletion, Function.update_self] at h
          rcases List.mem_append.mp h with h | h
          · exact .inl h
          · rw [← List.mem_singleton.mp h] at hc
            exact .inr hc
        · simp only [noteCompletion, Function.update_of_ne hab] at h
          exact .inl h
      · exact .inl h
    · split at h <;> exact .inl h
    · exact .inl h

theorem Timely.ask (H : Timely s) (hfresh : s.ask.awaiters s.ask.allocated = none)
    {act : Action T M W} (h : step willWake s.ask act = some u) :
    Timely { s.note willWake act with ask := u } := by
  have hlasting := step_lasting hfresh h
  obtain ⟨hreads, hnow⟩ := H.reads_note h
  obtain ⟨hkeeps, hstopped⟩ := step_stopped h H.stopped
  refine ⟨fun i entry hslot => ?_, ?_, hnow, hstopped, fun a ha => ?_⟩
  · have hold : ∃ w, s.ask.awaiters entry.askAwaiter = some w ∧ w.deadline = entry.deadline :=
      (step_entered h i entry hslot).elim (H.slots i entry) id
    obtain ⟨w, hw, hdeadline⟩ := hold
    obtain ⟨w', hw', hsame, -⟩ := hlasting _ w hw
    exact ⟨w', hw', hsame.trans hdeadline⟩
  · refine hlasting.found ?_
    by_cases hact : act = .sweep
    · subst hact
      exact sweeperStep_found h H.found H.slots
    · dsimp only
      rw [step_sweeper h hact]
      exact H.found
  · have hold : s.ask.isStopped = true ∨ ∃ now ∈ s.reads, s.ask.Past now a := by
      rcases Traced.note_timeout ha with hmem | hc
      · exact H.timeouts a hmem
      · obtain hs | ⟨now, hsweep, hpast⟩ := completes_none hc H.found H.stopped
        · exact .inl hs
        · exact .inr ⟨now, H.reads now hsweep, hpast⟩
    exact hold.imp hkeeps fun ⟨now, hmem, hpast⟩ => ⟨now, hreads now hmem, hlasting.past hpast⟩

theorem timely_of_reach {slotCountHint : Nat}
    (h : Reach (trace T M W willWake slotCountHint) Machine.free s) : Timely s := by
  refine h.inv_of (TracedInv willWake) Timely tracedInv_of_reach (fun hinit => ?_)
    fun {s act s'} hinv H _ hs => ?_
  · obtain ⟨hask, hs⟩ := hinit
    rw [hs, show Traced.ask _ = _ from hask]
    exact ⟨nofun, trivial, nofun, fun x hx => hx.stopping.elim, nofun⟩
  · cases act with
    | ask act =>
      simp only [trace, Traced.step] at hs
      split at hs
      · cases hs
      · obtain ⟨u, hu, rfl⟩ := Option.map_eq_some_iff.mp hs
        exact H.ask (hinv.fresh _ (Nat.le_refl _)) hu
    | wake x =>
      obtain ⟨⟨a, v⟩, -, rfl⟩ := Option.map_eq_some_iff.mp hs
      refine ⟨H.slots, H.found, H.reads, H.stopped, fun b hb => H.timeouts b ?_⟩
      dsimp only at hb
      by_cases hba : b = a
      · subst hba
        rwa [Function.update_self] at hb
      · rwa [Function.update_of_ne hba] at hb

/-! ## An ask resolves once -/

/-- What an ask is bound to. -/
structure ResolvesOnce (willWake : W → W → Bool) (s : Traced T M W) (a : Nat)
    (w : Awaiter M W) : Prop where
  /-- The ask is completed by its first completion. -/
  completed : w.completed = true ↔ (s.history a).completions ≠ []
  /-- A completion after the first changes nothing. -/
  later : (s.history a).completions ≠ [] → ∀ response timedOut,
    w.complete response timedOut = w
  /-- The first completion decides each answer of the future. -/
  answers : ∀ answer ∈ (s.history a).answers,
    Decided w.accepts (s.history a).completions.head? answer
  /-- The response is taken out once. -/
  once : (s.history a).answers.countP PollResult.consumes ≤ 1
  /-- The result that the next poll finds is the one of the first completion. -/
  next : ∀ v, Decided w.accepts (s.history a).completions.head? (w.poll willWake v).2 ∧
    (w.completed = true → (w.poll willWake v).2 ≠ .pending)
  /-- A timeout is due. -/
  timely : none ∈ (s.history a).completions →
    s.ask.isStopped = true ∨ ∃ now ∈ s.reads, w.deadline ≤ now
  /-- Before it is completed nobody is woken. -/
  unwoken : w.completed = false → (s.history a).woken = [] ∧ ∀ x v, s.waking x ≠ some (a, v)
  /-- Once it is completed, one waker is woken, or about to be, that stands for the one given to the
  last poll that returned `Pending`. -/
  woken : w.completed = true → ∀ v, (s.history a).lastPoll = some v →
    ∃ u, (u = v ∨ willWake u v = true) ∧
      ((s.history a).woken = [u] ∧ (∀ x v', s.waking x ≠ some (a, v')) ∨
        (s.history a).woken = [] ∧ ∃ x, s.waking x = some (a, u) ∧
          ∀ y v', s.waking y = some (a, v') → y = x)

/-- **Every ask resolves once, with its first completion.** In every interleaving of polls, replies,
sweeper passes and `stop`, every awaiter is bound to what `ResolvesOnce` says. -/
theorem resolves_once {slotCountHint : Nat}
    (h : Reach (trace T M W willWake slotCountHint) Machine.free s) {a : Nat} {w : Awaiter M W}
    (hw : s.ask.awaiters a = some w) : ResolvesOnce willWake s a w := by
  have H := (tracedInv_of_reach h).resolved a w hw
  have hcompleted : w.completed = true ↔ (s.history a).completions ≠ [] := by
    cases hc : w.completed with
    | false => simp [(H.pending hc).1]
    | true =>
      obtain ⟨-, first, hfirst, -⟩ := H.completed hc
      refine iff_of_true rfl fun hempty => ?_
      rw [hempty] at hfirst
      cases hfirst
  refine ⟨hcompleted, fun hne => Awaiter.complete_of_completed (hcompleted.mpr hne), H.answers,
    Nat.le_of_add_right_le H.once, fun v => ?_, fun hnone => ?_, fun hc => ?_, fun hc v hv => ?_⟩
  · cases hc : w.completed with
    | true =>
      obtain ⟨hnext, hne⟩ := H.poll_completed hc v
      refine ⟨?_, fun _ => hne⟩
      rw [← w.poll_accepts willWake v]
      exact hnext.answers _ (List.mem_append_right _ (List.mem_singleton_self _))
    | false =>
      rw [(Awaiter.poll_pending willWake hc v).1]
      exact ⟨trivial, nofun⟩
  · refine ((timely_of_reach h).timeouts a hnone).imp_right fun ⟨now, hnow, w', hw', hle⟩ => ?_
    cases hw.symm.trans hw'
    exact ⟨now, hnow, hle⟩
  · have hwoken := H.awoken
    rw [(H.pending hc).2.1] at hwoken
    exact hwoken
  · have hreg := (H.completed hc).1
    have hwoken := H.awoken
    rw [hv] at hreg
    cases htaken : (s.history a).taken with
    | none =>
      rw [htaken] at hreg
      exact hreg.elim
    | some u =>
      rw [htaken] at hreg hwoken
      exact ⟨u, hreg, hwoken⟩

end

/-- The asks of two threads, with wakers that are equivalent when they are equal. -/
def tracedPair : Machine (Traced Bool Nat Nat) (Traced.Action Bool Nat Nat) :=
  trace Bool Nat Nat (fun u v => u == v) 1

def freshTraced : Traced Bool Nat Nat :=
  Traced.start { new Bool Nat Nat 1 with slotCount := 262144 }

/-- The ask is polled with wakers 7 and 8, replied to by the one thread, polled before that thread
wakes anybody, and replied to by the other one. -/
def repliedTwice : List (Traced.Action Bool Nat Nat) :=
  [.ask (.register true 5 0x800010 fun m => m == 42), .ask (.call true), .ask (.call true),
    .ask (.call true), .ask (.poll 0 7), .ask (.poll 0 8), .ask (.reply true 0 42),
    .ask (.call true), .ask (.call true), .ask (.poll 0 9), .wake (some true),
    .ask (.reply false 0 5), .ask (.call false), .ask (.call false)]

def resolvedTraced : Traced Bool Nat Nat := (tracedPair.run freshTraced repliedTwice).get rfl

theorem resolves_once_repliedTwice :
    Reach tracedPair Machine.free resolvedTraced ∧
      (∃ w, resolvedTraced.ask.awaiters 0 = some w ∧
        ResolvesOnce (fun u v => u == v) resolvedTraced 0 w) ∧
      (resolvedTraced.history 0).completions = [some 42, some 5] ∧
      (resolvedTraced.history 0).answers = [.pending, .pending, .ok 42] ∧
      (resolvedTraced.history 0).woken = [8] := by
  have hinit : tracedPair.Init freshTraced := by
    have hcount := congrArg State.slotCount fresh_init
    simp only [fresh, new] at hcount
    refine ⟨?_, rfl⟩
    simp only [machine, freshTraced, Traced.start, new, ← hcount]
  have hr : Reach tracedPair Machine.free resolvedTraced := .get_free hinit rfl
  exact ⟨hr, ⟨_, rfl, resolves_once hr rfl⟩, rfl, rfl, rfl⟩

end DignusActor.Ask
