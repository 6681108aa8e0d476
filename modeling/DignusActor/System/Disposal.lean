import DignusActor.System.Released

/-! # The actors that `begin_shutdown` kills

`begin_shutdown` kills what one scan of the slots found. A spawn that looked at `is_disposed` before
the swap may store its runner after the scan has passed its slot; then nobody kills the actor
(`notKilled_lateCommit`). As long as no commit stores behind the scan, every actor whose spawn has
returned has been killed when `begin_shutdown` returns (`killed_of_noLateCommit`). -/

namespace DignusActor.Registry

variable {R : Type}

/-- The scan of `snapshot_live` has passed slot `i`. -/
def Pc.passed (i : Nat) : Pc R → Bool
  | .snapshotSlot j _ | .snapshotClone j _ => i < j
  | .snapshotOwnerUnlock j _ => i ≤ j
  | .snapshotUnlock _ => true
  | _ => false

/-- What the scan of `snapshot_live` has found. -/
def Pc.seen : Pc R → List R
  | .snapshotSlot _ live | .snapshotClone _ live | .snapshotOwnerUnlock _ live
  | .snapshotUnlock live => live
  | _ => []

theorem Pc.passed_of_method {pc : Pc R} (h : pc.method ≠ .snapshot) (i : Nat) :
    pc.passed i = false := by
  cases pc <;> first | rfl | exact absurd rfl h

theorem Pc.seen_of_method {pc : Pc R} (h : pc.method ≠ .snapshot) : pc.seen = [] := by
  cases pc <;> first | rfl | exact absurd rfl h

section
variable {T : Type} {poisons : Bool} {t : T} {m m' : Mem T R} {pc pc' : Pc R}

/-- The scan keeps what it has found. -/
theorem CallMove.seen (h : CallMove poisons t m pc m' pc') (hpc : pc'.method = .snapshot) {r : R}
    (hr : r ∈ pc.seen) : r ∈ pc'.seen := by
  cases h with
  | snapshotClone => exact List.mem_append_left _ hr
  | snapshotSlot | snapshotEnd | snapshotOwnerUnlock => exact hr
  | snapshotUnlock => cases hpc
  | _ => cases hr

/-- The scan finds the owner of each slot that it passes. -/
theorem CallMove.passed (h : CallMove poisons t m pc m' pc') {i : Nat} {r : R}
    (hused : i < m.data.nextUnused) (ho : (m.data.slots i).owner = some r)
    (hpc : pc.passed i = false) (hpc' : pc'.passed i = true) : r ∈ pc'.seen := by
  cases h with
  | snapshotClone j live =>
    simp only [Pc.passed, decide_eq_false_iff_not, decide_eq_true_eq] at hpc hpc'
    have hij : i = j := Nat.le_antisymm hpc' (Nat.le_of_not_lt hpc)
    subst hij
    exact List.mem_append_right _ (by simp [ho])
  | snapshotEnd j live hend =>
    simp only [Pc.passed, decide_eq_false_iff_not] at hpc
    exact absurd (Nat.lt_of_lt_of_le hused hend) hpc
  | snapshotOwnerUnlock j =>
    simp only [Pc.passed, decide_eq_false_iff_not, decide_eq_true_eq] at hpc hpc'
    exact absurd (Nat.le_of_lt_succ hpc') hpc
  | snapshotSlot j => cases hpc.symm.trans hpc'
  | snapshotLock => simp [Pc.passed] at hpc'
  | _ => cases hpc'

theorem step_snapshot [DecidableEq T] {s s' : State T R} {live : List R}
    (h : step poisons s (.call t) = some s') (ht : s'.pcs t = .snapshot live) :
    s.pcs t = .snapshotUnlock live := by
  cases step_move h with
  | call _ hcall =>
    simp only [Function.update_self] at ht
    subst ht
    generalize s.pcs t = pc at hcall
    cases hcall
    rfl

theorem step_panicked [DecidableEq T] {s s' : State T R}
    (h : step poisons s (.call t) = some s') (ht : s'.pcs t = .panicked) : (s.pcs t).seen = [] := by
  cases step_move h with
  | call _ hcall =>
    simp only [Function.update_self] at ht
    subst ht
    generalize s.pcs t = pc at hcall
    cases hcall <;> rfl

end

end DignusActor.Registry

namespace DignusActor.ActorSystem

open Machine (Reach)

variable {k : Nat} {T M F A : Type}

namespace CallerPc

/-- The caller is in `begin_shutdown`, before it has the snapshot. -/
def scans : CallerPc k M A → Bool
  | .askStop _ | .snapshotting _ => true
  | _ => false

/-- The caller is in the loop of `begin_shutdown`. -/
def kills : CallerPc k M A → Bool
  | .killing .. | .killRunner .. => true
  | _ => false

/-- The actors that the caller has still to kill. -/
def toKill : CallerPc k M A → List Nat
  | .killing _ rest => rest
  | .killRunner _ n rest => n :: rest
  | _ => []

theorem toKill_of_atRest {pc : CallerPc k M A} (h : pc.atRest = true) : pc.toKill = [] := by
  cases pc <;> first | rfl | cases h

end CallerPc

namespace State

variable (s : State k T M F A)

/-- The scan of `begin_shutdown` has passed slot `i`. -/
def passed (i : Nat) : Bool :=
  match s.disposal with
  | .notBegun => false
  | .scanning t => (s.registry.pcs (.caller t)).passed i
  | .killing _ | .done => true

/-- The actors that `begin_shutdown` has found and has not killed. -/
def toKill : List Nat :=
  match s.disposal with
  | .scanning t => (s.registry.pcs (.caller t)).seen
  | .killing t => (s.callers t).toKill
  | .notBegun | .done => []

/-- The next step of thread `u` stores a runner in a slot that the scan has passed. -/
def lateCommit (u : Thread k T) : Bool :=
  match s.registry.pcs u with
  | .commitStore n _ => (s.registry.mem.data.indexOf n).any s.passed
  | _ => false

/-- Actor `n` has been killed, or the scan is still to find it, or it is about to be killed. -/
def Covered (n : Nat) : Prop :=
  s.Killed n ∨ n ∈ s.toKill ∨ ∃ i, s.registry.mem.data.indexOf n = some i ∧
    (s.registry.mem.data.slots i).owner = some n ∧ s.passed i = false

end State

/-- No commit stores its runner behind the scan of `begin_shutdown`. -/
def NoLateCommit (s : State k T M F A) (a : Action k T M F A) : Prop :=
  s.lateCommit a.thread = false

instance (s : State k T M F A) (a : Action k T M F A) : Decidable (NoLateCommit s a) :=
  inferInstanceAs (Decidable (_ = _))

structure DisposalInv (s : State k T M F A) : Prop where
  begun : s.disposal = .notBegun ↔ s.isDisposed = false
  scanning : ∀ t, (s.callers t).scans = true → s.disposal = .scanning t
  killing : ∀ t, (s.callers t).kills = true → s.disposal = .killing t
  killRunner : ∀ t call n rest, s.callers t = .killRunner call n rest →
    ∃ actor, s.actors n = some actor ∧
      (1 ≤ actor.run.mem.killCalls ∨ actor.run.callers t = .killLifecycle)
  running : ∀ n actor, s.actors n = some actor → actor.run.mem.lifecycle = .running →
    actor.run.mem.killCalls = 0
  returned : ∀ n ∈ s.returned, s.registry.mem.data.runners n ≠ none
  covered : ∀ n, s.registry.mem.data.runners n ≠ none → s.Covered n

section
variable [DecidableEq T] [DecidableEq A] {poisons : Bool} {s s' : State k T M F A}
  {u : Thread k T} {t : T} {pc : CallerPc k M A}

/-- What a step of a caller does to the shutdown. -/
inductive DisposalMove (s : State k T M F A) (t : T) (pc : CallerPc k M A)
    (s' : State k T M F A) : Prop
  | same : s'.disposal = s.disposal → s'.isDisposed = s.isDisposed → DisposalMove s t pc s'
  | dispose (call) : pc = .disposeSwap call → s.isDisposed = false → s'.isDisposed = true →
    s'.disposal = .scanning t → s'.registry = s.registry → DisposalMove s t pc s'
  | snapshot (call live) : pc = .snapshotting call → s'.isDisposed = s.isDisposed →
    s.registry.pcs (.caller t) = .snapshotUnlock live → s'.disposal = .killing t →
    s'.callers t = .killing call live → DisposalMove s t pc s'
  | killed (call) : pc = .killing call [] → s'.isDisposed = s.isDisposed →
    s'.disposal = .done → DisposalMove s t pc s'

theorem CallMove.disposal (h : CallMove poisons s t pc s') : DisposalMove s t pc s' := by
  cases h with
  | dispose call hd => exact .dispose call rfl hd rfl rfl rfl
  | snapshot call live hr hpcs =>
    exact .snapshot call live rfl rfl (Registry.step_snapshot hr hpcs) rfl
      (Function.update_self ..)
  | killed call => exact .killed call rfl rfl rfl
  | _ => exact .same rfl rfl

theorem CallMove.scans (h : CallMove poisons s t pc s') (hpc : s.callers t = pc)
    (hs : (s'.callers t).scans = true) :
    pc.scans = true ∧ s'.disposal = s.disposal ∨ s'.disposal = .scanning t := by
  cases h with
  | dispose => exact .inr rfl
  | askStop => exact .inl ⟨rfl, rfl⟩
  | reserving | committing | snapshotting | killRunner | counting | countRemaining | requesting
  | inRunner =>
    change (s.callers t).scans = true at hs
    exact .inl ⟨hpc ▸ hs, rfl⟩
  | _ => simp [State.setCaller, State.setActor, CallerPc.scans] at hs

theorem CallMove.kills (h : CallMove poisons s t pc s') (hpc : s.callers t = pc)
    (hs : (s'.callers t).kills = true) :
    pc.kills = true ∧ s'.disposal = s.disposal ∨ s'.disposal = .killing t := by
  cases h with
  | snapshot => exact .inr rfl
  | kill | killReturn => exact .inl ⟨rfl, rfl⟩
  | reserving | committing | snapshotting | killRunner | counting | countRemaining | requesting
  | inRunner =>
    change (s.callers t).kills = true at hs
    exact .inl ⟨hpc ▸ hs, rfl⟩
  | _ => simp [State.setCaller, State.setActor, CallerPc.kills] at hs

/-- The shutdown goes on in the thread that began it. -/
theorem DisposalInv.disposal_of_ne (hd : DisposalInv s) (h : Move poisons s s' u) {w : T}
    (hw : s.disposal = .scanning w ∨ s.disposal = .killing w) (hu : u ≠ .caller w) :
    s'.disposal = s.disposal := by
  cases h with
  | worker d h => exact h.sameCalls.disposal
  | caller t hpc h =>
    cases h.disposal with
    | same h => exact h
    | dispose call _ hfalse =>
      have hnot := hd.begun.mpr hfalse
      rcases hw with hw | hw <;> cases hnot.symm.trans hw
    | snapshot call _ hsnap =>
      have hscan := hd.scanning t (by rw [hpc, hsnap]; rfl)
      rcases hw with hw | hw <;> cases hscan.symm.trans hw
      exact absurd rfl hu
    | killed call hkill =>
      have hkill := hd.killing t (by rw [hpc, hkill]; rfl)
      rcases hw with hw | hw <;> cases hkill.symm.trans hw
      exact absurd rfl hu

omit [DecidableEq T] [DecidableEq A] in
theorem Linked.snapshotting (hl : Linked s)
    (h : (s.registry.pcs (.caller t)).method = .snapshot) :
    ∃ call, s.callers t = .snapshotting call := by
  have hin := hl.caller t
  rw [h] at hin
  generalize s.callers t = pc at hin
  cases pc with
  | snapshotting call => exact ⟨call, rfl⟩
  | requesting =>
    obtain ⟨_, hin⟩ := hin
    cases hin
  | _ => cases hin

/-- What the scan has found stays until it is killed. -/
theorem Linked.seen_step (hl : Linked s) {w : T} (hw : s.disposal = .scanning w)
    (hpc : s.callers w = pc) (h : CallMove poisons s w pc s')
    {n : Nat} (hn : n ∈ (s.registry.pcs (.caller w)).seen) : n ∈ s'.toKill := by
  have hmethod : (s.registry.pcs (.caller w)).method = .snapshot := by
    by_contra hne
    rw [Registry.Pc.seen_of_method hne] at hn
    cases hn
  obtain ⟨call, hcall⟩ := hl.snapshotting hmethod
  have hin := h.inMethod hpc (hpc ▸ hl.caller w)
  cases hpc.symm.trans hcall
  cases h with
  | snapshotting _ hr =>
    simp only [State.toKill, hw]
    change (s.callers w).InMethod _ at hin
    rw [hcall] at hin
    cases Registry.step_move hr with
    | call _ hmove =>
      simp only [Function.update_self] at hin ⊢
      exact hmove.seen hin hn
  | snapshot _ live hr hpcs =>
    rw [Registry.step_snapshot hr hpcs] at hn
    simpa [State.toKill, State.setCaller, CallerPc.toKill, Registry.Pc.seen] using hn
  | snapshotPanic _ hr hpcs =>
    rw [Registry.step_panicked hr hpcs] at hn
    cases hn
  | beginSpawn _ hrest | beginShutdown _ _ hrest | beginLookup _ hrest
  | beginRequest _ _ hrest | beginWake _ _ _ hrest => cases hrest

theorem DisposalInv.killing_step (hd : DisposalInv s) {w : T} (hw : s.disposal = .killing w)
    (hpc : s.callers w = pc) (h : CallMove poisons s w pc s') {n : Nat}
    (hn : n ∈ pc.toKill) : n ∈ s'.toKill ∨ s'.Killed n := by
  cases h with
  | kill call m rest =>
    left
    simpa [State.toKill, State.setCaller, State.setActor, hw, CallerPc.toKill] using hn
  | killRunner call m rest =>
    left
    simpa only [State.toKill, State.setActor, hw, hpc] using hn
  | killReturn call m rest ha hrun hidle =>
    rcases List.mem_cons.mp hn with rfl | hn
    · obtain ⟨actor, ha', hkill⟩ := hd.killRunner w call n rest hpc
      cases ha'.symm.trans ha
      refine .inr ⟨_, Function.update_self .., ?_⟩
      rcases hkill with hkill | hkill
      · exact Nat.le_trans hkill (ActorRunner.step_history hrun).1
      · exact ActorRunner.step_killLifecycle hrun hkill
    · left
      simpa [State.toKill, State.setCaller, State.setActor, hw, CallerPc.toKill] using hn
  | killed => cases hn
  | beginSpawn _ hrest | beginShutdown _ _ hrest | beginLookup _ hrest
  | beginRequest _ _ hrest | beginWake _ _ _ hrest =>
    rw [CallerPc.toKill_of_atRest hrest] at hn
    cases hn
  | _ => cases hn

theorem DisposalInv.toKill_step (hd : DisposalInv s) (hl : Linked s) (h : Move poisons s s' u)
    {n : Nat} (hn : n ∈ s.toKill) : n ∈ s'.toKill ∨ s'.Killed n := by
  cases hw : s.disposal with
  | notBegun | done =>
    rw [State.toKill, hw] at hn
    cases hn
  | scanning w =>
    by_cases hu : u = .caller w
    · subst hu
      cases h with
      | caller _ hpc h =>
        refine .inl (hl.seen_step hw hpc h ?_)
        simpa only [State.toKill, hw] using hn
    · left
      simpa only [State.toKill, hd.disposal_of_ne h (.inl hw) hu, hw,
        h.pcs_of_ne (Ne.symm hu)] using hn
  | killing w =>
    by_cases hu : u = .caller w
    · subst hu
      cases h with
      | caller _ hpc h =>
        refine hd.killing_step hw hpc h ?_
        simpa only [State.toKill, hw, hpc] using hn
    · left
      simpa only [State.toKill, hd.disposal_of_ne h (.inr hw) hu, hw, h.callers_of_ne hu] using hn

/-- The scan passes a slot by a step of its own. -/
theorem DisposalInv.passed_cases (hd : DisposalInv s) (hl : Linked s) (h : Move poisons s s' u)
    {i : Nat} (hp : s.passed i = false) (hp' : s'.passed i = true) :
    ∃ w m pc, u = .caller w ∧ s'.toKill = pc.seen ∧
      Registry.CallMove poisons u s.registry.mem (s.registry.pcs u) m pc ∧
      (s.registry.pcs u).passed i = false ∧ pc.passed i = true := by
  cases hw : s.disposal with
  | killing | done => simp [State.passed, hw] at hp
  | notBegun =>
    cases h with
    | worker d h => simp [State.passed, h.sameCalls.disposal, hw] at hp'
    | caller t hpc h =>
      cases h.disposal with
      | same h => simp [State.passed, h, hw] at hp'
      | dispose call hcall _ _ hdis hreg =>
        have hrest := hl.caller t
        rw [hpc, hcall] at hrest
        rw [State.passed, hdis, hreg] at hp'
        dsimp only at hp'
        rw [Registry.Pc.passed_of_method (by rw [hrest]; nofun)] at hp'
        cases hp'
      | snapshot call _ hcall =>
        cases hw.symm.trans (hd.scanning t (by rw [hpc, hcall]; rfl))
      | killed call hcall => cases hw.symm.trans (hd.killing t (by rw [hpc, hcall]; rfl))
  | scanning w =>
    simp only [State.passed, hw] at hp
    have hstay (hdis : s'.disposal = s.disposal) :
        (s'.registry.pcs (.caller w)).passed i = true ∧
          s'.toKill = (s'.registry.pcs (.caller w)).seen := by
      rw [State.passed, hdis, hw] at hp'
      exact ⟨hp', by rw [State.toKill, hdis, hw]⟩
    by_cases hu : u = .caller w
    · subst hu
      cases h with
      | caller _ hpc h =>
        cases h.disposal with
        | same hdis =>
          obtain ⟨hpcs, hkill⟩ := hstay hdis
          rcases h.registry with hr | ⟨b, hr, hb, -⟩
          · rw [hr] at hpcs
            cases hp.symm.trans hpcs
          · generalize s'.registry = registry at hr hpcs hkill
            cases Registry.step_move hr with
            | call v hcall =>
              cases hb
              simp only [Function.update_self] at hpcs hkill
              exact ⟨w, _, _, rfl, hkill, hcall, hp, hpcs⟩
            | _ =>
              cases hb
              simp [Registry.State.setPc, Registry.Pc.passed] at hpcs
        | dispose call _ hfalse => cases hw.symm.trans (hd.begun.mpr hfalse)
        | snapshot call live hcall _ hunlock =>
          rw [hunlock] at hp
          cases hp
        | killed call hcall => cases hw.symm.trans (hd.killing w (by rw [hpc, hcall]; rfl))
    · obtain ⟨hpcs, -⟩ := hstay (hd.disposal_of_ne h (.inl hw) hu)
      rw [h.pcs_of_ne (Ne.symm hu)] at hpcs
      cases hp.symm.trans hpcs

omit [DecidableEq T] [DecidableEq A] in
theorem owner_used (hinv : Registry.Inv s.registry) {i n : Nat}
    (ho : (s.registry.mem.data.slots i).owner = some n) : i < s.registry.mem.data.nextUnused := by
  by_contra hle
  have hclear := hinv.data.unused i (Nat.le_of_not_lt hle)
  cases ho.symm.trans hclear.owner

theorem DisposalInv.covered_step (hd : DisposalInv s) (hrel : Released s) (hl : Linked s)
    (hinv : Registry.Inv s.registry) (h : Move poisons s s' u) {n : Nat} (hn : s.Covered n) :
    s'.Covered n := by
  rcases hn with hn | hn | ⟨i, hi, ho, hp⟩
  · exact .inl (hl.killed_step h hn)
  · rcases hd.toKill_step hl h hn with hn | hn
    · exact .inr (.inl hn)
    · exact .inl hn
  · rcases hrel.owner_step hl hinv h ho with ho' | hn
    · cases hp' : s'.passed i with
      | false => exact .inr (.inr ⟨i, (h.grows hinv).indexOf_some hi, ho', hp'⟩)
      | true =>
        obtain ⟨w, m, pc, -, hkill, hcall, hpc, hpc'⟩ := hd.passed_cases hl h hp hp'
        exact .inr (.inl (hkill ▸ hcall.passed (owner_used hinv ho) ho hpc hpc'))
    · exact .inl (hl.killed_step h hn)

/-- A runner is stored where the scan is still to come. -/
theorem DisposalInv.covered_commit (hd : DisposalInv s) (hl : Linked s) (h : Move poisons s s' u)
    {n r i : Nat} (hpc : s.registry.pcs u = .commitStore n r)
    (hi : s.registry.mem.data.indexOf n = some i)
    (hdata : s'.registry.mem.data = s.registry.mem.data.commit n i r)
    (hlate : s.lateCommit u = false) : s'.Covered n := by
  have hp : s.passed i = false := by simpa [State.lateCommit, hpc, hi] using hlate
  have hown : r = n := hl.own u n r (.inr hpc)
  refine .inr (.inr ⟨i, ?_, ?_, ?_⟩)
  · rw [hdata]
    exact hi
  · rw [hdata, Registry.Data.commit_slots_self, hown]
  · by_contra hp'
    rw [Bool.not_eq_false] at hp'
    obtain ⟨w, m, pc, -, -, hcall, -, hpc'⟩ := hd.passed_cases hl h hp hp'
    rw [hpc] at hcall
    cases hcall
    cases hpc'

/-- A caller that is killing a runner has just called `kill` on it, or has gone on in it. -/
theorem CallMove.inKillRunner (h : CallMove poisons s t pc s') (hpc : s.callers t = pc)
    {call : Shutdown k} {n : Nat} {rest : List Nat}
    (hs : s'.callers t = .killRunner call n rest) : ∃ actor run action, s.actors n = some actor ∧
      ActorRunner.step actor.owner actor.run action = some run ∧
      s'.actors n = some { actor with run } ∧
      (action = .kill t ∨ action = .caller t ∧ pc = .killRunner call n rest) := by
  cases h with
  | kill call' m rest' ha hrun =>
    simp only [State.setCaller, State.setActor, Function.update_self,
      CallerPc.killRunner.injEq] at hs
    obtain ⟨rfl, rfl, rfl⟩ := hs
    exact ⟨_, _, _, ha, hrun, Function.update_self .., .inl rfl⟩
  | killRunner call' m rest' ha hrun =>
    cases hpc.symm.trans hs
    exact ⟨_, _, _, ha, hrun, Function.update_self .., .inr ⟨rfl, rfl⟩⟩
  | reserving | committing | snapshotting | counting | countRemaining | requesting | inRunner =>
    cases hpc.symm.trans hs
  | _ => simp [State.setCaller, State.setActor] at hs

theorem DisposalInv.killRunner_step (hd : DisposalInv s) (hl : Linked s)
    (h : Move poisons s s' u) {call : Shutdown k} {n : Nat} {rest : List Nat}
    (hs : s'.callers t = .killRunner call n rest) : ∃ actor, s'.actors n = some actor ∧
      (1 ≤ actor.run.mem.killCalls ∨ actor.run.callers t = .killLifecycle) := by
  by_cases hu : u = .caller t
  · subst hu
    cases h with
    | caller _ hpc h =>
      obtain ⟨actor, run, action, ha, hrun, ha', haction⟩ := h.inKillRunner hpc hs
      refine ⟨_, ha', ?_⟩
      rcases haction with rfl | ⟨rfl, rfl⟩
      · cases ActorRunner.step_move hrun
        exact .inr (Function.update_self ..)
      · obtain ⟨actor₀, ha₀, hkill⟩ := hd.killRunner t call n rest hpc
        cases ha₀.symm.trans ha
        rcases hkill with hkill | hkill
        · exact .inl (Nat.le_trans hkill (ActorRunner.step_history hrun).1)
        · exact .inl (ActorRunner.step_killLifecycle hrun hkill)
  · rw [h.callers_of_ne hu] at hs
    obtain ⟨actor, ha, hkill⟩ := hd.killRunner t call n rest hs
    obtain ⟨actor', ha', hevolves⟩ := hl.evolves h ha
    refine ⟨actor', ha', hkill.imp (fun hk => Nat.le_trans hk hevolves.history.1) fun hk => ?_⟩
    rcases hevolves.run with hrun | ⟨action, hrun, htaken⟩
    · rw [hrun, hk]
    · rw [ActorRunner.step_callers_of_ne hrun fun ht => hu (htaken.calling t ht), hk]

theorem DisposalInv.running_step (hd : DisposalInv s) (hl : Linked s) (h : Move poisons s s' u)
    {n : Nat} {actor' : Actor k T M F A} (hn : s'.actors n = some actor')
    (hrunning : actor'.run.mem.lifecycle = .running) : actor'.run.mem.killCalls = 0 := by
  rcases hl.actor_cases h hn with ⟨-, _, _, _, -, -, hnew⟩ | ⟨actor, ha, hevolves⟩
  · obtain ⟨-, q, -, rfl⟩ := newActor_eq_some.mp hnew
    rfl
  · have hold := hd.running n actor ha
    rcases hevolves.run with hrun | ⟨action, hrun, -⟩
    · rw [hrun] at hrunning ⊢
      exact hold hrunning
    · exact ActorRunner.step_running hrun hold hrunning

theorem DisposalInv.step (hd : DisposalInv s) (hrel : Released s) (hl : Linked s)
    (hinv : Registry.Inv s.registry) (hcommitted : Registry.Committed s.registry)
    (h : Move poisons s s' u) (hlate : s.lateCommit u = false) : DisposalInv s' where
  begun := by
    cases h with
    | worker d h =>
      rw [h.sameCalls.disposal, h.sameCalls.isDisposed]
      exact hd.begun
    | caller t hpc h =>
      cases h.disposal with
      | same hdis hbool =>
        rw [hdis, hbool]
        exact hd.begun
      | dispose _ _ _ htrue hdis =>
        rw [hdis, htrue]
        exact ⟨nofun, nofun⟩
      | snapshot call _ hcall hbool _ hdis =>
        have hscan := hd.scanning t (by rw [hpc, hcall]; rfl)
        rw [hdis, hbool, ← hd.begun, hscan]
        exact ⟨nofun, nofun⟩
      | killed call hcall hbool hdis =>
        have hkill := hd.killing t (by rw [hpc, hcall]; rfl)
        rw [hdis, hbool, ← hd.begun, hkill]
        exact ⟨nofun, nofun⟩
  scanning v hv := by
    by_cases hu : u = .caller v
    · subst hu
      cases h with
      | caller _ hpc h =>
        rcases h.scans hpc hv with ⟨hv, hdis⟩ | hdis
        · exact hdis.trans (hd.scanning v (hpc ▸ hv))
        · exact hdis
    · rw [h.callers_of_ne hu] at hv
      have hscan := hd.scanning v hv
      exact (hd.disposal_of_ne h (.inl hscan) hu).trans hscan
  killing v hv := by
    by_cases hu : u = .caller v
    · subst hu
      cases h with
      | caller _ hpc h =>
        rcases h.kills hpc hv with ⟨hv, hdis⟩ | hdis
        · exact hdis.trans (hd.killing v (hpc ▸ hv))
        · exact hdis
    · rw [h.callers_of_ne hu] at hv
      have hkill := hd.killing v hv
      exact (hd.disposal_of_ne h (.inr hkill) hu).trans hkill
  killRunner _ _ _ _ := hd.killRunner_step hl h
  running _ _ := hd.running_step hl h
  returned n hn := by
    refine h.runners_mono hinv ?_
    obtain ⟨l, hret, hnew⟩ := h.returned
    rw [hret] at hn
    rcases List.mem_append.mp hn with hn | hn
    · exact hd.returned n hn
    · obtain ⟨t, -, hpc⟩ := hnew n hn
      exact hcommitted _ n (hl.commitUnlock hpc)
  covered n hn := by
    rcases h.runners hn with hn | ⟨r, i, hpc, hi, hdata⟩
    · exact hd.covered_step hrel hl hinv h (hd.covered n hn)
    · exact hd.covered_commit hl h hpc hi hdata hlate

end

section
variable [DecidableEq T] [DecidableEq A] {poisons : Bool} {capacity : Nat} {s : State k T M F A}

theorem disposalInv_of_reach (h : Reach (machine k T M F A poisons capacity) NoLateCommit s) :
    DisposalInv s := by
  refine h.inv_of
    (fun s => Released s ∧ Linked s ∧ Registry.Inv s.registry ∧ Registry.Committed s.registry)
    DisposalInv
    (fun h => ⟨released_of_reach h, linked_of_reach h, registry_inv h,
      Registry.committed_of_reach (registry_reach h)⟩) ?_
    fun ⟨hrel, hl, hinv, hc⟩ hd hok hs => hd.step hrel hl hinv hc (step_move hs) hok
  rintro _ rfl
  exact ⟨⟨fun _ => rfl, fun _ => rfl⟩, fun _ => nofun, fun _ => nofun, fun _ _ _ _ => nofun,
    fun _ _ => nofun, nofun, fun _ h => absurd rfl h⟩

/-- In every run in which no commit stores its runner behind the scan of `begin_shutdown`: once
`begin_shutdown` has returned, `ActorRunner::kill` has been called on every actor whose spawn has
returned, and none of them is still running. -/
theorem killed_of_noLateCommit (h : Reach (machine k T M F A poisons capacity) NoLateCommit s)
    (hdone : s.disposal = .done) {n : Nat} (hn : n ∈ s.returned) :
    ∃ actor, s.actors n = some actor ∧ 1 ≤ actor.run.mem.killCalls ∧
      actor.run.mem.lifecycle ≠ .running := by
  have hd := disposalInv_of_reach h
  rcases hd.covered n (hd.returned n hn) with ⟨actor, ha, hkill⟩ | hn | ⟨i, -, -, hp⟩
  · refine ⟨actor, ha, hkill, fun hrunning => ?_⟩
    rw [hd.running n actor ha hrunning] at hkill
    cases hkill
  · rw [State.toKill, hdone] at hn
    cases hn
  · rw [State.passed, hdone] at hp
    cases hp

/-- One actor is spawned before the system is shut down. -/
def shutDown : State 1 Nat Nat Nat Nat :=
  ((machine 1 Nat Nat Nat Nat true 4).run (withCapacity 1 Nat Nat Nat Nat 4)
    ([Action.spawn 0 ⟨none, none, 2, true⟩] ++ List.replicate 13 (Action.call 0 false) ++
      [Action.shutdown 1 false none] ++ List.replicate 14 (Action.call 1 false))).get rfl

theorem killed_of_noLateCommit_shutDown : shutDown.disposal = .done ∧ shutDown.returned = [0] ∧
    ∃ actor, shutDown.actors 0 = some actor ∧ 1 ≤ actor.run.mem.killCalls ∧
      actor.run.mem.lifecycle ≠ .running := by
  have hret : shutDown.returned = [0] := rfl
  exact ⟨rfl, hret, killed_of_noLateCommit (.get rfl (by decide) rfl) rfl
    (hret ▸ List.mem_singleton_self 0)⟩

/-- The spawn has looked at `is_disposed` when thread 1 shuts the system down: the scan finds
nothing, and the spawn goes on, stores its runner and returns. -/
def spawnedLate : State 1 Nat Nat Nat Nat :=
  ((machine 1 Nat Nat Nat Nat true 4).run (withCapacity 1 Nat Nat Nat Nat 4)
    ([Action.spawn 0 ⟨none, none, 2, true⟩, Action.call 0 false, Action.shutdown 1 false none] ++
      List.replicate 6 (Action.call 1 false) ++ List.replicate 12 (Action.call 0 false))).get rfl

/-- The actor is left running in the disposed system, with nobody to kill it. -/
theorem notKilled_lateCommit :
    Reach (machine 1 Nat Nat Nat Nat true 4) Machine.free spawnedLate ∧
      spawnedLate.isDisposed = true ∧ spawnedLate.disposal = .done ∧
      spawnedLate.callers 0 = .spawned 0 ∧ spawnedLate.returned = [0] ∧
      spawnedLate.registry.mem.live = 1 ∧
      (spawnedLate.actors 0).map (fun actor =>
        (actor.run.mem.lifecycle, actor.run.mem.killCalls)) = some (.running, 0) ∧
      ¬∀ n ∈ spawnedLate.returned, spawnedLate.Killed n := by
  have hactor : (spawnedLate.actors 0).map (fun actor =>
      (actor.run.mem.lifecycle, actor.run.mem.killCalls)) = some (.running, 0) := rfl
  refine ⟨.get_free rfl rfl, rfl, rfl, rfl, rfl, rfl, hactor, fun h => ?_⟩
  obtain ⟨actor, ha, hkill⟩ := h 0 (List.mem_singleton_self 0)
  simp only [ha, Option.map_some, Option.some.injEq, Prod.mk.injEq] at hactor
  omega

end

end DignusActor.ActorSystem
