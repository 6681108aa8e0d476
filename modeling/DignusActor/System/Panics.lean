import DignusActor.Runner.Returning
import DignusActor.System.Vacated

/-! # Panics on the dispatcher threads

The calls of `on_kill` and of the dead-letter callback stand in no `catch_unwind`, and the
`finalize_kill` of the system unwraps two locks. Where none of these panics (`Guarded`) no
dispatcher thread dies, whatever the calls of `on_receive` and the polls of its futures do
(`surviving_of_guarded`), and an actor whose `on_kill` has returned gives its slot back
(`vacating_of_guarded`). -/

namespace DignusActor.ActorSystem

open Machine (Reach)

variable {k : Nat} {T M F A : Type}

namespace State

variable (s : State k T M F A) (d : Fin k)

/-- Dispatcher `d` is in a call of user code. -/
def inUserCode : Bool :=
  (s.busy d).any fun n => (s.actors n).any fun actor => actor.run.inUserCode d

/-- Dispatcher `d` is in a call of user code that no `catch_unwind` stands around. -/
def unguarded : Bool :=
  (s.busy d).any fun n => (s.actors n).any fun actor => actor.run.unguarded d

/-- Dispatcher `d` is about to find a lock poisoned in `finalize_kill`. -/
def meetsPoison : Bool :=
  s.removePoisoned (.worker d) || match s.finalizers d with
    | .aliasRemove _ => s.aliasPoisoned
    | _ => false

end State

/-- `on_kill` and the dead-letter callback do not panic, and `finalize_kill` finds no lock
poisoned. -/
def Guarded (s : State k T M F A) : Action k T M F A → Prop
  | .execute d .panicked => s.unguarded d = false ∧ s.meetsPoison d = false
  | .execute d _ => s.meetsPoison d = false
  | _ => True

instance (s : State k T M F A) : ∀ a, Decidable (Guarded s a)
  | .execute _ .panicked => inferInstanceAs (Decidable (_ ∧ _))
  | .execute _ .done | .execute _ (.pending _) => inferInstanceAs (Decidable (_ = _))
  | .spawn .. | .shutdown .. | .request .. | .wake .. | .lookup .. | .call .. | .pick ..
  | .exit _ => .isTrue trivial

/-- No dispatcher thread has died. -/
structure Surviving (s : State k T M F A) : Prop where
  alive : ∀ n actor, s.actors n = some actor → actor.run.Alive
  finalize : ∀ d, s.finalizers d ≠ .panicked

section
variable {s : State k T M F A} {d : Fin k} {n : Nat} {actor : Actor k T M F A}

theorem State.unguarded_eq (hbusy : s.busy d = some n) (ha : s.actors n = some actor) :
    s.unguarded d = actor.run.unguarded d := by
  simp [State.unguarded, hbusy, ha]

theorem State.inUserCode_eq (hbusy : s.busy d = some n) (ha : s.actors n = some actor) :
    s.inUserCode d = actor.run.inUserCode d := by
  simp [State.inUserCode, hbusy, ha]

theorem Guarded.meetsPoison {o : ActorRunner.Outcome F}
    (h : Guarded s (.execute d o : Action k T M F A)) : s.meetsPoison d = false := by
  cases o with
  | panicked => exact h.2
  | _ => exact h

variable [DecidableEq T] [DecidableEq A] {poisons : Bool} {s' : State k T M F A} {u : Thread k T}

/-- What a dispatcher thread does inside `execute`, by what user code answers. -/
inductive ExecuteMove (poisons : Bool) (s : State k T M F A) (d : Fin k)
    (o : ActorRunner.Outcome F) (n : Nat) (actor : Actor k T M F A) (s' : State k T M F A) : Prop
  | finalize : actor.run.workers d = .onFinalize →
    FinalizeMove poisons s d n actor (s.finalizers d) s' → ExecuteMove poisons s d o n actor s'
  | run {run} : actor.run.workers d ≠ .onFinalize →
    ActorRunner.step actor.owner actor.run (.worker d o) = some run →
    s'.actors = Function.update s.actors n (some { actor with run }) →
    s'.finalizers = s.finalizers → (run.workers d = .dead ∨ s'.exited = s.exited) →
    ExecuteMove poisons s d o n actor s'

theorem step_execute {o : ActorRunner.Outcome F} (h : step poisons s (.execute d o) = some s') :
    ∃ n actor, s.busy d = some n ∧ s.actors n = some actor ∧
      ExecuteMove poisons s d o n actor s' := by
  obtain ⟨n, hbusy, h⟩ := Option.bind_eq_some_iff.mp h
  simp only [executeStep] at h
  split at h
  · rename_i hin
    obtain ⟨actor, ha, hw⟩ := Option.map_eq_some_iff.mp hin
    exact ⟨n, actor, hbusy, ha, .finalize hw (finalizeStep_move ha h)⟩
  · rename_i hne
    simp only [Option.map_eq_some_iff, State.inActor_eq_some] at h
    obtain ⟨_, ⟨actor, run, ha, hrun, rfl⟩, rfl⟩ := h
    have hw : actor.run.workers d ≠ .onFinalize := fun hw =>
      hne (Option.map_eq_some_iff.mpr ⟨actor, ha, hw⟩)
    refine ⟨n, actor, hbusy, ha, .run hw hrun ?_ ?_ ?_⟩
    · split <;> rfl
    · split <;> rfl
    · rw [State.workerIn_setActor]
      cases hrest : run.workers d <;> first | exact .inl rfl | exact .inr rfl

omit [DecidableEq A] in
/-- The thread of a guarded step survives it. -/
theorem Guarded.not_dead {o : ActorRunner.Outcome F}
    (hok : Guarded s (.execute d o : Action k T M F A)) {n : Nat} {actor : Actor k T M F A}
    (hbusy : s.busy d = some n) (ha : s.actors n = some actor)
    (hw : actor.run.workers d ≠ .onFinalize) {run : ActorRunner.State (Fin k) T M F}
    (hrun : ActorRunner.step actor.owner actor.run (.worker d o) = some run) :
    run.workers d ≠ .dead := by
  intro hdead
  cases ActorRunner.step_move hrun with
  | worker hstep =>
    simp only [Function.update_self] at hdead
    subst hdead
    obtain ⟨rfl, hpc⟩ := ActorRunner.workerStep_dead hstep
    have hguard := hok.1
    rw [State.unguarded_eq hbusy ha] at hguard
    rcases hpc with ⟨part, hpc⟩ | hpc | hpc
    · simp [ActorRunner.State.unguarded, hpc] at hguard
    · simp [ActorRunner.State.unguarded, hpc] at hguard
    · exact hw hpc

theorem step_pick (h : step poisons s (.pick d n) = some s') : ∃ actor run,
    s.busy d = none ∧ s.exited d = false ∧ s.actors n = some actor ∧
      ActorRunner.step actor.owner actor.run (.pick d) = some run ∧
      s' = { s.setActor n { actor with run } with busy := Function.update s.busy d (some n) } := by
  simp only [step] at h
  split at h
  · rename_i hd
    simp only [Bool.and_eq_true, decide_eq_true_eq, Bool.not_eq_true'] at hd
    simp only [Option.map_eq_some_iff, State.inActor_eq_some] at h
    obtain ⟨_, ⟨actor, run, ha, hrun, rfl⟩, rfl⟩ := h
    exact ⟨actor, run, hd.1, hd.2, ha, hrun, rfl⟩
  · cases h

theorem step_exit (h : step poisons s (.exit d) = some s') : s.stopped d = true ∧
    s.busy d = none ∧ s' = { s with exited := Function.update s.exited d true } := by
  simp only [step] at h
  split at h
  · rename_i hd
    simp only [Bool.and_eq_true, decide_eq_true_eq] at hd
    exact ⟨hd.1, hd.2, (Option.some.inj h).symm⟩
  · cases h

/-- A `finalize_kill` that meets no poisoned lock does not panic. -/
theorem FinalizeMove.not_panicked {n : Nat} {actor : Actor k T M F A} {pc : FinalizePc A}
    (h : FinalizeMove poisons s d n actor pc s') (hpc : s.finalizers d = pc)
    (hpanicked : pc ≠ .panicked) (hin : pc = .removing →
      ∃ handle, (s.registry.pcs (.worker d)).method = .remove handle)
    (hsafe : s.meetsPoison d = false) : s'.finalizers d ≠ .panicked := by
  simp only [State.meetsPoison, Bool.or_eq_false_iff] at hsafe
  cases h with
  | removing => simp [hpc]
  | removed r =>
    simp only [State.setFinalizer, Function.update_self]
    split <;> simp
  | removePanic hr hpcs =>
    obtain ⟨handle, hm⟩ := hin rfl
    have hfound := hsafe.1
    cases Registry.step_move hr with
    | call _ hcall =>
      simp only [Function.update_self] at hpcs
      subst hpcs
      unfold State.removePoisoned at hfound
      generalize s.registry.pcs (.worker d) = pc₀ at hcall hm hfound
      cases hcall with
      | removePoisoned _ hp => cases hfound.symm.trans hp
      | _ => cases hm
  | aliasPanic _ hpoisoned =>
    have hfound := hsafe.2
    rw [hpc] at hfound
    cases hfound.symm.trans hpoisoned
  | panicked => exact absurd rfl hpanicked
  | _ => simp [State.setFinalizer]

/-- Dispatcher `d` survives its own guarded step. -/
theorem Surviving.alive_worker (h : Surviving s) {a : Action k T M F A} (hok : Guarded s a)
    (hs : ActorSystem.step poisons s a = some s') (hd : a.thread = .worker d) {n : Nat}
    {actor' : Actor k T M F A} (ha' : s'.actors n = some actor') :
    actor'.run.workers d ≠ .dead := by
  -- the runner of actor `m` takes a step
  have hset {m : Nat} {actor : Actor k T M F A} {run : ActorRunner.State (Fin k) T M F}
      (hactors : s'.actors = Function.update s.actors m (some { actor with run }))
      (hrun : run.workers d ≠ .dead) : actor'.run.workers d ≠ .dead := by
    rw [hactors] at ha'
    by_cases hnm : n = m
    · subst hnm
      rw [Function.update_self] at ha'
      cases ha'
      exact hrun
    · rw [Function.update_of_ne hnm] at ha'
      exact h.alive n actor' ha' d
  cases a with
  | pick _ m =>
    cases hd
    obtain ⟨actor, run, -, -, ha, hrun, rfl⟩ := step_pick hs
    refine hset rfl ?_
    cases ActorRunner.step_move hrun
    simp
  | exit =>
    obtain ⟨-, -, rfl⟩ := step_exit hs
    exact h.alive n actor' ha' d
  | execute _ o =>
    cases hd
    obtain ⟨m, actor, hbusy, ha, hmove⟩ := step_execute hs
    cases hmove with
    | run hw hrun hactors => exact hset hactors (hok.not_dead hbusy ha hw hrun)
    | finalize hw hfin =>
      generalize hpc : s.finalizers d = pc at hfin
      cases hfin with
      | done hrun =>
        refine hset rfl ?_
        cases ActorRunner.step_move hrun with
        | worker hstep =>
          rw [hw] at hstep
          cases hstep
          simp
      | panicked => exact absurd hpc (h.finalize d)
      | _ => exact h.alive n actor' ha' d
  | _ => cases hd

theorem Surviving.finalize_worker (h : Surviving s) (hl : Linked s) {a : Action k T M F A}
    (hok : Guarded s a) (hs : ActorSystem.step poisons s a = some s')
    (hd : a.thread = .worker d) : s'.finalizers d ≠ .panicked := by
  cases a with
  | pick =>
    obtain ⟨actor, run, -, -, -, -, rfl⟩ := step_pick hs
    exact h.finalize d
  | exit =>
    obtain ⟨-, -, rfl⟩ := step_exit hs
    exact h.finalize d
  | execute _ o =>
    cases hd
    obtain ⟨n, actor, hbusy, ha, hmove⟩ := step_execute hs
    cases hmove with
    | run _ _ _ hfinalizers =>
      rw [hfinalizers]
      exact h.finalize d
    | finalize hw hfin =>
      refine hfin.not_panicked rfl (h.finalize d) (fun hremoving => ?_) hok.meetsPoison
      obtain ⟨r, -, hm⟩ := (hl.worker d).removing n hbusy hremoving
      exact ⟨r.toHandle, hm⟩
  | _ => cases hd

theorem Surviving.step (h : Surviving s) (hl : Linked s) {a : Action k T M F A}
    (hok : Guarded s a) (hs : ActorSystem.step poisons s a = some s') : Surviving s' where
  alive n actor' ha' d := by
    by_cases hd : a.thread = .worker d
    · exact h.alive_worker hok hs hd ha'
    · rcases hl.actor_cases (step_move hs) ha' with ⟨-, _, _, _, -, -, hnew⟩ | ⟨actor, ha, hevolves⟩
      · rw [(newActor_untouched hnew).workers]
        nofun
      · rw [hevolves.workers hd]
        exact h.alive n actor ha d
  finalize d := by
    by_cases hd : a.thread = .worker d
    · exact h.finalize_worker hl hok hs hd
    · rw [((step_move hs).workers_of_ne hd).2]
      exact h.finalize d

/-- No thread of a guarded run ends but by leaving its loop. -/
theorem Surviving.exited_execute (h : Surviving s) {o : ActorRunner.Outcome F}
    (hok : Guarded s (.execute d o : Action k T M F A))
    (hs : ActorSystem.step poisons s (.execute d o) = some s') : s'.exited = s.exited := by
  obtain ⟨n, actor, hbusy, ha, hmove⟩ := step_execute hs
  cases hmove with
  | run hw hrun _ _ hexited => exact hexited.resolve_left (hok.not_dead hbusy ha hw hrun)
  | finalize _ hfin =>
    generalize hpc : s.finalizers d = pc at hfin
    cases hfin with
    | panicked => exact absurd hpc (h.finalize d)
    | _ => rfl

theorem CallMove.exited {t : T} {pc : CallerPc k M A} (h : CallMove poisons s t pc s') :
    s'.exited = s.exited := by
  cases h <;> rfl

/-! ## Runs -/

section
variable {capacity : Nat} {ok : State k T M F A → Action k T M F A → Prop}

/-- What holds of a new runner, and is kept by its steps, holds of the runner of every actor. -/
theorem runs_of_reach (h : Reach (machine k T M F A poisons capacity) ok s)
    (P : ActorRunner.State (Fin k) T M F → Prop)
    (new : ∀ {mailboxCapacity q} (stopped : Fin k → Bool),
      MpscBoundedQueue.new M mailSlotSize mailboxCapacity = some q →
      P { ActorRunner.initial (Fin k) T F q with
        mem := { (ActorRunner.initial (Fin k) T F q).mem with stopped } })
    (step : ∀ {owner run a run'}, P run → ActorRunner.step owner run a = some run' → P run') :
    ∀ n actor, s.actors n = some actor → P actor.run := by
  refine h.inv_of Linked (fun s => ∀ n actor, s.actors n = some actor → P actor.run)
    linked_of_reach ?_ fun {s a s'} hl hP _ hs n actor' ha' => ?_
  · rintro _ rfl _ _ h
    cases h
  · rcases hl.actor_cases (step_move hs) ha' with ⟨-, _, _, _, -, -, hnew⟩ | ⟨actor, ha, hevolves⟩
    · obtain ⟨-, q, hq, rfl⟩ := newActor_eq_some.mp hnew
      exact new _ hq
    · rcases hevolves.run with hrun | ⟨action, hrun, -⟩
      · rw [hrun]
        exact hP n actor ha
      · exact step (hP n actor ha) hrun

theorem executeInv_of_reach (h : Reach (machine k T M F A poisons capacity) ok s) :
    ∀ n actor, s.actors n = some actor → ActorRunner.ExecuteInv actor.run :=
  runs_of_reach h _ (fun stopped hq => ActorRunner.initial_executeInv hq stopped)
    fun H hs => H.step hs

omit [DecidableEq T] [DecidableEq A] in
/-- No thread but that of a dispatcher is in `remove`. -/
theorem Linked.removePoisoned_eq_false (hl : Linked s) {u : Thread k T}
    (h : ∀ d n, u = .worker d → s.busy d = some n → s.removePoisoned u = false) :
    s.removePoisoned u = false := by
  by_contra hp
  simp only [Bool.not_eq_false] at hp
  have hm : ∃ handle, (s.registry.pcs u).method = .remove handle := by
    unfold State.removePoisoned at hp
    split at hp
    · rename_i handle hpc
      exact ⟨handle, by rw [hpc]; rfl⟩
    · cases hp
  obtain ⟨handle, hm⟩ := hm
  obtain ⟨d, n, actor, hu, hrem⟩ := hl.removing_of_method hm
  cases hp.symm.trans (h d n hu hrem.busy)

theorem Guarded.removePoisoned (hl : Linked s) {a : Action k T M F A} (hok : Guarded s a)
    (hs : ActorSystem.step poisons s a = some s') : s.removePoisoned a.thread = false := by
  refine hl.removePoisoned_eq_false fun d n hd hbusy => ?_
  cases a with
  | pick =>
    cases hd
    obtain ⟨_, _, hnone, -⟩ := step_pick hs
    cases hnone.symm.trans hbusy
  | exit =>
    cases hd
    obtain ⟨-, hnone, -⟩ := step_exit hs
    cases hnone.symm.trans hbusy
  | execute _ o =>
    have hsafe := hok.meetsPoison
    simp only [State.meetsPoison, Bool.or_eq_false_iff] at hsafe
    exact hsafe.1
  | _ => cases hd

theorem surviving_of_guarded (h : Reach (machine k T M F A poisons capacity) Guarded s) :
    Surviving s := by
  refine h.inv_of Linked Surviving linked_of_reach ?_ fun hl hsurviving hok hs =>
    hsurviving.step hl hok hs
  rintro _ rfl
  exact ⟨by simp [withCapacity], by simp [withCapacity]⟩

theorem vacating_of_guarded (h : Reach (machine k T M F A poisons capacity) Guarded s) :
    Vacating s := by
  refine h.inv_of
    (fun s => (Seated s ∧ Released s) ∧ Linked s ∧ Registry.Inv s.registry ∧
      s.registry.mem.data.Bounded) Vacating
    (fun h => ⟨⟨seated_of_reach h, released_of_reach h⟩, linked_of_reach h, registry_inv h,
      Registry.bounded_of_reach (registry_reach h)⟩) ?_
    fun ⟨⟨hseat, hrel⟩, hl, hinv, hb⟩ hv hok hs =>
      hv.step hseat hrel hl hinv hb (step_move hs) (hok.removePoisoned hl hs)
  rintro _ rfl
  refine ⟨by simp [withCapacity], ?_, fun u => ⟨?_, ?_⟩, ?_, by simp [withCapacity]⟩
  · simp [Collected, withCapacity, Registry.withCapacity, Registry.Pc.collected,
      CallerPc.toKill]
  · simp [withCapacity, Registry.withCapacity]
  · simp [withCapacity, Registry.withCapacity]
  · intro n i hn
    cases hn

end

end

end DignusActor.ActorSystem
