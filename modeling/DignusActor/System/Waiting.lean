import DignusActor.Registry.Mutexes
import DignusActor.System.Panics

/-! # Operations that wait for one another

A thread in an operation of the system may wait for a mutex of the registry. `State.Completes` says
that it comes to the end of its operation with the threads that it waits for: as long as it has not,
one of them can take a step, and each of their steps leads there. A method that locks `alloc` is
left by the induction on its end in the registry (`completes_of_locksAlloc`), and the
`finalize_kill` of a dispatcher thread completes in every run in which none panics
(`completes_finalizing`). -/

namespace DignusActor.ActorSystem

open Machine (Reach)

variable {k : Nat} {T M F A : Type} [DecidableEq T] [DecidableEq A]

/-- Thread `u` comes to `Done`, with the threads that it waits for in the registry: as long as it
has not, one of them can take a step, and each of their steps that meets `ok` leads there. -/
inductive State.Completes (poisons : Bool) (ok : State k T M F A → Action k T M F A → Prop)
    (u : Thread k T) (Done : State k T M F A → Prop) : State k T M F A → Prop
  | done {s} : Done s → State.Completes poisons ok u Done s
  | step {s} : (∃ a s', s.registry.Helps u a.thread ∧ step poisons s a = some s') →
    (∀ a s', s.registry.Helps u a.thread → ok s a → step poisons s a = some s' →
      State.Completes poisons ok u Done s') → State.Completes poisons ok u Done s

section
variable {poisons : Bool} {s s' : State k T M F A} {d : Fin k} {n : Nat} {actor : Actor k T M F A}
  {u : Thread k T} {ok : State k T M F A → Action k T M F A → Prop}
  {Done : State k T M F A → Prop} {capacity : Nat}

/-! ## The steps of a thread that has a mutex of the registry -/

omit [DecidableEq T] [DecidableEq A] in
theorem inside_method (hu : (s.registry.pcs u).Inside s.registry.mem.data) :
    (s.registry.pcs u).method ≠ .rest ∧ ∀ n, (s.registry.pcs u).method ≠ .reserved n := by
  generalize s.registry.pcs u = pc at hu
  rcases hu with h | ⟨i, h⟩ | h
  · cases pc <;> first | (cases h; done) | simp [Registry.Pc.method]
  · cases pc <;> first | (cases h; done) | simp [Registry.Pc.method]
  · cases pc <;> first | (cases h; done) | simp [Registry.Pc.method]

/-- A thread that has a mutex of the registry takes its next step there. -/
theorem Linked.registry_call (hl : Linked s) (h : Move poisons s s' u)
    (hu : (s.registry.pcs u).Inside s.registry.mem.data) :
    Registry.step poisons s.registry (.call u) = some s'.registry := by
  have hm := inside_method hu
  cases h with
  | caller t hpc hcall =>
    have hin := hl.caller t
    rw [hpc] at hin
    cases hcall with
    | reserving _ hr | reserved _ _ hr | reservePanic _ hr | committing _ hr | committed _ _ hr
    | snapshotting _ hr | snapshot _ _ hr | snapshotPanic _ hr | counting _ hr | counted _ _ hr
    | countPanic _ hr | countRemaining hr | timeout _ hr | timeoutPanic hr | requesting _ hr
    | requestDropped _ hr => exact hr
    | deliver _ _ _ _ hr => exact hr
    | beginSpawn _ hrest | beginShutdown _ _ hrest | beginLookup _ hrest
    | beginRequest _ _ hrest | beginWake _ _ _ hrest =>
      exact absurd (CallerPc.inMethod_of_atRest hrest hin) hm.1
    | newRunner _ n | newRunnerPanic _ n | insertPoisoned _ n | insertDuplicate _ n
    | insertAlias _ n | insertNone _ n => exact absurd hin (hm.2 n)
    | _ => exact absurd hin hm.1
  | worker d hwork =>
    have hremoving : s.finalizers d = .removing := by
      by_contra hne
      exact hm.1 ((hl.worker d).rest hne)
    obtain ⟨n, actor, hbusy, ha, hw⟩ := (hl.worker d).finalizing (by simp [hremoving])
    cases hwork with
    | pick _ hnone | exit hnone => cases hnone.symm.trans hbusy
    | execute _ _ hm ha' hne | «return» _ _ hm ha' hne | unwind _ _ hm ha' hne =>
      cases hm.symm.trans hbusy
      cases ha'.symm.trans ha
      exact absurd hw hne
    | finalize _ _ _ _ hpc hfin =>
      rw [hremoving] at hpc
      subst hpc
      cases hfin with
      | removing hr | removed _ hr | removedNone hr | removePanic hr => exact hr

/-- Who can take a step in the registry takes it in the system. -/
theorem Linked.exists_step (hl : Linked s) {registry : Registry.State (Thread k T) Nat}
    (hr : Registry.step poisons s.registry (.call u) = some registry)
    (hu : (s.registry.pcs u).Inside s.registry.mem.data) :
    ∃ a s', Action.thread a = u ∧ ActorSystem.step poisons s a = some s' := by
  obtain ⟨hrest, hreserved⟩ := inside_method hu
  cases u with
  | caller t =>
    refine ⟨.call t false, ?_⟩
    simp only [Action.thread, true_and]
    refine Option.isSome_iff_exists.mp ?_
    have hin := hl.caller t
    have hdeliver {request : Request M} :
        (requestStep poisons s t (.requesting request)).isSome = true := by
      simp only [requestStep]
      split
      · rename_i hpc
        rw [hpc] at hu
        rcases hu with h | ⟨i, h⟩ | h
        · cases h
        · cases h
        · cases h
      · simp [State.inRegistry, hr]
    cases hpc : s.callers t with
    | reserving | committing =>
      simp [ActorSystem.step, hpc, spawnStep, State.inRegistry, hr]
    | snapshotting | counting | countRemaining =>
      simp [ActorSystem.step, hpc, spawnStep, shutdownStep, State.inRegistry, hr]
    | requesting request =>
      simp [ActorSystem.step, hpc, spawnStep, shutdownStep, hdeliver]
    | newRunner _ n | aliasInsert _ n =>
      rw [hpc] at hin
      exact absurd hin (hreserved n)
    | _ =>
      rw [hpc] at hin
      exact absurd hin hrest
  | worker d =>
    have hremoving : s.finalizers d = .removing := by
      by_contra hne
      exact hrest ((hl.worker d).rest hne)
    obtain ⟨n, actor, hbusy, ha, hw⟩ := (hl.worker d).finalizing (by simp [hremoving])
    refine ⟨.execute d .done, ?_⟩
    simp only [Action.thread, true_and]
    refine Option.isSome_iff_exists.mp ?_
    simp [ActorSystem.step, hbusy, executeStep, State.workerIn, ha, hw, hremoving, finalizeStep,
      State.inRegistry, hr]

/-- A thread that waits for nobody, and whose next steps all lead to the end. -/
theorem State.Completes.alone (hw : s.registry.waitsFor u = none)
    (hstep : ∃ a s', Action.thread a = u ∧ ActorSystem.step poisons s a = some s')
    (h : ∀ a s', a.thread = u → ok s a → ActorSystem.step poisons s a = some s' →
      s'.Completes poisons ok u Done) : s.Completes poisons ok u Done := by
  obtain ⟨a, s', rfl, hs⟩ := hstep
  exact .step ⟨a, s', .self, hs⟩ fun a s' hu hok hs => h a s' (hu.eq_self hw) hok hs

/-- By the induction on the end of the method. -/
theorem completes_of_ends {registry : Registry.State (Thread k T) Nat}
    (hends : registry.Ends poisons u) (P : State k T M F A → Prop)
    (hlocks : ∀ {s}, Reach (machine k T M F A poisons capacity) ok s → P s →
      (s.registry.pcs u).method.locksAlloc = true)
    (hstep : ∀ {s a s'}, Reach (machine k T M F A poisons capacity) ok s → P s → ok s a →
      step poisons s a = some s' → P s' ∨ s'.Completes poisons ok u Done) :
    ∀ {s}, Reach (machine k T M F A poisons capacity) ok s → s.registry = registry → P s →
      s.Completes poisons ok u Done := by
  induction hends with
  | back hend =>
    intro s h hr hp
    subst hr
    cases hend.symm.trans (hlocks h hp)
  | step hex hall ih =>
    intro s h hr hp
    subst hr
    have hl := linked_of_reach h
    have hheld := Registry.held_of_reach (registry_reach h)
    have hinside := Registry.Pc.inside_of_locksAlloc (hlocks h hp) s.registry.mem.data
    refine .step ?_ fun a s' hu hok hs => ?_
    · obtain ⟨v, registry', hv, hr⟩ := hex
      obtain ⟨a, s', rfl, hs⟩ := hl.exists_step hr (hv.inside hheld hinside)
      exact ⟨a, s', hv, hs⟩
    · have hr := hl.registry_call (step_move hs) (hu.inside hheld hinside)
      exact (hstep h hp hok hs).elim (fun hp' => ih _ _ hu hr (h.step hok hs) rfl hp') id

/-- A thread leaves a method that locks `alloc`, and completes what it does there. -/
theorem completes_of_locksAlloc (P : State k T M F A → Prop)
    (hlocks : ∀ {s}, Reach (machine k T M F A poisons capacity) ok s → P s →
      (s.registry.pcs u).method.locksAlloc = true)
    (hstep : ∀ {s a s'}, Reach (machine k T M F A poisons capacity) ok s → P s → ok s a →
      step poisons s a = some s' → P s' ∨ s'.Completes poisons ok u Done)
    (h : Reach (machine k T M F A poisons capacity) ok s) (hp : P s) :
    s.Completes poisons ok u Done :=
  completes_of_ends (Registry.ends_of_locksAlloc (Registry.held_of_reach (registry_reach h))
    (registry_inv h) (Registry.bounded_of_reach (registry_reach h)) (hlocks h hp)) P hlocks hstep h
    rfl hp

/-! ## The end of `finalize_kill` -/

/-- A dispatcher inside `execute` goes on in it. -/
theorem step_of_busy {a : Action k T M F A} (hs : ActorSystem.step poisons s a = some s')
    (ha : a.thread = .worker d) (hbusy : s.busy d = some n) : ∃ o, a = .execute d o := by
  cases a with
  | pick =>
    cases ha
    obtain ⟨_, _, hnone, -⟩ := step_pick hs
    cases hnone.symm.trans hbusy
  | exit =>
    cases ha
    obtain ⟨-, hnone, -⟩ := step_exit hs
    cases hnone.symm.trans hbusy
  | execute _ o =>
    cases ha
    exact ⟨o, rfl⟩
  | _ => cases ha

/-- Dispatcher `d` is in `on_finalize` of actor `n`. -/
structure State.Finalizes (s : State k T M F A) (d : Fin k) (n : Nat) (actor : Actor k T M F A) :
    Prop where
  busy : s.busy d = some n
  found : s.actors n = some actor
  onFinalize : actor.run.workers d = .onFinalize

omit [DecidableEq T] [DecidableEq A] in
theorem State.Finalizes.of_eq (h : s.Finalizes d n actor) (hbusy : s'.busy = s.busy)
    (hactors : s'.actors = s.actors) : s'.Finalizes d n actor :=
  ⟨by rw [hbusy, h.busy], by rw [hactors, h.found], h.onFinalize⟩

/-- The steps of a dispatcher in `on_finalize` are those of `finalize_kill`. -/
theorem State.Finalizes.move {a : Action k T M F A} (h : s.Finalizes d n actor)
    (hs : ActorSystem.step poisons s a = some s') (ha : a.thread = .worker d) :
    FinalizeMove poisons s d n actor (s.finalizers d) s' := by
  obtain ⟨o, rfl⟩ := step_of_busy hs ha h.busy
  obtain ⟨m, actor', hbusy, ha', hmove⟩ := step_execute hs
  cases hbusy.symm.trans h.busy
  cases ha'.symm.trans h.found
  cases hmove with
  | finalize _ hfin => exact hfin
  | run hne => exact absurd h.onFinalize hne

theorem State.Finalizes.step_eq (h : s.Finalizes d n actor) {o : ActorRunner.Outcome F} :
    ActorSystem.step poisons s (.execute d o) = finalizeStep poisons s d n (s.finalizers d) := by
  simp [ActorSystem.step, h.busy, executeStep, State.workerIn, h.found, h.onFinalize]

theorem completes_done (h : Reach (machine k T M F A poisons capacity) ok s)
    (hfin : s.Finalizes d n actor) (hpc : s.finalizers d = .done) :
    s.Completes poisons ok (.worker d) fun s => s.busy d = none := by
  refine .alone ?_ ⟨.execute d .done, ?_⟩ fun a s' ha _ hs => ?_
  · exact Registry.State.waitsFor_of_rest (((linked_of_reach h).worker d).rest (by simp [hpc]))
  · simp only [Action.thread, true_and]
    rw [hfin.step_eq, hpc]
    refine Option.isSome_iff_exists.mp ?_
    simp [finalizeStep, State.inActor, hfin.found, ActorRunner.step, hfin.onFinalize,
      ActorRunner.workerStep]
  · have hmove := hfin.move hs ha
    rw [hpc] at hmove
    cases hmove with
    | done => exact .done (by simp [State.setFinalizer])

section
variable (hok : ∀ {s}, Reach (machine k T M F A poisons capacity) ok s →
  s.finalizers d ≠ .panicked)
include hok

theorem completes_aliasRemove (h : Reach (machine k T M F A poisons capacity) ok s)
    (hfin : s.Finalizes d n actor) {actorAlias : A}
    (hpc : s.finalizers d = .aliasRemove actorAlias) :
    s.Completes poisons ok (.worker d) fun s => s.busy d = none := by
  refine .alone ?_ ⟨.execute d .done, ?_⟩ fun a s' ha hoka hs => ?_
  · exact Registry.State.waitsFor_of_rest (((linked_of_reach h).worker d).rest (by simp [hpc]))
  · simp only [Action.thread, true_and]
    rw [hfin.step_eq, hpc]
    simp only [finalizeStep]
    split <;> exact ⟨_, rfl⟩
  · have h' := h.step hoka hs
    have hmove := hfin.move hs ha
    rw [hpc] at hmove
    cases hmove with
    | aliasPanic => exact absurd (Function.update_self ..) (hok h')
    | aliasRemove => exact completes_done h' (hfin.of_eq rfl rfl) (Function.update_self ..)

theorem completes_removing (h : Reach (machine k T M F A poisons capacity) ok s)
    (hfin : s.Finalizes d n actor) (hpc : s.finalizers d = .removing) :
    s.Completes poisons ok (.worker d) fun s => s.busy d = none := by
  refine completes_of_locksAlloc
    (fun s => s.finalizers d = .removing ∧ ∃ actor, s.Finalizes d n actor) ?_ ?_ h
    ⟨hpc, actor, hfin⟩
  · rintro s h ⟨hpc, actor, hfin⟩
    obtain ⟨r, -, hm⟩ := ((linked_of_reach h).worker d).removing n hfin.busy hpc
    rw [hm]
    rfl
  · rintro s a s' h ⟨hpc, actor, hfin⟩ hoka hs
    have h' := h.step hoka hs
    by_cases ha : a.thread = .worker d
    · have hmove := hfin.move hs ha
      rw [hpc] at hmove
      cases hmove with
      | removing => exact .inl ⟨hpc, actor, hfin.of_eq rfl rfl⟩
      | removed r =>
        obtain halias | ⟨actorAlias, halias⟩ :=
          Option.eq_none_or_eq_some ((s.actors r).bind (·.actorAlias))
        · refine .inr (completes_done h' (hfin.of_eq rfl rfl) ?_)
          simp [State.setFinalizer, halias]
        · refine .inr (completes_aliasRemove hok h' (hfin.of_eq rfl rfl)
            (?_ : State.finalizers _ d = .aliasRemove actorAlias))
          simp [State.setFinalizer, halias]
      | removedNone =>
        exact .inr (completes_done h' (hfin.of_eq rfl rfl) (Function.update_self ..))
      | removePanic => exact absurd (Function.update_self ..) (hok h')
    · obtain ⟨hbusy, hpc'⟩ := (step_move hs).workers_of_ne ha
      obtain ⟨actor', ha', hevolves⟩ := (linked_of_reach h).evolves (step_move hs) hfin.found
      exact .inl ⟨hpc'.trans hpc, actor', hbusy.trans hfin.busy, ha',
        (hevolves.workers ha).trans hfin.onFinalize⟩

/-- **`finalize_kill` completes**, where none panics. -/
theorem completes_finalizing (h : Reach (machine k T M F A poisons capacity) ok s)
    (hfin : s.Finalizes d n actor) :
    s.Completes poisons ok (.worker d) fun s => s.busy d = none := by
  have hl := linked_of_reach h
  cases hpc : s.finalizers d with
  | start =>
    have hrest : (s.registry.pcs (.worker d)).method = .rest :=
      (hl.worker d).rest (by simp [hpc])
    refine .alone (Registry.State.waitsFor_of_rest hrest) ⟨.execute d .done, ?_⟩
      fun a s' ha hoka hs => ?_
    · have hr := List.getElem?_eq_getElem (hl.known n actor hfin.found)
      simp only [Action.thread, true_and]
      rw [hfin.step_eq, hpc]
      refine Option.isSome_iff_exists.mp ?_
      simp [finalizeStep, State.inRegistry, Registry.step, hr, Registry.State.begin,
        Registry.Pc.atRest_of_method hrest]
    · have hmove := hfin.move hs ha
      rw [hpc] at hmove
      cases hmove with
      | remove =>
        exact completes_removing hok (h.step hoka hs) (hfin.of_eq rfl rfl)
          (Function.update_self ..)
  | removing => exact completes_removing hok h hfin hpc
  | aliasRemove => exact completes_aliasRemove hok h hfin hpc
  | done => exact completes_done h hfin hpc
  | panicked => exact absurd hpc (hok h)

end

end

end DignusActor.ActorSystem
