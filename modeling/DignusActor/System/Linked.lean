import DignusActor.Registry.Handles
import DignusActor.Registry.Live
import DignusActor.Runner.Finalize
import DignusActor.System.Moves

/-! # The threads of the system, in the registry and in the runners

The registry and each runner of the system run as the models of their own: `registry_reach` projects
a run of the system to one of the registry, and `Move.actor` says that an actor is new, or takes at
most one step of its runner. `Linked` ties where a thread stands in the system to the method of the
registry that it is in, and to the runner that it executes. -/

namespace DignusActor.ActorSystem

open Machine (Reach)

variable {k : Nat} {T M F A : Type} [DecidableEq T] [DecidableEq A]

/-! ## What every step keeps -/

section
variable {poisons : Bool} {s s' : State k T M F A} {t : T} {d : Fin k} {pc : CallerPc k M A}

theorem CallMove.callers_of_ne (h : CallMove poisons s t pc s') {u : T} (hu : u ≠ t) :
    s'.callers u = s.callers u := by
  cases h <;> first | rfl | exact Function.update_of_ne hu ..

theorem CallMove.workers (h : CallMove poisons s t pc s') :
    s'.busy = s.busy ∧ s'.finalizers = s.finalizers := by
  cases h <;> exact ⟨rfl, rfl⟩

theorem CallMove.registry (h : CallMove poisons s t pc s') : s'.registry = s.registry ∨
    ∃ b, Registry.step poisons s.registry b = some s'.registry ∧ b.thread = .caller t ∧
      ∀ v n, b = .commit v n → ∃ spawn, pc = .aliasInsert spawn n := by
  cases h with
  | insertAlias spawn n _ _ _ h | insertNone spawn n _ h =>
    refine .inr ⟨_, h, rfl, ?_⟩
    rintro _ _ ⟨⟩
    exact ⟨spawn, rfl⟩
  | _ =>
    first
    | exact .inl rfl
    | refine .inr ⟨_, ‹Registry.step _ _ _ = _›, rfl, ?_⟩
      exact fun _ _ => nofun

/-- What a dispatcher thread leaves to the callers. -/
structure State.SameCalls (s s' : State k T M F A) : Prop where
  callers : s'.callers = s.callers
  aliasPoisoned : s'.aliasPoisoned = s.aliasPoisoned
  isDisposed : s'.isDisposed = s.isDisposed
  stopped : s'.stopped = s.stopped
  disposal : s'.disposal = s.disposal
  returned : s'.returned = s.returned
  succeeded : s'.succeeded = s.succeeded

theorem WorkMove.sameCalls (h : WorkMove poisons s d s') : State.SameCalls s s' := by
  cases h with
  | finalize n _ _ _ _ h => cases h <;> exact ⟨rfl, rfl, rfl, rfl, rfl, rfl, rfl⟩
  | pick _ _ _ _ hs | exit _ hs | execute _ _ _ _ _ _ _ _ hs | «return» _ _ _ _ _ _ _ hs
  | unwind _ _ _ _ _ _ _ hs =>
    subst hs
    exact ⟨rfl, rfl, rfl, rfl, rfl, rfl, rfl⟩

theorem WorkMove.callers (h : WorkMove poisons s d s') : s'.callers = s.callers :=
  h.sameCalls.callers

theorem WorkMove.of_ne (h : WorkMove poisons s d s') {d' : Fin k} (hd : d' ≠ d) :
    s'.busy d' = s.busy d' ∧ s'.finalizers d' = s.finalizers d' := by
  cases h with
  | finalize n _ _ _ _ h => cases h <;> simp [State.setFinalizer, State.setActor, hd]
  | pick _ _ _ _ hs | exit _ hs | execute _ _ _ _ _ _ _ _ hs | «return» _ _ _ _ _ _ _ hs
  | unwind _ _ _ _ _ _ _ hs => simp [hs, State.setActor, hd]

theorem WorkMove.registry (h : WorkMove poisons s d s') : s'.registry = s.registry ∨
    ∃ b, Registry.step poisons s.registry b = some s'.registry ∧ b.thread = .worker d ∧
      ∀ v n, b ≠ .commit v n := by
  cases h with
  | finalize n _ _ _ _ h =>
    cases h <;> first
    | exact .inl rfl
    | refine .inr ⟨_, ‹Registry.step _ _ _ = _›, rfl, ?_⟩
      exact fun _ _ => nofun
  | pick _ _ _ _ hs | exit _ hs | execute _ _ _ _ _ _ _ _ hs | «return» _ _ _ _ _ _ _ hs
  | unwind _ _ _ _ _ _ _ hs => exact .inl (hs ▸ rfl)

variable {u : Thread k T}

theorem Move.registry (h : Move poisons s s' u) : s'.registry = s.registry ∨
    ∃ b, Registry.step poisons s.registry b = some s'.registry ∧ b.thread = u := by
  cases h with
  | caller t _ h => exact h.registry.imp_right fun ⟨b, h, hb, _⟩ => ⟨b, h, hb⟩
  | worker d h => exact h.registry.imp_right fun ⟨b, h, hb, _⟩ => ⟨b, h, hb⟩

theorem Move.callers_of_ne (h : Move poisons s s' u) {v : T} (hv : u ≠ .caller v) :
    s'.callers v = s.callers v := by
  cases h with
  | caller t _ h => exact h.callers_of_ne fun heq => hv (heq ▸ rfl)
  | worker d h => rw [h.callers]

theorem Move.workers_of_ne (h : Move poisons s s' u) (hd : u ≠ .worker d) :
    s'.busy d = s.busy d ∧ s'.finalizers d = s.finalizers d := by
  cases h with
  | caller t _ h => exact ⟨congrFun h.workers.1 d, congrFun h.workers.2 d⟩
  | worker d' h => exact h.of_ne fun heq => hd (heq ▸ rfl)

/-- Only the thread that takes the step moves in the registry. -/
theorem Move.pcs_of_ne (h : Move poisons s s' u) {v : Thread k T} (hv : v ≠ u) :
    s'.registry.pcs v = s.registry.pcs v := by
  rcases h.registry with h | ⟨b, h, hb⟩
  · rw [h]
  · exact Registry.step_pcs_of_ne h (hb ▸ hv)

/-- Thread `u` can take the step of a runner. -/
structure TakenBy (u : Thread k T) (action : ActorRunner.Action (Fin k) T M F) : Prop where
  dispatcher : ∀ d, action.dispatcher = some d → u = .worker d := by rintro _ ⟨⟩
  calling : ∀ t, action.calling = some t → u = .caller t := by rintro _ ⟨⟩

/-- The actor takes a step of its runner, or none. -/
structure Actor.Evolves (u : Thread k T) (actor actor' : Actor k T M F A) : Prop where
  owner : actor'.owner = actor.owner
  actorAlias : actor'.actorAlias = actor.actorAlias
  run : actor'.run = actor.run ∨
    ∃ action, ActorRunner.step actor.owner actor.run action = some actor'.run ∧ TakenBy u action

omit [DecidableEq A] in
theorem Actor.Evolves.refl (actor : Actor k T M F A) : actor.Evolves u actor :=
  ⟨rfl, rfl, .inl rfl⟩

omit [DecidableEq A] in
theorem Actor.Evolves.of_step {actor : Actor k T M F A} {run : ActorRunner.State (Fin k) T M F}
    {action : ActorRunner.Action (Fin k) T M F}
    (h : ActorRunner.step actor.owner actor.run action = some run)
    (hu : TakenBy u action) : actor.Evolves u { actor with run } :=
  ⟨rfl, rfl, .inr ⟨action, h, hu⟩⟩

omit [DecidableEq A] in
/-- The actors after a step of the runner of actor `n`. -/
theorem State.setActor_evolves {n : Nat} {actor actor' : Actor k T M F A}
    (ha : s.actors n = some actor) (h : actor.Evolves u actor') {m : Nat}
    {actor₁ : Actor k T M F A} (hm : (s.setActor n actor').actors m = some actor₁) :
    ∃ actor₀, s.actors m = some actor₀ ∧ actor₀.Evolves u actor₁ := by
  simp only [State.setActor] at hm
  by_cases hmn : m = n
  · subst hmn
    rw [Function.update_self] at hm
    cases hm
    exact ⟨actor, ha, h⟩
  · rw [Function.update_of_ne hmn] at hm
    exact ⟨actor₁, hm, .refl actor₁⟩

theorem CallMove.actor (h : CallMove poisons s t pc s') {n : Nat} {actor' : Actor k T M F A}
    (hn : s'.actors n = some actor') :
    (∃ spawn owner, pc = .newRunner spawn n ∧ newActor s spawn owner = some actor') ∨
      ∃ actor, s.actors n = some actor ∧ actor.Evolves (.caller t) actor' := by
  have hcalling (action : ActorRunner.Action (Fin k) T M F) (hd : action.dispatcher = none)
      (ht : action.calling = some t) : TakenBy (.caller t) action :=
    ⟨by simp [hd], fun v hv => congrArg _ (Option.some.inj (ht.symm.trans hv))⟩
  cases h with
  | newRunner spawn m hnew =>
    simp only [State.setCaller, State.setActor] at hn
    by_cases hnm : n = m
    · subst hnm
      rw [Function.update_self] at hn
      cases hn
      exact .inl ⟨spawn, _, rfl, hnew⟩
    · rw [Function.update_of_ne hnm] at hn
      exact .inr ⟨actor', hn, .refl actor'⟩
  | beginWake m current waker _ ha hrun =>
    exact .inr (State.setActor_evolves ha (.of_step hrun (hcalling _ rfl rfl)) hn)
  | kill _ m _ ha hrun | killRunner _ m _ ha hrun | killReturn _ m _ ha hrun | inRunner m ha hrun
  | runnerReturn m ha hrun =>
    exact .inr (State.setActor_evolves ha (.of_step hrun (hcalling _ rfl rfl)) hn)
  | deliver request lookup m _ _ ha hrun =>
    refine .inr (State.setActor_evolves ha (.of_step hrun ?_) hn)
    cases request <;> exact hcalling _ rfl rfl
  | stop call d =>
    obtain ⟨actor, ha, rfl⟩ := Option.map_eq_some_iff.mp hn
    exact .inr ⟨actor, ha, rfl, rfl, .inr ⟨.stop d, rfl, {}⟩⟩
  | _ => exact .inr ⟨actor', hn, .refl actor'⟩

theorem WorkMove.actor (h : WorkMove poisons s d s') {n : Nat} {actor' : Actor k T M F A}
    (hn : s'.actors n = some actor') :
    ∃ actor, s.actors n = some actor ∧ actor.Evolves (.worker d) actor' := by
  have htaken (action : ActorRunner.Action (Fin k) T M F) (hd : action.dispatcher = some d)
      (ht : action.calling = none) : TakenBy (.worker d : Thread k T) action :=
    ⟨fun d' hd' => congrArg _ (Option.some.inj (hd.symm.trans hd')), by simp [ht]⟩
  cases h with
  | pick m _ ha hrun hs =>
    subst hs
    exact State.setActor_evolves ha (.of_step hrun (htaken _ rfl rfl)) hn
  | exit _ hs =>
    subst hs
    exact ⟨actor', hn, .refl actor'⟩
  | execute m o _ ha _ hrun _ _ hs | «return» m o _ ha _ hrun _ hs | unwind m o _ ha _ hrun _ hs =>
    subst hs
    exact State.setActor_evolves ha (.of_step hrun (htaken _ rfl rfl)) hn
  | finalize m _ ha _ _ h =>
    cases h with
    | done hrun | panicked hrun =>
      exact State.setActor_evolves ha (.of_step hrun (htaken _ rfl rfl)) hn
    | _ => exact ⟨actor', hn, .refl actor'⟩

omit [DecidableEq T] [DecidableEq A] in
theorem State.setActor_ne_none {n m : Nat} {actor : Actor k T M F A} (h : s.actors m ≠ none) :
    (s.setActor n actor).actors m ≠ none := by
  simp only [State.setActor, Function.update_apply]
  split
  · simp
  · exact h

theorem Move.ne_none (h : Move poisons s s' u) {n : Nat} (hn : s.actors n ≠ none) :
    s'.actors n ≠ none := by
  cases h with
  | caller t _ h =>
    cases h with
    | stop => simpa [State.setCaller] using hn
    | _ => first | exact hn | exact State.setActor_ne_none hn
  | worker d h =>
    cases h with
    | exit _ hs =>
      subst hs
      exact hn
    | pick _ _ _ _ hs | execute _ _ _ _ _ _ _ _ hs | «return» _ _ _ _ _ _ _ hs
    | unwind _ _ _ _ _ _ _ hs =>
      subst hs
      exact State.setActor_ne_none hn
    | finalize m _ _ _ _ h => cases h <;> first | exact hn | exact State.setActor_ne_none hn

end

/-- The registry of the system runs as a registry. -/
theorem registry_reach {poisons : Bool} {capacity : Nat} {s : State k T M F A}
    {ok : State k T M F A → Action k T M F A → Prop}
    (h : Reach (machine k T M F A poisons capacity) ok s) :
    Reach (Registry.machine (Thread k T) Nat poisons capacity) Machine.free s.registry := by
  refine h.map State.registry ?_ fun _ _ _ hs => ?_
  · rintro _ rfl
    rfl
  · rcases (step_move hs).registry with h | ⟨b, h, -⟩
    · exact .inl h
    · exact .inr ⟨b, trivial, h⟩

/-! ## The invariant -/

/-- The caller is in method `m` of the registry. -/
def CallerPc.InMethod : CallerPc k M A → Registry.Method → Prop
  | .reserving _, m => m = .reserve
  | .newRunner _ n, m | .aliasInsert _ n, m => m = .reserved n
  | .committing n, m => m = .commit n
  | .snapshotting _, m => m = .snapshot
  | .counting _, m | .countRemaining, m => m = .count
  | .requesting _, m => ∃ lookup, m = .lookup lookup
  | _, m => m = .rest

/-- The caller has not come to the construction of its runner. -/
def CallerPc.creating : CallerPc k M A → Bool
  | .reserving _ | .newRunner .. => true
  | _ => false

/-- Where a dispatcher thread stands in `finalize_kill`, and in the registry. -/
structure WorkerLink (s : State k T M F A) (d : Fin k) : Prop where
  rest : s.finalizers d ≠ .removing → (s.registry.pcs (.worker d)).method = .rest
  removing : ∀ n, s.busy d = some n → s.finalizers d = .removing →
    ∃ r, s.registry.mem.data.reservations[n]? = some r ∧
      (s.registry.pcs (.worker d)).method = .remove r.toHandle
  finalizing : s.finalizers d ≠ .start → ∃ n actor, s.busy d = some n ∧
    s.actors n = some actor ∧ actor.run.workers d = .onFinalize

structure Linked (s : State k T M F A) : Prop where
  caller : ∀ t, (s.callers t).InMethod (s.registry.pcs (.caller t)).method
  worker : ∀ d, WorkerLink s d
  known : ∀ n actor, s.actors n = some actor → n < s.registry.mem.data.reservations.length
  fresh : ∀ t n, (s.callers t).creating = true →
    (s.registry.pcs (.caller t)).pending = some n → s.actors n = none
  own : ∀ u n r, s.registry.pcs u = .commitLock n r ∨ s.registry.pcs u = .commitStore n r → r = n
  finalize : ∀ n actor, s.actors n = some actor → ActorRunner.FinalizeInv actor.run

section
variable {poisons : Bool} {s s' : State k T M F A} {t : T} {d : Fin k} {pc : CallerPc k M A}
  {u : Thread k T}

omit [DecidableEq T] [DecidableEq A] in
theorem CallerPc.inMethod_of_atRest {m : Registry.Method} (hpc : pc.atRest = true)
    (h : pc.InMethod m) : m = .rest := by
  cases pc <;> first | exact h | cases hpc

theorem CallMove.inMethod (h : CallMove poisons s t pc s') (hpc : s.callers t = pc)
    (hin : pc.InMethod (s.registry.pcs (.caller t)).method) :
    (s'.callers t).InMethod (s'.registry.pcs (.caller t)).method := by
  -- a step of the registry that does not return stays in the method
  have hstay {registry : Registry.State (Thread k T) Nat} {m : Registry.Method}
      (hr : Registry.step poisons s.registry (.call (.caller t)) = some registry)
      (hm : (s.registry.pcs (.caller t)).method = m)
      (hne : ¬m.Returns (registry.pcs (.caller t))) :
      (registry.pcs (.caller t)).method = m :=
    hm ▸ (Registry.step_call_method hr).resolve_right (hm ▸ hne)
  cases h with
  | beginSpawn _ hrest | beginShutdown _ _ hrest | beginLookup _ hrest
  | beginWake _ _ _ hrest =>
    simpa [State.setCaller, State.setActor, CallerPc.InMethod] using
      CallerPc.inMethod_of_atRest hrest hin
  | beginRequest _ _ _ hr | reserve _ hr | disposeAgain _ _ hr | askStop _ hr | killed _ hr
  | countAgain _ _ hr | expired _ _ hr | newRunnerPanic _ _ _ hr | insertPoisoned _ _ _ _ hr
  | insertDuplicate _ _ _ _ _ hr =>
    cases Registry.step_move hr
    simp [State.setCaller, CallerPc.InMethod, Registry.State.setPc, Registry.Pc.method]
  | insertAlias spawn n _ _ _ hr | insertNone spawn n _ hr =>
    cases Registry.step_move hr with
    | commit _ m _ hm =>
      rw [hm] at hin
      cases hin
      simp [State.setCaller, CallerPc.InMethod, Registry.State.setPc, Registry.Pc.method]
  | reserving _ hr hne hne' | snapshotting _ hr hne hne' | counting _ hr hne hne'
  | countRemaining hr hne hne' =>
    rw [hpc]
    refine hstay hr hin ?_
    rintro (⟨n, h⟩ | h)
    · exact hne n h
    · exact hne' h
  | committing n hr hne =>
    rw [hpc]
    exact hstay hr hin (hne n)
  | requesting request hr _ hne =>
    obtain ⟨lookup, hin⟩ := hin
    rw [hpc]
    exact ⟨lookup, hstay hr hin hne⟩
  | deliver request lookup n hdeliver hr =>
    simp only [Registry.step, hdeliver, Registry.callStep, Option.map_some,
      Option.some.injEq] at hr
    subst hr
    simp [State.setCaller, State.setActor, CallerPc.InMethod, Registry.Pc.method]
  | reserved _ _ _ hpcs | reservePanic _ _ hpcs | committed _ _ _ hpcs | snapshot _ _ _ hpcs
  | snapshotPanic _ _ hpcs | counted _ _ _ hpcs | countPanic _ _ hpcs | timeout _ _ hpcs
  | timeoutPanic _ hpcs | requestDropped _ _ _ hpcs =>
    simp [State.setCaller, CallerPc.InMethod, hpcs, Registry.Pc.method]
  | killRunner | inRunner =>
    rw [← hpc] at hin
    exact hin
  | _ => simpa [State.setCaller, State.setActor, CallerPc.InMethod] using hin

omit [DecidableEq T] [DecidableEq A] in
/-- A caller that constructs its runner has the reservation. -/
theorem Linked.reserved (hl : Linked s) {spawn : Spawn A} {n : Nat}
    (hpc : s.callers t = .newRunner spawn n ∨ s.callers t = .aliasInsert spawn n) :
    s.registry.pcs (.caller t) = .reserved n := by
  have hin : (s.registry.pcs (.caller t)).method = .reserved n := by
    have hin := hl.caller t
    rcases hpc with hpc | hpc <;> rwa [hpc] at hin
  generalize s.registry.pcs (.caller t) = pc at hin
  cases pc <;> cases hin
  rfl

omit [DecidableEq T] [DecidableEq A] in
theorem Linked.newRunner_none (hl : Linked s) {spawn : Spawn A} {n : Nat}
    (hpc : s.callers t = .newRunner spawn n) : s.actors n = none :=
  hl.fresh t n (by rw [hpc]; rfl) (by rw [hl.reserved (.inl hpc)]; rfl)

/-- An actor stays, and takes at most one step of its runner. -/
theorem Linked.evolves (hl : Linked s) (h : Move poisons s s' u) {n : Nat}
    {actor : Actor k T M F A} (hn : s.actors n = some actor) :
    ∃ actor', s'.actors n = some actor' ∧ actor.Evolves u actor' := by
  have hne : s.actors n ≠ none := by simp [hn]
  obtain ⟨actor', hn'⟩ := Option.ne_none_iff_exists'.mp (h.ne_none hne)
  refine ⟨actor', hn', ?_⟩
  cases h with
  | caller t hpc h =>
    rcases h.actor hn' with ⟨spawn, owner, rfl, -⟩ | ⟨actor₀, hn₀, h⟩
    · cases (hl.newRunner_none hpc).symm.trans hn
    · cases hn₀.symm.trans hn
      exact h
  | worker d h =>
    obtain ⟨actor₀, hn₀, h⟩ := h.actor hn'
    cases hn₀.symm.trans hn
    exact h

omit [DecidableEq T] [DecidableEq A] in
theorem newActor_eq_some {spawn : Spawn A} {owner : Fin k} {actor : Actor k T M F A} :
    newActor s spawn owner = some actor ↔ spawn.contextFresh = true ∧
      ∃ q, MpscBoundedQueue.new M mailSlotSize spawn.mailboxCapacity = some q ∧ actor =
        { owner
          actorAlias := spawn.actorAlias
          run := { ActorRunner.initial (Fin k) T F q with
            mem := { (ActorRunner.initial (Fin k) T F q).mem with stopped := s.stopped } } } := by
  unfold newActor
  split
  · rename_i hfresh
    simp only [Option.map_eq_some_iff, hfresh, true_and]
    exact exists_congr fun _ => and_congr_right fun _ => eq_comm
  · rename_i hfresh
    exact ⟨nofun, fun h => absurd h.1 hfresh⟩

/-- An actor is new, with nobody in its runner, or it was there. -/
theorem Linked.actor_cases (hl : Linked s) (h : Move poisons s s' u) {n : Nat}
    {actor' : Actor k T M F A} (hn : s'.actors n = some actor') :
    (s.actors n = none ∧ ∃ t spawn owner, u = .caller t ∧ s.callers t = .newRunner spawn n ∧
      newActor s spawn owner = some actor') ∨
      ∃ actor, s.actors n = some actor ∧ actor.Evolves u actor' := by
  cases h with
  | caller t hpc h =>
    rcases h.actor hn with ⟨spawn, owner, rfl, hnew⟩ | h
    · exact .inl ⟨hl.newRunner_none hpc, t, spawn, owner, rfl, hpc, hnew⟩
    · exact .inr h
  | worker d h => exact .inr (h.actor hn)

omit [DecidableEq A] in
theorem Actor.Evolves.workers {actor actor' : Actor k T M F A} (h : actor.Evolves u actor')
    (hu : u ≠ .worker d) : actor'.run.workers d = actor.run.workers d := by
  rcases h.run with h | ⟨action, h, hact⟩
  · rw [h]
  · exact ActorRunner.step_workers_of_ne h fun hd => hu (hact.dispatcher d hd)

omit [DecidableEq T] [DecidableEq A] in
theorem newActor_finalizeInv {spawn : Spawn A} {owner : Fin k} {actor : Actor k T M F A}
    (h : newActor s spawn owner = some actor) : ActorRunner.FinalizeInv actor.run := by
  obtain ⟨-, q, -, rfl⟩ := newActor_eq_some.mp h
  exact (ActorRunner.initial_finalizeInv q).of_same rfl rfl (Nat.le_refl _) rfl rfl

theorem Linked.finalize_step (hl : Linked s) (h : Move poisons s s' u) {n : Nat}
    {actor' : Actor k T M F A} (hn : s'.actors n = some actor') :
    ActorRunner.FinalizeInv actor'.run := by
  rcases hl.actor_cases h hn with ⟨-, _, _, _, -, -, hnew⟩ | ⟨actor, hn, hevolves⟩
  · exact newActor_finalizeInv hnew
  · rcases hevolves.run with h | ⟨action, h, -⟩
    · exact h ▸ hl.finalize n actor hn
    · exact (hl.finalize n actor hn).step h

theorem Move.grows (h : Move poisons s s' u) (hinv : Registry.Inv s.registry) :
    s.registry.mem.data.Grows s'.registry.mem.data := by
  rcases h.registry with h | ⟨b, h, -⟩
  · exact .of_eq (by rw [h])
  · exact Registry.step_grows hinv h

theorem Linked.known_step (hl : Linked s) (hinv : Registry.Inv s.registry)
    (h : Move poisons s s' u) {n : Nat} {actor' : Actor k T M F A}
    (hn : s'.actors n = some actor') : n < s'.registry.mem.data.reservations.length := by
  refine Nat.lt_of_lt_of_le ?_ (h.grows hinv).length
  rcases hl.actor_cases h hn with ⟨-, t, spawn, -, -, hpc, -⟩ | ⟨actor, hn, -⟩
  · exact (hinv.thread _).known n (by rw [hl.reserved (.inl hpc)]; rfl)
  · exact hl.known n actor hn

theorem Linked.own_step (hl : Linked s) (h : Move poisons s s' u) {v : Thread k T} {n r : Nat}
    (hv : s'.registry.pcs v = .commitLock n r ∨ s'.registry.pcs v = .commitStore n r) : r = n := by
  have hsame (h : s'.registry = s.registry) : r = n := hl.own v n r (h ▸ hv)
  cases h with
  | caller t hpc h =>
    rcases h.registry with h | ⟨b, h, hb, hcommit⟩
    · exact hsame h
    · rcases Registry.step_committing h hv with hv | ⟨rfl, hv⟩
      · exact hl.own v n r hv
      · obtain ⟨spawn, rfl⟩ := hcommit v r rfl
        cases hb
        cases hv.symm.trans (hl.reserved (.inr hpc))
        rfl
  | worker d h =>
    rcases h.registry with h | ⟨b, h, hb, hcommit⟩
    · exact hsame h
    · rcases Registry.step_committing h hv with hv | ⟨rfl, hv⟩
      · exact hl.own v n r hv
      · exact absurd rfl (hcommit v r)

/-- A caller comes to the construction of its runner through `reserve`. -/
theorem CallMove.creating (h : CallMove poisons s t pc s') (hpc : s.callers t = pc)
    (hc : (s'.callers t).creating = true) : s'.actors = s.actors ∧
      (s'.registry.pcs (.caller t) = .reserveLock ∨ pc.creating = true ∧
        Registry.step poisons s.registry (.call (.caller t)) = some s'.registry) := by
  cases h with
  | reserve spawn hr =>
    cases Registry.step_move hr
    exact ⟨rfl, .inl (Function.update_self ..)⟩
  | reserving spawn hr | reserved spawn n hr => exact ⟨rfl, .inr ⟨rfl, hr⟩⟩
  | committing | snapshotting | killRunner | counting | countRemaining | requesting | inRunner =>
    change (s.callers t).creating = true at hc
    rw [hpc] at hc
    cases hc
  | _ => simp [State.setCaller, State.setActor, CallerPc.creating] at hc

theorem Linked.fresh_step (hl : Linked s) (hinv : Registry.Inv s.registry)
    (h : Move poisons s s' u) {v : T} {n : Nat} (hcreating : (s'.callers v).creating = true)
    (hn : (s'.registry.pcs (.caller v)).pending = some n) : s'.actors n = none := by
  by_contra hne
  obtain ⟨actor', hn'⟩ := Option.ne_none_iff_exists'.mp hne
  by_cases hvu : (.caller v : Thread k T) = u
  · subst hvu
    cases h with
    | caller _ hpc h =>
      obtain ⟨hactors, hpcs | ⟨hcreating, hr⟩⟩ := h.creating hpc hcreating
      · rw [hpcs] at hn
        cases hn
      · rw [hactors] at hn'
        rcases Registry.step_call_pending hr hn with hn | rfl
        · cases (hl.fresh v n (hpc ▸ hcreating) hn).symm.trans hn'
        · exact Nat.lt_irrefl _ (hl.known _ actor' hn')
  · rw [h.pcs_of_ne hvu] at hn
    cases h with
    | caller t hpc h =>
      rw [h.callers_of_ne fun heq => hvu (heq ▸ rfl)] at hcreating
      rcases h.actor hn' with ⟨spawn, owner, rfl, -⟩ | ⟨actor, hn₀, -⟩
      · have hpending : (s.registry.pcs (.caller t)).pending = some n := by
          rw [hl.reserved (.inl hpc)]
          rfl
        exact hvu (hinv.unique _ _ n hn hpending)
      · cases (hl.fresh v n hcreating hn).symm.trans hn₀
    | worker d h =>
      rw [h.callers] at hcreating
      obtain ⟨actor, hn₀, -⟩ := h.actor hn'
      cases (hl.fresh v n hcreating hn).symm.trans hn₀

/-- A step of another thread. -/
theorem Linked.worker_of_ne (hl : Linked s) (hinv : Registry.Inv s.registry)
    (h : Move poisons s s' u) (hu : u ≠ .worker d) (hbusy : s'.busy d = s.busy d)
    (hpc : s'.finalizers d = s.finalizers d) : WorkerLink s' d where
  rest hd := by
    rw [h.pcs_of_ne hu.symm]
    exact (hl.worker d).rest (hpc ▸ hd)
  removing n hn hd := by
    obtain ⟨r, hr, hm⟩ := (hl.worker d).removing n (hbusy ▸ hn) (hpc ▸ hd)
    refine ⟨r, (h.grows hinv).old n r hr, ?_⟩
    rw [h.pcs_of_ne hu.symm]
    exact hm
  finalizing hd := by
    obtain ⟨n, actor, hn, ha, hw⟩ := (hl.worker d).finalizing (hpc ▸ hd)
    obtain ⟨actor', ha', hevolves⟩ := hl.evolves h ha
    exact ⟨n, actor', hbusy ▸ hn, ha', hevolves.workers hu ▸ hw⟩

omit [DecidableEq T] [DecidableEq A] in
/-- A dispatcher thread that is not in `on_finalize` has not begun `finalize_kill`. -/
theorem WorkerLink.start (hl : WorkerLink s d)
    (hne : ∀ n actor, s.busy d = some n → s.actors n = some actor →
      actor.run.workers d ≠ .onFinalize) : s.finalizers d = .start := by
  by_contra hd
  obtain ⟨n, actor, hn, ha, hw⟩ := hl.finalizing hd
  exact hne n actor hn ha hw

omit [DecidableEq T] [DecidableEq A] in
theorem WorkerLink.of_start (hstart : s.finalizers d = .start)
    (hrest : (s.registry.pcs (.worker d)).method = .rest) : WorkerLink s d where
  rest _ := hrest
  removing _ _ hd := by simp [hstart] at hd
  finalizing hd := absurd hstart hd

theorem FinalizeMove.workerLink (hl : WorkerLink s d) (hinv : Registry.Inv s.registry) {n : Nat}
    {actor : Actor k T M F A} {pc : FinalizePc A} (h : FinalizeMove poisons s d n actor pc s')
    (hbusy : s.busy d = some n)
    (ha : s.actors n = some actor) (hw : actor.run.workers d = .onFinalize)
    (hpc : s.finalizers d = pc) : WorkerLink s' d := by
  have hrest (hne : pc ≠ .removing) : (s.registry.pcs (.worker d)).method = .rest :=
    hl.rest (hpc ▸ hne)
  cases h with
  | remove hr =>
    cases Registry.step_move hr with
    | remove _ _ _ hres =>
      refine ⟨?_, ?_, fun _ => ⟨n, actor, hbusy, ha, hw⟩⟩
      · simp [State.setFinalizer]
      · rintro m hm -
        cases hm.symm.trans hbusy
        exact ⟨_, hres, by simp [State.setFinalizer, Registry.State.setPc, Registry.Pc.method]⟩
  | removing hr hne hne' =>
    obtain ⟨r, hres, hm⟩ := hl.removing n hbusy hpc
    refine ⟨fun hd => absurd hpc hd, ?_, fun _ => ⟨n, actor, hbusy, ha, hw⟩⟩
    rintro m hm' -
    cases hm'.symm.trans hbusy
    refine ⟨r, (Registry.step_grows hinv hr).old n r hres, ?_⟩
    rcases Registry.step_call_method hr with h | h
    · exact h.trans hm
    · rw [hm] at h
      rcases h with ⟨r, h⟩ | h
      · exact absurd h (hne r)
      · exact absurd h hne'
  | removed r hr hpcs =>
    refine ⟨fun _ => ?_, fun m _ hd => ?_, fun _ => ⟨n, actor, hbusy, ha, hw⟩⟩
    · simp [State.setFinalizer, hpcs, Registry.Pc.method]
    · simp only [State.setFinalizer, Function.update_self] at hd
      split at hd <;> cases hd
  | removedNone hr hpcs | removePanic hr hpcs =>
    refine ⟨fun _ => ?_, ?_, fun _ => ⟨n, actor, hbusy, ha, hw⟩⟩
    · simp [State.setFinalizer, hpcs, Registry.Pc.method]
    · simp [State.setFinalizer]
  | aliasPanic | aliasRemove =>
    refine ⟨fun _ => hrest (by simp), ?_, fun _ => ⟨n, actor, hbusy, ha, hw⟩⟩
    simp [State.setFinalizer]
  | done | panicked => exact .of_start (by simp [State.setFinalizer]) (hrest (by simp))

theorem WorkMove.workerLink (hl : WorkerLink s d) (hinv : Registry.Inv s.registry)
    (h : WorkMove poisons s d s') : WorkerLink s' d := by
  have hstart (hne : ∀ n actor, s.busy d = some n → s.actors n = some actor →
      actor.run.workers d ≠ .onFinalize) :
      s.finalizers d = .start ∧ (s.registry.pcs (.worker d)).method = .rest :=
    ⟨hl.start hne, hl.rest (by simp [hl.start hne])⟩
  have hother {n : Nat} {actor : Actor k T M F A} (hbusy : s.busy d = some n)
      (ha : s.actors n = some actor) (hw : actor.run.workers d ≠ .onFinalize) :
      s.finalizers d = .start ∧ (s.registry.pcs (.worker d)).method = .rest := by
    refine hstart fun m actor' hm ha' => ?_
    cases hm.symm.trans hbusy
    cases ha'.symm.trans ha
    exact hw
  cases h with
  | pick n hbusy ha _ hs =>
    obtain ⟨h, h'⟩ := hstart (by simp [hbusy])
    exact hs ▸ .of_start h h'
  | exit hbusy hs =>
    obtain ⟨h, h'⟩ := hstart (by simp [hbusy])
    exact hs ▸ .of_start h h'
  | execute n _ hbusy ha hw _ _ _ hs | «return» n _ hbusy ha hw _ _ hs
  | unwind n _ hbusy ha hw _ _ hs =>
    obtain ⟨h, h'⟩ := hother hbusy ha hw
    exact hs ▸ .of_start h h'
  | finalize n hbusy ha hw hpc h => exact h.workerLink hl hinv hbusy ha hw hpc

theorem Linked.step (hl : Linked s) (hinv : Registry.Inv s.registry) (h : Move poisons s s' u) :
    Linked s' where
  caller v := by
    by_cases hv : (.caller v : Thread k T) = u
    · subst hv
      cases h with
      | caller _ hpc h => exact h.inMethod hpc (hpc ▸ hl.caller v)
    · rw [h.pcs_of_ne hv]
      cases h with
      | caller t _ h =>
        rw [h.callers_of_ne fun heq => hv (heq ▸ rfl)]
        exact hl.caller v
      | worker d h =>
        rw [h.callers]
        exact hl.caller v
  worker d := by
    cases h with
    | caller t hpc h =>
      exact hl.worker_of_ne hinv (.caller t hpc h) nofun (congrFun h.workers.1 d)
        (congrFun h.workers.2 d)
    | worker d' h =>
      by_cases hd : d = d'
      · subst hd
        exact h.workerLink (hl.worker d) hinv
      · obtain ⟨hbusy, hpc⟩ := h.of_ne hd
        exact hl.worker_of_ne hinv (.worker d' h) (fun heq => hd (Thread.worker.inj heq).symm)
          hbusy hpc
  known _ _ := hl.known_step hinv h
  fresh _ _ := hl.fresh_step hinv h
  own _ _ _ := hl.own_step h
  finalize _ _ := hl.finalize_step h

end

omit [DecidableEq T] [DecidableEq A] in
theorem withCapacity_linked (capacity : Nat) : Linked (withCapacity k T M F A capacity) where
  caller _ := rfl
  worker _ := .of_start rfl rfl
  known _ _ := nofun
  fresh _ _ _ _ := rfl
  own _ _ _ := nofun
  finalize _ _ := nofun

section
variable {poisons : Bool} {capacity : Nat} {s : State k T M F A}
  {ok : State k T M F A → Action k T M F A → Prop}

theorem registry_inv (h : Reach (machine k T M F A poisons capacity) ok s) :
    Registry.Inv s.registry :=
  Registry.inv_of_reach (registry_reach h)

theorem linked_of_reach (h : Reach (machine k T M F A poisons capacity) ok s) : Linked s := by
  refine h.inv_of (fun s => Registry.Inv s.registry) Linked registry_inv ?_
    fun hinv hl _ hs => hl.step hinv (step_move hs)
  rintro _ rfl
  exact withCapacity_linked capacity

end

end DignusActor.ActorSystem
