import DignusActor.System.ActorSystem

/-! # What one step of the actor system can do

`Move` lists the steps with what each found and what it changed; `step_move` is the inversion, so
that no invariant proof unfolds a step function. -/

namespace DignusActor.ActorSystem

variable {k : Nat} {T M F A : Type} [DecidableEq T] [DecidableEq A]

/-- The actor as it is when dispatcher `d` has been stopped. -/
def Actor.stop (actor : Actor k T M F A) (d : Fin k) : Actor k T M F A :=
  { actor with
    run := { actor.run with
      mem := { actor.run.mem with stopped := Function.update actor.run.mem.stopped d true } } }

/-- What a request asks of the runner. -/
def Request.action (request : Request M) (t : T) : ActorRunner.Action (Fin k) T M F :=
  match request with
  | .post mail => .post t mail
  | .kill => .kill t

/-- The steps of a caller, by where it stands. -/
inductive CallMove (poisons : Bool) (s : State k T M F A) (t : T) :
    CallerPc k M A → State k T M F A → Prop
  | beginSpawn {pc} (spawn) : pc.atRest = true →
    CallMove poisons s t pc (s.setCaller t (.throwIfDisposed spawn))
  | beginShutdown {pc} (timed current) : pc.atRest = true →
    CallMove poisons s t pc
      (s.setCaller t (.disposeSwap { timed, current, began := s.returned.length }))
  | beginLookup {pc} (actorAlias) : pc.atRest = true →
    CallMove poisons s t pc (s.setCaller t (.aliasLookup actorAlias))
  | beginRequest {pc} (request : Request M) (handle) {registry} : pc.atRest = true →
    Registry.step poisons s.registry (.lookup (.caller t) request.kind handle) = some registry →
    CallMove poisons s t pc ({ s with registry }.setCaller t (.requesting request))
  | beginWake {pc} (n) (current waker) {actor run} : pc.atRest = true → s.actors n = some actor →
    ActorRunner.step actor.owner actor.run (.wake t current waker) = some run →
    CallMove poisons s t pc ((s.setActor n { actor with run }).setCaller t (.inRunner n))
  | throwDisposed (spawn) :
    CallMove poisons s t (.throwIfDisposed spawn) (s.setCaller t .panicked)
  | notDisposed (spawn) : s.isDisposed = false →
    CallMove poisons s t (.throwIfDisposed spawn) (s.setCaller t (.aliasCheck spawn))
  | duplicate (spawn) {actorAlias} : spawn.actorAlias = some actorAlias →
    CallMove poisons s t (.aliasCheck spawn) (s.setCaller t .panicked)
  | reserve (spawn) {registry} :
    Registry.step poisons s.registry (.reserve (.caller t)) = some registry →
    CallMove poisons s t (.aliasCheck spawn)
      ({ s with registry }.setCaller t (.reserving spawn))
  | reserving (spawn) {registry} :
    Registry.step poisons s.registry (.call (.caller t)) = some registry →
    (∀ n, registry.pcs (.caller t) ≠ .reserved n) → registry.pcs (.caller t) ≠ .panicked →
    CallMove poisons s t (.reserving spawn) { s with registry }
  | reserved (spawn) (n) {registry} :
    Registry.step poisons s.registry (.call (.caller t)) = some registry →
    registry.pcs (.caller t) = .reserved n →
    CallMove poisons s t (.reserving spawn) ({ s with registry }.setCaller t (.newRunner spawn n))
  | reservePanic (spawn) {registry} :
    Registry.step poisons s.registry (.call (.caller t)) = some registry →
    registry.pcs (.caller t) = .panicked →
    CallMove poisons s t (.reserving spawn) ({ s with registry }.setCaller t .panicked)
  | newRunner (spawn) (n) {owner actor} : newActor s spawn owner = some actor →
    CallMove poisons s t (.newRunner spawn n)
      ((s.setActor n actor).setCaller t (.aliasInsert spawn n))
  | newRunnerPanic (spawn) (n) {owner registry} : newActor s spawn owner = none →
    Registry.step poisons s.registry (.abandon (.caller t)) = some registry →
    CallMove poisons s t (.newRunner spawn n) ({ s with registry }.setCaller t .panicked)
  | insertPoisoned (spawn) (n) {actorAlias registry} : spawn.actorAlias = some actorAlias →
    s.aliasPoisoned = true →
    Registry.step poisons s.registry (.abandon (.caller t)) = some registry →
    CallMove poisons s t (.aliasInsert spawn n) ({ s with registry }.setCaller t .panicked)
  | insertDuplicate (spawn) (n) {actorAlias registry} : spawn.actorAlias = some actorAlias →
    (s.aliases actorAlias).isSome = true → s.aliasPoisoned = false →
    Registry.step poisons s.registry (.abandon (.caller t)) = some registry →
    CallMove poisons s t (.aliasInsert spawn n)
      ({ s with registry, aliasPoisoned := poisons }.setCaller t .panicked)
  | insertAlias (spawn) (n) {actorAlias reservation registry} :
    spawn.actorAlias = some actorAlias →
    s.registry.mem.data.reservations[n]? = some reservation → s.aliases actorAlias = none →
    Registry.step poisons s.registry (.commit (.caller t) n) = some registry →
    CallMove poisons s t (.aliasInsert spawn n)
      ({ s with
        registry
        aliases := Function.update s.aliases actorAlias
          (some reservation.toHandle) }.setCaller t (.committing n))
  | insertNone (spawn) (n) {registry} : spawn.actorAlias = none →
    Registry.step poisons s.registry (.commit (.caller t) n) = some registry →
    CallMove poisons s t (.aliasInsert spawn n) ({ s with registry }.setCaller t (.committing n))
  | committing (n) {registry} :
    Registry.step poisons s.registry (.call (.caller t)) = some registry →
    (∀ m, registry.pcs (.caller t) ≠ .committed m) →
    CallMove poisons s t (.committing n) { s with registry }
  | committed (n m) {registry} :
    Registry.step poisons s.registry (.call (.caller t)) = some registry →
    registry.pcs (.caller t) = .committed m →
    CallMove poisons s t (.committing n)
      ({ s with registry, returned := s.returned ++ [n] }.setCaller t (.spawned n))
  | disposeAgain (call) {registry} : s.isDisposed = true →
    Registry.step poisons s.registry (.liveCount (.caller t)) = some registry →
    CallMove poisons s t (.disposeSwap call) ({ s with registry }.setCaller t (.counting call))
  | dispose (call) : s.isDisposed = false →
    CallMove poisons s t (.disposeSwap call)
      ({ s with isDisposed := true, disposal := .scanning t }.setCaller t (.askStop call))
  | askStop (call) {registry} :
    Registry.step poisons s.registry (.snapshotLive (.caller t)) = some registry →
    CallMove poisons s t (.askStop call) ({ s with registry }.setCaller t (.snapshotting call))
  | snapshotting (call) {registry} :
    Registry.step poisons s.registry (.call (.caller t)) = some registry →
    (∀ live, registry.pcs (.caller t) ≠ .snapshot live) → registry.pcs (.caller t) ≠ .panicked →
    CallMove poisons s t (.snapshotting call) { s with registry }
  | snapshot (call) (live) {registry} :
    Registry.step poisons s.registry (.call (.caller t)) = some registry →
    registry.pcs (.caller t) = .snapshot live →
    CallMove poisons s t (.snapshotting call)
      ({ s with registry, disposal := .killing t }.setCaller t (.killing call live))
  | snapshotPanic (call) {registry} :
    Registry.step poisons s.registry (.call (.caller t)) = some registry →
    registry.pcs (.caller t) = .panicked →
    CallMove poisons s t (.snapshotting call) ({ s with registry }.setCaller t .panicked)
  | killed (call) {registry} :
    Registry.step poisons s.registry (.liveCount (.caller t)) = some registry →
    CallMove poisons s t (.killing call [])
      ({ s with registry, disposal := .done }.setCaller t (.counting call))
  | kill (call) (n) (rest) {actor run} : s.actors n = some actor →
    ActorRunner.step actor.owner actor.run (.kill t) = some run →
    CallMove poisons s t (.killing call (n :: rest))
      ((s.setActor n { actor with run }).setCaller t (.killRunner call n rest))
  | killRunner (call) (n) (rest) {actor run} : s.actors n = some actor →
    ActorRunner.step actor.owner actor.run (.caller t) = some run → run.callers t ≠ .idle →
    CallMove poisons s t (.killRunner call n rest) (s.setActor n { actor with run })
  | killReturn (call) (n) (rest) {actor run} : s.actors n = some actor →
    ActorRunner.step actor.owner actor.run (.caller t) = some run → run.callers t = .idle →
    CallMove poisons s t (.killRunner call n rest)
      ((s.setActor n { actor with run }).setCaller t (.killing call rest))
  | counting (call) {registry} :
    Registry.step poisons s.registry (.call (.caller t)) = some registry →
    (∀ live, registry.pcs (.caller t) ≠ .counted live) → registry.pcs (.caller t) ≠ .panicked →
    CallMove poisons s t (.counting call) { s with registry }
  | counted (call) (live) {registry} :
    Registry.step poisons s.registry (.call (.caller t)) = some registry →
    registry.pcs (.caller t) = .counted live →
    CallMove poisons s t (.counting call) ({ s with registry }.setCaller t (.counted call live))
  | countPanic (call) {registry} :
    Registry.step poisons s.registry (.call (.caller t)) = some registry →
    registry.pcs (.caller t) = .panicked →
    CallMove poisons s t (.counting call) ({ s with registry }.setCaller t .panicked)
  | noneLive (call) :
    CallMove poisons s t (.counted call 0) (s.setCaller t (.stopDispatcher call 0))
  | countAgain (call) (live) {registry} :
    Registry.step poisons s.registry (.liveCount (.caller t)) = some registry →
    CallMove poisons s t (.counted call live) ({ s with registry }.setCaller t (.counting call))
  | expired (call) (live) {registry} :
    Registry.step poisons s.registry (.liveCount (.caller t)) = some registry →
    CallMove poisons s t (.counted call live) ({ s with registry }.setCaller t .countRemaining)
  | countRemaining {registry} :
    Registry.step poisons s.registry (.call (.caller t)) = some registry →
    (∀ live, registry.pcs (.caller t) ≠ .counted live) → registry.pcs (.caller t) ≠ .panicked →
    CallMove poisons s t .countRemaining { s with registry }
  | timeout (live) {registry} :
    Registry.step poisons s.registry (.call (.caller t)) = some registry →
    registry.pcs (.caller t) = .counted live →
    CallMove poisons s t .countRemaining ({ s with registry }.setCaller t (.shutdownTimeout live))
  | timeoutPanic {registry} :
    Registry.step poisons s.registry (.call (.caller t)) = some registry →
    registry.pcs (.caller t) = .panicked →
    CallMove poisons s t .countRemaining ({ s with registry }.setCaller t .panicked)
  | stop (call) (d : Fin k) :
    CallMove poisons s t (.stopDispatcher call d)
      ({ s with
        stopped := Function.update s.stopped d true
        actors := fun n => (s.actors n).map (Actor.stop · d) }.setCaller t (.takeHandle call d))
  | shutdownOk (call) (i) :
    CallMove poisons s t (.stopDispatcher call i)
      ({ s with succeeded := s.succeeded ++ [call.began] }.setCaller t .shutdownOk)
  | takeHandle (call) (i) (joinHandle) :
    CallMove poisons s t (.takeHandle call i) ({ s with joinHandle }.setCaller t (.join call i))
  | noHandle (call) (i) :
    CallMove poisons s t (.takeHandle call i) (s.setCaller t (.stopDispatcher call (i + 1)))
  | join (call) (i) :
    CallMove poisons s t (.join call i) (s.setCaller t (.stopDispatcher call (i + 1)))
  | requesting (request) {registry} :
    Registry.step poisons s.registry (.call (.caller t)) = some registry →
    (∀ lookup n, s.registry.pcs (.caller t) ≠ .deliver lookup n) →
    registry.pcs (.caller t) ≠ .idle →
    CallMove poisons s t (.requesting request) { s with registry }
  | requestDropped (request) {registry} :
    Registry.step poisons s.registry (.call (.caller t)) = some registry →
    (∀ lookup n, s.registry.pcs (.caller t) ≠ .deliver lookup n) →
    registry.pcs (.caller t) = .idle →
    CallMove poisons s t (.requesting request) ({ s with registry }.setCaller t .idle)
  | deliver (request) (lookup) (n) {registry actor run} :
    s.registry.pcs (.caller t) = .deliver lookup n →
    Registry.step poisons s.registry (.call (.caller t)) = some registry →
    s.actors n = some actor →
    ActorRunner.step actor.owner actor.run (request.action t) = some run →
    CallMove poisons s t (.requesting request)
      (({ s with registry }.setActor n { actor with run }).setCaller t (.inRunner n))
  | inRunner (n) {actor run} : s.actors n = some actor →
    ActorRunner.step actor.owner actor.run (.caller t) = some run → run.callers t ≠ .idle →
    CallMove poisons s t (.inRunner n) (s.setActor n { actor with run })
  | runnerReturn (n) {actor run} : s.actors n = some actor →
    ActorRunner.step actor.owner actor.run (.caller t) = some run → run.callers t = .idle →
    CallMove poisons s t (.inRunner n) ((s.setActor n { actor with run }).setCaller t .idle)
  | lookupPanic (actorAlias) : s.aliasPoisoned = true →
    CallMove poisons s t (.aliasLookup actorAlias) (s.setCaller t .panicked)
  | lookup (actorAlias) : s.aliasPoisoned = false →
    CallMove poisons s t (.aliasLookup actorAlias)
      (s.setCaller t (.lookedUp (s.aliases actorAlias)))

/-- The steps of a dispatcher thread in `ActorSystem::finalize_kill` for actor `n`. -/
inductive FinalizeMove (poisons : Bool) (s : State k T M F A) (d : Fin k) (n : Nat)
    (actor : Actor k T M F A) : FinalizePc A → State k T M F A → Prop
  | remove {registry} :
    Registry.step poisons s.registry (.remove (.worker d) n) = some registry →
    FinalizeMove poisons s d n actor .start ({ s with registry }.setFinalizer d .removing)
  | removing {registry} :
    Registry.step poisons s.registry (.call (.worker d)) = some registry →
    (∀ r, registry.pcs (.worker d) ≠ .removed r) → registry.pcs (.worker d) ≠ .panicked →
    FinalizeMove poisons s d n actor .removing { s with registry }
  | removed (r) {registry} :
    Registry.step poisons s.registry (.call (.worker d)) = some registry →
    registry.pcs (.worker d) = .removed (some r) →
    FinalizeMove poisons s d n actor .removing
      ({ s with registry }.setFinalizer d
        (match (s.actors r).bind (·.actorAlias) with
        | some actorAlias => .aliasRemove actorAlias
        | none => .done))
  | removedNone {registry} :
    Registry.step poisons s.registry (.call (.worker d)) = some registry →
    registry.pcs (.worker d) = .removed none →
    FinalizeMove poisons s d n actor .removing ({ s with registry }.setFinalizer d .done)
  | removePanic {registry} :
    Registry.step poisons s.registry (.call (.worker d)) = some registry →
    registry.pcs (.worker d) = .panicked →
    FinalizeMove poisons s d n actor .removing ({ s with registry }.setFinalizer d .panicked)
  | aliasPanic (actorAlias) : s.aliasPoisoned = true →
    FinalizeMove poisons s d n actor (.aliasRemove actorAlias) (s.setFinalizer d .panicked)
  | aliasRemove (actorAlias) :
    FinalizeMove poisons s d n actor (.aliasRemove actorAlias)
      ({ s with aliases := Function.update s.aliases actorAlias none }.setFinalizer d .done)
  | done {run} : ActorRunner.step actor.owner actor.run (.worker d .done) = some run →
    FinalizeMove poisons s d n actor .done
      ({ s.setActor n { actor with run } with
        busy := Function.update s.busy d none }.setFinalizer d .start)
  | panicked {run} : ActorRunner.step actor.owner actor.run (.worker d .panicked) = some run →
    FinalizeMove poisons s d n actor .panicked
      ({ s.setActor n { actor with run } with
        exited := Function.update s.exited d true }.setFinalizer d .start)

/-- The steps of a dispatcher thread. -/
inductive WorkMove (poisons : Bool) (s : State k T M F A) (d : Fin k) (s' : State k T M F A) :
    Prop
  | pick (n) {actor run} : s.busy d = none → s.actors n = some actor →
    ActorRunner.step actor.owner actor.run (.pick d) = some run →
    s' = { s.setActor n { actor with run } with busy := Function.update s.busy d (some n) } →
    WorkMove poisons s d s'
  | exit : s.busy d = none → s' = { s with exited := Function.update s.exited d true } →
    WorkMove poisons s d s'
  | execute (n outcome) {actor run} : s.busy d = some n → s.actors n = some actor →
    actor.run.workers d ≠ .onFinalize →
    ActorRunner.step actor.owner actor.run (.worker d outcome) = some run →
    run.workers d ≠ .idle → run.workers d ≠ .dead →
    s' = s.setActor n { actor with run } → WorkMove poisons s d s'
  | return (n outcome) {actor run} : s.busy d = some n → s.actors n = some actor →
    actor.run.workers d ≠ .onFinalize →
    ActorRunner.step actor.owner actor.run (.worker d outcome) = some run →
    run.workers d = .idle →
    s' = { s.setActor n { actor with run } with busy := Function.update s.busy d none } →
    WorkMove poisons s d s'
  | unwind (n outcome) {actor run} : s.busy d = some n → s.actors n = some actor →
    actor.run.workers d ≠ .onFinalize →
    ActorRunner.step actor.owner actor.run (.worker d outcome) = some run →
    run.workers d = .dead →
    s' = { s.setActor n { actor with run } with exited := Function.update s.exited d true } →
    WorkMove poisons s d s'
  | finalize (n) {actor pc} : s.busy d = some n → s.actors n = some actor →
    actor.run.workers d = .onFinalize → s.finalizers d = pc →
    FinalizeMove poisons s d n actor pc s' → WorkMove poisons s d s'

/-- What a step of the system can be, by the thread that takes it. -/
inductive Move (poisons : Bool) (s s' : State k T M F A) : Thread k T → Prop
  | caller (t : T) {pc} : s.callers t = pc → CallMove poisons s t pc s' →
    Move poisons s s' (.caller t)
  | worker (d : Fin k) : WorkMove poisons s d s' → Move poisons s s' (.worker d)

/-- The thread that takes the step. -/
def Action.thread : Action k T M F A → Thread k T
  | .spawn t _ | .shutdown t _ _ | .request t _ _ | .wake t _ _ _ | .lookup t _ | .call t _ =>
    .caller t
  | .pick d _ | .execute d _ | .exit d => .worker d

/-! ## Inversion -/

section
variable {poisons : Bool} {s s' : State k T M F A} {t : T} {d : Fin k} {n : Nat}

omit [DecidableEq T] [DecidableEq A] in
theorem State.inActor_eq_some {action : ActorRunner.Action (Fin k) T M F} [DecidableEq T] :
    s.inActor n action = some s' ↔ ∃ actor run, s.actors n = some actor ∧
      ActorRunner.step actor.owner actor.run action = some run ∧
      s' = s.setActor n { actor with run } := by
  simp only [State.inActor, Option.bind_eq_some_iff, Option.map_eq_some_iff]
  constructor
  · rintro ⟨actor, ha, run, hrun, rfl⟩
    exact ⟨actor, run, ha, hrun, rfl⟩
  · rintro ⟨actor, run, ha, hrun, rfl⟩
    exact ⟨actor, ha, run, hrun, rfl⟩

omit [DecidableEq A] in
theorem State.inRegistry_eq_some {action : Registry.Action (Thread k T) Nat} :
    s.inRegistry poisons action = some s' ↔
      ∃ registry, Registry.step poisons s.registry action = some registry ∧
        s' = { s with registry } := by
  simp only [State.inRegistry, Option.map_eq_some_iff]
  exact exists_congr fun _ => and_congr_right fun _ => eq_comm

omit [DecidableEq T] [DecidableEq A] in
theorem State.workerIn_setActor {actor : Actor k T M F A} :
    (s.setActor n actor).workerIn n d = some (actor.run.workers d) := by
  simp [State.workerIn, State.setActor]

omit [DecidableEq T] [DecidableEq A] in
theorem State.leftActor_setActor {actor : Actor k T M F A} :
    (s.setActor n actor).leftActor n t = true ↔ actor.run.callers t = .idle := by
  simp only [State.leftActor, State.callerIn, State.setActor, Function.update_self,
    Option.map_some]
  split
  · simp_all
  · rename_i hne
    simpa using fun h => hne (congrArg some h)

omit [DecidableEq A] in
theorem State.begin_eq_some {pc : CallerPc k M A} :
    s.begin t pc = some s' ↔ (s.callers t).atRest = true ∧ s' = s.setCaller t pc := by
  simp only [State.begin]
  split
  · rename_i hrest
    exact ⟨fun h => ⟨hrest, (Option.some.inj h).symm⟩, fun h => congrArg some h.2.symm⟩
  · rename_i hrest
    exact ⟨nofun, fun h => absurd h.1 hrest⟩

theorem spawnStep_move {pc : CallerPc k M A} (h : spawnStep poisons s t pc = some s') :
    CallMove poisons s t pc s' := by
  cases pc with
  | throwIfDisposed spawn =>
    cases hd : s.isDisposed with
    | true =>
      simp only [spawnStep, hd, Bool.true_or, if_true, Option.some.injEq] at h
      exact h ▸ .throwDisposed spawn
    | false =>
      simp only [spawnStep, hd, Bool.false_or, Option.some.injEq] at h
      subst h
      split_ifs
      · exact .throwDisposed spawn
      · exact .notDisposed spawn hd
  | aliasCheck spawn =>
    simp only [spawnStep] at h
    have hreserve {s'' : State k T M F A} (h : (s.inRegistry poisons (.reserve (.caller t))).map
        (·.setCaller t (.reserving spawn)) = some s'') :
        CallMove poisons s t (.aliasCheck spawn) s'' := by
      simp only [Option.map_eq_some_iff, State.inRegistry_eq_some] at h
      obtain ⟨_, ⟨registry, hr, rfl⟩, rfl⟩ := h
      exact .reserve spawn hr
    cases ha : spawn.actorAlias with
    | none =>
      simp only [ha, Bool.false_eq_true, if_false] at h
      exact hreserve h
    | some actorAlias =>
      simp only [ha] at h
      split at h
      · cases h
        exact .duplicate spawn ha
      · exact hreserve h
  | reserving spawn =>
    simp only [spawnStep, Option.map_eq_some_iff, State.inRegistry_eq_some] at h
    obtain ⟨_, ⟨registry, hr, rfl⟩, rfl⟩ := h
    dsimp only
    split
    · exact .reserved spawn _ hr ‹_›
    · exact .reservePanic spawn hr ‹_›
    · rename_i hne hne'
      exact .reserving spawn hr hne hne'
  | newRunner spawn n =>
    simp only [spawnStep, Option.bind_eq_some_iff] at h
    obtain ⟨index, -, owner, -, h⟩ := h
    split at h
    · cases h
      exact .newRunner spawn n ‹_›
    · simp only [State.abandon, Option.map_eq_some_iff, State.inRegistry_eq_some] at h
      obtain ⟨_, ⟨registry, hr, rfl⟩, rfl⟩ := h
      exact .newRunnerPanic spawn n ‹_› hr
  | aliasInsert spawn n =>
    cases ha : spawn.actorAlias with
    | none =>
      simp only [spawnStep, ha, Option.map_eq_some_iff, State.inRegistry_eq_some] at h
      obtain ⟨_, ⟨registry, hr, rfl⟩, rfl⟩ := h
      exact .insertNone spawn n ha hr
    | some actorAlias =>
      cases hn : s.registry.mem.data.reservations[n]? with
      | none => simp [spawnStep, ha, hn] at h
      | some reservation =>
        simp only [spawnStep, ha, hn, State.abandon] at h
        split at h
        · simp only [Option.map_eq_some_iff, State.inRegistry_eq_some] at h
          obtain ⟨_, ⟨registry, hr, rfl⟩, rfl⟩ := h
          exact .insertPoisoned spawn n ha ‹_› hr
        · split at h
          · simp only [Option.map_eq_some_iff, State.inRegistry_eq_some] at h
            obtain ⟨_, ⟨_, ⟨registry, hr, rfl⟩, rfl⟩, rfl⟩ := h
            exact .insertDuplicate spawn n ha ‹_› (by simpa using ‹¬s.aliasPoisoned = true›) hr
          · rename_i hfree
            simp only [Option.map_eq_some_iff, State.inRegistry_eq_some] at h
            obtain ⟨_, ⟨registry, hr, rfl⟩, rfl⟩ := h
            exact .insertAlias spawn n ha hn (by simpa using hfree) hr
  | committing n =>
    simp only [spawnStep, Option.map_eq_some_iff, State.inRegistry_eq_some] at h
    obtain ⟨_, ⟨registry, hr, rfl⟩, rfl⟩ := h
    dsimp only
    split
    · exact .committed n _ hr ‹_›
    · rename_i hne
      exact .committing n hr hne
  | _ => cases h

theorem shutdownStep_move {expired : Bool} {pc : CallerPc k M A}
    (h : shutdownStep poisons s t expired pc = some s') : CallMove poisons s t pc s' := by
  cases pc with
  | disposeSwap call =>
    simp only [shutdownStep] at h
    split at h
    · simp only [Option.map_eq_some_iff, State.inRegistry_eq_some] at h
      obtain ⟨_, ⟨registry, hr, rfl⟩, rfl⟩ := h
      exact .disposeAgain call ‹_› hr
    · cases h
      exact .dispose call (by simpa using ‹¬s.isDisposed = true›)
  | askStop call =>
    simp only [shutdownStep, Option.map_eq_some_iff, State.inRegistry_eq_some] at h
    obtain ⟨_, ⟨registry, hr, rfl⟩, rfl⟩ := h
    exact .askStop call hr
  | snapshotting call =>
    simp only [shutdownStep, Option.map_eq_some_iff, State.inRegistry_eq_some] at h
    obtain ⟨_, ⟨registry, hr, rfl⟩, rfl⟩ := h
    dsimp only
    split
    · exact .snapshot call _ hr ‹_›
    · exact .snapshotPanic call hr ‹_›
    · rename_i hne hne'
      exact .snapshotting call hr hne hne'
  | killing call rest =>
    cases rest with
    | nil =>
      simp only [shutdownStep, Option.map_eq_some_iff, State.inRegistry_eq_some] at h
      obtain ⟨_, ⟨registry, hr, rfl⟩, rfl⟩ := h
      exact .killed call hr
    | cons n rest =>
      simp only [shutdownStep, Option.map_eq_some_iff, State.inActor_eq_some] at h
      obtain ⟨_, ⟨actor, run, ha, hrun, rfl⟩, rfl⟩ := h
      exact .kill call n rest ha hrun
  | killRunner call n rest =>
    simp only [shutdownStep, Option.map_eq_some_iff, State.inActor_eq_some] at h
    obtain ⟨_, ⟨actor, run, ha, hrun, rfl⟩, rfl⟩ := h
    split
    · rename_i hleft
      exact .killReturn call n rest ha hrun (State.leftActor_setActor.mp hleft)
    · rename_i hleft
      exact .killRunner call n rest ha hrun fun hidle => hleft (State.leftActor_setActor.mpr hidle)
  | counting call =>
    simp only [shutdownStep, Option.map_eq_some_iff, State.inRegistry_eq_some] at h
    obtain ⟨_, ⟨registry, hr, rfl⟩, rfl⟩ := h
    dsimp only
    split
    · exact .counted call _ hr ‹_›
    · exact .countPanic call hr ‹_›
    · rename_i hne hne'
      exact .counting call hr hne hne'
  | counted call live =>
    simp only [shutdownStep] at h
    split at h
    · rename_i hlive
      cases h
      subst hlive
      exact .noneLive call
    · simp only [Option.map_eq_some_iff, State.inRegistry_eq_some] at h
      obtain ⟨_, ⟨registry, hr, rfl⟩, rfl⟩ := h
      split
      · exact .expired call live hr
      · exact .countAgain call live hr
  | countRemaining =>
    simp only [shutdownStep, Option.map_eq_some_iff, State.inRegistry_eq_some] at h
    obtain ⟨_, ⟨registry, hr, rfl⟩, rfl⟩ := h
    dsimp only
    split
    · exact .timeout _ hr ‹_›
    · exact .timeoutPanic hr ‹_›
    · rename_i hne hne'
      exact .countRemaining hr hne hne'
  | stopDispatcher call i =>
    simp only [shutdownStep] at h
    split at h
    · rename_i hi
      cases h
      exact .stop call ⟨i, hi⟩
    · cases h
      exact .shutdownOk call i
  | takeHandle call i =>
    simp only [shutdownStep] at h
    split at h
    · split at h
      · cases h
        exact .takeHandle call i _
      · cases h
        exact .noHandle call i
    · cases h
  | join call i =>
    simp only [shutdownStep] at h
    split at h
    · split at h
      · cases h
        exact .join call i
      · cases h
    · cases h
  | _ => cases h

theorem requestStep_move {pc : CallerPc k M A} (h : requestStep poisons s t pc = some s') :
    CallMove poisons s t pc s' := by
  cases pc with
  | requesting request =>
    simp only [requestStep] at h
    split at h
    · rename_i lookup n hpc
      simp only [Option.bind_eq_some_iff, Option.map_eq_some_iff, State.inRegistry_eq_some,
        State.inActor_eq_some] at h
      obtain ⟨_, ⟨registry, hr, rfl⟩, _, ⟨actor, run, ha, hrun, rfl⟩, rfl⟩ := h
      refine .deliver request lookup n hpc hr ha ?_
      cases request <;> exact hrun
    · rename_i hne
      simp only [Option.map_eq_some_iff, State.inRegistry_eq_some] at h
      obtain ⟨_, ⟨registry, hr, rfl⟩, rfl⟩ := h
      dsimp only
      split
      · exact .requestDropped request hr hne ‹_›
      · exact .requesting request hr hne ‹_›
  | inRunner n =>
    simp only [requestStep, Option.map_eq_some_iff, State.inActor_eq_some] at h
    obtain ⟨_, ⟨actor, run, ha, hrun, rfl⟩, rfl⟩ := h
    split
    · rename_i hleft
      exact .runnerReturn n ha hrun (State.leftActor_setActor.mp hleft)
    · rename_i hleft
      exact .inRunner n ha hrun fun hidle => hleft (State.leftActor_setActor.mpr hidle)
  | aliasLookup actorAlias =>
    simp only [requestStep, Option.some.injEq] at h
    subst h
    split
    · exact .lookupPanic actorAlias ‹_›
    · exact .lookup actorAlias (by simpa using ‹¬s.aliasPoisoned = true›)
  | _ => cases h

theorem finalizeStep_move {pc : FinalizePc A} {actor : Actor k T M F A}
    (hn : s.actors n = some actor) (h : finalizeStep poisons s d n pc = some s') :
    FinalizeMove poisons s d n actor pc s' := by
  cases pc with
  | start =>
    simp only [finalizeStep, Option.map_eq_some_iff, State.inRegistry_eq_some] at h
    obtain ⟨_, ⟨registry, hr, rfl⟩, rfl⟩ := h
    exact .remove hr
  | removing =>
    simp only [finalizeStep, Option.map_eq_some_iff, State.inRegistry_eq_some] at h
    obtain ⟨_, ⟨registry, hr, rfl⟩, rfl⟩ := h
    dsimp only
    split
    · exact .removed _ hr ‹_›
    · exact .removedNone hr ‹_›
    · exact .removePanic hr ‹_›
    · rename_i hsome hnone hpanic
      refine .removing hr (fun r => ?_) hpanic
      cases r with
      | none => exact hnone
      | some r => exact hsome r
  | aliasRemove actorAlias =>
    simp only [finalizeStep] at h
    split at h
    · cases h
      exact .aliasPanic actorAlias ‹_›
    · cases h
      exact .aliasRemove actorAlias
  | done =>
    simp only [finalizeStep, Option.map_eq_some_iff, State.inActor_eq_some, hn,
      Option.some.injEq] at h
    obtain ⟨_, ⟨_, run, rfl, hrun, rfl⟩, rfl⟩ := h
    exact .done hrun
  | panicked =>
    simp only [finalizeStep, Option.map_eq_some_iff, State.inActor_eq_some, hn,
      Option.some.injEq] at h
    obtain ⟨_, ⟨_, run, rfl, hrun, rfl⟩, rfl⟩ := h
    exact .panicked hrun

theorem executeStep_move {outcome : ActorRunner.Outcome F} (hbusy : s.busy d = some n)
    (h : executeStep poisons s d n outcome = some s') : WorkMove poisons s d s' := by
  simp only [executeStep] at h
  split at h
  · rename_i hin
    obtain ⟨actor, ha, hw⟩ := Option.map_eq_some_iff.mp hin
    exact .finalize n hbusy ha hw rfl (finalizeStep_move ha h)
  · rename_i hne
    simp only [Option.map_eq_some_iff, State.inActor_eq_some] at h
    obtain ⟨_, ⟨actor, run, ha, hrun, rfl⟩, rfl⟩ := h
    have hw : actor.run.workers d ≠ .onFinalize := fun hw =>
      hne (Option.map_eq_some_iff.mpr ⟨actor, ha, hw⟩)
    rw [State.workerIn_setActor]
    cases hrest : run.workers d with
    | idle => exact .return n outcome hbusy ha hw hrun hrest rfl
    | dead => exact .unwind n outcome hbusy ha hw hrun hrest rfl
    | _ => exact .execute n outcome hbusy ha hw hrun (by simp [hrest]) (by simp [hrest]) rfl

/-- **The inversion of `step`.** -/
theorem step_move {a : Action k T M F A} (h : step poisons s a = some s') :
    Move poisons s s' a.thread := by
  cases a with
  | spawn t spawn =>
    obtain ⟨hrest, rfl⟩ := State.begin_eq_some.mp h
    exact .caller t rfl (.beginSpawn spawn hrest)
  | shutdown t timed current =>
    obtain ⟨hrest, rfl⟩ := State.begin_eq_some.mp h
    exact .caller t rfl (.beginShutdown timed current hrest)
  | request t request handle =>
    simp only [step, Option.bind_eq_some_iff, State.inRegistry_eq_some,
      State.begin_eq_some] at h
    obtain ⟨_, ⟨registry, hr, rfl⟩, hrest, rfl⟩ := h
    exact .caller t rfl (.beginRequest request handle hrest hr)
  | wake t n current waker =>
    simp only [step, Option.bind_eq_some_iff, State.inActor_eq_some, State.begin_eq_some] at h
    obtain ⟨_, ⟨actor, run, ha, hrun, rfl⟩, hrest, rfl⟩ := h
    exact .caller t rfl (.beginWake n current waker hrest ha hrun)
  | lookup t actorAlias =>
    obtain ⟨hrest, rfl⟩ := State.begin_eq_some.mp h
    exact .caller t rfl (.beginLookup actorAlias hrest)
  | call t expired =>
    simp only [step, Option.or_eq_some_iff] at h
    rcases h with h | ⟨-, h | ⟨-, h⟩⟩
    · exact .caller t rfl (spawnStep_move h)
    · exact .caller t rfl (shutdownStep_move h)
    · exact .caller t rfl (requestStep_move h)
  | pick d n =>
    simp only [step] at h
    split at h
    · rename_i hbusy
      simp only [Option.map_eq_some_iff, State.inActor_eq_some] at h
      obtain ⟨_, ⟨actor, run, ha, hrun, rfl⟩, rfl⟩ := h
      simp only [Bool.and_eq_true, decide_eq_true_eq] at hbusy
      exact .worker d (.pick n hbusy.1 ha hrun rfl)
    · cases h
  | execute d outcome =>
    obtain ⟨n, hbusy, h⟩ := Option.bind_eq_some_iff.mp h
    exact .worker d (executeStep_move hbusy h)
  | exit d =>
    simp only [step] at h
    split at h
    · rename_i hbusy
      cases h
      simp only [Bool.and_eq_true, decide_eq_true_eq] at hbusy
      exact .worker d (.exit hbusy.2 rfl)
    · cases h

end

end DignusActor.ActorSystem
