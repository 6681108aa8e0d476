import DignusActor.System.Released

/-! # Aliases

`register_actor` inserts the name before it commits the runner, and `finalize_kill` removes it, by
name only, after the slot has been given back. In between the entry stays, so no other spawn gets
the name: each entry of the map is of one actor, spawned with that alias, that is reserved or is
being finalized (`aliases_identify`). -/

namespace DignusActor.Registry

variable {T R : Type} [DecidableEq T] {poisons : Bool} {s s' : State T R} {t : T}

/-- `remove` has given the slot back, and still holds the `alloc` mutex. -/
def Pc.gaveBack : Pc R → Bool
  | .removeUnlock _ (some _) => true
  | _ => false

theorem step_gaveBack (h : step poisons s (.call t) = some s')
    (ht : (s'.pcs t).gaveBack = true) : ∃ handle r, s.pcs t = .removeFree handle (some r) ∧
      s'.mem.data = s.mem.data.giveBack handle.index := by
  cases step_move h with
  | call _ hcall =>
    simp only [Function.update_self] at ht
    generalize s.pcs t = pc at hcall
    cases hcall with
    | giveBack handle r => exact ⟨handle, r, rfl, rfl⟩
    | _ => cases ht

theorem step_removed (h : step poisons s (.call t) = some s') {r : R}
    (ht : s'.pcs t = .removed (some r)) : ∃ handle, s.pcs t = .removeUnlock handle (some r) := by
  cases step_move h with
  | call _ hcall =>
    simp only [Function.update_self] at ht
    subst ht
    generalize s.pcs t = pc at hcall
    cases hcall
    exact ⟨_, rfl⟩

omit [DecidableEq T] in
theorem Pc.eq_of_gaveBack {pc : Pc R} (h : pc.gaveBack = true) :
    ∃ handle r, pc = .removeUnlock handle (some r) := by
  unfold gaveBack at h
  split at h
  · exact ⟨_, _, rfl⟩
  · cases h

theorem step_removeUnlock (h : step poisons s (.call t) = some s') {handle : Handle}
    {removed : Option R} (ht : s.pcs t = .removeUnlock handle removed) :
    s'.pcs t = .removed removed := by
  cases step_move h with
  | call _ hcall =>
    rw [ht] at hcall
    cases hcall
    exact Function.update_self ..

theorem step_removeFree {a : Action T R} (h : step poisons s a = some s') {handle : Handle} {r : R}
    (ht : s.pcs a.thread = .removeFree handle (some r)) :
    s'.pcs a.thread = .removeUnlock handle (some r) := by
  obtain ⟨m, pc, hcall, rfl⟩ := step_inside h (by rw [ht]; rfl) (by simp [ht])
  rw [ht] at hcall
  cases hcall
  exact Function.update_self ..

omit [DecidableEq T] in
/-- A slot that is given back had been committed. -/
theorem Inv.taken (hinv : Inv s) {handle : Handle} {r : R}
    (ht : s.pcs t = .removeFree handle (some r)) : s.mem.data.Taken handle.index :=
  (hinv.thread t).taken _ (by rw [ht]; rfl)

end DignusActor.Registry

namespace DignusActor.ActorSystem

open Machine (Reach)

variable {k : Nat} {T M F A : Type}

namespace State

variable (s : State k T M F A)

/-- Actor `n` was spawned with alias `actorAlias`. -/
def HasAlias (n : Nat) (actorAlias : A) : Prop :=
  ∃ actor, s.actors n = some actor ∧ actor.actorAlias = some actorAlias

/-- `register_actor` has been past the alias map for actor `n`. -/
def Inserted (n : Nat) : Prop :=
  (∃ t, s.callers t = .committing n) ∨ s.registry.mem.data.runners n ≠ none

/-- Dispatcher `d` has given back the slot of the actor that it finalizes, and has not come to the
alias map. -/
def Unlisting (d : Fin k) : Prop :=
  s.finalizers d = .removing ∧ (s.registry.pcs (.worker d)).gaveBack = true ∨
    ∃ actorAlias, s.finalizers d = .aliasRemove actorAlias

/-- `finalize_kill` has given back the slot of actor `n`, and has not removed its alias. -/
def Unlisted (n : Nat) : Prop :=
  ∃ d actor, s.busy d = some n ∧ s.actors n = some actor ∧
    actor.run.workers d = .onFinalize ∧ s.Unlisting d

/-- Actor `n` owns its alias: its `finalize_kill` has not removed it. -/
def Registered (n : Nat) : Prop :=
  n ∈ s.registry.mem.data.outstanding ∧ s.Inserted n ∨ s.Unlisted n

/-- `handle` is what the spawn of actor `n` returned. -/
def HandleOf (n : Nat) (handle : Registry.Handle) : Prop :=
  ∃ r, s.registry.mem.data.reservations[n]? = some r ∧ r.toHandle = handle

end State

structure AliasInv (s : State k T M F A) : Prop where
  inserting : ∀ t spawn n, s.callers t = .aliasInsert spawn n →
    ∃ actor, s.actors n = some actor ∧ actor.actorAlias = spawn.actorAlias
  known : ∀ n, s.Inserted n → s.actors n ≠ none
  unlisted : ∀ n, s.Unlisted n → n ∉ s.registry.mem.data.outstanding
  removing : ∀ d n actorAlias, s.busy d = some n → s.finalizers d = .aliasRemove actorAlias →
    s.HasAlias n actorAlias
  entry : ∀ n actorAlias, s.Registered n → s.HasAlias n actorAlias →
    ∃ handle, s.aliases actorAlias = some handle ∧ s.HandleOf n handle
  found : ∀ actorAlias handle, s.aliases actorAlias = some handle →
    ∃ n, s.Registered n ∧ s.HasAlias n actorAlias ∧ s.HandleOf n handle
  unique : ∀ n m actorAlias, s.Registered n → s.Registered m → s.HasAlias n actorAlias →
    s.HasAlias m actorAlias → n = m

section
variable [DecidableEq T] [DecidableEq A] {poisons : Bool} {s s' : State k T M F A}
  {u : Thread k T} {t : T} {d : Fin k} {pc : CallerPc k M A} {n : Nat}

/-! ## What a step keeps -/

theorem Linked.hasAlias_step (hl : Linked s) (h : Move poisons s s' u) {actorAlias : A}
    (hn : s.HasAlias n actorAlias) : s'.HasAlias n actorAlias := by
  obtain ⟨actor, ha, halias⟩ := hn
  obtain ⟨actor', ha', hevolves⟩ := hl.evolves h ha
  exact ⟨actor', ha', hevolves.actorAlias.trans halias⟩

theorem Linked.hasAlias_back (hl : Linked s) (h : Move poisons s s' u) {actorAlias : A}
    (hn : s'.HasAlias n actorAlias) (hne : s.actors n ≠ none) : s.HasAlias n actorAlias := by
  obtain ⟨actor, ha⟩ := Option.ne_none_iff_exists'.mp hne
  obtain ⟨actor', ha', hevolves⟩ := hl.evolves h ha
  obtain ⟨actor₁, ha₁, halias⟩ := hn
  cases ha₁.symm.trans ha'
  exact ⟨actor, ha, hevolves.actorAlias ▸ halias⟩

theorem Move.handleOf (h : Move poisons s s' u) (hinv : Registry.Inv s.registry)
    {handle : Registry.Handle} (hn : s.HandleOf n handle) : s'.HandleOf n handle := by
  obtain ⟨r, hr, heq⟩ := hn
  exact ⟨r, (h.grows hinv).old n r hr, heq⟩

/-- The step is the locked block of a spawn: the check, and the insertion when there is an alias. -/
structure InsertMove (s : State k T M F A) (t : T) (s' : State k T M F A) (n : Nat)
    (spawn : Spawn A) : Prop where
  callers : s.callers t = .aliasInsert spawn n
  committing : s'.callers t = .committing n
  mem : s'.registry.mem = s.registry.mem
  actors : s'.actors = s.actors
  named : ∀ actorAlias, spawn.actorAlias = some actorAlias →
    ∃ r, s.registry.mem.data.reservations[n]? = some r ∧ s.aliases actorAlias = none ∧
      s'.aliases = Function.update s.aliases actorAlias (some r.toHandle)

theorem CallMove.insertMove (h : CallMove poisons s t pc s') {spawn : Spawn A}
    (hpc : s.callers t = pc) (hpc' : pc = .aliasInsert spawn n)
    (hn : s'.callers t ≠ .panicked) : InsertMove s t s' n spawn := by
  subst hpc'
  cases h with
  | beginSpawn _ hrest | beginShutdown _ _ hrest | beginLookup _ hrest | beginRequest _ _ hrest
  | beginWake _ _ _ hrest => cases hrest
  | insertPoisoned | insertDuplicate => exact absurd (Function.update_self ..) hn
  | insertAlias _ _ ha hres hfree hr =>
    cases Registry.step_move hr
    refine ⟨hpc, Function.update_self .., rfl, rfl, fun a ha' => ?_⟩
    cases ha.symm.trans ha'
    exact ⟨_, hres, hfree, rfl⟩
  | insertNone _ _ ha hr =>
    cases Registry.step_move hr
    exact ⟨hpc, Function.update_self .., rfl, rfl, by simp [ha]⟩

theorem CallMove.committing_cases (h : CallMove poisons s t pc s') (hpc : s.callers t = pc)
    (hn : s'.callers t = .committing n) :
    pc = .committing n ∨ ∃ spawn, InsertMove s t s' n spawn := by
  cases h with
  | insertAlias spawn m ha hres hfree hr =>
    cases hn.symm.trans (Function.update_self ..)
    exact .inr ⟨spawn, (CallMove.insertAlias spawn n ha hres hfree hr).insertMove hpc rfl
      (by rw [hn]; nofun)⟩
  | insertNone spawn m ha hr =>
    cases hn.symm.trans (Function.update_self ..)
    exact .inr ⟨spawn, (CallMove.insertNone spawn n ha hr).insertMove hpc rfl
      (by rw [hn]; nofun)⟩
  | reserving | committing | snapshotting | killRunner | counting | countRemaining | requesting
  | inRunner => exact .inl (hpc.symm.trans hn)
  | _ => simp [State.setCaller, State.setActor] at hn

theorem Linked.inserted_back (hl : Linked s) (h : Move poisons s s' u) (hn : s'.Inserted n) :
    s.Inserted n ∨ ∃ t spawn, u = .caller t ∧ InsertMove s t s' n spawn := by
  rcases hn with ⟨t, ht⟩ | hn
  · by_cases hu : u = .caller t
    · subst hu
      cases h with
      | caller _ hpc h =>
        rcases h.committing_cases hpc ht with rfl | ⟨spawn, hins⟩
        · exact .inl (.inl ⟨t, hpc⟩)
        · exact .inr ⟨t, spawn, rfl, hins⟩
    · rw [h.callers_of_ne hu] at ht
      exact .inl (.inl ⟨t, ht⟩)
  · rcases h.runners hn with hn | ⟨r, i, hpc, -⟩
    · exact .inl (.inr hn)
    · obtain ⟨t, -, ht⟩ := hl.committing_of_method (u := u) (n := n) (by rw [hpc]; rfl)
      exact .inl (.inl ⟨t, ht⟩)

theorem Linked.inserted_step (hl : Linked s) (hinv : Registry.Inv s.registry)
    (hcommitted : Registry.Committed s.registry) (h : Move poisons s s' u) (hn : s.Inserted n) :
    s'.Inserted n := by
  rcases hn with ⟨t, ht⟩ | hn
  · by_cases hu : u = .caller t
    · subst hu
      cases h with
      | caller _ hpc h =>
        cases hpc.symm.trans ht
        cases h with
        | committing => exact .inl ⟨t, ht⟩
        | committed _ m hr hpcs =>
          refine .inr ?_
          have hunlock := hl.commitUnlock ⟨ht, m, Registry.step_committed hr hpcs⟩
          exact (Move.caller t ht (.committed n m hr hpcs)).runners_mono hinv
            (hcommitted _ n hunlock)
        | beginSpawn _ hrest | beginShutdown _ _ hrest | beginLookup _ hrest
        | beginRequest _ _ hrest | beginWake _ _ _ hrest => cases hrest
    · exact .inl ⟨t, (h.callers_of_ne hu).trans ht⟩
  · exact .inr (h.runners_mono hinv hn)

omit [DecidableEq T] [DecidableEq A] in
theorem Linked.lt_of_inserted (hl : Linked s) (hinv : Registry.Inv s.registry)
    (hn : s.Inserted n) : n < s.registry.mem.data.reservations.length := by
  rcases hn with ⟨t, ht⟩ | hn
  · have hin := hl.caller t
    rw [ht] at hin
    refine (hinv.thread (.caller t)).known n ?_
    generalize s.registry.pcs (.caller t) = pc at hin
    cases pc <;> cases hin <;> rfl
  · by_contra hle
    exact hn (hinv.data.runners n (Nat.le_of_not_lt hle))

/-- A dispatcher thread in `finalize_kill` goes on in it. -/
theorem WorkMove.finalizing (h : WorkMove poisons s d s') (hl : Linked s)
    (hd : s.finalizers d ≠ .start ∨ s'.finalizers d ≠ .start) : ∃ m actor pc, s.busy d = some m ∧
      s.actors m = some actor ∧ actor.run.workers d = .onFinalize ∧ s.finalizers d = pc ∧
      FinalizeMove poisons s d m actor pc s' := by
  have hstart (hsame : s'.finalizers d = s.finalizers d) (hne : ∀ m actor, s.busy d = some m →
      s.actors m = some actor → actor.run.workers d ≠ .onFinalize) : False := by
    have hstart := (hl.worker d).start hne
    rw [hsame, hstart] at hd
    simp at hd
  cases h with
  | finalize m hbusy ha hw hpc h => exact ⟨m, _, _, hbusy, ha, hw, hpc, h⟩
  | pick m hbusy _ _ hs | exit hbusy hs =>
    subst hs
    exact (hstart rfl (by simp [hbusy])).elim
  | execute m _ hbusy ha hw _ _ _ hs | «return» m _ hbusy ha hw _ _ hs
  | unwind m _ hbusy ha hw _ _ hs =>
    subst hs
    refine (hstart rfl fun m' actor hm ha' => ?_).elim
    cases hm.symm.trans hbusy
    cases ha'.symm.trans ha
    exact hw

/-- An actor comes to the alias map from its slot. -/
theorem Released.unlisted_back (hrel : Released s) (hl : Linked s) (hinv : Registry.Inv s.registry)
    (h : Move poisons s s' u) (hn : s'.Unlisted n) : s.Unlisted n ∨
      n ∈ s.registry.mem.data.outstanding ∧ s.registry.mem.data.runners n ≠ none ∧
        n ∉ s'.registry.mem.data.outstanding := by
  obtain ⟨d, actor', hbusy', ha', hw', hun⟩ := hn
  by_cases hu : u = .worker d
  · subst hu
    cases h with
    | worker _ h =>
      have hd : s'.finalizers d ≠ .start := by
        rcases hun with ⟨h, -⟩ | ⟨a, h⟩ <;> rw [h] <;> nofun
      obtain ⟨m, actor, pc, hbusy, ha, hw, hpc, h⟩ := h.finalizing hl (.inr hd)
      cases h with
      | remove hr =>
        cases Registry.step_move hr
        simp [State.Unlisting, State.setFinalizer, Registry.State.setPc,
          Registry.Pc.gaveBack] at hun
      | removing hr =>
        cases hbusy'.symm.trans hbusy
        rcases hun with ⟨-, hgave⟩ | ⟨a, hun⟩
        · obtain ⟨handle, r, hfree, hdata⟩ := Registry.step_gaveBack hr hgave
          have hmethod : (s.registry.pcs (.worker d)).method = .remove handle := by
            rw [hfree]
            rfl
          obtain ⟨d', n', actor', hdd, hrem⟩ := hl.removing_of_method hmethod
          cases hdd
          cases hrem.busy.symm.trans hbusy
          obtain ⟨hout, hlatest⟩ := hrel.latest hinv hrem (by rw [hfree]; rfl)
          refine .inr ⟨hout, hlatest ▸ (hinv.taken hfree).runner, ?_⟩
          dsimp only
          rw [hdata, hinv.data.mem_giveBack]
          exact fun hn => hn.1 hlatest.symm
        · cases hun.symm.trans hpc
      | removed r hr hpcs =>
        cases hbusy'.symm.trans hbusy
        obtain ⟨handle, hunlock⟩ := Registry.step_removed hr hpcs
        exact .inl ⟨d, actor, hbusy, ha, hw, .inl ⟨hpc, by rw [hunlock]; rfl⟩⟩
      | _ => simp [State.Unlisting, State.setFinalizer] at hun
  · obtain ⟨hbusy, hpc⟩ := h.workers_of_ne hu
    rw [State.Unlisting, hpc, h.pcs_of_ne (Ne.symm hu)] at hun
    rcases hl.actor_cases h ha' with ⟨-, _, _, _, -, -, hnew⟩ | ⟨actor, ha, hevolves⟩
    · obtain ⟨-, q, -, rfl⟩ := newActor_eq_some.mp hnew
      cases hw'
    · exact .inl ⟨d, actor, hbusy ▸ hbusy', ha, hevolves.workers hu ▸ hw', hun⟩

/-- The step removes an alias of `finalize_kill`. -/
structure UnlistMove (s : State k T M F A) (d : Fin k) (n : Nat) (actorAlias : A)
    (s' : State k T M F A) : Prop where
  busy : s.busy d = some n
  onFinalize : ∃ actor, s.actors n = some actor ∧ actor.run.workers d = .onFinalize
  finalizer : s.finalizers d = .aliasRemove actorAlias
  done : s'.finalizers d = .done
  aliases : s'.aliases = Function.update s.aliases actorAlias none
  registry : s'.registry = s.registry
  actors : s'.actors = s.actors

omit [DecidableEq T] in
theorem UnlistMove.unlisted {actorAlias : A} (h : UnlistMove s d n actorAlias s') :
    s.Unlisted n := by
  obtain ⟨actor, ha, hw⟩ := h.onFinalize
  exact ⟨d, actor, h.busy, ha, hw, .inr ⟨actorAlias, h.finalizer⟩⟩

theorem Released.unlisted_step (hrel : Released s) (hl : Linked s) (hp : s.aliasPoisoned = false)
    (h : Move poisons s s' u) (hn : s.Unlisted n) : s'.Unlisted n ∨
      (∀ actorAlias, ¬s.HasAlias n actorAlias) ∨
      ∃ d actorAlias, u = .worker d ∧ UnlistMove s d n actorAlias s' := by
  obtain ⟨d, actor, hbusy, ha, hw, hun⟩ := hn
  obtain ⟨actor', ha', hevolves⟩ := hl.evolves h ha
  by_cases hu : u = .worker d
  · subst hu
    cases h with
    | worker _ h =>
      have hd : s.finalizers d ≠ .start := by
        rcases hun with ⟨h, -⟩ | ⟨a, h⟩ <;> rw [h] <;> nofun
      obtain ⟨m, actor₀, pc, hbusy₀, ha₀, -, hpc, h⟩ := h.finalizing hl (.inl hd)
      cases hbusy₀.symm.trans hbusy
      cases ha₀.symm.trans ha
      rcases hun with ⟨hrem, hgave⟩ | ⟨a, hrem⟩
      · cases hpc.symm.trans hrem
        obtain ⟨handle, r, hunlock⟩ := Registry.Pc.eq_of_gaveBack hgave
        cases h with
        | removing hr hne =>
          exact absurd (Registry.step_removeUnlock hr hunlock) (hne _)
        | removed r' hr hpcs =>
          cases hpcs.symm.trans (Registry.step_removeUnlock hr hunlock)
          cases hrel.removed d n r hbusy hrem (by rw [hunlock]; rfl)
          cases hal : actor.actorAlias with
          | none =>
            refine .inr (.inl fun a ⟨actor₁, ha₁, h⟩ => ?_)
            cases ha₁.symm.trans ha
            cases h.symm.trans hal
          | some a =>
            refine .inl ⟨d, actor, hbusy, ha, hw, .inr ⟨a, ?_⟩⟩
            simp [State.setFinalizer, ha, hal]
        | removedNone hr hpcs | removePanic hr hpcs =>
          cases hpcs.symm.trans (Registry.step_removeUnlock hr hunlock)
      · cases hpc.symm.trans hrem
        cases h with
        | aliasPanic _ hpoisoned => cases hp.symm.trans hpoisoned
        | aliasRemove =>
          exact .inr (.inr ⟨d, a, rfl, hbusy, ⟨actor, ha, hw⟩, hrem,
            Function.update_self .., rfl, rfl, rfl⟩)
  · obtain ⟨hbusy', hpc⟩ := h.workers_of_ne hu
    refine .inl ⟨d, actor', hbusy'.trans hbusy, ha', (hevolves.workers hu).trans hw, ?_⟩
    rw [State.Unlisting, hpc, h.pcs_of_ne (Ne.symm hu)]
    exact hun

/-- A step leaves the alias map, or inserts the name of a spawn, or removes that of an actor. -/
theorem Move.aliases (h : Move poisons s s' u) : s'.aliases = s.aliases ∨
    (∃ t n spawn actorAlias, u = .caller t ∧ InsertMove s t s' n spawn ∧
      spawn.actorAlias = some actorAlias) ∨
    ∃ d n actorAlias, u = .worker d ∧ UnlistMove s d n actorAlias s' := by
  cases h with
  | caller t hpc h =>
    cases h with
    | insertAlias spawn n ha hres hfree hr =>
      have hins := (CallMove.insertAlias spawn n ha hres hfree hr).insertMove
        hpc rfl (by simp [State.setCaller])
      exact .inr (.inl ⟨t, n, spawn, _, rfl, hins, ha⟩)
    | _ => exact .inl rfl
  | worker d h =>
    cases h with
    | finalize n hbusy ha hw hpc h =>
      cases h with
      | aliasRemove a =>
        exact .inr (.inr ⟨d, n, a, rfl, hbusy, ⟨_, ha, hw⟩, hpc,
          Function.update_self .., rfl, rfl, rfl⟩)
      | _ => exact .inl rfl
    | pick _ _ _ _ hs | exit _ hs | execute _ _ _ _ _ _ _ _ hs | «return» _ _ _ _ _ _ _ hs
    | unwind _ _ _ _ _ _ _ hs =>
      subst hs
      exact .inl rfl

theorem Move.outstanding_back (h : Move poisons s s' u)
    (hlt : n < s.registry.mem.data.reservations.length)
    (hn : n ∈ s'.registry.mem.data.outstanding) : n ∈ s.registry.mem.data.outstanding := by
  rcases h.registry with h | ⟨b, h, -⟩
  · exact h ▸ hn
  · exact (Registry.step_mem_outstanding h hn).resolve_right (Nat.not_le_of_lt hlt)

/-- A name is owned from its insertion on. -/
theorem Released.registered_back (hrel : Released s) (hl : Linked s)
    (hinv : Registry.Inv s.registry) (h : Move poisons s s' u) (hn : s'.Registered n) :
    s.Registered n ∨ ∃ t spawn, u = .caller t ∧ InsertMove s t s' n spawn := by
  rcases hn with ⟨hout, hn⟩ | hn
  · rcases hl.inserted_back h hn with hn | hins
    · exact .inl (.inl ⟨h.outstanding_back (hl.lt_of_inserted hinv hn) hout, hn⟩)
    · exact .inr hins
  · rcases hrel.unlisted_back hl hinv h hn with hn | ⟨hout, hrun, -⟩
    · exact .inl (.inr hn)
    · exact .inl (.inl ⟨hout, .inr hrun⟩)

/-- The step that gives back the slot of an actor leaves its alias to be removed. -/
theorem Linked.unlisted_of_givenBack (hl : Linked s) (hrel : Released s)
    (hinv : Registry.Inv s.registry) (h : Move poisons s s' u)
    (hn : n ∈ s.registry.mem.data.outstanding) (hn' : n ∉ s'.registry.mem.data.outstanding) :
    s'.Unlisted n := by
  rcases h.registry with hr | ⟨b, hr, rfl⟩
  · exact absurd (hr ▸ hn) hn'
  · obtain ⟨handle, r, hpc, rfl⟩ := (Registry.step_outstanding hr hn).resolve_left hn'
    have hpc' := Registry.step_removeFree hr hpc
    obtain ⟨d, n, actor, hu, hrem⟩ := hl.removing_of_method (u := b.thread) (by rw [hpc]; rfl)
    rw [hu] at h hpc hpc'
    have hlatest := (hrel.latest hinv hrem (by rw [hpc]; rfl)).2
    rw [hlatest]
    cases h with
    | worker _ h =>
      obtain ⟨m, actor₀, pc, hbusy, ha, hw, hpc₀, h⟩ :=
        h.finalizing hl (.inl (by rw [hrem.finalizer]; nofun))
      cases hbusy.symm.trans hrem.busy
      cases hpc₀.symm.trans hrem.finalizer
      cases h with
      | removing =>
        exact ⟨d, actor₀, hbusy, ha, hw, .inl ⟨hrem.finalizer, by rw [hpc']; rfl⟩⟩
      | removed _ _ hpcs | removedNone _ hpcs | removePanic _ hpcs =>
        cases hpc'.symm.trans hpcs

/-- A name is owned until its removal. -/
theorem Released.registered_step (hrel : Released s) (hl : Linked s)
    (hinv : Registry.Inv s.registry) (hcommitted : Registry.Committed s.registry)
    (hp : s.aliasPoisoned = false) (h : Move poisons s s' u) (hn : s.Registered n) :
    s'.Registered n ∨ (∀ actorAlias, ¬s.HasAlias n actorAlias) ∨
      ∃ d actorAlias, u = .worker d ∧ UnlistMove s d n actorAlias s' := by
  rcases hn with ⟨hout, hn⟩ | hn
  · by_cases hout' : n ∈ s'.registry.mem.data.outstanding
    · exact .inl (.inl ⟨hout', hl.inserted_step hinv hcommitted h hn⟩)
    · exact .inl (.inr (hl.unlisted_of_givenBack hrel hinv h hout hout'))
  · rcases hrel.unlisted_step hl hp h hn with hn | hn
    · exact .inl (.inr hn)
    · exact .inr hn

omit [DecidableEq T] [DecidableEq A] in
theorem State.HasAlias.eq {a b : A} (ha : s.HasAlias n a) (hb : s.HasAlias n b) : a = b := by
  obtain ⟨actor, hn, ha⟩ := ha
  obtain ⟨actor', hn', hb⟩ := hb
  cases hn.symm.trans hn'
  exact Option.some.inj (ha.symm.trans hb)

/-! ## The invariant -/

namespace AliasInv

omit [DecidableEq T] [DecidableEq A] in
theorem known_of_registered (hai : AliasInv s) (hn : s.Registered n) : s.actors n ≠ none := by
  rcases hn with ⟨-, hn⟩ | ⟨d, actor, -, ha, -⟩
  · exact hai.known n hn
  · simp [ha]

omit [DecidableEq T] [DecidableEq A] in
theorem hasAlias (hai : AliasInv s) {spawn : Spawn A} {actorAlias : A}
    (ht : s.callers t = .aliasInsert spawn n) :
    s.HasAlias n actorAlias ↔ spawn.actorAlias = some actorAlias := by
  obtain ⟨actor, ha, halias⟩ := hai.inserting t spawn n ht
  constructor
  · rintro ⟨actor', ha', h⟩
    cases ha'.symm.trans ha
    exact halias ▸ h
  · exact fun h => ⟨actor, ha, halias.trans h⟩

omit [DecidableEq T] in
/-- The insertion makes the new actor the owner of its name. -/
theorem registered_of_insert (hl : Linked s) (hinv : Registry.Inv s.registry) {spawn : Spawn A}
    (h : InsertMove s t s' n spawn) : s'.Registered n := by
  refine .inl ⟨?_, .inl ⟨t, h.committing⟩⟩
  rw [h.mem]
  exact ((hinv.thread _).pending n (by rw [hl.reserved (.inr h.callers)]; rfl)).outstanding

omit [DecidableEq T] in
/-- An actor whose alias has been removed does not own it any more. -/
theorem not_registered (hai : AliasInv s) (hl : Linked s) {actorAlias : A}
    (h : UnlistMove s d n actorAlias s') : ¬s'.Registered n := by
  rintro (⟨hout, -⟩ | ⟨d', actor, hbusy', ha, hw, hun⟩)
  · exact hai.unlisted n h.unlisted (h.registry ▸ hout)
  · rw [h.actors] at ha
    obtain ⟨actor₀, ha₀, hw₀⟩ := h.onFinalize
    cases ha₀.symm.trans ha
    obtain rfl : d' = d := (hl.finalize n actor ha).unique d' d (by rw [hw]; nofun)
      (by rw [hw₀]; nofun)
    rcases hun with ⟨hd, -⟩ | ⟨a, hd⟩ <;> cases h.done.symm.trans hd

/-- An entry that a step leaves keeps its owner. -/
theorem kept (hai : AliasInv s) (hl : Linked s) (hrel : Released s)
    (hinv : Registry.Inv s.registry) (hcommitted : Registry.Committed s.registry)
    (hp : s.aliasPoisoned = false) (h : Move poisons s s' u) {actorAlias : A}
    {handle : Registry.Handle} (ha : s.aliases actorAlias = some handle)
    (ha' : s'.aliases actorAlias ≠ none) :
    ∃ n, s'.Registered n ∧ s'.HasAlias n actorAlias ∧ s'.HandleOf n handle := by
  obtain ⟨n, hreg, halias, hhandle⟩ := hai.found actorAlias handle ha
  rcases hrel.registered_step hl hinv hcommitted hp h hreg with hreg | hno | ⟨d, a, -, hun⟩
  · exact ⟨n, hreg, hl.hasAlias_step h halias, h.handleOf hinv hhandle⟩
  · exact absurd halias (hno actorAlias)
  · have heq : a = actorAlias := (hai.removing d n a hun.busy hun.finalizer).eq halias
    subst heq
    exact absurd (by rw [hun.aliases, Function.update_self]) ha'

theorem step_found (hai : AliasInv s) (hl : Linked s) (hrel : Released s)
    (hinv : Registry.Inv s.registry) (hcommitted : Registry.Committed s.registry)
    (hp : s.aliasPoisoned = false) (h : Move poisons s s' u) {actorAlias : A}
    {handle : Registry.Handle} (ha : s'.aliases actorAlias = some handle) :
    ∃ n, s'.Registered n ∧ s'.HasAlias n actorAlias ∧ s'.HandleOf n handle := by
  have hne : s'.aliases actorAlias ≠ none := by simp [ha]
  rcases h.aliases with heq | ⟨t, n, spawn, a, -, hins, hspawn⟩ | ⟨d, n, a, -, hun⟩
  · exact hai.kept hl hrel hinv hcommitted hp h (heq ▸ ha) hne
  · obtain ⟨r, hr, -, heq⟩ := hins.named a hspawn
    rw [heq] at ha
    by_cases haa : actorAlias = a
    · subst haa
      rw [Function.update_self, Option.some.injEq] at ha
      subst ha
      refine ⟨n, registered_of_insert hl hinv hins,
        hl.hasAlias_step h ((hai.hasAlias hins.callers).mpr hspawn), r, ?_, rfl⟩
      rw [hins.mem]
      exact hr
    · rw [Function.update_of_ne haa] at ha
      exact hai.kept hl hrel hinv hcommitted hp h ha hne
  · rw [hun.aliases] at ha
    by_cases haa : actorAlias = a
    · subst haa
      rw [Function.update_self] at ha
      cases ha
    · rw [Function.update_of_ne haa] at ha
      exact hai.kept hl hrel hinv hcommitted hp h ha hne

theorem step_entry (hai : AliasInv s) (hl : Linked s) (hrel : Released s)
    (hinv : Registry.Inv s.registry) (h : Move poisons s s' u) {actorAlias : A}
    (hreg : s'.Registered n) (halias : s'.HasAlias n actorAlias) :
    ∃ handle, s'.aliases actorAlias = some handle ∧ s'.HandleOf n handle := by
  rcases hrel.registered_back hl hinv h hreg with hreg₀ | ⟨t, spawn, -, hins⟩
  · have halias₀ := hl.hasAlias_back h halias (hai.known_of_registered hreg₀)
    obtain ⟨handle, ha, hhandle⟩ := hai.entry n actorAlias hreg₀ halias₀
    refine ⟨handle, ?_, h.handleOf hinv hhandle⟩
    rcases h.aliases with heq | ⟨t, m, spawn, a, -, hins, hspawn⟩ | ⟨d, m, a, -, hun⟩
    · rw [heq, ha]
    · obtain ⟨r, -, hfree, heq⟩ := hins.named a hspawn
      rw [heq, Function.update_of_ne, ha]
      rintro rfl
      cases hfree.symm.trans ha
    · rw [hun.aliases, Function.update_of_ne, ha]
      rintro rfl
      -- the removed name would be that of an actor that still owns it
      obtain rfl := hai.unique n m actorAlias hreg₀ (.inr hun.unlisted) halias₀
        (hai.removing d m actorAlias hun.busy hun.finalizer)
      exact hai.not_registered hl hun hreg
  · rw [State.HasAlias, hins.actors] at halias
    obtain ⟨r, hr, -, heq⟩ := hins.named actorAlias ((hai.hasAlias hins.callers).mp halias)
    refine ⟨r.toHandle, by rw [heq, Function.update_self], r, ?_, rfl⟩
    rw [hins.mem]
    exact hr

theorem step_unique (hai : AliasInv s) (hl : Linked s) (hrel : Released s)
    (hinv : Registry.Inv s.registry) (h : Move poisons s s' u) {m : Nat} {actorAlias : A}
    (hn : s'.Registered n) (hm : s'.Registered m) (hna : s'.HasAlias n actorAlias)
    (hma : s'.HasAlias m actorAlias) : n = m := by
  -- the check of an insertion finds the entry of any other owner
  have hnew {n m : Nat} {t : T} {spawn : Spawn A} (hins : InsertMove s t s' n spawn)
      (hm : s.Registered m) (hna : s'.HasAlias n actorAlias) (hma : s'.HasAlias m actorAlias) :
      False := by
    rw [State.HasAlias, hins.actors] at hna
    obtain ⟨r, -, hfree, -⟩ := hins.named actorAlias ((hai.hasAlias hins.callers).mp hna)
    obtain ⟨handle, ha, -⟩ := hai.entry m actorAlias hm
      (hl.hasAlias_back h hma (hai.known_of_registered hm))
    cases hfree.symm.trans ha
  rcases hrel.registered_back hl hinv h hn with hn₀ | ⟨t, spawn, hu, hins⟩
  · rcases hrel.registered_back hl hinv h hm with hm₀ | ⟨t, spawn, -, hins⟩
    · exact hai.unique n m actorAlias hn₀ hm₀
        (hl.hasAlias_back h hna (hai.known_of_registered hn₀))
        (hl.hasAlias_back h hma (hai.known_of_registered hm₀))
    · exact (hnew hins hn₀ hma hna).elim
  · rcases hrel.registered_back hl hinv h hm with hm₀ | ⟨t', spawn', hu', hins'⟩
    · exact (hnew hins hm₀ hna hma).elim
    · cases hu.symm.trans hu'
      cases hins.callers.symm.trans hins'.callers
      rfl

theorem step_removing (hai : AliasInv s) (hl : Linked s) (hrel : Released s)
    (h : Move poisons s s' u) {actorAlias : A} (hbusy : s'.busy d = some n)
    (hd : s'.finalizers d = .aliasRemove actorAlias) : s'.HasAlias n actorAlias := by
  by_cases hu : u = .worker d
  · subst hu
    cases h with
    | worker _ h =>
      obtain ⟨m, actor, pc, hbusy₀, ha, -, hpc, h⟩ := h.finalizing hl (.inr (by rw [hd]; nofun))
      cases h with
      | removed r hr hpcs =>
        cases hbusy.symm.trans hbusy₀
        obtain ⟨handle, hunlock⟩ := Registry.step_removed hr hpcs
        cases hrel.removed d n r hbusy₀ hpc (by rw [hunlock]; rfl)
        simp only [State.setFinalizer, Function.update_self, ha, Option.bind_some] at hd
        refine ⟨actor, ha, ?_⟩
        cases hal : actor.actorAlias with
        | none =>
          rw [hal] at hd
          cases hd
        | some a =>
          rw [hal] at hd
          cases hd
          rfl
      | removing => cases hd.symm.trans hpc
      | _ => simp [State.setFinalizer] at hd
  · obtain ⟨hb, hf⟩ := h.workers_of_ne hu
    exact hl.hasAlias_step h (hai.removing d n actorAlias (hb ▸ hbusy) (hf ▸ hd))

theorem step_inserting (hai : AliasInv s) (hl : Linked s) (h : Move poisons s s' u)
    {spawn : Spawn A} (ht : s'.callers t = .aliasInsert spawn n) :
    ∃ actor, s'.actors n = some actor ∧ actor.actorAlias = spawn.actorAlias := by
  by_cases hu : u = .caller t
  · subst hu
    cases h with
    | caller _ hpc h =>
      cases h with
      | newRunner spawn' m hnew =>
        cases ht.symm.trans (Function.update_self ..)
        obtain ⟨-, q, -, rfl⟩ := newActor_eq_some.mp hnew
        exact ⟨_, Function.update_self .., rfl⟩
      | reserving | committing | snapshotting | killRunner | counting | countRemaining
      | requesting | inRunner => cases hpc.symm.trans ht
      | _ => simp [State.setCaller, State.setActor] at ht
  · rw [h.callers_of_ne hu] at ht
    obtain ⟨actor, ha, halias⟩ := hai.inserting t spawn n ht
    obtain ⟨actor', ha', hevolves⟩ := hl.evolves h ha
    exact ⟨actor', ha', hevolves.actorAlias.trans halias⟩

theorem step (hai : AliasInv s) (hl : Linked s) (hrel : Released s)
    (hinv : Registry.Inv s.registry) (hcommitted : Registry.Committed s.registry)
    (hp : s.aliasPoisoned = false) (h : Move poisons s s' u) : AliasInv s' where
  inserting _ _ _ := hai.step_inserting hl h
  known n hn := by
    rcases hl.inserted_back h hn with hn | ⟨t, spawn, -, hins⟩
    · exact h.ne_none (hai.known n hn)
    · obtain ⟨actor, ha, -⟩ := hai.inserting t spawn n hins.callers
      simp [hins.actors, ha]
  unlisted n hn := by
    rcases hrel.unlisted_back hl hinv h hn with hn | ⟨-, -, hout⟩
    · obtain ⟨_, actor, -, ha, -⟩ := id hn
      exact fun hout => hai.unlisted n hn (h.outstanding_back (hl.known n actor ha) hout)
    · exact hout
  removing _ _ _ := hai.step_removing hl hrel h
  entry _ _ := hai.step_entry hl hrel hinv h
  found _ _ := hai.step_found hl hrel hinv hcommitted hp h
  unique _ _ _ := hai.step_unique hl hrel hinv h

end AliasInv

/-- A lock that is poisoned stays so. -/
theorem Move.aliasPoisoned (h : Move poisons s s' u) (hp : s'.aliasPoisoned = false) :
    s.aliasPoisoned = false := by
  cases h with
  | caller t hpc h => cases h <;> assumption
  | worker d h => exact h.sameCalls.aliasPoisoned.symm.trans hp

/-- With panics as error results no lock is poisoned. -/
theorem Move.not_aliasPoisoned (h : Move false s s' u) (hp : s.aliasPoisoned = false) :
    s'.aliasPoisoned = false := by
  cases h with
  | caller t hpc h => cases h <;> first | exact hp | rfl
  | worker d h => exact h.sameCalls.aliasPoisoned.trans hp

end

section
variable [DecidableEq T] [DecidableEq A] {poisons : Bool} {capacity : Nat} {s : State k T M F A}
  {ok : State k T M F A → Action k T M F A → Prop}

theorem aliasInv_of_reach (h : Reach (machine k T M F A poisons capacity) ok s)
    (hp : s.aliasPoisoned = false) : AliasInv s := by
  refine h.inv_of
    (fun s => Released s ∧ Linked s ∧ Registry.Inv s.registry ∧ Registry.Committed s.registry)
    (fun s => s.aliasPoisoned = false → AliasInv s)
    (fun h => ⟨released_of_reach h, linked_of_reach h, registry_inv h,
      Registry.committed_of_reach (registry_reach h)⟩) ?_
    (fun ⟨hrel, hl, hinv, hc⟩ hai _ hs hp =>
      have hp := (step_move hs).aliasPoisoned hp
      (hai hp).step hl hrel hinv hc hp (step_move hs)) hp
  rintro _ rfl -
  have hinserted (n : Nat) : ¬(withCapacity k T M F A capacity).Inserted n := by
    rintro (⟨t, ht⟩ | hn)
    · cases ht
    · exact hn rfl
  have hunlisted (n : Nat) : ¬(withCapacity k T M F A capacity).Unlisted n := by
    rintro ⟨d, actor, hbusy, -⟩
    cases hbusy
  have hregistered (n : Nat) : ¬(withCapacity k T M F A capacity).Registered n := by
    rintro (⟨-, hn⟩ | hn)
    · exact hinserted n hn
    · exact hunlisted n hn
  exact ⟨fun _ _ _ => nofun, fun n hn => (hinserted n hn).elim,
    fun n hn => (hunlisted n hn).elim, fun _ _ _ => nofun, fun n _ hn => (hregistered n hn).elim,
    fun _ _ => nofun, fun n _ _ hn => (hregistered n hn).elim⟩

theorem not_aliasPoisoned_of_reach (h : Reach (machine k T M F A false capacity) ok s) :
    s.aliasPoisoned = false := by
  refine h.inv (fun s => s.aliasPoisoned = false) ?_ fun hs _ hstep =>
    (step_move hstep).not_aliasPoisoned hs
  rintro _ rfl
  rfl

/-- An entry of the alias map is of an actor that was spawned with the alias and that is reserved,
or is being finalized and has not had it removed. A committed actor that has not been removed is
the one its alias maps to, so two of them do not share one. A step that changes an entry is that of
`finalize_kill` for the one actor that the entry is of. -/
theorem aliases_identify (h : Reach (machine k T M F A false capacity) Machine.free s) :
    (∀ actorAlias handle, s.aliases actorAlias = some handle →
      ∃ n, s.Registered n ∧ s.HasAlias n actorAlias ∧ s.HandleOf n handle) ∧
    (∀ n actorAlias, s.registry.mem.data.runners n ≠ none →
      n ∈ s.registry.mem.data.outstanding → s.HasAlias n actorAlias →
      ∃ handle, s.aliases actorAlias = some handle ∧ s.HandleOf n handle) ∧
    (∀ n m actorAlias, s.registry.mem.data.runners n ≠ none →
      n ∈ s.registry.mem.data.outstanding → s.registry.mem.data.runners m ≠ none →
      m ∈ s.registry.mem.data.outstanding → s.HasAlias n actorAlias → s.HasAlias m actorAlias →
      n = m) ∧
    ∀ action s' actorAlias handle, step false s action = some s' →
      s.aliases actorAlias = some handle → s'.aliases actorAlias ≠ some handle →
      ∃ d n, action.thread = .worker d ∧ s.busy d = some n ∧
        s.finalizers d = .aliasRemove actorAlias ∧ s.HasAlias n actorAlias ∧ s.HandleOf n handle ∧
        ∀ m, s.Registered m → s.HasAlias m actorAlias → m = n := by
  have hai := aliasInv_of_reach h (not_aliasPoisoned_of_reach h)
  have hcommitted {n : Nat} (hn : s.registry.mem.data.runners n ≠ none)
      (hout : n ∈ s.registry.mem.data.outstanding) : s.Registered n := .inl ⟨hout, .inr hn⟩
  refine ⟨hai.found, fun n a hn hout => hai.entry n a (hcommitted hn hout),
    fun n m a hn hout hm hout' => hai.unique n m a (hcommitted hn hout) (hcommitted hm hout'),
    fun action s' a handle hs ha ha' => ?_⟩
  rcases (step_move hs).aliases with heq | ⟨t, n, spawn, b, -, hins, hspawn⟩ | ⟨d, n, b, hd, hun⟩
  · exact absurd (heq ▸ ha) ha'
  · obtain ⟨r, -, hfree, heq⟩ := hins.named b hspawn
    refine absurd ?_ ha'
    rw [heq, Function.update_of_ne, ha]
    rintro rfl
    cases hfree.symm.trans ha
  · obtain rfl : b = a := by
      by_contra hne
      rw [hun.aliases, Function.update_of_ne (Ne.symm hne)] at ha'
      exact ha' ha
    have hn := hai.removing d n b hun.busy hun.finalizer
    obtain ⟨handle', ha₁, hhandle⟩ := hai.entry n b (.inr hun.unlisted) hn
    cases ha₁.symm.trans ha
    exact ⟨d, n, hd, hun.busy, hun.finalizer, hn, hhandle,
      fun m hm hma => hai.unique m n b hm (.inr hun.unlisted) hma hn⟩

/-- The dispatcher has given back the slot of an actor with an alias, and the slot holds a new
actor, when it comes to the alias map. -/
def slotReused : State 1 Nat Nat Nat Nat :=
  ((machine 1 Nat Nat Nat Nat false 1).run (withCapacity 1 Nat Nat Nat Nat 1)
    ([Action.spawn 0 ⟨none, some 7, 2, true⟩] ++ List.replicate 13 (Action.call 0 false) ++
      [Action.request 0 .kill ⟨0, 1⟩] ++ List.replicate 10 (Action.call 0 false) ++
      [Action.pick (Fin.last 0) 0] ++ List.replicate 20 (Action.execute (Fin.last 0) .done) ++
      [Action.spawn 1 ⟨none, none, 2, true⟩] ++ List.replicate 13 (Action.call 1 false))).get rfl

theorem aliases_identify_slotReused : slotReused.finalizers 0 = .aliasRemove 7 ∧
    slotReused.aliases 7 = some ⟨0, 1⟩ ∧ slotReused.registry.mem.data.outstanding = [1] ∧
    ∃ n, slotReused.Registered n ∧ slotReused.HasAlias n 7 ∧ slotReused.HandleOf n ⟨0, 1⟩ :=
  ⟨rfl, rfl, rfl, (aliases_identify (.get_free rfl rfl)).1 7 ⟨0, 1⟩ rfl⟩

end

end DignusActor.ActorSystem
