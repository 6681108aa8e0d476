import DignusActor.Registry.Mutexes
import DignusActor.System.Released
import DignusActor.System.Poison

/-! # Spawns that fail

A spawn that panics before it has a slot leaves nothing behind: the run without its steps is a run
as well, and comes to the same registry and the same alias map. A spawn that panics between
`reserve` and `commit` keeps its slot for ever. -/

namespace DignusActor.Registry

variable {T R : Type} [DecidableEq T]

/-- The memory when thread `t` does not hold the `alloc` mutex. -/
def Mem.release (m : Mem T R) (t : T) : Mem T R :=
  { m with alloc := if m.alloc = some t then none else m.alloc }

/-- The registry when thread `t` stands at `pc`, without the `alloc` mutex. -/
def State.without (s : State T R) (t : T) (pc : Pc R) : State T R where
  mem := s.mem.release t
  pcs := Function.update s.pcs t pc

variable {poisons : Bool} {t u : T} {m m' : Mem T R} {pc pc' : Pc R}

theorem Mem.release_of_ne (h : m.alloc ≠ some t) : m.release t = m := by
  simp [release, h]

omit [DecidableEq T] in
theorem CallMove.alloc (h : CallMove poisons u m pc m' pc') :
    m'.alloc = m.alloc ∨ m'.alloc = some u ∨ m'.alloc = none := by
  cases h with
  | reserveLock | removeLock | snapshotLock | countLock => exact .inr (.inl rfl)
  | popFull | reserveUnlock | snapshotUnlock | countUnlock => exact .inr (.inr rfl)
  | removeUnlock handle removed => cases removed <;> exact .inr (.inr rfl)
  | _ => exact .inl rfl

/-- The other threads do not see whether thread `t` waits for the mutex or has it. -/
theorem callStep_release (h : callStep poisons u m pc = some (m', pc')) (hu : u ≠ t)
    (halloc : pc.inAlloc = true → m.alloc = some u) :
    callStep poisons u (m.release t) pc = some (m'.release t, pc') := by
  by_cases ht : m.alloc = some t
  · have hpc : pc.inAlloc = false := by
      by_contra hin
      exact hu (Option.some.inj ((halloc (by simpa using hin)).symm.trans ht))
    cases pc with
    | reserveLock | removeLock | snapshotLock | countLock =>
      simp [callStep, Mem.lockAlloc, ht] at h
    | commitLock n runner =>
      simp only [callStep, Option.bind_eq_some_iff] at h
      obtain ⟨i, hi, h⟩ := h
      obtain ⟨ho, rfl, rfl⟩ := Mem.lockOwner_eq h
      simp [callStep, Mem.release, Mem.lockOwner, hi, ho, ht]
    | commitStore n runner | commitUnlock n =>
      simp only [callStep, Option.map_eq_some_iff] at h
      obtain ⟨i, hi, h⟩ := h
      cases h
      simp [callStep, Mem.release, Mem.unlockOwner, hi, ht]
    | lookupLoad lookup =>
      simp only [callStep] at h ⊢
      dsimp only [Mem.release]
      split at h
      · cases h
        simp [*]
      · split at h <;> cases h <;> simp [*]
    | lookupLock lookup =>
      obtain ⟨ho, rfl, rfl⟩ := Mem.lockOwner_eq h
      simp [callStep, Mem.release, Mem.lockOwner, ho, ht]
    | lookupRecheck lookup =>
      simp only [callStep] at h ⊢
      dsimp only [Mem.release]
      split at h <;> cases h <;> simp [*]
    | lookupClone | lookupUnlock | deliver =>
      cases h
      simp [callStep, Mem.release, Mem.unlockOwner, ht]
    | idle | panicked | reserved | committed | removed | snapshot | counted => cases h
    | _ => cases hpc
  · have ht' : m'.alloc ≠ some t := by
      rcases (callStep_move h).alloc with h | h | h <;> rw [h]
      · exact ht
      · exact fun heq => hu (Option.some.inj heq)
      · simp
    rw [Mem.release_of_ne ht, Mem.release_of_ne ht', h]

variable {s s' : State T R}

theorem step_without {a : Action T R} (h : step poisons s a = some s') (hinv : Inv s)
    (ha : a.thread ≠ t) : step poisons (s.without t pc) a = some (s'.without t pc) := by
  have hpcs : (s.without t pc).pcs a.thread = s.pcs a.thread := Function.update_of_ne ha ..
  have hset (x : Pc R) :
      (s.without t pc).setPc a.thread x = (s.setPc a.thread x).without t pc := by
    simp only [State.setPc, State.without, Function.update_comm ha]
  have hbegin {x : Pc R} (h : s.begin a.thread x = some s') :
      (s.without t pc).begin a.thread x = some (s'.without t pc) := by
    obtain ⟨hrest, rfl⟩ := State.begin_eq_some.mp h
    exact State.begin_eq_some.mpr ⟨hpcs ▸ hrest, (hset x).symm⟩
  cases a with
  | reserve | lookup | snapshotLive | liveCount => exact hbegin h
  | commit u runner | abandon u =>
    simp only [step, Action.thread] at h hpcs hset ⊢
    rw [hpcs]
    split at h <;> cases h
    rw [hset]
  | remove u n =>
    obtain ⟨r, hr, h⟩ := Option.bind_eq_some_iff.mp h
    exact Option.bind_eq_some_iff.mpr ⟨r, hr, hbegin h⟩
  | call u =>
    simp only [step, Option.map_eq_some_iff, Action.thread] at h hpcs ha ⊢
    obtain ⟨⟨m, x⟩, hcall, rfl⟩ := h
    refine ⟨(m.release t, x), ?_, ?_⟩
    · rw [hpcs]
      exact callStep_release hcall ha (hinv.thread u).alloc
    · simp only [State.without, Function.update_comm ha]

theorem step_call_reservation (h : step poisons s (.call t) = some s') {n : Nat}
    (hn : (s.pcs t).reservation = some n) :
    (s'.pcs t).reservation = some n ∨ s.pcs t = .commitUnlock n ∧ s'.pcs t = .committed n := by
  cases step_move h with
  | call _ hcall =>
    simp only [Function.update_self]
    generalize s.pcs t = pc at hcall hn ⊢
    cases hcall with
    | reserveLive | reserveUnlock | commitLock | commitStore => exact .inl hn
    | commitUnlock =>
      cases hn
      exact .inr ⟨rfl, rfl⟩
    | _ => cases hn

/-- A reservation that is new is that of the thread which took the step. -/
theorem step_reservation_new {a : Action T R} (h : step poisons s a = some s') {n : Nat}
    (hn : n ∈ s'.mem.data.outstanding) :
    n ∈ s.mem.data.outstanding ∨ (s'.pcs a.thread).reservation = some n := by
  cases step_move h with
  | call t hcall =>
    simp only [Action.thread, Function.update_self]
    generalize s.pcs t = pc at hcall
    cases hcall with
    | reserveStore i g =>
      rw [Data.reserve_outstanding] at hn
      rcases List.mem_append.mp hn with hn | hn
      · exact .inl hn
      · exact .inr (congrArg some (List.mem_singleton.mp hn).symm)
    | giveBack => exact .inl (List.mem_of_mem_erase hn)
    | removeUnlock handle removed => cases removed <;> exact .inl hn
    | _ => exact .inl hn
  | _ => exact .inl hn

/-- With panics as error results the mutex stays as it is. -/
theorem not_poisoned_of_reach {capacity : Nat} {ok : State T R → Action T R → Prop}
    (h : Machine.Reach (machine T R false capacity) ok s) : s.mem.poisoned = false := by
  refine h.inv (fun s => s.mem.poisoned = false) ?_ fun hs _ hstep => ?_
  · rintro _ rfl
    rfl
  · cases step_move hstep with
    | call t hcall =>
      generalize State.pcs _ t = pc at hcall
      cases hcall with
      | popFull => rfl
      | removeUnlock handle removed => cases removed <;> exact hs
      | _ => exact hs
    | _ => exact hs

end DignusActor.Registry

namespace DignusActor.ActorSystem

open Machine (Reach)

variable {k : Nat} {T M F A : Type} [DecidableEq T] [DecidableEq A]

/-! ## The run without a caller's steps -/

/-- The system when caller `t` stands at `pc`, and at `rpc` in the registry. -/
def State.without (s : State k T M F A) (t : T) (pc : CallerPc k M A) (rpc : Registry.Pc Nat) :
    State k T M F A :=
  { s with
    registry := s.registry.without (.caller t) rpc
    callers := Function.update s.callers t pc }

section
variable {poisons : Bool} {s s' : State k T M F A} {t u : T} {d : Fin k} {pc x : CallerPc k M A}
  {rpc : Registry.Pc Nat}

omit [DecidableEq A] in
theorem State.without_setCaller (hu : u ≠ t) :
    (s.without t pc rpc).setCaller u x = (s.setCaller u x).without t pc rpc := by
  simp only [State.setCaller, State.without, Function.update_comm hu]

omit [DecidableEq A] in
theorem State.without_inRegistry {b : Registry.Action (Thread k T) Nat}
    (h : s.inRegistry poisons b = some s') (hinv : Registry.Inv s.registry)
    (hb : b.thread ≠ .caller t) :
    (s.without t pc rpc).inRegistry poisons b = some (s'.without t pc rpc) := by
  obtain ⟨registry, hr, rfl⟩ := State.inRegistry_eq_some.mp h
  exact State.inRegistry_eq_some.mpr ⟨_, Registry.step_without hr hinv hb, rfl⟩

omit [DecidableEq A] in
theorem State.without_inActor {n : Nat} {action : ActorRunner.Action (Fin k) T M F}
    (h : s.inActor n action = some s') :
    (s.without t pc rpc).inActor n action = some (s'.without t pc rpc) := by
  obtain ⟨actor, run, ha, hrun, rfl⟩ := State.inActor_eq_some.mp h
  exact State.inActor_eq_some.mpr ⟨actor, run, ha, hrun, rfl⟩

omit [DecidableEq A] in
theorem State.without_callers (hu : u ≠ t) : (s.without t pc rpc).callers u = s.callers u :=
  Function.update_of_ne hu ..

omit [DecidableEq A] in
theorem State.without_pcs {v : Thread k T} (hv : v ≠ .caller t) :
    (s.without t pc rpc).registry.pcs v = s.registry.pcs v :=
  Function.update_of_ne hv ..

omit [DecidableEq A] in
theorem State.without_abandon (h : s.abandon poisons u = some s') (hinv : Registry.Inv s.registry)
    (hu : u ≠ t) : (s.without t pc rpc).abandon poisons u = some (s'.without t pc rpc) := by
  obtain ⟨s₁, h₁, rfl⟩ := Option.map_eq_some_iff.mp h
  have hut : (.caller u : Thread k T) ≠ .caller t := fun heq => hu (Thread.caller.inj heq)
  exact Option.map_eq_some_iff.mpr
    ⟨_, State.without_inRegistry h₁ hinv hut, State.without_setCaller hu⟩

theorem spawnStep_without (h : spawnStep poisons s u x = some s')
    (hinv : Registry.Inv s.registry) (hu : u ≠ t) :
    spawnStep poisons (s.without t pc rpc) u x = some (s'.without t pc rpc) := by
  have hut : (.caller u : Thread k T) ≠ .caller t := fun heq => hu (Thread.caller.inj heq)
  have hset {s : State k T M F A} {x : CallerPc k M A} :
      (s.without t pc rpc).setCaller u x = (s.setCaller u x).without t pc rpc :=
    State.without_setCaller hu
  have hpcs {s : State k T M F A} : (s.without t pc rpc).registry.pcs (.caller u) =
      s.registry.pcs (.caller u) := State.without_pcs hut
  cases x with
  | throwIfDisposed spawn =>
    cases h
    exact congrArg some hset
  | aliasCheck spawn =>
    have hreserve {s' : State k T M F A} (h : (s.inRegistry poisons (.reserve (.caller u))).map
        (·.setCaller u (.reserving spawn)) = some s') :
        ((s.without t pc rpc).inRegistry poisons (.reserve (.caller u))).map
          (·.setCaller u (.reserving spawn)) = some (s'.without t pc rpc) := by
      obtain ⟨s₁, h₁, rfl⟩ := Option.map_eq_some_iff.mp h
      rw [State.without_inRegistry h₁ hinv hut, Option.map_some, hset]
    cases ha : spawn.actorAlias with
    | none =>
      simp only [spawnStep, ha] at h ⊢
      exact hreserve h
    | some actorAlias =>
      simp only [spawnStep, ha] at h ⊢
      change (if (s.aliasPoisoned || (s.aliases actorAlias).isSome) = true then _ else _) = _
      split at h
      · rename_i hdup
        cases h
        rw [if_pos hdup, hset]
      · rename_i hdup
        rw [if_neg hdup]
        exact hreserve h
  | reserving spawn =>
    simp only [spawnStep, Option.map_eq_some_iff] at h ⊢
    obtain ⟨s₁, h, rfl⟩ := h
    refine ⟨_, State.without_inRegistry h hinv hut, ?_⟩
    rw [hpcs]
    split <;> simp only [hset]
  | newRunner spawn n =>
    simp only [spawnStep, Option.bind_eq_some_iff] at h ⊢
    obtain ⟨index, hi, owner, ho, h⟩ := h
    refine ⟨index, hi, owner, ho, ?_⟩
    have hnew : newActor (s.without t pc rpc) spawn owner = newActor s spawn owner := rfl
    rw [hnew]
    cases ha : newActor s spawn owner with
    | some actor =>
      rw [ha] at h
      cases h
      exact congrArg some (State.without_setCaller (s := s.setActor n actor) hu)
    | none =>
      rw [ha] at h
      exact State.without_abandon h hinv hu
  | aliasInsert spawn n =>
    cases ha : spawn.actorAlias with
    | none =>
      simp only [spawnStep, ha, Option.map_eq_some_iff] at h ⊢
      obtain ⟨s₁, h, rfl⟩ := h
      exact ⟨_, State.without_inRegistry h hinv hut, hset⟩
    | some actorAlias =>
      have hres : (s.without t pc rpc).registry.mem.data.reservations[n]? =
          s.registry.mem.data.reservations[n]? := rfl
      simp only [spawnStep, ha, hres] at h ⊢
      cases hr : s.registry.mem.data.reservations[n]? with
      | none => simp [hr] at h
      | some reservation =>
        simp only [hr] at h ⊢
        change (if s.aliasPoisoned = true then _ else
          if (s.aliases actorAlias).isSome = true then _ else _) = _
        split at h
        · rw [if_pos ‹_›]
          exact State.without_abandon h hinv hu
        · rw [if_neg ‹_›]
          split at h
          · rw [if_pos ‹_›]
            obtain ⟨s₁, h₁, rfl⟩ := Option.map_eq_some_iff.mp h
            rw [State.without_abandon h₁ hinv hu]
            rfl
          · rw [if_neg ‹_›]
            obtain ⟨s₁, h₁, rfl⟩ := Option.map_eq_some_iff.mp h
            rw [State.without_inRegistry h₁ hinv hut, Option.map_some, hset]
            rfl
  | committing n =>
    simp only [spawnStep, Option.map_eq_some_iff] at h ⊢
    obtain ⟨s₁, h, rfl⟩ := h
    refine ⟨_, State.without_inRegistry h hinv hut, ?_⟩
    rw [hpcs]
    split
    · rw [hset]
      rfl
    · rfl
  | _ => cases h

omit [DecidableEq A] in
theorem shutdownStep_without {expired : Bool} (h : shutdownStep poisons s u expired x = some s')
    (hinv : Registry.Inv s.registry) (hu : u ≠ t) :
    shutdownStep poisons (s.without t pc rpc) u expired x = some (s'.without t pc rpc) := by
  have hut : (.caller u : Thread k T) ≠ .caller t := fun heq => hu (Thread.caller.inj heq)
  have hset {s : State k T M F A} {x : CallerPc k M A} :
      (s.without t pc rpc).setCaller u x = (s.setCaller u x).without t pc rpc :=
    State.without_setCaller hu
  have hpcs {s : State k T M F A} : (s.without t pc rpc).registry.pcs (.caller u) =
      s.registry.pcs (.caller u) := State.without_pcs hut
  cases x with
  | disposeSwap call =>
    simp only [shutdownStep] at h ⊢
    change (if s.isDisposed = true then _ else _) = _
    split at h
    · rw [if_pos ‹_›]
      obtain ⟨s₁, h₁, rfl⟩ := Option.map_eq_some_iff.mp h
      rw [State.without_inRegistry h₁ hinv hut, Option.map_some, hset]
    · rw [if_neg ‹_›]
      cases h
      rw [hset]
      rfl
  | askStop call =>
    simp only [shutdownStep, Option.map_eq_some_iff] at h ⊢
    obtain ⟨s₁, h, rfl⟩ := h
    exact ⟨_, State.without_inRegistry h hinv hut, hset⟩
  | snapshotting call =>
    simp only [shutdownStep, Option.map_eq_some_iff] at h ⊢
    obtain ⟨s₁, h, rfl⟩ := h
    refine ⟨_, State.without_inRegistry h hinv hut, ?_⟩
    rw [hpcs]
    split
    · rw [hset]
      rfl
    · rw [hset]
    · rfl
  | counting call | countRemaining =>
    simp only [shutdownStep, Option.map_eq_some_iff] at h ⊢
    obtain ⟨s₁, h, rfl⟩ := h
    refine ⟨_, State.without_inRegistry h hinv hut, ?_⟩
    rw [hpcs]
    split <;> simp only [hset]
  | killing call rest =>
    cases rest with
    | nil =>
      simp only [shutdownStep, Option.map_eq_some_iff] at h ⊢
      obtain ⟨s₁, h, rfl⟩ := h
      refine ⟨_, State.without_inRegistry h hinv hut, ?_⟩
      rw [hset]
      rfl
    | cons n rest =>
      simp only [shutdownStep, Option.map_eq_some_iff] at h ⊢
      obtain ⟨s₁, h, rfl⟩ := h
      exact ⟨_, State.without_inActor h, hset⟩
  | killRunner call n rest =>
    simp only [shutdownStep, Option.map_eq_some_iff] at h ⊢
    obtain ⟨s₁, h, rfl⟩ := h
    refine ⟨_, State.without_inActor h, ?_⟩
    change (if s₁.leftActor n u = true then _ else _) = _
    split
    · exact hset
    · rfl
  | counted call live =>
    simp only [shutdownStep] at h ⊢
    split at h
    · cases h
      rw [if_pos ‹_›, hset]
    · rw [if_neg ‹_›]
      obtain ⟨s₁, h₁, rfl⟩ := Option.map_eq_some_iff.mp h
      rw [State.without_inRegistry h₁ hinv hut, Option.map_some, hset]
  | stopDispatcher call i =>
    simp only [shutdownStep] at h ⊢
    split at h
    · cases h
      rw [dif_pos ‹_›, hset]
      rfl
    · cases h
      rw [dif_neg ‹_›, hset]
      rfl
  | takeHandle call i =>
    simp only [shutdownStep] at h ⊢
    split at h
    · rename_i hi
      rw [dif_pos hi]
      change (if s.joinHandle ⟨i, hi⟩ = true then _ else _) = _
      split at h
      · cases h
        rw [if_pos ‹_›, hset]
        rfl
      · cases h
        rw [if_neg ‹_›, hset]
    · cases h
  | join call i =>
    simp only [shutdownStep] at h ⊢
    split at h
    · rename_i hi
      rw [dif_pos hi]
      change (if (decide (call.current = some ⟨i, hi⟩) || s.exited ⟨i, hi⟩) = true then _
        else _) = _
      split at h
      · cases h
        rw [if_pos ‹_›, hset]
      · cases h
    · cases h
  | _ => cases h

omit [DecidableEq A] in
theorem requestStep_without (h : requestStep poisons s u x = some s')
    (hinv : Registry.Inv s.registry) (hu : u ≠ t) :
    requestStep poisons (s.without t pc rpc) u x = some (s'.without t pc rpc) := by
  have hut : (.caller u : Thread k T) ≠ .caller t := fun heq => hu (Thread.caller.inj heq)
  have hset {s : State k T M F A} {x : CallerPc k M A} :
      (s.without t pc rpc).setCaller u x = (s.setCaller u x).without t pc rpc :=
    State.without_setCaller hu
  have hpcs {s : State k T M F A} : (s.without t pc rpc).registry.pcs (.caller u) =
      s.registry.pcs (.caller u) := State.without_pcs hut
  cases x with
  | requesting request =>
    simp only [requestStep, hpcs] at h ⊢
    generalize s.registry.pcs (.caller u) = rp at h ⊢
    split at h
    · simp only [Option.bind_eq_some_iff, Option.map_eq_some_iff] at h ⊢
      obtain ⟨s₁, h₁, s₂, h₂, rfl⟩ := h
      exact ⟨_, State.without_inRegistry h₁ hinv hut, _, State.without_inActor h₂, hset⟩
    · simp only [Option.map_eq_some_iff] at h ⊢
      obtain ⟨s₁, h₁, rfl⟩ := h
      refine ⟨_, State.without_inRegistry h₁ hinv hut, ?_⟩
      rw [hpcs]
      split
      · exact hset
      · rfl
  | inRunner n =>
    simp only [requestStep, Option.map_eq_some_iff] at h ⊢
    obtain ⟨s₁, h, rfl⟩ := h
    refine ⟨_, State.without_inActor h, ?_⟩
    change (if s₁.leftActor n u = true then _ else _) = _
    split
    · exact hset
    · rfl
  | aliasLookup actorAlias =>
    cases h
    exact congrArg some hset
  | _ => cases h

theorem finalizeStep_without {n : Nat} {x : FinalizePc A}
    (h : finalizeStep poisons s d n x = some s') (hinv : Registry.Inv s.registry) :
    finalizeStep poisons (s.without t pc rpc) d n x = some (s'.without t pc rpc) := by
  have hpcs {s : State k T M F A} : (s.without t pc rpc).registry.pcs (.worker d) =
      s.registry.pcs (.worker d) := State.without_pcs (by simp)
  cases x with
  | start =>
    simp only [finalizeStep, Option.map_eq_some_iff] at h ⊢
    obtain ⟨s₁, h, rfl⟩ := h
    exact ⟨_, State.without_inRegistry h hinv (by simp [Registry.Action.thread]), rfl⟩
  | removing =>
    simp only [finalizeStep, Option.map_eq_some_iff] at h ⊢
    obtain ⟨s₁, h, rfl⟩ := h
    refine ⟨_, State.without_inRegistry h hinv (by simp [Registry.Action.thread]), ?_⟩
    rw [hpcs]
    split <;> rfl
  | aliasRemove actorAlias =>
    simp only [finalizeStep] at h ⊢
    change (if s.aliasPoisoned = true then _ else _) = _
    split at h
    · cases h
      rw [if_pos ‹_›]
      rfl
    · cases h
      rw [if_neg ‹_›]
      rfl
  | done | panicked =>
    simp only [finalizeStep, Option.map_eq_some_iff] at h ⊢
    obtain ⟨s₁, h, rfl⟩ := h
    exact ⟨_, State.without_inActor h, rfl⟩

theorem executeStep_without {n : Nat} {outcome : ActorRunner.Outcome F}
    (h : executeStep poisons s d n outcome = some s') (hinv : Registry.Inv s.registry) :
    executeStep poisons (s.without t pc rpc) d n outcome = some (s'.without t pc rpc) := by
  have hin : (s.without t pc rpc).workerIn n d = s.workerIn n d := rfl
  simp only [executeStep, hin] at h ⊢
  generalize s.workerIn n d = w at h ⊢
  split at h
  · exact finalizeStep_without h hinv
  · simp only [Option.map_eq_some_iff] at h ⊢
    obtain ⟨s₁, h₁, rfl⟩ := h
    refine ⟨_, State.without_inActor h₁, ?_⟩
    have hin₁ : (s₁.without t pc rpc).workerIn n d = s₁.workerIn n d := rfl
    rw [hin₁]
    split <;> rfl

theorem spawnStep_none_of_shutdown {expired : Bool} {r : State k T M F A}
    (h : shutdownStep poisons s u expired x = some s') : spawnStep poisons r u x = none := by
  cases x <;> first | rfl | cases h

theorem spawnStep_none_of_request {r : State k T M F A}
    (h : requestStep poisons s u x = some s') (expired : Bool) :
    spawnStep poisons r u x = none ∧ shutdownStep poisons r u expired x = none := by
  cases x <;> first | exact ⟨rfl, rfl⟩ | cases h

omit [DecidableEq A] in
theorem State.without_begin (h : s.begin u x = some s') (hu : u ≠ t) :
    (s.without t pc rpc).begin u x = some (s'.without t pc rpc) := by
  obtain ⟨hrest, rfl⟩ := State.begin_eq_some.mp h
  refine State.begin_eq_some.mpr ⟨?_, (State.without_setCaller hu).symm⟩
  rw [State.without_callers hu]
  exact hrest

/-- A step of another thread is one of the system without the caller. -/
theorem step_without {a : Action k T M F A} (h : step poisons s a = some s')
    (hinv : Registry.Inv s.registry) (ha : a.thread ≠ .caller t) :
    step poisons (s.without t pc rpc) a = some (s'.without t pc rpc) := by
  have hne {u : T} (hu : (.caller u : Thread k T) ≠ .caller t) : u ≠ t := fun heq => hu (heq ▸ rfl)
  cases a with
  | spawn u spawn | shutdown u timed current | lookup u actorAlias =>
    exact State.without_begin h (hne ha)
  | request u request handle =>
    simp only [step, Option.bind_eq_some_iff] at h ⊢
    obtain ⟨s₁, h₁, h⟩ := h
    exact ⟨_, State.without_inRegistry h₁ hinv ha, State.without_begin h (hne ha)⟩
  | wake u n current waker =>
    simp only [step, Option.bind_eq_some_iff] at h ⊢
    obtain ⟨s₁, h₁, h⟩ := h
    exact ⟨_, State.without_inActor h₁, State.without_begin h (hne ha)⟩
  | call u expired =>
    simp only [step, State.without_callers (hne ha), Option.or_eq_some_iff] at h ⊢
    rcases h with h | ⟨-, h | ⟨-, h⟩⟩
    · exact .inl (spawnStep_without h hinv (hne ha))
    · exact .inr ⟨spawnStep_none_of_shutdown h, .inl (shutdownStep_without h hinv (hne ha))⟩
    · obtain ⟨hspawn, hshutdown⟩ := spawnStep_none_of_request h expired
      exact .inr ⟨hspawn, .inr ⟨hshutdown, requestStep_without h hinv (hne ha)⟩⟩
  | pick d n =>
    simp only [step] at h ⊢
    change (if (decide (s.busy d = none) && !s.exited d) = true then _ else _) = _
    split at h
    · rw [if_pos ‹_›]
      obtain ⟨s₁, h₁, rfl⟩ := Option.map_eq_some_iff.mp h
      rw [State.without_inActor h₁]
      rfl
    · cases h
  | execute d outcome =>
    obtain ⟨n, hbusy, h⟩ := Option.bind_eq_some_iff.mp h
    exact Option.bind_eq_some_iff.mpr ⟨n, hbusy, executeStep_without h hinv⟩
  | exit d =>
    simp only [step] at h ⊢
    change (if (s.stopped d && decide (s.busy d = none)) = true then _ else _) = _
    split at h
    · cases h
      rw [if_pos ‹_›]
      rfl
    · cases h

/-! ## A spawn until it has a slot, and after -/

end

/-- The spawn has no slot yet, or has panicked. -/
def CallerPc.trying : CallerPc k M A → Registry.Pc Nat → Bool
  | .throwIfDisposed _, _ | .aliasCheck _, _ | .panicked, _ => true
  | .reserving _, .reserveLock | .reserving _, .reservePop => true
  | _, _ => false

/-- The spawn has taken a slot. -/
def CallerPc.granted : CallerPc k M A → Registry.Pc Nat → Bool
  | .reserving _, .reserveLoad _ | .reserving _, .reserveStore .. | .reserving _, .reserveLive _
  | .reserving _, .reserveUnlock _ => true
  | .newRunner .., _ | .aliasInsert .., _ | .committing _, _ | .spawned _, _ => true
  | _, _ => false

namespace State

variable (s : State k T M F A)

/-- The next step of thread `u` is the panic of a spawn that has a slot. -/
def abandons : Thread k T → Bool
  | .caller t =>
    match s.callers t with
    | .newRunner spawn _ =>
      !spawn.contextFresh || (MpscBoundedQueue.new M mailSlotSize spawn.mailboxCapacity).isNone
    | .aliasInsert spawn _ =>
      spawn.actorAlias.any fun actorAlias => s.aliasPoisoned || (s.aliases actorAlias).isSome
    | _ => false
  | .worker _ => false

end State

/-- No spawn panics with a slot, and none poisons the `alloc` mutex. -/
def NoLeak (poisons : Bool) (s : State k T M F A) (a : Action k T M F A) : Prop :=
  s.abandons a.thread = false ∧ (poisons && s.full a.thread) = false

instance (poisons : Bool) (s : State k T M F A) (a : Action k T M F A) :
    Decidable (NoLeak poisons s a) :=
  inferInstanceAs (Decidable (_ ∧ _))

section
variable {poisons : Bool} {s s' : State k T M F A} {t u : T} {pc x : CallerPc k M A}
  {rpc : Registry.Pc Nat}

omit [DecidableEq T] [DecidableEq A] in
theorem State.newActor_ne_none {spawn : Spawn A} {n : Nat} {owner : Fin k}
    (hpc : s.callers t = .newRunner spawn n) (h : s.abandons (.caller t) = false) :
    newActor s spawn owner ≠ none := by
  simp only [State.abandons, hpc, Bool.or_eq_false_iff, Bool.not_eq_eq_eq_not, Bool.not_false,
    Option.isNone_eq_false_iff, Option.isSome_iff_exists] at h
  obtain ⟨hfresh, q, hq⟩ := h
  simp [newActor, hfresh, hq]

/-- A spawn that has a slot does not panic. -/
theorem CallMove.granted (h : CallMove poisons s t pc s') (hpc : s.callers t = pc)
    (hgranted : pc.granted (s.registry.pcs (.caller t)) = true) (hrest : pc.atRest = false)
    (habandons : s.abandons (.caller t) = false) :
    (s'.callers t).granted (s'.registry.pcs (.caller t)) = true := by
  cases h with
  | beginSpawn _ h | beginShutdown _ _ h | beginLookup _ h | beginRequest _ _ h
  | beginWake _ _ _ h => cases hrest.symm.trans h
  | reserving spawn hr hne hne' =>
    dsimp only
    rw [hpc]
    cases Registry.step_move hr with
    | call _ hcall =>
      generalize s.registry.pcs (.caller t) = rp at hcall hgranted
      simp only [Function.update_self] at hne hne' ⊢
      cases hcall with
      | reserveLoad | reserveStore | reserveLive => rfl
      | reserveUnlock n => exact absurd rfl (hne n)
      | _ => cases hgranted
  | reservePanic spawn hr hpcs =>
    cases Registry.step_move hr with
    | call _ hcall =>
      generalize s.registry.pcs (.caller t) = rp at hcall hgranted
      simp only [Function.update_self] at hpcs
      subst hpcs
      cases hcall <;> cases hgranted
  | newRunnerPanic spawn n hnew => exact absurd hnew (State.newActor_ne_none hpc habandons)
  | insertPoisoned spawn n ha hp => simp [State.abandons, hpc, ha, hp] at habandons
  | insertDuplicate spawn n ha htaken => simp [State.abandons, hpc, ha, htaken] at habandons
  | committing n =>
    dsimp only
    rw [hpc]
    rfl
  | reserved | newRunner | insertAlias | insertNone | committed =>
    simp [State.setCaller, State.setActor, CallerPc.granted]
  | _ => cases hgranted

omit [DecidableEq A] in
theorem State.setCaller_without {c : CallerPc k M A} :
    (s.setCaller t x).without t c rpc = s.without t c rpc := by
  simp [State.setCaller, State.without]

omit [DecidableEq A] in
theorem State.without_self (h : s.registry.mem.alloc ≠ some (.caller t)) :
    s.without t (s.callers t) (s.registry.pcs (.caller t)) = s := by
  simp [State.without, Registry.State.without, Registry.Mem.release_of_ne h]

/-- What a spawn does until it has a slot, the other threads do not see. -/
theorem CallMove.trying (h : CallMove poisons s t pc s') (hpc : s.callers t = pc)
    (hinv : Registry.Inv s.registry)
    (htrying : pc.trying (s.registry.pcs (.caller t)) = true) (hrest : pc.atRest = false)
    (hpoisoned : poisons = false → s.registry.mem.poisoned = false)
    (hfull : (poisons && s.full (.caller t)) = false) :
    (s'.callers t).granted (s'.registry.pcs (.caller t)) = true ∨
      (s'.callers t).trying (s'.registry.pcs (.caller t)) = true ∧
        ∀ c r, s'.without t c r = s.without t c r := by
  cases h with
  | beginSpawn _ h | beginShutdown _ _ h | beginLookup _ h | beginRequest _ _ h
  | beginWake _ _ _ h => cases hrest.symm.trans h
  | throwDisposed | notDisposed | duplicate =>
    refine .inr ⟨?_, fun c r => State.setCaller_without⟩
    simp [State.setCaller, CallerPc.trying]
  | reserve spawn hr =>
    cases Registry.step_move hr
    refine .inr ⟨?_, fun c r => State.setCaller_without.trans ?_⟩
    · simp [State.setCaller, Registry.State.setPc, CallerPc.trying]
    · simp [State.without, Registry.State.without, Registry.State.setPc]
  | reserving spawn hr hne hne' =>
    dsimp only
    rw [hpc]
    cases Registry.step_move hr with
    | call _ hcall =>
      generalize s.registry.pcs (.caller t) = rp at hcall htrying
      simp only [Function.update_self] at hne hne' ⊢
      cases hcall with
      | reserveLock hfree =>
        refine .inr ⟨rfl, fun c r => ?_⟩
        simp [State.without, Registry.State.without, Registry.Mem.release, hfree]
      | popFree | popUnused => exact .inl rfl
      | reservePoisoned | popFull => exact absurd rfl hne'
      | _ => cases htrying
  | reservePanic spawn hr hpcs =>
    refine .inr ⟨by simp [State.setCaller, CallerPc.trying],
      fun c r => State.setCaller_without.trans ?_⟩
    cases Registry.step_move hr with
    | call _ hcall =>
      have halloc := (hinv.thread (.caller t)).alloc
      simp only [State.full] at hfull
      generalize s.registry.pcs (.caller t) = rp at hcall htrying halloc hfull
      simp only [Function.update_self] at hpcs
      subst hpcs
      cases hcall with
      | reservePoisoned => simp [State.without, Registry.State.without]
      | popFull hfree hcap =>
        have hfalse : poisons = false := by simpa [hfree, hcap] using hfull
        simp [State.without, Registry.State.without, Registry.Mem.release, halloc rfl,
          Registry.Mem.unlockAlloc, hfalse, hpoisoned hfalse]
      | _ => cases htrying
  | reserved spawn n hr hpcs =>
    cases Registry.step_move hr with
    | call _ hcall =>
      generalize s.registry.pcs (.caller t) = rp at hcall htrying
      simp only [Function.update_self] at hpcs
      subst hpcs
      cases hcall
      cases htrying
  | _ => cases htrying

omit [DecidableEq A] in
theorem step_call_atRest [DecidableEq A] {expired : Bool} (h : (s.callers t).atRest = true) :
    step poisons s (.call t expired) = none := by
  simp only [step]
  generalize s.callers t = pc at h
  cases pc <;> first | rfl | cases h

/-- Caller `t` makes no new call. -/
def OneCall (t : T) (as : List (Action k T M F A)) : Prop :=
  ∀ a ∈ as, a.thread = .caller t → ∃ expired, a = .call t expired

variable {a : Action k T M F A} {capacity : Nat}

theorem granted_step (h : step poisons s a = some s')
    (hgranted : (s.callers t).granted (s.registry.pcs (.caller t)) = true)
    (ha : a.thread = .caller t → ∃ expired, a = .call t expired)
    (habandons : s.abandons a.thread = false) :
    (s'.callers t).granted (s'.registry.pcs (.caller t)) = true := by
  by_cases hat : a.thread = .caller t
  · obtain ⟨expired, rfl⟩ := ha hat
    cases step_move h with
    | caller _ hpc hmove =>
      refine hmove.granted hpc (hpc ▸ hgranted) (Bool.eq_false_iff.mpr fun hrest => ?_) habandons
      rw [← hpc] at hrest
      cases (step_call_atRest hrest).symm.trans h
  · rw [(step_move h).callers_of_ne hat, (step_move h).pcs_of_ne (Ne.symm hat)]
    exact hgranted

theorem granted_run {as : List (Action k T M F A)}
    (hok : (machine k T M F A poisons capacity).RunOk (NoLeak poisons) s as)
    (hgranted : (s.callers t).granted (s.registry.pcs (.caller t)) = true) (has : OneCall t as)
    (hrun : (machine k T M F A poisons capacity).run s as = some s') :
    (s'.callers t).granted (s'.registry.pcs (.caller t)) = true := by
  induction as generalizing s with
  | nil =>
    cases hrun
    exact hgranted
  | cons a as ih =>
    obtain ⟨s₁, h₁, hrun⟩ := Option.bind_eq_some_iff.mp hrun
    refine ih (hok.2 s₁ h₁) ?_ (fun b hb => has b (List.mem_cons_of_mem a hb)) hrun
    exact granted_step h₁ hgranted (has a List.mem_cons_self) hok.1.1

/-- Where the spawn ends in a panic, its steps can be left out of the run. -/
theorem run_without {as : List (Action k T M F A)}
    (h : Reach (machine k T M F A poisons capacity) (NoLeak poisons) s)
    (hok : (machine k T M F A poisons capacity).RunOk (NoLeak poisons) s as)
    (htrying : (s.callers t).trying (s.registry.pcs (.caller t)) = true) (has : OneCall t as)
    (hrun : (machine k T M F A poisons capacity).run s as = some s')
    (hpanicked : s'.callers t = .panicked) (c : CallerPc k M A) (r : Registry.Pc Nat) :
    (machine k T M F A poisons capacity).run (s.without t c r)
      (as.filter fun a => a.thread ≠ .caller t) = some (s'.without t c r) := by
  induction as generalizing s with
  | nil =>
    cases hrun
    rfl
  | cons a as ih =>
    obtain ⟨s₁, h₁, hrun₁⟩ := Option.bind_eq_some_iff.mp hrun
    change step poisons s a = some s₁ at h₁
    have has₁ : OneCall t as := fun b hb => has b (List.mem_cons_of_mem a hb)
    have hreach := Reach.step h hok.1 h₁
    have hinv := registry_inv h
    by_cases hat : a.thread = .caller t
    · obtain ⟨expired, rfl⟩ := has a List.mem_cons_self hat
      rw [List.filter_cons_of_neg (by simpa using hat)]
      have hrest : (s.callers t).atRest = false := Bool.eq_false_iff.mpr fun hrest => by
        cases (step_call_atRest hrest).symm.trans h₁
      have hpoisoned (hp : poisons = false) : s.registry.mem.poisoned = false := by
        subst hp
        exact Registry.not_poisoned_of_reach (registry_reach h)
      cases step_move h₁ with
      | caller _ hpc hmove =>
        rcases hmove.trying hpc hinv (hpc ▸ htrying) (hpc ▸ hrest) hpoisoned hok.1.2 with
          hgranted | ⟨htrying₁, hsame⟩
        · have hend := granted_run (hok.2 s₁ h₁) hgranted has₁ hrun₁
          rw [hpanicked] at hend
          cases hend
        · rw [← hsame]
          exact ih hreach (hok.2 s₁ h₁) htrying₁ has₁ hrun₁
    · rw [List.filter_cons_of_pos (by simpa using hat)]
      refine Option.bind_eq_some_iff.mpr ⟨_, step_without h₁ hinv hat, ?_⟩
      refine ih hreach (hok.2 s₁ h₁) ?_ has₁ hrun₁
      rw [(step_move h₁).callers_of_ne hat, (step_move h₁).pcs_of_ne (Ne.symm hat)]
      exact htrying

/-! ## What is outstanding -/

/-- A reservation that is outstanding is that of a spawn in progress, or of one that has
returned. -/
def Held (s : State k T M F A) : Prop :=
  ∀ n ∈ s.registry.mem.data.outstanding, n ∈ s.returned ∨
    ∃ v, (s.registry.pcs v).reservation = some n

omit [DecidableEq T] [DecidableEq A] in
/-- A thread that has a reservation is in a spawn. -/
theorem Linked.spawning (hl : Linked s) {v : Thread k T} {n : Nat}
    (h : (s.registry.pcs v).reservation = some n) : ∃ t, v = .caller t ∧
      ((∃ spawn, s.callers t = .reserving spawn ∨ s.callers t = .newRunner spawn n ∨
        s.callers t = .aliasInsert spawn n) ∨ s.callers t = .committing n) := by
  have hmethod : (s.registry.pcs v).method = .reserve ∨ (s.registry.pcs v).method = .reserved n ∨
      (s.registry.pcs v).method = .commit n := by
    generalize s.registry.pcs v = rp at h
    cases rp <;> cases h <;> simp [Registry.Pc.method]
  cases v with
  | caller t =>
    refine ⟨t, rfl, ?_⟩
    have hin := hl.caller t
    rcases hmethod with hm | hm | hm
    · rw [hm] at hin
      generalize s.callers t = pc at hin
      cases pc with
      | reserving spawn => exact .inl ⟨spawn, .inl rfl⟩
      | requesting =>
        obtain ⟨_, hin⟩ := hin
        cases hin
      | _ => cases hin
    · rw [hm] at hin
      generalize s.callers t = pc at hin
      cases pc with
      | newRunner spawn m =>
        cases hin
        exact .inl ⟨spawn, .inr (.inl rfl)⟩
      | aliasInsert spawn m =>
        cases hin
        exact .inl ⟨spawn, .inr (.inr rfl)⟩
      | requesting =>
        obtain ⟨_, hin⟩ := hin
        cases hin
      | _ => cases hin
    · obtain ⟨t', ht, hpc⟩ := hl.committing_of_method hm
      cases ht
      exact .inr hpc
  | worker d =>
    by_cases hd : s.finalizers d = .removing
    · obtain ⟨m, actor, hbusy, -⟩ := (hl.worker d).finalizing (by simp [hd])
      obtain ⟨r, -, hm⟩ := (hl.worker d).removing m hbusy hd
      simp [hm] at hmethod
    · simp [(hl.worker d).rest hd] at hmethod

/-- A spawn keeps its reservation until it returns. -/
theorem Linked.reservation_step (hl : Linked s) {v : Thread k T} (h : Move poisons s s' v)
    (habandons : s.abandons v = false) {n : Nat}
    (hn : (s.registry.pcs v).reservation = some n) :
    n ∈ s'.returned ∨ (s'.registry.pcs v).reservation = some n := by
  obtain ⟨t, rfl, hpc⟩ := hl.spawning hn
  cases h with
  | caller _ hpc₀ h =>
    have hcall {registry : Registry.State (Thread k T) Nat}
        (hr : Registry.step poisons s.registry (.call (.caller t)) = some registry) :
        (registry.pcs (.caller t)).reservation = some n ∨
          s.callers t = .committing n ∧ registry.pcs (.caller t) = .committed n := by
      refine (Registry.step_call_reservation hr hn).imp_right fun ⟨hunlock, hcommitted⟩ => ?_
      obtain ⟨t', ht, hpc⟩ :=
        hl.committing_of_method (u := .caller t) (n := n) (by rw [hunlock]; rfl)
      cases ht
      exact ⟨hpc, hcommitted⟩
    rcases hpc with ⟨spawn, hpc | hpc | hpc⟩ | hpc
    · cases hpc₀.symm.trans hpc
      rw [hpc] at hcall
      cases h with
      | beginSpawn _ h | beginShutdown _ _ h | beginLookup _ h | beginRequest _ _ h
      | beginWake _ _ _ h => cases h
      | reserving _ hr | reserved _ _ hr | reservePanic _ hr =>
        exact .inr ((hcall hr).resolve_right fun h => nomatch h.1)
    · cases hpc₀.symm.trans hpc
      cases h with
      | beginSpawn _ h | beginShutdown _ _ h | beginLookup _ h | beginRequest _ _ h
      | beginWake _ _ _ h => cases h
      | newRunner => exact .inr hn
      | newRunnerPanic _ _ hnew => exact absurd hnew (State.newActor_ne_none hpc habandons)
    · cases hpc₀.symm.trans hpc
      cases h with
      | beginSpawn _ h | beginShutdown _ _ h | beginLookup _ h | beginRequest _ _ h
      | beginWake _ _ _ h => cases h
      | insertPoisoned _ _ ha hp => simp [State.abandons, hpc, ha, hp] at habandons
      | insertDuplicate _ _ ha htaken => simp [State.abandons, hpc, ha, htaken] at habandons
      | insertAlias _ _ _ _ _ hr | insertNone _ _ _ hr =>
        have hreserved := hl.reserved (.inr hpc)
        cases Registry.step_move hr with
        | commit _ m _ hm =>
          cases hm.symm.trans hreserved
          simp [State.setCaller, Registry.State.setPc, Registry.Pc.reservation]
    · cases hpc₀.symm.trans hpc
      cases h with
      | beginSpawn _ h | beginShutdown _ _ h | beginLookup _ h | beginRequest _ _ h
      | beginWake _ _ _ h => cases h
      | committing _ hr hne => exact .inr ((hcall hr).resolve_right fun h => hne n h.2)
      | committed => exact .inl (List.mem_append_right _ (List.mem_singleton_self n))

theorem Held.step (hs : Held s) (hl : Linked s) {v : Thread k T} (h : Move poisons s s' v)
    (habandons : s.abandons v = false) : Held s' := by
  intro n hn
  have hold : n ∈ s.registry.mem.data.outstanding ∨
      (s'.registry.pcs v).reservation = some n := by
    rcases h.registry with hr | ⟨b, hr, rfl⟩
    · exact .inl (hr ▸ hn)
    · exact Registry.step_reservation_new hr hn
  rcases hold with hold | hnew
  · rcases hs n hold with hret | ⟨w, hw⟩
    · obtain ⟨l, hl, -⟩ := h.returned
      exact .inl (hl ▸ List.mem_append_left l hret)
    · by_cases hwv : w = v
      · subst hwv
        exact (hl.reservation_step h habandons hw).imp_right fun hw => ⟨w, hw⟩
      · exact .inr ⟨w, by rwa [h.pcs_of_ne hwv]⟩
  · exact .inr ⟨v, hnew⟩

theorem held_of_reach (h : Reach (machine k T M F A poisons capacity) (NoLeak poisons) s) :
    Held s := by
  refine h.inv_of Linked Held linked_of_reach ?_ fun hl hs hok hstep =>
    hs.step hl (step_move hstep) hok.1
  rintro _ rfl
  exact fun _ => nofun

/-- The live count when no spawn is in progress and the actors that were spawned are gone. -/
theorem live_eq_zero (h : Reach (machine k T M F A poisons capacity) (NoLeak poisons) s)
    (hidle : ∀ v, (s.registry.pcs v).reservation = none)
    (hgone : ∀ n ∈ s.returned, n ∉ s.registry.mem.data.outstanding) :
    s.registry.mem.live = 0 := by
  have hcounted := Registry.counted_of_reach (registry_reach h)
  have hnone : s.registry.mem.data.outstanding = [] := by
    refine List.eq_nil_iff_forall_not_mem.mpr fun n hn => ?_
    rcases held_of_reach h n hn with hret | ⟨v, hv⟩
    · exact hgone n hret hn
    · cases (hidle v).symm.trans hv
  rw [hcounted.exact fun v n hv => ?_, hnone, List.length_nil]
  have hv' := hidle v
  rw [hv] at hv'
  cases hv'

/-- The run from `s₀` to `s` in which caller `t` makes one spawn, and the run without its steps,
come to the same registry and the same alias map. -/
def Traceless (poisons : Bool) (capacity : Nat) (t : T) (s₀ s : State k T M F A)
    (as : List (Action k T M F A)) : Prop :=
  ∃ s₁, (machine k T M F A poisons capacity).run s₀ (as.filter fun a => a.thread ≠ .caller t) =
      some s₁ ∧ s₁.registry.mem.live = s.registry.mem.live ∧
    s₁.registry.mem.data = s.registry.mem.data ∧ s₁.aliases = s.aliases

/-- In every run in which no spawn panics between `reserve` and `commit`, and none poisons the
`alloc` mutex: a spawn that ends in a panic leaves the live count, the slots and the alias map as
they are without it, and once no spawn is in progress and the actors that were spawned have been
removed the live count is zero. -/
theorem traceless_of_noLeak {s₀ : State k T M F A} {spawn : Spawn A}
    {as : List (Action k T M F A)}
    (h : Reach (machine k T M F A poisons capacity) (NoLeak poisons) s₀)
    (hok : (machine k T M F A poisons capacity).RunOk (NoLeak poisons) s₀ (.spawn t spawn :: as))
    (has : OneCall t as)
    (hrun : (machine k T M F A poisons capacity).run s₀ (.spawn t spawn :: as) = some s) :
    (s.callers t = .panicked → Traceless poisons capacity t s₀ s as) ∧
      ((∀ v, (s.registry.pcs v).reservation = none) →
        (∀ n ∈ s.returned, n ∉ s.registry.mem.data.outstanding) → s.registry.mem.live = 0) := by
  refine ⟨fun hpanicked => ?_, live_eq_zero (h.run hok hrun)⟩
  obtain ⟨s₁, h₁, hrun₁⟩ := Option.bind_eq_some_iff.mp hrun
  have hreach := Reach.step h hok.1 h₁
  obtain ⟨hrest, rfl⟩ := State.begin_eq_some.mp h₁
  have htrying : ((s₀.setCaller t (.throwIfDisposed spawn)).callers t).trying
      ((s₀.setCaller t (.throwIfDisposed spawn)).registry.pcs (.caller t)) = true := by
    simp [State.setCaller, CallerPc.trying]
  have hwithout := run_without hreach (hok.2 _ h₁) htrying has hrun₁ hpanicked (s₀.callers t)
    (s₀.registry.pcs (.caller t))
  rw [State.setCaller_without, State.without_self] at hwithout
  · exact ⟨_, hwithout, rfl, rfl, rfl⟩
  · intro halloc
    have hin := (Registry.held_of_reach (registry_reach h)).alloc _ halloc
    have hmethod := CallerPc.inMethod_of_atRest hrest ((linked_of_reach h).caller t)
    cases (Registry.Pc.outside_of_rest hmethod s₀.registry.mem.data).1.symm.trans hin

/-- One actor is spawned with an alias. -/
def aliasOwned : State 1 Nat Nat Nat Nat :=
  ((machine 1 Nat Nat Nat Nat true 4).run (withCapacity 1 Nat Nat Nat Nat 4)
    ([Action.spawn 1 ⟨none, some 7, 2, true⟩] ++ List.replicate 13 (Action.call 1 false))).get rfl

/-- A spawn with the same alias, and a kill of the actor in between. -/
def duplicateSpawn : List (Action 1 Nat Nat Nat Nat) :=
  [.call 0 false, .request 1 .kill ⟨0, 1⟩, .call 1 false, .call 0 false]

/-- The alias is found taken before the spawn has a slot. -/
def rejected : State 1 Nat Nat Nat Nat :=
  ((machine 1 Nat Nat Nat Nat true 4).run aliasOwned
    (.spawn 0 ⟨none, some 7, 2, true⟩ :: duplicateSpawn)).get rfl

theorem traceless_of_noLeak_rejected : rejected.callers 0 = .panicked ∧
    rejected.registry.mem.live = 1 ∧ Traceless true 4 0 aliasOwned rejected duplicateSpawn := by
  refine ⟨rfl, rfl, (traceless_of_noLeak (.get rfl (by decide) rfl) (by decide) ?_
    (Option.some_get rfl).symm).1 rfl⟩
  simp [OneCall, duplicateSpawn, Action.thread]

/-- A spawn whose mailbox capacity is refused, when it has a slot already. -/
def leaked : State 1 Nat Nat Nat Nat :=
  ((machine 1 Nat Nat Nat Nat true 4).run (withCapacity 1 Nat Nat Nat Nat 4)
    ([Action.spawn 0 ⟨none, none, 1, true⟩] ++ List.replicate 9 (Action.call 0 false))).get rfl

/-- The slot is lost: nobody is in a spawn, no actor was spawned, and the live count is one. -/
theorem notTraceless_refusedMailbox :
    Reach (machine 1 Nat Nat Nat Nat true 4) Machine.free leaked ∧
      leaked.callers 0 = .panicked ∧ leaked.returned = [] ∧ leaked.registry.mem.live = 1 ∧
      leaked.registry.mem.data.free = [] ∧ leaked.registry.mem.data.nextUnused = 1 ∧
      ¬Traceless true 4 0 (withCapacity 1 Nat Nat Nat Nat 4) leaked
        (List.replicate 9 (.call 0 false)) := by
  refine ⟨.get_free rfl rfl, rfl, rfl, rfl, rfl, rfl, ?_⟩
  rintro ⟨s₁, hrun, hlive, -⟩
  cases hrun
  cases hlive

end

end DignusActor.ActorSystem
