import DignusActor.System.Linked

/-! # Poisoned locks

`reserve` panics on a full registry while it holds the `alloc` mutex, and `register_actor` panics on
a duplicate alias while it holds the write lock of the alias map. Each poisons its lock, and every
later operation that takes the lock panics, the `finalize_kill` of a dispatcher thread included.
Where no spawn is rejected in one of these two places no lock is poisoned
(`unpoisoned_of_reach`), and nothing panics but the spawns that are rejected before. -/

namespace DignusActor.ActorSystem

open Machine (Reach)

variable {k : Nat} {T M F A : Type}

namespace State

variable (s : State k T M F A)

/-- Thread `u` is about to look for a slot in a full registry. -/
def full (u : Thread k T) : Bool :=
  match s.registry.pcs u with
  | .reservePop => s.registry.mem.data.free.isEmpty &&
    decide (s.registry.mem.data.capacity ≤ s.registry.mem.data.nextUnused)
  | _ => false

/-- Thread `u` is about to find its alias taken, under the write lock. -/
def aliasTaken : Thread k T → Bool
  | .caller t =>
    match s.callers t with
    | .aliasInsert spawn _ => spawn.actorAlias.any fun actorAlias => (s.aliases actorAlias).isSome
    | _ => false
  | .worker _ => false

end State

/-- The step does not reject a spawn while it holds a lock. -/
def NoRejection (s : State k T M F A) (a : Action k T M F A) : Prop :=
  s.full a.thread = false ∧ s.aliasTaken a.thread = false

instance (s : State k T M F A) (a : Action k T M F A) : Decidable (NoRejection s a) :=
  inferInstanceAs (Decidable (_ ∧ _))

/-- Neither lock is poisoned. -/
structure Unpoisoned (s : State k T M F A) : Prop where
  alloc : s.registry.mem.poisoned = false
  aliases : s.aliasPoisoned = false
  finalize : ∀ d, s.finalizers d ≠ .panicked

end DignusActor.ActorSystem

namespace DignusActor.Registry

variable {T R : Type} {poisons : Bool} {s s' : State T R} {t : T}

/-- The `alloc` mutex is poisoned by a `reserve` on a full registry. -/
theorem step_poisoned [DecidableEq T] {a : Action T R} (h : step poisons s a = some s')
    (hs : s.mem.poisoned = false) : s'.mem.poisoned = false ∨ s.pcs a.thread = .reservePop ∧
      s.mem.data.free = [] ∧ s.mem.data.capacity ≤ s.mem.data.nextUnused := by
  cases step_move h with
  | call u hcall =>
    generalize hpc : s.pcs u = pc at hcall
    cases hcall with
    | popFull hfree hcap => exact .inr ⟨hpc, hfree, hcap⟩
    | removeUnlock handle removed => cases removed <;> exact .inl hs
    | _ => exact .inl hs
  | _ => exact .inl hs

/-- A thread panics in a method when the mutex is poisoned, or when the registry is full. -/
theorem step_call_panicked [DecidableEq T] (h : step poisons s (.call t) = some s')
    (ht : s'.pcs t = .panicked) (hs : s.mem.poisoned = false) : s.pcs t = .reservePop ∧
      s.mem.data.free = [] ∧ s.mem.data.capacity ≤ s.mem.data.nextUnused := by
  cases step_move h with
  | call _ hcall =>
    simp only [Function.update_self] at ht
    subst ht
    generalize s.pcs t = pc at hcall
    cases hcall with
    | popFull hfree hcap => exact ⟨rfl, hfree, hcap⟩
    | reservePoisoned hp | removePoisoned _ hp | snapshotPoisoned hp | countPoisoned hp =>
      cases hs.symm.trans hp

end DignusActor.Registry

namespace DignusActor.ActorSystem

open Machine (Reach)

variable {k : Nat} {T M F A : Type} [DecidableEq T] [DecidableEq A]

section
variable {poisons : Bool} {s s' : State k T M F A} {t : T} {d : Fin k} {u : Thread k T}

omit [DecidableEq T] [DecidableEq A] in
theorem State.full_eq_true (hpc : s.registry.pcs u = .reservePop)
    (hfree : s.registry.mem.data.free = [])
    (hcap : s.registry.mem.data.capacity ≤ s.registry.mem.data.nextUnused) : s.full u = true := by
  simp [State.full, hpc, hfree, hcap]

theorem Unpoisoned.alloc_step (hs : Unpoisoned s) (h : Move poisons s s' u)
    (hfull : s.full u = false) : s'.registry.mem.poisoned = false := by
  rcases h.registry with hr | ⟨b, hr, rfl⟩
  · exact hr ▸ hs.alloc
  · refine (Registry.step_poisoned hr hs.alloc).resolve_right fun ⟨hpc, hfree, hcap⟩ => ?_
    cases hfull.symm.trans (State.full_eq_true hpc hfree hcap)

theorem Unpoisoned.aliases_step (hs : Unpoisoned s) (h : Move poisons s s' u)
    (halias : s.aliasTaken u = false) : s'.aliasPoisoned = false := by
  cases h with
  | caller t hpc h =>
    cases h with
    | insertDuplicate spawn n ha htaken =>
      simp [State.aliasTaken, hpc, ha, htaken] at halias
    | _ => exact hs.aliases
  | worker d h =>
    cases h with
    | finalize n _ _ _ _ h => cases h <;> exact hs.aliases
    | pick _ _ _ _ hs' | exit _ hs' | execute _ _ _ _ _ _ _ _ hs' | «return» _ _ _ _ _ _ _ hs'
    | unwind _ _ _ _ _ _ _ hs' =>
      subst hs'
      exact hs.aliases

omit [DecidableEq A] in
/-- A thread that panics in the registry has found it full. -/
theorem Unpoisoned.full_of_panicked (hs : Unpoisoned s)
    {registry : Registry.State (Thread k T) Nat}
    (hr : Registry.step poisons s.registry (.call u) = some registry)
    (hpcs : registry.pcs u = .panicked) : s.full u = true := by
  obtain ⟨hpc, hfree, hcap⟩ := Registry.step_call_panicked hr hpcs hs.alloc
  exact State.full_eq_true hpc hfree hcap

theorem Unpoisoned.finalize_worker (hs : Unpoisoned s) (h : WorkMove poisons s d s')
    (hfull : s.full (.worker d) = false) : s'.finalizers d ≠ .panicked := by
  have hold := hs.finalize d
  cases h with
  | finalize n _ _ _ hpc h =>
    cases h with
    | removing => exact hold
    | removed r =>
      simp only [State.setFinalizer, Function.update_self]
      split <;> simp
    | removePanic hr hpcs => cases hfull.symm.trans (hs.full_of_panicked hr hpcs)
    | aliasPanic _ hp => cases hs.aliases.symm.trans hp
    | _ => simp [State.setFinalizer]
  | pick _ _ _ _ hs' | exit _ hs' | execute _ _ _ _ _ _ _ _ hs' | «return» _ _ _ _ _ _ _ hs'
  | unwind _ _ _ _ _ _ _ hs' =>
    subst hs'
    exact hold

theorem Unpoisoned.step (hs : Unpoisoned s) (h : Move poisons s s' u)
    (hfull : s.full u = false) (halias : s.aliasTaken u = false) : Unpoisoned s' where
  alloc := hs.alloc_step h hfull
  aliases := hs.aliases_step h halias
  finalize d := by
    cases h with
    | caller t _ h =>
      rw [h.workers.2]
      exact hs.finalize d
    | worker d' h =>
      by_cases hd : d = d'
      · subst hd
        exact hs.finalize_worker h hfull
      · rw [(h.of_ne hd).2]
        exact hs.finalize d

end

section
variable {capacity : Nat} {s : State k T M F A}

theorem unpoisoned_of_reach (h : Reach (machine k T M F A true capacity) NoRejection s) :
    Unpoisoned s := by
  refine h.inv Unpoisoned ?_ fun hs hok hstep => hs.step (step_move hstep) hok.1 hok.2
  rintro _ rfl
  exact ⟨rfl, rfl, fun _ => nofun⟩

end

end DignusActor.ActorSystem
