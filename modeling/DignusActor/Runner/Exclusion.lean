import DignusActor.Runner.Moves

/-! # One thread past the check of `execute_pending_receive`

An entry pushed by a waker is queued with the dispatcher of the waking thread. The runner relies on
such an entry finding the future still armed: `execute` on another dispatcher's thread then polls
it and returns. A stale entry goes on to the mailbox part of `execute`, beside the owner's thread.

`NoStrayEntry` is the condition that no step takes that branch. Under it the mailbox part belongs
to the owner's thread, and a future is armed only while none is outstanding
(`ExclusionInv`). Without it two threads are past the check at once. -/

namespace DignusActor.ActorRunner

variable {D T M F : Type}

/-- Past the check of `execute_pending_receive`: in the lifecycle check, in the mailbox loop with
the end of `execute`, or in `finalize_kill`. -/
def WorkerPc.PastCheck : WorkerPc M F → Prop
  | .idle | .dead | .loadActive _ => False
  | .pollUnmark site | .pollSlot site | .pollDeactivate site _ | .pollReset site _ =>
    site = .mailbox
  | .schedule (.completion part) _ | .schedule (.kill part) _ => part = .mailbox
  | .schedule .failedPoll _ => False
  | .killLifecycle part | .killScheduled part | .publish part => part = .mailbox
  | _ => True

/-- The worker has taken a finished future out of the slot and has yet to clear `is_active`. -/
def WorkerPc.Deactivating : WorkerPc M F → Prop
  | .pollDeactivate _ _ => True
  | _ => False

/-- What thread `d` finds at the check and in the poll. A thread of another dispatcher finds
`is_active` set and the slot filled. The owner's thread may find the slot empty, but not while
another thread has yet to clear `is_active` for it. -/
def FindsFuture (owner d : D) (s : State D T M F) : WorkerPc M F → Prop
  | .loadActive _ => d ≠ owner → s.mem.isActive = true
  | .pollSlot _ => s.mem.slot = none →
    d = owner ∧ ∀ d', d' ≠ owner → ¬(s.workers d').Deactivating
  | _ => True

/-- No step runs a stale entry past the check. -/
def NoStrayEntry (owner : D) (s : State D T M F) : Action D T M F → Prop
  | .worker d _ => FindsFuture owner d s (s.workers d)
  | _ => True

/-- At most one thread is past the check, and when `on_receive` starts or a future is armed, every
future armed before has finished. -/
def Exclusive (s : State D T M F) : Prop :=
  (∀ d d', (s.workers d).PastCheck → (s.workers d').PastCheck → d = d') ∧
    ∀ d, ((∃ mail, s.workers d = .callReceive mail) ∨ ∃ future, s.workers d = .armSlot future) →
      s.mem.armed = s.mem.finished ∧ s.mem.slot = none

/-- The slot and `is_active` along `execute` of the owner's thread; `taken` says that another thread
is deactivating. -/
def Phase (taken : Prop) (m : Shared D T M F) : WorkerPc M F → Prop
  | .idle | .dead | .loadActive _ | .pollUnmark _ | .pollSlot _ | .armUnmark =>
    (m.isActive = false → m.slot = none) ∧ (taken → m.slot = none ∧ m.isActive = true)
  | .armActivate => taken → m.slot = none
  | _ => m.slot = none ∧ ¬taken

/-- A thread other than the owner's is deactivating. -/
def State.Taken (owner : D) (s : State D T M F) : Prop :=
  ∃ d, d ≠ owner ∧ (s.workers d).Deactivating

structure ExclusionInv (owner : D) (s : State D T M F) : Prop where
  foreign : ∀ d, d ≠ owner → ¬(s.workers d).PastCheck
  single : ∀ d d', d ≠ owner → d' ≠ owner → (s.workers d).Deactivating →
    (s.workers d').Deactivating → d = d'
  outstanding : s.mem.armed = s.mem.finished + s.mem.slot.isSome.toNat
  phase : Phase (s.Taken owner) s.mem (s.workers owner)

theorem Phase.congr {taken taken' : Prop} {m m' : Shared D T M F} {pc : WorkerPc M F}
    (h : Phase taken m pc) (ht : taken' → taken) (hs : m.slot = none → m'.slot = none)
    (ha : m'.isActive = m.isActive) : Phase taken' m' pc := by
  cases pc <;> simp only [Phase, ha] at h ⊢ <;> tauto

/-- While the slot is filled, no other thread is deactivating. -/
theorem Phase.of_some {taken : Prop} {m : Shared D T M F} {pc : WorkerPc M F}
    (h : Phase taken m pc) (hs : m.slot.isSome = true) : ¬taken := by
  intro ht
  cases pc <;> simp_all [Phase]

/-- Another thread takes the finished future out of the slot. -/
theorem Phase.take {taken taken' : Prop} {m m' : Shared D T M F} {pc : WorkerPc M F}
    (h : Phase taken m pc) (hs : m.slot.isSome = true) (hs' : m'.slot = none)
    (ha : m'.isActive = m.isActive) : Phase taken' m' pc := by
  cases pc <;> simp_all [Phase] <;> grind

/-- The thread that took the future clears `is_active`. -/
theorem Phase.release {taken taken' : Prop} {m m' : Shared D T M F} {pc : WorkerPc M F}
    (h : Phase taken m pc) (ht : taken) (ht' : ¬taken') (hs : m'.slot = m.slot) :
    Phase taken' m' pc := by
  cases pc <;> simp_all [Phase]

section
variable [DecidableEq D] [DecidableEq T] {owner d : D} {o : Outcome F} {m m' : Shared D T M F}
  {pc pc' : WorkerPc M F}

/-- A step of the owner's thread. -/
theorem Phase.worker {taken : Prop} (H : Phase taken m pc)
    (hok : ∀ site, pc = .pollSlot site → m.slot = none → ¬taken)
    (h : workerStep owner d m o pc = some (m', pc')) : Phase taken m' pc' := by
  cases workerStep_move h with
  | pollEmpty _ hslot | pollEmptyLoop hslot => exact ⟨hslot, hok _ rfl hslot⟩
  | pollPending _ _ hslot =>
    exact ⟨fun ha => by simp_all [Phase], fun ht => (H.of_some hslot ht).elim⟩
  | pollFinished _ _ hslot => exact ⟨rfl, H.of_some hslot⟩
  | dropEntry site | pushEntry site =>
    cases site <;> simp_all [Phase, ScheduleSite.next, Shared.push]
  | _ => simp_all [Phase]

/-- The future in the slot is the one that has not finished. -/
theorem workerStep_outstanding (H : m.armed = m.finished + m.slot.isSome.toNat)
    (harm : ∀ f, pc = .armSlot f → m.slot = none) (hclear : pc = .clearSlot → m.slot = none)
    (h : workerStep owner d m o pc = some (m', pc')) :
    m'.armed = m'.finished + m'.slot.isSome.toNat := by
  cases workerStep_move h with
  | pollPending _ _ hslot | pollFinished _ _ hslot =>
    rw [hslot] at H
    exact H
  | armSlot f =>
    rw [harm f rfl] at H
    simpa using H
  | clearSlot =>
    rw [hclear rfl] at H
    exact H
  | _ => exact H

/-- A step of another dispatcher's thread: it keeps before the mailbox part, and touches the slot
and `is_active` only when its poll finishes the future. -/
theorem workerStep_foreign (hpast : ¬pc.PastCheck)
    (hact : ∀ origin, pc = .loadActive origin → m.isActive = true)
    (hslot : ∀ site, pc = .pollSlot site → m.slot.isSome = true)
    (h : workerStep owner d m o pc = some (m', pc')) :
    ¬pc'.PastCheck ∧
      ((m'.slot.isSome = m.slot.isSome ∧ m'.isActive = m.isActive ∧ ¬pc.Deactivating ∧
          ¬pc'.Deactivating) ∨
        (m.slot.isSome = true ∧ m'.slot = none ∧ m'.isActive = m.isActive) ∨
        (pc.Deactivating ∧ m'.slot = m.slot ∧ ¬pc'.Deactivating)) := by
  cases workerStep_move h with
  | active => exact ⟨by simp [WorkerPc.PastCheck], .inl ⟨rfl, rfl, id, id⟩⟩
  | inactive origin hno =>
    rw [hact origin rfl] at hno
    cases hno
  | pollEmpty origin hnone =>
    have hsome := hslot _ rfl
    rw [hnone] at hsome
    cases hsome
  | pollPending _ _ hsome => exact ⟨id, .inl ⟨hsome.symm, rfl, id, id⟩⟩
  | pollFinished _ _ hsome => exact ⟨hpast, .inr (.inl ⟨hsome, rfl, rfl⟩)⟩
  | pollDeactivate => exact ⟨hpast, .inr (.inr ⟨trivial, rfl, id⟩)⟩
  | pollReady site | pollFailed site =>
    cases site with
    | mailbox => exact (hpast rfl).elim
    | pending origin =>
      exact ⟨by simp [WorkerPc.PastCheck, PollSite.part], .inl ⟨rfl, rfl, id, id⟩⟩
  | dropEntry site | pushEntry site =>
    cases site with
    | kill part => exact ⟨hpast, .inl ⟨rfl, rfl, id, id⟩⟩
    | _ => exact ⟨id, .inl ⟨rfl, rfl, id, id⟩⟩
  | checkEntry site => cases site <;> exact ⟨hpast, .inl ⟨rfl, rfl, id, id⟩⟩
  | pollUnmark | killRunning | killAgain | killSeen | killPush =>
    exact ⟨hpast, .inl ⟨rfl, rfl, id, id⟩⟩
  | publishPending | publishPanic => exact ⟨id, .inl ⟨rfl, rfl, id, id⟩⟩
  | pollEmptyLoop | publishMailbox => exact (hpast rfl).elim
  | _ => exact (hpast trivial).elim

variable {s s' : State D T M F} {a : Action D T M F}

omit [DecidableEq D] [DecidableEq T] in
theorem ExclusionInv.of_frame (H : ExclusionInv owner s) (hw : ∀ d, s'.workers d = s.workers d)
    (hslot : s'.mem.slot = s.mem.slot) (hact : s'.mem.isActive = s.mem.isActive)
    (harm : s'.mem.armed = s.mem.armed) (hfin : s'.mem.finished = s.mem.finished) :
    ExclusionInv owner s' where
  foreign d hd := by
    rw [hw]
    exact H.foreign d hd
  single d d' hd hd' h h' := by
    rw [hw] at h h'
    exact H.single d d' hd hd' h h'
  outstanding := by
    rw [harm, hfin, hslot]
    exact H.outstanding
  phase := by
    rw [hw]
    refine H.phase.congr ?_ (fun h => hslot.trans h) hact
    rintro ⟨d, hd, h⟩
    rw [hw] at h
    exact ⟨d, hd, h⟩

/-- A step of the owner's thread. -/
theorem ExclusionInv.owner_step (H : ExclusionInv owner s)
    (hok : FindsFuture owner owner s (s.workers owner))
    (h : workerStep owner owner s.mem o (s.workers owner) = some (m', pc')) :
    ExclusionInv owner { s with mem := m', workers := Function.update s.workers owner pc' } where
  foreign d hd := by simpa [hd] using H.foreign d hd
  single d d' hd hd' := by simpa [hd, hd'] using H.single d d' hd hd'
  outstanding := by
    have hp := H.phase
    refine workerStep_outstanding H.outstanding (fun f hf => ?_) (fun hf => ?_) h <;>
      (rw [hf] at hp; exact hp.1)
  phase := by
    have htaken : State.Taken owner
        { s with mem := m', workers := Function.update s.workers owner pc' } → s.Taken owner := by
      rintro ⟨d, hd, hdeact⟩
      dsimp only at hdeact
      rw [Function.update_of_ne hd] at hdeact
      exact ⟨d, hd, hdeact⟩
    have hphase : Phase (s.Taken owner) m' pc' := by
      refine H.phase.worker (fun site hsite hnone => ?_) h
      rw [hsite] at hok
      rintro ⟨d, hd, hdeact⟩
      exact (hok hnone).2 d hd hdeact
    simpa using hphase.congr htaken id rfl

/-- A step of the thread of another dispatcher. -/
theorem ExclusionInv.foreign_step (H : ExclusionInv owner s) (hd : d ≠ owner)
    (hok : FindsFuture owner d s (s.workers d))
    (h : workerStep owner d s.mem o (s.workers d) = some (m', pc')) :
    ExclusionInv owner { s with mem := m', workers := Function.update s.workers d pc' } := by
  have hpast := H.foreign d hd
  obtain ⟨hpast', heffect⟩ := workerStep_foreign hpast
    (fun origin hpc => by rw [hpc] at hok; exact hok hd)
    (fun site hpc => by
      rw [hpc] at hok
      by_contra hnone
      exact hd (hok (by simpa using hnone)).1) h
  have other : ∀ {d'}, d' ≠ d → Function.update s.workers d pc' d' = s.workers d' :=
    fun hne => Function.update_of_ne hne ..
  have hforeign : ∀ d', d' ≠ owner → ¬(Function.update s.workers d pc' d').PastCheck := by
    intro d' hd'
    by_cases hdd : d' = d
    · subst hdd
      rwa [Function.update_self]
    · rw [other hdd]
      exact H.foreign d' hd'
  have hout := workerStep_outstanding H.outstanding
    (fun f hf => (hpast (by rw [hf]; trivial)).elim)
    (fun hf => (hpast (by rw [hf]; trivial)).elim) h
  have howner : Function.update s.workers d pc' owner = s.workers owner := other hd.symm
  rcases heffect with ⟨hslot, hact, hno, hno'⟩ | ⟨hslot, hslot', hact⟩ | ⟨hdeact, hslot, hno'⟩
  · -- the step does not touch what the owner sees of the poll driver
    have hback : ∀ d', (Function.update s.workers d pc' d').Deactivating →
        (s.workers d').Deactivating := by
      intro d' h'
      by_cases hdd : d' = d
      · subst hdd
        rw [Function.update_self] at h'
        exact (hno' h').elim
      · rwa [other hdd] at h'
    refine ⟨hforeign, fun d₁ d₂ h₁ h₂ k₁ k₂ => H.single d₁ d₂ h₁ h₂ (hback d₁ k₁) (hback d₂ k₂),
      hout, ?_⟩
    dsimp only
    rw [howner]
    refine H.phase.congr (fun ⟨d', hd', h'⟩ => ⟨d', hd', hback d' h'⟩) (fun hn => ?_) hact
    rw [hn] at hslot
    simpa using hslot
  · -- the poll finished the future: nobody else can be deactivating
    have hnone := H.phase.of_some hslot
    refine ⟨hforeign, fun d₁ d₂ h₁ h₂ k₁ k₂ => ?_, hout, ?_⟩
    · have only : ∀ {d'}, d' ≠ owner → (Function.update s.workers d pc' d').Deactivating →
          d' = d := by
        intro d' hd' k
        by_contra hdd
        rw [other hdd] at k
        exact hnone ⟨d', hd', k⟩
      rw [only h₁ k₁, only h₂ k₂]
    · dsimp only
      rw [howner]
      exact H.phase.take hslot hslot' hact
  · -- `is_active` is cleared by the one thread that was deactivating
    have gone : ∀ {d'}, d' ≠ owner → ¬(Function.update s.workers d pc' d').Deactivating := by
      intro d' hd' k
      by_cases hdd : d' = d
      · subst hdd
        rw [Function.update_self] at k
        exact hno' k
      · rw [other hdd] at k
        exact hdd (H.single d' d hd' hd k hdeact)
    refine ⟨hforeign, fun d₁ _ h₁ _ k₁ _ => (gone h₁ k₁).elim, hout, ?_⟩
    dsimp only
    rw [howner]
    exact H.phase.release ⟨d, hd, hdeact⟩ (fun ⟨d', hd', k⟩ => gone hd' k) hslot

omit [DecidableEq T] in
theorem ExclusionInv.pick (H : ExclusionInv owner s) {origin : Origin} {rest : List Origin}
    (hidle : s.workers d = .idle) :
    ExclusionInv owner { s with
      mem := { s.mem with queue := Function.update s.mem.queue d rest }
      workers := Function.update s.workers d (.loadActive origin) } := by
  have hback : ∀ d', (Function.update s.workers d (.loadActive origin) d').Deactivating →
      (s.workers d').Deactivating := by
    intro d' h'
    by_cases hdd : d' = d
    · subst hdd
      rw [Function.update_self] at h'
      exact h'.elim
    · rwa [Function.update_of_ne hdd] at h'
  refine ⟨fun d' hd' => ?_,
    fun d₁ d₂ h₁ h₂ k₁ k₂ => H.single d₁ d₂ h₁ h₂ (hback d₁ k₁) (hback d₂ k₂), H.outstanding, ?_⟩
  · by_cases hdd : d' = d
    · subst hdd
      simp [WorkerPc.PastCheck]
    · simpa [hdd] using H.foreign d' hd'
  · have hphase := H.phase
    have htaken : State.Taken owner { s with
        mem := { s.mem with queue := Function.update s.mem.queue d rest }
        workers := Function.update s.workers d (.loadActive origin) } → s.Taken owner :=
      fun ⟨d', hd', h'⟩ => ⟨d', hd', hback d' h'⟩
    by_cases hdd : d = owner
    · subst hdd
      rw [hidle] at hphase
      dsimp only
      rw [Function.update_self]
      exact ⟨hphase.1, fun ht => hphase.2 (htaken ht)⟩
    · dsimp only
      rw [Function.update_of_ne (Ne.symm hdd)]
      exact hphase.congr htaken id rfl

theorem ExclusionInv.step (H : ExclusionInv owner s) (hok : NoStrayEntry owner s a)
    (hs : step owner s a = some s') : ExclusionInv owner s' := by
  cases step_move hs with
  | post | kill | wake => exact H.of_frame (fun _ => rfl) rfl rfl rfl rfl
  | caller h =>
    obtain ⟨hslot, hact, _, _, _, harm, hfin⟩ := callerStep_frame h
    exact H.of_frame (fun _ => rfl) hslot hact harm hfin
  | pick hidle _ => exact H.pick hidle
  | @worker d _ _ _ h =>
    by_cases hd : d = owner
    · subst hd
      exact H.owner_step hok h
    · exact H.foreign_step hd hok h
  | stop => exact H.of_frame (fun _ => rfl) rfl rfl rfl rfl

omit [DecidableEq D] [DecidableEq T] in
theorem ExclusionInv.initial (q : MpscBoundedQueue M) : ExclusionInv owner (initial D T F q) where
  foreign _ _ := id
  single _ _ _ _ h := h.elim
  outstanding := rfl
  phase := ⟨fun _ => rfl, fun ⟨_, _, h⟩ => h.elim⟩

omit [DecidableEq D] [DecidableEq T] in
theorem ExclusionInv.exclusive (H : ExclusionInv owner s) : Exclusive s := by
  have eq_owner : ∀ {d}, (s.workers d).PastCheck → d = owner := by
    intro d hd
    by_contra hne
    exact H.foreign d hne hd
  refine ⟨fun d d' hd hd' => (eq_owner hd).trans (eq_owner hd').symm, fun d hd => ?_⟩
  have hslot : s.mem.slot = none := by
    have hphase := H.phase
    rcases hd with ⟨mail, hpc⟩ | ⟨future, hpc⟩ <;>
      (cases eq_owner (d := d) (by rw [hpc]; trivial); rw [hpc] at hphase; exact hphase.1)
  refine ⟨?_, hslot⟩
  rw [H.outstanding, hslot]
  rfl

/-- In every run without a stray entry, one thread at a time runs the actor and its receive futures
do not overlap. -/
theorem exclusive_of_noStrayEntry {capacity : Nat}
    (h : (machine T M F owner capacity).Reach (NoStrayEntry owner) s) : Exclusive s :=
  (h.inv (ExclusionInv owner) (fun ⟨q, _, hs⟩ => hs ▸ .initial q)
    (fun H hok hs => H.step hok hs)).exclusive

end

/-! ## Runs -/

section
open List

instance {n : Nat} (owner d : Fin n) (s : State (Fin n) T M F) :
    ∀ pc, Decidable (FindsFuture owner d s pc) := fun pc => by
  cases pc with
  | loadActive origin => exact inferInstanceAs (Decidable (_ → _))
  | pollSlot site =>
    have : ∀ pc : WorkerPc M F, Decidable pc.Deactivating := fun pc => by
      cases pc <;> first | exact .isFalse id | exact .isTrue trivial
    exact inferInstanceAs (Decidable (_ → _))
  | _ => exact .isTrue trivial

instance {n : Nat} (owner : Fin n) (s : State (Fin n) T M F) :
    ∀ a, Decidable (NoStrayEntry owner s a)
  | .worker d _ => inferInstanceAs (Decidable (FindsFuture owner d s (s.workers d)))
  | .post _ _ | .kill _ | .wake _ _ _ | .caller _ | .pick _ | .stop _ => .isTrue trivial

/-- Three mails are posted. The owner runs the first and its future stays pending; a thread of
dispatcher 1 wakes the actor, and dispatcher 1 picks the entry and is about to poll. -/
def foreignWake : List (Action (Fin 3) (Fin 3) Nat Unit) :=
  Action.post 0 7 :: replicate 11 (Action.caller 0) ++
    Action.post 0 8 :: replicate 8 (Action.caller 0) ++
    Action.post 0 9 :: replicate 8 (Action.caller 0) ++
    Action.pick 0 :: replicate 10 (Action.worker 0 .done) ++
    replicate 6 (Action.worker 0 (.pending ())) ++
    Action.wake 1 (some 1) 0 :: replicate 4 (Action.caller 1) ++
    Action.pick 1 :: replicate 2 (Action.worker 1 .done)

/-- The future finishes on dispatcher 1, and the owner goes on with the second mail. -/
def finishedAbroad : List (Action (Fin 3) (Fin 3) Nat Unit) :=
  foreignWake ++ replicate 5 (Action.worker 1 .done) ++
    Action.pick 0 :: replicate 9 (Action.worker 0 .done)

def threeDispatchers : State (Fin 3) (Fin 3) Nat Unit :=
  initial _ _ _ ((MpscBoundedQueue.new Nat mailSlotSize 4).get rfl)

theorem threeDispatchers_init : (machine (Fin 3) Nat Unit (0 : Fin 3) 4).Init threeDispatchers :=
  ⟨_, rfl, rfl⟩

theorem exclusive_finishedAbroad :
    Exclusive
      (((machine (Fin 3) Nat Unit (0 : Fin 3) 4).run threeDispatchers finishedAbroad).get rfl) :=
  exclusive_of_noStrayEntry (.get threeDispatchers_init (by decide +kernel) rfl)

/-- While dispatcher 1 is about to poll, a thread of dispatcher 2 wakes the actor too. The future
finishes on dispatcher 1, and dispatcher 2 finds a stale entry: it runs the second mail and arms its
future. The owner's thread runs the third mail for the completion of the first. -/
def staleEntry : List (Action (Fin 3) (Fin 3) Nat Unit) :=
  foreignWake ++ Action.wake 2 (some 2) 0 :: replicate 4 (Action.caller 2) ++
    replicate 5 (Action.worker 1 .done) ++ Action.pick 2 :: replicate 10 (Action.worker 2 .done) ++
    replicate 2 (Action.worker 2 (.pending ())) ++
    Action.pick 0 :: replicate 9 (Action.worker 0 .done)

/-- Two threads are past the check, and `on_receive` is called beside an unfinished future. -/
theorem not_exclusive_staleEntry :
    ∃ s, (machine (Fin 3) Nat Unit (0 : Fin 3) 4).Reach Machine.free s ∧
      s.workers 2 = .armActivate ∧ s.workers 0 = .callReceive 9 ∧ s.mem.armed = 2 ∧
      s.mem.finished = 1 ∧ ¬Exclusive s := by
  obtain ⟨s, hs⟩ : ∃ s, s =
      ((machine (Fin 3) Nat Unit (0 : Fin 3) 4).run threeDispatchers staleEntry).get rfl := ⟨_, rfl⟩
  have hpc : s.workers 2 = .armActivate := by rw [hs]; rfl
  have hpc' : s.workers 0 = .callReceive 9 := by rw [hs]; rfl
  refine ⟨s, hs ▸ .get_free threeDispatchers_init rfl, hpc, hpc', by rw [hs]; rfl,
    by rw [hs]; rfl, fun h => ?_⟩
  exact absurd (h.1 2 0 (by rw [hpc]; trivial) (by rw [hpc']; trivial)) (by decide)

end

end DignusActor.ActorRunner
