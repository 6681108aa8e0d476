import DignusActor.Runner.Scheduled

/-! # Kills that are not lost

`kill` swaps `is_scheduled` and, when it finds the flag set, relies on the thread that holds it to
run `finalize_kill`. At the end of `execute` that thread loads the lifecycle, then clears the flag,
then looks at the mailbox only. A kill that swaps the flag between the two is seen by nobody:
`KillSeen` is the condition that the swap does not fall into that gap unless somebody else is due to
run the actor. Under it an actor in `KILLING` always has somebody who will finalize it. -/

namespace DignusActor.ActorRunner

variable {D T M F : Type}

/-- The swap of a kill does not find `is_scheduled` set by a thread that has looked at the lifecycle
for the last time, unless somebody else is due to run the actor. -/
def KillSeen (s : State D T M F) : Action D T M F → Prop
  | .caller t => s.callers t = .killSwap → s.mem.isScheduled = true →
    (∃ d, s.workers d = .clearScheduled) → s.Due
  | _ => True

/-- An actor in `KILLING` has an entry, an armed future, or a thread inside `kill`, `post` or
`execute` that will push an entry or call `finalize_kill`. -/
def KillPending (s : State D T M F) : Prop :=
  s.mem.lifecycle = .killing → s.Due ∨ ∃ t, s.callers t = .killSwap

/-- No entry, no call in progress and no pending receive. -/
structure Quiescent (s : State D T M F) : Prop where
  queues : ∀ d, s.mem.queue d = []
  callers : ∀ t, s.callers t = .idle
  workers : ∀ d, s.workers d = .idle
  slot : s.mem.slot = none

theorem Quiescent.not_due {s : State D T M F} (h : Quiescent s) : ¬s.Due := by
  rintro (⟨d, hd⟩ | hslot | ⟨t, ht⟩ | ⟨d, hd⟩)
  · exact hd (h.queues d)
  · rw [h.slot] at hslot
    cases hslot
  · rw [h.callers t] at ht
    exact ht
  · rw [h.workers d] at hd
    exact hd

section
variable [DecidableEq D] [DecidableEq T] {owner : D} {s s' : State D T M F} {a : Action D T M F}

/-- The step that makes the lifecycle `KILLING` leaves its thread inside `kill`. -/
theorem killing_of_step (hs : step owner s a = some s') (h : s'.mem.lifecycle = .killing) :
    s.mem.lifecycle = .killing ∨ s'.Due ∨ ∃ t, s'.callers t = .killSwap := by
  cases step_move hs with
  | post | kill | wake | pick | stop => exact .inl h
  | @caller t m' pc' hc =>
    rcases callerStep_lifecycle hc with h' | ⟨_, _, hpc'⟩
    · exact .inl (h'.symm.trans h)
    · exact .inr (.inr ⟨t, by simpa using hpc'⟩)
  | @worker d o m' pc' hw =>
    rcases workerStep_lifecycle hw with h' | ⟨_, _, hpc'⟩ | ⟨_, h', _⟩
    · exact .inl (h'.symm.trans h)
    · exact .inr (.inl (.worker d (by simpa using hpc')))
    · rw [show m'.lifecycle = .killing from h] at h'
      cases h'

/-- The swap of a kill: it pushes an entry, or somebody else is due. -/
theorem killSwap_step (H : ServedInv s) (hseen : KillSeen s a) {t : T}
    (hpc : s.callers t = .killSwap) (hkill : s.mem.lifecycle = .killing)
    (hs : step owner s a = some s') : s'.callers t = .killSwap ∨ s'.Due := by
  have hlive : s.mem.lifecycle ≠ .stopped := by
    rw [hkill]
    exact nofun
  cases step_move hs with
  | pick | worker | stop => exact .inl hpc
  | @post t' mail hidle | @kill t' hidle | @wake t' _ _ hidle =>
    have hne : t ≠ t' := by
      rintro rfl
      rw [hidle] at hpc
      cases hpc
    exact .inl (by simpa [State.setCaller, hne] using hpc)
  | @caller t' m' pc' h =>
    by_cases ht : t = t'
    · subst ht
      right
      rw [hpc] at h
      cases callerStep_move h with
      | killSwap => exact .caller t (by simp [CallerPc.Pushing])
      | killSeen hset =>
        -- the flag is set: either its holder or, in the gap, somebody else
        have hdue : s.Due := by
          rcases H.scheduled hlive hset with h' | h'
          · exact h'
          · exact hseen hpc hset h'
        cases hdue with
        | entry d hq => exact .entry d hq
        | future hslot => exact .future hslot
        | worker d hrun => exact .worker d hrun
        | caller t' hpush =>
          have hne : t' ≠ t := by
            rintro rfl
            rw [hpc] at hpush
            exact hpush
          exact .caller t' (by simpa [hne] using hpush)
    · exact .inl (by simpa [ht] using hpc)

theorem KillPending.step (hk : KillPending s) (H : ServedInv s) (hok : Served s a)
    (hseen : KillSeen s a) (hs : step owner s a = some s') : KillPending s' := by
  intro hkill'
  rcases killing_of_step hs hkill' with hkill | h
  · rcases hk hkill with hdue | ⟨t, ht⟩
    · rcases hdue.step H hok hs with h | h | ⟨_, h, _⟩
      · exact .inl h
      · rw [h] at hkill'
        cases hkill'
      · exact (h hkill).elim
    · rcases killSwap_step H hseen ht hkill hs with h | h
      · exact .inr ⟨t, h⟩
      · exact .inl h
  · exact h

/-- **No kill is lost** in a run whose kills do not fall into the gap at the end of `execute`: an
actor in `KILLING` has somebody who will finalize it, so it is never stuck there. -/
theorem killPending_of_killSeen {capacity : Nat}
    (h : (machine T M F owner capacity).Reach (fun s a => Served s a ∧ KillSeen s a) s) :
    KillPending s ∧ (Quiescent s → s.mem.lifecycle ≠ .killing) := by
  have hk : KillPending s := by
    refine h.inv_of ServedInv KillPending (fun h => ?_) ?_ ?_
    · exact h.inv ServedInv (fun ⟨q, _, hs⟩ => hs ▸ .initial q) fun H hok hs => H.step hok.1 hs
    · rintro s ⟨q, _, rfl⟩ hkill
      cases hkill
    · exact fun H hk hok hs => hk.step H hok.1 hok.2 hs
  refine ⟨hk, fun hq hkill => ?_⟩
  rcases hk hkill with h | ⟨t, ht⟩
  · exact hq.not_due h
  · rw [hq.callers t] at ht
    cases ht

end

/-! ## Runs -/

section
open List

def oneDispatcher : State Unit Nat Nat Unit :=
  initial _ _ _ ((MpscBoundedQueue.new Nat mailSlotSize 8).get rfl)

theorem oneDispatcher_init : (machine Nat Nat Unit () 8).Init oneDispatcher := ⟨_, rfl, rfl⟩

instance (s : State Unit Nat Nat Unit) : Decidable (s.workers () = .clearScheduled) := by
  cases h : s.workers () with
  | clearScheduled => exact .isTrue rfl
  | _ => exact .isFalse nofun

theorem killSeen_of_ne {s : State Unit Nat Nat Unit} (h : s.workers () ≠ .clearScheduled)
    (a : Action Unit Nat Nat Unit) : KillSeen s a := by
  cases a with
  | caller t => exact fun _ _ ⟨_, hd⟩ => absurd hd h
  | _ => trivial

/-- A mail is posted and handled. The kill finds the flag set by the worker, which is in
`on_receive`. -/
def killed : State Unit Nat Nat Unit :=
  ((machine Nat Nat Unit () 8).run oneDispatcher
    (Action.post 0 7 :: replicate 11 (Action.caller 0) ++
      Action.pick () :: replicate 10 (Action.worker () .done) ++
      [.kill 1, .caller 1, .caller 1])).get rfl

theorem killPending_killed :
    (killed.workers () = .receiving ∧ killed.callers 1 = .idle ∧ killed.mem.isScheduled = true ∧
        killed.mem.lifecycle = .killing) ∧
      KillPending killed ∧ (Quiescent killed → killed.mem.lifecycle ≠ .killing) := by
  have hreach : (machine Nat Nat Unit () 8).Reach
      (fun s a => Served s a ∧ s.workers () ≠ .clearScheduled) killed :=
    .get oneDispatcher_init (by decide +kernel) rfl
  exact ⟨⟨rfl, rfl, rfl, rfl⟩,
    killPending_of_killSeen (hreach.mono fun _ a hok => ⟨hok.1, killSeen_of_ne hok.2 a⟩)⟩

/-- A mail is posted and handled. The kill falls between the worker's last look at the lifecycle and
the store that clears `is_scheduled`. -/
def killInGap : List (Action Unit Nat Nat Unit) :=
  Action.post 0 7 :: replicate 11 (Action.caller 0) ++
    Action.pick () :: replicate 15 (Action.worker () .done) ++
    Action.kill 1 :: replicate 2 (Action.caller 1) ++ replicate 4 (Action.worker () .done)

/-- The actor is left in `KILLING` with nobody to finalize it. -/
theorem killInGap_lost :
    ∃ s, (machine Nat Nat Unit () 8).Reach Machine.free s ∧ s.mem.lifecycle = .killing ∧
      Quiescent s ∧ ¬KillPending s := by
  have hquiet : Quiescent
      (((machine Nat Nat Unit () 8).run oneDispatcher killInGap).get rfl) := by
    refine ⟨fun _ => rfl, fun t => ?_, fun _ => rfl, rfl⟩
    match t with
    | 0 => rfl
    | 1 => rfl
    | _ + 2 => rfl
  refine ⟨_, .get_free oneDispatcher_init rfl, rfl, hquiet, fun h => ?_⟩
  rcases h rfl with hdue | ⟨t, ht⟩
  · exact hquiet.not_due hdue
  · cases (hquiet.callers t).symm.trans ht

end

end DignusActor.ActorRunner
