import DignusActor.System.Callers
import DignusActor.System.Containment
import DignusActor.System.FailedSpawn
import DignusActor.System.Shutdown

/-! # A shutdown comes to its end

`dispose` waits for a live count of zero. In a run that meets none of the known defects (`Orderly`:
no spawn loses its slot or stores its runner behind the scan, no kill falls into the gap at the end
of `execute`, and no user code panics outside a `catch_unwind`) every actor whose spawn has returned
is on its way out once `begin_shutdown` has killed them: it has been finalized and its slot is given
back, or somebody is in its runner, or there is an entry or a pending receive that will run it. So
when nothing is left to run, the count is zero and `dispose` goes on. -/

namespace DignusActor.ActorSystem

open Machine (Reach)
open ActorRunner (FailureInv KillPending KillSeen)

variable {k : Nat} {T M F A : Type}

/-! ## Kills are not lost -/

/-- No kill falls into the gap at the end of `execute`. -/
def KillsSeen (s : State k T M F A) (a : Action k T M F A) : Prop :=
  ∀ t n actor, a.thread = .caller t → (s.callers t).runner = some n →
    s.actors n = some actor → KillSeen actor.run (.caller t)

/-- While no dispatcher has been stopped, every runner is served, finalized once it is stopped, and
not left in `KILLING`. -/
def Settling (s : State k T M F A) : Prop :=
  (∀ d, s.stopped d = false) → ∀ n actor, s.actors n = some actor →
    FailureInv False actor.run ∧ KillPending actor.run

section
variable [DecidableEq T] [DecidableEq A] {poisons : Bool} {s s' : State k T M F A}
  {a : Action k T M F A}

omit [DecidableEq T] [DecidableEq A] in
theorem KillsSeen.runner (h : KillsSeen s a) (hseat : CallersSeated s) {n : Nat}
    {actor : Actor k T M F A} (ha : s.actors n = some actor)
    {action : ActorRunner.Action (Fin k) T M F} (htaken : TakenBy a.thread action) :
    KillSeen actor.run action := by
  cases action with
  | caller t =>
    intro hswap
    refine h t n actor (htaken.calling t rfl) (hseat t n actor ha ?_) ha hswap
    rw [hswap]
    nofun
  | _ => trivial

theorem Settling.step (h : Settling s) (hl : Linked s) (hsurviving : Surviving s)
    (hknown : s.StopsKnown) (hseat : CallersSeated s) (hguard : Guarded s a)
    (hseen : KillsSeen s a) (hs : ActorSystem.step poisons s a = some s') : Settling s' := by
  intro hstop n actor' ha'
  have hmove := step_move hs
  have hrunning (d : Fin k) : actor'.run.mem.stopped d = false := by
    rw [hmove.stopped hknown n actor' ha']
    exact hstop d
  rcases hl.actor_cases hmove ha' with ⟨-, _, _, _, -, -, hnew⟩ | ⟨actor, ha, hevolves⟩
  · obtain ⟨-, q, -, rfl⟩ := newActor_eq_some.mp hnew
    exact ⟨ActorRunner.initial_failureInv hrunning id, nofun⟩
  · obtain ⟨H, hk⟩ := h (fun d => hmove.unstopped (hstop d)) n actor ha
    have halive := (hsurviving.step hl hguard hs).alive n actor' ha'
    refine ⟨hevolves.failureInv H (hl.finalize n actor ha) hrunning halive False.elim, ?_⟩
    rcases hevolves.run with hrun | ⟨action, hrun, htaken⟩
    · rwa [hrun]
    · exact hk.step H.served (ActorRunner.served_of_alive hrun hrunning halive)
        (hseen.runner hseat ha htaken) hrun

/-- The steps of a run that meets no known defect of a shutdown. -/
structure Orderly (poisons : Bool) (s : State k T M F A) (a : Action k T M F A) : Prop where
  guarded : Guarded s a
  committed : NoLateCommit s a
  kept : NoLeak poisons s a
  seen : KillsSeen s a

variable {capacity : Nat}

theorem settling_of_reach (h : Reach (machine k T M F A poisons capacity) (Orderly poisons) s) :
    Settling s := by
  refine h.inv_of
    (fun s => (Linked s ∧ Surviving s) ∧ s.StopsKnown ∧ CallersSeated s) Settling
    (fun h => ⟨⟨linked_of_reach h, surviving_of_guarded (h.mono fun _ _ hok => hok.guarded)⟩,
      stopped_of_reach h, callersSeated_of_reach h⟩) ?_
    fun ⟨⟨hl, hsurviving⟩, hknown, hseat⟩ hset hok hs =>
      hset.step hl hsurviving hknown hseat hok.guarded hok.seen hs
  rintro _ rfl _ _ _ ha
  cases ha

/-! ## What is left to do -/

/-- Somebody is in the runner of the actor, or an entry or a pending receive will run it. -/
inductive State.Occupied (s : State k T M F A) (n : Nat) (actor : Actor k T M F A) : Prop
  | worker (d : Fin k) : s.busy d = some n → s.Occupied n actor
  | caller (t : T) : (s.callers t).runner = some n → s.Occupied n actor
  | entry (d : Fin k) : actor.run.mem.queue d ≠ [] → s.Occupied n actor
  | future : actor.run.mem.slot.isSome = true → s.Occupied n actor

/-- Nobody is in a spawn, and no runner is occupied. -/
structure State.AtRest (s : State k T M F A) : Prop where
  spawns : ∀ u, (s.registry.pcs u).reservation = none
  runners : ∀ n actor, s.actors n = some actor → ¬s.Occupied n actor

omit [DecidableEq T] [DecidableEq A] in
theorem State.Occupied.of_due (hseat : Seated s) (hcallers : CallersSeated s) {n : Nat}
    {actor : Actor k T M F A} (ha : s.actors n = some actor) (h : actor.run.Due) :
    s.Occupied n actor := by
  cases h with
  | entry d hq => exact .entry d hq
  | future hslot => exact .future hslot
  | caller t hpush =>
    refine .caller t (hcallers t n actor ha fun hidle => ?_)
    rw [hidle] at hpush
    exact hpush
  | worker d hrun =>
    refine .worker d (hseat.worker d n actor ha fun hidle => ?_)
    rw [hidle] at hrun
    exact hrun

omit [DecidableEq T] [DecidableEq A] in
/-- An actor that has been killed is finalized and its slot is given back, or its runner is
occupied. -/
theorem Settling.released_or_occupied (h : Settling s) (hv : Vacating s) (hl : Linked s)
    (hseat : Seated s) (hcallers : CallersSeated s) (hstop : ∀ d, s.stopped d = false) {n : Nat}
    {actor : Actor k T M F A} (ha : s.actors n = some actor)
    (hkilled : actor.run.mem.lifecycle ≠ .running) :
    actor.run.mem.onKillReturns = 1 ∧ s.Gone n ∨ s.Occupied n actor := by
  obtain ⟨H, hk⟩ := h hstop n actor ha
  cases hlife : actor.run.mem.lifecycle with
  | running => exact absurd hlife hkilled
  | killing =>
    right
    rcases hk hlife with hdue | ⟨t, ht⟩
    · exact .of_due hseat hcallers ha hdue
    · refine .caller t (hcallers t n actor ha ?_)
      rw [ht]
      nofun
  | stopped =>
    rcases H.finalized hlife with hret | ⟨d, hd⟩
    · by_cases hn : n ∈ s.registry.mem.data.outstanding
      · obtain ⟨d, hbusy, -⟩ := hv.gone n actor ha hret hn
        exact .inr (.worker d hbusy)
      · have honce := (hl.finalize n actor ha).once
        exact .inl ⟨Nat.le_antisymm (honce.1.trans honce.2) hret, hl.known n actor ha, hn⟩
    · refine .inr (.worker d (hseat.worker d n actor ha fun hidle => hd ?_))
      rw [hidle]
      rfl

omit [DecidableEq T] [DecidableEq A] in
/-- `begin_shutdown` has killed every actor that has a runner in the registry. -/
theorem DisposalInv.killed_of_done (hd : DisposalInv s) (hdone : s.disposal = .done) {n : Nat}
    (hn : s.registry.mem.data.runners n ≠ none) :
    ∃ actor, s.actors n = some actor ∧ actor.run.mem.lifecycle ≠ .running := by
  rcases hd.covered n hn with ⟨actor, ha, hkill⟩ | hn | ⟨i, -, -, hp⟩
  · refine ⟨actor, ha, fun hrunning => ?_⟩
    rw [hd.running n actor ha hrunning] at hkill
    cases hkill
  · rw [State.toKill, hdone] at hn
    cases hn
  · rw [State.passed, hdone] at hp
    cases hp

theorem unpoisoned_of_noLeak
    (h : Reach (machine k T M F A poisons capacity) (NoLeak poisons) s) :
    s.registry.mem.poisoned = false := by
  cases poisons with
  | false => exact Registry.not_poisoned_of_reach (registry_reach h)
  | true =>
    refine h.inv (fun s => s.registry.mem.poisoned = false) ?_ fun hp hok hs => ?_
    · rintro _ rfl
      rfl
    · rcases (step_move hs).registry with hr | ⟨b, hr, hb⟩
      · rwa [hr]
      · refine (Registry.step_poisoned hr hp).resolve_right fun ⟨hpc, hfree, hcap⟩ => ?_
        rw [hb] at hpc
        have hfull := hok.2
        rw [State.full_eq_true hpc hfree hcap] at hfull
        cases hfull

/-- A `dispose` that finds the mutex free and no actor goes on to stop the dispatchers. -/
theorem counting_run {t : T} {call : Shutdown k} (hpc : s.callers t = .counting call)
    (hreg : s.registry.pcs (.caller t) = .countLock) (halloc : s.registry.mem.alloc = none)
    (hpoisoned : s.registry.mem.poisoned = false) (hlive : s.registry.mem.live = 0)
    (expired : Bool) : ∃ s', (machine k T M F A poisons capacity).run s
      (List.replicate 4 (.call t expired)) = some s' ∧ s'.callers t = .stopDispatcher call 0 := by
  have hrun : ((machine k T M F A poisons capacity).run s
      (List.replicate 4 (.call t expired))).map (·.callers t) = some (.stopDispatcher call 0) := by
    simp [List.replicate, Machine.run, machine, ActorSystem.step, hpc, spawnStep, shutdownStep,
      State.inRegistry, Registry.step, hreg, Registry.callStep, Registry.Mem.lockAlloc, halloc,
      hpoisoned, hlive, State.setCaller]
  exact Option.map_eq_some_iff.mp hrun

/-- **A shutdown comes to its end.** In a run that meets no known defect, once `begin_shutdown` has
killed the actors and while no dispatcher is stopped: every actor whose spawn has returned has run
`on_kill` once and given its slot back, or somebody is in its runner or will be; and when nobody is,
the live count is zero and a `dispose` that counts goes on to stop the dispatchers. -/
theorem drained_of_orderly
    (h : Reach (machine k T M F A poisons capacity) (Orderly poisons) s)
    (hdone : s.disposal = .done) (hstop : ∀ d, s.stopped d = false) :
    (∀ n ∈ s.returned, ∃ actor, s.actors n = some actor ∧
      (actor.run.mem.onKillReturns = 1 ∧ s.Gone n ∨ s.Occupied n actor)) ∧
    (s.AtRest → s.registry.mem.live = 0 ∧ ∀ t call, s.callers t = .counting call →
      s.registry.pcs (.caller t) = .countLock → s.registry.mem.alloc = none → ∀ expired, ∃ s',
        (machine k T M F A poisons capacity).run s (List.replicate 4 (.call t expired)) = some s' ∧
        s'.callers t = .stopDispatcher call 0) := by
  have hd := disposalInv_of_reach (h.mono fun _ _ hok => hok.committed)
  have hv := vacating_of_guarded (h.mono fun _ _ hok => hok.guarded)
  have hl := linked_of_reach h
  have hfate (n : Nat) (hn : n ∈ s.returned) : ∃ actor, s.actors n = some actor ∧
      (actor.run.mem.onKillReturns = 1 ∧ s.Gone n ∨ s.Occupied n actor) := by
    obtain ⟨actor, ha, hkilled⟩ := hd.killed_of_done hdone (hd.returned n hn)
    exact ⟨actor, ha, (settling_of_reach h).released_or_occupied hv hl (seated_of_reach h)
      (callersSeated_of_reach h) hstop ha hkilled⟩
  refine ⟨hfate, fun hrest => ?_⟩
  have hlive : s.registry.mem.live = 0 := by
    refine live_eq_zero (h.mono fun _ _ hok => hok.kept) hrest.spawns fun n hn => ?_
    obtain ⟨actor, ha, hfate⟩ := hfate n hn
    exact (hfate.resolve_right (hrest.runners n actor ha)).2.2
  have hpoisoned := unpoisoned_of_noLeak (h.mono fun _ _ hok => hok.kept)
  exact ⟨hlive, fun t call hpc hreg halloc => counting_run hpc hreg halloc hpoisoned hlive⟩

end

/-! ## A run -/

namespace State

/-- The next step of thread `u` is the swap of a kill that finds the flag set. -/
def killSeen (s : State k T M F A) : Thread k T → Bool
  | .caller t => (s.callers t).runner.any fun n => (s.actors n).any fun actor =>
    match actor.run.callers t with
    | .killSwap => actor.run.mem.isScheduled
    | _ => false
  | .worker _ => false

end State

theorem KillsSeen.of_not_seen {s : State k T M F A} {a : Action k T M F A}
    (h : s.killSeen a.thread = false) : KillsSeen s a := by
  intro t n actor ht hn ha hswap hset
  rw [ht] at h
  simp [State.killSeen, hn, ha, hswap, hset] at h

/-- An actor is spawned and the system is disposed. The `dispose` counts one actor, and the actor is
finalized before it counts again. -/
def drained : State 1 Nat Nat Nat Nat :=
  ((machine 1 Nat Nat Nat Nat true 4).run (withCapacity 1 Nat Nat Nat Nat 4)
    ([Action.spawn 0 ⟨none, none, 2, true⟩] ++ List.replicate 13 (Action.call 0 false) ++
      [Action.shutdown 1 false none] ++ List.replicate 18 (Action.call 1 false) ++
      [Action.pick (Fin.last 0) 0] ++
      List.replicate 21 (Action.execute (Fin.last 0) .done))).get rfl

theorem drained_runner (t : Nat) : (drained.callers t).runner = none := by
  match t with
  | 0 | 1 | _ + 2 => rfl

theorem drained_atRest : drained.AtRest where
  spawns
    | .worker 0 | .caller 0 | .caller 1 | .caller (_ + 2) => rfl
  runners
    | 0, actor, ha => by
      have hqueue : (drained.actors 0).map (fun actor => actor.run.mem.queue 0) = some [] := rfl
      have hslot : (drained.actors 0).map (fun actor => actor.run.mem.slot.isSome) = some false :=
        rfl
      rw [ha] at hqueue hslot
      rintro (⟨d, hd⟩ | ⟨t, ht⟩ | ⟨d, hd⟩ | hsome)
      · have hbusy : drained.busy d = none := by
          rw [Subsingleton.elim d 0]
          rfl
        cases hbusy.symm.trans hd
      · cases (drained_runner t).symm.trans ht
      · rw [Subsingleton.elim d 0] at hd
        exact hd (Option.some.inj hqueue)
      · cases (Option.some.inj hslot).symm.trans hsome
    | n + 1, actor, ha => by
      have hnone : drained.actors (n + 1) = none := rfl
      cases hnone.symm.trans ha

theorem drained_of_orderly_drained : drained.returned = [0] ∧ drained.registry.mem.live = 0 ∧
    ∃ s', (machine 1 Nat Nat Nat Nat true 4).run drained (List.replicate 4 (.call 1 false)) =
      some s' ∧ s'.callers 1 = .stopDispatcher ⟨false, none, 1⟩ 0 := by
  have hreach : Reach (machine 1 Nat Nat Nat Nat true 4) (Orderly true) drained := by
    have hstrict : Reach (machine 1 Nat Nat Nat Nat true 4) (fun s a => Guarded s a ∧
        NoLateCommit s a ∧ NoLeak true s a ∧ s.killSeen a.thread = false) drained :=
      .get rfl (by decide +kernel) _
    exact hstrict.mono fun _ _ ⟨hguard, hlate, hleak, hseen⟩ =>
      ⟨hguard, hlate, hleak, .of_not_seen hseen⟩
  obtain ⟨hlive, hcount⟩ := (drained_of_orderly hreach rfl fun _ => rfl).2 drained_atRest
  exact ⟨rfl, hlive, hcount 1 _ rfl rfl rfl false⟩

end DignusActor.ActorSystem
