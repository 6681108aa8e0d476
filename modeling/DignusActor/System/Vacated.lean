import DignusActor.Registry.Allocation
import DignusActor.System.Disposal

/-! # The slot of a finalized actor

A thread is in a runner only while it is busy with it (`Seated`). A runner is reached through the
slot that holds it, so an actor that anybody has touched is committed, and its slot stays as the
commit left it until the `remove` of its own finalization. That `remove` therefore finds the
generation of its handle and an owner to take: an actor whose `on_kill` has returned is being
removed, or its slot is given back (`Vacating.gone`), unless the `remove` has panicked. -/

namespace DignusActor.ActorRunner

variable {D T M F : Type}

/-- Nobody has called a method of the runner. -/
structure State.Untouched (s : State D T M F) : Prop where
  callers : ∀ t, s.callers t = .idle
  workers : ∀ d, s.workers d = .idle
  queue : ∀ d, s.mem.queue d = []
  wakers : ∀ d, s.mem.wakers d = false

section
variable [DecidableEq D] [DecidableEq T] {owner : D} {s s' : State D T M F} {a : Action D T M F}

/-- A runner is touched by a `post` or a `kill`. -/
theorem State.Untouched.step (h : s.Untouched) (hs : ActorRunner.step owner s a = some s') :
    s'.Untouched ∨ ∃ t, (∃ mail, a = .post t mail) ∨ a = .kill t := by
  cases step_move hs with
  | post mail => exact .inr ⟨_, .inl ⟨mail, rfl⟩⟩
  | kill => exact .inr ⟨_, .inr rfl⟩
  | wake _ hw => cases (h.wakers _).symm.trans hw
  | caller hc =>
    rw [h.callers] at hc
    cases hc
  | pick _ hq => cases (h.queue _).symm.trans hq
  | worker hw =>
    rw [h.workers] at hw
    cases hw
  | stop d => exact .inl ⟨h.callers, h.workers, h.queue, h.wakers⟩

/-- `on_kill` returns, and the thread comes to `on_finalize`. -/
theorem step_onKillReturns (h : step owner s a = some s') (hs : s.mem.onKillReturns = 0)
    (hs' : 1 ≤ s'.mem.onKillReturns) : ∃ d o, a = .worker d o ∧ s.workers d = .onKill ∧
      s'.workers d = .onFinalize := by
  cases step_move h with
  | @caller t m pc hc =>
    have hsame := (callerStep_onKill hc).2.1
    dsimp only at hs'
    omega
  | @worker d o m pc hw =>
    dsimp only at hs'
    cases workerStep_onKill hw with
    | other _ hr => omega
    | swap _ hm | start hm =>
      rw [hm] at hs'
      dsimp only at hs'
      omega
    | finish _ hpc hpc' => exact ⟨d, o, rfl, hpc, by simp [hpc']⟩
  | _ =>
    dsimp only [State.setCaller] at hs'
    omega

end

end DignusActor.ActorRunner

namespace DignusActor.Registry

variable {T R : Type}

/-- The runners that a lookup or a scan of the slots has found. -/
def Pc.collected : Pc R → List R
  | .lookupUnlock _ (some runner) | .deliver _ runner => [runner]
  | .snapshotSlot _ live | .snapshotClone _ live | .snapshotOwnerUnlock _ live
  | .snapshotUnlock live | .snapshot live => live
  | _ => []

variable [DecidableEq T] {poisons : Bool} {s s' : State T R} {t : T} {a : Action T R}

/-- What is found comes from the owner of a slot. -/
theorem step_collected (h : step poisons s a = some s') {r : R} (hr : r ∈ (s'.pcs t).collected) :
    r ∈ (s.pcs t).collected ∨ ∃ i, (s.mem.data.slots i).owner = some r := by
  by_cases hta : t = a.thread
  · cases step_move h with
    | call u hcall =>
      cases hta
      simp only [Action.thread, Function.update_self] at hr ⊢
      generalize s.pcs u = pc at hcall
      cases hcall with
      | snapshotClone i live =>
        rcases List.mem_append.mp hr with hr | hr
        · exact .inl hr
        · exact .inr ⟨i, by simpa using hr⟩
      | lookupClone lookup =>
        refine .inr ⟨lookup.index, ?_⟩
        cases ho : (s.mem.data.slots lookup.index).owner with
        | none => simp [ho, Pc.collected] at hr
        | some runner =>
          rw [ho] at hr
          exact congrArg some (List.mem_singleton.mp hr).symm
      | lookupSome | snapshotSlot | snapshotEnd | snapshotOwnerUnlock | snapshotUnlock =>
        exact .inl hr
      | _ => cases hr
    | _ =>
      cases hta
      simp [State.setPc, Action.thread, Pc.collected] at hr
  · rw [step_pcs_of_ne h hta] at hr
    exact .inl hr

/-- A `remove` of an outstanding reservation ends with the slot given back, or in a panic. -/
theorem SlotsKept.step_holding (hk : SlotsKept s) (hinv : Inv s) (hb : s.mem.data.Bounded)
    (hv : Vacant s t) (h : Registry.step poisons s (.call t) = some s') {handle : Handle}
    (hm : (s.pcs t).method = .remove handle) (hhold : (s.pcs t).holding = true) {n : Nat}
    {r : Reservation} (hr : s.mem.data.reservations[n]? = some r) (hhandle : r.toHandle = handle)
    (hn : n ∈ s'.mem.data.outstanding) :
    (s'.pcs t).holding = true ∨ s'.pcs t = .panicked := by
  subst hhandle
  cases step_move h with
  | call _ hcall =>
    simp only [Function.update_self] at hn ⊢
    have hidx : s.mem.data.indexOf n = some r.index := Data.indexOf_eq_some.mpr ⟨r, hr, rfl⟩
    generalize hpc : s.pcs t = pc at hcall hm hhold
    cases hcall with
    | removePoisoned => exact .inr rfl
    | removePast handle hle =>
      cases hm
      exact absurd (hb.lt hr) (Nat.not_lt.mpr hle)
    | removeStale handle hne =>
      cases hm
      have hlatest := hinv.data.latest_of_outstanding hn hidx
      rcases hk n r.index hn hidx with hodd | ⟨v, handle, hv', -⟩
      · exact absurd (hinv.data.generation_latest hr hodd hlatest) hne
      · -- the thread holds the mutex, and has retired nothing
        have halloc := (hinv.thread t).alloc (by rw [hpc]; rfl)
        by_cases hvt : v = t
        · rw [hvt, hpc] at hv'
          cases hv'
        · have hfree := hinv.not_inAlloc halloc hvt
          rw [Pc.inAlloc_of_vacating hv'] at hfree
          cases hfree
    | keep handle => exact absurd hpc (hv.taken handle).2
    | giveBack handle runner =>
      cases hm
      obtain ⟨hne, hmem⟩ := hinv.data.mem_giveBack.mp hn
      exact absurd (hinv.data.latest_of_outstanding hmem hidx).symm hne
    | removeLock | removeLoad | removeStore | removeOwnerLock | removeTake | removeOwnerUnlock =>
      exact .inl rfl
    | _ => cases hhold

/-- A `remove` that returns has come past the free list. -/
theorem step_removed_holding (h : step poisons s (.call t) = some s') {removed : Option R}
    (ht : s'.pcs t = .removed removed) : (s.pcs t).holding = false := by
  cases step_move h with
  | call _ hcall =>
    simp only [Function.update_self] at ht
    subst ht
    generalize s.pcs t = pc at hcall
    cases hcall
    rfl

end DignusActor.Registry

namespace DignusActor.ActorSystem

open Machine (Reach)

variable {k : Nat} {T M F A : Type}

/-! ## A thread is in the runner it is busy with -/

/-- A dispatcher thread is in the runner that it is busy with, and in no other. -/
structure Seated (s : State k T M F A) : Prop where
  busy : ∀ d n, s.busy d = some n → ∃ actor, s.actors n = some actor ∧
    actor.run.workers d ≠ .idle
  worker : ∀ d n actor, s.actors n = some actor → actor.run.workers d ≠ .idle → s.busy d = some n

section
variable {s : State k T M F A} {d : Fin k}

theorem Seated.idle (h : Seated s) (hd : s.busy d = none) {n : Nat} {actor : Actor k T M F A}
    (ha : s.actors n = some actor) : actor.run.workers d = .idle := by
  by_contra hne
  cases (h.worker d n actor ha hne).symm.trans hd

theorem Seated.idle_of_ne (h : Seated s) {m n : Nat} (hd : s.busy d = some m) (hnm : n ≠ m)
    {actor : Actor k T M F A} (ha : s.actors n = some actor) : actor.run.workers d = .idle := by
  by_contra hne
  exact hnm (Option.some.inj ((h.worker d n actor ha hne).symm.trans hd))

theorem Seated.busy_eq (h : Seated s) {n : Nat} (hd : s.busy d = some n)
    {actor : Actor k T M F A} (ha : s.actors n = some actor) : actor.run.workers d ≠ .idle := by
  obtain ⟨actor', ha', hne⟩ := h.busy d n hd
  cases ha'.symm.trans ha
  exact hne

variable [DecidableEq T] [DecidableEq A] {poisons : Bool} {s' : State k T M F A} {u : Thread k T}

/-- A dispatcher thread takes a step of one runner, and is in it afterwards or free. -/
structure SeatMove (s : State k T M F A) (d : Fin k) (s' : State k T M F A) (n : Nat)
    (actor : Actor k T M F A) (run : ActorRunner.State (Fin k) T M F) : Prop where
  found : s.actors n = some actor
  busy : s.busy d = none ∨ s.busy d = some n
  actors : s'.actors = Function.update s.actors n (some { actor with run })
  seat : s'.busy d = some n ∧ run.workers d ≠ .idle ∨ s'.busy d = none ∧ run.workers d = .idle

theorem WorkMove.seat (h : WorkMove poisons s d s') : (s'.actors = s.actors ∧ s'.busy = s.busy) ∨
    ∃ n actor run, SeatMove s d s' n actor run := by
  cases h with
  | exit hbusy hs =>
    subst hs
    exact .inl ⟨rfl, rfl⟩
  | @pick n actor run hbusy ha hrun hs =>
    subst hs
    refine .inr ⟨n, actor, run, ha, .inl hbusy, rfl, .inl ⟨Function.update_self .., ?_⟩⟩
    cases ActorRunner.step_move hrun
    simp
  | @execute n o actor run hbusy ha hw hrun hidle hdead hs =>
    subst hs
    exact .inr ⟨n, actor, run, ha, .inr hbusy, rfl, .inl ⟨hbusy, hidle⟩⟩
  | @«return» n o actor run hbusy ha hw hrun hidle hs =>
    subst hs
    exact .inr ⟨n, actor, run, ha, .inr hbusy, rfl, .inr ⟨Function.update_self .., hidle⟩⟩
  | @unwind n o actor run hbusy ha hw hrun hdead hs =>
    subst hs
    exact .inr ⟨n, actor, run, ha, .inr hbusy, rfl, .inl ⟨hbusy, by simp [hdead]⟩⟩
  | @finalize n actor pc hbusy ha hw hpc hfin =>
    cases hfin with
    | @done run hrun =>
      refine .inr ⟨n, actor, run, ha, .inr hbusy, rfl, .inr ⟨Function.update_self .., ?_⟩⟩
      cases ActorRunner.step_move hrun with
      | worker hstep =>
        rw [hw] at hstep
        cases hstep
        simp
    | @panicked run hrun =>
      refine .inr ⟨n, actor, run, ha, .inr hbusy, rfl, .inl ⟨hbusy, ?_⟩⟩
      cases ActorRunner.step_move hrun with
      | worker hstep =>
        rw [hw] at hstep
        cases hstep
        simp
    | _ => exact .inl ⟨rfl, rfl⟩

omit [DecidableEq T] [DecidableEq A] in
theorem SeatMove.found_cases {n : Nat} {actor : Actor k T M F A}
    {run : ActorRunner.State (Fin k) T M F} (h : SeatMove s d s' n actor run) {m : Nat}
    {actor' : Actor k T M F A} (hm : s'.actors m = some actor') :
    m = n ∧ actor' = { actor with run } ∨ m ≠ n ∧ s.actors m = some actor' := by
  rw [h.actors] at hm
  by_cases hmn : m = n
  · subst hmn
    rw [Function.update_self] at hm
    exact .inl ⟨rfl, (Option.some.inj hm).symm⟩
  · rw [Function.update_of_ne hmn] at hm
    exact .inr ⟨hmn, hm⟩

omit [DecidableEq T] [DecidableEq A] in
theorem Seated.idle_others (h : Seated s) {n : Nat} {actor : Actor k T M F A}
    {run : ActorRunner.State (Fin k) T M F} (hmove : SeatMove s d s' n actor run) {m : Nat}
    (hmn : m ≠ n) {actor' : Actor k T M F A} (hm : s.actors m = some actor') :
    actor'.run.workers d = .idle := by
  rcases hmove.busy with hd | hd
  · exact h.idle hd hm
  · exact h.idle_of_ne hd hmn hm

theorem Seated.step (h : Seated s) (hl : Linked s) (hmove : Move poisons s s' u) : Seated s' where
  busy d n hn := by
    by_cases hu : u = .worker d
    · subst hu
      cases hmove with
      | worker _ hw =>
        rcases hw.seat with ⟨hactors, hbusy⟩ | ⟨m, actor, run, hseat⟩
        · rw [hactors]
          exact h.busy d n (hbusy ▸ hn)
        · rcases hseat.seat with ⟨hm, hne⟩ | ⟨hm, -⟩
          · cases hn.symm.trans hm
            exact ⟨_, by rw [hseat.actors, Function.update_self], hne⟩
          · cases hn.symm.trans hm
    · rw [(hmove.workers_of_ne hu).1] at hn
      obtain ⟨actor, ha, hw⟩ := h.busy d n hn
      obtain ⟨actor', ha', hevolves⟩ := hl.evolves hmove ha
      exact ⟨actor', ha', by rwa [hevolves.workers hu]⟩
  worker d n actor' ha' hne := by
    by_cases hu : u = .worker d
    · subst hu
      cases hmove with
      | worker _ hw =>
        rcases hw.seat with ⟨hactors, hbusy⟩ | ⟨m, actor, run, hseat⟩
        · rw [hbusy]
          exact h.worker d n actor' (hactors ▸ ha') hne
        · rcases hseat.found_cases ha' with ⟨rfl, rfl⟩ | ⟨hnm, ha⟩
          · rcases hseat.seat with ⟨hn, -⟩ | ⟨-, hidle⟩
            · exact hn
            · exact absurd hidle hne
          · exact absurd (h.idle_others hseat hnm ha) hne
    · rw [(hmove.workers_of_ne hu).1]
      rcases hl.actor_cases hmove ha' with ⟨-, _, _, _, -, -, hnew⟩ | ⟨actor, ha, hevolves⟩
      · obtain ⟨-, q, -, rfl⟩ := newActor_eq_some.mp hnew
        exact absurd rfl hne
      · rw [hevolves.workers hu] at hne
        exact h.worker d n actor ha hne

end

/-! ## The slot is given back -/

/-- The actors that a caller has collected, or is still to kill, are committed. -/
def Collected (s : State k T M F A) : Prop :=
  ∀ t n, n ∈ (s.callers t).toKill ∨ n ∈ (s.registry.pcs (.caller t)).collected →
    s.registry.mem.data.runners n ≠ none

structure Vacating (s : State k T M F A) : Prop where
  touched : ∀ n actor, s.actors n = some actor →
    actor.run.Untouched ∨ s.registry.mem.data.runners n ≠ none
  collected : Collected s
  vacant : ∀ u, Registry.Vacant s.registry u
  kept : Registry.SlotsKept s.registry
  gone : ∀ n actor, s.actors n = some actor → 1 ≤ actor.run.mem.onKillReturns →
    n ∈ s.registry.mem.data.outstanding →
      ∃ d, s.busy d = some n ∧ actor.run.workers d = .onFinalize ∧ s.Holding d

/-- The next step of thread `u` finds the `alloc` mutex poisoned in `remove`. -/
def State.removePoisoned (s : State k T M F A) (u : Thread k T) : Bool :=
  match s.registry.pcs u with
  | .removeLock _ => s.registry.mem.poisoned
  | _ => false

section
variable {s : State k T M F A} {d : Fin k}
variable [DecidableEq T] [DecidableEq A] {poisons : Bool} {s' : State k T M F A} {u : Thread k T}

omit [DecidableEq T] [DecidableEq A] in
theorem newActor_untouched {spawn : Spawn A} {owner : Fin k} {actor : Actor k T M F A}
    (h : newActor s spawn owner = some actor) : actor.run.Untouched := by
  obtain ⟨-, q, -, rfl⟩ := newActor_eq_some.mp h
  exact ⟨fun _ => rfl, fun _ => rfl, fun _ => rfl, fun _ => rfl⟩

/-- A caller touches an actor that it has found in a slot. -/
theorem CallMove.touched {t : T} {pc : CallerPc k M A} (h : CallMove poisons s t pc s')
    {n : Nat} {actor actor' : Actor k T M F A} (ha : s.actors n = some actor)
    (hu : actor.run.Untouched) (ha' : s'.actors n = some actor') : actor'.run.Untouched ∨
      n ∈ pc.toKill ∨ n ∈ (s.registry.pcs (.caller t)).collected := by
  -- a step of the runner of actor `m`
  have hstep {m : Nat} {actor₁ : Actor k T M F A} {run : ActorRunner.State (Fin k) T M F}
      {action : ActorRunner.Action (Fin k) T M F} (hm : s.actors m = some actor₁)
      (hrun : ActorRunner.step actor₁.owner actor₁.run action = some run)
      (hn : (s.setActor m { actor₁ with run }).actors n = some actor')
      (hfound : (∃ t, (∃ mail, action = .post t mail) ∨ action = .kill t) →
        m ∈ pc.toKill ∨ m ∈ (s.registry.pcs (.caller t)).collected) : actor'.run.Untouched ∨
        n ∈ pc.toKill ∨ n ∈ (s.registry.pcs (.caller t)).collected := by
    simp only [State.setActor] at hn
    by_cases hnm : n = m
    · subst hnm
      rw [Function.update_self] at hn
      cases hn
      cases hm.symm.trans ha
      exact (hu.step hrun).imp_right hfound
    · rw [Function.update_of_ne hnm, ha] at hn
      cases hn
      exact .inl hu
  cases h with
  | newRunner spawn m hnew =>
    simp only [State.setCaller, State.setActor] at ha'
    by_cases hnm : n = m
    · subst hnm
      rw [Function.update_self] at ha'
      cases ha'
      exact .inl (newActor_untouched hnew)
    · rw [Function.update_of_ne hnm, ha] at ha'
      cases ha'
      exact .inl hu
  | beginWake m current waker _ hm hrun => exact hstep hm hrun ha' (by simp)
  | killRunner _ m _ hm hrun | killReturn _ m _ hm hrun | inRunner m hm hrun
  | runnerReturn m hm hrun => exact hstep hm hrun ha' (by simp)
  | kill call m rest hm hrun => exact hstep hm hrun ha' fun _ => .inl List.mem_cons_self
  | deliver request lookup m hpc _ hm hrun =>
    refine hstep hm hrun ha' fun _ => .inr ?_
    rw [hpc]
    exact List.mem_singleton_self m
  | stop call d =>
    obtain ⟨actor₀, ha₀, rfl⟩ := Option.map_eq_some_iff.mp ha'
    cases ha₀.symm.trans ha
    exact .inl ⟨hu.callers, hu.workers, hu.queue, hu.wakers⟩
  | _ =>
    cases ha'.symm.trans ha
    exact .inl hu

theorem CallMove.toKill {t : T} {pc : CallerPc k M A} (h : CallMove poisons s t pc s')
    (hpc : s.callers t = pc) {n : Nat} (hn : n ∈ (s'.callers t).toKill) :
    n ∈ pc.toKill ∨ n ∈ (s'.registry.pcs (.caller t)).collected := by
  cases h with
  | snapshot call live _ hpcs =>
    right
    simp only [State.setCaller, Function.update_self, CallerPc.toKill] at hn
    simp only [State.setCaller, hpcs]
    exact hn
  | kill | killReturn =>
    simp only [State.setCaller, State.setActor, Function.update_self, CallerPc.toKill] at hn
    first
    | exact .inl hn
    | exact .inl (List.mem_cons_of_mem _ hn)
  | reserving | committing | snapshotting | killRunner | counting | countRemaining | requesting
  | inRunner =>
    change n ∈ (s.callers t).toKill at hn
    rw [hpc] at hn
    exact .inl hn
  | _ => simp [State.setCaller, State.setActor, CallerPc.toKill] at hn

omit [DecidableEq T] [DecidableEq A] in
/-- The owner of a slot is committed. -/
theorem Released.committed (hrel : Released s) (hinv : Registry.Inv s.registry) {i n : Nat}
    (ho : (s.registry.mem.data.slots i).owner = some n) :
    s.registry.mem.data.runners n ≠ none := by
  obtain ⟨-, -, hr⟩ := hinv.data.owner i n ho
  have hn := hrel.runners _ n hr
  rw [hn, hr]
  nofun

theorem Vacating.touched_step (hv : Vacating s) (hl : Linked s) (hinv : Registry.Inv s.registry)
    (h : Move poisons s s' u) {n : Nat} {actor' : Actor k T M F A}
    (ha' : s'.actors n = some actor') :
    actor'.run.Untouched ∨ s'.registry.mem.data.runners n ≠ none := by
  rcases hl.actor_cases h ha' with ⟨-, _, _, _, -, -, hnew⟩ | ⟨actor, ha, hevolves⟩
  · exact .inl (newActor_untouched hnew)
  · rcases hv.touched n actor ha with hu | hn
    · cases h with
      | caller t hpc hcall =>
        rcases hcall.touched ha hu ha' with hu' | hn
        · exact .inl hu'
        · exact .inr ((Move.caller t hpc hcall).runners_mono hinv
            (hv.collected t n (hpc ▸ hn)))
      | worker d hw =>
        rcases hevolves.run with hrun | ⟨action, hrun, htaken⟩
        · exact .inl (hrun ▸ hu)
        · rcases hu.step hrun with hu' | ⟨t, ⟨mail, rfl⟩ | rfl⟩
          · exact .inl hu'
          · cases htaken.calling t rfl
          · cases htaken.calling t rfl
    · exact .inr (h.runners_mono hinv hn)

theorem Collected.step (hc : Collected s) (hrel : Released s) (hinv : Registry.Inv s.registry)
    (h : Move poisons s s' u) : Collected s' := by
  intro t n hn
  refine h.runners_mono hinv ?_
  -- what the caller has collected came from a slot
  have hcollected (hn : n ∈ (s'.registry.pcs (.caller t)).collected) :
      s.registry.mem.data.runners n ≠ none := by
    rcases h.registry with hr | ⟨b, hr, -⟩
    · exact hc t n (.inr (hr ▸ hn))
    · rcases Registry.step_collected hr hn with hn | ⟨i, ho⟩
      · exact hc t n (.inr hn)
      · exact hrel.committed hinv ho
  rcases hn with hn | hn
  · by_cases hu : u = .caller t
    · subst hu
      cases h with
      | caller _ hpc hcall =>
        rcases hcall.toKill hpc hn with hn | hn
        · exact hc t n (.inl (hpc ▸ hn))
        · exact hcollected hn
    · rw [h.callers_of_ne hu] at hn
      exact hc t n (.inl hn)
  · exact hcollected hn

omit [DecidableEq T] [DecidableEq A] in
/-- The actor that a thread removes is committed. -/
theorem Vacating.committed (hv : Vacating s) {n : Nat} {actor : Actor k T M F A}
    (ha : s.actors n = some actor) (hw : actor.run.workers d ≠ .idle) :
    s.registry.mem.data.runners n ≠ none :=
  (hv.touched n actor ha).resolve_left fun hu => hw (hu.workers d)

omit [DecidableEq A] in
theorem Vacating.vacant_step (hv : Vacating s) (hrel : Released s) (hl : Linked s)
    (hinv : Registry.Inv s.registry) {b : Registry.Action (Thread k T) Nat}
    {registry : Registry.State (Thread k T) Nat}
    (hr : Registry.step poisons s.registry b = some registry) (v : Thread k T) :
    Registry.Vacant registry v := by
  refine (hv.vacant v).step hinv (fun handle hpc _ hgen hnone => ?_) hr
  obtain ⟨d, n, actor, rfl, hrem⟩ := hl.removing_of_method (u := v) (by rw [hpc]; rfl)
  obtain ⟨hn, hlatest⟩ := hrel.latest hinv hrem (by rw [hpc]; rfl)
  have hodd := (hinv.thread (.worker d)).odd handle (by rw [hpc]; rfl)
  -- the slot is reserved, and its reservation is that of the actor
  have hslot := hinv.data.odd_of_mod (hgen ▸ hodd)
  have hrunner := hinv.data.uncommitted _ hslot hnone
  rw [hlatest] at hrunner
  exact hv.committed hrem.found (by rw [hrem.onFinalize]; nofun) hrunner

theorem Vacating.gone_finalize (hv : Vacating s) (hl : Linked s) (hinv : Registry.Inv s.registry)
    (hb : s.registry.mem.data.Bounded) {n : Nat} {actor : Actor k T M F A} {pc : FinalizePc A}
    (h : FinalizeMove poisons s d n actor pc s') (hbusy : s.busy d = some n)
    (hpc : s.finalizers d = pc) (hhold : s.Holding d) (hsafe : s.removePoisoned (.worker d) = false)
    (hn : n ∈ s'.registry.mem.data.outstanding) :
    s'.busy d = some n ∧ s'.actors = s.actors ∧ s'.Holding d := by
  have hin : s.finalizers d = .removing → (s.registry.pcs (.worker d)).holding = true := fun hr =>
    (hhold.resolve_left (by simp [hr])).2
  -- a call of `remove` in progress has the handle of the actor
  have hheld (hremoving : s.finalizers d = .removing)
      {registry : Registry.State (Thread k T) Nat}
      (hr : Registry.step poisons s.registry (.call (.worker d)) = some registry)
      (hn : n ∈ registry.mem.data.outstanding) :
      (registry.pcs (.worker d)).holding = true ∨ registry.pcs (.worker d) = .panicked := by
    obtain ⟨r, hres, hm⟩ := (hl.worker d).removing n hbusy hremoving
    exact hv.kept.step_holding hinv hb (hv.vacant _) hr hm (hin hremoving) hres rfl hn
  cases h with
  | remove hr =>
    refine ⟨hbusy, rfl, .inr ⟨Function.update_self .., ?_⟩⟩
    cases Registry.step_move hr
    simp [State.setFinalizer, Registry.State.setPc, Registry.Pc.holding]
  | removing hr _ hpanic =>
    exact ⟨hbusy, rfl, .inr ⟨hpc, (hheld hpc hr hn).resolve_right hpanic⟩⟩
  | removed r hr hpcs | removedNone hr hpcs =>
    cases (Registry.step_removed_holding hr hpcs).symm.trans (hin hpc)
  | removePanic hr hpcs =>
    exfalso
    cases Registry.step_move hr with
    | call _ hcall =>
      simp only [Function.update_self] at hpcs
      subst hpcs
      have hin := hin hpc
      unfold State.removePoisoned at hsafe
      generalize s.registry.pcs (.worker d) = pc₀ at hcall hin hsafe
      cases hcall with
      | removePoisoned _ hp => cases hsafe.symm.trans hp
      | _ => cases hin
  | aliasPanic | aliasRemove | done | panicked =>
    rcases hhold with hstart | ⟨hremoving, -⟩
    · cases hpc.symm.trans hstart
    · cases hpc.symm.trans hremoving

theorem Vacating.gone_worker (hv : Vacating s) (hl : Linked s) (hinv : Registry.Inv s.registry)
    (hb : s.registry.mem.data.Bounded) (h : WorkMove poisons s d s') {n : Nat}
    {actor actor' : Actor k T M F A} (ha : s.actors n = some actor)
    (ha' : s'.actors n = some actor') (hbusy : s.busy d = some n)
    (hw : actor.run.workers d = .onFinalize) (hhold : s.Holding d)
    (hsafe : s.removePoisoned (.worker d) = false)
    (hn : n ∈ s'.registry.mem.data.outstanding) :
    s'.busy d = some n ∧ actor'.run.workers d = .onFinalize ∧ s'.Holding d := by
  have hother {m : Nat} {actor₁ : Actor k T M F A} (hm : s.busy d = some m)
      (ha₁ : s.actors m = some actor₁) (hne : actor₁.run.workers d ≠ .onFinalize) : False := by
    cases hm.symm.trans hbusy
    cases ha₁.symm.trans ha
    exact hne hw
  cases h with
  | pick _ hnone | exit hnone => cases hnone.symm.trans hbusy
  | execute m _ hm ha₁ hne | «return» m _ hm ha₁ hne | unwind m _ hm ha₁ hne =>
    exact (hother hm ha₁ hne).elim
  | finalize m hm ha₁ _ hpc hfin =>
    cases hm.symm.trans hbusy
    obtain ⟨hbusy', hactors, hhold'⟩ :=
      hv.gone_finalize hl hinv hb hfin hbusy hpc hhold hsafe hn
    rw [hactors] at ha'
    cases ha'.symm.trans ha
    exact ⟨hbusy', hw, hhold'⟩

/-- The thread whose `on_kill` returns comes to `on_finalize`. -/
theorem Vacating.gone_enter (hl : Linked s) (hseat : Seated s') {n : Nat}
    {actor' : Actor k T M F A} (h : WorkMove poisons s d s') (hbusy : s.busy d = some n)
    {actor : Actor k T M F A} (ha : s.actors n = some actor)
    (hw : actor.run.workers d = .onKill) (ha' : s'.actors n = some actor')
    (hw' : actor'.run.workers d = .onFinalize) : s'.busy d = some n ∧ s'.Holding d := by
  have hstart : s.finalizers d = .start := (hl.worker d).start fun m actor₁ hm ha₁ => by
    cases hm.symm.trans hbusy
    cases ha₁.symm.trans ha
    rw [hw]
    nofun
  refine ⟨hseat.worker d n actor' ha' (by rw [hw']; nofun), .inl ?_⟩
  cases h with
  | pick _ hnone | exit hnone => cases hnone.symm.trans hbusy
  | execute _ _ _ _ _ _ _ _ hs | «return» _ _ _ _ _ _ _ hs | unwind _ _ _ _ _ _ _ hs =>
    subst hs
    exact hstart
  | finalize m hm ha₁ hfinal =>
    cases hm.symm.trans hbusy
    cases ha₁.symm.trans ha
    cases hw.symm.trans hfinal

theorem Vacating.gone_step (hv : Vacating s) (hseat : Seated s) (hl : Linked s)
    (hinv : Registry.Inv s.registry) (hb : s.registry.mem.data.Bounded)
    (h : Move poisons s s' u) (hsafe : s.removePoisoned u = false) {n : Nat}
    {actor' : Actor k T M F A} (ha' : s'.actors n = some actor')
    (hret : 1 ≤ actor'.run.mem.onKillReturns) (hn' : n ∈ s'.registry.mem.data.outstanding) :
    ∃ d, s'.busy d = some n ∧ actor'.run.workers d = .onFinalize ∧ s'.Holding d := by
  rcases hl.actor_cases h ha' with ⟨-, _, _, _, -, -, hnew⟩ | ⟨actor, ha, hevolves⟩
  · obtain ⟨-, q, -, rfl⟩ := newActor_eq_some.mp hnew
    cases hret
  have hn : n ∈ s.registry.mem.data.outstanding := by
    rcases h.registry with hr | ⟨b, hr, -⟩
    · exact hr ▸ hn'
    · exact (Registry.step_mem_outstanding hr hn').resolve_right
        (Nat.not_le.mpr (hl.known n actor ha))
  by_cases hold : 1 ≤ actor.run.mem.onKillReturns
  · obtain ⟨d, hbusy, hw, hhold⟩ := hv.gone n actor ha hold hn
    refine ⟨d, ?_⟩
    by_cases hu : u = .worker d
    · subst hu
      cases h with
      | worker _ hmove =>
        exact hv.gone_worker hl hinv hb hmove ha ha' hbusy hw hhold hsafe hn'
    · obtain ⟨hbusy', hpc⟩ := h.workers_of_ne hu
      refine ⟨hbusy'.trans hbusy, (hevolves.workers hu).trans hw, ?_⟩
      simpa only [State.Holding, hpc, h.pcs_of_ne (Ne.symm hu)] using hhold
  · -- `on_kill` has just returned
    rcases hevolves.run with hrun | ⟨action, hrun, htaken⟩
    · rw [hrun] at hret
      exact absurd hret hold
    · obtain ⟨d, o, rfl, hw, hw'⟩ := ActorRunner.step_onKillReturns hrun (by omega) hret
      obtain rfl := htaken.dispatcher d rfl
      have hbusy := hseat.worker d n actor ha (by simp [hw])
      cases h with
      | worker _ hmove =>
        obtain ⟨hbusy', hhold⟩ := Vacating.gone_enter hl (hseat.step hl (.worker d hmove)) hmove
          hbusy ha hw ha' hw'
        exact ⟨d, hbusy', hw', hhold⟩

theorem Vacating.step (hv : Vacating s) (hseat : Seated s) (hrel : Released s) (hl : Linked s)
    (hinv : Registry.Inv s.registry) (hb : s.registry.mem.data.Bounded)
    (h : Move poisons s s' u) (hsafe : s.removePoisoned u = false) : Vacating s' where
  touched _ _ := hv.touched_step hl hinv h
  collected := hv.collected.step hrel hinv h
  vacant v := by
    rcases h.registry with hr | ⟨b, hr, -⟩
    · exact hr ▸ hv.vacant v
    · exact hv.vacant_step hrel hl hinv hr v
  kept := by
    rcases h.registry with hr | ⟨b, hr, -⟩
    · exact hr ▸ hv.kept
    · exact hv.kept.step hinv hv.vacant hr
  gone _ _ := hv.gone_step hseat hl hinv hb h hsafe

end

section
variable [DecidableEq T] [DecidableEq A] {poisons : Bool} {capacity : Nat} {s : State k T M F A}

theorem seated_of_reach {ok : State k T M F A → Action k T M F A → Prop}
    (h : Reach (machine k T M F A poisons capacity) ok s) : Seated s := by
  refine h.inv_of Linked Seated linked_of_reach ?_ fun hl hseat _ hs => hseat.step hl (step_move hs)
  rintro _ rfl
  exact ⟨fun _ _ => nofun, fun _ _ _ => nofun⟩

end

end DignusActor.ActorSystem
