import DignusActor.System.Linked

/-! # A slot is released by the actor that holds it

A dispatcher thread calls `remove` from `on_finalize` of the actor it executes, with the handle of
that actor, and only once: `on_kill` lets one thread through. So while the call has not given the
slot back the reservation is outstanding, and what it gives back is the reservation of an actor
whose `on_kill` has returned (`Released`). -/

namespace DignusActor.Registry

variable {R : Type}

/-- `remove` has not come to the free list. -/
def Pc.holding : Pc R → Bool
  | .removeLock _ | .removeLoad _ | .removeStore _ | .removeOwnerLock _ | .removeTake _
  | .removeOwnerUnlock .. | .removeFree .. => true
  | _ => false

/-- The runner that `remove` has taken from the slot. -/
def Pc.removedRunner : Pc R → Option R
  | .removeOwnerUnlock _ runner | .removeFree _ runner | .removeUnlock _ runner
  | .removed runner => runner
  | _ => none

variable {T : Type} [DecidableEq T] {poisons : Bool} {s s' : State T R} {t : T}

theorem step_call_holding (h : step poisons s (.call t) = some s')
    (ht : (s'.pcs t).holding = true) :
    (s.pcs t).holding = true ∧ s'.mem.data.outstanding = s.mem.data.outstanding := by
  cases step_move h with
  | call _ hcall =>
    simp only [Function.update_self] at ht
    generalize s.pcs t = pc at hcall
    cases hcall <;> first | exact ⟨rfl, rfl⟩ | cases ht

theorem step_call_removedRunner (h : step poisons s (.call t) = some s') {r : R}
    (ht : (s'.pcs t).removedRunner = some r) : (s.pcs t).removedRunner = some r ∨
      ∃ handle, s.pcs t = .removeTake handle ∧
        (s.mem.data.slots handle.index).owner = some r := by
  cases step_move h with
  | call _ hcall =>
    simp only [Function.update_self] at ht
    generalize s.pcs t = pc at hcall
    cases hcall <;> first | exact .inl ht | exact .inr ⟨_, rfl, ht⟩

/-- A reservation is outstanding from the start. -/
theorem step_lt_length {a : Action T R} (h : step poisons s a = some s') {n : Nat}
    (hn : n < s'.mem.data.reservations.length) :
    n < s.mem.data.reservations.length ∨ n ∈ s'.mem.data.outstanding := by
  cases step_data h with
  | same _ hr => exact .inl (hr ▸ hn)
  | reserve i g _ hd =>
    rw [hd, Data.reserve_reservations, List.length_append, List.length_singleton] at hn
    rcases Nat.lt_succ_iff_lt_or_eq.mp hn with hn | rfl
    · exact .inl hn
    · exact .inr (by simp [hd, Data.reserve_outstanding])
  | commit _ _ _ _ _ hd | retire _ _ hd | takeOwner _ _ hd | giveBack _ _ _ hd =>
    rw [hd] at hn
    exact .inl hn

theorem step_mem_outstanding {a : Action T R} (h : step poisons s a = some s') {n : Nat}
    (hn : n ∈ s'.mem.data.outstanding) :
    n ∈ s.mem.data.outstanding ∨ s.mem.data.reservations.length ≤ n := by
  cases step_data h with
  | same _ _ _ ho => exact .inl (ho ▸ hn)
  | reserve i g _ hd =>
    rw [hd, Data.reserve_outstanding] at hn
    rcases List.mem_append.mp hn with hn | hn
    · exact .inl hn
    · exact .inr (Nat.le_of_eq (List.mem_singleton.mp hn).symm)
  | commit _ _ _ _ _ hd | retire _ _ hd | takeOwner _ _ hd =>
    rw [hd] at hn
    exact .inl hn
  | giveBack _ _ _ hd =>
    rw [hd] at hn
    exact .inl (List.mem_of_mem_erase hn)

/-- A reservation is given back by the `remove` whose slot it holds. -/
theorem step_outstanding {a : Action T R} (h : step poisons s a = some s') {n : Nat}
    (hn : n ∈ s.mem.data.outstanding) : n ∈ s'.mem.data.outstanding ∨
      ∃ handle r, s.pcs a.thread = .removeFree handle (some r) ∧
        (s.mem.data.slots handle.index).latest = n := by
  cases step_data h with
  | same _ _ _ ho => exact .inl (ho ▸ hn)
  | reserve i g _ hd =>
    rw [hd, Data.reserve_outstanding]
    exact .inl (List.mem_append_left _ hn)
  | commit _ _ _ _ _ hd | retire _ _ hd | takeOwner _ _ hd =>
    rw [hd]
    exact .inl hn
  | giveBack handle r hpc hd =>
    by_cases hlatest : (s.mem.data.slots handle.index).latest = n
    · exact .inr ⟨handle, r, hpc, hlatest⟩
    · rw [hd]
      exact .inl ((List.mem_erase_of_ne (Ne.symm hlatest)).mpr hn)

theorem step_committed (h : step poisons s (.call t) = some s') {n : Nat}
    (ht : s'.pcs t = .committed n) : s.pcs t = .commitUnlock n := by
  cases step_move h with
  | call _ hcall =>
    simp only [Function.update_self] at ht
    subst ht
    generalize s.pcs t = pc at hcall
    cases hcall
    rfl

end DignusActor.Registry

namespace DignusActor.ActorSystem

open Machine (Reach)

variable {k : Nat} {T M F A : Type}

/-- Dispatcher `d` has not given back the slot of the actor it finalizes. -/
def State.Holding (s : State k T M F A) (d : Fin k) : Prop :=
  s.finalizers d = .start ∨
    s.finalizers d = .removing ∧ (s.registry.pcs (.worker d)).holding = true

structure Released (s : State k T M F A) : Prop where
  runners : ∀ n r, s.registry.mem.data.runners n = some r → r = n
  returned : ∀ n < s.registry.mem.data.reservations.length,
    n ∉ s.registry.mem.data.outstanding →
      ∃ actor, s.actors n = some actor ∧ 1 ≤ actor.run.mem.onKillReturns
  holding : ∀ d n actor, s.busy d = some n → s.actors n = some actor →
    actor.run.workers d = .onFinalize → s.Holding d → n ∈ s.registry.mem.data.outstanding
  removed : ∀ d n r, s.busy d = some n → s.finalizers d = .removing →
    (s.registry.pcs (.worker d)).removedRunner = some r → r = n

/-- A thread inside `remove` is that of a dispatcher in `on_finalize` of the actor of the handle. -/
structure Removing (s : State k T M F A) (d : Fin k) (n : Nat) (actor : Actor k T M F A)
    (handle : Registry.Handle) : Prop where
  busy : s.busy d = some n
  found : s.actors n = some actor
  onFinalize : actor.run.workers d = .onFinalize
  finalizer : s.finalizers d = .removing
  handle : ∃ r, s.registry.mem.data.reservations[n]? = some r ∧ r.toHandle = handle

section
variable {s : State k T M F A}

theorem Linked.removing_of_method (hl : Linked s) {u : Thread k T} {handle : Registry.Handle}
    (h : (s.registry.pcs u).method = .remove handle) :
    ∃ d n actor, u = .worker d ∧ Removing s d n actor handle := by
  cases u with
  | caller t =>
    have hin := hl.caller t
    rw [h] at hin
    generalize s.callers t = pc at hin
    cases pc with
    | requesting =>
      obtain ⟨_, hin⟩ := hin
      cases hin
    | _ => cases hin
  | worker d =>
    have hd : s.finalizers d = .removing := by
      by_contra hne
      cases h.symm.trans ((hl.worker d).rest hne)
    obtain ⟨n, actor, hbusy, ha, hw⟩ := (hl.worker d).finalizing (by simp [hd])
    obtain ⟨r, hr, hm⟩ := (hl.worker d).removing n hbusy hd
    cases hm.symm.trans h
    exact ⟨d, n, actor, rfl, hbusy, ha, hw, hd, r, hr, rfl⟩

/-- A thread that commits is in the commit of a spawn. -/
theorem Linked.committing_of_method (hl : Linked s) {u : Thread k T} {n : Nat}
    (h : (s.registry.pcs u).method = .commit n) :
    ∃ t, u = .caller t ∧ s.callers t = .committing n := by
  cases u with
  | caller t =>
    refine ⟨t, rfl, ?_⟩
    have hin := hl.caller t
    rw [h] at hin
    generalize s.callers t = pc at hin
    cases pc with
    | committing m =>
      cases hin
      rfl
    | requesting =>
      obtain ⟨_, hin⟩ := hin
      cases hin
    | _ => cases hin
  | worker d =>
    by_cases hd : s.finalizers d = .removing
    · obtain ⟨m, actor, hbusy, -⟩ := (hl.worker d).finalizing (by simp [hd])
      obtain ⟨r, -, hm⟩ := (hl.worker d).removing m hbusy hd
      cases hm.symm.trans h
    · cases ((hl.worker d).rest hd).symm.trans h

theorem Removing.index {d : Fin k} {n : Nat} {actor : Actor k T M F A} {handle : Registry.Handle}
    (h : Removing s d n actor handle) : s.registry.mem.data.indexOf n = some handle.index := by
  obtain ⟨r, hr, rfl⟩ := h.handle
  exact Registry.Data.indexOf_eq_some.mpr ⟨r, hr, rfl⟩

/-- The slot that `remove` works on holds the actor that is finalized. -/
theorem Released.latest (hrel : Released s) (hinv : Registry.Inv s.registry) {d : Fin k} {n : Nat}
    {actor : Actor k T M F A} {handle : Registry.Handle} (h : Removing s d n actor handle)
    (hpc : (s.registry.pcs (.worker d)).holding = true) :
    n ∈ s.registry.mem.data.outstanding ∧
      (s.registry.mem.data.slots handle.index).latest = n := by
  have hn := hrel.holding d n actor h.busy h.found h.onFinalize (.inr ⟨h.finalizer, hpc⟩)
  exact ⟨hn, hinv.data.latest_of_outstanding hn h.index⟩

theorem Actor.Evolves.history [DecidableEq T] {u : Thread k T} {actor actor' : Actor k T M F A}
    (h : actor.Evolves u actor') : actor.run.mem.killCalls ≤ actor'.run.mem.killCalls ∧
      actor.run.mem.onKillReturns ≤ actor'.run.mem.onKillReturns := by
  rcases h.run with h | ⟨action, h, -⟩
  · exact ⟨Nat.le_of_eq (by rw [h]), Nat.le_of_eq (by rw [h])⟩
  · exact ActorRunner.step_history h

/-- The actor that a thread finalizes has seen `on_kill` return. -/
theorem Linked.onKill_of_onFinalize (hl : Linked s) {d : Fin k} {n : Nat}
    {actor : Actor k T M F A} (ha : s.actors n = some actor)
    (hw : actor.run.workers d = .onFinalize) :
    1 ≤ actor.run.mem.killCalls ∧ 1 ≤ actor.run.mem.onKillReturns := by
  have hfin := hl.finalize n actor ha
  have hstage : (actor.run.workers d).stage = some (1, 1) := by rw [hw]; rfl
  refine ⟨hfin.killed ?_, Nat.le_of_eq (hfin.stage d _ hstage).2.symm⟩
  rw [hfin.stopped d (by simp [hstage])]
  nofun

section
variable [DecidableEq T] [DecidableEq A] {poisons : Bool} {s' : State k T M F A} {u : Thread k T}

/-- A reservation that a step gives back is that of the actor the thread finalizes. -/
theorem Released.given_back (hrel : Released s) (hl : Linked s) (hinv : Registry.Inv s.registry)
    (h : Move poisons s s' u) {n : Nat} (hn : n ∈ s.registry.mem.data.outstanding)
    (hn' : n ∉ s'.registry.mem.data.outstanding) : ∃ d actor, u = .worker d ∧
      s.actors n = some actor ∧ actor.run.workers d = .onFinalize := by
  rcases h.registry with hr | ⟨b, hr, rfl⟩
  · exact absurd (hr ▸ hn) hn'
  · obtain ⟨handle, r, hpc, rfl⟩ := (Registry.step_outstanding hr hn).resolve_left hn'
    obtain ⟨d, n, actor, hu, hrem⟩ := hl.removing_of_method (u := b.thread) (by rw [hpc]; rfl)
    rw [hu] at hpc
    have hlatest := (hrel.latest hinv hrem (by rw [hpc]; rfl)).2
    exact ⟨d, actor, hu, hlatest ▸ hrem.found, hrem.onFinalize⟩

theorem Released.returned_step (hrel : Released s) (hl : Linked s)
    (hinv : Registry.Inv s.registry) (h : Move poisons s s' u) {n : Nat}
    (hlt : n < s'.registry.mem.data.reservations.length)
    (hn' : n ∉ s'.registry.mem.data.outstanding) :
    ∃ actor, s'.actors n = some actor ∧ 1 ≤ actor.run.mem.onKillReturns := by
  have hlt : n < s.registry.mem.data.reservations.length := by
    rcases h.registry with h | ⟨b, h, -⟩
    · exact h ▸ hlt
    · exact (Registry.step_lt_length h hlt).resolve_right hn'
  have hold : ∃ actor, s.actors n = some actor ∧ 1 ≤ actor.run.mem.onKillReturns := by
    by_cases hn : n ∈ s.registry.mem.data.outstanding
    · obtain ⟨d, actor, -, ha, hw⟩ := hrel.given_back hl hinv h hn hn'
      exact ⟨actor, ha, (hl.onKill_of_onFinalize ha hw).2⟩
    · exact hrel.returned n hlt hn
  obtain ⟨actor, ha, hret⟩ := hold
  obtain ⟨actor', ha', hevolves⟩ := hl.evolves h ha
  exact ⟨actor', ha', Nat.le_trans hret hevolves.history.2⟩

/-- Another thread moves. -/
theorem Released.holding_of_ne (hrel : Released s) (hl : Linked s)
    (hinv : Registry.Inv s.registry) (h : Move poisons s s' u) {d : Fin k} (hu : u ≠ .worker d)
    (hbusy : s'.busy d = s.busy d) (hpc : s'.finalizers d = s.finalizers d) {n : Nat}
    {actor' : Actor k T M F A} (hn : s'.busy d = some n) (ha' : s'.actors n = some actor')
    (hw' : actor'.run.workers d = .onFinalize) (hh : s'.Holding d) :
    n ∈ s'.registry.mem.data.outstanding := by
  rcases hl.actor_cases h ha' with ⟨-, _, _, _, -, -, hnew⟩ | ⟨actor, ha, hevolves⟩
  · obtain ⟨-, q, -, rfl⟩ := newActor_eq_some.mp hnew
    cases hw'
  · have hw := hevolves.workers hu ▸ hw'
    have hold : s.Holding d := by
      simpa only [State.Holding, hpc, h.pcs_of_ne hu.symm] using hh
    have hn₀ := hrel.holding d n actor (hbusy ▸ hn) ha hw hold
    by_contra hn'
    -- the slot would have been given back by another thread in `on_finalize` of the same actor
    obtain ⟨d', actor₀, rfl, ha₀, hw₀⟩ := hrel.given_back hl hinv h hn₀ hn'
    cases ha₀.symm.trans ha
    refine hu (congrArg _ ((hl.finalize n actor ha).unique d' d ?_ ?_))
    · rw [hw₀]
      nofun
    · rw [hw]
      nofun

omit [DecidableEq A] in
/-- A dispatcher thread comes to `on_finalize` before its reservation is given back. -/
theorem Released.entering (hrel : Released s) (hl : Linked s) {d : Fin k} {n : Nat}
    {actor : Actor k T M F A} {run : ActorRunner.State (Fin k) T M F}
    {outcome : ActorRunner.Outcome F} (ha : s.actors n = some actor)
    (hw : actor.run.workers d ≠ .onFinalize)
    (hrun : ActorRunner.step actor.owner actor.run (.worker d outcome) = some run)
    (hw' : run.workers d = .onFinalize) : n ∈ s.registry.mem.data.outstanding := by
  have hzero := (hl.finalize n actor ha).onKillReturns_of_entering hrun hw hw'
  by_contra hn
  obtain ⟨actor₀, ha₀, hret⟩ := hrel.returned n (hl.known n actor ha) hn
  cases ha₀.symm.trans ha
  omega

theorem Released.holding_finalize (hrel : Released s) {d : Fin k} {n : Nat}
    {actor actor' : Actor k T M F A} {pc : FinalizePc A}
    (h : FinalizeMove poisons s d n actor pc s') (hbusy : s.busy d = some n)
    (ha : s.actors n = some actor) (hw : actor.run.workers d = .onFinalize)
    (hpc : s.finalizers d = pc) {m : Nat} (hm : s'.busy d = some m)
    (ha' : s'.actors m = some actor') (hw' : actor'.run.workers d = .onFinalize)
    (hh : s'.Holding d) : m ∈ s'.registry.mem.data.outstanding := by
  cases h with
  | remove hr =>
    cases hm.symm.trans hbusy
    have hn := hrel.holding d n actor hbusy ha hw (.inl hpc)
    cases Registry.step_move hr
    exact hn
  | removing hr =>
    cases hm.symm.trans hbusy
    rcases hh with hh | ⟨-, hh⟩
    · cases hh.symm.trans hpc
    · obtain ⟨hold, hout⟩ := Registry.step_call_holding hr hh
      rw [hout]
      exact hrel.holding d n actor hbusy ha hw (.inr ⟨hpc, hold⟩)
  | removed r =>
    simp only [State.Holding, State.setFinalizer, Function.update_self] at hh
    split at hh <;> simp at hh
  | removedNone | removePanic | aliasPanic | aliasRemove =>
    simp [State.Holding, State.setFinalizer] at hh
  | done => simp [State.setFinalizer] at hm
  | panicked hrun =>
    -- the thread has unwound
    cases hm.symm.trans hbusy
    simp only [State.setFinalizer, State.setActor, Function.update_self, Option.some.injEq] at ha'
    subst ha'
    simp only [ActorRunner.step, hw, ActorRunner.workerStep, Option.map_some,
      Option.some.injEq] at hrun
    subst hrun
    simp at hw'

theorem Released.holding_worker (hrel : Released s) (hl : Linked s) {d : Fin k}
    (h : WorkMove poisons s d s') {n : Nat} {actor' : Actor k T M F A}
    (hn : s'.busy d = some n) (ha' : s'.actors n = some actor')
    (hw' : actor'.run.workers d = .onFinalize) (hh : s'.Holding d) :
    n ∈ s'.registry.mem.data.outstanding := by
  cases h with
  | pick m _ ha hrun hs =>
    subst hs
    simp only [Function.update_self, Option.some.injEq] at hn
    subst hn
    simp only [State.setActor, Function.update_self, Option.some.injEq] at ha'
    subst ha'
    cases ActorRunner.step_move hrun
    simp at hw'
  | exit hbusy hs =>
    subst hs
    cases hn.symm.trans hbusy
  | execute m _ hbusy ha hw hrun _ _ hs =>
    subst hs
    cases hn.symm.trans hbusy
    simp only [State.setActor, Function.update_self, Option.some.injEq] at ha'
    subst ha'
    exact hrel.entering hl ha hw hrun hw'
  | «return» m _ _ _ _ _ _ hs =>
    subst hs
    simp at hn
  | unwind m _ hbusy ha hw hrun hdead hs =>
    subst hs
    cases hn.symm.trans hbusy
    simp only [State.setActor, Function.update_self, Option.some.injEq] at ha'
    subst ha'
    cases hw'.symm.trans hdead
  | finalize m hbusy ha hw hpc h => exact hrel.holding_finalize h hbusy ha hw hpc hn ha' hw' hh

/-- `ActorRunner::kill` has been called on actor `n`. -/
def State.Killed (s : State k T M F A) (n : Nat) : Prop :=
  ∃ actor, s.actors n = some actor ∧ 1 ≤ actor.run.mem.killCalls

theorem Linked.killed_step (hl : Linked s) (h : Move poisons s s' u) {n : Nat}
    (hn : s.Killed n) : s'.Killed n := by
  obtain ⟨actor, ha, hk⟩ := hn
  obtain ⟨actor', ha', hevolves⟩ := hl.evolves h ha
  exact ⟨actor', ha', Nat.le_trans hk hevolves.history.1⟩

omit [DecidableEq T] [DecidableEq A] in
theorem Removing.killed {d : Fin k} {n : Nat} {actor : Actor k T M F A}
    {handle : Registry.Handle} (h : Removing s d n actor handle) (hl : Linked s) : s.Killed n :=
  ⟨actor, h.found, (hl.onKill_of_onFinalize h.found h.onFinalize).1⟩

/-- The caller is about to return from a spawn. -/
def State.Returning (s : State k T M F A) (t : T) (n : Nat) : Prop :=
  s.callers t = .committing n ∧ ∃ m, s.registry.pcs (.caller t) = .commitUnlock m

omit [DecidableEq T] [DecidableEq A] in
theorem Linked.commitUnlock (hl : Linked s) {t : T} {n : Nat} (h : s.Returning t n) :
    s.registry.pcs (.caller t) = .commitUnlock n := by
  obtain ⟨hpc, m, hm⟩ := h
  have hin := hl.caller t
  rw [hpc, hm] at hin
  cases hin
  exact hm

theorem CallMove.returned {t : T} {pc : CallerPc k M A} (h : CallMove poisons s t pc s') :
    s'.returned = s.returned ∨ ∃ n m, pc = .committing n ∧ s'.returned = s.returned ++ [n] ∧
      s.registry.pcs (.caller t) = .commitUnlock m := by
  cases h with
  | committed n m hr hpcs => exact .inr ⟨n, m, rfl, rfl, Registry.step_committed hr hpcs⟩
  | _ => exact .inl rfl

/-- The spawns that had returned stay in front. -/
theorem Move.returned (h : Move poisons s s' u) : ∃ l, s'.returned = s.returned ++ l ∧
    ∀ n ∈ l, ∃ t, u = .caller t ∧ s.Returning t n := by
  cases h with
  | caller t hpc h =>
    rcases h.returned with hret | ⟨n, m, rfl, hret, hm⟩
    · exact ⟨[], by rw [hret, List.append_nil], nofun⟩
    · refine ⟨[n], hret, fun n' hn => ⟨t, rfl, ?_, m, hm⟩⟩
      rw [hpc, List.mem_singleton.mp hn]
  | worker d h => exact ⟨[], by rw [h.sameCalls.returned, List.append_nil], nofun⟩

/-- A runner is stored by a commit. -/
theorem Move.runners (h : Move poisons s s' u) {n : Nat}
    (hn : s'.registry.mem.data.runners n ≠ none) : s.registry.mem.data.runners n ≠ none ∨
      ∃ r i, s.registry.pcs u = .commitStore n r ∧ s.registry.mem.data.indexOf n = some i ∧
        s'.registry.mem.data = s.registry.mem.data.commit n i r := by
  rcases h.registry with hr | ⟨b, hr, rfl⟩
  · exact .inl (hr ▸ hn)
  · cases Registry.step_data hr with
    | same _ _ hrun => exact .inl (hrun ▸ hn)
    | commit m r i hpc hi hd =>
      by_cases hnm : n = m
      · subst hnm
        exact .inr ⟨r, i, hpc, hi, hd⟩
      · rw [hd, Registry.Data.commit_runners_of_ne hnm] at hn
        exact .inl hn
    | reserve _ _ _ hd | retire _ _ hd | takeOwner _ _ hd | giveBack _ _ _ hd =>
      rw [hd] at hn
      exact .inl hn

theorem Move.runners_mono (h : Move poisons s s' u) (hinv : Registry.Inv s.registry) {n : Nat}
    (hn : s.registry.mem.data.runners n ≠ none) : s'.registry.mem.data.runners n ≠ none := by
  obtain ⟨r, hr⟩ := Option.ne_none_iff_exists'.mp hn
  rw [(h.grows hinv).runners n r hr]
  nofun

theorem Released.runners_step (hrel : Released s) (hl : Linked s) (h : Move poisons s s' u)
    {n r : Nat} (hn : s'.registry.mem.data.runners n = some r) : r = n := by
  rcases h.registry with h | ⟨b, h, -⟩
  · exact hrel.runners n r (h ▸ hn)
  · cases Registry.step_data h with
    | same _ _ hr => exact hrel.runners n r (hr ▸ hn)
    | commit m r' i hpc _ hd =>
      rw [hd] at hn
      by_cases hnm : n = m
      · subst hnm
        simp only [Registry.Data.commit, Function.update_self, Option.some.injEq] at hn
        subst hn
        exact hl.own _ n r' (.inr hpc)
      · exact hrel.runners n r ((Registry.Data.commit_runners_of_ne hnm).symm.trans hn)
    | reserve _ _ _ hd | retire _ _ hd | takeOwner _ _ hd | giveBack _ _ _ hd =>
      rw [hd] at hn
      exact hrel.runners n r hn

omit [DecidableEq T] [DecidableEq A] in
/-- What `remove` takes from the slot is the actor that is finalized. -/
theorem Released.owner (hrel : Released s) (hl : Linked s) (hinv : Registry.Inv s.registry)
    {d : Fin k} {handle : Registry.Handle} {n r : Nat} (hbusy : s.busy d = some n)
    (hpc : s.registry.pcs (.worker d) = .removeTake handle)
    (ho : (s.registry.mem.data.slots handle.index).owner = some r) : r = n := by
  have hmethod : (s.registry.pcs (.worker d)).method = .remove handle := by
    rw [hpc]
    rfl
  obtain ⟨d', n', actor, hd, hrem⟩ := hl.removing_of_method hmethod
  cases hd
  cases hrem.busy.symm.trans hbusy
  obtain ⟨-, hlatest⟩ := hrel.latest hinv hrem (by rw [hpc]; rfl)
  obtain ⟨-, -, hr⟩ := hinv.data.owner _ r ho
  exact hrel.runners n r (hlatest ▸ hr)

/-- The owner of a slot stays until its finalization takes it. -/
theorem Released.owner_step (hrel : Released s) (hl : Linked s) (hinv : Registry.Inv s.registry)
    (h : Move poisons s s' u) {i n : Nat} (ho : (s.registry.mem.data.slots i).owner = some n) :
    (s'.registry.mem.data.slots i).owner = some n ∨ s.Killed n := by
  rcases h.registry with hr | ⟨b, hr, rfl⟩
  · exact .inl (hr ▸ ho)
  · cases Registry.step_data hr with
    | same hslots => exact .inl (hslots ▸ ho)
    | reserve j g _ hd =>
      rw [hd]
      by_cases hij : i = j
      · subst hij
        rw [Registry.Data.reserve_slots_self]
        exact .inl ho
      · rw [Registry.Data.reserve_slots_of_ne hij]
        exact .inl ho
    | commit m r j hpc hj hd =>
      rw [hd]
      have hpending := (hinv.thread b.thread).pending m (by rw [hpc]; rfl)
      have hij : i ≠ j := fun hij => by cases ho.symm.trans (hij ▸ hpending.owner j hj)
      rw [Registry.Data.commit_slots_of_ne hij]
      exact .inl ho
    | retire handle _ hd =>
      rw [hd, Registry.Data.retire_owner]
      exact .inl ho
    | takeOwner handle hpc hd =>
      by_cases hi : i = handle.index
      · subst hi
        obtain ⟨d, m, actor, hu, hrem⟩ := hl.removing_of_method (u := b.thread) (by rw [hpc]; rfl)
        rw [hu] at hpc
        cases hrel.owner hl hinv hrem.busy hpc ho
        exact .inr (hrem.killed hl)
      · rw [hd, Registry.Data.takeOwner_slots_of_ne hi]
        exact .inl ho
    | giveBack _ _ _ hd => exact .inl (hd ▸ ho)

theorem Released.removed_worker (hrel : Released s) (hl : Linked s)
    (hinv : Registry.Inv s.registry) {d : Fin k} (h : WorkMove poisons s d s') {n r : Nat}
    (hn : s'.busy d = some n) (hd : s'.finalizers d = .removing)
    (hr : (s'.registry.pcs (.worker d)).removedRunner = some r) : r = n := by
  have hidle (hd : s.finalizers d = .removing) (hne : ∀ m actor, s.busy d = some m →
      s.actors m = some actor → actor.run.workers d ≠ .onFinalize) : False := by
    cases hd.symm.trans ((hl.worker d).start hne)
  cases h with
  | pick m hbusy _ _ hs | exit hbusy hs =>
    subst hs
    exact (hidle hd (by simp [hbusy])).elim
  | execute m _ hbusy ha hw _ _ _ hs | «return» m _ hbusy ha hw _ _ hs
  | unwind m _ hbusy ha hw _ _ hs =>
    subst hs
    refine (hidle hd fun m' actor hm ha' => ?_).elim
    cases hm.symm.trans hbusy
    cases ha'.symm.trans ha
    exact hw
  | finalize m hbusy ha hw hpc h =>
    cases h with
    | remove hstep =>
      cases Registry.step_move hstep
      simp [State.setFinalizer, Registry.State.setPc, Registry.Pc.removedRunner] at hr
    | removing hstep =>
      rcases Registry.step_call_removedRunner hstep hr with hr | ⟨handle, hpc', ho⟩
      · exact hrel.removed d n r hn hd hr
      · exact hrel.owner hl hinv hn hpc' ho
    | removed =>
      simp only [State.setFinalizer, Function.update_self] at hd
      split at hd <;> cases hd
    | _ => simp [State.setFinalizer] at hd

theorem Released.step (hrel : Released s) (hl : Linked s) (hinv : Registry.Inv s.registry)
    (h : Move poisons s s' u) : Released s' where
  runners _ _ := hrel.runners_step hl h
  returned _ := hrel.returned_step hl hinv h
  holding d n actor hn ha hw hh := by
    cases h with
    | caller t hpc h =>
      exact hrel.holding_of_ne hl hinv (.caller t hpc h) nofun (congrFun h.workers.1 d)
        (congrFun h.workers.2 d) hn ha hw hh
    | worker d' h =>
      by_cases hd : d = d'
      · subst hd
        exact hrel.holding_worker hl h hn ha hw hh
      · obtain ⟨hbusy, hpc⟩ := h.of_ne hd
        exact hrel.holding_of_ne hl hinv (.worker d' h)
          (fun heq => hd (Thread.worker.inj heq).symm) hbusy hpc hn ha hw hh
  removed d n r hn hd hr := by
    cases h with
    | caller t hpc h =>
      rw [(Move.caller t hpc h).pcs_of_ne (v := .worker d) nofun] at hr
      exact hrel.removed d n r (h.workers.1 ▸ hn) (h.workers.2 ▸ hd) hr
    | worker d' h =>
      by_cases hdd : d = d'
      · subst hdd
        exact hrel.removed_worker hl hinv h hn hd hr
      · rw [(Move.worker d' h).pcs_of_ne fun heq => hdd (Thread.worker.inj heq)] at hr
        obtain ⟨hbusy, hpc⟩ := h.of_ne hdd
        exact hrel.removed d n r (hbusy ▸ hn) (hpc ▸ hd) hr

end

end

theorem released_of_reach [DecidableEq T] [DecidableEq A] {poisons : Bool} {capacity : Nat}
    {s : State k T M F A} {ok : State k T M F A → Action k T M F A → Prop}
    (h : Reach (machine k T M F A poisons capacity) ok s) : Released s := by
  refine h.inv_of (fun s => Linked s ∧ Registry.Inv s.registry) Released
    (fun h => ⟨linked_of_reach h, registry_inv h⟩) ?_
    fun ⟨hl, hinv⟩ hrel _ hs => hrel.step hl hinv (step_move hs)
  rintro _ rfl
  exact ⟨fun _ _ => nofun, fun _ => nofun, fun _ _ _ => nofun, fun _ _ _ => nofun⟩

end DignusActor.ActorSystem
