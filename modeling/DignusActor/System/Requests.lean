import DignusActor.Machine.Rank
import DignusActor.System.Aliases
import DignusActor.System.Callers
import DignusActor.System.Waiting

/-! # Requests through a handle that was looked up

A name can be looked up before the runner is stored: a `post` or `kill` through the handle then
finds the generation that it expects and no owner, and is dropped (`dropped_beforeCommit`). Where no
request reads the owner of a slot whose reservation is not committed, a request reaches the actor
of the handle as long as nobody has killed it (`reached_of_noEarlyRead`): it takes at most six steps
of its own (`Pc.lookupWork`), and can take the next one unless another thread has the mutex of the
slot's owner. -/

namespace DignusActor.Registry

variable {T R : Type} [DecidableEq T] {poisons : Bool} {s s' : State T R} {t : T}

/-- A lookup comes to nothing where the generation is another one, or there is no owner. -/
theorem step_missed {a : Action T R} (h : step poisons s a = some s') {lookup : Lookup}
    (ht : s'.pcs t = .lookupUnlock lookup none) : s.pcs t = .lookupUnlock lookup none ∨
      s.pcs t = .lookupRecheck lookup ∧
        (s.mem.data.slots lookup.index).generation ≠ lookup.generation ∨
      t = a.thread ∧ s.pcs t = .lookupClone lookup ∧
        (s.mem.data.slots lookup.index).owner = none := by
  by_cases hta : t = a.thread
  · cases step_move h with
    | call u hcall =>
      cases hta
      simp only [Action.thread, Function.update_self] at ht ⊢
      generalize s.pcs u = pc at hcall
      cases hcall with
      | recheckStale _ hg =>
        cases ht
        exact .inr (.inl ⟨rfl, hg⟩)
      | lookupClone lookup' =>
        simp only [Pc.lookupUnlock.injEq] at ht
        obtain ⟨rfl, ho⟩ := ht
        exact .inr (.inr ⟨trivial, rfl, ho⟩)
      | _ => cases ht
    | _ =>
      cases hta
      simp [State.setPc, Action.thread] at ht
  · rw [step_pcs_of_ne h hta] at ht
    exact .inl ht

theorem step_found {a : Action T R} (h : step poisons s a = some s') {lookup : Lookup} {r : R}
    (ht : (s'.pcs t).found = some (lookup, r)) : (s.pcs t).found = some (lookup, r) ∨
      t = a.thread ∧ s.pcs t = .lookupClone lookup ∧
        (s.mem.data.slots lookup.index).owner = some r := by
  by_cases hta : t = a.thread
  · cases step_move h with
    | call u hcall =>
      cases hta
      simp only [Action.thread, Function.update_self] at ht ⊢
      generalize s.pcs u = pc at hcall
      cases hcall with
      | lookupSome => exact .inl ht
      | lookupClone lookup' =>
        cases ho : (s.mem.data.slots lookup'.index).owner with
        | none =>
          rw [ho] at ht
          cases ht
        | some r' =>
          rw [ho] at ht
          cases ht
          exact .inr ⟨trivial, rfl, ho⟩
      | _ => cases ht
    | _ =>
      cases hta
      simp [State.setPc, Action.thread, Pc.found] at ht
  · rw [step_pcs_of_ne h hta] at ht
    exact .inl ht

/-- The steps that a `post` or `kill` has yet to take in the registry. -/
def Pc.lookupWork : Pc R → Nat
  | .lookupLoad _ => 6
  | .lookupLock _ => 5
  | .lookupRecheck _ => 4
  | .lookupClone _ => 3
  | .lookupUnlock .. => 2
  | .deliver .. => 1
  | _ => 0

/-- A `post` or `kill` goes on, unless another thread has the mutex of the owner. -/
theorem lookup_call {lookup : Lookup} (hlookup : (s.pcs t).lookup = some lookup) :
    s.pcs t = .lookupLock lookup ∧ s.mem.owners lookup.index ≠ none ∨
      ∃ s', step poisons s (.call t) = some s' := by
  by_cases hwait : s.pcs t = .lookupLock lookup ∧ s.mem.owners lookup.index ≠ none
  · exact .inl hwait
  · refine .inr (Option.isSome_iff_exists.mp ?_)
    simp only [step, Option.isSome_map]
    generalize s.pcs t = pc at hlookup hwait
    cases pc with
    | lookupLoad | lookupRecheck =>
      simp only [callStep]
      repeat' split
      all_goals rfl
    | lookupLock lookup' =>
      cases hlookup
      have hfree : s.mem.owners lookup.index = none := by simpa using hwait
      simp [callStep, Mem.lockOwner, hfree]
    | lookupClone | lookupUnlock | deliver => rfl
    | _ => cases hlookup

end DignusActor.Registry

namespace DignusActor.ActorSystem

open Machine (Reach)

variable {k : Nat} {T M F A : Type}

namespace State

variable (s : State k T M F A)

/-- The slot of reservation `n` is its own, and holds the runner once that is committed. -/
structure Present (n i : Nat) : Prop where
  odd : (s.registry.mem.data.slots i).Odd
  latest : (s.registry.mem.data.slots i).latest = n
  owner : s.registry.mem.data.runners n ≠ none →
    (s.registry.mem.data.slots i).owner = some n

/-- Thread `u` is about to read the owner of a slot whose reservation is not committed. -/
def readsEarly (u : Thread k T) : Bool :=
  match s.registry.pcs u with
  | .lookupClone lookup =>
    (s.registry.mem.data.slots lookup.index).owner.isNone &&
      (s.registry.mem.data.runners (s.registry.mem.data.slots lookup.index).latest).isNone
  | _ => false

/-- Caller `t` is in a request through the handle, which it began when there were at least `began`
reservations. -/
def Requests (t : T) (request : Request M) (handle : Registry.Handle) (began : Nat) : Prop :=
  s.callers t = .requesting request ∧ ∃ lookup,
    (s.registry.pcs (.caller t)).lookup = some lookup ∧ lookup.toHandle = handle ∧
      began ≤ lookup.began

/-- The steps of its own that the request of caller `t` has yet to take. -/
def requestWork (t : T) : Nat := (s.registry.pcs (.caller t)).lookupWork

end State

/-- The action is the next step of a call by caller `t`. -/
def Action.isCall [DecidableEq T] (t : T) : Action k T M F A → Bool
  | .call u _ => decide (u = t)
  | _ => false

/-- Caller `t` hands its request over to actor `n`: `ActorRunner::kill`, or `enqueue_only`. -/
structure HandsOver [DecidableEq T] (t : T) (request : Request M) (n : Nat)
    (s s' : State k T M F A) : Prop where
  callers : s'.callers t = .inRunner n
  called : ∃ actor run, s.actors n = some actor ∧
    ActorRunner.step actor.owner actor.run (request.action t) = some run ∧
    s'.actors n = some { actor with run }

/-- The step is not the read of a request that comes before the commit. -/
def NoEarlyRead (s : State k T M F A) (a : Action k T M F A) : Prop :=
  s.readsEarly a.thread = false

instance (s : State k T M F A) (a : Action k T M F A) : Decidable (NoEarlyRead s a) :=
  inferInstanceAs (Decidable (_ = _))

structure RequestInv (s : State k T M F A) : Prop where
  present : ∀ n i, s.registry.mem.data.indexOf n = some i → s.Killed n ∨ s.Present n i
  missed : ∀ u lookup n, s.registry.pcs u = .lookupUnlock lookup none →
    n < lookup.began → s.HandleOf n lookup.toHandle → s.Killed n
  found : ∀ u lookup r n, (s.registry.pcs u).found = some (lookup, r) →
    n < lookup.began → s.HandleOf n lookup.toHandle → r = n ∨ s.Killed n

section
variable {s s' : State k T M F A} {u : Thread k T} {t : T} {n i : Nat}

theorem State.HandleOf.indexOf {handle : Registry.Handle} (h : s.HandleOf n handle) :
    s.registry.mem.data.indexOf n = some handle.index := by
  obtain ⟨r, hr, rfl⟩ := h
  exact Registry.Data.indexOf_eq_some.mpr ⟨r, hr, rfl⟩

/-- A request has at least one and at most six steps to take. -/
theorem State.Requests.work_bounds {request : Request M} {handle : Registry.Handle} {began : Nat}
    (h : s.Requests t request handle began) : 1 ≤ s.requestWork t ∧ s.requestWork t ≤ 6 := by
  obtain ⟨-, lookup, hlookup, -⟩ := h
  unfold State.requestWork
  generalize s.registry.pcs (.caller t) = pc at hlookup
  cases pc <;> first | (cases hlookup; done) | simp [Registry.Pc.lookupWork]

theorem State.Present.generation {handle : Registry.Handle} (hinv : Registry.Inv s.registry)
    (hp : s.Present n handle.index) (h : s.HandleOf n handle) :
    (s.registry.mem.data.slots handle.index).generation = handle.generation := by
  obtain ⟨r, hr, rfl⟩ := h
  exact hinv.data.generation_latest hr hp.odd hp.latest

variable [DecidableEq T] [DecidableEq A] {poisons : Bool}

/-- The slot of an actor that is not killed stays as it is. -/
theorem State.Present.step (hp : s.Present n i) (hrel : Released s) (hl : Linked s)
    (hinv : Registry.Inv s.registry) (hi : s.registry.mem.data.indexOf n = some i)
    (h : Move poisons s s' u) : s.Killed n ∨ s'.Present n i := by
  rcases h.registry with hr | ⟨b, hr, rfl⟩
  · exact .inr ⟨hr ▸ hp.odd, hr ▸ hp.latest, hr ▸ hp.owner⟩
  · cases Registry.step_data hr with
    | same hslots _ hrun _ =>
      refine .inr ⟨hslots ▸ hp.odd, hslots ▸ hp.latest, ?_⟩
      rw [hslots, hrun]
      exact hp.owner
    | reserve j g hpc hd =>
      have hclear := ((hinv.thread b.thread).popped j (by rw [hpc]; rfl)).toClear
      have hij : i ≠ j := by
        rintro rfl
        exact hp.odd.not_even hclear.even
      have hslot : s'.registry.mem.data.slots i = s.registry.mem.data.slots i := by
        rw [hd, Registry.Data.reserve_slots_of_ne hij]
      refine .inr ⟨hslot ▸ hp.odd, hslot ▸ hp.latest, ?_⟩
      rw [hslot, hd]
      exact hp.owner
    | commit m r j hpc hj hd =>
      have hpending := (hinv.thread b.thread).pending m (by rw [hpc]; rfl)
      by_cases hij : i = j
      · subst hij
        obtain rfl : m = n := by
          rw [← hp.latest, hinv.data.latest_of_outstanding hpending.outstanding hj]
        obtain rfl : r = m := hl.own _ m r (.inr hpc)
        refine .inr ⟨?_, ?_, fun _ => ?_⟩ <;> rw [hd]
        · exact Registry.Data.commit_odd.mpr hp.odd
        · rw [Registry.Data.commit_latest]
          exact hp.latest
        · rw [Registry.Data.commit_slots_self]
      · have hnm : n ≠ m := by
          rintro rfl
          exact hij (Option.some.inj (hi.symm.trans hj))
        refine .inr ⟨?_, ?_, ?_⟩ <;> rw [hd]
        · exact Registry.Data.commit_odd.mpr hp.odd
        · rw [Registry.Data.commit_latest]
          exact hp.latest
        · rw [Registry.Data.commit_slots_of_ne hij, Registry.Data.commit_runners_of_ne hnm]
          exact hp.owner
    | retire handle hpc hd =>
      by_cases hih : i = handle.index
      · subst hih
        obtain ⟨d, m, actor, hu, hrem⟩ := hl.removing_of_method (u := b.thread) (by rw [hpc]; rfl)
        rw [hu] at hpc
        have hlatest := (hrel.latest hinv hrem (by rw [hpc]; rfl)).2
        rw [hp.latest] at hlatest
        subst hlatest
        exact .inl (hrem.killed hl)
      · refine .inr ⟨?_, ?_, ?_⟩ <;> rw [hd, Registry.Data.retire_slots_of_ne hih]
        · exact hp.odd
        · exact hp.latest
        · exact hp.owner
    | takeOwner handle hpc hd =>
      have hih : i ≠ handle.index := by
        rintro rfl
        exact hp.odd.not_even ((hinv.thread b.thread).retired handle (by rw [hpc]; rfl))
      refine .inr ⟨?_, ?_, ?_⟩ <;> rw [hd, Registry.Data.takeOwner_slots_of_ne hih]
      · exact hp.odd
      · exact hp.latest
      · exact hp.owner
    | giveBack _ _ _ hd =>
      refine .inr ⟨?_, ?_, ?_⟩ <;> rw [hd]
      · exact hp.odd
      · exact hp.latest
      · exact hp.owner

/-- A new reservation has its slot to itself. -/
theorem State.present_new (hinv : Registry.Inv s.registry) (h : Move poisons s s' u)
    (hle : s.registry.mem.data.reservations.length ≤ n)
    (hi : s'.registry.mem.data.indexOf n = some i) : s'.Present n i := by
  have hlt := Registry.Data.indexOf_lt hi
  rcases h.registry with hr | ⟨b, hr, rfl⟩
  · rw [hr] at hlt
    exact absurd hlt (Nat.not_lt.mpr hle)
  · cases Registry.step_data hr with
    | reserve j g hpc hd =>
      have hthread := hinv.thread b.thread
      have heven := (hthread.popped j (by rw [hpc]; rfl)).even
      have hg := hthread.generation j g hpc
      have hlen : n = s.registry.mem.data.reservations.length := by
        rw [hd, Registry.Data.reserve_reservations, List.length_append,
          List.length_singleton] at hlt
        omega
      subst hlen
      rw [hd, Registry.Data.reserve_indexOf_new, Option.some.injEq] at hi
      subst hi
      refine ⟨?_, ?_, fun hrun => ?_⟩
      · rw [hd, Registry.Data.reserve_slots_self, hg, heven, Registry.wrappingSucc_even]
        exact ⟨Nat.le_add_left 1 _, rfl⟩
      · rw [hd, Registry.Data.reserve_slots_self]
      · rw [hd] at hrun
        exact absurd (hinv.data.runners _ (Nat.le_refl _)) hrun
    | same _ hres =>
      rw [hres] at hlt
      exact absurd hlt (Nat.not_lt.mpr hle)
    | commit _ _ _ _ _ hd | retire _ _ hd | takeOwner _ _ hd | giveBack _ _ _ hd =>
      rw [hd] at hlt
      exact absurd hlt (Nat.not_lt.mpr hle)

theorem Move.handleOf_back (h : Move poisons s s' u) (hinv : Registry.Inv s.registry)
    {handle : Registry.Handle} (hlt : n < s.registry.mem.data.reservations.length)
    (hn : s'.HandleOf n handle) : s.HandleOf n handle := by
  obtain ⟨r, hr, heq⟩ := hn
  have hold := (h.grows hinv).old n _ (List.getElem?_eq_getElem hlt)
  cases hold.symm.trans hr
  exact ⟨_, List.getElem?_eq_getElem hlt, heq⟩

namespace RequestInv

theorem step_present (hri : RequestInv s) (hrel : Released s) (hl : Linked s)
    (hinv : Registry.Inv s.registry) (h : Move poisons s s' u)
    (hi : s'.registry.mem.data.indexOf n = some i) : s'.Killed n ∨ s'.Present n i := by
  by_cases hlt : n < s.registry.mem.data.reservations.length
  · rw [(h.grows hinv).indexOf hlt] at hi
    rcases hri.present n i hi with hk | hp
    · exact .inl (hl.killed_step h hk)
    · exact (hp.step hrel hl hinv hi h).imp_left (hl.killed_step h)
  · exact .inr (State.present_new hinv h (Nat.le_of_not_lt hlt) hi)

omit [DecidableEq T] [DecidableEq A] in
/-- What the read of the owner says of an actor that the lookup can be for. -/
theorem read (hri : RequestInv s) (hrel : Released s) (hinv : Registry.Inv s.registry)
    {lookup : Registry.Lookup} (hn : s.HandleOf n lookup.toHandle)
    (hpc : s.registry.pcs u = .lookupClone lookup) (hearly : s.readsEarly u = false) :
    s.Killed n ∨ (s.registry.mem.data.slots lookup.index).owner = some n := by
  refine (hri.present n _ hn.indexOf).imp_right fun hp => ?_
  cases ho : (s.registry.mem.data.slots lookup.index).owner with
  | none =>
    simp only [State.readsEarly, hpc, ho, hp.latest, Option.isNone_none, Bool.true_and,
      Option.isNone_eq_false_iff, Option.isSome_iff_ne_none] at hearly
    exact ho.symm.trans (hp.owner hearly)
  | some r =>
    obtain ⟨-, -, hr⟩ := hinv.data.owner _ r ho
    rw [hp.latest] at hr
    rw [hrel.runners n r hr]

theorem step_missed (hri : RequestInv s) (hrel : Released s) (hl : Linked s)
    (hinv : Registry.Inv s.registry) (hlookups : Registry.Lookups s.registry)
    (h : Move poisons s s' u) (hearly : s.readsEarly u = false) {v : Thread k T}
    {lookup : Registry.Lookup} (hv : s'.registry.pcs v = .lookupUnlock lookup none)
    (hlt : n < lookup.began) (hn : s'.HandleOf n lookup.toHandle) : s'.Killed n := by
  refine hl.killed_step h ?_
  have hback (hlookup : (s.registry.pcs v).lookup = some lookup) :
      s.HandleOf n lookup.toHandle :=
    h.handleOf_back hinv (Nat.lt_of_lt_of_le hlt (hlookups.began v lookup hlookup)) hn
  rcases h.registry with hr | ⟨b, hr, rfl⟩
  · rw [hr] at hv
    exact hri.missed v lookup n hv hlt (hback (by rw [hv]; rfl))
  · rcases Registry.step_missed hr hv with hv | ⟨hv, hg⟩ | ⟨rfl, hv, ho⟩
    · exact hri.missed v lookup n hv hlt (hback (by rw [hv]; rfl))
    · have hn := hback (by rw [hv]; rfl)
      refine (hri.present n _ hn.indexOf).resolve_right fun hp => ?_
      exact hg (hp.generation hinv hn)
    · refine (hri.read hrel hinv (hback (by rw [hv]; rfl)) hv hearly).resolve_right fun ho' => ?_
      cases ho.symm.trans ho'

theorem step_found (hri : RequestInv s) (hrel : Released s) (hl : Linked s)
    (hinv : Registry.Inv s.registry) (hlookups : Registry.Lookups s.registry)
    (h : Move poisons s s' u) (hearly : s.readsEarly u = false) {v : Thread k T}
    {lookup : Registry.Lookup} {r : Nat} (hv : (s'.registry.pcs v).found = some (lookup, r))
    (hlt : n < lookup.began) (hn : s'.HandleOf n lookup.toHandle) : r = n ∨ s'.Killed n := by
  have hback (hlookup : (s.registry.pcs v).lookup = some lookup) :
      s.HandleOf n lookup.toHandle :=
    h.handleOf_back hinv (Nat.lt_of_lt_of_le hlt (hlookups.began v lookup hlookup)) hn
  have hold (hv : (s.registry.pcs v).found = some (lookup, r)) : r = n ∨ s'.Killed n :=
    (hri.found v lookup r n hv hlt (hback (Registry.Pc.lookup_of_found hv))).imp_right
      (hl.killed_step h)
  rcases h.registry with hr | ⟨b, hr, rfl⟩
  · exact hold (hr ▸ hv)
  · rcases Registry.step_found hr hv with hv | ⟨rfl, hv, ho⟩
    · exact hold hv
    · rcases hri.read hrel hinv (hback (by rw [hv]; rfl)) hv hearly with hk | ho'
      · exact .inr (hl.killed_step h hk)
      · exact .inl (Option.some.inj (ho.symm.trans ho'))

theorem step (hri : RequestInv s) (hrel : Released s) (hl : Linked s)
    (hinv : Registry.Inv s.registry) (hlookups : Registry.Lookups s.registry)
    (h : Move poisons s s' u) (hearly : s.readsEarly u = false) : RequestInv s' where
  present _ _ := hri.step_present hrel hl hinv h
  missed _ _ _ := hri.step_missed hrel hl hinv hlookups h hearly
  found _ _ _ _ := hri.step_found hrel hl hinv hlookups h hearly

end RequestInv

/-- A request through the handle of an actor that is not killed goes on, or reaches the actor. -/
theorem RequestInv.request (hri : RequestInv s) (hinv : Registry.Inv s.registry)
    (hbounded : s.registry.mem.data.Bounded) {pc : CallerPc k M A} {request : Request M}
    {handle : Registry.Handle} {began : Nat}
    (h : CallMove poisons s t pc s') (hpc : s.callers t = pc)
    (hreq : s.Requests t request handle began) (hlt : n < began) (hn : s.HandleOf n handle)
    (hk : ¬s.Killed n) :
    s'.Requests t request handle began ∧ s'.requestWork t < s.requestWork t ∨
      HandsOver t request n s s' := by
  have hp := (hri.present n _ hn.indexOf).resolve_left hk
  obtain ⟨hreq, lookup, hlookup, rfl, hbegan⟩ := hreq
  have hlt := Nat.lt_of_lt_of_le hlt hbegan
  cases hpc.symm.trans hreq
  cases h with
  | beginSpawn _ h | beginShutdown _ _ h | beginLookup _ h | beginRequest _ _ h
  | beginWake _ _ _ h => cases h
  | requesting _ hr hne hidle =>
    cases Registry.step_move hr with
    | call _ hcall =>
      simp only [State.Requests, State.requestWork, Function.update_self] at hidle ⊢
      generalize s.registry.pcs (.caller t) = rp at hcall hlookup
      cases hcall with
      | lookupLoad | lookupLock | recheckStale | lookupRecheck | lookupClone | lookupSome =>
        cases hlookup
        exact .inl ⟨⟨hpc, _, rfl, rfl, hbegan⟩, by simp [Registry.Pc.lookupWork]⟩
      | lookupPast | lookupStale | lookupNone | deliver => exact absurd rfl hidle
      | _ => cases hlookup
  | requestDropped _ hr hne hidle =>
    cases Registry.step_move hr with
    | call _ hcall =>
      simp only [Function.update_self] at hidle
      generalize hrp : s.registry.pcs (.caller t) = rp at hcall hlookup hne
      cases hcall with
      | lookupPast _ hcap =>
        cases hlookup
        obtain ⟨r, hr, hhandle⟩ := hn
        have hidx := hbounded.lt hr
        rw [hhandle] at hidx
        exact absurd hcap (Nat.not_le.mpr hidx)
      | lookupStale _ hg =>
        cases hlookup
        exact absurd (hp.generation hinv hn) hg
      | lookupNone =>
        cases hlookup
        exact absurd (hri.missed _ lookup n hrp hlt hn) hk
      | deliver lookup' m => exact absurd rfl (hne lookup' m)
      | _ => cases hidle
  | deliver _ lookup' m hdeliver hr ha hrun =>
    rw [hdeliver] at hlookup
    cases hlookup
    obtain rfl : m = n := (hri.found _ lookup m n (by rw [hdeliver]; rfl) hlt hn).resolve_right hk
    exact .inr ⟨Function.update_self .., _, _, ha, hrun, Function.update_self ..⟩

/-- The others leave a request as it is. -/
theorem Move.requests (h : Move poisons s s' u) (hu : u ≠ .caller t) {request : Request M}
    {handle : Registry.Handle} {began : Nat} (hreq : s.Requests t request handle began) :
    s'.Requests t request handle began ∧ s'.requestWork t = s.requestWork t := by
  rw [State.Requests, State.requestWork, h.callers_of_ne hu, h.pcs_of_ne (Ne.symm hu)]
  exact ⟨hreq, rfl⟩

/-- A caller that is in a request can take the step that its registry can. -/
theorem requesting_isSome {request : Request M} (hpc : s.callers t = .requesting request)
    {registry : Registry.State (Thread k T) Nat}
    (hr : Registry.step poisons s.registry (.call (.caller t)) = some registry)
    (hdeliver : ∀ lookup n, s.registry.pcs (.caller t) = .deliver lookup n →
      ∃ actor, s.actors n = some actor ∧ actor.run.callers t = .idle) (expired : Bool) :
    (ActorSystem.step poisons s (.call t expired)).isSome = true := by
  simp only [ActorSystem.step, hpc, spawnStep, shutdownStep, Option.none_or, requestStep]
  split
  · rename_i lookup n hd
    obtain ⟨actor, ha, hidle⟩ := hdeliver lookup n hd
    cases request <;>
      simp [State.inRegistry, hr, State.inActor, ha, ActorRunner.step, ActorRunner.State.call,
        hidle]
  · simp [State.inRegistry, hr]

end

section
variable [DecidableEq T] [DecidableEq A] {poisons : Bool} {capacity : Nat} {s : State k T M F A}

theorem requestInv_of_reach (h : Reach (machine k T M F A poisons capacity) NoEarlyRead s) :
    RequestInv s := by
  refine h.inv_of
    (fun s => Released s ∧ Linked s ∧ Registry.Inv s.registry ∧ Registry.Lookups s.registry)
    RequestInv
    (fun h => ⟨released_of_reach h, linked_of_reach h, registry_inv h,
      (Registry.traced_of_reach (registry_reach h)).1⟩) ?_
    fun ⟨hrel, hl, hinv, hlookups⟩ hri hok hs => hri.step hrel hl hinv hlookups (step_move hs) hok
  rintro _ rfl
  exact ⟨fun _ _ => nofun, fun _ _ _ => nofun, fun _ _ _ _ => nofun⟩

/-- A step of a run in which a request goes on, or reaches the actor, unless the actor has been
killed. -/
theorem request_step {request : Request M} {handle : Registry.Handle} {began n : Nat} {t : T}
    {a : Action k T M F A} {s' : State k T M F A}
    (h : Reach (machine k T M F A poisons capacity) NoEarlyRead s)
    (hreq : s.Requests t request handle began) (hlt : n < began) (hn : s.HandleOf n handle)
    (hk : ¬s.Killed n) (hs : step poisons s a = some s') :
    HandsOver t request n s s' ∨ s'.Requests t request handle began ∧
      s'.requestWork t + (if a.isCall t then 1 else 0) ≤ s.requestWork t := by
  have hmove := step_move hs
  by_cases ha : a.thread = .caller t
  · rw [ha] at hmove
    cases hmove with
    | caller _ hpc hcall =>
      rcases (requestInv_of_reach h).request (registry_inv h)
        (Registry.bounded_of_reach (registry_reach h)) hcall hpc hreq hlt hn hk with
        ⟨hreq', hwork⟩ | hover
      · refine .inr ⟨hreq', ?_⟩
        split <;> omega
      · exact .inl hover
  · have hcall : a.isCall t = false := by
      cases a with
      | call u => simpa [Action.isCall, Action.thread] using ha
      | _ => rfl
    obtain ⟨hreq', hwork⟩ := hmove.requests ha hreq
    exact .inr ⟨hreq', by simp [hcall, hwork]⟩

/-- The next step of a request, unless another thread has the mutex of the owner; that one can take
a step. -/
theorem request_next {request : Request M} {handle : Registry.Handle} {began n : Nat} {t : T}
    {actorAlias : A} (h : Reach (machine k T M F A poisons capacity) NoEarlyRead s)
    (hreq : s.Requests t request handle began) (hlt : n < began) (hn : s.HandleOf n handle)
    (halias : s.HasAlias n actorAlias) (hk : ¬s.Killed n) :
    (∃ u, u ≠ .caller t ∧ s.registry.mem.owners handle.index = some u ∧
      ∃ a s', Action.thread a = u ∧ step poisons s a = some s') ∨
    ∀ expired, (step poisons s (.call t expired)).isSome = true := by
  obtain ⟨hpc, lookup, hlookup, rfl, hbegan⟩ := hreq
  have hcall : s.registry.pcs (.caller t) = .lookupLock lookup ∧
      s.registry.mem.owners lookup.index ≠ none ∨
        ∃ registry, Registry.step poisons s.registry (.call (.caller t)) = some registry :=
    Registry.lookup_call hlookup
  rcases hcall with ⟨hlock, howner⟩ | ⟨registry, hr⟩
  · left
    obtain ⟨u, hu⟩ := Option.ne_none_iff_exists'.mp howner
    have hin := (Registry.held_of_reach (registry_reach h)).owner _ u hu
    obtain ⟨registry, hr⟩ :
        ∃ registry, Registry.step poisons s.registry (.call u) = some registry :=
      Registry.step_call_isSome (.inr (.inl ⟨_, hin⟩)) (Registry.State.waitsFor_of_inOwner hin)
    refine ⟨u, ?_, hu, (linked_of_reach h).exists_step hr (.inr (.inl ⟨_, hin⟩))⟩
    rintro rfl
    rw [hlock] at hin
    cases hin
  · refine .inr (requesting_isSome hpc hr fun lookup' m hdeliver => ?_)
    rw [hdeliver] at hlookup
    cases hlookup
    obtain ⟨actor, ha, -⟩ := halias
    obtain rfl : m = n := ((requestInv_of_reach h).found _ lookup m n (by rw [hdeliver]; rfl)
      (Nat.lt_of_lt_of_le hlt hbegan) hn).resolve_right hk
    exact ⟨actor, ha, (callersSeated_of_reach h).idle ha (by simp [hpc, CallerPc.runner])⟩

/-- In every run in which no request reads the owner of a slot before the commit: a lookup by alias
returns the handle of an actor with that alias, and from then on, as long as `ActorRunner::kill` has
not been called on the actor, a request through the handle can take its next step unless another
thread has the mutex of the owner, each of its steps goes on or hands the request over to the actor,
and six of them, whatever the others do in between, hand it over. -/
theorem reached_of_noEarlyRead {s₀ s₁ : State k T M F A} {u : T} {expired : Bool} {actorAlias : A}
    {handle : Registry.Handle}
    (h : Reach (machine k T M F A poisons capacity) NoEarlyRead s₀)
    (hpc : s₀.callers u = .aliasLookup actorAlias)
    (hstep : step poisons s₀ (.call u expired) = some s₁)
    (hret : s₁.callers u = .lookedUp (some handle)) :
    ∃ n, s₁.HasAlias n actorAlias ∧ s₁.HandleOf n handle ∧
      ∀ as s, (machine k T M F A poisons capacity).RunOk NoEarlyRead s₁ as →
        (machine k T M F A poisons capacity).run s₁ as = some s →
        ∀ t request, s.Requests t request handle s₁.registry.mem.data.reservations.length →
          ¬s.Killed n →
          ((∃ v, v ≠ .caller t ∧ s.registry.mem.owners handle.index = some v ∧
              ∃ a s', Action.thread a = v ∧ step poisons s a = some s') ∨
            ∀ expired, (step poisons s (.call t expired)).isSome = true) ∧
          (∀ expired s', step poisons s (.call t expired) = some s' →
            s'.Requests t request handle s₁.registry.mem.data.reservations.length ∨
              HandsOver t request n s s') ∧
          ∀ bs s', (machine k T M F A poisons capacity).RunOk NoEarlyRead s bs →
            (machine k T M F A poisons capacity).run s bs = some s' →
            6 ≤ bs.countP (·.isCall t) →
            (machine k T M F A poisons capacity).Takes
              (fun s₂ _ s₃ => HandsOver t request n s₂ s₃ ∨ s₃.Killed n) s bs := by
  have hok : NoEarlyRead s₀ (.call u expired) := by
    have hin := (linked_of_reach h).caller u
    rw [hpc] at hin
    simp only [NoEarlyRead, State.readsEarly, Action.thread]
    generalize s₀.registry.pcs (.caller u) = rp at hin
    cases rp <;> first | rfl | cases hin
  have hfound : ∃ n, s₀.HasAlias n actorAlias ∧ s₀.HandleOf n handle := by
    cases step_move hstep with
    | caller _ hpc' hmove =>
      cases hpc'.symm.trans hpc
      cases hmove with
      | beginSpawn _ h | beginShutdown _ _ h | beginLookup _ h | beginRequest _ _ h
      | beginWake _ _ _ h => cases h
      | lookupPanic => simp [State.setCaller] at hret
      | lookup _ hp =>
        simp only [State.setCaller, Function.update_self, CallerPc.lookedUp.injEq] at hret
        obtain ⟨n, -, halias, hhandle⟩ := (aliasInv_of_reach h hp).found actorAlias handle hret
        exact ⟨n, halias, hhandle⟩
  obtain ⟨n, halias, hhandle⟩ := hfound
  have hn₁ := (step_move hstep).handleOf (registry_inv h) hhandle
  have halias₁ := (linked_of_reach h).hasAlias_step (step_move hstep) halias
  have hlt : n < s₁.registry.mem.data.reservations.length := Registry.Data.indexOf_lt hn₁.indexOf
  refine ⟨n, halias₁, hn₁, ?_⟩
  intro as s hoks hrun t request hreq hk
  have h₁ : Reach (machine k T M F A poisons capacity) NoEarlyRead s₁ := .step h hok hstep
  have hreach := h₁.run hoks hrun
  have hn : s.HandleOf n handle := h₁.keeps hoks hrun (State.HandleOf · n handle) hn₁
    fun h hn hs => (step_move hs).handleOf (registry_inv h) hn
  have halias : s.HasAlias n actorAlias :=
    h₁.keeps hoks hrun (State.HasAlias · n actorAlias) halias₁
      fun h hn hs => (linked_of_reach h).hasAlias_step (step_move hs) hn
  refine ⟨request_next hreach hreq hlt hn halias hk, fun expired s' hs => ?_, ?_⟩
  · exact (request_step hreach hreq hlt hn hk hs).symm.imp_left And.left
  · intro bs s' hokb hrunb hcount
    -- until it is handed over, each step of its own leaves the request one step less
    have htakes := Machine.run_takes (·.isCall t)
      (fun s => Reach (machine k T M F A poisons capacity) NoEarlyRead s ∧
        s.Requests t request handle s₁.registry.mem.data.reservations.length ∧
        s.HandleOf n handle ∧ ¬s.Killed n)
      (fun s₂ _ s₃ => HandsOver t request n s₂ s₃ ∨ s₃.Killed n) (·.requestWork t) ?_
      ⟨hreach, hreq, hn, hk⟩ hokb hrunb
    · refine htakes.resolve_right ?_
      rintro ⟨⟨-, hreq', -⟩, hle⟩
      have hpos := hreq'.work_bounds.1
      have hwork := hreq.work_bounds.2
      omega
    · rintro s a s' ⟨h, hreq, hn, hk⟩ hok hs
      by_cases hk' : s'.Killed n
      · exact .inl (.inr hk')
      · rcases request_step h hreq hlt hn hk hs with hover | ⟨hreq', hwork⟩
        · exact .inl (.inl hover)
        · exact .inr ⟨⟨h.step hok hs, hreq', (step_move hs).handleOf (registry_inv h) hn, hk'⟩,
            hwork⟩

/-- Thread 0 has spawned an actor with an alias, and thread 1 is about to look it up. -/
def lookupPending : State 1 Nat Nat Nat Nat :=
  ((machine 1 Nat Nat Nat Nat true 4).run (withCapacity 1 Nat Nat Nat Nat 4)
    ([Action.spawn 0 ⟨none, some 7, 2, true⟩] ++ List.replicate 13 (Action.call 0 false) ++
      [Action.lookup 1 7])).get rfl

/-- Thread 1 has the handle. -/
def lookedUpAfter : State 1 Nat Nat Nat Nat :=
  (step true lookupPending (.call 1 false)).get rfl

/-- Threads 1 and 2 begin a `post` and a `kill` through the handle. -/
def requested : State 1 Nat Nat Nat Nat :=
  ((machine 1 Nat Nat Nat Nat true 4).run lookedUpAfter
    [Action.request 1 (.post 5) ⟨0, 1⟩, Action.request 2 .kill ⟨0, 1⟩]).get rfl

/-- Both have taken six steps, thread 2 behind thread 1 for the mutex of the owner. -/
def handedOver : State 1 Nat Nat Nat Nat :=
  ((machine 1 Nat Nat Nat Nat true 4).run requested
    (List.replicate 5 (Action.call 1 false) ++ List.replicate 6 (Action.call 2 false) ++
      [Action.call 1 false])).get rfl

theorem reached_of_noEarlyRead_handedOver :
    handedOver.callers 1 = .inRunner 0 ∧ handedOver.callers 2 = .inRunner 0 ∧
      ∃ n, lookedUpAfter.HasAlias n 7 ∧ ∀ t request,
        (t = 1 ∧ request = .post 5 ∨ t = 2 ∧ request = .kill) →
        (machine 1 Nat Nat Nat Nat true 4).Takes
          (fun s _ s' => HandsOver t request n s s' ∨ s'.Killed n) requested
          (List.replicate 5 (Action.call 1 false) ++ List.replicate 6 (Action.call 2 false) ++
            [Action.call 1 false]) := by
  have hreach : Reach (machine 1 Nat Nat Nat Nat true 4) NoEarlyRead lookupPending :=
    .get rfl (by decide) rfl
  have hstep : step true lookupPending (.call 1 false) = some lookedUpAfter :=
    (Option.some_get rfl).symm
  have hret : lookedUpAfter.callers 1 = .lookedUp (some ⟨0, 1⟩) := rfl
  obtain ⟨n, halias, hhandle, hreq⟩ := reached_of_noEarlyRead hreach rfl hstep hret
  refine ⟨rfl, rfl, n, halias, fun t request ht => ?_⟩
  have hkilled : ¬requested.Killed n := by
    have hn : n = 0 := by
      obtain ⟨r, hr, -⟩ := hhandle
      have hlen : lookedUpAfter.registry.mem.data.reservations.length = 1 := rfl
      have := (List.getElem?_eq_some_iff.mp hr).1
      omega
    subst hn
    have hcalls : (requested.actors 0).map (fun actor => actor.run.mem.killCalls) = some 0 := rfl
    rintro ⟨actor, ha, hkill⟩
    rw [ha] at hcalls
    have hnone : actor.run.mem.killCalls = 0 := Option.some.inj hcalls
    omega
  rcases ht with ⟨rfl, rfl⟩ | ⟨rfl, rfl⟩
  · exact (hreq _ requested (by decide) (Option.some_get rfl).symm 1 _
      ⟨rfl, _, rfl, rfl, Nat.le_refl _⟩ hkilled).2.2 _ handedOver (by decide)
      (Option.some_get rfl).symm (by decide)
  · exact (hreq _ requested (by decide) (Option.some_get rfl).symm 2 _
      ⟨rfl, _, rfl, rfl, Nat.le_refl _⟩ hkilled).2.2 _ handedOver (by decide)
      (Option.some_get rfl).symm (by decide)

/-- Thread 0 has inserted the alias and has not come to the commit, when thread 1 looks it up. -/
def lookedUpEarly : State 1 Nat Nat Nat Nat :=
  ((machine 1 Nat Nat Nat Nat true 4).run (withCapacity 1 Nat Nat Nat Nat 4)
    ([Action.spawn 0 ⟨none, some 7, 2, true⟩] ++ List.replicate 10 (Action.call 0 false) ++
      [Action.lookup 1 7, Action.call 1 false])).get rfl

/-- Thread 1 kills the actor through the handle, and then the spawn returns. -/
def dropped : State 1 Nat Nat Nat Nat :=
  ((machine 1 Nat Nat Nat Nat true 4).run lookedUpEarly
    ([Action.request 1 .kill ⟨0, 1⟩] ++ List.replicate 5 (Action.call 1 false) ++
      List.replicate 3 (Action.call 0 false))).get rfl

/-- The kill has returned and no runner has seen it: the actor runs. -/
theorem dropped_beforeCommit :
    Reach (machine 1 Nat Nat Nat Nat true 4) Machine.free dropped ∧
      lookedUpEarly.callers 1 = .lookedUp (some ⟨0, 1⟩) ∧ dropped.callers 1 = .idle ∧
      dropped.callers 0 = .spawned 0 ∧ dropped.registry.mem.calls = [] ∧
      (dropped.actors 0).map (fun actor =>
        (actor.run.mem.lifecycle, actor.run.mem.killCalls)) = some (.running, 0) ∧
      ¬dropped.Killed 0 := by
  have hactor : (dropped.actors 0).map (fun actor =>
      (actor.run.mem.lifecycle, actor.run.mem.killCalls)) = some (.running, 0) := rfl
  refine ⟨.run (.get_free rfl rfl) (.of_forall (fun _ _ _ => trivial) _) (Option.some_get rfl).symm,
    rfl, rfl, rfl, rfl, hactor, ?_⟩
  rintro ⟨actor, ha, hkill⟩
  simp only [ha, Option.map_some, Option.some.injEq, Prod.mk.injEq] at hactor
  omega

end

end DignusActor.ActorSystem
