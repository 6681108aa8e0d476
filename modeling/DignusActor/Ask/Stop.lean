import DignusActor.Ask.Sweep

/-! # Stopping the ask system

`stop` sets `is_stopped`, waits for the sweeper to end and goes over the table once. A `register`
that has read `is_stopped` before writes its slot whenever it comes to it: behind the drain nobody
times its awaiter out (`notReleased_lateRegister`). As long as no registration writes a slot that
the drain has passed, an ask system that has stopped has released every asker whose slot was not
taken over (`released_of_onTime`). -/

namespace DignusActor.Ask

open Machine (Reach)

variable {T M W : Type} [DecidableEq T]

/-! ## Who will time an awaiter out -/

/-- The thread is in `stop`, past its swap, and has yet to look at slot `j`. -/
def CallerPc.WillDrain : CallerPc M → Nat → Prop
  | .stopNotify, _ | .stopJoin, _ => True
  | .stopSlot i, j => i ≤ j
  | .stopUpgrade i _, j | .stopTimeout i _, j | .stopDrop i _, j => i < j
  | _, _ => False

/-- The thread has taken awaiter `a` out of the table and will time it out. -/
def CallerPc.Holds : CallerPc M → Nat → Prop
  | .stopUpgrade _ entry, a => a = entry.askAwaiter
  | .stopTimeout _ b, a => a = b
  | _, _ => False

/-- The thread is in `register`. -/
def CallerPc.Registering : CallerPc M → Prop
  | .registerStopped .. | .registerClock .. | .reserveSlot _ => True
  | _ => False

/-- The thread is where `stop` waits for the sweeper. -/
def CallerPc.Joining (pc : CallerPc M) : Prop := pc = .stopNotify ∨ pc = .stopJoin

namespace State

/-- Slot `j` has not been passed by the drain of `stop`. -/
def ToDrain (s : State T M W) (j : Nat) : Prop :=
  s.isStopped = true → ∃ x, (s.callers x).WillDrain j

/-- Another registration has written to the slot of awaiter `a` after its own. -/
def TakenOver (s : State T M W) (a : Nat) (w : Awaiter M W) : Prop :=
  ∃ before b after v, s.registered = before ++ b :: after ∧ a ∈ before ∧ b ≠ a ∧
    s.awaiters b = some v ∧ s.startIndex v.address = s.startIndex w.address

/-- Every live awaiter that was handed out and kept its slot is completed. -/
def Released (s : State T M W) : Prop :=
  ∀ a ∈ s.registered, ∀ w, s.awaiters a = some w → w.alive = true → ¬s.TakenOver a w →
    w.completed = true

/-- Somebody will time awaiter `a` out once the system is stopped. -/
def Kept (s : State T M W) (a : Nat) (w : Awaiter M W) : Prop :=
  s.InTable a w ∧ s.ToDrain (s.startIndex w.address) ∨ s.sweeper.Holds a ∨
    ∃ x, (s.callers x).Holds a

/-- The invariant of the runs in which no registration comes behind the drain. -/
structure StopInv (s : State T M W) : Prop where
  slotCount : 0 < s.slotCount
  reserving : ∀ x a, s.callers x = .reserveSlot a → a < s.allocated
  allocated : ∀ a ∈ s.registered, a < s.allocated
  known : ∀ a ∈ s.registered, (s.awaiters a).isSome = true
  joined : s.isStopped = true → (∃ x, (s.callers x).Joining) ∨ s.sweeper = .exited
  kept : ∀ a ∈ s.registered, ∀ w, s.Pending a w → ¬s.TakenOver a w → s.Kept a w

end State

/-- A registration does not write a slot that the drain of `stop` has passed. -/
def OnTime (s : State T M W) : Action T M W → Prop
  | .call x => ∀ a w, s.callers x = .reserveSlot a → s.awaiters a = some w →
    s.ToDrain (s.startIndex w.address)
  | _ => True

section

variable {s t : State T M W} {act : Action T M W} {x : T}

theorem CallerPc.WillDrain.stopping {pc : CallerPc M} {j : Nat} (h : pc.WillDrain j) :
    pc.Stopping := by
  cases pc <;> trivial

theorem CallerPc.Holds.stopping {pc : CallerPc M} {a : Nat} (h : pc.Holds a) : pc.Stopping := by
  cases pc <;> trivial

theorem CallerPc.Joining.stopping {pc : CallerPc M} (h : pc.Joining) : pc.Stopping := by
  rcases h with rfl | rfl <;> trivial

/-! ## The steps outside `stop` -/

/-- A step that the threads in `stop` do not notice, but for the table. -/
structure State.Aside (s t : State T M W) : Prop where
  isStopped : t.isStopped = s.isStopped
  callers : ∀ y, (s.callers y).Stopping → t.callers y = s.callers y
  exited : s.sweeper = .exited → t.sweeper = .exited
  known : ∀ a, (s.awaiters a).isSome = true → (t.awaiters a).isSome = true

omit [DecidableEq T] in
theorem State.modify_known (s : State T M W) (a : Nat) (f : Awaiter M W → Awaiter M W) {b : Nat}
    (hb : (s.awaiters b).isSome = true) : ((s.modify a f).awaiters b).isSome = true := by
  rw [State.modify_eq]
  by_cases hba : b = a
  · subst hba
    simpa using hb
  · simpa [hba] using hb

theorem State.setCaller_aside {u : State T M W} {pc : CallerPc M}
    (hstop : ¬(s.callers x).Stopping) (ht : t.callers = (u.setCaller x pc).callers)
    (hu : u.callers = s.callers) (hstopped : t.isStopped = s.isStopped)
    (hsweeper : t.sweeper = s.sweeper)
    (hknown : ∀ a, (s.awaiters a).isSome = true → (t.awaiters a).isSome = true) : s.Aside t where
  isStopped := hstopped
  callers y hy := by
    have hne : y ≠ x := by
      rintro rfl
      exact hstop hy
    rw [ht, ← hu]
    exact Function.update_of_ne hne ..
  exited h := hsweeper.trans h
  known := hknown

theorem State.modify_aside {a : Nat} {f : Awaiter M W → Awaiter M W} {pc : CallerPc M}
    (hstop : ¬(s.callers x).Stopping) : s.Aside ((s.modify a f).setCaller x pc) := by
  refine State.setCaller_aside hstop rfl ?_ ?_ ?_ fun b hb => s.modify_known a f hb <;>
    simp only [State.setCaller, State.modify_eq]

theorem callerStep_aside (h : callerStep s x = some t) (hstop : ¬(s.callers x).Stopping) :
    s.Aside t := by
  unfold callerStep at h
  cases hpc : s.callers x with
  | idle | panicked => simp [hpc] at h
  | registerStopped =>
    simp only [hpc, Option.some.injEq] at h
    subst h
    exact State.setCaller_aside hstop rfl rfl rfl rfl fun _ => id
  | registerClock =>
    simp only [hpc, Option.some.injEq] at h
    subst h
    refine State.setCaller_aside hstop rfl rfl rfl rfl fun a ha => ?_
    simp only [State.setCaller, State.setAwaiter, Function.update_apply]
    split
    · rfl
    · exact ha
  | reserveSlot a =>
    simp only [hpc, Option.map_eq_some_iff] at h
    obtain ⟨w, -, rfl⟩ := h
    exact State.setCaller_aside hstop rfl rfl rfl rfl fun _ => id
  | replyUpgrade a message =>
    simp only [hpc] at h
    split at h <;> cases h
    · exact State.modify_aside hstop
    · exact State.setCaller_aside hstop rfl rfl rfl rfl fun _ => id
  | setResponse a message | replyDrop a =>
    simp only [hpc, Option.some.injEq] at h
    subst h
    exact State.modify_aside hstop
  | stopSwap | stopNotify | stopJoin | stopSlot | stopUpgrade | stopTimeout | stopDrop =>
    exact absurd (hpc ▸ trivial) hstop

theorem State.begin_eq {pc : CallerPc M} (h : s.begin x pc = some t) :
    s.callers x = .idle ∧ t = s.setCaller x pc := by
  unfold State.begin at h
  split at h <;> cases h
  exact ⟨‹_›, rfl⟩

theorem State.begin_aside {pc : CallerPc M} (h : s.begin x pc = some t) : s.Aside t := by
  obtain ⟨hidle, rfl⟩ := State.begin_eq h
  exact State.setCaller_aside (by rw [hidle]; exact id) rfl rfl rfl rfl fun _ => id

omit [DecidableEq T] in
theorem sweeperStep_aside (h : sweeperStep s = some t) : s.Aside t := by
  have hexited : s.sweeper ≠ .exited := by
    intro hpc
    simp [sweeperStep, hpc] at h
  have hmodify (a : Nat) (f : Awaiter M W → Awaiter M W) (pc : SweeperPc) :
      s.Aside { s.modify a f with sweeper := pc } := by
    refine ⟨?_, fun y _ => ?_, fun hpc => absurd hpc hexited, fun b hb => s.modify_known a f hb⟩ <;>
      simp only [State.modify_eq]
  cases sweeperStep_sweep h with
  | between _ _ _ _ h | readClock _ h | skip _ _ _ _ _ _ _ _ h | take _ _ _ _ _ _ _ h
  | scanned _ _ _ _ _ _ h | gone _ _ _ _ _ _ _ h | finish _ _ _ h =>
    subst h
    exact ⟨rfl, fun _ _ => rfl, fun hpc => absurd hpc hexited, fun _ => id⟩
  | upgrade _ _ _ _ _ _ h | timeout _ _ _ _ _ h | drop _ _ _ _ _ h =>
    subst h
    exact hmodify _ _ _

theorem step_aside {willWake : W → W → Bool} (h : step willWake s act = some t)
    (hstop : ∀ x, act = .call x → ¬(s.callers x).Stopping) : s.Aside t := by
  have hset (a : Nat) (w : Awaiter M W) : s.Aside (s.setAwaiter a w) := by
    refine ⟨rfl, fun _ _ => rfl, id, fun b hb => ?_⟩
    simp only [State.setAwaiter, Function.update_apply]
    split
    · rfl
    · exact hb
  cases act with
  | register | stop => exact State.begin_aside h
  | reply x a message =>
    simp only [step] at h
    split at h
    · exact State.begin_aside h
    · cases h
  | call x => exact callerStep_aside h (hstop x rfl)
  | sweep => exact sweeperStep_aside h
  | poll a waker | drop a =>
    simp only [step] at h
    split at h
    · split at h <;> cases h
      exact hset a _
    · cases h
  | tick =>
    cases h
    exact ⟨rfl, fun _ _ => rfl, id, fun _ => id⟩

/-! ## The awaiters that keep their slot -/

omit [DecidableEq T] in
/-- An awaiter whose slot has not been taken over after a step was not taken over before. -/
theorem State.StopInv.not_takenOver (hinv : s.StopInv) {a : Nat} {w w' : Awaiter M W}
    (hlater : s.Later t) (hknown : ∀ a, (s.awaiters a).isSome = true → (t.awaiters a).isSome = true)
    (hcount : t.slotCount = s.slotCount) (hpre : s.registered <+: t.registered) (hle : w.Le w')
    (h : ¬t.TakenOver a w') : ¬s.TakenOver a w := by
  rintro ⟨before, b, after, v, hreg, hmem, hne, hv, hslot⟩
  obtain ⟨rest, hrest⟩ := hpre
  have hb : b ∈ s.registered := by simp [hreg]
  obtain ⟨v', hv'⟩ := Option.isSome_iff_exists.mp (hknown b (hinv.known b hb))
  obtain ⟨v₀, hv₀, hle₀⟩ := hlater b (hinv.allocated b hb) v' hv'
  cases hv₀.symm.trans hv
  refine h ⟨before, b, after ++ rest, v', ?_, hmem, hne, hv', ?_⟩
  · simp [← hrest, hreg]
  · simpa only [State.startIndex, hcount, hle.address, hle₀.address] using hslot

omit [DecidableEq T] in
/-- The sweeper takes an awaiter out of the table only to time it out. -/
theorem State.Sweep.kept (h : s.Sweep t) {b : Nat} {v v' : Awaiter M W} (hv : s.Pending b v)
    (hv' : t.Pending b v') :
    (s.InTable b v → t.InTable b v ∨ t.sweeper.Holds b) ∧
      (s.sweeper.Holds b → t.sweeper.Holds b) := by
  cases h with
  | between pc hnow hpc hnow' h =>
    subst h
    refine ⟨.inl, fun hheld => ?_⟩
    cases hs : s.sweeper <;> simp_all [SweeperPc.Holds, SweeperPc.now]
  | readClock hpc h | skip _ _ _ _ _ hpc _ _ h | scanned _ _ _ _ hpc _ h =>
    subst h
    rw [hpc]
    first | exact ⟨.inl, id⟩ | exact ⟨.inl, False.elim⟩
  | take now i expired nd entry hpc hslot h =>
    subst h
    rw [hpc]
    refine ⟨fun htable => ?_, .inl⟩
    by_cases hi : s.startIndex v.address = i
    · rw [State.InTable, hi, hslot] at htable
      cases htable
      exact .inr (.inr rfl)
    · exact .inl ((Function.update_of_ne hi ..).trans htable)
  | upgrade now i expired nd entry hpc h =>
    rw [State.modify_eq] at h
    subst h
    rw [hpc]
    refine ⟨.inl, fun hheld => ?_⟩
    rcases hheld with hheld | hheld
    · exact List.mem_append_left _ hheld
    · exact List.mem_append_right _ (List.mem_singleton.mpr hheld)
  | gone now i expired nd entry hpc hgone h =>
    subst h
    rw [hpc]
    refine ⟨.inl, fun hheld => hheld.resolve_right fun heq => ?_⟩
    cases hgone.symm.trans (heq ▸ hv.upgradable)
  | timeout now a expired nd hpc h =>
    have hne : b ≠ a := hv.ne_of_setTimeout hv' (h ▸ rfl)
    rw [State.modify_eq] at h
    subst h
    rw [hpc]
    exact ⟨.inl, fun hheld => (List.mem_cons.mp hheld).resolve_left hne⟩
  | drop now a expired nd hpc h =>
    rw [State.modify_eq] at h
    subst h
    rw [hpc]
    exact ⟨.inl, id⟩
  | finish now nd hpc h =>
    subst h
    rw [hpc]
    exact ⟨.inl, fun hheld => absurd hheld List.not_mem_nil⟩

omit [DecidableEq T] in
theorem State.Aside.toDrain (h : s.Aside t) {j : Nat} (hj : s.ToDrain j) : t.ToDrain j := by
  intro hstopped
  obtain ⟨y, hy⟩ := hj (h.isStopped ▸ hstopped)
  exact ⟨y, (h.callers y hy.stopping).symm ▸ hy⟩

omit [DecidableEq T] in
theorem State.Kept.of_le {b : Nat} {v v' : Awaiter M W} (h : s.Kept b v) (hle : v.Le v') :
    s.Kept b v' := by
  unfold State.Kept State.InTable at *
  rwa [hle.address, hle.deadline]

/-- A step outside `stop` that is on time. -/
theorem State.Follows.kept (hf : s.Follows act t) (ha : s.Aside t)
    (hok : OnTime s act) {b : Nat} (hb : b ∈ t.registered) {v v' : Awaiter M W}
    (hv : s.Pending b v) (hv' : t.Pending b v') (hle : v.Le v') (htaken : ¬t.TakenOver b v')
    (hs : b ∈ s.registered → s.Kept b v) : t.Kept b v := by
  -- what a thread in `stop` has taken, it keeps
  have hheld (h : ∃ y, (s.callers y).Holds b) : ∃ y, (t.callers y).Holds b := by
    obtain ⟨y, hy⟩ := h
    exact ⟨y, (ha.callers y hy.stopping).symm ▸ hy⟩
  cases hf.move with
  | quiet h =>
    have hindex : t.startIndex v.address = s.startIndex v.address := by
      simp only [State.startIndex, h.slotCount]
    rcases hs (h.registered ▸ hb) with ⟨htable, hdrain⟩ | hsweep | hcaller
    · rw [State.Kept, State.InTable, hindex, h.slots]
      exact .inl ⟨htable, ha.toDrain hdrain⟩
    · exact .inr (.inl (h.sweeper ▸ hsweep))
    · exact .inr (.inr (hheld hcaller))
  | reserve x a w hact hpc hw ht =>
    subst hact
    have hdrain := hok a w hpc hw
    have hindex (address : Nat) : t.startIndex address = s.startIndex address := by
      subst ht
      rfl
    rw [State.Kept, State.InTable, hindex]
    by_cases hba : b = a
    · subst hba
      cases hw.symm.trans hv.awaiter
      refine .inl ⟨?_, ha.toDrain hdrain⟩
      subst ht
      exact Function.update_self ..
    · have hmem : b ∈ s.registered := by
        subst ht
        simpa [hba] using hb
      -- a registration that does not take the slot over writes to another one
      have hne : s.startIndex v.address ≠ s.startIndex w.address := by
        intro heq
        refine htaken ⟨s.registered, a, [], w, ht ▸ rfl, hmem, Ne.symm hba, ht ▸ hw, ?_⟩
        rw [hindex, hindex, hle.address, heq]
      rcases hs hmem with ⟨htable, hdrain⟩ | hsweep | hcaller
      · refine .inl ⟨?_, ha.toDrain hdrain⟩
        subst ht
        exact (Function.update_of_ne hne ..).trans htable
      · exact .inr (.inl (ht ▸ hsweep))
      · exact .inr (.inr (hheld hcaller))
  | sweep h =>
    have hsame := h.sameCalls
    have hindex : t.startIndex v.address = s.startIndex v.address := by
      simp only [State.startIndex, hsame.slotCount]
    obtain ⟨hk, hk'⟩ := h.kept hv hv'
    rcases hs (hsame.registered ▸ hb) with ⟨htable, hdrain⟩ | hsweep | hcaller
    · rcases hk htable with hk | hk
      · exact .inl ⟨hk, hindex ▸ ha.toDrain hdrain⟩
      · exact .inr (.inl hk)
    · exact .inr (.inl (hk' hsweep))
    · exact .inr (.inr (hheld hcaller))

/-! ## The steps of `stop` -/

/-- A thread in `stop` goes on to `pc` and leaves the table alone. -/
theorem State.Kept.setCaller {b : Nat} {v : Awaiter M W} (h : s.Kept b v) {pc : CallerPc M}
    (hslots : t.slots = s.slots) (hcount : t.slotCount = s.slotCount)
    (hsweeper : t.sweeper = s.sweeper) (hcallers : t.callers = (s.setCaller x pc).callers)
    (hstopped : t.isStopped = s.isStopped ∨ pc.WillDrain (s.startIndex v.address))
    (hdrain : s.InTable b v → (s.callers x).WillDrain (s.startIndex v.address) →
      pc.WillDrain (s.startIndex v.address))
    (hheld : (s.callers x).Holds b → pc.Holds b) : t.Kept b v := by
  have hindex : t.startIndex v.address = s.startIndex v.address := by
    simp only [State.startIndex, hcount]
  have hx : t.callers x = pc := by
    rw [hcallers]
    exact Function.update_self ..
  have hne (y : T) (hy : y ≠ x) : t.callers y = s.callers y := by
    rw [hcallers]
    exact Function.update_of_ne hy ..
  rw [State.Kept, State.InTable, hindex, hslots, hsweeper]
  rcases h with ⟨htable, htodo⟩ | hsweep | ⟨y, hy⟩
  · refine .inl ⟨htable, fun hst => ?_⟩
    rcases hstopped with h | h
    · obtain ⟨y, hy⟩ := htodo (h ▸ hst)
      by_cases hyx : y = x
      · subst hyx
        exact ⟨y, hx.symm ▸ hdrain htable hy⟩
      · exact ⟨y, (hne y hyx).symm ▸ hy⟩
    · exact ⟨x, hx.symm ▸ h⟩
  · exact .inr (.inl hsweep)
  · refine .inr (.inr ⟨y, ?_⟩)
    by_cases hyx : y = x
    · subst hyx
      exact hx.symm ▸ hheld hy
    · exact (hne y hyx).symm ▸ hy

theorem State.StopMove.kept (h : s.StopMove x t) (hcount : 0 < s.slotCount) {b : Nat}
    {v v' : Awaiter M W} (hv : s.Pending b v) (hv' : t.Pending b v') (hk : s.Kept b v) :
    t.Kept b v := by
  have hlt := s.startIndex_lt hcount v.address
  cases h with
  | swap hpc hst ht =>
    subst ht
    exact hk.setCaller rfl rfl rfl rfl (.inr trivial) (fun _ _ => trivial)
      (by rw [hpc]; exact False.elim)
  | stopped hpc hst ht =>
    subst ht
    exact hk.setCaller rfl rfl rfl rfl (.inl rfl) (by rw [hpc]; exact fun _ => id)
      (by rw [hpc]; exact id)
  | notify hpc ht =>
    subst ht
    exact hk.setCaller rfl rfl rfl rfl (.inl rfl) (fun _ _ => trivial) (by rw [hpc]; exact id)
  | join hpc _ ht =>
    subst ht
    exact hk.setCaller rfl rfl rfl rfl (.inl rfl) (fun _ _ => Nat.zero_le _)
      (by rw [hpc]; exact id)
  | skip i hpc hi hslot ht =>
    subst ht
    refine hk.setCaller rfl rfl rfl rfl (.inl rfl) (fun htable hj => ?_) (by rw [hpc]; exact id)
    rw [hpc] at hj
    refine Nat.lt_of_le_of_ne hj fun heq => ?_
    rw [State.InTable, ← heq, hslot] at htable
    cases htable
  | drained i hpc hi ht =>
    subst ht
    refine hk.setCaller rfl rfl rfl rfl (.inl rfl) (fun _ hj => ?_) (by rw [hpc]; exact id)
    rw [hpc] at hj
    exact absurd (Nat.lt_of_le_of_lt hj hlt) (Nat.not_lt_of_le hi)
  | take i entry hpc hslot ht =>
    by_cases hi : s.startIndex v.address = i ∧ s.InTable b v
    · -- the awaiter leaves the table into the hands of the thread
      obtain ⟨hi, htable⟩ := hi
      rw [State.InTable, hi, hslot] at htable
      cases htable
      refine .inr (.inr ⟨x, ?_⟩)
      subst ht
      simp [State.setCaller, CallerPc.Holds]
    · have hk' : (s.setSlot i none).Kept b v := by
        rcases hk with ⟨htable, htodo⟩ | hk
        · refine .inl ⟨?_, htodo⟩
          exact (Function.update_of_ne (fun heq => hi ⟨heq, htable⟩) ..).trans htable
        · exact .inr hk
      subst ht
      refine hk'.setCaller rfl rfl rfl rfl (.inl rfl) (fun htable hj => ?_)
        (by change (s.callers x).Holds b → _; rw [hpc]; exact False.elim)
      change (s.callers x).WillDrain _ at hj
      rw [hpc] at hj
      refine Nat.lt_of_le_of_ne hj fun heq => ?_
      rw [State.InTable, ← heq] at htable
      simp [State.setSlot] at htable
  | upgrade i entry hpc ht =>
    rw [State.modify_eq] at ht
    subst ht
    refine hk.setCaller rfl rfl rfl rfl (.inl rfl) ?_ ?_ <;> rw [hpc]
    · exact fun _ => id
    · exact id
  | gone i entry hpc hgone ht =>
    subst ht
    refine hk.setCaller rfl rfl rfl rfl (.inl rfl) ?_ ?_ <;> rw [hpc]
    · exact fun _ hj => hj
    · intro heq
      cases hgone.symm.trans (heq ▸ hv.upgradable)
  | timeout i a hpc ht =>
    have hne : b ≠ a := hv.ne_of_setTimeout hv' (ht ▸ rfl)
    rw [State.modify_eq] at ht
    subst ht
    refine hk.setCaller rfl rfl rfl rfl (.inl rfl) ?_ ?_ <;> rw [hpc]
    · exact fun _ => id
    · exact fun heq => absurd heq hne
  | drop i a hpc ht =>
    rw [State.modify_eq] at ht
    subst ht
    refine hk.setCaller rfl rfl rfl rfl (.inl rfl) ?_ ?_ <;> rw [hpc]
    · exact fun _ hj => hj
    · exact id

/-- The part of the state that `stop` only reads, or changes as other steps do. -/
structure State.SameAsks (s : State T M W) (x : T) (t : State T M W) : Prop where
  slotCount : t.slotCount = s.slotCount
  registered : t.registered = s.registered
  allocated : t.allocated = s.allocated
  sweeper : t.sweeper = s.sweeper
  later : s.Later t
  known : ∀ a, (s.awaiters a).isSome = true → (t.awaiters a).isSome = true
  callers : ∀ y, y ≠ x → t.callers y = s.callers y
  caller : ¬(t.callers x).Registering

theorem State.StopMove.sameAsks (h : s.StopMove x t) : s.SameAsks x t := by
  have hset {u : State T M W} {pc : CallerPc M} (hslotCount : u.slotCount = s.slotCount)
      (hregistered : u.registered = s.registered) (hallocated : u.allocated = s.allocated)
      (hsweeper : u.sweeper = s.sweeper) (hcallers : u.callers = s.callers) (hlater : s.Later u)
      (hknown : ∀ a, (s.awaiters a).isSome = true → (u.awaiters a).isSome = true)
      (hpc : ¬pc.Registering) : s.SameAsks x (u.setCaller x pc) := by
    refine ⟨hslotCount, hregistered, hallocated, hsweeper, hlater, hknown, fun y hy => ?_, ?_⟩
    · exact (Function.update_of_ne hy ..).trans (congrFun hcallers y)
    · simpa [State.setCaller] using hpc
  have hquiet {pc : CallerPc M} (hpc : ¬pc.Registering) : s.SameAsks x (s.setCaller x pc) :=
    hset rfl rfl rfl rfl rfl (.of_awaiters rfl) (fun _ => id) hpc
  have hmodify {a : Nat} {f : Awaiter M W → Awaiter M W} {pc : CallerPc M}
      (hf : ∀ w, Awaiter.Le w (f w)) (hpc : ¬pc.Registering) :
      s.SameAsks x ((s.modify a f).setCaller x pc) := by
    refine hset ?_ ?_ ?_ ?_ ?_ (.modify hf rfl) (fun b hb => s.modify_known a f hb) hpc <;>
      rw [State.modify_eq]
  cases h with
  | swap _ _ ht =>
    subst ht
    have hq : s.SameAsks x (s.setCaller x .stopNotify) := hquiet id
    exact ⟨hq.slotCount, hq.registered, hq.allocated, hq.sweeper, hq.later, hq.known, hq.callers,
      hq.caller⟩
  | stopped _ _ ht | notify _ ht | join _ _ ht | skip _ _ _ _ ht | drained _ _ _ ht
  | gone _ _ _ _ ht =>
    subst ht
    exact hquiet id
  | take i entry _ _ ht =>
    subst ht
    exact hset rfl rfl rfl rfl rfl (.of_awaiters rfl) (fun _ => id) id
  | upgrade _ _ _ ht =>
    subst ht
    exact hmodify Awaiter.le_upgrade id
  | timeout _ _ _ ht =>
    subst ht
    exact hmodify (fun w => w.le_complete _ _) id
  | drop _ _ _ ht =>
    subst ht
    exact hmodify Awaiter.le_drop id

/-- A thread leaves `join` once the sweeper has ended. -/
theorem State.StopMove.joined (h : s.StopMove x t) (ha : s.SameAsks x t)
    (hs : s.isStopped = true → (∃ y, (s.callers y).Joining) ∨ s.sweeper = .exited)
    (hst : t.isStopped = true) : (∃ y, (t.callers y).Joining) ∨ t.sweeper = .exited := by
  -- the thread was not waiting for the sweeper
  have hother (hpc : ¬(s.callers x).Joining) (hst : s.isStopped = true) :
      (∃ y, (t.callers y).Joining) ∨ t.sweeper = .exited := by
    rcases hs hst with ⟨y, hy⟩ | hy
    · refine .inl ⟨y, ?_⟩
      rw [ha.callers y fun heq => hpc (heq ▸ hy)]
      exact hy
    · exact .inr (ha.sweeper.trans hy)
  cases h with
  | swap _ _ ht =>
    subst ht
    exact .inl ⟨x, .inl (Function.update_self ..)⟩
  | notify _ ht =>
    subst ht
    exact .inl ⟨x, .inr (Function.update_self ..)⟩
  | join _ hexited _ => exact .inr (ha.sweeper.trans hexited)
  | stopped hpc hst _ => exact hother (by simp [hpc, CallerPc.Joining]) hst
  | skip _ hpc _ _ ht | take _ _ hpc _ ht | drained _ hpc _ ht | gone _ _ hpc _ ht =>
    subst ht
    exact hother (by simp [hpc, CallerPc.Joining]) hst
  | upgrade _ _ hpc ht | timeout _ _ hpc ht | drop _ _ hpc ht =>
    rw [State.modify_eq] at ht
    subst ht
    exact hother (by simp [hpc, CallerPc.Joining]) hst

/-! ## The invariant -/

theorem State.StopInv.stopMove (hinv : s.StopInv) (h : s.StopMove x t) : t.StopInv := by
  have ha := h.sameAsks
  have hcallers (y : T) : t.callers y = s.callers y ∨ ¬(t.callers y).Registering := by
    by_cases hy : y = x
    · exact .inr (hy ▸ ha.caller)
    · exact .inl (ha.callers y hy)
  refine ⟨ha.slotCount ▸ hinv.slotCount, fun y a hy => ?_, fun a hmem => ?_, fun a hmem => ?_,
    h.joined ha hinv.joined, fun b hb v' hv' htaken => ?_⟩
  · rcases hcallers y with h | h
    · exact ha.allocated ▸ hinv.reserving y a (h ▸ hy)
    · rw [hy] at h
      exact absurd trivial h
  · exact ha.allocated ▸ hinv.allocated a (ha.registered ▸ hmem)
  · exact ha.known a (hinv.known a (ha.registered ▸ hmem))
  · rw [ha.registered] at hb
    obtain ⟨v, hv, hle⟩ := ha.later.pending (hinv.allocated b hb) hv'
    have hnot := hinv.not_takenOver ha.later ha.known ha.slotCount
      (ha.registered ▸ List.prefix_refl _) hle htaken
    exact (h.kept hinv.slotCount hv hv' (hinv.kept b hb v hv hnot)).of_le hle

/-- A call of `stop` begins. -/
theorem State.StopInv.stop (hinv : s.StopInv) (h : s.begin x .stopSwap = some t) : t.StopInv := by
  have ha := State.begin_aside h
  obtain ⟨hidle, rfl⟩ := State.begin_eq h
  refine ⟨hinv.slotCount, fun y a hy => ?_, hinv.allocated, hinv.known, fun hst => ?_,
    fun b hb v hv htaken => ?_⟩
  · rcases s.setCaller_callers x y .stopSwap with h | h <;> rw [h] at hy
    · exact hinv.reserving y a hy
    · cases hy
  · rcases hinv.joined hst with ⟨y, hy⟩ | hy
    · exact .inl ⟨y, (ha.callers y hy.stopping).symm ▸ hy⟩
    · exact .inr hy
  · refine (hinv.kept b hb v ⟨hv.awaiter, hv.alive, hv.completed⟩ htaken).setCaller rfl rfl rfl rfl
      (.inl rfl) ?_ ?_ <;> rw [hidle]
    · exact fun _ => False.elim
    · exact False.elim

theorem State.StopInv.follows (hinv : s.StopInv) (hf : s.Follows act t) (ha : s.Aside t)
    (hok : OnTime s act) : t.StopInv where
  slotCount := hf.move.slotCount ▸ hinv.slotCount
  reserving := hf.reserving hinv.reserving
  allocated a hmem :=
    Nat.lt_of_lt_of_le (hf.move.registered_lt hinv.reserving hinv.allocated hmem) hf.allocated
  known a hmem := by
    cases hf.move with
    | quiet h => exact ha.known a (hinv.known a (h.registered ▸ hmem))
    | sweep h => exact ha.known a (hinv.known a (h.sameCalls.registered ▸ hmem))
    | reserve x b w _ _ hw ht =>
      refine ha.known a ?_
      subst ht
      rcases List.mem_append.mp hmem with hmem | hmem
      · exact hinv.known a hmem
      · rw [List.mem_singleton.mp hmem, hw]
        rfl
  joined hst := by
    rcases hinv.joined (ha.isStopped ▸ hst) with ⟨y, hy⟩ | hy
    · exact .inl ⟨y, (ha.callers y hy.stopping).symm ▸ hy⟩
    · exact .inr (ha.exited hy)
  kept b hb v' hv' htaken := by
    have hlt := hf.move.registered_lt hinv.reserving hinv.allocated hb
    obtain ⟨v, hv, hle⟩ := hf.later.pending hlt hv'
    have hpre : s.registered <+: t.registered := by
      rcases hf.move.registered with h | ⟨_, _, _, h⟩ <;> rw [h]
      exact List.prefix_append ..
    have hnot := hinv.not_takenOver hf.later ha.known hf.move.slotCount hpre hle htaken
    exact (hf.kept ha hok hb hv hv' hle htaken fun hmem => hinv.kept b hmem v hv hnot).of_le hle

theorem State.StopInv.step {willWake : W → W → Bool} (hinv : s.StopInv) (hok : OnTime s act)
    (h : step willWake s act = some t) : t.StopInv := by
  -- a call of `stop` begins, a thread in `stop` goes on, or anything else happens
  by_cases hact : act.isStop = true
  · cases act with
    | stop x => exact hinv.stop h
    | _ => cases hact
  · by_cases hstop : ∃ x, act = .call x ∧ (s.callers x).Stopping
    · obtain ⟨x, rfl, hx⟩ := hstop
      exact hinv.stopMove (callerStep_stopMove h hx)
    · have hnot (x : T) (hx : act = .call x) : ¬(s.callers x).Stopping :=
        fun hst => hstop ⟨x, hx, hst⟩
      exact hinv.follows (step_follows h (Bool.eq_false_iff.mpr hact) hnot) (step_aside h hnot) hok

end

/-! ## Whole stops -/

section

variable {willWake : W → W → Bool} {slotCountHint : Nat} {s : State T M W} {x : T}

end

/-- `stop` after one ask, up to slot 1. -/
def stopStart : List (Action Unit Unit Unit) :=
  [.stop (), .call (), .call (), .sweep, .call (), .call (), .call (), .call (), .call ()]

def stopping : State Unit Unit Unit := (small.run fresh (ask 0x800010 ++ stopStart)).get rfl

/-- Two threads on an ask system of the smallest size. -/
def smallPair : Machine (State Bool Unit Unit) (Action Bool Unit Unit) :=
  machine Bool Unit Unit (fun _ _ => true) 1

/-- `smallPair` at its start. -/
def freshPair : State Bool Unit Unit := { new Bool Unit Unit 1 with slotCount := 262144 }

/-- One thread has read `is_stopped` and made its awaiter when the other calls `stop`, up to the
first slot. -/
def stopOvertakes : List (Action Bool Unit Unit) :=
  [.register false 5 0x800010 fun _ => true, .call false, .call false,
    .stop true, .call true, .call true, .sweep, .call true]

def overtaken : State Bool Unit Unit := (smallPair.run freshPair stopOvertakes).get rfl

end DignusActor.Ask
