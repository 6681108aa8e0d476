import DignusActor.Ask.Moves

/-! # What the sweeper's table guards

`reserve_slot` writes its slot whatever the slot holds, so a registration takes the guard of a live,
uncompleted ask away whenever the two addresses fall on one slot (`unguarded_collision`). As long as
this does not happen every complete pass leaves the asks that were due completed, and every other
pending ask is in the table (`guarded_of_noCollision`). -/

namespace DignusActor.Ask

open Machine (Reach)

variable {T M W : Type} [DecidableEq T]

/-! ## The guard -/

namespace State

/-- Awaiter `a` is alive and not completed. -/
structure Pending (s : State T M W) (a : Nat) (w : Awaiter M W) : Prop where
  awaiter : s.awaiters a = some w
  alive : w.alive = true
  completed : w.completed = false

/-- The slot of awaiter `a` is its own. -/
def InTable (s : State T M W) (a : Nat) (w : Awaiter M W) : Prop :=
  s.slots (s.startIndex w.address) = some ⟨a, w.deadline⟩

/-- Awaiter `a` was registered before the pass in progress, and is due in it. -/
def DueInPass (s : State T M W) (a : Nat) (w : Awaiter M W) : Prop :=
  a ∈ s.registered.take s.passBegan ∧ ∃ now, s.sweeper.now = some now ∧ w.deadline ≤ now

/-- Somebody will time awaiter `a` out: the sweeper has it, or will come to its slot, in this pass
if it is due. -/
def Watched (s : State T M W) (a : Nat) (w : Awaiter M W) : Prop :=
  s.sweeper.Holds a ∨ s.InTable a w ∧ (s.DueInPass a w → s.sweeper.Ahead (s.startIndex w.address))

/-- `reserve_slot` for awaiter `a` overwrites the slot of a live, uncompleted ask. -/
def collides (s : State T M W) (a : Nat) : Bool :=
  match s.awaiters a with
  | none => false
  | some w => match s.slots (s.startIndex w.address) with
    | none => false
    | some entry => match s.awaiters entry.askAwaiter with
      | none => false
      | some v => v.alive && !v.completed

/-- Every ask is guarded by its timeout. -/
structure Guarded (s : State T M W) : Prop where
  /-- Once a pass is complete, the asks that were due in it are completed. -/
  swept : ∀ pass ∈ s.passes, ∀ a ∈ s.registered.take pass.2, ∀ w, s.awaiters a = some w →
    w.alive = true → w.deadline ≤ pass.1 → w.completed = true
  /-- A live, uncompleted ask is in the table or on its way to `set_timeout`. -/
  kept : ∀ a ∈ s.registered, ∀ w, s.awaiters a = some w → w.alive = true → w.completed = false →
    s.InTable a w ∨ s.sweeper.Holds a

/-- The bookkeeping of registrations and passes. -/
structure Booked (s : State T M W) : Prop where
  slotCount : 0 < s.slotCount
  running : ∀ x, ¬(s.callers x).Stopping
  reserving : ∀ x a, s.callers x = .reserveSlot a → a < s.allocated
  allocated : ∀ a ∈ s.registered, a < s.allocated
  began : s.passBegan ≤ s.registered.length
  passes : ∀ pass ∈ s.passes, pass.2 ≤ s.registered.length

/-- The invariant of the runs without collisions. -/
structure Inv (s : State T M W) : Prop extends s.Booked where
  watched : ∀ a ∈ s.registered, ∀ w, s.Pending a w → s.Watched a w
  swept : ∀ pass ∈ s.passes, ∀ a ∈ s.registered.take pass.2, ∀ w, s.awaiters a = some w →
    w.alive = true → w.deadline ≤ pass.1 → w.completed = true

end State

/-- The step is a `reserve_slot` that takes a guard away. -/
def Action.collides (s : State T M W) : Action T M W → Bool
  | .call x => match s.callers x with
    | .reserveSlot a => s.collides a
    | _ => false
  | _ => false

/-- Nobody calls `stop`, and a registration takes no guard away. -/
def Guarding (s : State T M W) (act : Action T M W) : Prop :=
  act.isStop = false ∧ act.collides s = false

instance (s : State T M W) (act : Action T M W) : Decidable (Guarding s act) :=
  inferInstanceAs (Decidable (_ ∧ _))

section

variable {s t : State T M W} {act : Action T M W}

omit [DecidableEq T] in
theorem State.startIndex_lt (hs : 0 < s.slotCount) (address : Nat) :
    s.startIndex address < s.slotCount := by
  have hle : s.startIndex address ≤ s.slotCount - 1 := Nat.and_le_right
  omega

omit [DecidableEq T] in
theorem State.Inv.guarded (hinv : s.Inv) : s.Guarded := by
  refine ⟨hinv.swept, fun a ha w hw halive hpending => ?_⟩
  rcases hinv.watched a ha w ⟨hw, halive, hpending⟩ with h | h
  · exact .inr h
  · exact .inl h.1

omit [DecidableEq T] in
theorem State.Later.pending (h : s.Later t) {a : Nat} {w' : Awaiter M W} (ha : a < s.allocated)
    (hp : t.Pending a w') : ∃ w, s.Pending a w ∧ w.Le w' := by
  obtain ⟨w, hw, hle⟩ := h a ha w' hp.awaiter
  refine ⟨w, ⟨hw, hle.alive hp.alive, ?_⟩, hle⟩
  cases hc : w.completed
  · rfl
  · exact absurd (hle.completed hc) (by simp [hp.completed])

omit [DecidableEq T] in
theorem State.Pending.upgradable {a : Nat} {w : Awaiter M W} (h : s.Pending a w) :
    s.upgradable a = true := by
  simp [State.upgradable, h.awaiter, Awaiter.strongCount, h.alive, Nat.add_comm 1]

omit [DecidableEq T] in
theorem State.Pending.ne_of_setTimeout {a b : Nat} {v v' : Awaiter M W} (hv : s.Pending b v)
    (hv' : t.Pending b v') (ht : t.awaiters = (s.modify a .setTimeout).awaiters) : b ≠ a := by
  rintro rfl
  have hw' := hv'.awaiter
  rw [ht, State.modify_eq] at hw'
  simp only [Function.update_self, hv.awaiter, Option.map_some, Option.some.injEq] at hw'
  have hc := hv'.completed
  rw [← hw', Awaiter.setTimeout_completed] at hc
  cases hc

/-! ### The bookkeeping -/

omit [DecidableEq T] in
theorem State.Sweep.began (h : s.Sweep t) :
    t.passBegan = s.passBegan ∨ t.passBegan = s.registered.length := by
  cases h with
  | readClock _ h => exact .inr (h ▸ rfl)
  | between _ _ _ _ h | skip _ _ _ _ _ _ _ _ h | take _ _ _ _ _ _ _ h
  | scanned _ _ _ _ _ _ h | gone _ _ _ _ _ _ _ h | finish _ _ _ h => exact .inl (h ▸ rfl)
  | upgrade _ _ _ _ _ _ h | timeout _ _ _ _ _ h | drop _ _ _ _ _ h =>
    rw [State.modify_eq] at h
    exact .inl (h ▸ rfl)

omit [DecidableEq T] in
theorem State.Sweep.passes (h : s.Sweep t) :
    t.passes = s.passes ∨ ∃ now nextDeadline, s.sweeper = .setTimeout now [] nextDeadline ∧
      t.passes = s.passes ++ [(now, s.passBegan)] := by
  cases h with
  | finish now nextDeadline hpc h => exact .inr ⟨now, nextDeadline, hpc, h ▸ rfl⟩
  | between _ _ _ _ h | skip _ _ _ _ _ _ _ _ h | take _ _ _ _ _ _ _ h
  | scanned _ _ _ _ _ _ h | gone _ _ _ _ _ _ _ h | readClock _ h => exact .inl (h ▸ rfl)
  | upgrade _ _ _ _ _ _ h | timeout _ _ _ _ _ h | drop _ _ _ _ _ h =>
    rw [State.modify_eq] at h
    exact .inl (h ▸ rfl)

theorem State.Move.registered (h : s.Move act t) :
    t.registered = s.registered ∨
      ∃ x a, s.callers x = .reserveSlot a ∧ t.registered = s.registered ++ [a] := by
  cases h with
  | quiet h => exact .inl h.registered
  | reserve x a w _ hpc _ h => exact .inr ⟨x, a, hpc, h ▸ rfl⟩
  | sweep h => exact .inl h.sameCalls.registered

theorem State.Move.length_registered (h : s.Move act t) :
    s.registered.length ≤ t.registered.length := by
  rcases h.registered with h | ⟨_, _, _, h⟩ <;> simp [h]

/-- The awaiters registered before a point in time stay what they are. -/
theorem State.Move.take_registered (h : s.Move act t) {n : Nat} (hn : n ≤ s.registered.length) :
    t.registered.take n = s.registered.take n := by
  rcases h.registered with h | ⟨_, _, _, h⟩ <;> rw [h]
  exact List.take_append_of_le_length hn

theorem State.Move.slotCount (h : s.Move act t) : t.slotCount = s.slotCount := by
  cases h with
  | quiet h => exact h.slotCount
  | reserve _ _ _ _ _ _ h => rw [h]; rfl
  | sweep h => exact h.sameCalls.slotCount

/-- A registered awaiter was allocated before it was registered. -/
theorem State.Move.registered_lt (h : s.Move act t)
    (hreserving : ∀ x a, s.callers x = .reserveSlot a → a < s.allocated)
    (hallocated : ∀ a ∈ s.registered, a < s.allocated) {a : Nat} (ha : a ∈ t.registered) :
    a < s.allocated := by
  rcases h.registered with h | ⟨x, b, hpc, h⟩ <;> rw [h] at ha
  · exact hallocated a ha
  · rcases List.mem_append.mp ha with ha | ha
    · exact hallocated a ha
    · exact List.mem_singleton.mp ha ▸ hreserving x b hpc

theorem State.Follows.reserving (hf : s.Follows act t)
    (hreserving : ∀ x a, s.callers x = .reserveSlot a → a < s.allocated) (y : T) (a : Nat)
    (ha : t.callers y = .reserveSlot a) : a < t.allocated := by
  rcases hf.callers y with h | h
  · exact Nat.lt_of_lt_of_le (hreserving y a (h ▸ ha)) hf.allocated
  · exact h.2 a ha

theorem State.Booked.step (hb : s.Booked) (hf : s.Follows act t) : t.Booked where
  slotCount := hf.move.slotCount ▸ hb.slotCount
  running y := by
    rcases hf.callers y with h | h
    · exact h ▸ hb.running y
    · exact h.1
  reserving := hf.reserving hb.reserving
  allocated a ha :=
    Nat.lt_of_lt_of_le (hf.move.registered_lt hb.reserving hb.allocated ha) hf.allocated
  began := by
    refine Nat.le_trans ?_ hf.move.length_registered
    cases hf.move with
    | quiet h => exact h.passBegan ▸ hb.began
    | reserve _ _ _ _ _ _ h => exact h ▸ hb.began
    | sweep h =>
      rcases h.began with h | h
      · exact h ▸ hb.began
      · exact Nat.le_of_eq h
  passes pass hpass := by
    refine Nat.le_trans ?_ hf.move.length_registered
    cases hf.move with
    | quiet h => exact hb.passes pass (h.passes ▸ hpass)
    | reserve _ _ _ _ _ _ h => exact hb.passes pass (by rwa [h] at hpass)
    | sweep h =>
      rcases h.passes with h | ⟨now, _, _, h⟩ <;> rw [h] at hpass
      · exact hb.passes pass hpass
      · rcases List.mem_append.mp hpass with hpass | hpass
        · exact hb.passes pass hpass
        · rw [List.mem_singleton.mp hpass]
          exact hb.began

/-! ### The watched awaiters -/

theorem State.Inv.watched_reserve (hinv : s.Inv) {x : T} {a : Nat} {w : Awaiter M W}
    (hmove : s.Move act t) (hw : s.awaiters a = some w) (hfree : s.collides a = false)
    (ht : t = { (s.setSlot (s.startIndex w.address) (some ⟨a, w.deadline⟩)).setCaller x .idle with
      registered := s.registered ++ [a] }) {b : Nat} (hb : b ∈ t.registered) {v : Awaiter M W}
    (hv : s.Pending b v) : t.Watched b v := by
  -- an awaiter that is due in this pass was registered before
  have hdue (h : t.DueInPass b v) : s.DueInPass b v := by
    obtain ⟨hmem, hnow⟩ := h
    have hbegan : t.passBegan = s.passBegan := ht ▸ rfl
    have hsweeper : t.sweeper = s.sweeper := ht ▸ rfl
    rw [hbegan, hmove.take_registered hinv.began] at hmem
    rw [hsweeper] at hnow
    exact ⟨hmem, hnow⟩
  have hold (hmem : b ∈ s.registered) (hslot : s.InTable b v → t.InTable b v) :
      t.Watched b v := by
    rcases hinv.watched b hmem v hv with h | h
    · exact .inl (ht ▸ h)
    · refine .inr ⟨hslot h.1, fun hd => ?_⟩
      have := h.2 (hdue hd)
      subst ht
      exact this
  by_cases hba : b = a
  · subst hba
    cases hw.symm.trans hv.awaiter
    have hslot : t.InTable b w := by
      subst ht
      exact Function.update_self ..
    by_cases hmem : b ∈ s.registered
    · exact hold hmem fun _ => hslot
    · exact .inr ⟨hslot, fun hd => absurd (List.mem_of_mem_take (hdue hd).1) hmem⟩
  · have hmem : b ∈ s.registered := by
      subst ht
      simpa [hba] using hb
    refine hold hmem fun hslot => ?_
    have hne : s.startIndex v.address ≠ s.startIndex w.address := by
      intro heq
      rw [State.InTable, heq] at hslot
      simp [State.collides, hw, hslot, hv.awaiter, hv.alive, hv.completed] at hfree
    subst ht
    exact (Function.update_of_ne hne ..).trans hslot

omit [DecidableEq T] in
theorem State.Watched.of_le {b : Nat} {v v' : Awaiter M W} (h : s.Watched b v) (hle : v.Le v') :
    s.Watched b v' := by
  unfold State.Watched State.InTable State.DueInPass at *
  rwa [hle.address, hle.deadline]

omit [DecidableEq T] in
/-- An awaiter in the table stays watched by a sweeper that does not get past its slot. -/
theorem State.InTable.watched {b : Nat} {v : Awaiter M W} (htable : s.InTable b v)
    {u : State T M W} (hslots : u.slots = s.slots) (hcount : u.slotCount = s.slotCount)
    (hregistered : u.registered = s.registered) (hbegan : u.passBegan = s.passBegan)
    (hnow : u.sweeper.now = s.sweeper.now)
    (hahead : s.DueInPass b v → u.sweeper.Ahead (s.startIndex v.address)) : u.Watched b v := by
  have hindex : u.startIndex v.address = s.startIndex v.address := by
    simp only [State.startIndex, hcount]
  refine .inr ⟨?_, fun hd => ?_⟩
  · rwa [State.InTable, hindex, hslots]
  · rw [hindex]
    unfold State.DueInPass at hd
    rw [hregistered, hbegan, hnow] at hd
    exact hahead hd

omit [DecidableEq T] in
theorem State.Inv.watched_sweep (hinv : s.Inv) (h : s.Sweep t) {b : Nat} (hb : b ∈ s.registered)
    {v v' : Awaiter M W} (hv : s.Pending b v) (hv' : t.Pending b v') : t.Watched b v := by
  have hw := hinv.watched b hb v hv
  have hlt := s.startIndex_lt hinv.slotCount v.address
  -- in each case the awaiter is in the sweeper's hands, or else in the table
  cases h with
  | between pc hnow hpc hnow' h =>
    subst h
    rcases hw with hw | hw
    · cases hs : s.sweeper <;> simp_all [SweeperPc.Holds, SweeperPc.now]
    · refine .inr ⟨hw.1, fun hd => ?_⟩
      obtain ⟨-, now, hd, -⟩ := hd
      cases hnow'.symm.trans hd
  | readClock hpc h =>
    subst h
    rw [State.Watched, hpc] at hw
    exact .inr ⟨(hw.resolve_left id).1, fun _ => Nat.zero_le _⟩
  | skip now i expired nd nd' hpc hi hslot h =>
    subst h
    rw [State.Watched, hpc] at hw
    rcases hw with hw | ⟨htable, hahead⟩
    · exact .inl hw
    · refine htable.watched rfl rfl rfl rfl (congrArg SweeperPc.now hpc).symm fun hd => ?_
      refine Nat.lt_of_le_of_ne (hahead hd) fun hi => ?_
      -- the slot that was passed by holds nothing that is due
      obtain ⟨-, now', hnow', hdue⟩ := hd
      rw [hpc] at hnow'
      cases hnow'
      rw [State.InTable, ← hi] at htable
      exact Nat.lt_irrefl now (Nat.lt_of_lt_of_le (hslot _ htable) hdue)
  | take now i expired nd entry hpc hslot h =>
    subst h
    rw [State.Watched, hpc] at hw
    rcases hw with hw | ⟨htable, hahead⟩
    · exact .inl (.inl hw)
    · by_cases hi : s.startIndex v.address = i
      · rw [State.InTable, hi, hslot] at htable
        cases htable
        exact .inl (.inr rfl)
      · refine .inr ⟨(Function.update_of_ne hi ..).trans htable, fun hd => ?_⟩
        obtain ⟨hmem, now', hnow', hdue⟩ := hd
        cases hnow'
        exact Nat.lt_of_le_of_ne (hahead ⟨hmem, now, hpc ▸ rfl, hdue⟩) (Ne.symm hi)
  | scanned now i expired nd hpc hi h =>
    subst h
    rw [State.Watched, hpc] at hw
    rcases hw with hw | ⟨htable, hahead⟩
    · exact .inl hw
    · refine htable.watched rfl rfl rfl rfl (congrArg SweeperPc.now hpc).symm fun hd => ?_
      have hle : i ≤ s.startIndex v.address := hahead hd
      omega
  | upgrade now i expired nd entry hpc h =>
    rw [State.modify_eq] at h
    subst h
    rw [State.Watched, hpc] at hw
    rcases hw with (hw | hw) | ⟨htable, hahead⟩
    · exact .inl (List.mem_append_left _ hw)
    · exact .inl (List.mem_append_right _ (List.mem_singleton.mpr hw))
    · exact htable.watched rfl rfl rfl rfl (congrArg SweeperPc.now hpc).symm hahead
  | gone now i expired nd entry hpc hgone h =>
    subst h
    rw [State.Watched, hpc] at hw
    rcases hw with (hw | hw) | ⟨htable, hahead⟩
    · exact .inl hw
    · -- a live awaiter can be upgraded
      cases hgone.symm.trans (hw ▸ hv.upgradable)
    · exact htable.watched rfl rfl rfl rfl (congrArg SweeperPc.now hpc).symm hahead
  | timeout now a expired nd hpc h =>
    have hne : b ≠ a := hv.ne_of_setTimeout hv' (h ▸ rfl)
    rw [State.modify_eq] at h
    subst h
    rw [State.Watched, hpc] at hw
    rcases hw with hw | ⟨htable, hahead⟩
    · exact .inl ((List.mem_cons.mp hw).resolve_left hne)
    · exact htable.watched rfl rfl rfl rfl (congrArg SweeperPc.now hpc).symm hahead
  | drop now a expired nd hpc h =>
    rw [State.modify_eq] at h
    subst h
    rw [State.Watched, hpc] at hw
    rcases hw with hw | ⟨htable, hahead⟩
    · exact .inl hw
    · exact htable.watched rfl rfl rfl rfl (congrArg SweeperPc.now hpc).symm hahead
  | finish now nd hpc h =>
    subst h
    rw [State.Watched, hpc] at hw
    rcases hw with hw | ⟨htable, -⟩
    · cases hw
    · refine .inr ⟨htable, fun hd => ?_⟩
      obtain ⟨-, now', hd, -⟩ := hd
      cases hd

theorem State.Inv.step (hinv : s.Inv) (hf : s.Follows act t)
    (hfree : act.collides s = false) : t.Inv where
  toBooked := hinv.toBooked.step hf
  watched b hb v' hv' := by
    have hlt := hf.move.registered_lt hinv.reserving hinv.allocated hb
    obtain ⟨v, hv, hle⟩ := hf.later.pending hlt hv'
    refine State.Watched.of_le ?_ hle
    cases hf.move with
    | quiet h =>
      rcases hinv.watched b (h.registered ▸ hb) v hv with hw | ⟨htable, hahead⟩
      · exact .inl (h.sweeper ▸ hw)
      · exact htable.watched h.slots h.slotCount h.registered h.passBegan
          (congrArg SweeperPc.now h.sweeper) fun hd => h.sweeper ▸ hahead hd
    | reserve x a w hact hpc hw ht =>
      simp only [hact, Action.collides, hpc] at hfree
      exact hinv.watched_reserve hf.move hw hfree ht hb hv
    | sweep h => exact hinv.watched_sweep h (h.sameCalls.registered ▸ hb) hv hv'
  swept pass hpass b hb w' hw' halive hdue := by
    have hold (hpass : pass ∈ s.passes) : w'.completed = true := by
      rw [hf.move.take_registered (hinv.passes pass hpass)] at hb
      have hlt := hinv.allocated b (List.mem_of_mem_take hb)
      obtain ⟨w, hw, hle⟩ := hf.later b hlt w' hw'
      exact hle.completed
        (hinv.swept pass hpass b hb w hw (hle.alive halive) (hle.deadline ▸ hdue))
    cases hf.move with
    | quiet h => exact hold (h.passes ▸ hpass)
    | reserve _ _ _ _ _ _ h =>
      rw [h] at hpass
      exact hold hpass
    | sweep h =>
      rcases h.passes with h' | ⟨now, nd, hpc, h'⟩ <;> rw [h'] at hpass
      · exact hold hpass
      · rcases List.mem_append.mp hpass with hpass | hpass
        · exact hold hpass
        · -- the pass that ends here has nothing left in its hands
          rw [List.mem_singleton.mp hpass] at hb hdue
          rw [h.sameCalls.registered] at hb
          have hlt := hinv.allocated b (List.mem_of_mem_take hb)
          obtain ⟨w, hw, hle⟩ := hf.later b hlt w' hw'
          refine hle.completed (Bool.not_eq_false _ ▸ fun hc => ?_)
          rcases hinv.watched b (List.mem_of_mem_take hb) w ⟨hw, hle.alive halive, hc⟩ with
            hheld | ⟨-, hahead⟩
          · rw [hpc] at hheld
            cases hheld
          · have := hahead ⟨hb, now, by rw [hpc]; rfl, hle.deadline ▸ hdue⟩
            rw [hpc] at this
            exact this

end

section

variable {willWake : W → W → Bool} {slotCountHint : Nat} {s : State T M W}

omit [DecidableEq T] in
theorem new_inv : (new T M W slotCountHint).Inv where
  slotCount := Nat.lt_of_lt_of_le (Nat.two_pow_pos 18) (Nat.le_max_right ..)
  running _ := id
  reserving _ _ := nofun
  allocated _ := nofun
  began := Nat.le_refl 0
  passes _ := nofun
  watched _ := nofun
  swept _ := nofun

/-- **As long as no registration falls on the slot of a live, uncompleted ask, every ask is guarded
by its timeout.** -/
theorem guarded_of_noCollision (h : Reach (machine T M W willWake slotCountHint) Guarding s) :
    s.Guarded := by
  have hinv : s.Inv := by
    refine h.inv State.Inv ?_ ?_
    · rintro _ rfl
      exact new_inv
    · intro s act t hinv hok hs
      exact hinv.step (step_follows hs hok.1 fun x _ => hinv.running x) hok.2
  exact hinv.guarded

/-- A pass goes over empty slots one by one. -/
theorem reach_skip {ok : State T M W → Action T M W → Prop} (hok : ∀ s, ok s .sweep)
    (hr : Reach (machine T M W willWake slotCountHint) ok s) {now i : Nat} {expired : List Nat}
    {nextDeadline : Option Nat} (hpc : s.sweeper = .scan now i expired nextDeadline) {n : Nat}
    (hslots : ∀ j, i ≤ j → j < i + n → s.slots j = none) (hn : i + n ≤ s.slotCount) :
    Reach (machine T M W willWake slotCountHint) ok
      { s with sweeper := .scan now (i + n) expired nextDeadline } := by
  induction n with
  | zero => exact hpc ▸ hr
  | succ n ih =>
    refine .step (ih (fun j hj hlt => hslots j hj (by omega)) (by omega)) (hok _) ?_
    have hlt : i + n < s.slotCount := by omega
    have hnone : s.slots (i + n) = none := hslots _ (by omega) (by omega)
    simp only [machine, step, sweeperStep, hlt, if_true, hnone]
    rfl

end

/-! ## Whole passes -/

/-- An ask system of the smallest size. -/
def small : Machine (State Unit Unit Unit) (Action Unit Unit Unit) :=
  machine Unit Unit Unit (fun _ _ => true) 1

/-- `small` at its start, with the number of slots written out. -/
def fresh : State Unit Unit Unit := { new Unit Unit Unit 1 with slotCount := 262144 }

theorem fresh_init : small.Init fresh := by
  have hone : Nat.nextPowerOfTwo 1 = 1 := by decide +kernel
  have hcount : slotCountFor 1 = 262144 := by
    simp [slotCountFor, minSlotCount, hone]
  simp only [small, machine, fresh, new, hcount]

/-- Register an ask of 5 ns whose awaiter lives at `address`. -/
def ask (address : Nat) : List (Action Unit Unit Unit) :=
  [.register () 5 address fun _ => true, .call (), .call (), .call ()]

/-- The start of the first pass, 5 ns later, up to slot 1. -/
def passStart : List (Action Unit Unit Unit) := [.tick 5, .sweep, .sweep, .sweep, .sweep]

/-- The end of a pass that found one ask due. -/
def passEnd : List (Action Unit Unit Unit) := [.sweep, .sweep, .sweep, .sweep]

/-- Between its two parts a pass that has found one ask at slot 0 goes over the other slots, all
empty. -/
theorem reach_passEnd {ok : State Unit Unit Unit → Action Unit Unit Unit → Prop}
    {s t : State Unit Unit Unit} (hr : Reach small ok s) (hok : ∀ s, ok s .sweep) {a : Nat}
    (hpc : s.sweeper = .scan 5 1 [a] none) (hslots : ∀ j, 1 ≤ j → s.slots j = none)
    (hcount : s.slotCount = 262144)
    (hend : small.run { s with sweeper := .scan 5 262144 [a] none } passEnd = some t) :
    Reach small ok t := by
  have hskip : Reach small ok { s with sweeper := .scan 5 (1 + 262143) [a] none } :=
    reach_skip hok hr hpc (fun j hj _ => hslots j hj) (by omega)
  refine .run hskip (.of_forall (fun a ha s => ?_) _) hend
  simp only [passEnd, List.mem_cons, List.not_mem_nil, or_false, or_self] at ha
  exact ha ▸ hok s

/-- Two asks at 2^23 bytes from each other, and the first pass up to slot 1. -/
def collided : State Unit Unit Unit :=
  (small.run fresh (ask 0x800010 ++ ask 0x1000010 ++ passStart)).get rfl

/-- The end of that pass. -/
def collidedSwept : State Unit Unit Unit :=
  (small.run { collided with sweeper := .scan 5 262144 [1] none } passEnd).get rfl

/-- The second of two asks whose awaiters are 2^23 bytes apart takes the slot of the first: the pass
that finds both due completes the second only. -/
theorem unguarded_collision :
    Reach small (fun _ act => act.isStop = false) collidedSwept ∧
      collidedSwept.passes = [(5, 2)] ∧ collidedSwept.registered = [0, 1] ∧
      (collidedSwept.awaiters 0).map (fun w => (w.address, w.alive, w.deadline, w.completed)) =
        some (0x800010, true, 5, false) ∧
      (collidedSwept.awaiters 1).map (fun w => (w.address, w.alive, w.deadline, w.completed)) =
        some (0x1000010, true, 5, true) ∧
      ¬collidedSwept.Guarded := by
  have hact : ∀ act ∈ ask 0x800010 ++ ask 0x1000010 ++ passStart, act.isStop = false := by decide
  have hstart : Reach small (fun _ act => act.isStop = false) collided :=
    .get fresh_init (.of_forall (fun act h _ => hact act h) _) rfl
  have hslots : collided.slots = Function.update
      (Function.update (Function.update (fun _ => none) 0 (some ⟨0, 5⟩)) 0 (some ⟨1, 5⟩)) 0 none :=
    rfl
  refine ⟨?_, rfl, rfl, rfl, rfl, fun h => ?_⟩
  · refine reach_passEnd hstart (fun _ => rfl) rfl (fun j hj => ?_) rfl (Option.some_get _).symm
    simp [hslots, Nat.ne_of_gt hj]
  · have hmem : 0 ∈ collidedSwept.registered.take 2 := by decide
    cases h.swept (5, 2) List.mem_cons_self 0 hmem _ rfl rfl (Nat.le_refl 5)

/-- One ask, and the first pass up to slot 1. -/
def asked : State Unit Unit Unit := (small.run fresh (ask 0x800010 ++ passStart)).get rfl

/-- The end of that pass. -/
def askedSwept : State Unit Unit Unit :=
  (small.run { asked with sweeper := .scan 5 262144 [0] none } passEnd).get rfl

theorem guarded_of_noCollision_asked :
    Reach small Guarding askedSwept ∧ askedSwept.Guarded ∧ askedSwept.passes = [(5, 1)] ∧
      (askedSwept.awaiters 0).map (fun w => (w.deadline, w.completed)) = some (5, true) := by
  have hstart : Reach small Guarding asked := .get fresh_init (by decide) rfl
  have hslots : asked.slots =
      Function.update (Function.update (fun _ => none) 0 (some ⟨0, 5⟩)) 0 none := rfl
  have hr : Reach small Guarding askedSwept := by
    refine reach_passEnd hstart (fun _ => ⟨rfl, rfl⟩) rfl (fun j hj => ?_) rfl
      (Option.some_get _).symm
    simp [hslots, Nat.ne_of_gt hj]
  exact ⟨hr, guarded_of_noCollision hr, rfl, rfl⟩

end DignusActor.Ask
