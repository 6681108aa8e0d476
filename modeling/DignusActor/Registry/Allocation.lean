import DignusActor.Registry.Handles
import DignusActor.Registry.Live

/-! # What the registry has handed out

The slots below `next_unused` are free, or reserved, or just popped by a `reserve` that holds the
`alloc` mutex (`Covered`). Where no handle is removed before its commit, a `remove` that finds the
generation of its handle finds an owner too, and gives the slot back (`Settled`). -/

namespace DignusActor.Registry

open Machine (Reach)

variable {T R : Type} [DecidableEq T] {poisons : Bool} {s s' : State T R} {t : T}

/-! ## The slots below `next_unused` -/

/-- The slots that were handed out are below the capacity. -/
structure Data.Bounded (d : Data R) : Prop where
  unused : d.nextUnused ≤ d.capacity
  index : ∀ r ∈ d.reservations, r.index < d.nextUnused

omit [DecidableEq T] in
theorem Data.Bounded.lt {d : Data R} (h : d.Bounded) {n : Nat} {r : Reservation}
    (hr : d.reservations[n]? = some r) : r.index < d.capacity :=
  Nat.lt_of_lt_of_le (h.index r (List.mem_of_getElem? hr)) h.unused

theorem Data.Bounded.step {a : Action T R} (hb : s.mem.data.Bounded) (hinv : Inv s)
    (h : step poisons s a = some s') : s'.mem.data.Bounded := by
  cases step_move h with
  | call t hcall =>
    have hpopped := (hinv.thread t).popped
    generalize s.pcs t = pc at hcall hpopped
    cases hcall with
    | popUnused _ hlt => exact ⟨hlt, fun r hr => Nat.lt_succ_of_lt (hb.index r hr)⟩
    | reserveStore i g =>
      refine ⟨hb.unused, fun r hr => ?_⟩
      rw [Data.reserve_reservations] at hr
      rcases List.mem_append.mp hr with hr | hr
      · exact hb.index r hr
      · rw [List.mem_singleton.mp hr]
        exact (hpopped i rfl).used
    | removeUnlock handle removed => cases removed <;> exact ⟨hb.unused, hb.index⟩
    | _ => exact ⟨hb.unused, hb.index⟩
  | _ => exact ⟨hb.unused, hb.index⟩

theorem bounded_of_reach {capacity : Nat} {ok : State T R → Action T R → Prop}
    (h : Reach (machine T R poisons capacity) ok s) : s.mem.data.Bounded := by
  refine h.inv_of Inv (fun s => s.mem.data.Bounded) inv_of_reach ?_ fun hinv hb _ hs =>
    hb.step hinv hs
  rintro _ rfl
  exact ⟨Nat.zero_le _, fun _ => nofun⟩

/-- The generation of a slot that is reserved is that of its last reservation. -/
theorem Data.Ok.generation_latest {d : Data R} (h : d.Ok) {n : Nat} {r : Reservation}
    (hr : d.reservations[n]? = some r) (hodd : (d.slots r.index).Odd)
    (hlatest : (d.slots r.index).latest = n) : (d.slots r.index).generation = r.generation := by
  obtain ⟨q, hq, -, hord⟩ := h.latest r.index hodd.reserved
  rw [hlatest] at hq
  cases hq.symm.trans hr
  rw [hodd.generation, (h.reservation n r hr).2.1, hord]


/-- Slot `i` is free, or reserved, or taken from `alloc` by a `reserve` in progress. -/
def Covered (s : State T R) : Prop :=
  ∀ i < s.mem.data.nextUnused, i ∈ s.mem.data.free ∨
    (∃ n ∈ s.mem.data.outstanding, s.mem.data.indexOf n = some i) ∨
    ∃ t, (s.pcs t).popped = some i

/-- What a step does to the slots that can be handed out. -/
inductive AllocMove (s : State T R) (t : T) (m : Mem T R) (pc : Pc R) : Prop
  | same : m.data.free = s.mem.data.free → m.data.nextUnused = s.mem.data.nextUnused →
    m.data.outstanding = s.mem.data.outstanding →
    m.data.reservations = s.mem.data.reservations → pc.popped = (s.pcs t).popped →
    AllocMove s t m pc
  | pop (i : Nat) (free : List Nat) : s.mem.data.free = i :: free → m.data.free = free →
    m.data.nextUnused = s.mem.data.nextUnused → m.data.outstanding = s.mem.data.outstanding →
    m.data.reservations = s.mem.data.reservations → s.pcs t = .reservePop →
    pc.popped = some i → AllocMove s t m pc
  | grow : m.data.free = s.mem.data.free → m.data.nextUnused = s.mem.data.nextUnused + 1 →
    m.data.outstanding = s.mem.data.outstanding →
    m.data.reservations = s.mem.data.reservations → s.pcs t = .reservePop →
    pc.popped = some s.mem.data.nextUnused → AllocMove s t m pc
  | reserve (i g : Nat) : s.pcs t = .reserveStore i g → m.data = s.mem.data.reserve i g →
    AllocMove s t m pc
  | giveBack (handle : Handle) (r : R) : s.pcs t = .removeFree handle (some r) →
    m.data = s.mem.data.giveBack handle.index → pc.popped = none → AllocMove s t m pc

omit [DecidableEq T] in
theorem CallMove.allocMove {m : Mem T R} {pc : Pc R} (h : CallMove poisons t s.mem (s.pcs t) m pc) :
    AllocMove s t m pc := by
  generalize hpc : s.pcs t = old at h
  cases h with
  | popFree i free hfree => exact .pop i free hfree rfl rfl rfl rfl hpc rfl
  | popUnused hfree hlt => exact .grow rfl rfl rfl rfl hpc rfl
  | reserveStore i g => exact .reserve i g hpc rfl
  | giveBack handle r => exact .giveBack handle r hpc rfl rfl
  | removeUnlock handle removed =>
    cases removed <;> exact .same rfl rfl rfl rfl (by rw [hpc]; rfl)
  | _ => exact .same rfl rfl rfl rfl (by rw [hpc]; rfl)

/-- A call begins, or is given up, without a change to the memory. -/
theorem step_alloc {a : Action T R} (h : step poisons s a = some s') :
    AllocMove s a.thread s'.mem (s'.pcs a.thread) := by
  cases step_move h with
  | call t hcall =>
    simp only [Action.thread, Function.update_self]
    exact hcall.allocMove
  | commit t n runner hpc | abandon t n hpc =>
    refine .same rfl rfl rfl rfl ?_
    simp only [State.setPc, Action.thread, Function.update_self, hpc]
    rfl
  | reserve t hrest | lookup t _ _ hrest | remove t _ hrest | snapshotLive t hrest
  | liveCount t hrest =>
    refine .same rfl rfl rfl rfl ?_
    simp only [State.setPc, Action.thread, Function.update_self]
    generalize s.pcs t = pc at hrest
    cases pc <;> first | rfl | cases hrest

theorem Covered.step {a : Action T R} (hc : Covered s) (hinv : Inv s)
    (h : step poisons s a = some s') : Covered s' := by
  -- what `reserve` has popped stays with its thread
  have hothers {i : Nat} (hkeep : (s.pcs a.thread).popped = some i →
      (s'.pcs a.thread).popped = some i) (hi : ∃ t, (s.pcs t).popped = some i) :
      ∃ t, (s'.pcs t).popped = some i := by
    obtain ⟨t, ht⟩ := hi
    refine ⟨t, ?_⟩
    by_cases hta : t = a.thread
    · subst hta
      exact hkeep ht
    · rwa [step_pcs_of_ne h hta]
  intro i hi
  cases step_alloc h with
  | same hfree hunused hout hres hpc =>
    have hold := hc i (hunused ▸ hi)
    simp only [Data.indexOf, hfree, hout, hres]
    exact hold.imp_right (.imp_right (hothers fun h => hpc.trans h))
  | pop j free hfree hfree' hunused hout hres hpc hpc' =>
    have hold := hc i (hunused ▸ hi)
    simp only [Data.indexOf, hfree', hout, hres]
    rw [hfree] at hold
    rcases hold with hold | hold | hold
    · rcases List.mem_cons.mp hold with rfl | hold
      · exact .inr (.inr ⟨_, hpc'⟩)
      · exact .inl hold
    · exact .inr (.inl hold)
    · exact .inr (.inr (hothers (fun h => by rw [hpc] at h; cases h) hold))
  | grow hfree hunused hout hres hpc hpc' =>
    simp only [Data.indexOf, hfree, hout, hres]
    rcases Nat.lt_succ_iff_lt_or_eq.mp (hunused ▸ hi) with hi | rfl
    · have hold := hc i hi
      exact hold.imp_right (.imp_right (hothers fun h => by rw [hpc] at h; cases h))
    · exact .inr (.inr ⟨_, hpc'⟩)
  | reserve j g hpc hd =>
    rw [hd] at hi ⊢
    by_cases hij : i = j
    · subst hij
      exact .inr (.inl ⟨_, by simp [Data.reserve_outstanding], Data.reserve_indexOf_new⟩)
    rcases hc i hi with hold | ⟨n, hn, hni⟩ | hold
    · exact .inl hold
    · refine .inr (.inl ⟨n, ?_, ?_⟩)
      · rw [Data.reserve_outstanding]
        exact List.mem_append_left _ hn
      · rwa [Data.reserve_indexOf_old (Data.indexOf_lt hni)]
    · refine .inr (.inr (hothers (fun h => ?_) hold))
      rw [hpc] at h
      exact absurd (Option.some.inj h).symm hij
  | giveBack handle r hpc hd hpc' =>
    have htaken := (hinv.thread a.thread).taken handle.index (by rw [hpc]; rfl)
    rw [hd] at hi ⊢
    by_cases hih : i = handle.index
    · exact .inl (hih ▸ List.mem_cons_self)
    rcases hc i hi with hold | ⟨n, hn, hni⟩ | hold
    · exact .inl (List.mem_cons_of_mem _ hold)
    · refine .inr (.inl ⟨n, hinv.data.mem_giveBack.mpr ⟨?_, hn⟩, hni⟩)
      rintro rfl
      exact hih (Option.some.inj (hni.symm.trans htaken.index))
    · refine .inr (.inr (hothers (fun h => ?_) hold))
      rw [hpc] at h
      cases h

theorem covered_of_reach {capacity : Nat} {ok : State T R → Action T R → Prop}
    (h : Reach (machine T R poisons capacity) ok s) : Covered s := by
  refine h.inv_of Inv Covered inv_of_reach ?_ fun hinv hc _ hs => hc.step hinv hs
  rintro _ rfl i hi
  cases hi

/-! ## Removes -/

/-- The handle whose slot `remove` has retired and has not given back. -/
def Pc.vacating : Pc R → Option Handle
  | .removeOwnerLock handle | .removeTake handle | .removeOwnerUnlock handle _
  | .removeFree handle _ => some handle
  | _ => none

theorem Pc.inAlloc_of_vacating {pc : Pc R} {handle : Handle} (h : pc.vacating = some handle) :
    pc.inAlloc = true := by
  unfold vacating at h
  split at h <;> first | rfl | cases h

theorem Pc.vacating_of_atRest {pc : Pc R} (h : pc.atRest = true) : pc.vacating = none := by
  cases pc <;> first | rfl | cases h

/-- The slot of an outstanding reservation is reserved, or a `remove` has retired it. -/
def SlotsKept (s : State T R) : Prop :=
  ∀ n i, n ∈ s.mem.data.outstanding → s.mem.data.indexOf n = some i →
    (s.mem.data.slots i).Odd ∨
      ∃ u handle, (s.pcs u).vacating = some handle ∧ handle.index = i

/-- A `remove` that found the generation of its handle finds an owner too, and has taken it. -/
structure Vacant (s : State T R) (u : T) : Prop where
  owner : ∀ handle, s.pcs u = .removeStore handle ∨ s.pcs u = .removeOwnerLock handle ∨
    s.pcs u = .removeTake handle → (s.mem.data.slots handle.index).owner ≠ none
  taken : ∀ handle, s.pcs u ≠ .removeOwnerUnlock handle none ∧ s.pcs u ≠ .removeFree handle none

/-- A `remove` works on its slot until it has given it back. -/
theorem step_vacating {a : Action T R} (h : step poisons s a = some s') {u : T}
    {handle : Handle} (hu : (s.pcs u).vacating = some handle) : (s'.pcs u).vacating = some handle ∨
      u = a.thread ∧ ∃ removed, s.pcs u = .removeFree handle removed := by
  by_cases hua : u = a.thread
  · cases step_move h with
    | call v hcall =>
      cases hua
      simp only [Action.thread, Function.update_self] at hu ⊢
      generalize s.pcs v = pc at hcall hu
      cases hcall with
      | removeOwnerLock | removeTake | removeOwnerUnlock => exact .inl hu
      | keep | giveBack =>
        cases hu
        exact .inr ⟨trivial, _, rfl⟩
      | _ => cases hu
    | commit _ _ _ hpc | abandon _ _ hpc =>
      cases hua
      simp only [Action.thread] at hu
      rw [hpc] at hu
      cases hu
    | reserve _ hrest | lookup _ _ _ hrest | remove _ _ hrest | snapshotLive _ hrest
    | liveCount _ hrest =>
      cases hua
      cases (Pc.vacating_of_atRest hrest).symm.trans hu
  · rw [step_pcs_of_ne h hua]
    exact .inl hu

theorem step_giveBack {a : Action T R} (h : step poisons s a = some s') {handle : Handle} {r : R}
    (hpc : s.pcs a.thread = .removeFree handle (some r)) :
    s'.mem.data = s.mem.data.giveBack handle.index := by
  obtain ⟨m, pc, hcall, rfl⟩ := step_inside h (by rw [hpc]; rfl) (by simp [hpc])
  rw [hpc] at hcall
  cases hcall
  rfl

theorem SlotsKept.step {a : Action T R} (hk : SlotsKept s) (hinv : Inv s) (hv : ∀ u, Vacant s u)
    (h : step poisons s a = some s') : SlotsKept s' := by
  intro n i hn' hi'
  -- the reservation was there, with the same slot
  have hold (hn : n ∈ s.mem.data.outstanding) (hi : s.mem.data.indexOf n = some i)
      (hslot : (s.mem.data.slots i).Odd → (s'.mem.data.slots i).Odd) :
      (s'.mem.data.slots i).Odd ∨
        ∃ u handle, (s'.pcs u).vacating = some handle ∧ handle.index = i := by
    rcases hk n i hn hi with hodd | ⟨u, handle, hu, rfl⟩
    · exact .inl (hslot hodd)
    · rcases step_vacating h hu with hu' | ⟨rfl, removed, hpc⟩
      · exact .inr ⟨u, handle, hu', rfl⟩
      · exfalso
        cases removed with
        | none => exact ((hv _).taken handle).2 hpc
        | some r =>
          rw [step_giveBack h hpc, hinv.data.mem_giveBack] at hn'
          exact hn'.1 (hinv.data.latest_of_outstanding hn hi).symm
  cases step_data h with
  | same hslots hres hrun hout =>
    refine hold (hout ▸ hn') ?_ fun hodd => hslots ▸ hodd
    rwa [Data.indexOf, hres] at hi'
  | reserve j g hpc hd =>
    have hpopped := (hinv.thread a.thread).popped j (by rw [hpc]; rfl)
    rw [hd] at hn' hi' ⊢
    rw [Data.reserve_outstanding, List.mem_append, List.mem_singleton] at hn'
    rcases Data.reserve_indexOf hi' with hi | ⟨rfl, rfl⟩
    · have hn : n ∈ s.mem.data.outstanding := by
        refine hn'.resolve_right fun heq => ?_
        exact absurd (Data.indexOf_lt hi) (by omega)
      have hij : i ≠ j := by
        rintro rfl
        exact hpopped.outstanding n hn hi
      refine (hold hn hi fun hodd => ?_).imp_left fun hodd => ?_
      · rwa [hd, Data.reserve_slots_of_ne hij]
      · rwa [hd] at hodd
    · left
      rw [Data.reserve_slots_self, (hinv.thread a.thread).generation i g hpc, hpopped.even,
        wrappingSucc_even]
      exact ⟨Nat.le_add_left 1 _, rfl⟩
  | commit m r j hpc hj hd =>
    refine hold (by rwa [hd] at hn') (by rwa [hd] at hi') fun hodd => ?_
    rw [hd]
    exact Data.commit_odd.mpr hodd
  | retire handle hpc hd =>
    by_cases hih : i = handle.index
    · refine .inr ⟨a.thread, handle, ?_, hih.symm⟩
      obtain ⟨m, pc, hcall, rfl⟩ := step_inside h (by rw [hpc]; rfl) (by simp [hpc])
      rw [hpc] at hcall
      cases hcall
      exact congrArg Pc.vacating (Function.update_self a.thread (.removeOwnerLock handle) s.pcs)
    · refine hold (by rwa [hd] at hn') (by rwa [hd] at hi') fun hodd => ?_
      rwa [hd, Data.retire_slots_of_ne hih]
  | takeOwner handle hpc hd =>
    refine hold (by rwa [hd] at hn') (by rwa [hd] at hi') fun hodd => ?_
    rw [hd]
    exact Data.takeOwner_odd.mpr hodd
  | giveBack handle r hpc hd =>
    refine hold ?_ (by rwa [hd] at hi') fun hodd => by rwa [hd]
    rw [hd, hinv.data.mem_giveBack] at hn'
    exact hn'.2

/-- A reservation that returned `handle` is committed. -/
def Data.Issued (d : Data R) (handle : Handle) : Prop :=
  ∃ n r, d.reservations[n]? = some r ∧ r.toHandle = handle ∧ d.runners n ≠ none

theorem Data.Issued.grows {d d' : Data R} {handle : Handle} (h : d.Issued handle)
    (hg : d.Grows d') : d'.Issued handle := by
  obtain ⟨n, r, hr, hhandle, hrun⟩ := h
  refine ⟨n, r, hg.old n r hr, hhandle, ?_⟩
  obtain ⟨runner, hrunner⟩ := Option.ne_none_iff_exists'.mp hrun
  rw [hg.runners n runner hrunner]
  nofun

/-- The handle of a committed reservation that the slot still has: the slot has the owner. -/
theorem Data.Issued.owner {d : Data R} {handle : Handle} (h : d.Issued handle) (hok : d.Ok)
    (hodd : handle.generation % 2 = 1)
    (hg : (d.slots handle.index).generation = handle.generation)
    (hfew : (d.slots handle.index).reserves < 2 ^ 31) : (d.slots handle.index).owner ≠ none := by
  obtain ⟨n, r, hr, hhandle, hrun⟩ := h
  have hslot := hok.odd_of_mod (hg ▸ hodd)
  obtain ⟨q, hq, hqh⟩ := hok.names_of_odd hslot hg
  have hle := (hok.reservation n r hr).2.2.2
  have hidx : r.index = handle.index := congrArg Handle.index hhandle
  rw [hidx] at hle
  have hlatest := hok.eq_of_handle hr hq (hqh.trans hhandle.symm) hle
    (Nat.lt_of_le_of_lt (Nat.sub_le ..) (hidx ▸ hfew))
  intro hnone
  refine hrun ?_
  rw [← hlatest]
  exact hok.uncommitted _ hslot hnone

/-- Each slot was reserved fewer than 2^31 times. -/
def Data.Few (d : Data R) : Prop := ∀ i < d.capacity, (d.slots i).reserves < 2 ^ 31

/-- No handle is removed before its commit. -/
def CommitsFirst (s : State T R) : Action T R → Prop
  | .remove _ n => s.mem.data.runners n ≠ none
  | _ => True

instance Data.Few.decidable (d : Data R) : Decidable d.Few :=
  inferInstanceAs (Decidable (∀ i < d.capacity, _))

instance CommitsFirst.decidable (s : State T R) : ∀ a : Action T R, Decidable (CommitsFirst s a)
  | .remove _ n => inferInstanceAs (Decidable (s.mem.data.runners n ≠ none))
  | .reserve _ | .commit .. | .abandon _ | .lookup .. | .snapshotLive _ | .liveCount _
  | .call _ => .isTrue trivial

/-- What the removes do to the slots where no handle is removed before its commit. -/
structure Settled (s : State T R) : Prop where
  issued : ∀ u handle, (s.pcs u).removing = some handle → s.mem.data.Issued handle
  vacant : ∀ u, Vacant s u
  kept : SlotsKept s
  gone : ∀ u handle removed, s.pcs u = .removeUnlock handle removed →
    ∀ n ∈ s.mem.data.outstanding, ∀ r, s.mem.data.reservations[n]? = some r → r.toHandle ≠ handle

theorem Settled.step_issued {a : Action T R} (hs : Settled s) (hinv : Inv s)
    (ha : CommitsFirst s a) (h : step poisons s a = some s') {u : T} {handle : Handle}
    (hu : (s'.pcs u).removing = some handle) : s'.mem.data.Issued handle := by
  refine Data.Issued.grows ?_ (step_grows hinv h)
  by_cases hua : u = a.thread
  · subst hua
    cases step_move h with
    | remove t n hrest hr =>
      simp only [State.setPc, Action.thread, Function.update_self, Pc.removing,
        Option.some.injEq] at hu
      exact ⟨n, _, hr, hu, ha⟩
    | call t hcall =>
      refine hs.issued t handle ?_
      simp only [Action.thread, Function.update_self] at hu
      generalize s.pcs t = pc at hcall
      cases hcall <;> first | exact hu | cases hu
    | _ => simp [State.setPc, Action.thread, Pc.removing] at hu
  · rw [step_pcs_of_ne h hua] at hu
    exact hs.issued u handle hu

/-- What the holder of the `alloc` mutex finds stays as it is. -/
theorem step_held {a : Action T R} (hinv : Inv s) (h : step poisons s a = some s') {u : T}
    (hua : u ≠ a.thread) (hu : (s.pcs u).inAlloc = true) :
    s'.mem.data.outstanding = s.mem.data.outstanding ∧
      s'.mem.data.reservations = s.mem.data.reservations ∧
      ∀ i, (s.mem.data.slots i).owner ≠ none → (s'.mem.data.slots i).owner ≠ none := by
  have hfree := hinv.not_inAlloc ((hinv.thread u).alloc hu) (Ne.symm hua)
  cases step_data h with
  | same hslots hres _ hout =>
    refine ⟨hout, hres, fun i hi => ?_⟩
    rwa [hslots]
  | commit n r i hpc hi hd =>
    rw [hd]
    refine ⟨rfl, rfl, fun j hj => ?_⟩
    by_cases hji : j = i
    · subst hji
      rw [Data.commit_slots_self]
      nofun
    · rwa [Data.commit_slots_of_ne hji]
  | reserve _ _ hpc | retire _ hpc | takeOwner _ hpc | giveBack _ _ hpc =>
    rw [hpc] at hfree
    cases hfree

theorem Vacant.step {a : Action T R} {u : T} (hold : Vacant s u) (hinv : Inv s)
    (hload : ∀ handle, s.pcs u = .removeLoad handle → handle.index < s.mem.data.capacity →
      (s.mem.data.slots handle.index).generation = handle.generation →
      (s.mem.data.slots handle.index).owner ≠ none)
    (h : step poisons s a = some s') : Vacant s' u := by
  by_cases hua : u = a.thread
  · subst hua
    cases step_move h with
    | call t hcall =>
      simp only [Action.thread] at hold hload ⊢
      generalize hpc : s.pcs t = pc at hcall hload
      have howner := hold.owner
      have htaken := hold.taken
      rw [hpc] at howner htaken
      refine ⟨fun handle hu => ?_, fun handle => ?_⟩ <;> dsimp only at * <;>
        simp only [Function.update_self] at *
      · cases hcall with
        | removeLoad handle' hlt hgen =>
          cases hu.resolve_right (by simp)
          exact hload handle rfl hlt hgen
        | removeStore handle' =>
          obtain rfl : handle' = handle := by simpa using hu
          rw [Data.retire_owner]
          exact howner handle' (.inl rfl)
        | removeOwnerLock handle' =>
          obtain rfl : handle' = handle := by simpa using hu
          exact howner handle' (.inr (.inl rfl))
        | _ => simp at hu
      · cases hcall with
        | removeTake handle' =>
          have hne := howner handle' (.inr (.inr rfl))
          exact ⟨by simpa using fun _ => hne, by simp⟩
        | removeOwnerUnlock handle' removed =>
          cases removed with
          | none => exact absurd rfl (htaken handle').1
          | some r => simp
        | _ => simp
    | _ => exact ⟨by simp [State.setPc, Action.thread], by simp [State.setPc, Action.thread]⟩
  · refine ⟨fun handle hu => ?_, fun handle => ?_⟩ <;> rw [step_pcs_of_ne h hua] at *
    · have hin : (s.pcs u).inAlloc = true := by
        rcases hu with hu | hu | hu <;> rw [hu] <;> rfl
      exact (step_held hinv h hua hin).2.2 _ (hold.owner handle hu)
    · exact hold.taken handle

theorem Settled.step_vacant {a : Action T R} (hs : Settled s) (hinv : Inv s)
    (hfew : s.mem.data.Few) (h : step poisons s a = some s') (u : T) : Vacant s' u := by
  refine (hs.vacant u).step hinv (fun handle hpc hlt hgen => ?_) h
  have hremoving : (s.pcs u).removing = some handle := by
    rw [hpc]
    rfl
  exact (hs.issued u handle hremoving).owner hinv.data ((hinv.thread u).odd handle hremoving) hgen
    (hfew _ hlt)

theorem Settled.step_gone {a : Action T R} (hs : Settled s) (hinv : Inv s)
    (hb : s.mem.data.Bounded) (h : step poisons s a = some s') {u : T} {handle : Handle}
    {removed : Option R} (hu : s'.pcs u = .removeUnlock handle removed) {n : Nat}
    (hn : n ∈ s'.mem.data.outstanding) {r : Reservation}
    (hr : s'.mem.data.reservations[n]? = some r) : r.toHandle ≠ handle := by
  by_cases hua : u = a.thread
  · subst hua
    rintro rfl
    cases step_move h with
    | call t hcall =>
      simp only [Action.thread, Function.update_self] at hu hn hr
      subst hu
      generalize hpc : s.pcs t = pc at hcall
      cases hcall with
      | removePast _ hle => exact absurd (hb.lt hr) (Nat.not_lt.mpr hle)
      | removeStale _ hne =>
        have hidx : s.mem.data.indexOf n = some r.index := Data.indexOf_eq_some.mpr ⟨r, hr, rfl⟩
        rcases hs.kept n r.index hn hidx with hodd | ⟨v, handle, hv, -⟩
        · exact hne (hinv.data.generation_latest hr hodd (hinv.data.latest_of_outstanding hn hidx))
        · -- the thread itself holds the mutex, and has retired nothing
          by_cases hvt : v = t
          · rw [hvt, hpc] at hv
            cases hv
          · have halloc := (hinv.thread t).alloc (by rw [hpc]; rfl)
            have hfree := hinv.not_inAlloc halloc hvt
            rw [Pc.inAlloc_of_vacating hv] at hfree
            cases hfree
      | keep => exact ((hs.vacant t).taken _).2 hpc
      | giveBack _ runner =>
        obtain ⟨hne, hmem⟩ := hinv.data.mem_giveBack.mp hn
        have hidx : s.mem.data.indexOf n = some r.index := Data.indexOf_eq_some.mpr ⟨r, hr, rfl⟩
        exact hne (hinv.data.latest_of_outstanding hmem hidx).symm
    | _ => simp [State.setPc, Action.thread] at hu
  · rw [step_pcs_of_ne h hua] at hu
    obtain ⟨hout, hres, -⟩ := step_held hinv h hua (by rw [hu]; rfl)
    exact hs.gone u handle removed hu n (hout ▸ hn) r (hres ▸ hr)

theorem Settled.step {a : Action T R} (hs : Settled s) (hinv : Inv s) (hb : s.mem.data.Bounded)
    (ha : CommitsFirst s a) (hfew : s.mem.data.Few) (h : step poisons s a = some s') :
    Settled s' where
  issued _ _ hu := hs.step_issued hinv ha h hu
  vacant := hs.step_vacant hinv hfew h
  kept := hs.kept.step hinv hs.vacant h
  gone _ _ _ hu _ hn _ hr := hs.step_gone hinv hb h hu hn hr

theorem step_reserves_le {a : Action T R} (h : step poisons s a = some s') (i : Nat) :
    (s.mem.data.slots i).reserves ≤ (s'.mem.data.slots i).reserves := by
  cases step_data h with
  | same hslots => rw [hslots]
  | reserve j g _ hd =>
    rw [hd]
    by_cases hij : i = j
    · subst hij
      rw [Data.reserve_slots_self]
      exact Nat.le_succ _
    · rw [Data.reserve_slots_of_ne hij]
  | commit n r j _ _ hd => rw [hd, Data.commit_reserves]
  | retire handle _ hd => rw [hd, Data.retire_reserves]
  | takeOwner handle _ hd => rw [hd, Data.takeOwner_reserves]
  | giveBack handle r _ hd => exact hd ▸ Nat.le_refl _

theorem step_capacity {a : Action T R} (h : step poisons s a = some s') :
    s'.mem.data.capacity = s.mem.data.capacity := by
  cases step_move h with
  | call t hcall =>
    generalize s.pcs t = pc at hcall
    cases hcall with
    | removeUnlock handle removed => cases removed <;> rfl
    | _ => rfl
  | _ => rfl

theorem capacity_of_reach {capacity : Nat} {ok : State T R → Action T R → Prop}
    (h : Reach (machine T R poisons capacity) ok s) :
    s.mem.data.capacity = min (max capacity 1) (2 ^ 32 - 2) := by
  refine h.inv (fun s => s.mem.data.capacity = min (max capacity 1) (2 ^ 32 - 2)) ?_ ?_
  · rintro _ rfl
    rfl
  · intro s a s' hs _ hstep
    exact (step_capacity hstep).trans hs

theorem settled_of_reach {capacity : Nat}
    (h : Reach (machine T R poisons capacity) CommitsFirst s) (hfew : s.mem.data.Few) :
    Settled s := by
  refine h.inv_of (fun s => Inv s ∧ s.mem.data.Bounded) (fun s => s.mem.data.Few → Settled s)
    (fun h => ⟨inv_of_reach h, bounded_of_reach h⟩) ?_ ?_ hfew
  · rintro _ rfl -
    exact ⟨nofun, fun _ => ⟨nofun, by simp [withCapacity]⟩, nofun, nofun⟩
  · intro s a s' hknown hs ha hstep hfew'
    -- a slot was reserved no more often before the step
    have hfew : s.mem.data.Few := fun i hi => Nat.lt_of_le_of_lt (step_reserves_le hstep i)
      (hfew' i (hi.trans_eq (step_capacity hstep).symm))
    exact (hs hfew).step hknown.1 hknown.2 ha hfew hstep

end DignusActor.Registry
