import DignusActor.Registry.Threads

/-! # A handle reaches the actor it was given for

`post` and `kill` look at the owner under its mutex and at the generation before and inside it,
`remove` moves the generation on under another mutex and empties the owner last. So the runner that
a lookup finds was committed under the last reservation of the slot with the generation of the
lookup; this is the reservation of the handle unless the 32-bit generation came round
(`handle_reaches_own`). -/

namespace DignusActor.Registry

open Machine (Reach)

variable {T R : Type}

/-! ## What every step keeps -/

/-- What the data keep from one state to a later one. -/
structure Data.Grows (d d' : Data R) : Prop where
  length : d.reservations.length ≤ d'.reservations.length
  old : ∀ (n : Nat) (r : Reservation), d.reservations[n]? = some r → d'.reservations[n]? = some r
  runners : ∀ n r, d.runners n = some r → d'.runners n = some r
  even : ∀ i, (d.slots i).Even →
    (d'.slots i).Even ∨ d'.indexOf d.reservations.length = some i

namespace Data

variable {d d' : Data R}

theorem Grows.of_eq (h : d' = d) : d.Grows d' := by
  subst h
  exact ⟨Nat.le_refl _, fun _ _ => id, fun _ _ => id, fun _ => .inl⟩

theorem Grows.indexOf (h : d.Grows d') {n : Nat} (hn : n < d.reservations.length) :
    d'.indexOf n = d.indexOf n := by
  have hr := List.getElem?_eq_getElem hn
  simp only [Data.indexOf, h.old n _ hr, hr]

theorem Grows.indexOf_some (h : d.Grows d') {n i : Nat} (hi : d.indexOf n = some i) :
    d'.indexOf n = some i := by
  rw [h.indexOf (indexOf_lt hi), hi]

theorem Grows.reserve {i g : Nat} : d.Grows (d.reserve i g) where
  length := by simp [reserve_reservations]
  old _ _ := reserve_getElem_old
  runners _ _ := id
  even j hj := by
    by_cases hji : j = i
    · exact .inr (hji ▸ reserve_indexOf_new)
    · exact .inl (by rwa [reserve_slots_of_ne hji])

theorem Grows.commit {n i : Nat} {runner : R} (hn : d.Pending n) :
    d.Grows (d.commit n i runner) where
  length := Nat.le_refl _
  old _ _ := id
  runners m r hr := by
    have hne : m ≠ n := fun heq => by
      rw [heq, hn.runner] at hr
      cases hr
    rw [commit_runners_of_ne hne, hr]
  even _ hj := .inl (commit_even.mpr hj)

theorem Grows.retire {handle : Handle} (hodd : (d.slots handle.index).Odd) :
    d.Grows (d.retire handle) where
  length := Nat.le_refl _
  old _ _ := id
  runners _ _ := id
  even j hj := by
    have hne : j ≠ handle.index := fun heq => hodd.not_even (heq ▸ hj)
    exact .inl (by rwa [retire_slots_of_ne hne])

theorem Grows.takeOwner {i : Nat} : d.Grows (d.takeOwner i) where
  length := Nat.le_refl _
  old _ _ := id
  runners _ _ := id
  even _ hj := .inl (takeOwner_even.mpr hj)

end Data

section

variable [DecidableEq T] {s : State T R} {t : T} {m : Mem T R} {pc : Pc R} {poisons : Bool}

omit [DecidableEq T] in
theorem callStep_grows (hinv : Inv s) (h : callStep poisons t s.mem (s.pcs t) = some (m, pc)) :
    s.mem.data.Grows m.data := by
  have hself := hinv.thread t
  generalize s.pcs t = pc₀ at h hself
  cases callStep_move h with
  | popFree | popUnused | giveBack =>
    exact ⟨Nat.le_refl _, fun _ _ => id, fun _ _ => id, fun _ => .inl⟩
  | reserveStore => exact .reserve
  | commitStore n => exact .commit (hself.pending n rfl)
  | removeStore handle =>
    have hodd := hself.odd handle rfl
    rw [← hself.matched handle rfl] at hodd
    exact .retire (hinv.data.odd_of_mod hodd)
  | removeTake => exact .takeOwner
  | removeUnlock handle removed => cases removed <;> exact .of_eq rfl
  | _ => exact .of_eq rfl

theorem step_grows {s' : State T R} {a : Action T R} (hinv : Inv s)
    (h : step poisons s a = some s') : s.mem.data.Grows s'.mem.data := by
  cases a with
  | call t =>
    obtain ⟨⟨m, pc⟩, hcall, rfl⟩ := Option.map_eq_some_iff.mp h
    exact callStep_grows hinv hcall
  | _ =>
    cases step_move h
    exact .of_eq rfl

/-- A commit that releases the owner's mutex has stored its runner. -/
def Committed (s : State T R) : Prop :=
  ∀ t n, s.pcs t = .commitUnlock n → s.mem.data.runners n ≠ none

theorem step_commitUnlock {s' : State T R} {a : Action T R} {n : Nat}
    (h : step poisons s a = some s') (ht : s'.pcs t = .commitUnlock n) :
    s.pcs t = .commitUnlock n ∨ s'.mem.data.runners n ≠ none := by
  by_cases hta : t = a.thread
  · cases step_move h with
    | call u hcall =>
      cases hta
      simp only [Action.thread, Function.update_self] at ht
      subst ht
      generalize s.pcs u = pc at hcall
      cases hcall
      exact .inr (by simp [Data.commit])
    | _ =>
      cases hta
      simp [State.setPc, Action.thread] at ht
  · rw [step_pcs_of_ne h hta] at ht
    exact .inl ht

theorem committed_of_reach {capacity : Nat} {ok : State T R → Action T R → Prop}
    (h : Reach (machine T R poisons capacity) ok s) : Committed s := by
  refine h.inv_of Inv Committed inv_of_reach ?_ fun hinv hc _ hs t n ht => ?_
  · rintro _ rfl _ _
    nofun
  · rcases step_commitUnlock hs ht with ht | hrun
    · obtain ⟨r, hr⟩ := Option.ne_none_iff_exists'.mp (hc t n ht)
      rw [(step_grows hinv hs).runners n r hr]
      nofun
    · exact hrun

end

/-! ## What the lookups and the removals leave behind -/

namespace Pc

/-- The lookup in progress. -/
def lookup : Pc R → Option Lookup
  | .lookupLoad lookup | .lookupLock lookup | .lookupRecheck lookup | .lookupClone lookup
  | .lookupUnlock lookup _ | .deliver lookup _ => some lookup
  | _ => none

/-- The runner that the lookup in progress has found. -/
def found : Pc R → Option (Lookup × R)
  | .lookupUnlock lookup (some runner) | .deliver lookup runner => some (lookup, runner)
  | _ => none

end Pc

/-- What a step does to the record of the calls. -/
inductive LookupMove (m : Mem T R) (pc : Pc R) (m' : Mem T R) (pc' : Pc R) : Prop
  | other : m'.calls = m.calls → pc'.found = none →
    (pc'.lookup = none ∨ pc'.lookup = pc.lookup) → LookupMove m pc m' pc'
  | clone (lookup : Lookup) (runner : R) : pc = .lookupClone lookup →
    (m.data.slots lookup.index).owner = some runner → m'.calls = m.calls →
    pc' = .lookupUnlock lookup (some runner) → LookupMove m pc m' pc'
  | keep (lookup : Lookup) (runner : R) : pc = .lookupUnlock lookup (some runner) →
    m'.calls = m.calls → pc' = .deliver lookup runner → LookupMove m pc m' pc'
  | deliver (lookup : Lookup) (runner : R) : pc = .deliver lookup runner →
    m'.calls = m.calls ++ [(lookup, runner)] → pc' = .idle → LookupMove m pc m' pc'

/-- What a step does to the record of the removals. -/
inductive RemoveMove (m : Mem T R) (pc : Pc R) (m' : Mem T R) (pc' : Pc R) : Prop
  | other : m'.removals = m.removals → pc'.matched = none → RemoveMove m pc m' pc'
  | matched (handle : Handle) : pc = .removeLoad handle →
    (m.data.slots handle.index).generation = handle.generation → m'.removals = m.removals →
    m'.data = m.data → pc' = .removeStore handle → RemoveMove m pc m' pc'
  | keep (handle : Handle) : pc.matched = some handle → pc'.matched = some handle →
    m'.removals = m.removals → RemoveMove m pc m' pc'
  | ended (handle : Handle) (runner : R) : pc = .removeUnlock handle (some runner) →
    m'.removals = m.removals ++ [{ handle with ended := m.data.reservations.length }] →
    m'.data = m.data → pc'.matched = none → RemoveMove m pc m' pc'

section

variable {m m' : Mem T R} {t : T} {pc pc' : Pc R} {poisons : Bool}

theorem callStep_moves (h : callStep poisons t m pc = some (m', pc')) :
    LookupMove m pc m' pc' ∧ RemoveMove m pc m' pc' := by
  cases callStep_move h with
  | lookupLoad | lookupLock | recheckStale | lookupRecheck =>
    exact ⟨.other rfl rfl (.inr rfl), .other rfl rfl⟩
  | lookupClone lookup =>
    cases hr : (m.data.slots lookup.index).owner with
    | none => exact ⟨.other rfl rfl (.inr rfl), .other rfl rfl⟩
    | some runner => exact ⟨.clone lookup runner rfl hr rfl rfl, .other rfl rfl⟩
  | lookupSome lookup runner => exact ⟨.keep lookup runner rfl rfl rfl, .other rfl rfl⟩
  | deliver lookup runner => exact ⟨.deliver lookup runner rfl rfl rfl, .other rfl rfl⟩
  | removeLoad handle _ hg =>
    exact ⟨.other rfl rfl (.inl rfl), .matched handle rfl hg rfl rfl rfl⟩
  | removeStore handle | removeOwnerLock handle | removeTake handle | removeOwnerUnlock handle
  | giveBack handle => exact ⟨.other rfl rfl (.inl rfl), .keep handle rfl rfl rfl⟩
  | removeUnlock handle removed =>
    cases removed with
    | none => exact ⟨.other rfl rfl (.inl rfl), .other rfl rfl⟩
    | some runner => exact ⟨.other rfl rfl (.inl rfl), .ended handle runner rfl rfl rfl rfl⟩
  | _ => exact ⟨.other rfl rfl (.inl rfl), .other rfl rfl⟩

end

/-- `runner` was committed under a reservation of the lookup's handle, and no later one of the slot
was there when the lookup began. -/
def Data.Found (d : Data R) (lookup : Lookup) (runner : R) : Prop :=
  ∃ n r, d.reservations[n]? = some r ∧ r.toHandle = lookup.toHandle ∧ d.runners n = some runner ∧
    ∀ k < lookup.began, d.indexOf k = some lookup.index → k ≤ n

/-- The slot was reserved again since the removal. -/
def Data.Reused (d : Data R) (p : Removal) : Prop :=
  ∃ n, p.ended ≤ n ∧ d.indexOf n = some p.index

/-- The removal was of the last reservation of the slot. -/
def Data.Recorded (d : Data R) (p : Removal) : Prop :=
  p.ended ≤ d.reservations.length ∧
    ∃ n r, d.reservations[n]? = some r ∧ r.toHandle = p.toHandle ∧ n < p.ended ∧
      ∀ k < p.ended, d.indexOf k = some p.index → k ≤ n

namespace Data

variable {d d' : Data R}

theorem Found.grows {lookup : Lookup} {runner : R} (h : d.Found lookup runner) (hg : d.Grows d')
    (hbegan : lookup.began ≤ d.reservations.length) : d'.Found lookup runner := by
  obtain ⟨n, r, hr, hhandle, hrun, hlast⟩ := h
  refine ⟨n, r, hg.old n r hr, hhandle, hg.runners n runner hrun, fun k hk hidx => ?_⟩
  rw [hg.indexOf (Nat.lt_of_lt_of_le hk hbegan)] at hidx
  exact hlast k hk hidx

theorem Reused.grows {p : Removal} (h : d.Reused p) (hg : d.Grows d') : d'.Reused p := by
  obtain ⟨n, hn, hidx⟩ := h
  exact ⟨n, hn, hg.indexOf_some hidx⟩

theorem Recorded.grows {p : Removal} (h : d.Recorded p) (hg : d.Grows d') : d'.Recorded p := by
  obtain ⟨hended, n, r, hr, hhandle, hn, hlast⟩ := h
  refine ⟨Nat.le_trans hended hg.length, n, r, hg.old n r hr, hhandle, hn, fun k hk hidx => ?_⟩
  rw [hg.indexOf (Nat.lt_of_lt_of_le hk hended)] at hidx
  exact hlast k hk hidx

/-- Under the owner's mutex the owner of a current handle is the runner of its reservation. -/
theorem Ok.found (h : d.Ok) {lookup : Lookup} {runner : R} (hc : d.Current lookup.toHandle)
    (hr : (d.slots lookup.index).owner = some runner) : d.Found lookup runner := by
  obtain ⟨-, -, hrun⟩ := h.owner _ runner hr
  obtain ⟨r, hres, hhandle⟩ := hc.names
  refine ⟨_, r, hres, hhandle, hrun, fun k _ hidx => ?_⟩
  obtain ⟨q, hq, hqi⟩ := indexOf_eq_some.mp hidx
  exact hqi ▸ (h.reservation k q hq).2.2.2

end Data

/-- The lookups in progress and the calls they made. -/
structure Lookups (s : State T R) : Prop where
  began : ∀ t lookup, (s.pcs t).lookup = some lookup →
    lookup.began ≤ s.mem.data.reservations.length
  found : ∀ t lookup runner, (s.pcs t).found = some (lookup, runner) →
    lookup.generation % 2 = 1 → s.mem.data.Found lookup runner
  calls : ∀ call ∈ s.mem.calls, call.1.began ≤ s.mem.data.reservations.length ∧
    (call.1.generation % 2 = 1 → s.mem.data.Found call.1 call.2)

/-- The removals, and the ones in progress. -/
structure Removals (s : State T R) : Prop where
  recorded : ∀ p ∈ s.mem.removals, s.mem.data.Recorded p
  reused : ∀ p ∈ s.mem.removals, s.mem.data.Reused p ∨ (s.mem.data.slots p.index).Even
  apart : s.mem.removals.Pairwise fun p q => p.index = q.index →
    ∃ n, p.ended ≤ n ∧ n < q.ended ∧ s.mem.data.indexOf n = some q.index
  matched : ∀ t handle, (s.pcs t).matched = some handle →
    ∀ p ∈ s.mem.removals, p.index = handle.index → s.mem.data.Reused p

theorem Pc.lookup_of_found {pc : Pc R} {lookup : Lookup} {runner : R}
    (h : pc.found = some (lookup, runner)) : pc.lookup = some lookup := by
  unfold Pc.found at h
  split at h <;> cases h <;> rfl

section

variable [DecidableEq T] {s : State T R} {t : T} {m : Mem T R} {pc : Pc R} {poisons : Bool}

theorem Lookups.update (hl : Lookups s) (hinv : Inv s) (hg : s.mem.data.Grows m.data)
    (hmove : LookupMove s.mem (s.pcs t) m pc) :
    Lookups { s with mem := m, pcs := Function.update s.pcs t pc } where
  began u lookup hu := by
    refine Nat.le_trans ?_ hg.length
    dsimp only at hu
    by_cases hut : u = t
    · subst hut
      rw [Function.update_self] at hu
      cases hmove with
      | other _ _ h =>
        rcases h with h | h
        · cases h.symm.trans hu
        · exact hl.began u lookup (h ▸ hu)
      | clone l r hpc _ _ h | keep l r hpc _ h =>
        subst h
        cases hu
        exact hl.began u lookup (by rw [hpc]; rfl)
      | deliver l r _ _ h =>
        subst h
        cases hu
    · rw [Function.update_of_ne hut] at hu
      exact hl.began u lookup hu
  found u lookup runner hu hodd := by
    dsimp only at hu
    by_cases hut : u = t
    · subst hut
      rw [Function.update_self] at hu
      cases hmove with
      | other _ h => cases h.symm.trans hu
      | clone l r hpc hr _ h =>
        subst h
        cases hu
        have hc := (hinv.thread u).current lookup hpc hodd
        exact (hinv.data.found hc hr).grows hg (hl.began u lookup (by rw [hpc]; rfl))
      | keep l r hpc _ h =>
        subst h
        cases hu
        exact (hl.found u lookup runner (by rw [hpc]; rfl) hodd).grows hg
          (hl.began u lookup (by rw [hpc]; rfl))
      | deliver l r _ _ h =>
        subst h
        cases hu
    · rw [Function.update_of_ne hut] at hu
      exact (hl.found u lookup runner hu hodd).grows hg
        (hl.began u lookup (Pc.lookup_of_found hu))
  calls call hcall := by
    have hold (hcall : call ∈ s.mem.calls) :
        call.1.began ≤ m.data.reservations.length ∧
          (call.1.generation % 2 = 1 → m.data.Found call.1 call.2) := by
      obtain ⟨hbegan, hfound⟩ := hl.calls call hcall
      exact ⟨Nat.le_trans hbegan hg.length, fun hodd => (hfound hodd).grows hg hbegan⟩
    dsimp only at hcall
    cases hmove with
    | other h | clone _ _ _ _ h | keep _ _ _ h => exact hold (h ▸ hcall)
    | deliver l r hpc h =>
      rw [h] at hcall
      rcases List.mem_append.mp hcall with hcall | hcall
      · exact hold hcall
      · rw [List.mem_singleton.mp hcall]
        have hbegan := hl.began t l (by rw [hpc]; rfl)
        exact ⟨Nat.le_trans hbegan hg.length, fun hodd =>
          (hl.found t l r (by rw [hpc]; rfl) hodd).grows hg hbegan⟩

theorem Removals.update (hr : Removals s) (hinv : Inv s) (hg : s.mem.data.Grows m.data)
    (hmove : RemoveMove s.mem (s.pcs t) m pc) :
    Removals { s with mem := m, pcs := Function.update s.pcs t pc } := by
  have hevenOld (p : Removal) (hp : p ∈ s.mem.removals) :
      m.data.Reused p ∨ (m.data.slots p.index).Even := by
    rcases hr.reused p hp with h | h
    · exact .inl (h.grows hg)
    · rcases hg.even p.index h with h | h
      · exact .inr h
      · exact .inl ⟨_, (hr.recorded p hp).1, h⟩
  have hapartOld : s.mem.removals.Pairwise fun p q => p.index = q.index →
      ∃ n, p.ended ≤ n ∧ n < q.ended ∧ m.data.indexOf n = some q.index :=
    hr.apart.imp fun h hidx =>
      let ⟨n, h1, h2, h3⟩ := h hidx
      ⟨n, h1, h2, hg.indexOf_some h3⟩
  have hsame (hremovals : m.removals = s.mem.removals)
      (hself : ∀ handle, pc.matched = some handle → ∀ p ∈ s.mem.removals,
        p.index = handle.index → s.mem.data.Reused p) :
      Removals { s with mem := m, pcs := Function.update s.pcs t pc } := by
    refine ⟨?_, ?_, ?_, ?_⟩ <;> dsimp only <;> rw [hremovals]
    · exact fun p hp => (hr.recorded p hp).grows hg
    · exact hevenOld
    · exact hapartOld
    · intro u handle hu p hp hidx
      by_cases hut : u = t
      · subst hut
        rw [Function.update_self] at hu
        exact (hself handle hu p hp hidx).grows hg
      · rw [Function.update_of_ne hut] at hu
        exact (hr.matched u handle hu p hp hidx).grows hg
  cases hmove with
  | other hremovals hnone => exact hsame hremovals fun handle h => by cases hnone.symm.trans h
  | keep handle hold hnew hremovals =>
    refine hsame hremovals fun handle' h => ?_
    cases hnew.symm.trans h
    exact hr.matched t handle hold
  | matched handle hpc hgen hremovals hdata hnew =>
    refine hsame hremovals fun handle' h p hp hidx => ?_
    subst hnew
    cases h
    -- the generation is odd, so the slot was reserved since
    have hodd := (hinv.thread t).odd handle (by rw [hpc]; rfl)
    rw [← hgen] at hodd
    refine (hr.reused p hp).resolve_right fun heven => ?_
    exact (hinv.data.odd_of_mod hodd).not_even (hidx ▸ heven)
  | ended handle runner hpc hremovals hdata hnone =>
    have hself := hinv.thread t
    rw [hpc] at hself
    have halloc := hself.alloc rfl
    have hmatched : (s.pcs t).matched = some handle := by rw [hpc]; rfl
    refine ⟨?_, ?_, ?_, ?_⟩ <;> dsimp only
    · intro p hp
      rw [hremovals] at hp
      rcases List.mem_append.mp hp with hp | hp
      · exact (hr.recorded p hp).grows hg
      · rw [List.mem_singleton.mp hp]
        obtain ⟨r, hres, hhandle⟩ := hself.names handle rfl
        rw [hdata]
        refine ⟨Nat.le_refl _, _, r, hres, hhandle, (List.getElem?_eq_some_iff.mp hres).1, ?_⟩
        intro k _ hidx
        obtain ⟨q, hq, hqi⟩ := Data.indexOf_eq_some.mp hidx
        have hle := (hinv.data.reservation k q hq).2.2.2
        rw [hqi] at hle
        exact hle
    · intro p hp
      rw [hremovals] at hp
      rcases List.mem_append.mp hp with hp | hp
      · exact hevenOld p hp
      · rw [List.mem_singleton.mp hp, hdata]
        exact .inr (hself.retired handle rfl)
    · rw [hremovals]
      refine List.pairwise_append.mpr ⟨hapartOld, List.pairwise_singleton .., ?_⟩
      intro p hp q hq hidx
      rw [List.mem_singleton.mp hq] at hidx ⊢
      obtain ⟨n, hn, hni⟩ := hr.matched t handle hmatched p hp hidx
      refine ⟨n, hn, Data.indexOf_lt hni, ?_⟩
      rw [hdata, hni]
      exact congrArg some hidx
    · -- no other thread is inside `remove`
      intro u handle' hu
      by_cases hut : u = t
      · subst hut
        rw [Function.update_self] at hu
        cases hnone.symm.trans hu
      · rw [Function.update_of_ne hut] at hu
        have hin := Pc.inAlloc_of_matched hu
        rw [hinv.not_inAlloc halloc hut] at hin
        cases hin

theorem step_traced {s' : State T R} {a : Action T R} (hinv : Inv s) (hl : Lookups s)
    (hr : Removals s) (h : step poisons s a = some s') : Lookups s' ∧ Removals s' := by
  have hgrows : s.mem.data.Grows s.mem.data := .of_eq rfl
  have hstart {t : T} {pc : Pc R} (hlookup : pc.lookup = none) (hfound : pc.found = none)
      (hmatched : pc.matched = none) : Lookups (s.setPc t pc) ∧ Removals (s.setPc t pc) :=
    ⟨hl.update hinv hgrows (.other rfl hfound (.inl hlookup)),
      hr.update hinv hgrows (.other rfl hmatched)⟩
  have hbegin {t : T} {pc : Pc R} (h : s.begin t pc = some s') (hlookup : pc.lookup = none)
      (hfound : pc.found = none) (hmatched : pc.matched = none) : Lookups s' ∧ Removals s' := by
    unfold State.begin at h
    split at h <;> cases h
    exact hstart hlookup hfound hmatched
  cases a with
  | reserve | snapshotLive | liveCount => exact hbegin h rfl rfl rfl
  | commit t runner | abandon t =>
    simp only [step] at h
    split at h <;> cases h
    exact hstart rfl rfl rfl
  | lookup t request handle =>
    simp only [step, State.begin] at h
    split at h <;> cases h
    refine ⟨⟨fun u lookup hu => ?_, fun u lookup runner hu => ?_, hl.calls⟩,
      hr.update hinv hgrows (.other rfl rfl)⟩
    · by_cases hut : u = t
      · subst hut
        simp only [State.setPc, Function.update_self] at hu
        cases hu
        exact Nat.le_refl _
      · simp only [State.setPc, Function.update_of_ne hut] at hu
        exact hl.began u lookup hu
    · by_cases hut : u = t
      · subst hut
        simp only [State.setPc, Function.update_self] at hu
        cases hu
      · simp only [State.setPc, Function.update_of_ne hut] at hu
        exact hl.found u lookup runner hu
  | remove t n =>
    simp only [step, Option.bind_eq_some_iff] at h
    obtain ⟨r, -, h⟩ := h
    exact hbegin h rfl rfl rfl
  | call t =>
    simp only [step, Option.map_eq_some_iff] at h
    obtain ⟨⟨m, pc⟩, h, rfl⟩ := h
    obtain ⟨hlm, hrm⟩ := callStep_moves h
    have hg := callStep_grows hinv h
    exact ⟨hl.update hinv hg hlm, hr.update hinv hg hrm⟩

theorem traced_of_reach {capacity : Nat} {ok : State T R → Action T R → Prop}
    (h : Reach (machine T R poisons capacity) ok s) : Lookups s ∧ Removals s := by
  refine h.inv_of Inv (fun s => Lookups s ∧ Removals s) inv_of_reach ?_ ?_
  · rintro _ rfl
    exact ⟨⟨fun _ _ => nofun, fun _ _ _ => nofun, nofun⟩, ⟨nofun, nofun, .nil, fun _ _ => nofun⟩⟩
  · intro s a s' hinv htraced _ hs
    exact step_traced hinv htraced.1 htraced.2 hs

end

/-- Two reservations with one handle are the same, unless the slot was reserved 2^31 times in
between. -/
theorem Data.Ok.eq_of_handle {d : Data R} (h : d.Ok) {n m : Nat} {r q : Reservation}
    (hr : d.reservations[n]? = some r) (hq : d.reservations[m]? = some q)
    (hhandle : q.toHandle = r.toHandle) (hle : n ≤ m)
    (hreuse : (d.slots r.index).reserves - r.ordinal < 2 ^ 31) : m = n := by
  refine (Nat.lt_or_eq_of_le hle).elim (fun hlt => ?_) Eq.symm
  have hidx : r.index = q.index := congrArg Handle.index hhandle.symm
  have hgen : q.generation = r.generation := congrArg Handle.generation hhandle
  have hord := h.ordinal n m r q hr hq hidx hlt
  obtain ⟨h1, h2, -, -⟩ := h.reservation n r hr
  obtain ⟨-, h4, h5, -⟩ := h.reservation m q hq
  rw [← hidx] at h5
  have hreuse' : q.ordinal - r.ordinal < 2 ^ 31 :=
    Nat.lt_of_le_of_lt (Nat.sub_le_sub_right h5 _) hreuse
  rw [h2, h4] at hgen
  exact absurd (oddGeneration_inj h1 (Nat.le_of_lt hord) hreuse' hgen.symm) (Nat.ne_of_lt hord)

section

variable [DecidableEq T] {s : State T R} {poisons : Bool} {capacity : Nat}

/-- **A handle reaches only the actor it was given for**, and only one `remove` by it returns
`Some`, as long as its slot is reserved fewer than 2^31 further times. -/
theorem handle_reaches_own (h : Reach (machine T R poisons capacity) Machine.free s) {n : Nat}
    {r : Reservation} (hr : s.mem.data.reservations[n]? = some r)
    (hreuse : (s.mem.data.slots r.index).reserves - r.ordinal < 2 ^ 31) :
    (∀ call ∈ s.mem.calls, call.1.toHandle = r.toHandle → n < call.1.began →
      s.mem.data.runners n = some call.2) ∧
    (s.mem.removals.filter fun p => p.toHandle = r.toHandle ∧ n < p.ended).length ≤ 1 := by
  have hinv := inv_of_reach h
  obtain ⟨hl, hrem⟩ := traced_of_reach h
  obtain ⟨hord, hgen, -⟩ := hinv.data.reservation n r hr
  refine ⟨fun call hcall hhandle hbegan => ?_, ?_⟩
  · have hodd : call.1.generation % 2 = 1 := by
      rw [show call.1.generation = r.generation from congrArg Handle.generation hhandle, hgen,
        oddGeneration_mod hord]
    obtain ⟨m, q, hq, hqh, hrun, hlast⟩ := (hl.calls call hcall).2 hodd
    have hidx : s.mem.data.indexOf n = some call.1.index :=
      Data.indexOf_eq_some.mpr ⟨r, hr, congrArg Handle.index hhandle.symm⟩
    have hmn := hinv.data.eq_of_handle hr hq (hqh.trans hhandle) (hlast n hbegan hidx) hreuse
    exact hmn ▸ hrun
  · -- of two such removals the later one would be of a later reservation
    have hapart := hrem.apart.filter fun p => p.toHandle = r.toHandle ∧ n < p.ended
    have hmem (p : Removal) (hp : p ∈ s.mem.removals.filter fun p =>
        p.toHandle = r.toHandle ∧ n < p.ended) :
        p ∈ s.mem.removals ∧ p.toHandle = r.toHandle ∧ n < p.ended := by
      simpa using hp
    match hf : s.mem.removals.filter fun p => p.toHandle = r.toHandle ∧ n < p.ended with
    | [] => exact hf ▸ Nat.zero_le 1
    | [_] => exact hf ▸ Nat.le_refl 1
    | p :: q :: l =>
      rw [hf] at hapart hmem
      obtain ⟨-, hph, hpn⟩ := hmem p List.mem_cons_self
      obtain ⟨hq, hqh, hqn⟩ := hmem q (List.mem_cons_of_mem p List.mem_cons_self)
      have hidx : p.index = q.index := congrArg Handle.index (hph.trans hqh.symm)
      obtain ⟨k, hpk, hkq, hki⟩ := (List.pairwise_cons.mp hapart).1 q List.mem_cons_self hidx
      obtain ⟨-, m, ρ, hρ, hρh, -, hlast⟩ := hrem.recorded q hq
      have hni : s.mem.data.indexOf n = some q.index :=
        Data.indexOf_eq_some.mpr ⟨r, hr, congrArg Handle.index hqh.symm⟩
      have hmn := hinv.data.eq_of_handle hr hρ (hρh.trans hqh) (hlast n hqn hni) hreuse
      have hkm := hlast k hkq hki
      omega

/-- Thread 0 reserves, commits runner 7 and posts to it; it is removed, thread 1 reserves the slot
again and commits runner 8, and a post by the old handle finds nothing. -/
def reused : State Nat Nat :=
  ((machine Nat Nat true 1).run (withCapacity Nat Nat 1)
    ([Action.reserve 0] ++ List.replicate 6 (Action.call 0) ++ [Action.commit 0 7] ++
    List.replicate 3 (Action.call 0) ++
      [Action.lookup 1 .post ⟨0, 1⟩] ++ List.replicate 6 (Action.call 1) ++
      [Action.remove 0 0] ++ List.replicate 8 (Action.call 0) ++
      [Action.reserve 1] ++ List.replicate 6 (Action.call 1) ++ [Action.commit 1 8] ++
      List.replicate 3 (Action.call 1) ++
      [Action.lookup 0 .kill ⟨0, 1⟩, Action.call 0])).get rfl

theorem handle_reaches_own_reused :
    reused.mem.data.reservations[0]? = some ⟨⟨0, 1⟩, 1⟩ ∧ (reused.mem.data.slots 0).reserves = 2 ∧
      reused.mem.calls.map (·.2) = [7] ∧ reused.mem.removals.length = 1 ∧
      (∀ call ∈ reused.mem.calls, call.1.toHandle = ⟨0, 1⟩ → 0 < call.1.began →
        reused.mem.data.runners 0 = some call.2) ∧
      (reused.mem.removals.filter fun p => p.toHandle = ⟨0, 1⟩ ∧ 0 < p.ended).length ≤ 1 :=
  ⟨rfl, rfl, rfl, rfl,
    handle_reaches_own (.get_free rfl rfl) (r := ⟨⟨0, 1⟩, 1⟩) rfl (by decide)⟩

end

end DignusActor.Registry
