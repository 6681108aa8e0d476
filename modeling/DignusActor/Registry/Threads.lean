import DignusActor.Registry.Slots
import DignusActor.Registry.Moves

/-! # The threads of the registry

What each thread relies on at each of its steps (`ThreadOk`), by what it holds: the `alloc` mutex,
the mutex of an owner, or a reservation that waits for its commit. A change under the `alloc` mutex
touches nothing that another thread relies on under that mutex; what is left to prove for each
change is what the reservations and the lookups of other threads rely on. -/

namespace DignusActor.Registry

open Machine (Reach)

variable {T R : Type}

namespace Pc

/-- The thread holds the `alloc` mutex. -/
def inAlloc : Pc R → Bool
  | .reservePop | .reserveLoad _ | .reserveStore .. | .reserveLive _ | .reserveUnlock _
  | .removeLoad _ | .removeStore _ | .removeOwnerLock _ | .removeTake _ | .removeOwnerUnlock ..
  | .removeFree .. | .removeUnlock .. | .snapshotSlot .. | .snapshotClone ..
  | .snapshotOwnerUnlock .. | .snapshotUnlock _ | .countRead | .countUnlock _ => true
  | _ => false

/-- The slot whose owner's mutex the thread holds. -/
def inOwner (d : Data R) : Pc R → Option Nat
  | .commitStore n _ | .commitUnlock n => d.indexOf n
  | .lookupRecheck lookup | .lookupClone lookup | .lookupUnlock lookup _ => some lookup.index
  | .removeTake handle | .removeOwnerUnlock handle _ => some handle.index
  | .snapshotClone i _ | .snapshotOwnerUnlock i _ => some i
  | _ => none

/-- The slot that `reserve` has taken from `alloc`. -/
def popped : Pc R → Option Nat
  | .reserveLoad i | .reserveStore i _ => some i
  | _ => none

/-- The reservation that waits for its commit. -/
def pending : Pc R → Option Nat
  | .reserveLive n | .reserveUnlock n | .reserved n | .commitLock n _ | .commitStore n _ => some n
  | _ => none

/-- The reservation that the thread is committing or has just made. -/
def reservation : Pc R → Option Nat
  | .reserveLive n | .reserveUnlock n | .reserved n | .commitLock n _ | .commitStore n _
  | .commitUnlock n => some n
  | _ => none

/-- The argument of `remove`. -/
def removing : Pc R → Option Handle
  | .removeLock handle | .removeLoad handle | .removeStore handle | .removeOwnerLock handle
  | .removeTake handle | .removeOwnerUnlock handle _ | .removeFree handle _
  | .removeUnlock handle _ => some handle
  | _ => none

/-- The handle whose slot `remove` has given the next generation. -/
def retired : Pc R → Option Handle
  | .removeOwnerLock handle | .removeTake handle | .removeOwnerUnlock handle _
  | .removeFree handle _ | .removeUnlock handle (some _) => some handle
  | _ => none

/-- The handle that `remove` has found to be the current one of its slot. -/
def matched : Pc R → Option Handle
  | .removeStore handle => some handle
  | pc => pc.retired

/-- The slot that `remove` has taken the owner of and has not given back. -/
def taken : Pc R → Option Nat
  | .removeOwnerUnlock handle (some _) | .removeFree handle (some _) => some handle.index
  | _ => none

end Pc

theorem step_call_pending [DecidableEq T] {poisons : Bool} {s s' : State T R} {t : T} {n : Nat}
    (h : step poisons s (.call t) = some s') (hn : (s'.pcs t).pending = some n) :
    (s.pcs t).pending = some n ∨ n = s.mem.data.reservations.length := by
  cases step_move h with
  | call _ hcall =>
    simp only [Function.update_self] at hn
    generalize s.pcs t = pc at hcall
    cases hcall with
    | reserveStore => exact .inr (Option.some.inj hn).symm
    | reserveLive | reserveUnlock | commitLock => exact .inl hn
    | _ => cases hn

/-- `reserve` has slot `i` to itself. -/
structure Data.Popped (d : Data R) (i : Nat) : Prop extends d.Clear i where
  not_free : i ∉ d.free
  used : i < d.nextUnused

/-- What thread `t` relies on; a field that is left out says nothing at `pc`. -/
structure ThreadOk (m : Mem T R) (t : T) (pc : Pc R) : Prop where
  alloc : pc.inAlloc = true → m.alloc = some t := by rintro ⟨⟩
  owner : ∀ i, pc.inOwner m.data = some i → m.owners i = some t := by rintro _ ⟨⟩
  popped : ∀ i, pc.popped = some i → m.data.Popped i := by rintro _ ⟨⟩
  generation : ∀ i g, pc = .reserveStore i g →
    g = wrappingSucc (m.data.slots i).generation := by rintro _ _ ⟨⟩
  known : ∀ n, pc.reservation = some n → n < m.data.reservations.length := by rintro _ ⟨⟩
  pending : ∀ n, pc.pending = some n → m.data.Pending n := by rintro _ ⟨⟩
  current : ∀ lookup, pc = .lookupClone lookup → lookup.generation % 2 = 1 →
    m.data.Current lookup.toHandle := by rintro _ ⟨⟩
  odd : ∀ handle, pc.removing = some handle → handle.generation % 2 = 1 := by rintro _ ⟨⟩
  matched : ∀ handle, pc = .removeStore handle →
    (m.data.slots handle.index).generation = handle.generation := by rintro _ ⟨⟩
  names : ∀ handle, pc.matched = some handle → m.data.Names handle := by rintro _ ⟨⟩
  retired : ∀ handle, pc.retired = some handle → (m.data.slots handle.index).Even := by
    rintro _ ⟨⟩
  taken : ∀ i, pc.taken = some i → m.data.Taken i := by rintro _ ⟨⟩

structure Inv (s : State T R) : Prop where
  data : s.mem.data.Ok
  thread : ∀ t, ThreadOk s.mem t (s.pcs t)
  unique : ∀ t u n, (s.pcs t).pending = some n → (s.pcs u).pending = some n → t = u

/-! ## What a step of one thread leaves to the others -/

section

variable {m m' : Mem T R} {t u : T} {pc : Pc R}

/-- The mutexes change hands. -/
theorem ThreadOk.of_locks (h : ThreadOk m u pc) (hdata : m'.data = m.data)
    (halloc : m.alloc = some u → m'.alloc = some u)
    (howner : ∀ i, m.owners i = some u → m'.owners i = some u) : ThreadOk m' u pc where
  alloc ha := halloc (h.alloc ha)
  owner i hi := howner i (h.owner i (hdata ▸ hi))
  popped i hi := hdata ▸ h.popped i hi
  generation i g hpc := hdata ▸ h.generation i g hpc
  known n hn := hdata ▸ h.known n hn
  pending n hn := hdata ▸ h.pending n hn
  current l hpc hodd := hdata ▸ h.current l hpc hodd
  odd := h.odd
  matched l hpc := hdata ▸ h.matched l hpc
  names l hpc := hdata ▸ h.names l hpc
  retired l hpc := hdata ▸ h.retired l hpc
  taken i hi := hdata ▸ h.taken i hi

theorem Pc.inAlloc_of_popped {i : Nat} (h : pc.popped = some i) : pc.inAlloc = true := by
  cases pc <;> first | rfl | cases h

theorem Pc.inAlloc_of_retired {handle : Handle} (h : pc.retired = some handle) :
    pc.inAlloc = true := by
  unfold Pc.retired at h
  split at h <;> first | rfl | cases h

theorem Pc.inAlloc_of_matched {handle : Handle} (h : pc.matched = some handle) :
    pc.inAlloc = true := by
  unfold Pc.matched at h
  split at h
  · rfl
  · exact Pc.inAlloc_of_retired h

theorem Pc.inAlloc_of_taken {i : Nat} (h : pc.taken = some i) : pc.inAlloc = true := by
  unfold Pc.taken at h
  split at h
  · rfl
  · rfl
  · cases h

theorem Pc.inOwner_congr {d d' : Data R} (hidx : ∀ n, pc.reservation = some n →
    d'.indexOf n = d.indexOf n) : pc.inOwner d' = pc.inOwner d := by
  cases pc <;> first | rfl | exact hidx _ rfl

/-- The data change under the `alloc` mutex, which another thread holds. -/
theorem ThreadOk.of_alloc (h : ThreadOk m u pc) (hlocks : m'.owners = m.owners)
    (hfree : pc.inAlloc = false)
    (hlen : m.data.reservations.length ≤ m'.data.reservations.length)
    (hidx : ∀ n < m.data.reservations.length, m'.data.indexOf n = m.data.indexOf n)
    (hpending : ∀ n, m.data.Pending n → m'.data.Pending n)
    (hcurrent : ∀ lookup : Lookup, pc = .lookupClone lookup → m.data.Current lookup.toHandle →
      m'.data.Current lookup.toHandle) : ThreadOk m' u pc where
  alloc ha := by simp [hfree] at ha
  owner i hi := by
    rw [Pc.inOwner_congr fun n hn => hidx n (h.known n hn)] at hi
    rw [hlocks]
    exact h.owner i hi
  popped i hi := by simp [Pc.inAlloc_of_popped hi] at hfree
  generation i g hpc := by simp [hpc, Pc.inAlloc] at hfree
  known n hn := Nat.lt_of_lt_of_le (h.known n hn) hlen
  pending n hn := hpending n (h.pending n hn)
  current l hpc hodd := hcurrent l hpc (h.current l hpc hodd)
  odd := h.odd
  matched l hpc := by simp [hpc, Pc.inAlloc] at hfree
  names l hpc := by simp [Pc.inAlloc_of_matched hpc] at hfree
  retired l hpc := by simp [Pc.inAlloc_of_retired hpc] at hfree
  taken i hi := by simp [Pc.inAlloc_of_taken hi] at hfree

theorem Data.Popped.commit {d : Data R} {i n j : Nat} {runner : R} (h : d.Popped i)
    (hn : n ∈ d.outstanding) (hj : d.indexOf n = some j) : (d.commit n j runner).Popped i :=
  { h.toClear.commit hn hj with not_free := h.not_free, used := h.used }

/-- Another thread commits reservation `n`, holding the mutex of its owner. -/
theorem ThreadOk.of_commit (h : ThreadOk m u pc) {n i : Nat} {runner : R} (hok : m.data.Ok)
    (hn : m.data.Pending n) (hi : m.data.indexOf n = some i) (hheld : m.owners i = some t)
    (hut : u ≠ t) (hne : pc.pending ≠ some n) :
    ThreadOk { m with data := m.data.commit n i runner } u pc where
  alloc := h.alloc
  owner := h.owner
  popped j hj := (h.popped j hj).commit hn.outstanding hi
  generation j g hpc := (h.generation j g hpc).trans (by rw [Data.commit_generation])
  known := h.known
  pending k hk := (h.pending k hk).commit hok hn.outstanding hi fun heq => hne (heq ▸ hk)
  current l hpc hodd := by
    refine (h.current l hpc hodd).commit hi fun heq => hut ?_
    have howner := h.owner l.index (by rw [hpc]; rfl)
    rw [heq, hheld] at howner
    exact (Option.some.inj howner).symm
  odd := h.odd
  matched l hpc := (Data.commit_generation _).trans (h.matched l hpc)
  names l hpc := by
    obtain ⟨r, hr, hhandle⟩ := h.names l hpc
    refine ⟨r, ?_, hhandle⟩
    rw [Data.commit_latest]
    exact hr
  retired l hpc := Data.commit_even.mpr (h.retired l hpc)
  taken j hj := (h.taken j hj).commit hok hn hi

theorem Inv.update [DecidableEq T] {s : State T R} (hinv : Inv s) (hdata : m.data.Ok)
    (hself : ThreadOk m t pc) (hothers : ∀ u, u ≠ t → ThreadOk m u (s.pcs u))
    (hpending : ∀ n, pc.pending = some n →
      (s.pcs t).pending = some n ∨ ∀ u, u ≠ t → (s.pcs u).pending ≠ some n := by rintro _ ⟨⟩) :
    Inv { s with mem := m, pcs := Function.update s.pcs t pc } where
  data := hdata
  thread u := by
    dsimp only
    by_cases hu : u = t
    · subst hu
      rwa [Function.update_self]
    · rw [Function.update_of_ne hu]
      exact hothers u hu
  unique u v n hun hvn := by
    dsimp only at hun hvn
    by_cases hu : u = t <;> by_cases hv : v = t
    · exact hu.trans hv.symm
    · subst hu
      rw [Function.update_self] at hun
      rw [Function.update_of_ne hv] at hvn
      rcases hpending n hun with h | h
      · exact hinv.unique u v n h hvn
      · exact absurd hvn (h v hv)
    · subst hv
      rw [Function.update_self] at hvn
      rw [Function.update_of_ne hu] at hun
      rcases hpending n hvn with h | h
      · exact hinv.unique u v n hun h
      · exact absurd hun (h u hu)
    · rw [Function.update_of_ne hu] at hun
      rw [Function.update_of_ne hv] at hvn
      exact hinv.unique u v n hun hvn

/-! ## The steps -/

/-- A thread goes on without a change to the memory. -/
theorem Inv.quiet [DecidableEq T] {s : State T R} (hinv : Inv s) (hself : ThreadOk s.mem t pc)
    (hpending : ∀ n, pc.pending = some n → (s.pcs t).pending = some n := by rintro _ ⟨⟩) :
    Inv (s.setPc t pc) :=
  hinv.update hinv.data hself (fun u _ => hinv.thread u) fun n hn => .inl (hpending n hn)

theorem Inv.not_inAlloc {s : State T R} (hinv : Inv s) (halloc : s.mem.alloc = some t)
    (hut : u ≠ t) : (s.pcs u).inAlloc = false := by
  cases h : (s.pcs u).inAlloc
  · rfl
  · exact absurd (Option.some.inj (((hinv.thread u).alloc h).symm.trans halloc)) hut

/-- A thread changes the data under the `alloc` mutex. -/
theorem Inv.locked [DecidableEq T] {s : State T R} (hinv : Inv s)
    (halloc : s.mem.alloc = some t) (hlocks : m.owners = s.mem.owners) (hdata : m.data.Ok)
    (hself : ThreadOk m t pc)
    (hlen : s.mem.data.reservations.length ≤ m.data.reservations.length)
    (hidx : ∀ n < s.mem.data.reservations.length, m.data.indexOf n = s.mem.data.indexOf n)
    (hp : ∀ n, s.mem.data.Pending n → m.data.Pending n)
    (hc : ∀ u (lookup : Lookup), u ≠ t → s.pcs u = .lookupClone lookup →
      s.mem.data.Current lookup.toHandle → m.data.Current lookup.toHandle)
    (hpending : ∀ n, pc.pending = some n →
      (s.pcs t).pending = some n ∨ ∀ u, u ≠ t → (s.pcs u).pending ≠ some n := by rintro _ ⟨⟩) :
    Inv { s with mem := m, pcs := Function.update s.pcs t pc } :=
  hinv.update hdata hself
    (fun u hu => (hinv.thread u).of_alloc hlocks (hinv.not_inAlloc halloc hu) hlen hidx hp
      fun lookup => hc u lookup hu) hpending

/-- A lock or an unlock of the `alloc` mutex. -/
theorem Inv.relock [DecidableEq T] {s : State T R} (hinv : Inv s) (hdata : m.data = s.mem.data)
    (howners : m.owners = s.mem.owners)
    (halloc : s.mem.alloc = none ∨ s.mem.alloc = some t) (hself : ThreadOk m t pc)
    (hpending : ∀ n, pc.pending = some n → (s.pcs t).pending = some n := by rintro _ ⟨⟩) :
    Inv { s with mem := m, pcs := Function.update s.pcs t pc } := by
  refine hinv.update (hdata ▸ hinv.data) hself (fun u hu => ?_) fun n hn => .inl (hpending n hn)
  refine (hinv.thread u).of_locks hdata (fun hu' => ?_) fun i hi => howners ▸ hi
  rcases halloc with h | h <;> rw [h] at hu'
  · cases hu'
  · exact absurd (Option.some.inj hu').symm hu

/-- A lock or an unlock of the mutex of an owner. -/
theorem Inv.relockOwner [DecidableEq T] {s : State T R} (hinv : Inv s) {i : Nat} {o : Option T}
    (hm : m = { s.mem with owners := Function.update s.mem.owners i o })
    (hheld : s.mem.owners i = none ∨ s.mem.owners i = some t) (hself : ThreadOk m t pc)
    (hpending : ∀ n, pc.pending = some n → (s.pcs t).pending = some n := by rintro _ ⟨⟩) :
    Inv { s with mem := m, pcs := Function.update s.pcs t pc } := by
  subst hm
  refine hinv.update hinv.data hself (fun u hu => ?_) fun n hn => .inl (hpending n hn)
  refine (hinv.thread u).of_locks rfl id fun j hj => ?_
  have hji : j ≠ i := by
    rintro rfl
    rcases hheld with h | h <;> rw [h] at hj
    · cases hj
    · exact hu (Option.some.inj hj).symm
  exact (Function.update_of_ne hji ..).trans hj

section Call

variable [DecidableEq T] {s : State T R}

theorem Inv.call {poisons : Bool} (hinv : Inv s)
    (h : CallMove poisons t s.mem (s.pcs t) m pc) :
    Inv { s with mem := m, pcs := Function.update s.pcs t pc } := by
  have hself := hinv.thread t
  generalize hpc : s.pcs t = pc₀ at h hself
  cases h with
  | reserveLock ha => exact hinv.relock rfl rfl (.inl ha) { alloc := fun _ => rfl }
  | reservePoisoned => exact hinv.quiet {}
  | popFree i free hfree =>
    obtain ⟨hok, hnot, hlt, hclear⟩ := hinv.data.pop hfree
    refine hinv.locked (hself.alloc rfl) rfl hok
      { alloc := fun _ => hself.alloc rfl
        popped := ?_ } (Nat.le_refl _) (fun _ _ => rfl)
      (fun n hn => ⟨hn.outstanding, hn.runner, hn.owner⟩)
      (fun _ _ _ _ hc => ⟨hc.outstanding, hc.names, hc.runner⟩)
    rintro _ ⟨⟩
    exact { hclear.congr rfl rfl rfl with not_free := hnot, used := hlt }
  | popFull => exact hinv.relock rfl rfl (.inr (hself.alloc rfl)) {}
  | popUnused =>
    obtain ⟨hok, hnot, hclear⟩ := hinv.data.grow
    refine hinv.locked (hself.alloc rfl) rfl hok
      { alloc := fun _ => hself.alloc rfl
        popped := ?_ } (Nat.le_refl _) (fun _ _ => rfl)
      (fun n hn => ⟨hn.outstanding, hn.runner, hn.owner⟩)
      (fun _ _ _ _ hc => ⟨hc.outstanding, hc.names, hc.runner⟩)
    rintro _ ⟨⟩
    exact { hclear.congr rfl rfl rfl with not_free := hnot, used := Nat.lt_succ_self _ }
  | reserveLoad i =>
    refine hinv.quiet
      { alloc := fun _ => hself.alloc rfl
        popped := fun j hj => hself.popped j hj
        generation := ?_ }
    rintro _ _ ⟨⟩
    rfl
  | reserveStore i g =>
    have hpop := hself.popped i rfl
    have hok := hinv.data.reserve hpop.toClear hpop.not_free hpop.used (hself.generation i g rfl)
    refine hinv.locked (hself.alloc rfl) rfl hok
      { alloc := fun _ => hself.alloc rfl
        known := ?_
        pending := ?_ } (by simp [Data.reserve_reservations])
      (fun n hn => Data.reserve_indexOf_old hn)
      (fun n hn => hn.reserve hinv.data hpop.toClear)
      (fun _ _ _ _ hc => hc.reserve hpop.toClear) ?_
    · rintro _ ⟨⟩
      simp [Data.reserve_reservations]
    · rintro _ ⟨⟩
      exact hinv.data.reserve_pending hpop.toClear
    · -- the number of the reservation is new
      rintro n ⟨⟩
      refine .inr fun u _ hu => ?_
      have hlt := hinv.data.lt_of_outstanding ((hinv.thread u).pending _ hu).outstanding
      exact Nat.lt_irrefl _ hlt
  | reserveLive n =>
    exact hinv.relock rfl rfl (.inr (hself.alloc rfl))
      { alloc := fun _ => hself.alloc rfl
        known := fun k hk => hself.known k hk
        pending := fun k hk => hself.pending k hk } fun k hk => hpc ▸ hk
  | reserveUnlock n =>
    exact hinv.relock rfl rfl (.inr (hself.alloc rfl))
      { known := fun k hk => hself.known k hk
        pending := fun k hk => hself.pending k hk } fun k hk => hpc ▸ hk
  | commitLock n runner i hi ho =>
    refine hinv.relockOwner rfl (.inl ho)
      { owner := fun j hj => ?_
        known := fun k hk => hself.known k hk
        pending := fun k hk => hself.pending k hk } fun k hk => hpc ▸ hk
    cases hi.symm.trans hj
    exact Function.update_self ..
  | commitStore n runner i hi =>
    have hn := hself.pending n rfl
    have hheld := hself.owner i hi
    refine hinv.update (hinv.data.commit hn hi)
      { owner := fun j hj => hself.owner j hj
        known := fun k hk => hself.known k hk } (fun u hu => ?_)
    exact (hinv.thread u).of_commit hinv.data hn hi hheld hu fun hun =>
      hu (hinv.unique u t n hun (by rw [hpc]; rfl))
  | commitUnlock n i hi => exact hinv.relockOwner rfl (.inr (hself.owner i hi)) {}
  | lookupPast | lookupStale | lookupLoad => exact hinv.quiet {}
  | lookupLock lookup ho =>
    refine hinv.relockOwner rfl (.inl ho) { owner := ?_ }
    rintro _ ⟨⟩
    exact Function.update_self ..
  | recheckStale => exact hinv.quiet { owner := fun i hi => hself.owner i hi }
  | lookupRecheck lookup hg =>
    refine hinv.quiet
      { owner := fun i hi => hself.owner i hi
        current := ?_ }
    rintro _ ⟨⟩ hodd
    exact hinv.data.current_of_odd (hinv.data.odd_of_mod (hg ▸ hodd)) hg
  | lookupClone => exact hinv.quiet { owner := fun i hi => hself.owner i hi }
  | lookupNone | lookupSome => exact hinv.relockOwner rfl (.inr (hself.owner _ rfl)) {}
  | deliver =>
    exact hinv.update hinv.data {} fun u _ => (hinv.thread u).of_locks rfl id fun _ => id
  | removeLock handle ha =>
    exact hinv.relock rfl rfl (.inl ha)
      { alloc := fun _ => rfl
        odd := fun k hk => hself.odd k hk }
  | removePoisoned => exact hinv.quiet {}
  | removePast | removeStale =>
    exact hinv.quiet
      { alloc := fun _ => hself.alloc rfl
        odd := fun k hk => hself.odd k hk }
  | removeLoad handle _ hg =>
    have hodd := hinv.data.odd_of_mod (hg ▸ hself.odd handle rfl)
    refine hinv.quiet
      { alloc := fun _ => hself.alloc rfl
        odd := fun k hk => hself.odd k hk
        matched := ?_
        names := ?_ } <;> rintro _ ⟨⟩
    · exact hg
    · exact hinv.data.names_of_odd hodd hg
  | removeStore handle =>
    have hg := hself.matched handle rfl
    have hodd := hinv.data.odd_of_mod (hg ▸ hself.odd handle rfl)
    refine hinv.locked (hself.alloc rfl) rfl (hinv.data.retire hodd hg)
      { alloc := fun _ => hself.alloc rfl
        odd := fun k hk => hself.odd k hk
        names := ?_
        retired := ?_ } (Nat.le_refl _) (fun _ _ => rfl) (fun n hn => hn.retire)
      (fun _ _ _ _ hc => hc.retire) <;> rintro _ ⟨⟩
    · obtain ⟨r, hr, hhandle⟩ := hself.names handle rfl
      refine ⟨r, ?_, hhandle⟩
      rw [Data.retire_latest]
      exact hr
    · exact Data.retire_even hodd hg
  | removeOwnerLock handle ho =>
    refine hinv.relockOwner rfl (.inl ho)
      { alloc := fun _ => hself.alloc rfl
        owner := ?_
        odd := fun k hk => hself.odd k hk
        names := fun k hk => hself.names k hk
        retired := fun k hk => hself.retired k hk }
    rintro _ ⟨⟩
    exact Function.update_self ..
  | removeTake handle =>
    have heven := hself.retired handle rfl
    have hheld := hself.owner handle.index rfl
    refine hinv.locked (hself.alloc rfl) rfl (hinv.data.takeOwner heven)
      { alloc := fun _ => hself.alloc rfl
        owner := fun i hi => hself.owner i hi
        odd := fun k hk => hself.odd k hk
        names := ?_
        retired := ?_
        taken := ?_ } (Nat.le_refl _) (fun _ _ => rfl) (fun n hn => hn.takeOwner) ?_
    · rintro _ ⟨⟩
      obtain ⟨r, hr, hhandle⟩ := hself.names handle rfl
      refine ⟨r, ?_, hhandle⟩
      rw [Data.takeOwner_latest]
      exact hr
    · rintro _ ⟨⟩
      exact Data.takeOwner_even.mpr heven
    · intro i hi
      cases hr : (s.mem.data.slots handle.index).owner with
      | none => simp [hr, Pc.taken] at hi
      | some r =>
        simp only [hr, Pc.taken, Option.some.injEq] at hi
        exact hi ▸ hinv.data.takeOwner_taken heven hr
    · -- a thread that looks at the owner holds its mutex
      intro u lookup hu hlookup hc
      refine hc.takeOwner fun heq => hu ?_
      have howner := (hinv.thread u).owner lookup.index (by rw [hlookup]; rfl)
      rw [heq, hheld] at howner
      exact (Option.some.inj howner).symm
  | removeOwnerUnlock handle removed =>
    exact hinv.relockOwner rfl (.inr (hself.owner _ rfl))
      { alloc := fun _ => hself.alloc rfl
        odd := fun k hk => hself.odd k hk
        names := fun k hk => hself.names k hk
        retired := fun k hk => hself.retired k hk
        taken := fun i hi => hself.taken i (by cases removed <;> exact hi) }
  | keep =>
    exact hinv.quiet
      { alloc := fun _ => hself.alloc rfl
        odd := fun k hk => hself.odd k hk }
  | giveBack handle runner =>
    have htaken := hself.taken handle.index rfl
    exact hinv.locked (hself.alloc rfl) rfl (hinv.data.giveBack htaken)
      { alloc := fun _ => hself.alloc rfl
        odd := fun k hk => hself.odd k hk
        names := fun k hk => hself.names k hk
        retired := fun k hk => hself.retired k hk } (Nat.le_refl _) (fun _ _ => rfl)
      (fun n hn => hn.giveBack hinv.data htaken)
      (fun _ _ _ _ hc => hc.giveBack hinv.data htaken)
  | removeUnlock handle removed =>
    cases removed <;> exact hinv.relock rfl rfl (.inr (hself.alloc rfl)) {}
  | snapshotLock ha => exact hinv.relock rfl rfl (.inl ha) { alloc := fun _ => rfl }
  | snapshotPoisoned => exact hinv.quiet {}
  | snapshotSlot i live _ ho =>
    refine hinv.relockOwner rfl (.inl ho)
      { alloc := fun _ => hself.alloc rfl
        owner := ?_ }
    rintro _ ⟨⟩
    exact Function.update_self ..
  | snapshotEnd => exact hinv.quiet { alloc := fun _ => hself.alloc rfl }
  | snapshotClone =>
    exact hinv.quiet
      { alloc := fun _ => hself.alloc rfl
        owner := fun j hj => hself.owner j hj }
  | snapshotOwnerUnlock i =>
    exact hinv.relockOwner rfl (.inr (hself.owner i rfl)) { alloc := fun _ => hself.alloc rfl }
  | snapshotUnlock => exact hinv.relock rfl rfl (.inr (hself.alloc rfl)) {}
  | countLock ha => exact hinv.relock rfl rfl (.inl ha) { alloc := fun _ => rfl }
  | countPoisoned => exact hinv.quiet {}
  | countRead => exact hinv.quiet { alloc := fun _ => hself.alloc rfl }
  | countUnlock => exact hinv.relock rfl rfl (.inr (hself.alloc rfl)) {}

omit [DecidableEq T] in
theorem withCapacity_ok (capacity : Nat) :
    (withCapacity T R capacity).mem.data.Ok where
  phase _ := .inl rfl
  nodup := List.nodup_nil
  below _ := nofun
  free _ := nofun
  unused _ _ := ⟨rfl, rfl, fun _ => nofun⟩
  outstanding _ := nofun
  distinct := List.nodup_nil
  owner _ _ := nofun
  reserved _ h := absurd h.reserved (Nat.not_succ_le_zero 0)
  uncommitted _ _ _ := rfl
  runners _ _ := rfl
  reservation _ _ := nofun
  latest _ h := absurd h (Nat.not_succ_le_zero 0)
  ordinal _ _ _ _ := nofun

omit [DecidableEq T] in
theorem withCapacity_inv (capacity : Nat) : Inv (withCapacity T R capacity) where
  data := withCapacity_ok capacity
  thread _ := {}
  unique _ _ _ := nofun

theorem Inv.step {poisons : Bool} {s' : State T R} {a : Action T R} (hinv : Inv s)
    (h : step poisons s a = some s') : Inv s' := by
  cases step_move h with
  | reserve | lookup | snapshotLive | liveCount => exact hinv.quiet {}
  | commit t n runner hpc =>
    have hself := hinv.thread t
    rw [hpc] at hself
    exact hinv.quiet
      { known := fun k hk => hself.known k hk
        pending := fun k hk => hself.pending k hk } fun k hk => hpc ▸ hk
  | abandon => exact hinv.quiet {}
  | @remove t n r _ hr =>
    refine hinv.quiet { odd := ?_ }
    rintro _ ⟨⟩
    obtain ⟨hord, hg, -⟩ := hinv.data.reservation n r hr
    rw [hg, oddGeneration_mod hord]
  | call t hcall => exact hinv.call hcall

theorem inv_of_reach {poisons : Bool} {capacity : Nat} {ok : State T R → Action T R → Prop}
    (h : Reach (machine T R poisons capacity) ok s) : Inv s :=
  h.inv Inv (fun hs => hs ▸ withCapacity_inv capacity) fun hinv _ hs => hinv.step hs

end Call

end

end DignusActor.Registry
