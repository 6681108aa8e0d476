import DignusActor.Registry.Exact

/-! # What a snapshot returns

`snapshot_live` holds the `alloc` mutex while it goes through the slots, so that no slot is handed
out and none is given back; a `commit` takes the mutex of its slot alone and may store its runner
before the scan gets to the slot or after it has passed. What the call returns therefore lies
between two instants of the call (`snapshot_between`): it has every owner that was there when the
mutex was taken, and no other than the owners of the slots when the call returns, in the order of
the slots. It need not be what the slots hold at any one instant (`snapshot_between_torn`). -/

namespace DignusActor.Registry

open Machine (Reach free)

variable {T R : Type}

/-! ## The owners of the slots -/

namespace Data

variable {d₀ d d' : Data R}

/-- The owners of `d₀` are still there. -/
def Keeps (d₀ d : Data R) : Prop :=
  ∀ i r, (d₀.slots i).owner = some r → (d.slots i).owner = some r

theorem Keeps.trans (h : d₀.Keeps d) (h' : d.Keeps d') : d₀.Keeps d' :=
  fun i r hr => h' i r (h i r hr)

theorem Keeps.of_slots (h : d'.slots = d.slots) : d.Keeps d' := fun i r hr => by rwa [h]

theorem owners_succ (d : Data R) (k : Nat) :
    d.owners (k + 1) = d.owners k ++ (d.slots k).owner.toList := by
  rw [owners, owners, List.range_succ, List.filterMap_append]
  cases ho : (d.slots k).owner <;> simp [ho]

theorem Keeps.owners (h : d.Keeps d') (k : Nat) : (d.owners k).Sublist (d'.owners k) := by
  induction k with
  | zero => exact .slnil
  | succ k ih =>
    rw [owners_succ, owners_succ]
    refine ih.append ?_
    cases ho : (d.slots k).owner with
    | none => exact List.nil_sublist _
    | some r => rw [h k r ho]

/-- `live` has the owners that the first `k` slots had in `d₀`, and of those that they have in `d`
no other. -/
structure Between (d₀ d : Data R) (k : Nat) (live : List R) : Prop where
  least : (d₀.owners k).Sublist live
  most : live.Sublist (d.owners k)

theorem Between.mono {k : Nat} {live : List R} (h : Between d₀ d k live) (hk : d.Keeps d') :
    Between d₀ d' k live :=
  ⟨h.least, h.most.trans (hk.owners k)⟩

/-- The scan clones the owner of the next slot. -/
theorem Between.clone {k : Nat} {live : List R} (h : Between d₀ d k live) (hk : d₀.Keeps d) :
    Between d₀ d (k + 1) (live ++ (d.slots k).owner.toList) := by
  constructor
  · rw [owners_succ]
    refine h.least.append ?_
    cases ho : (d₀.slots k).owner with
    | none => exact List.nil_sublist _
    | some r => rw [hk k r ho]
  · rw [owners_succ]
    exact h.most.append (.refl _)

end Data

section

variable [DecidableEq T] {poisons : Bool} {s s' : State T R} {t : T} {a : Action T R}

/-- While a thread holds the `alloc` mutex, the others take no owner away. -/
theorem Inv.keeps_owners (hinv : Inv s) (hin : (s.pcs t).inAlloc = true) (hta : t ≠ a.thread)
    (h : Registry.step poisons s a = some s') : s.mem.data.Keeps s'.mem.data := by
  have hself := hinv.thread a.thread
  have hout := hinv.not_inAlloc ((hinv.thread t).alloc hin) hta.symm
  cases step_data h with
  | same hslots => exact .of_slots hslots
  | commit n r i hpc hi hd =>
    rw [hpc] at hself
    intro j q hq
    have hne : j ≠ i := fun hji => by
      rw [hji, (hself.pending n rfl).owner i hi] at hq
      cases hq
    rw [hd, Data.commit_slots_of_ne hne]
    exact hq
  | reserve i g hpc | retire handle hpc | takeOwner handle hpc | giveBack handle r hpc =>
    rw [hpc] at hout
    cases hout

/-! ## The scan -/

/-- What the scan has cloned since it took the `alloc` mutex, when the data was `d₀`. -/
def Scanned (d₀ d : Data R) : Pc R → Prop
  | .snapshotSlot i live => i ≤ d.nextUnused ∧ d₀.Between d i live
  | .snapshotClone i live => i < d.nextUnused ∧ d₀.Between d i live
  | .snapshotOwnerUnlock i live => i < d.nextUnused ∧ d₀.Between d (i + 1) live
  | .snapshotUnlock live | .snapshot live => d₀.Between d d.nextUnused live
  | _ => False

/-- The scan goes on from where the data was `d₀`. -/
structure Scan (d₀ : Data R) (s : State T R) (t : T) : Prop where
  keeps : d₀.Keeps s.mem.data
  unused : s.mem.data.nextUnused = d₀.nextUnused
  scanned : Scanned d₀ s.mem.data (s.pcs t)

omit [DecidableEq T] in
theorem Scanned.inAlloc {d₀ d : Data R} {pc : Pc R} (h : Scanned d₀ d pc)
    (hm : pc.method = .snapshot) : pc.inAlloc = true := by
  cases pc <;> first | rfl | exact h.elim | cases hm

theorem Scan.step_others {d₀ : Data R} (hs : Scan d₀ s t) (hinv : Inv s)
    (hm : (s.pcs t).method = .snapshot) (hta : t ≠ a.thread)
    (h : step poisons s a = some s') : Scan d₀ s' t := by
  have hin := hs.scanned.inAlloc hm
  have hkeeps := hinv.keeps_owners hin hta h
  have hunused := step_nextUnused hinv h hta hin
  refine ⟨hs.keeps.trans hkeeps, hunused.trans hs.unused, ?_⟩
  have hscanned := hs.scanned
  rw [step_pcs_of_ne h hta]
  generalize s.pcs t = pc at hscanned
  cases pc with
  | snapshotSlot | snapshotClone | snapshotOwnerUnlock =>
    exact ⟨hunused ▸ hscanned.1, hscanned.2.mono hkeeps⟩
  | snapshotUnlock | snapshot =>
    rw [Scanned, hunused]
    exact Data.Between.mono hscanned hkeeps
  | _ => exact hscanned.elim

/-- The steps of the scan do not change the data. -/
theorem Scan.call {d₀ : Data R} {m : Mem T R} {pc : Pc R} (hs : Scan d₀ s t)
    (hd : m.data = s.mem.data) (hscanned : Scanned d₀ s.mem.data pc) :
    Scan d₀ { s with mem := m, pcs := Function.update s.pcs t pc } t where
  keeps := hd ▸ hs.keeps
  unused := hd ▸ hs.unused
  scanned := by
    rw [hd]
    simpa only [Function.update_self] using hscanned

theorem Scan.step_self {d₀ : Data R} (hs : Scan d₀ s a.thread)
    (hm : (s.pcs a.thread).method = .snapshot) (h : step poisons s a = some s') :
    Scan d₀ s' a.thread := by
  have hrest : (s.pcs a.thread).atRest = false := by
    cases hr : (s.pcs a.thread).atRest
    · rfl
    · exact absurd (hm.symm.trans (Pc.method_of_atRest hr)) nofun
  obtain ⟨m, pc, hcall, rfl⟩ := step_inside h hrest fun n hn => by
    rw [hn] at hm
    cases hm
  have hscanned := hs.scanned
  generalize s.pcs a.thread = pc₀ at hcall hscanned hm
  cases hcall with
  | snapshotSlot i live hlt => exact hs.call rfl ⟨hlt, hscanned.2⟩
  | snapshotEnd i live hle =>
    obtain ⟨hi, hlive⟩ := hscanned
    refine hs.call rfl ?_
    rw [Scanned, ← Nat.le_antisymm hi hle]
    exact hlive
  | snapshotClone i live => exact hs.call rfl ⟨hscanned.1, hscanned.2.clone hs.keeps⟩
  | snapshotOwnerUnlock i live => exact hs.call rfl hscanned
  | snapshotUnlock live => exact hs.call rfl hscanned
  | snapshotLock | snapshotPoisoned => exact hscanned.elim
  | _ => cases hm

/-- Thread `t` is in its call of `snapshot_live`. -/
def InSnapshot (t : T) (s : State T R) (_ : Action T R) : Prop := (s.pcs t).method = .snapshot

omit [DecidableEq T] in
instance (s : State T R) (a : Action T R) : Decidable (InSnapshot t s a) :=
  inferInstanceAs (Decidable (_ = _))

variable {capacity : Nat} {as : List (Action T R)}

/-- A scan that was begun goes on until the call returns. -/
theorem Scan.run {d₀ : Data R} (hs : Scan d₀ s t) (h : Reach (machine T R poisons capacity) free s)
    (hok : (machine T R poisons capacity).RunOk (InSnapshot t) s as)
    (hrun : (machine T R poisons capacity).run s as = some s') : Scan d₀ s' t := by
  induction as generalizing s with
  | nil =>
    cases hrun
    exact hs
  | cons a as ih =>
    obtain ⟨u, hu, hrun⟩ := Option.bind_eq_some_iff.mp hrun
    refine ih ?_ (.step h trivial hu) (hok.2 u hu) hrun
    by_cases hta : t = a.thread
    · subst hta
      exact hs.step_self hok.1 hu
    · exact hs.step_others (inv_of_reach h) hok.1 hta hu

omit [DecidableEq T] in
/-- The scan begins with nothing cloned. -/
theorem Scan.init (hpc : s.pcs t = .snapshotSlot 0 []) : Scan s.mem.data s t where
  keeps _ _ hr := hr
  unused := rfl
  scanned := by
    rw [hpc]
    exact ⟨Nat.zero_le _, .slnil, .slnil⟩

/-- The call takes the `alloc` mutex, or stays at it. -/
theorem step_snapshotLock (h : step poisons s a = some s') (hpc : s.pcs t = .snapshotLock) :
    s'.pcs t = .snapshotLock ∨ s'.pcs t = .snapshotSlot 0 [] ∨ s'.pcs t = .panicked := by
  by_cases hta : t = a.thread
  · subst hta
    obtain ⟨m, pc, hcall, rfl⟩ := step_inside h (by rw [hpc]; rfl) (by rw [hpc]; nofun)
    rw [hpc] at hcall
    simp only [Function.update_self]
    cases hcall with
    | snapshotLock => exact .inr (.inl rfl)
    | snapshotPoisoned => exact .inr (.inr rfl)
  · rw [step_pcs_of_ne h hta]
    exact .inl hpc

/-- **A snapshot lies between two instants of its call**: it holds every runner that owned a slot
when `snapshot_live` took the `alloc` mutex, and of the runners that own a slot when it returns no
other, each once and in the order of their slots. -/
theorem snapshot_between (h : Reach (machine T R poisons capacity) free s)
    (hbegin : s.pcs t = .snapshotLock)
    (hok : (machine T R poisons capacity).RunOk (InSnapshot t) s as)
    (hrun : (machine T R poisons capacity).run s as = some s') {live : List R}
    (hend : s'.pcs t = .snapshot live) :
    ∃ bs cs u, as = bs ++ cs ∧ (machine T R poisons capacity).run s bs = some u ∧
      (machine T R poisons capacity).run u cs = some s' ∧ u.mem.alloc = some t ∧
      u.mem.data.nextUnused = s'.mem.data.nextUnused ∧
      (u.mem.data.owners u.mem.data.nextUnused).Sublist live ∧
      live.Sublist (s'.mem.data.owners s'.mem.data.nextUnused) := by
  induction as generalizing s with
  | nil =>
    cases hrun
    cases hbegin.symm.trans hend
  | cons a as ih =>
    obtain ⟨v, hv, hrest⟩ := Option.bind_eq_some_iff.mp hrun
    have hreach := h.step trivial hv
    rcases step_snapshotLock hv hbegin with hpc | hpc | hpc
    · obtain ⟨bs, cs, u, rfl, hbs, hu⟩ := ih hreach hpc (hok.2 v hv) hrest
      exact ⟨a :: bs, cs, u, rfl, Option.bind_eq_some_iff.mpr ⟨v, hv, hbs⟩, hu⟩
    · -- the mutex was taken: the scan begins
      have hscan := (Scan.init hpc).run hreach (hok.2 v hv) hrest
      have hlive := hscan.scanned
      rw [hend] at hlive
      refine ⟨[a], as, v, rfl, Option.bind_eq_some_iff.mpr ⟨v, hv, rfl⟩, hrest, ?_,
        hscan.unused.symm, ?_, hlive.most⟩
      · exact ((inv_of_reach hreach).thread t).alloc (by rw [hpc]; rfl)
      · rw [← hscan.unused]
        exact hlive.least
    · -- the mutex was poisoned: the call has panicked
      cases as with
      | nil =>
        cases hrest
        cases hpc.symm.trans hend
      | cons b as =>
        have hm := (hok.2 v hv).1
        rw [InSnapshot, hpc] at hm
        cases hm

/-- Threads 1 and 2 have reserved the two slots and not committed when thread 0 begins a
snapshot. -/
def uncommitted : State Nat Nat :=
  ((machine Nat Nat false 2).run (withCapacity Nat Nat 2)
    ([Action.reserve 1] ++ List.replicate 6 (Action.call 1) ++
      [Action.reserve 2] ++ List.replicate 6 (Action.call 2) ++ [Action.snapshotLive 0])).get rfl

/-- The scan passes slot 0; then 7 is committed to slot 0 and 8 to slot 1, and the scan goes on. -/
def torn : List (Action Nat Nat) :=
  List.replicate 4 (Action.call 0) ++ [Action.commit 1 7] ++ List.replicate 3 (Action.call 1) ++
    [Action.commit 2 8] ++ List.replicate 3 (Action.call 2) ++ List.replicate 5 (Action.call 0)

theorem snapshot_between_torn :
    (∀ k < 18, ((machine Nat Nat false 2).run uncommitted (torn.take k)).map
      (fun u => u.mem.data.owners u.mem.data.nextUnused) ≠ some [8]) ∧
    ∃ s', (machine Nat Nat false 2).run uncommitted torn = some s' ∧ s'.pcs 0 = .snapshot [8] ∧
      ∃ bs cs u, torn = bs ++ cs ∧ (machine Nat Nat false 2).run uncommitted bs = some u ∧
        (machine Nat Nat false 2).run u cs = some s' ∧ u.mem.alloc = some 0 ∧
        u.mem.data.nextUnused = s'.mem.data.nextUnused ∧
        (u.mem.data.owners u.mem.data.nextUnused).Sublist [8] ∧
        [8].Sublist (s'.mem.data.owners s'.mem.data.nextUnused) := by
  refine ⟨by decide +kernel, ((machine Nat Nat false 2).run uncommitted torn).get rfl,
    (Option.some_get rfl).symm, rfl, ?_⟩
  exact snapshot_between (.get_free rfl rfl) rfl (by decide +kernel) (Option.some_get rfl).symm rfl

end

end DignusActor.Registry
