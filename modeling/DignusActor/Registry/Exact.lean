import DignusActor.Registry.Allocation

/-! # The registry hands out every slot, and each of them once

The indices of the outstanding handles and the free ones are a permutation of the slots below
`next_unused`, `live` counts the former, and `snapshot_live` collects their runners
(`allocation_exact`). -/

namespace DignusActor.Registry

open Machine (Reach)

variable {T R : Type}

/-! ## Indices -/

/-- The indices of the outstanding handles. -/
def Data.indices (d : Data R) : List Nat := d.outstanding.filterMap d.indexOf

/-- The runners that are committed and not removed. -/
def Data.served (d : Data R) : List R := d.outstanding.filterMap d.runners

namespace Data

variable {d : Data R}

theorem mem_indices {i : Nat} : i ∈ d.indices ↔ ∃ n ∈ d.outstanding, d.indexOf n = some i :=
  List.mem_filterMap

theorem Ok.length_indices (h : d.Ok) : d.indices.length = d.outstanding.length := by
  rw [indices, List.length_filterMap_eq_countP, List.countP_eq_length]
  intro n hn
  obtain ⟨i, hi, -⟩ := h.outstanding n hn
  rw [hi]
  rfl

/-- Two outstanding reservations of one slot are its last one. -/
theorem Ok.indices_nodup (h : d.Ok) : d.indices.Nodup := by
  refine List.pairwise_filterMap.mpr (h.distinct.imp_of_mem fun hn hm hne i hi j hj hij => ?_)
  subst hij
  exact hne ((h.latest_of_outstanding hn hi).symm.trans (h.latest_of_outstanding hm hj))

theorem Ok.free_disjoint (h : d.Ok) : d.free.Disjoint d.indices := by
  intro i hfree hi
  obtain ⟨n, hn, hni⟩ := mem_indices.mp hi
  exact (h.free i hfree).outstanding n hn hni

theorem Bounded.lt_of_mem_indices (h : d.Bounded) {i : Nat} (hi : i ∈ d.indices) :
    i < d.nextUnused := by
  obtain ⟨n, -, hni⟩ := mem_indices.mp hi
  obtain ⟨r, hr, rfl⟩ := indexOf_eq_some.mp hni
  exact h.index r (List.mem_of_getElem? hr)

end Data

/-- The free slots and the reserved ones are those below `next_unused`, while no `reserve` has
popped one of them. -/
theorem Covered.perm_range {s : State T R} (hc : Covered s) (hinv : Inv s)
    (hb : s.mem.data.Bounded) (hpopped : ∀ t, (s.pcs t).popped = none) :
    (s.mem.data.free ++ s.mem.data.indices).Perm (List.range s.mem.data.nextUnused) := by
  have hnodup : (s.mem.data.free ++ s.mem.data.indices).Nodup :=
    hinv.data.nodup.append hinv.data.indices_nodup hinv.data.free_disjoint
  refine (List.perm_ext_iff_of_nodup hnodup List.nodup_range).mpr fun i => ?_
  rw [List.mem_append, List.mem_range]
  constructor
  · rintro (hi | hi)
    · exact hinv.data.below i hi
    · exact hb.lt_of_mem_indices hi
  · intro hi
    rcases hc i hi with hfree | hout | ⟨t, ht⟩
    · exact .inl hfree
    · exact .inr (Data.mem_indices.mpr hout)
    · cases (hpopped t).symm.trans ht

theorem Inv.not_popped {s : State T R} {t : T} (hinv : Inv s) (halloc : s.mem.alloc = some t)
    (ht : (s.pcs t).popped = none) (u : T) : (s.pcs u).popped = none := by
  by_cases hut : u = t
  · exact hut ▸ ht
  · refine Option.eq_none_iff_forall_ne_some.mpr fun i hi => ?_
    have hfree := hinv.not_inAlloc halloc hut
    rw [Pc.inAlloc_of_popped hi] at hfree
    cases hfree

/-! ## Snapshots -/

/-- The owners of the first `k` slots. -/
def Data.owners (d : Data R) (k : Nat) : List R :=
  (List.range k).filterMap fun i => (d.slots i).owner

/-- The owners of the slots are the runners that are committed and not removed, where each reserved
slot has kept its reservation. -/
theorem Data.owners_perm {d : Data R} (h : d.Ok) (hb : d.Bounded)
    (hodd : ∀ i ∈ d.indices, (d.slots i).Odd) : (d.owners d.nextUnused).Perm d.served := by
  have hserved : d.served = d.indices.filterMap fun i => (d.slots i).owner := by
    rw [served, indices, List.filterMap_filterMap]
    refine List.filterMap_congr fun n hn => ?_
    obtain ⟨i, hi, hlatest⟩ := h.outstanding n hn
    rw [hi]
    change _ = (d.slots i).owner
    cases ho : (d.slots i).owner with
    | none => rw [← hlatest, h.uncommitted i (hodd i (mem_indices.mpr ⟨n, hn, hi⟩)) ho]
    | some r => rw [← hlatest, (h.owner i r ho).2.2]
  have hfilter (l : List Nat) : l.filterMap (fun i => (d.slots i).owner) =
      (l.filter fun i => (d.slots i).owner.isSome).filterMap fun i => (d.slots i).owner := by
    rw [List.filterMap_filter]
    refine List.filterMap_congr fun i _ => ?_
    cases (d.slots i).owner <;> rfl
  rw [hserved, owners, hfilter, hfilter d.indices]
  refine List.Perm.filterMap _ ?_
  refine (List.perm_ext_iff_of_nodup (List.nodup_range.filter _)
    (h.indices_nodup.filter _)).mpr fun i => ?_
  simp only [List.mem_filter, List.mem_range]
  refine and_congr_left fun hsome => ⟨fun _ => ?_, fun hi => hb.lt_of_mem_indices hi⟩
  obtain ⟨r, hr⟩ := Option.isSome_iff_exists.mp hsome
  obtain ⟨hmem, hidx, -⟩ := h.owner i r hr
  exact mem_indices.mpr ⟨_, hmem, hidx⟩

/-- No `commit` and no `remove` is in progress. -/
def Undisturbed (s : State T R) : Prop :=
  ∀ t, (∀ n, (s.pcs t).method ≠ .commit n) ∧ ∀ handle, (s.pcs t).method ≠ .remove handle

/-- What a snapshot has collected so far. -/
def Collected (d : Data R) : Pc R → Prop
  | .snapshotSlot i live => i ≤ d.nextUnused ∧ live = d.owners i
  | .snapshotClone i live => i < d.nextUnused ∧ live = d.owners i
  | .snapshotOwnerUnlock i live => i < d.nextUnused ∧ live = d.owners (i + 1)
  | .snapshotUnlock live => live = d.owners d.nextUnused
  | .snapshot live => live.Perm d.served
  | _ => True

section

variable [DecidableEq T] {poisons : Bool} {s s' : State T R} {t : T} {a : Action T R}

theorem Undisturbed.step_owner (hu : Undisturbed s) (h : step poisons s a = some s') (i : Nat) :
    (s'.mem.data.slots i).owner = (s.mem.data.slots i).owner := by
  obtain ⟨hcommit, hremove⟩ := hu a.thread
  cases step_data h with
  | same hslots => rw [hslots]
  | reserve j g hpc hd =>
    rw [hd]
    by_cases hij : i = j
    · subst hij
      rw [Data.reserve_slots_self]
    · rw [Data.reserve_slots_of_ne hij]
  | commit n r j hpc => exact absurd (by rw [hpc]; rfl) (hcommit n)
  | retire handle hpc | takeOwner handle hpc | giveBack handle r hpc =>
    exact absurd (by rw [hpc]; rfl) (hremove handle)

theorem Undisturbed.step_served (hu : Undisturbed s) (hinv : Inv s)
    (h : step poisons s a = some s') : s'.mem.data.served = s.mem.data.served := by
  obtain ⟨hcommit, hremove⟩ := hu a.thread
  cases step_data h with
  | same _ _ hrun hout => rw [Data.served, Data.served, hrun, hout]
  | reserve j g hpc hd =>
    -- the new reservation is not committed
    have hnone : s.mem.data.runners s.mem.data.reservations.length = none :=
      hinv.data.runners _ (Nat.le_refl _)
    rw [hd, Data.served, Data.served, Data.reserve_outstanding, List.filterMap_append]
    simp only [Data.reserve, Data.setSlot, List.filterMap_cons, hnone, List.filterMap_nil,
      List.append_nil]
  | commit n r j hpc => exact absurd (by rw [hpc]; rfl) (hcommit n)
  | retire handle hpc | takeOwner handle hpc | giveBack handle r hpc =>
    exact absurd (by rw [hpc]; rfl) (hremove handle)

theorem step_nextUnused (hinv : Inv s) (h : step poisons s a = some s') {u : T}
    (hua : u ≠ a.thread) (hu : (s.pcs u).inAlloc = true) :
    s'.mem.data.nextUnused = s.mem.data.nextUnused := by
  have hfree := hinv.not_inAlloc ((hinv.thread u).alloc hu) (Ne.symm hua)
  cases step_alloc h with
  | same _ hunused => exact hunused
  | reserve i g hpc hd => exact hd ▸ rfl
  | giveBack handle r hpc hd => exact hd ▸ rfl
  | pop _ _ _ _ _ _ _ hpc | grow _ _ _ _ hpc =>
    rw [hpc] at hfree
    cases hfree

omit [DecidableEq T] in
theorem Settled.odd_of_undisturbed (hs : Settled s) (hu : Undisturbed s) {i : Nat}
    (hi : i ∈ s.mem.data.indices) : (s.mem.data.slots i).Odd := by
  obtain ⟨n, hn, hni⟩ := Data.mem_indices.mp hi
  refine (hs.kept n i hn hni).resolve_right ?_
  rintro ⟨u, handle, hvac, -⟩
  refine (hu u).2 handle ?_
  generalize s.pcs u = pc at hvac
  cases pc <;> cases hvac <;> rfl

theorem Collected.step_self (hc : Collected s.mem.data (s.pcs a.thread)) (hinv : Inv s)
    (hb : s.mem.data.Bounded) (hs : Settled s) (hu : Undisturbed s)
    (h : step poisons s a = some s') : Collected s'.mem.data (s'.pcs a.thread) := by
  cases step_move h with
  | call t hcall =>
    simp only [Action.thread, Function.update_self] at hc ⊢
    generalize s.pcs t = pc at hcall hc
    cases hcall with
    | snapshotLock => exact ⟨Nat.zero_le _, rfl⟩
    | snapshotSlot i live hlt => exact ⟨hlt, hc.2⟩
    | snapshotEnd i live hle =>
      obtain ⟨hi, rfl⟩ := hc
      rw [Nat.le_antisymm hi hle]
      rfl
    | snapshotClone i live =>
      obtain ⟨hi, rfl⟩ := hc
      refine ⟨hi, ?_⟩
      rw [Data.owners, Data.owners, List.range_succ, List.filterMap_append]
      cases ho : (s.mem.data.slots i).owner <;> simp [ho]
    | snapshotOwnerUnlock i live => exact ⟨hc.1, hc.2⟩
    | snapshotUnlock live =>
      refine List.Perm.trans (.of_eq hc) (Data.owners_perm hinv.data hb fun i hi => ?_)
      exact hs.odd_of_undisturbed hu hi
    | _ => trivial
  | _ =>
    simp only [State.setPc, Action.thread, Function.update_self]
    trivial

theorem Collected.step (hc : Collected s.mem.data (s.pcs t)) (hinv : Inv s)
    (hb : s.mem.data.Bounded) (hs : Settled s) (hu : Undisturbed s)
    (h : step poisons s a = some s') : Collected s'.mem.data (s'.pcs t) := by
  by_cases hta : t = a.thread
  · subst hta
    exact hc.step_self hinv hb hs hu h
  · have howners (k : Nat) : s'.mem.data.owners k = s.mem.data.owners k := by
      simp only [Data.owners, hu.step_owner h]
    have hunused := step_nextUnused hinv h hta
    rw [step_pcs_of_ne h hta]
    generalize s.pcs t = pc at hc hunused
    cases pc with
    | snapshotSlot | snapshotClone | snapshotOwnerUnlock | snapshotUnlock =>
      simp only [Collected, howners, hunused rfl] at hc ⊢
      exact hc
    | snapshot live =>
      rw [Collected, hu.step_served hinv h]
      exact hc
    | _ => trivial

end

/-! ## Calls that run alone -/

section

variable [DecidableEq T] {poisons : Bool} {capacity : Nat} {s : State T R} {t : T}

/-- Thread `t` alone gets from `s` to a state of which `P` holds. -/
def Alone (poisons : Bool) (capacity : Nat) (t : T) (s : State T R) (P : State T R → Prop) : Prop :=
  ∃ k s', (machine T R poisons capacity).run s (List.replicate k (.call t)) = some s' ∧ P s'

theorem Alone.now {P : State T R → Prop} (h : P s) : Alone poisons capacity t s P :=
  ⟨0, s, rfl, h⟩

theorem Alone.step {P : State T R → Prop} {m : Mem T R} {c d : Pc R} (hpc : s.pcs t = c)
    (h : callStep poisons t s.mem c = some (m, d))
    (hrest : Alone poisons capacity t { s with mem := m, pcs := Function.update s.pcs t d } P) :
    Alone poisons capacity t s P := by
  obtain ⟨k, s', hrun, hs'⟩ := hrest
  refine ⟨k + 1, s', ?_, hs'⟩
  simp only [List.replicate_succ, Machine.run, machine, Registry.step, hpc, h, Option.map_some,
    Option.bind_some]
  exact hrun

/-- A snapshot comes to its end when nobody holds the mutex of an owner. -/
theorem snapshot_returns {i : Nat} {live : List R} (hpc : s.pcs t = .snapshotSlot i live)
    (howners : ∀ i, s.mem.owners i = none) :
    Alone poisons capacity t s fun s' => ∃ live, s'.pcs t = .snapshot live := by
  induction hk : s.mem.data.nextUnused - i generalizing s i live with
  | zero =>
    have hle : ¬i < s.mem.data.nextUnused := by omega
    refine .step hpc (d := .snapshotUnlock live) (by rw [callStep, if_neg hle]) ?_
    refine .step (Function.update_self ..) rfl (.now ⟨live, Function.update_self ..⟩)
  | succ k ih =>
    have hlt : i < s.mem.data.nextUnused := by omega
    refine .step hpc (m := { s.mem with owners := Function.update s.mem.owners i (some t) })
      (d := .snapshotClone i live)
      (by simp only [callStep, if_pos hlt, Mem.lockOwner, howners i]) ?_
    refine .step (Function.update_self ..) rfl (.step (Function.update_self ..) rfl ?_)
    refine ih (Function.update_self ..) (fun j => ?_) ?_
    · simp only [Mem.unlockOwner, Function.update_idem]
      by_cases hji : j = i
      · rw [hji, Function.update_self]
      · rw [Function.update_of_ne hji]
        exact howners j
    · change s.mem.data.nextUnused - (i + 1) = k
      omega

/-- A `reserve` that found a slot comes to its end. -/
theorem reserve_returns {i : Nat} (hpc : s.pcs t = .reserveLoad i) :
    Alone poisons capacity t s fun s' => ∃ n, s'.pcs t = .reserved n := by
  refine .step hpc rfl (.step (Function.update_self ..) rfl ?_)
  refine .step (Function.update_self ..) rfl (.step (Function.update_self ..) rfl ?_)
  exact .now ⟨_, Function.update_self ..⟩

end

/-! ## The registry is exact -/

section

variable [DecidableEq T] {s : State T R} {capacity : Nat}

theorem unpoisoned_of_reach {ok : State T R → Action T R → Prop}
    (h : Reach (machine T R false capacity) ok s) : s.mem.poisoned = false := by
  refine h.inv (fun s => s.mem.poisoned = false) ?_ ?_
  · rintro _ rfl
    rfl
  · intro s a s' hs _ hstep
    cases step_move hstep with
    | call t hcall =>
      generalize s.pcs t = pc at hcall
      cases hcall with
      | removeUnlock handle removed => cases removed <;> exact hs
      | popFull => rfl
      | _ => exact hs
    | _ => exact hs

/-- What the free list, the high-water mark and the counter say about the outstanding handles in
state `s`, and what `reserve` and `snapshot_live` do from there. -/
structure Exact (capacity : Nat) (s : State T R) : Prop where
  /-- The indices of the outstanding handles are distinct, and below the capacity. -/
  indices : s.mem.data.indices.Nodup
  handles : s.mem.data.indices.length = s.mem.data.outstanding.length
  below : ∀ i ∈ s.mem.data.indices, i < s.mem.data.capacity
  free : s.mem.data.free.Nodup
  disjoint : s.mem.data.free.Disjoint s.mem.data.indices
  /-- Under the mutex, a `reserve` has one more slot for some of its steps. -/
  slots : ∀ i, i < s.mem.data.nextUnused ↔ i ∈ s.mem.data.free ∨ i ∈ s.mem.data.indices ∨
    ∃ t, s.mem.alloc = some t ∧ (s.pcs t).popped = some i
  live : s.mem.live = s.mem.data.outstanding.length ∨
    ∃ t n, s.mem.alloc = some t ∧ s.pcs t = .reserveLive n ∧
      s.mem.live + 1 = s.mem.data.outstanding.length
  noUnderflow : ∀ t handle r, s.pcs t = .removeFree handle (some r) → 0 < s.mem.live
  /-- A handle is not outstanding when a `remove` of it returns. -/
  removed : ∀ t handle removed, s.pcs t = .removeUnlock handle removed →
    ∀ n ∈ s.mem.data.outstanding, ∀ r, s.mem.data.reservations[n]? = some r → r.toHandle ≠ handle
  fails : ∀ t s', step false s (.call t) = some s' → (s.pcs t).method = .reserve →
    (s'.pcs t = .panicked ↔ s.pcs t = .reservePop ∧ s.mem.live = s.mem.data.capacity)
  succeeds : ∀ t, s.pcs t = .reservePop → s.mem.live ≠ s.mem.data.capacity →
    Alone false capacity t s fun s' => ∃ n, s'.pcs t = .reserved n
  snapshot : ∀ t as s' live, s.pcs t = .snapshotLock →
    (machine T R false capacity).RunOk (fun s a => CommitsFirst s a ∧ Undisturbed s) s as →
    (machine T R false capacity).run s as = some s' → s'.mem.data.Few →
    s'.pcs t = .snapshot live → live.Perm s'.mem.data.served
  snapshotReturns : ∀ t, s.pcs t = .snapshotLock → s.mem.alloc = none →
    (∀ i, s.mem.owners i = none) →
    Alone false capacity t s fun s' => ∃ live, s'.pcs t = .snapshot live

omit [DecidableEq T] in
/-- The registry is full when `reserve` finds no slot. -/
theorem full_iff (hinv : Inv s) (hc : Covered s) (hb : s.mem.data.Bounded) (hcount : Counted s)
    {t : T} (hpc : s.pcs t = .reservePop) : s.mem.live = s.mem.data.capacity ↔
      s.mem.data.free = [] ∧ s.mem.data.capacity ≤ s.mem.data.nextUnused := by
  have hin : (s.pcs t).inAlloc = true := by rw [hpc]; rfl
  have halloc := (hinv.thread t).alloc hin
  have hperm := hc.perm_range hinv hb (hinv.not_popped halloc (by rw [hpc]; rfl))
  have hlen := hperm.length_eq
  rw [List.length_append, List.length_range, hinv.data.length_indices,
    ← hcount.exact_of_inAlloc hinv hin (by simp [hpc])] at hlen
  have hunused := hb.unused
  rw [← List.length_eq_zero_iff]
  omega

theorem reserve_fails_iff (hinv : Inv s) (hc : Covered s) (hb : s.mem.data.Bounded)
    (hcount : Counted s) (hp : s.mem.poisoned = false) {t : T} {s' : State T R}
    (h : step false s (.call t) = some s') (hm : (s.pcs t).method = .reserve) :
    s'.pcs t = .panicked ↔ s.pcs t = .reservePop ∧ s.mem.live = s.mem.data.capacity := by
  have hfull := full_iff hinv hc hb hcount (t := t)
  cases step_move h with
  | call _ hcall =>
    simp only [Function.update_self]
    generalize s.pcs t = pc at hcall hm hfull
    cases hcall with
    | popFull hfree hle => exact ⟨fun _ => ⟨rfl, (hfull rfl).mpr ⟨hfree, hle⟩⟩, fun _ => rfl⟩
    | popFree i free hfree =>
      refine ⟨nofun, fun hl => ?_⟩
      rw [((hfull rfl).mp hl.2).1] at hfree
      cases hfree
    | popUnused hfree hlt =>
      refine ⟨nofun, fun hl => ?_⟩
      exact absurd ((hfull rfl).mp hl.2).2 (Nat.not_le.mpr hlt)
    | reservePoisoned hpoisoned => cases hp.symm.trans hpoisoned
    | reserveLock | reserveLoad | reserveStore | reserveLive | reserveUnlock =>
      exact ⟨nofun, fun hl => nomatch hl.1⟩
    | _ => cases hm

theorem reserve_succeeds (hinv : Inv s) (hc : Covered s) (hb : s.mem.data.Bounded)
    (hcount : Counted s) {t : T} (hpc : s.pcs t = .reservePop)
    (hl : s.mem.live ≠ s.mem.data.capacity) :
    Alone false capacity t s fun s' => ∃ n, s'.pcs t = .reserved n := by
  rw [Ne, full_iff hinv hc hb hcount hpc] at hl
  cases hfree : s.mem.data.free with
  | cons i free =>
    refine .step hpc (m := { s.mem with data := { s.mem.data with free } }) (d := .reserveLoad i)
      (by simp only [callStep, hfree]) (reserve_returns (Function.update_self ..))
  | nil =>
    have hlt : ¬s.mem.data.capacity ≤ s.mem.data.nextUnused := fun hle => hl ⟨hfree, hle⟩
    refine .step hpc
      (m := { s.mem with data := { s.mem.data with nextUnused := s.mem.data.nextUnused + 1 } })
      (d := .reserveLoad s.mem.data.nextUnused) (by simp only [callStep, hfree, if_neg hlt])
      (reserve_returns (Function.update_self ..))

/-- A slot was reserved no more often before the run. -/
theorem Few.of_run {poisons : Bool} {as : List (Action T R)} {s' : State T R}
    (hrun : (machine T R poisons capacity).run s as = some s') (hfew : s'.mem.data.Few) :
    s.mem.data.Few := by
  induction as generalizing s with
  | nil =>
    cases hrun
    exact hfew
  | cons a as ih =>
    obtain ⟨u, hu, hrun⟩ := Option.bind_eq_some_iff.mp hrun
    intro i hi
    exact Nat.lt_of_le_of_lt (step_reserves_le hu i)
      (ih hrun i (hi.trans_eq (step_capacity hu).symm))

/-- A snapshot that no commit and no remove disturbs. -/
theorem Collected.run {t : T} {as : List (Action T R)} {s' : State T R}
    (hc : Collected s.mem.data (s.pcs t))
    (h : Reach (machine T R false capacity) CommitsFirst s)
    (hok : (machine T R false capacity).RunOk (fun s a => CommitsFirst s a ∧ Undisturbed s) s as)
    (hrun : (machine T R false capacity).run s as = some s') (hfew : s'.mem.data.Few) :
    Collected s'.mem.data (s'.pcs t) := by
  induction as generalizing s with
  | nil =>
    cases hrun
    exact hc
  | cons a as ih =>
    have hsettled := settled_of_reach h (Few.of_run hrun hfew)
    obtain ⟨u, hu, hrun⟩ := Option.bind_eq_some_iff.mp hrun
    refine ih ?_ (.step h hok.1.1 hu) (hok.2 u hu) hrun
    exact hc.step (inv_of_reach h) (bounded_of_reach h) hsettled hok.1.2 hu

/-- **Allocation is exact**: the outstanding handles and the free slots make up the slots below
`next_unused`, `live` counts the former, `reserve` fails exactly when it has reached the capacity,
and an undisturbed snapshot holds each committed runner that is not removed once. -/
theorem allocation_exact (h : Reach (machine T R false capacity) CommitsFirst s)
    (hfew : s.mem.data.Few) :
    s.mem.data.capacity = min (max capacity 1) (2 ^ 32 - 2) ∧ Exact capacity s := by
  have hinv := inv_of_reach h
  have hb := bounded_of_reach h
  have hc := covered_of_reach h
  have hcount := counted_of_reach h
  have hp := unpoisoned_of_reach h
  have hin {t : T} {i : Nat} (ht : (s.pcs t).popped = some i) : s.mem.alloc = some t :=
    (hinv.thread t).alloc (Pc.inAlloc_of_popped ht)
  refine ⟨capacity_of_reach h, ?_⟩
  exact
    { indices := hinv.data.indices_nodup
      handles := hinv.data.length_indices
      below := fun i hi => Nat.lt_of_lt_of_le (hb.lt_of_mem_indices hi) hb.unused
      free := hinv.data.nodup
      disjoint := hinv.data.free_disjoint
      slots := fun i => by
        refine ⟨fun hi => ?_, ?_⟩
        · refine (hc i hi).imp_right (.imp (Data.mem_indices.mpr) ?_)
          rintro ⟨t, ht⟩
          exact ⟨t, hin ht, ht⟩
        · rintro (hi | hi | ⟨t, -, ht⟩)
          · exact hinv.data.below i hi
          · exact hb.lt_of_mem_indices hi
          · exact ((hinv.thread t).popped i ht).used
      live := by
        by_cases hcounting : ∃ t n, s.pcs t = .reserveLive n
        · obtain ⟨t, n, ht⟩ := hcounting
          exact .inr ⟨t, n, (hinv.thread t).alloc (by rw [ht]; rfl), ht, hcount.counting t n ht⟩
        · exact .inl (hcount.exact fun t n ht => hcounting ⟨t, n, ht⟩)
      noUnderflow := fun t handle r hpc => by
        have htaken := (hinv.thread t).taken handle.index (by rw [hpc]; rfl)
        rw [hcount.exact_of_inAlloc (t := t) hinv (by rw [hpc]; rfl) (by simp [hpc])]
        exact List.length_pos_of_mem htaken.outstanding
      removed := (settled_of_reach h hfew).gone
      fails := fun t s' hs hm => reserve_fails_iff hinv hc hb hcount hp hs hm
      succeeds := fun t hpc hl => reserve_succeeds hinv hc hb hcount hpc hl
      snapshot := fun t as s' live hpc hok hrun hfew' hsnap => by
        have hcollected := Collected.run (t := t) (by rw [hpc]; trivial) h hok hrun hfew'
        rwa [hsnap] at hcollected
      snapshotReturns := fun t hpc halloc howners => by
        refine .step hpc (m := { s.mem with alloc := some t }) (d := .snapshotSlot 0 []) ?_
          (snapshot_returns (Function.update_self ..) howners)
        simp only [callStep, Mem.lockAlloc, halloc, hp]
        rfl }

/-- Threads 0 and 1 fill a registry of two slots; the handle of thread 0 is removed twice, thread 2
reserves its slot again and has not committed, and thread 0 begins a snapshot. -/
def refilled : State Nat Nat :=
  ((machine Nat Nat false 2).run (withCapacity Nat Nat 2)
    ([Action.reserve 0] ++ List.replicate 6 (Action.call 0) ++ [Action.commit 0 7] ++
      List.replicate 3 (Action.call 0) ++
      [Action.reserve 1] ++ List.replicate 6 (Action.call 1) ++ [Action.commit 1 8] ++
      List.replicate 3 (Action.call 1) ++
      [Action.remove 0 0] ++ List.replicate 8 (Action.call 0) ++
      [Action.remove 1 0] ++ List.replicate 3 (Action.call 1) ++
      [Action.reserve 2] ++ List.replicate 6 (Action.call 2) ++
      [Action.snapshotLive 0])).get rfl

theorem allocation_exact_refilled :
    refilled.mem.data.indices = [1, 0] ∧ refilled.mem.data.free = [] ∧ refilled.mem.live = 2 ∧
      refilled.mem.data.served = [8] ∧ Exact 2 refilled :=
  ⟨rfl, rfl, rfl, rfl, (allocation_exact (.get rfl (by decide) rfl) (by decide)).2⟩

end

end DignusActor.Registry
