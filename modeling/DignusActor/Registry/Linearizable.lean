import DignusActor.Registry.HandleTable
import DignusActor.Registry.Exact

/-! # The registry is linearizable

Each method but `snapshot_live` takes effect at one step: `reserve` at its store to the generation,
`commit` at its store to the owner, `post` and `kill` at the check that decides which runner they
reach, `live_count` at its read. A `remove` takes effect at its store to the generation if the slot
has an owner then. If not, it takes effect right after the commit that comes before it looks, or
when it looks (`Abs.step`). -/

namespace DignusActor.Registry

open Machine (Reach)
open Object (Event Phase)

variable {T R : Type} [DecidableEq T] {poisons : Bool} {s s' : State T R} {t u : T} {m : Mem T R}
  {pc : Pc R} {a a' : Table R} {p : T → Phase (Input R) (Output R)}
  {phase : Phase (Input R) (Output R)}

/-! ## The live handles -/

omit [DecidableEq T] in
theorem Abs.names (habs : Abs s a p) (hinv : Inv s) {handle : Handle} (h : handle ∈ a.live) :
    s.mem.data.Names handle := by
  rcases (habs.live handle).mp h with ⟨hg, hodd⟩ | ⟨u, hu⟩
  · exact hinv.data.names_of_odd (hinv.data.odd_of_mod (hg ▸ hodd)) hg
  · refine (hinv.thread u).names handle ?_
    rcases hu.1 with h | h <;> rw [h] <;> rfl

omit [DecidableEq T] in
/-- A slot has one live handle. -/
theorem Abs.eq_of_index (habs : Abs s a p) (hinv : Inv s) {g h : Handle} (hg : g ∈ a.live)
    (hn : s.mem.data.Names h) (hidx : g.index = h.index) : g = h := by
  obtain ⟨r, hr, hrg⟩ := habs.names hinv hg
  obtain ⟨q, hq, hqh⟩ := hn
  rw [hidx] at hr
  cases hr.symm.trans hq
  exact hrg.symm.trans hqh

omit [DecidableEq T] in
theorem Abs.index_lt (habs : Abs s a p) (hinv : Inv s) (hb : s.mem.data.Bounded) {handle : Handle}
    (h : handle ∈ a.live) : handle.index < s.mem.data.capacity := by
  obtain ⟨r, hr, rfl⟩ := habs.names hinv h
  exact hb.lt hr

omit [DecidableEq T] in
/-- What a lookup finds that passes both checks. -/
theorem Abs.get_of_holds (habs : Abs s a p) {handle : Handle} (h : s.mem.data.Holds handle) :
    a.get handle = (s.mem.data.slots handle.index).owner := by
  have hlive := (habs.live handle).mpr (.inl h)
  rw [Table.get, if_pos hlive]
  exact habs.runner handle hlive

omit [DecidableEq T] in
/-- A slot that is being retired without an owner gives nothing, as a handle that is not live. -/
theorem Abs.get_of_stale (habs : Abs s a p) {handle : Handle} (h : ¬s.mem.data.Holds handle) :
    a.get handle = none := by
  unfold Table.get
  split
  · rename_i hlive
    obtain ⟨u, hu⟩ := ((habs.live handle).mp hlive).resolve_left h
    rw [habs.runner handle hlive]
    have hphase := habs.phase u
    rcases hu with ⟨hpc | hpc, hcalled⟩ <;> rw [hpc, hcalled] at hphase <;>
      rcases hphase with ⟨-, h⟩ | ⟨r, h, -⟩ <;> first | exact h | cases h
  · rfl

omit [DecidableEq T] in
/-- Only the holder of the `alloc` mutex retires a slot or gives it back. -/
theorem Inv.not_retiring (hinv : Inv s) (hin : (s.pcs t).inAlloc = true) (hut : u ≠ t) :
    (∀ handle, ¬Retiring handle (s.pcs u) (p u)) ∧ ¬Leaving (s.pcs u) (p u) := by
  have hfree := hinv.not_inAlloc ((hinv.thread t).alloc hin) hut
  refine ⟨fun handle h => ?_, fun h => ?_⟩
  · cases hfree.symm.trans h.inAlloc
  · cases hfree.symm.trans h.inAlloc

/-! ## The steps of one thread -/

/-- What the table is made of has not changed. -/
structure SameTable (d d' : Data R) : Prop where
  slots : d'.slots = d.slots
  reservations : d'.reservations = d.reservations
  outstanding : d'.outstanding = d.outstanding

omit [DecidableEq T] in
theorem SameTable.phaseOk {d d' : Data R} (h : SameTable d d') (hp : PhaseOk d phase pc) :
    PhaseOk d' phase pc :=
  hp.frame (fun _ _ hn => h.reservations ▸ hn) fun i _ => by rw [h.slots]

/-- A thread moves on, and no more than the owners changes. -/
theorem Abs.owners (habs : Abs s a p)
    (hgen : ∀ i, (m.data.slots i).generation = (s.mem.data.slots i).generation)
    (hout : m.data.outstanding = s.mem.data.outstanding) (hpoisoned : a'.poisoned = m.poisoned)
    (hlive : a'.live = a.live) (hcount : a'.count = a.count)
    (hrunner : ∀ k ∈ a.live, a'.runners k = (m.data.slots k.index).owner)
    (hothers : ∀ u, u ≠ t → PhaseOk m.data (p u) (s.pcs u)) (hself : PhaseOk m.data phase pc)
    (hretiring : ∀ handle, Retiring handle pc phase ↔ Retiring handle (s.pcs t) (p t))
    (hleaving : Leaving pc phase ↔ Leaving (s.pcs t) (p t)) :
    Abs { s with mem := m, pcs := Function.update s.pcs t pc } a' (Function.update p t phase) := by
  have hretiring (handle : Handle) (u : T) :
      Retiring handle (Function.update s.pcs t pc u) (Function.update p t phase u) ↔
        Retiring handle (s.pcs u) (p u) := by
    by_cases hut : u = t
    · subst hut
      simpa using hretiring handle
    · rw [Function.update_of_ne hut, Function.update_of_ne hut]
  have hleaving (u : T) :
      Leaving (Function.update s.pcs t pc u) (Function.update p t phase u) ↔
        Leaving (s.pcs u) (p u) := by
    by_cases hut : u = t
    · subst hut
      simpa using hleaving
    · rw [Function.update_of_ne hut, Function.update_of_ne hut]
  refine ⟨hpoisoned, fun k => ?_, fun k hk => hrunner k (hlive ▸ hk), fun u hu => ?_,
    fun hno => ?_, fun u => ?_⟩
  · simp only [hretiring, Data.Holds, hgen, hlive]
    exact habs.live k
  · dsimp only
    rw [hout, hcount]
    exact habs.leaving u ((hleaving u).mp hu)
  · dsimp only
    rw [hout, hcount]
    exact habs.counted fun u hu => hno u ((hleaving u).mpr hu)
  · by_cases hut : u = t
    · subst hut
      simpa using hself
    · dsimp only
      rw [Function.update_of_ne hut, Function.update_of_ne hut]
      exact hothers u hut

/-- A thread moves on, and the table stays. -/
theorem Abs.quiet (habs : Abs s a p) (hsame : SameTable s.mem.data m.data)
    (hpoisoned : m.poisoned = s.mem.poisoned) (hself : PhaseOk m.data phase pc)
    (hretiring : ∀ handle, Retiring handle pc phase ↔ Retiring handle (s.pcs t) (p t))
    (hleaving : Leaving pc phase ↔ Leaving (s.pcs t) (p t)) :
    Abs { s with mem := m, pcs := Function.update s.pcs t pc } a (Function.update p t phase) :=
  habs.owners (fun i => by rw [hsame.slots]) hsame.outstanding
    (habs.poisoned.trans hpoisoned.symm) rfl rfl
    (fun k hk => hsame.slots ▸ habs.runner k hk) (fun u _ => hsame.phaseOk (habs.phase u)) hself
    hretiring hleaving

/-- A thread moves on with what it removes, and the table stays. -/
theorem Abs.keeps (habs : Abs s a p) (hsame : SameTable s.mem.data m.data)
    (hpoisoned : m.poisoned = s.mem.poisoned) (hself : PhaseOk m.data (p t) pc)
    (hretiring : ∀ handle, Retiring handle pc (p t) ↔ Retiring handle (s.pcs t) (p t))
    (hleaving : Leaving pc (p t) ↔ Leaving (s.pcs t) (p t)) :
    Abs { s with mem := m, pcs := Function.update s.pcs t pc } a p := by
  have h := habs.quiet hsame hpoisoned hself hretiring hleaving
  rwa [Function.update_eq_self] at h

/-- A thread that is not about to give a slot back moves on, and the table stays. -/
theorem Abs.calm (habs : Abs s a p) (hsame : SameTable s.mem.data m.data)
    (hpoisoned : m.poisoned = s.mem.poisoned) (hself : PhaseOk m.data phase pc)
    (hold : (s.pcs t).retired = none) (hnew : pc.retired = none) :
    Abs { s with mem := m, pcs := Function.update s.pcs t pc } a (Function.update p t phase) := by
  refine habs.quiet hsame hpoisoned hself (fun handle => ?_) ?_
  · exact iff_of_false (not_retiring hnew handle) (not_retiring hold handle)
  · exact iff_of_false (not_leaving hnew) (not_leaving hold)

/-- The holder of the `alloc` mutex changes the table. -/
theorem Abs.locked (hinv : Inv s) (hin : (s.pcs t).inAlloc = true)
    (hothers : ∀ u, u ≠ t → PhaseOk m.data (p u) (s.pcs u)) (hself : PhaseOk m.data phase pc)
    (hpoisoned : a'.poisoned = m.poisoned)
    (hlive : ∀ handle, handle ∈ a'.live ↔ m.data.Holds handle ∨ Retiring handle pc phase)
    (hrunner : ∀ handle ∈ a'.live,
      a'.runners handle = (m.data.slots handle.index).owner)
    (hleaving : Leaving pc phase → a'.count + 1 = m.data.outstanding.length)
    (hcounted : ¬Leaving pc phase → a'.count = m.data.outstanding.length) :
    Abs { s with mem := m, pcs := Function.update s.pcs t pc } a' (Function.update p t phase) := by
  refine ⟨hpoisoned, fun h => (hlive h).trans (or_congr_right ⟨fun hr => ⟨t, ?_⟩, ?_⟩), hrunner,
    fun u hu => ?_, fun hno => hcounted ?_, fun u => ?_⟩
  · simpa using hr
  · rintro ⟨u, hu⟩
    by_cases hut : u = t
    · subst hut
      simpa using hu
    · dsimp only at hu
      rw [Function.update_of_ne hut, Function.update_of_ne hut] at hu
      exact absurd hu ((hinv.not_retiring hin hut).1 h)
  · by_cases hut : u = t
    · subst hut
      exact hleaving (by simpa using hu)
    · dsimp only at hu
      rw [Function.update_of_ne hut, Function.update_of_ne hut] at hu
      exact absurd hu (hinv.not_retiring hin hut).2
  · simpa using hno t
  · by_cases hut : u = t
    · subst hut
      simpa using hself
    · dsimp only
      rw [Function.update_of_ne hut, Function.update_of_ne hut]
      exact hothers u hut

/-- A thread that keeps its place in its call moves on, and the table stays. -/
theorem Abs.stays (habs : Abs s a p) (hsame : SameTable s.mem.data m.data)
    (hpoisoned : m.poisoned = s.mem.poisoned) (hself : PhaseOk m.data (p t) pc)
    (hold : (s.pcs t).retired = none) (hnew : pc.retired = none) :
    Abs { s with mem := m, pcs := Function.update s.pcs t pc } a p := by
  have h := habs.calm hsame hpoisoned hself hold hnew
  rwa [Function.update_eq_self] at h

/-! ## What is known of a state -/

/-- The `alloc` mutex is not held once it is poisoned. -/
theorem unpoisoned_of_alloc {capacity : Nat} {ok : State T R → Action T R → Prop}
    (h : Reach (machine T R poisons capacity) ok s) :
    s.mem.alloc.isSome = true → s.mem.poisoned = false := by
  refine h.inv (fun s => s.mem.alloc.isSome = true → s.mem.poisoned = false) ?_ ?_
  · rintro _ rfl -
    rfl
  · intro s a s' hs _ hstep
    cases step_move hstep with
    | call t hcall =>
      generalize s.pcs t = pc at hcall
      cases hcall with
      | reserveLock _ hp | removeLock _ _ hp | snapshotLock _ hp | countLock _ hp =>
        exact fun _ => hp
      | popFull | reserveUnlock | snapshotUnlock | countUnlock => exact nofun
      | removeUnlock handle removed => cases removed <;> exact nofun
      | _ => exact hs
    | _ => exact hs

/-- What holds in every state of the registry. -/
structure Known (capacity : Nat) (s : State T R) : Prop where
  inv : Inv s
  counted : Counted s
  covered : Covered s
  bounded : s.mem.data.Bounded
  capacity : s.mem.data.capacity = capacity
  unpoisoned : s.mem.alloc.isSome = true → s.mem.poisoned = false

variable {capacity : Nat}

theorem known_of_reach {ok : State T R → Action T R → Prop}
    (h : Reach (machine T R poisons capacity) ok s) :
    Known (min (max capacity 1) (2 ^ 32 - 2)) s where
  inv := inv_of_reach h
  counted := counted_of_reach h
  covered := covered_of_reach h
  bounded := bounded_of_reach h
  capacity := capacity_of_reach h
  unpoisoned := unpoisoned_of_alloc h

omit [DecidableEq T] in
theorem Known.clear (hk : Known capacity s) (hin : (s.pcs t).inAlloc = true) :
    s.mem.poisoned = false :=
  hk.unpoisoned (by rw [(hk.inv.thread t).alloc hin]; rfl)

omit [DecidableEq T] in
/-- Under the mutex, with no slot on its way back, the table counts the outstanding handles. -/
theorem Abs.count_eq (habs : Abs s a p) (hinv : Inv s) (hin : (s.pcs t).inAlloc = true)
    (hleaving : ¬Leaving (s.pcs t) (p t)) : a.count = s.mem.data.outstanding.length := by
  refine habs.counted fun u => ?_
  by_cases hut : u = t
  · exact hut ▸ hleaving
  · exact (hinv.not_retiring hin hut).2

omit [DecidableEq T] in
/-- Under the mutex, with no slot being retired, the live handles are those of the slots. -/
theorem Abs.mem_live (habs : Abs s a p) (hinv : Inv s) (hin : (s.pcs t).inAlloc = true)
    (hretiring : ∀ handle, ¬Retiring handle (s.pcs t) (p t)) (handle : Handle) :
    handle ∈ a.live ↔ s.mem.data.Holds handle := by
  refine (habs.live handle).trans ⟨fun h => h.resolve_right ?_, .inl⟩
  rintro ⟨u, hu⟩
  by_cases hut : u = t
  · exact hretiring handle (hut ▸ hu)
  · exact (hinv.not_retiring hin hut).1 handle hu

/-! ## The answers of the table -/

/-- The table answers the step of thread `t` to `pc`. -/
def Answers (poisons : Bool) (capacity : Nat) (s : State T R) (t : T) (m : Mem T R) (pc : Pc R)
    (h : List (Event T (Input R) (Output R))) : Prop :=
  ∃ a p, (handleTable R poisons capacity).Atomic a p
      (h ++ ((returned s.mem.data (s.pcs t) pc).map (Event.ret t)).toList) ∧
    Abs { s with mem := m, pcs := Function.update s.pcs t pc } a p

section

variable {h : List (Event T (Input R) (Output R))}

/-- No call returns. -/
theorem Answers.silent (hatomic : (handleTable R poisons capacity).Atomic a p h)
    (hret : returned s.mem.data (s.pcs t) pc = none)
    (habs : Abs { s with mem := m, pcs := Function.update s.pcs t pc } a p) :
    Answers poisons capacity s t m pc h := by
  refine ⟨a, p, ?_, habs⟩
  rw [hret]
  simpa using hatomic

/-- A call that has taken effect returns. -/
theorem Answers.ret {o : Output R} (hatomic : (handleTable R poisons capacity).Atomic a p h)
    (hdone : p t = .done o) (hret : returned s.mem.data (s.pcs t) pc = some o)
    (habs : Abs { s with mem := m, pcs := Function.update s.pcs t pc } a
      (Function.update p t .idle)) : Answers poisons capacity s t m pc h := by
  refine ⟨a, _, ?_, habs⟩
  rw [hret]
  exact .ret t o hatomic hdone

/-- A call takes effect. -/
theorem Answers.effect {i : Input R} {o : Output R}
    (hatomic : (handleTable R poisons capacity).Atomic a p h) (hcalled : p t = .called i)
    (happly : a.Apply poisons capacity i o a')
    (hret : returned s.mem.data (s.pcs t) pc = none)
    (habs : Abs { s with mem := m, pcs := Function.update s.pcs t pc } a'
      (Function.update p t (.done o))) : Answers poisons capacity s t m pc h :=
  .silent (.effect t o hatomic hcalled happly) hret habs

/-- A call takes effect and returns. -/
theorem Answers.atOnce {i : Input R} {o : Output R}
    (hatomic : (handleTable R poisons capacity).Atomic a p h) (hcalled : p t = .called i)
    (happly : a.Apply poisons capacity i o a')
    (hret : returned s.mem.data (s.pcs t) pc = some o)
    (habs : Abs { s with mem := m, pcs := Function.update s.pcs t pc } a'
      (Function.update p t .idle)) : Answers poisons capacity s t m pc h := by
  refine Answers.ret (.effect t o hatomic hcalled happly) (Function.update_self ..) hret ?_
  rwa [Function.update_idem]

/-! ## The methods -/

omit [DecidableEq T] in
/-- `reserve` gives the next generation to a slot that has no live handle. -/
theorem Abs.add (habs : Abs s a p) (hk : Known capacity s) {i g : Nat}
    (hpc : s.pcs t = .reserveStore i g) (k : Handle) :
    (k ∈ (a.add ⟨i, g⟩).live ↔ (s.mem.data.reserve i g).Holds k) ∧
      (k ∈ (a.add ⟨i, g⟩).live → (a.add ⟨i, g⟩).runners k =
        ((s.mem.data.reserve i g).slots k.index).owner) ∧
      (k ∈ a.live → k.index ≠ i) := by
  have hself := hk.inv.thread t
  rw [hpc] at hself
  have hpop := hself.popped i rfl
  have hgen := hself.generation i g rfl
  have hmem := habs.mem_live hk.inv (t := t) (by rw [hpc]; rfl)
    (not_retiring (by rw [hpc]; rfl)) k
  have heven : (s.mem.data.slots i).generation % 2 = 0 := by
    rw [hpop.even, evenGeneration_mod]
  have hodd : g % 2 = 1 := by
    rw [hgen, hpop.even, wrappingSucc_even]
    exact oddGeneration_mod (Nat.le_add_left 1 _)
  have hne : k ∈ a.live → k.index ≠ i := by
    intro hlive hidx
    obtain ⟨hg, hmod⟩ := hmem.mp hlive
    rw [hidx] at hg
    omega
  rw [Table.add, Finset.mem_insert]
  obtain ⟨j, g'⟩ := k
  by_cases hji : j = i
  · subst hji
    have hold : (⟨j, g'⟩ : Handle) ∉ a.live := fun hlive => hne hlive rfl
    rw [Data.Holds, Data.reserve_slots_self]
    refine ⟨⟨fun h => ?_, fun h => .inl (congrArg (Handle.mk j) h.1.symm)⟩, fun h => ?_, hne⟩
    · cases h.resolve_right hold
      exact ⟨rfl, hodd⟩
    · cases h.resolve_right hold
      exact (Function.update_self ..).trans hpop.owner.symm
  · have hnew : (⟨j, g'⟩ : Handle) ≠ ⟨i, g⟩ := fun heq => hji (congrArg Handle.index heq)
    rw [Data.Holds, Data.reserve_slots_of_ne hji, or_iff_right hnew]
    exact ⟨hmem, fun h => (Function.update_of_ne hnew ..).trans (habs.runner _ h), hne⟩

theorem Abs.reserve_call (habs : Abs s a p) (hk : Known capacity s)
    (hcall : CallMove poisons t s.mem (s.pcs t) m pc) (hm : (s.pcs t).method = .reserve)
    (hatomic : (handleTable R poisons capacity).Atomic a p h) :
    Answers poisons capacity s t m pc h := by
  have hphase := habs.phase t
  have hin := hk.clear (t := t)
  generalize hpc : s.pcs t = pc₀ at hcall hm hphase
  cases hcall with
  | reserveLock | popFree | popUnused | reserveLoad | reserveLive =>
    exact .silent hatomic (by rw [hpc]; rfl)
      (habs.stays ⟨rfl, rfl, rfl⟩ rfl hphase (by rw [hpc]; rfl) rfl)
  | reservePoisoned hp =>
    exact .atOnce hatomic hphase (.reservePoisoned (habs.poisoned.trans hp)) (by rw [hpc]; rfl)
      (habs.calm ⟨rfl, rfl, rfl⟩ rfl rfl (by rw [hpc]; rfl) rfl)
  | popFull hfree hle =>
    have hlocked : (s.pcs t).inAlloc = true := by rw [hpc]; rfl
    have hretired : (s.pcs t).retired = none := by rw [hpc]; rfl
    have hcount := habs.count_eq hk.inv hlocked (not_leaving hretired)
    have hfull := (full_iff hk.inv hk.covered hk.bounded hk.counted hpc).mpr ⟨hfree, hle⟩
    rw [hk.counted.exact_of_inAlloc hk.inv hlocked (by simp [hpc]), ← hcount, hk.capacity] at hfull
    refine .atOnce hatomic hphase (.full (habs.poisoned.trans (hin hlocked)) hfull)
      (by rw [hpc]; rfl) ?_
    have hmem := habs.mem_live hk.inv hlocked (not_retiring hretired)
    exact Abs.locked hk.inv hlocked (fun u _ => habs.phase u) rfl rfl
      (fun k => (hmem k).trans (or_iff_left (not_retiring rfl k)).symm) habs.runner
      (fun hl => absurd hl (not_leaving rfl)) fun _ => hcount
  | reserveStore i g =>
    have hlocked : (s.pcs t).inAlloc = true := by rw [hpc]; rfl
    have hself := hk.inv.thread t
    rw [hpc] at hself
    have hpop := hself.popped i rfl
    have hadd := habs.add hk hpc
    have hlive : (⟨i, g⟩ : Handle) ∈ (a.add ⟨i, g⟩).live := Finset.mem_insert_self ..
    have hnew : (⟨i, g⟩ : Handle) ∉ a.live := fun hmem => (hadd ⟨i, g⟩).2.2 hmem rfl
    have hcount := habs.count_eq hk.inv hlocked (not_leaving (by rw [hpc]; rfl))
    refine .effect hatomic hphase
      (.reserve _ (habs.poisoned.trans (hin hlocked)) ?_ ((hadd _).1.mp hlive).2
        fun k hk => (hadd k).2.2 hk) (by rw [hpc]; rfl)
      (Abs.locked hk.inv hlocked (fun u _ => ?_) ?_ habs.poisoned
        (fun k => (hadd k).1.trans (or_iff_left (not_retiring rfl k)).symm)
        (fun k => (hadd k).2.1) (fun hl => absurd hl (not_leaving rfl)) fun _ => ?_)
    · exact hk.capacity ▸ Nat.lt_of_lt_of_le hpop.used hk.bounded.unused
    · refine (habs.phase u).frame (fun n r hr => Data.reserve_getElem_old hr) fun j _ => ?_
      by_cases hji : j = i
      · rw [hji, Data.reserve_slots_self]
      · rw [Data.reserve_slots_of_ne hji]
    · exact ⟨_, List.getElem?_concat_length, rfl⟩
    · simp only [Table.count, Table.add, Finset.card_insert_of_notMem hnew,
        Data.reserve_outstanding, List.length_append, List.length_singleton] at hcount ⊢
      omega
  | reserveUnlock n =>
    obtain ⟨r, hr, hdone⟩ := hphase
    exact .ret hatomic hdone (by rw [hpc]; simp [returned, hr])
      (habs.calm ⟨rfl, rfl, rfl⟩ rfl rfl (by rw [hpc]; rfl) rfl)
  | _ => cases hm

theorem Abs.lookup_call (habs : Abs s a p) (hk : Known capacity s)
    (hcall : CallMove poisons t s.mem (s.pcs t) m pc) {lookup : Lookup}
    (hm : (s.pcs t).method = .lookup lookup)
    (hatomic : (handleTable R poisons capacity).Atomic a p h) :
    Answers poisons capacity s t m pc h := by
  have hphase := habs.phase t
  have hcalm {pc : Pc R} {phase : Phase (Input R) (Output R)} (hself : PhaseOk s.mem.data phase pc)
      (hold : (s.pcs t).retired = none) (hnew : pc.retired = none) :
      Abs { s with pcs := Function.update s.pcs t pc } a (Function.update p t phase) :=
    habs.calm (m := s.mem) ⟨rfl, rfl, rfl⟩ rfl hself hold hnew
  generalize hpc : s.pcs t = pc₀ at hcall hm hphase
  cases hcall with
  | lookupPast lookup hle =>
    have hget : a.get lookup.toHandle = none := by
      unfold Table.get
      split
      · rename_i hlive
        exact absurd (habs.index_lt hk.inv hk.bounded hlive) (Nat.not_lt.mpr hle)
      · rfl
    refine .atOnce hatomic hphase.1 (.lookup _) ?_ (hcalm rfl (by rw [hpc]; rfl) rfl)
    rw [hpc, hget]
    rfl
  | lookupStale lookup hne =>
    have hget : a.get lookup.toHandle = none := habs.get_of_stale fun hh => hne hh.1
    refine .atOnce hatomic hphase.1 (.lookup _) ?_ (hcalm rfl (by rw [hpc]; rfl) rfl)
    rw [hpc, hget]
    rfl
  | lookupLoad | lookupLock =>
    exact .silent hatomic (by rw [hpc]; rfl)
      (habs.stays ⟨rfl, rfl, rfl⟩ rfl hphase (by rw [hpc]; rfl) rfl)
  | recheckStale lookup hne =>
    have hget : a.get lookup.toHandle = none := habs.get_of_stale fun hh => hne hh.1
    refine .effect hatomic hphase.1 (.lookup _) (by rw [hpc]; rfl)
      (hcalm ?_ (by rw [hpc]; rfl) rfl)
    rw [hget]
    rfl
  | lookupRecheck lookup heq =>
    have hget : a.get lookup.toHandle = (s.mem.data.slots lookup.index).owner :=
      habs.get_of_holds ⟨heq, hphase.2⟩
    refine .effect hatomic hphase.1 (.lookup _) (by rw [hpc]; rfl)
      (hcalm ?_ (by rw [hpc]; rfl) rfl)
    rw [hget]
    rfl
  | lookupClone | lookupSome =>
    exact .silent hatomic (by rw [hpc]; rfl)
      (habs.stays ⟨rfl, rfl, rfl⟩ rfl hphase (by rw [hpc]; rfl) rfl)
  | lookupNone | deliver =>
    exact .ret hatomic hphase (by rw [hpc]; rfl)
      (habs.calm ⟨rfl, rfl, rfl⟩ rfl rfl (by rw [hpc]; rfl) rfl)
  | _ => cases hm

theorem Abs.snapshot_call (habs : Abs s a p) (hcall : CallMove poisons t s.mem (s.pcs t) m pc)
    (hm : (s.pcs t).method = .snapshot)
    (hatomic : (handleTable R poisons capacity).Atomic a p h) :
    Answers poisons capacity s t m pc h := by
  have hphase := habs.phase t
  generalize hpc : s.pcs t = pc₀ at hcall hm hphase
  cases hcall with
  | snapshotLock | snapshotPoisoned | snapshotSlot | snapshotEnd | snapshotClone
  | snapshotOwnerUnlock | snapshotUnlock =>
    exact .silent hatomic (by rw [hpc]; rfl)
      (habs.stays ⟨rfl, rfl, rfl⟩ rfl hphase (by rw [hpc]; rfl) rfl)
  | _ => cases hm

theorem Abs.count_call (habs : Abs s a p) (hk : Known capacity s)
    (hcall : CallMove poisons t s.mem (s.pcs t) m pc) (hm : (s.pcs t).method = .count)
    (hatomic : (handleTable R poisons capacity).Atomic a p h) :
    Answers poisons capacity s t m pc h := by
  have hphase := habs.phase t
  generalize hpc : s.pcs t = pc₀ at hcall hm hphase
  cases hcall with
  | countLock =>
    exact .silent hatomic (by rw [hpc]; rfl)
      (habs.stays ⟨rfl, rfl, rfl⟩ rfl hphase (by rw [hpc]; rfl) rfl)
  | countPoisoned hp =>
    exact .atOnce hatomic hphase (.countPoisoned (habs.poisoned.trans hp)) (by rw [hpc]; rfl)
      (habs.calm ⟨rfl, rfl, rfl⟩ rfl rfl (by rw [hpc]; rfl) rfl)
  | countRead =>
    have hlocked : (s.pcs t).inAlloc = true := by rw [hpc]; rfl
    have hcount := habs.count_eq hk.inv hlocked (not_leaving (by rw [hpc]; rfl))
    rw [← hk.counted.exact_of_inAlloc hk.inv hlocked (by simp [hpc])] at hcount
    refine .effect hatomic hphase (.liveCount (habs.poisoned.trans (hk.clear hlocked)))
      (by rw [hpc]; rfl) (habs.calm ⟨rfl, rfl, rfl⟩ rfl ?_ (by rw [hpc]; rfl) rfl)
    rw [hcount]
    rfl
  | countUnlock =>
    exact .ret hatomic hphase (by rw [hpc]; rfl)
      (habs.calm ⟨rfl, rfl, rfl⟩ rfl rfl (by rw [hpc]; rfl) rfl)
  | _ => cases hm

omit [DecidableEq T] in
/-- Another thread sees a commit if it is retiring the slot. -/
theorem Abs.commit_others (habs : Abs s a p) (hinv : Inv s) {n i : Nat} {r : R}
    (hpc : s.pcs t = .commitStore n r) (hi : s.mem.data.indexOf n = some i) (hut : u ≠ t)
    (hnot : ∀ k : Handle, k.index = i → ¬Retiring k (s.pcs u) (p u)) :
    PhaseOk (s.mem.data.commit n i r) (p u) (s.pcs u) := by
  have hself := hinv.thread t
  rw [hpc] at hself
  have hheld := hself.owner i hi
  have hnone := (hself.pending n rfl).owner i hi
  have hphase := habs.phase u
  have hown := (hinv.thread u).owner
  refine hphase.frame (fun _ _ => id) fun j hj => ?_
  by_cases hji : j = i
  · -- the mutex of the owner keeps the lookups out
    subst hji
    exfalso
    generalize hu : s.pcs u = pc₀ at hj hphase hown hnot
    cases pc₀ with
    | lookupClone lookup =>
      cases hj
      exact hut (Option.some.inj ((hown lookup.index rfl).symm.trans hheld))
    | removeOwnerLock k | removeTake k =>
      cases hj
      rcases hphase with ⟨hcalled, -⟩ | ⟨q, -, hq⟩
      · exact hnot k rfl ⟨by simp, hcalled⟩
      · cases hnone.symm.trans hq
    | _ => cases hj
  · rw [Data.commit_slots_of_ne hji]

/-- A commit comes while a `remove` is retiring the slot: both take effect. -/
theorem Abs.commit_retiring (habs : Abs s a p) (hk : Known capacity s) {n : Nat} {k : Handle}
    {r : R} (hpc : s.pcs t = .commitStore n r) (hi : s.mem.data.indexOf n = some k.index)
    (hu : Retiring k (s.pcs u) (p u)) (hrunner : ∀ g ∈ a.live, (a.commit k r).runners g =
      ((s.mem.data.commit n k.index r).slots g.index).owner) :
    Abs { s with
        mem := { s.mem with data := s.mem.data.commit n k.index r }
        pcs := Function.update s.pcs t (.commitUnlock n) } ((a.commit k r).remove k)
      (Function.update (Function.update p t (.done .committed)) u (.done (.removed (some r)))) := by
  have hin : (s.pcs u).inAlloc = true := hu.inAlloc
  have hut : u ≠ t := by
    rintro rfl
    rw [hpc] at hin
    cases hin
  have hself := hk.inv.thread u
  have hodd : k.generation % 2 = 1 := by
    refine hself.odd k ?_
    rcases hu.1 with h | h <;> rw [h] <;> rfl
  have heven := hself.retired k hu.retired
  have hlive : k ∈ a.live := (habs.live k).mpr (.inr ⟨u, hu⟩)
  -- no other thread retires a slot or gives one back
  have hfree (v : T) (hv : v ≠ u) := hk.inv.not_retiring (p := p) hin hv
  have hcalled : ¬Leaving (s.pcs u) (p u) := by
    rw [hu.2]
    rcases hu.1 with h | h <;> rw [h] <;> exact nofun
  have hcount := habs.count_eq hk.inv hin hcalled
  have hcount' : ((a.commit k r).remove k).count + 1 = s.mem.data.outstanding.length := by
    have hcard := Finset.card_erase_add_one hlive
    simp only [Table.count, Table.remove, Table.commit, Function.update_self, Option.isNone_some,
      Bool.false_eq_true, and_false, if_false] at hcount ⊢
    omega
  have hthread (v : T) (hvu : v ≠ u) (hvt : v ≠ t) :
      Function.update s.pcs t (.commitUnlock n) v = s.pcs v ∧
        Function.update (Function.update p t (.done .committed)) u (.done (.removed (some r))) v =
          p v := by
    rw [Function.update_of_ne hvt, Function.update_of_ne hvu, Function.update_of_ne hvt]
    exact ⟨rfl, rfl⟩
  have hnone (v : T) : ∀ g, ¬Retiring g (Function.update s.pcs t (.commitUnlock n) v)
      (Function.update (Function.update p t (.done .committed)) u (.done (.removed (some r)))
        v) := by
    intro g hg
    by_cases hvt : v = t
    · subst hvt
      rw [Function.update_self] at hg
      exact not_retiring rfl g hg
    · by_cases hvu : v = u
      · subst hvu
        rw [Function.update_self] at hg
        cases hg.2
      · rw [(hthread v hvu hvt).1, (hthread v hvu hvt).2] at hg
        exact (hfree v hvu).1 g hg
  refine ⟨habs.poisoned, fun g => ?_, fun g hg => ?_, fun _ _ => hcount', fun hno => ?_,
    fun v => ?_⟩
  · rw [or_iff_left (fun ⟨v, hv⟩ => hnone v g hv)]
    simp only [Table.remove, Table.commit, Finset.mem_erase, Data.Holds, Data.commit_generation]
    by_cases hgk : g = k
    · subst hgk
      refine iff_of_false (fun h => h.1 rfl) fun h => ?_
      have hmod : (s.mem.data.slots g.index).generation % 2 = 0 := by rw [heven, evenGeneration_mod]
      omega
    · rw [habs.live g, and_iff_right hgk]
      refine or_iff_left ?_
      rintro ⟨v, hv⟩
      by_cases hvu : v = u
      · subst hvu
        exact hgk (Option.some.inj (hv.retired.symm.trans hu.retired))
      · exact (hfree v hvu).1 g hv
  · exact hrunner g (Finset.mem_of_mem_erase hg)
  · refine absurd ?_ (hno u)
    dsimp only
    rw [Function.update_self, Function.update_of_ne hut]
    rcases hu.1 with h | h <;> rw [h]
    · exact .lock k r
    · exact .take k r
  · dsimp only
    by_cases hvt : v = t
    · subst hvt
      rw [Function.update_self, Function.update_of_ne hut.symm, Function.update_self]
      rfl
    · by_cases hvu : v = u
      · subst hvu
        have howner : ((s.mem.data.commit n k.index r).slots k.index).owner = some r := by
          rw [Data.commit_slots_self]
        rw [Function.update_self, Function.update_of_ne hvt]
        rcases hu.1 with h | h <;> rw [h] <;> exact .inr ⟨r, rfl, howner⟩
      · rw [(hthread v hvu hvt).1, (hthread v hvu hvt).2]
        exact habs.commit_others hk.inv hpc hi hvt fun g _ => (hfree v hvu).1 g

theorem Abs.commit_call (habs : Abs s a p) (hk : Known capacity s)
    (hcall : CallMove poisons t s.mem (s.pcs t) m pc) {n : Nat}
    (hm : (s.pcs t).method = .commit n)
    (hatomic : (handleTable R poisons capacity).Atomic a p h) :
    Answers poisons capacity s t m pc h := by
  have hphase := habs.phase t
  generalize hpc : s.pcs t = pc₀ at hcall hm hphase
  cases hcall with
  | commitLock =>
    exact .silent hatomic (by rw [hpc]; rfl)
      (habs.stays ⟨rfl, rfl, rfl⟩ rfl hphase (by rw [hpc]; rfl) rfl)
  | commitUnlock =>
    exact .ret hatomic hphase (by rw [hpc]; rfl)
      (habs.calm ⟨rfl, rfl, rfl⟩ rfl rfl (by rw [hpc]; rfl) rfl)
  | commitStore n r i hi =>
    obtain ⟨q, hq, hcalled⟩ := hphase
    have hself := hk.inv.thread t
    rw [hpc] at hself
    have hpending := hself.pending n rfl
    have hqi : q.index = i := by
      simpa [Data.indexOf, hq] using hi
    subst hqi
    have hnames : s.mem.data.Names q.toHandle :=
      ⟨q, by rw [hk.inv.data.latest_of_outstanding hpending.outstanding hi, hq], rfl⟩
    have hretired : (s.pcs t).retired = none := by rw [hpc]; rfl
    have honly (k : Handle) (hlive : k ∈ a.live) (hidx : k.index = q.index) : k = q.toHandle :=
      habs.eq_of_index hk.inv hlive hnames hidx
    have hrunner (k : Handle) (hlive : k ∈ a.live) : (a.commit q.toHandle r).runners k =
        ((s.mem.data.commit n q.index r).slots k.index).owner := by
      by_cases hidx : k.index = q.index
      · rw [honly k hlive hidx, Data.commit_slots_self]
        exact Function.update_self ..
      · rw [Data.commit_slots_of_ne hidx]
        refine (Function.update_of_ne ?_ ..).trans (habs.runner k hlive)
        rintro rfl
        exact hidx rfl
    by_cases hret : ∃ u, Retiring q.toHandle (s.pcs u) (p u)
    · obtain ⟨u, hu⟩ := hret
      have hin : (s.pcs u).inAlloc = true := hu.inAlloc
      have hut : u ≠ t := by
        rintro rfl
        rw [hpc] at hin
        cases hin
      have hget : (a.commit q.toHandle r).get q.toHandle = some r := by
        have hlive : q.toHandle ∈ (a.commit q.toHandle r).live :=
          (habs.live q.toHandle).mpr (.inr ⟨u, hu⟩)
        rw [Table.get, if_pos hlive]
        exact Function.update_self ..
      have hcommit : a.Apply poisons capacity (.commit q.toHandle r) .committed
          (a.commit q.toHandle r) := .commit q.toHandle r
      have hcommitted : (handleTable R poisons capacity).Atomic (a.commit q.toHandle r)
          (Function.update p t (.done .committed)) h := .effect t _ hatomic hcalled hcommit
      have hremoved : (a.commit q.toHandle r).Apply poisons capacity (.remove q.toHandle)
          (.removed (some r)) ((a.commit q.toHandle r).remove q.toHandle) := by
        rw [← hget]
        exact .remove _ (habs.poisoned.trans (hk.clear hin))
      exact .silent (.effect u _ hcommitted ((Function.update_of_ne hut ..).trans hu.2) hremoved)
        (by rw [hpc]; rfl) (habs.commit_retiring hk hpc hi hu hrunner)
    · refine .effect hatomic hcalled (.commit q.toHandle r) (by rw [hpc]; rfl)
        (habs.owners (fun j => Data.commit_generation j) rfl habs.poisoned rfl rfl hrunner
          (fun u hut => habs.commit_others hk.inv hpc hi hut fun k hidx hr => hret ⟨u, ?_⟩) rfl
          (fun k => iff_of_false (not_retiring rfl k) (not_retiring hretired k))
          (iff_of_false (not_leaving rfl) (not_leaving hretired)))
      have hlive := (habs.live k).mpr (.inr ⟨u, hr⟩)
      exact honly k hlive hidx ▸ hr
  | _ => cases hm

omit [DecidableEq T] in
theorem Table.get_of_not_live {k : Handle} (h : k ∉ a.live) : a.get k = none := if_neg h

omit [DecidableEq T] in
theorem Table.remove_of_not_live {k : Handle} (h : k ∉ a.live) : a.remove k = a := by
  simp [Table.remove, h]

/-- A `remove` that finds its handle stale takes no runner. -/
theorem Abs.remove_stale (habs : Abs s a p) (hk : Known capacity s) {k : Handle}
    (hpc : s.pcs t = .removeLoad k) (hnot : k ∉ a.live)
    (hatomic : (handleTable R poisons capacity).Atomic a p h) :
    Answers poisons capacity s t s.mem (.removeUnlock k none) h := by
  have hphase := habs.phase t
  rw [hpc] at hphase
  have happly : a.Apply poisons capacity (.remove k) (.removed none) a := by
    have h : a.Apply poisons capacity (.remove k) (.removed (a.get k)) (a.remove k) := .remove k
      (habs.poisoned.trans (hk.clear (t := t) (by rw [hpc]; rfl)))
    rwa [Table.get_of_not_live hnot, Table.remove_of_not_live hnot] at h
  exact .effect hatomic hphase happly (by rw [hpc]; rfl)
    (habs.calm ⟨rfl, rfl, rfl⟩ rfl rfl (by rw [hpc]; rfl) rfl)

/-- The store of `remove` to the generation takes effect if the slot has an owner. -/
theorem Abs.remove_store (habs : Abs s a p) (hk : Known capacity s) {k : Handle}
    (hpc : s.pcs t = .removeStore k) (hatomic : (handleTable R poisons capacity).Atomic a p h) :
    Answers poisons capacity s t { s.mem with data := s.mem.data.retire k } (.removeOwnerLock k)
      h := by
  have hphase := habs.phase t
  have hself := hk.inv.thread t
  rw [hpc] at hphase hself
  have hin : (s.pcs t).inAlloc = true := by rw [hpc]; rfl
  have hret : (s.pcs t).retired = none := by rw [hpc]; rfl
  have hg := hself.matched k rfl
  have hholds : s.mem.data.Holds k := ⟨hg, hself.odd k rfl⟩
  have hmem := habs.mem_live hk.inv hin (not_retiring hret)
  have hlive := (hmem k).mpr hholds
  have hcount := habs.count_eq hk.inv hin (not_leaving hret)
  have hothers (u : T) (_ : u ≠ t) : PhaseOk (s.mem.data.retire k) (p u) (s.pcs u) :=
    (habs.phase u).frame (fun _ _ => id) fun j _ => Data.retire_owner j
  have hgone (g : Handle) : (s.mem.data.retire k).Holds g ↔ g ≠ k ∧ s.mem.data.Holds g := by
    by_cases hidx : g.index = k.index
    · have heven := Data.retire_even (hk.inv.data.odd_of_mod (hg ▸ hholds.2)) hg
      refine iff_of_false (fun h => ?_) fun h => h.1 ?_
      · have hmod := h.1 ▸ h.2
        rw [hidx, heven, evenGeneration_mod] at hmod
        cases hmod
      · exact habs.eq_of_index hk.inv ((hmem g).mpr h.2) (habs.names hk.inv hlive) hidx
    · rw [Data.Holds, Data.retire_slots_of_ne hidx]
      refine (and_iff_right ?_).symm
      rintro rfl
      exact hidx rfl
  cases howner : (s.mem.data.slots k.index).owner with
  | none =>
    refine .silent hatomic (by rw [hpc]; rfl) ?_
    have habs' : Abs { s with
        mem := { s.mem with data := s.mem.data.retire k }
        pcs := Function.update s.pcs t (.removeOwnerLock k) } a (Function.update p t (p t)) := by
      refine Abs.locked hk.inv hin hothers (.inl ⟨hphase, (Data.retire_owner _).trans howner⟩)
        habs.poisoned (fun g => ?_) (fun g hg => ?_) (fun hl => ?_) fun _ => hcount
      · rw [hmem g, hgone g, Retiring]
        by_cases hgk : g = k
        · subst hgk
          exact iff_of_true hholds (.inr ⟨.inl rfl, hphase⟩)
        · simp [hgk, Ne.symm hgk]
      · rw [Data.retire_owner]
        exact habs.runner g hg
      · rw [hphase] at hl
        cases hl
    rwa [Function.update_eq_self] at habs'
  | some r =>
    have hrunner : a.runners k = some r := (habs.runner k hlive).trans howner
    have hget : a.get k = some r := (if_pos hlive).trans hrunner
    have happly : a.Apply poisons capacity (.remove k) (.removed (a.get k)) (a.remove k) :=
      .remove k (habs.poisoned.trans (hk.clear hin))
    rw [hget] at happly
    refine .effect hatomic hphase happly (by rw [hpc]; rfl) ?_
    refine Abs.locked hk.inv hin hothers
      (.inr ⟨r, rfl, (Data.retire_owner _).trans howner⟩) habs.poisoned (fun g => ?_)
      (fun g hg => ?_) (fun _ => ?_) fun hno => absurd (.lock k r) hno
    · rw [hgone g, or_iff_left (fun hr => by cases hr.2), Table.remove, Finset.mem_erase, hmem g]
    · rw [Data.retire_owner]
      exact habs.runner g (Finset.mem_of_mem_erase hg)
    · have hcard := Finset.card_erase_add_one hlive
      simp only [Table.count, Table.remove, hrunner, Option.isNone_some, Bool.false_eq_true,
        and_false, if_false] at hcount ⊢
      change _ = s.mem.data.outstanding.length
      omega

/-- `remove` looks at the owner: it takes effect now if the slot had none when it was retired. -/
theorem Abs.remove_take (habs : Abs s a p) (hk : Known capacity s) {k : Handle}
    (hpc : s.pcs t = .removeTake k) (hatomic : (handleTable R poisons capacity).Atomic a p h) :
    Answers poisons capacity s t { s.mem with data := s.mem.data.takeOwner k.index }
      (.removeOwnerUnlock k (s.mem.data.slots k.index).owner) h := by
  have hphase := habs.phase t
  have hself := hk.inv.thread t
  rw [hpc] at hphase hself
  have hin : (s.pcs t).inAlloc = true := by rw [hpc]; rfl
  have heven := hself.retired k rfl
  have hheld := hself.owner k.index rfl
  have hothers (u : T) (hut : u ≠ t) :
      PhaseOk (s.mem.data.takeOwner k.index) (p u) (s.pcs u) := by
    refine (habs.phase u).frame (fun _ _ => id) fun j hj => ?_
    by_cases hji : j = k.index
    · subst hji
      exfalso
      have hown := (hk.inv.thread u).owner
      have hfree := hk.inv.not_inAlloc ((hk.inv.thread t).alloc hin) hut
      generalize s.pcs u = pc₀ at hj hown hfree
      cases pc₀ with
      | lookupClone lookup =>
        have hlock := hown lookup.index rfl
        rw [Option.some.inj hj] at hlock
        exact hut (Option.some.inj (hlock.symm.trans hheld))
      | removeOwnerLock | removeTake => cases hfree
      | _ => cases hj
    · rw [Data.takeOwner_slots_of_ne hji]
  have hout (g : Handle) (hg : s.mem.data.Holds g) : g.index ≠ k.index := by
    intro hidx
    have hmod := hg.1 ▸ hg.2
    rw [hidx, heven, evenGeneration_mod] at hmod
    cases hmod
  have hholds (g : Handle) : (s.mem.data.takeOwner k.index).Holds g ↔ s.mem.data.Holds g := by
    rw [Data.Holds, Data.takeOwner_generation, Data.Holds]
  rcases hphase with ⟨hcalled, hnone⟩ | ⟨r, hdone, howner⟩
  · have hlive : k ∈ a.live := (habs.live k).mpr (.inr ⟨t, .inr hpc, hcalled⟩)
    have hrunner : a.runners k = none := (habs.runner k hlive).trans hnone
    have hmem (g : Handle) : g ∈ a.live ∧ g ≠ k ↔ s.mem.data.Holds g := by
      rw [habs.live g]
      refine ⟨fun ⟨h, hgk⟩ => h.resolve_right ?_, fun h => ⟨.inl h, fun heq => ?_⟩⟩
      · rintro ⟨u, hu⟩
        by_cases hut : u = t
        · subst hut
          have hr := hu.retired
          rw [hpc] at hr
          exact hgk (Option.some.inj hr).symm
        · exact (hk.inv.not_retiring hin hut).1 g hu
      · exact hout g h (congrArg Handle.index heq)
    have hleaving : ¬Leaving (s.pcs t) (p t) := by
      rw [hpc, hcalled]
      exact nofun
    have hcount := habs.count_eq hk.inv hin hleaving
    have hget : a.get k = none := (if_pos hlive).trans hrunner
    have happly : a.Apply poisons capacity (.remove k) (.removed (a.get k)) (a.remove k) :=
      .remove k (habs.poisoned.trans (hk.clear hin))
    rw [hget] at happly
    refine .effect hatomic hcalled happly (by rw [hpc]; rfl) ?_
    rw [hnone]
    refine Abs.locked hk.inv hin hothers rfl habs.poisoned (fun g => ?_) (fun g hg => ?_)
      (fun hl => by cases hl) fun _ => ?_
    · rw [hholds, ← hmem g, or_iff_left (fun hr => by rcases hr.1 with h | h <;> cases h),
        Table.remove, Finset.mem_erase, and_comm]
    · have hgk := Finset.mem_erase.mp hg
      rw [Data.takeOwner_slots_of_ne (hout g ((hmem g).mp ⟨hgk.2, hgk.1⟩))]
      exact habs.runner g hgk.2
    · have hcard := Finset.card_erase_add_one hlive
      simp only [Table.count, Table.remove, hrunner, hlive, Option.isNone_none, and_self,
        if_true] at hcount ⊢
      change _ = s.mem.data.outstanding.length
      omega
  · have hnot (g : Handle) : ¬Retiring g (s.pcs t) (p t) := by
      intro hr
      rw [hdone] at hr
      cases hr.2
    have hmem := habs.mem_live hk.inv hin hnot
    have hleaving : Leaving (s.pcs t) (p t) := by
      rw [hpc, hdone]
      exact .take k r
    refine .silent hatomic (by rw [hpc]; rfl) ?_
    rw [howner]
    have habs' : Abs { s with
        mem := { s.mem with data := s.mem.data.takeOwner k.index }
        pcs := Function.update s.pcs t (.removeOwnerUnlock k (some r)) } a
        (Function.update p t (p t)) := by
      refine Abs.locked hk.inv hin hothers hdone habs.poisoned (fun g => ?_) (fun g hg => ?_)
        (fun _ => habs.leaving t hleaving) fun hno => absurd (.unlock k r _) hno
      · rw [hholds, hmem g]
        exact (or_iff_left (fun hr => by rcases hr.1 with h | h <;> cases h)).symm
      · rw [Data.takeOwner_slots_of_ne (hout g ((hmem g).mp hg))]
        exact habs.runner g hg
    rwa [Function.update_eq_self] at habs'

theorem Abs.remove_call (habs : Abs s a p) (hk : Known capacity s)
    (hcall : CallMove poisons t s.mem (s.pcs t) m pc) {handle : Handle}
    (hm : (s.pcs t).method = .remove handle)
    (hatomic : (handleTable R poisons capacity).Atomic a p h) :
    Answers poisons capacity s t m pc h := by
  have hphase := habs.phase t
  generalize hpc : s.pcs t = pc₀ at hcall hm hphase
  cases hcall with
  | removeLock =>
    exact .silent hatomic (by rw [hpc]; rfl)
      (habs.stays ⟨rfl, rfl, rfl⟩ rfl hphase (by rw [hpc]; rfl) rfl)
  | removePoisoned k hp =>
    exact .atOnce hatomic hphase (.removePoisoned k (habs.poisoned.trans hp)) (by rw [hpc]; rfl)
      (habs.calm ⟨rfl, rfl, rfl⟩ rfl rfl (by rw [hpc]; rfl) rfl)
  | removePast k hle =>
    exact habs.remove_stale hk hpc
      (fun hlive => Nat.not_lt.mpr hle (habs.index_lt hk.inv hk.bounded hlive)) hatomic
  | removeStale k hne =>
    refine habs.remove_stale hk hpc (fun hlive => hne ?_) hatomic
    have hmem := habs.mem_live hk.inv (t := t) (by rw [hpc]; rfl)
      (not_retiring (by rw [hpc]; rfl)) k
    exact (hmem.mp hlive).1
  | removeLoad =>
    exact .silent hatomic (by rw [hpc]; rfl)
      (habs.stays ⟨rfl, rfl, rfl⟩ rfl hphase (by rw [hpc]; rfl) rfl)
  | removeStore k => exact habs.remove_store hk hpc hatomic
  | removeOwnerLock k =>
    refine .silent hatomic (by rw [hpc]; rfl)
      (habs.keeps ⟨rfl, rfl, rfl⟩ rfl hphase (fun g => ?_) ?_)
    · simp [hpc, Retiring]
    · rw [hpc]
      constructor <;> intro hl <;> generalize p t = phase at hl <;> cases hl
      · exact .lock k _
      · exact .take k _
  | removeTake k => exact habs.remove_take hk hpc hatomic
  | removeOwnerUnlock k removed =>
    refine .silent hatomic (by rw [hpc]; rfl)
      (habs.keeps ⟨rfl, rfl, rfl⟩ rfl hphase (fun g => ?_) ?_)
    · simp [hpc, Retiring]
    · rw [hpc]
      constructor <;> intro hl <;> cases hl
      · exact .unlock k _ _
      · exact .free k _ _
  | keep k =>
    refine .silent hatomic (by rw [hpc]; rfl)
      (habs.keeps ⟨rfl, rfl, rfl⟩ rfl hphase (fun g => ?_) ?_)
    · simp [hpc, Retiring]
    · rw [hpc]
      constructor <;> intro hl <;> cases hl
  | giveBack k r =>
    have hin : (s.pcs t).inAlloc = true := by rw [hpc]; rfl
    have htaken := (hk.inv.thread t).taken k.index (by rw [hpc]; rfl)
    have hleaving := habs.leaving t (by rw [hpc]; exact .free k r _)
    have hnot (g : Handle) : ¬Retiring g (s.pcs t) (p t) := by simp [hpc, Retiring]
    have hmem := habs.mem_live hk.inv hin hnot
    refine .silent hatomic (by rw [hpc]; rfl) ?_
    have habs' : Abs { s with
        mem := s.mem.giveBack k.index (some r)
        pcs := Function.update s.pcs t (.removeUnlock k (some r)) } a
        (Function.update p t (p t)) := by
      refine Abs.locked hk.inv hin (fun u _ => (habs.phase u).frame (fun _ _ => id) fun _ _ => rfl)
        hphase habs.poisoned (fun g => ?_) (fun g hg => habs.runner g hg) (fun hl => by cases hl)
        fun _ => ?_
      · rw [hmem g]
        exact (or_iff_left (fun hr => by rcases hr.1 with h | h <;> cases h)).symm
      · simp only [Mem.giveBack, Data.giveBack, List.length_erase_of_mem htaken.outstanding]
        omega
    rwa [Function.update_eq_self] at habs'
  | removeUnlock k removed =>
    refine .ret hatomic hphase (by rw [hpc]; rfl) (habs.quiet ?_ ?_ rfl (fun g => ?_) ?_)
    · cases removed <;> exact ⟨rfl, rfl, rfl⟩
    · cases removed <;> rfl
    · simp [hpc, Retiring]
    · rw [hpc]
      constructor <;> intro hl <;> cases hl
  | _ => cases hm

theorem Abs.call (habs : Abs s a p) (hk : Known capacity s)
    (hcall : CallMove poisons t s.mem (s.pcs t) m pc)
    (hatomic : (handleTable R poisons capacity).Atomic a p h) :
    Answers poisons capacity s t m pc h := by
  cases hm : (s.pcs t).method with
  | rest | reserved =>
    generalize s.pcs t = pc₀ at hcall hm
    cases hcall <;> cases hm
  | reserve => exact habs.reserve_call hk hcall hm hatomic
  | commit => exact habs.commit_call hk hcall hm hatomic
  | lookup => exact habs.lookup_call hk hcall hm hatomic
  | remove => exact habs.remove_call hk hcall hm hatomic
  | snapshot => exact habs.snapshot_call hcall hm hatomic
  | count => exact habs.count_call hk hcall hm hatomic

/-- The table answers each step of the registry. -/
theorem Abs.step (habs : Abs s a p) (hk : Known capacity s) {b : Action T R}
    (hb : LooksUpReserved s b) (hs : step poisons s b = some s')
    (hatomic : (handleTable R poisons capacity).Atomic a p h) :
    ∃ a' p', (handleTable R poisons capacity).Atomic a' p' (h ++ events s b s') ∧ Abs s' a' p' := by
  have hrest {t : T} (hr : (s.pcs t).atRest = true) :
      p t = .idle ∧ (s.pcs t).retired = none := by
    have hphase := habs.phase t
    generalize s.pcs t = pc₀ at hr hphase
    cases pc₀ <;> first | exact ⟨hphase, rfl⟩ | cases hr
  have hsame : SameTable s.mem.data s.mem.data := ⟨rfl, rfl, rfl⟩
  cases step_move hs with
  | reserve t hr =>
    exact ⟨a, _, .call t .reserve hatomic (hrest hr).1, habs.calm hsame rfl rfl (hrest hr).2 rfl⟩
  | lookup t request handle hr =>
    exact ⟨a, _, .call t (.lookup handle) hatomic (hrest hr).1,
      habs.calm hsame rfl ⟨rfl, hb⟩ (hrest hr).2 rfl⟩
  | liveCount t hr =>
    exact ⟨a, _, .call t .liveCount hatomic (hrest hr).1, habs.calm hsame rfl rfl (hrest hr).2 rfl⟩
  | @remove t n r hr hn =>
    refine ⟨a, _, ?_, habs.calm hsame rfl rfl (hrest hr).2 rfl⟩
    simp only [events, hn]
    exact .call t (.remove r.toHandle) hatomic (hrest hr).1
  | snapshotLive t hr =>
    refine ⟨a, p, ?_, habs.stays hsame rfl (hrest hr).1 (hrest hr).2 rfl⟩
    rwa [events, List.append_nil]
  | commit t n runner hpc =>
    have hphase := habs.phase t
    have hself := hk.inv.thread t
    rw [hpc] at hphase hself
    have hn := List.getElem?_eq_getElem (hself.known n rfl)
    refine ⟨a, _, ?_, habs.calm hsame rfl ⟨_, hn, rfl⟩ (by rw [hpc]; rfl) rfl⟩
    simp only [events, hpc, hn]
    exact .call t _ hatomic hphase
  | abandon t n hpc =>
    have hphase := habs.phase t
    rw [hpc] at hphase
    refine ⟨a, p, ?_, habs.stays hsame rfl hphase (by rw [hpc]; rfl) rfl⟩
    rwa [events, List.append_nil]
  | call t hcall =>
    obtain ⟨a', p', hatomic, habs⟩ := habs.call hk hcall hatomic
    refine ⟨a', p', ?_, habs⟩
    simpa only [events, Function.update_self] using hatomic

/-- **The registry is linearizable.** In every run the calls of `reserve`, `commit`, `post`, `kill`,
`remove` and `live_count`, each at one instant between its call and its return, are calls of the
table of handles one after the other: also where the generations of a slot wrap around, where a
handle is removed before its commit, and where the `alloc` mutex is poisoned. -/
theorem linearizable (H : (machine T R poisons capacity).Traced LooksUpReserved events s h) :
    (handleTable R poisons (min (max capacity 1) (2 ^ 32 - 2))).Linearizable h := by
  have hinit {s : State T R} (hs : (machine T R poisons capacity).Init s) : ∃ a,
      (handleTable R poisons (min (max capacity 1) (2 ^ 32 - 2))).Init a ∧
        Abs s a fun _ => .idle := by
    subst hs
    refine ⟨_, rfl, rfl, fun k => ?_, by simp, fun u hu => ?_, fun _ => rfl, fun _ => rfl⟩
    · refine iff_of_false (Finset.notMem_empty k) ?_
      rintro (⟨hg, hodd⟩ | ⟨u, hu⟩)
      · rw [← hg] at hodd
        cases hodd
      · exact not_retiring rfl k hu
    · exact absurd hu (not_leaving rfl)
  obtain ⟨a, p, hatomic, -⟩ := H.simulates Abs hinit fun hreach habs hb hs hatomic =>
    habs.step (known_of_reach hreach) hb hs hatomic
  exact hatomic.toLinearizable

/-- Thread 1 looks for the handle that thread 0 is removing, and counts afterwards. -/
def overlapped : List (Action Nat Nat) :=
  List.flatten [[.reserve 0], .replicate 6 (.call 0), [.commit 0 7], .replicate 3 (.call 0),
    [.lookup 1 .post ⟨0, 1⟩, .call 1, .remove 0 0], .replicate 3 (.call 0), .replicate 3 (.call 1),
    .replicate 5 (.call 0), [.liveCount 1], .replicate 3 (.call 1)]

theorem linearizable_overlapped :
    (handleTable Nat true (min (max 1 1) (2 ^ 32 - 2))).Linearizable
      ((machine Nat Nat true 1).trace events (withCapacity Nat Nat 1) overlapped) :=
  linearizable (.get rfl (by decide +kernel) (by decide +kernel))

example : (machine Nat Nat true 1).trace events (withCapacity Nat Nat 1) overlapped =
    [.call 0 .reserve, .ret 0 (.handle ⟨0, 1⟩), .call 0 (.commit ⟨0, 1⟩ 7), .ret 0 .committed,
      .call 1 (.lookup ⟨0, 1⟩), .call 0 (.remove ⟨0, 1⟩), .ret 1 (.runner none),
      .ret 0 (.removed (some 7)), .call 1 .liveCount, .ret 1 (.count 0)] := by
  decide +kernel

end

end DignusActor.Registry
