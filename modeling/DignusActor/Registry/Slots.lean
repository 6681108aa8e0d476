import DignusActor.Registry.ActorRegistry

/-! # The slots of the registry

A slot that was reserved `k` times has the even generation `2 * k` while it can be handed out, and
the odd generation `2 * k - 1` while it is reserved, both modulo 2^32. `Data.Ok` says what this
means for the free list, the owners and the outstanding reservations, and each access keeps it. -/

namespace DignusActor.Registry

variable {R : Type}

/-! ## Generations -/

def evenGeneration (k : Nat) : Nat := 2 * k % 2 ^ 32

def oddGeneration (k : Nat) : Nat := (2 * k - 1) % 2 ^ 32

theorem wrappingSucc_even (k : Nat) : wrappingSucc (evenGeneration k) = oddGeneration (k + 1) := by
  simp only [wrappingSucc, evenGeneration, oddGeneration, Nat.reducePow]
  omega

theorem wrappingSucc_odd {k : Nat} (hk : 1 ≤ k) :
    wrappingSucc (oddGeneration k) = evenGeneration k := by
  simp only [wrappingSucc, evenGeneration, oddGeneration, Nat.reducePow]
  omega

theorem evenGeneration_mod (k : Nat) : evenGeneration k % 2 = 0 := by
  simp only [evenGeneration, Nat.reducePow]
  omega

theorem oddGeneration_mod {k : Nat} (hk : 1 ≤ k) : oddGeneration k % 2 = 1 := by
  simp only [oddGeneration, Nat.reducePow]
  omega

/-- Fewer than 2^31 further reserves do not come back to the same generation. -/
theorem oddGeneration_inj {k l : Nat} (hk : 1 ≤ k) (hle : k ≤ l) (hlt : l - k < 2 ^ 31)
    (h : oddGeneration k = oddGeneration l) : k = l := by
  simp only [oddGeneration, Nat.reducePow] at h hlt
  omega

/-! ## The invariant of the data -/

def Slot.Even (slot : Slot R) : Prop := slot.generation = evenGeneration slot.reserves

structure Slot.Odd (slot : Slot R) : Prop where
  reserved : 1 ≤ slot.reserves
  generation : slot.generation = oddGeneration slot.reserves

theorem Slot.odd_congr {a b : Slot R} (hg : a.generation = b.generation)
    (hr : a.reserves = b.reserves) : a.Odd ↔ b.Odd := by
  constructor <;> rintro ⟨h1, h2⟩
  · exact ⟨hr ▸ h1, by rw [← hg, ← hr, h2]⟩
  · exact ⟨hr ▸ h1, by rw [hg, hr, h2]⟩

theorem Slot.Odd.not_even {a : Slot R} (h : a.Odd) : ¬a.Even := by
  intro heven
  have hodd := oddGeneration_mod h.reserved
  rw [← h.generation, heven, evenGeneration_mod] at hodd
  cases hodd

namespace Data

variable (d : Data R)

/-- Slot `i` can be handed out. -/
structure Clear (i : Nat) : Prop where
  even : (d.slots i).Even
  owner : (d.slots i).owner = none
  outstanding : ∀ n ∈ d.outstanding, d.indexOf n ≠ some i

/-- Reservation `n` waits for its commit. -/
structure Pending (n : Nat) : Prop where
  outstanding : n ∈ d.outstanding
  runner : d.runners n = none
  owner : ∀ i, d.indexOf n = some i → (d.slots i).owner = none

/-- The last reservation of its slot returned `handle`. -/
def Names (handle : Handle) : Prop :=
  ∃ r, d.reservations[(d.slots handle.index).latest]? = some r ∧ r.toHandle = handle

/-- The slot of `handle` holds its reservation, kept there by the owner's mutex. -/
structure Current (handle : Handle) : Prop where
  outstanding : (d.slots handle.index).latest ∈ d.outstanding
  names : d.Names handle
  runner : (d.slots handle.index).owner = none →
    d.runners (d.slots handle.index).latest = none

/-- `remove` has taken the owner of slot `i`, and has not given the slot back. -/
structure Taken (i : Nat) : Prop where
  outstanding : (d.slots i).latest ∈ d.outstanding
  index : d.indexOf (d.slots i).latest = some i
  even : (d.slots i).Even
  owner : (d.slots i).owner = none
  runner : d.runners (d.slots i).latest ≠ none

structure Ok : Prop where
  phase : ∀ i, (d.slots i).Even ∨ (d.slots i).Odd
  nodup : d.free.Nodup
  below : ∀ i ∈ d.free, i < d.nextUnused
  free : ∀ i ∈ d.free, d.Clear i
  unused : ∀ i, d.nextUnused ≤ i → d.Clear i
  outstanding : ∀ n ∈ d.outstanding, ∃ i, d.indexOf n = some i ∧ (d.slots i).latest = n
  distinct : d.outstanding.Nodup
  owner : ∀ i r, (d.slots i).owner = some r → (d.slots i).latest ∈ d.outstanding ∧
    d.indexOf (d.slots i).latest = some i ∧ d.runners (d.slots i).latest = some r
  reserved : ∀ i, (d.slots i).Odd → (d.slots i).latest ∈ d.outstanding
  uncommitted : ∀ i, (d.slots i).Odd → (d.slots i).owner = none →
    d.runners (d.slots i).latest = none
  runners : ∀ n, d.reservations.length ≤ n → d.runners n = none
  reservation : ∀ (n : Nat) (r : Reservation), d.reservations[n]? = some r → 1 ≤ r.ordinal ∧
    r.generation = oddGeneration r.ordinal ∧ r.ordinal ≤ (d.slots r.index).reserves ∧
    n ≤ (d.slots r.index).latest
  latest : ∀ i, 1 ≤ (d.slots i).reserves → ∃ r, d.reservations[(d.slots i).latest]? = some r ∧
    r.index = i ∧ r.ordinal = (d.slots i).reserves
  ordinal : ∀ (n m : Nat) (r q : Reservation), d.reservations[n]? = some r →
    d.reservations[m]? = some q → r.index = q.index → n < m → r.ordinal < q.ordinal

variable {d}

theorem indexOf_eq_some {n i : Nat} :
    d.indexOf n = some i ↔ ∃ r, d.reservations[n]? = some r ∧ r.index = i := by
  simp [indexOf]

theorem indexOf_lt {n i : Nat} (h : d.indexOf n = some i) : n < d.reservations.length := by
  obtain ⟨r, hr, -⟩ := indexOf_eq_some.mp h
  exact (List.getElem?_eq_some_iff.mp hr).1

theorem Ok.lt_of_outstanding (h : d.Ok) {n : Nat} (hn : n ∈ d.outstanding) :
    n < d.reservations.length := by
  obtain ⟨i, hi, -⟩ := h.outstanding n hn
  exact indexOf_lt hi

theorem Ok.latest_of_outstanding (h : d.Ok) {n i : Nat} (hn : n ∈ d.outstanding)
    (hi : d.indexOf n = some i) : (d.slots i).latest = n := by
  obtain ⟨j, hj, hlatest⟩ := h.outstanding n hn
  cases hi.symm.trans hj
  exact hlatest

/-- An odd generation is that of the last reservation. -/
theorem Ok.odd_of_mod (h : d.Ok) {i : Nat} (hodd : (d.slots i).generation % 2 = 1) :
    (d.slots i).Odd := by
  refine (h.phase i).resolve_left fun heven => ?_
  rw [heven, evenGeneration_mod] at hodd
  cases hodd

theorem Ok.indexOf_latest (h : d.Ok) {i : Nat} (hi : 1 ≤ (d.slots i).reserves) :
    d.indexOf (d.slots i).latest = some i := by
  obtain ⟨r, hr, hidx, -⟩ := h.latest i hi
  exact indexOf_eq_some.mpr ⟨r, hr, hidx⟩

theorem Ok.names_of_odd (h : d.Ok) {handle : Handle} (hodd : (d.slots handle.index).Odd)
    (hg : (d.slots handle.index).generation = handle.generation) : d.Names handle := by
  obtain ⟨r, hr, hidx, hord⟩ := h.latest handle.index hodd.reserved
  obtain ⟨-, hgen, -⟩ := h.reservation _ r hr
  rw [hord, ← hodd.generation, hg] at hgen
  refine ⟨r, hr, ?_⟩
  obtain ⟨⟨index, generation⟩, ordinal⟩ := r
  cases hidx
  cases hgen
  rfl

theorem Ok.current_of_odd (h : d.Ok) {handle : Handle} (hodd : (d.slots handle.index).Odd)
    (hg : (d.slots handle.index).generation = handle.generation) : d.Current handle :=
  ⟨h.reserved _ hodd, h.names_of_odd hodd hg, h.uncommitted _ hodd⟩

theorem Names.index {handle : Handle} (h : d.Names handle) :
    d.indexOf (d.slots handle.index).latest = some handle.index := by
  obtain ⟨r, hr, rfl⟩ := h
  exact indexOf_eq_some.mpr ⟨r, hr, rfl⟩

theorem Clear.congr {d' : Data R} {i : Nat} (h : d.Clear i) (hslot : d'.slots i = d.slots i)
    (houtstanding : d'.outstanding = d.outstanding)
    (hreservations : d'.reservations = d.reservations) : d'.Clear i where
  even := hslot ▸ h.even
  owner := hslot ▸ h.owner
  outstanding := by
    simp only [houtstanding, indexOf, hreservations]
    exact h.outstanding

/-! ### `reserve` -/

theorem Ok.pop (h : d.Ok) {i : Nat} {free : List Nat} (hfree : d.free = i :: free) :
    Ok { d with free } ∧ i ∉ free ∧ i < d.nextUnused ∧ d.Clear i := by
  have hnodup := h.nodup
  rw [hfree, List.nodup_cons] at hnodup
  have hsub : ∀ j ∈ free, j ∈ d.free := fun j hj => hfree ▸ List.mem_cons_of_mem i hj
  have hmem : i ∈ d.free := hfree ▸ List.mem_cons_self
  exact ⟨{ h with
      nodup := hnodup.2
      below := fun j hj => h.below j (hsub j hj)
      free := fun j hj => (h.free j (hsub j hj)).congr rfl rfl rfl
      unused := fun j hj => (h.unused j hj).congr rfl rfl rfl },
    hnodup.1, h.below i hmem, h.free i hmem⟩

theorem Ok.grow (h : d.Ok) :
    Ok { d with nextUnused := d.nextUnused + 1 } ∧ d.nextUnused ∉ d.free ∧
      d.Clear d.nextUnused := by
  exact ⟨{ h with
      below := fun i hi => Nat.lt_succ_of_lt (h.below i hi)
      free := fun i hi => (h.free i hi).congr rfl rfl rfl
      unused := fun i hi => (h.unused i (Nat.le_of_succ_le hi)).congr rfl rfl rfl },
    fun hmem => Nat.lt_irrefl _ (h.below _ hmem), h.unused _ (Nat.le_refl _)⟩

section Reserve

variable {i g : Nat}

theorem reserve_slots_self : (d.reserve i g).slots i =
    { d.slots i with
      generation := g
      reserves := (d.slots i).reserves + 1
      latest := d.reservations.length } :=
  Function.update_self ..

theorem reserve_slots_of_ne {j : Nat} (hj : j ≠ i) : (d.reserve i g).slots j = d.slots j :=
  Function.update_of_ne hj ..

theorem reserve_reservations : (d.reserve i g).reservations =
    d.reservations ++ [{ index := i, generation := g, ordinal := (d.slots i).reserves + 1 }] :=
  rfl

theorem reserve_outstanding :
    (d.reserve i g).outstanding = d.outstanding ++ [d.reservations.length] := rfl

/-- The reservations are the old ones and the new one. -/
theorem reserve_getElem {n : Nat} {r : Reservation}
    (h : (d.reserve i g).reservations[n]? = some r) : d.reservations[n]? = some r ∨
      n = d.reservations.length ∧
        r = { index := i, generation := g, ordinal := (d.slots i).reserves + 1 } := by
  rw [reserve_reservations, List.getElem?_append] at h
  split at h
  · exact .inl h
  · rename_i hn
    rw [List.getElem?_singleton] at h
    split at h
    · cases h
      exact .inr ⟨by omega, rfl⟩
    · cases h

theorem reserve_getElem_old {n : Nat} {r : Reservation} (h : d.reservations[n]? = some r) :
    (d.reserve i g).reservations[n]? = some r := by
  rw [reserve_reservations, List.getElem?_append_left (List.getElem?_eq_some_iff.mp h).1, h]

theorem reserve_indexOf_old {n : Nat} (hn : n < d.reservations.length) :
    (d.reserve i g).indexOf n = d.indexOf n := by
  simp only [indexOf, reserve_reservations, List.getElem?_append_left hn]

theorem reserve_indexOf_new : (d.reserve i g).indexOf d.reservations.length = some i := by
  simp [indexOf, reserve_reservations]

theorem reserve_indexOf {n j : Nat} (h : (d.reserve i g).indexOf n = some j) :
    d.indexOf n = some j ∨ n = d.reservations.length ∧ j = i := by
  obtain ⟨r, hr, rfl⟩ := indexOf_eq_some.mp h
  rcases reserve_getElem hr with hr | ⟨hn, rfl⟩
  · exact .inl (indexOf_eq_some.mpr ⟨r, hr, rfl⟩)
  · exact .inr ⟨hn, rfl⟩

theorem Clear.reserve {j : Nat} (h : d.Clear j) (hj : j ≠ i) : (d.reserve i g).Clear j where
  even := by
    rw [reserve_slots_of_ne hj]
    exact h.even
  owner := by
    rw [reserve_slots_of_ne hj]
    exact h.owner
  outstanding n hn hidx := by
    rcases reserve_indexOf hidx with hidx | ⟨-, rfl⟩
    · rcases List.mem_append.mp hn with hn | hn
      · exact h.outstanding n hn hidx
      · exact absurd (indexOf_lt hidx) (by simp [List.mem_singleton.mp hn])
    · exact hj rfl

theorem Ok.reserve (h : d.Ok) (hclear : d.Clear i) (hfree : i ∉ d.free) (hlt : i < d.nextUnused)
    (hg : g = wrappingSucc (d.slots i).generation) : (d.reserve i g).Ok := by
  have hg' : g = oddGeneration ((d.slots i).reserves + 1) := by
    rw [hg, hclear.even, wrappingSucc_even]
  exact
    { phase := fun j => by
        by_cases hj : j = i
        · subst hj
          rw [reserve_slots_self]
          exact .inr ⟨Nat.le_add_left 1 _, hg'⟩
        · rw [reserve_slots_of_ne hj]
          exact h.phase j
      nodup := h.nodup
      below := h.below
      free := fun j hj => (h.free j hj).reserve fun hji => hfree (hji ▸ hj)
      unused := fun j hj => (h.unused j hj).reserve fun hji => by
        subst hji
        exact absurd hlt (Nat.not_lt.mpr hj)
      outstanding := fun n hn => by
        rcases List.mem_append.mp hn with hn | hn
        · obtain ⟨j, hj, hlatest⟩ := h.outstanding n hn
          have hji : j ≠ i := fun hji => hclear.outstanding n hn (hji ▸ hj)
          refine ⟨j, ?_, ?_⟩
          · rw [reserve_indexOf_old (indexOf_lt hj), hj]
          · rw [reserve_slots_of_ne hji, hlatest]
        · rw [List.mem_singleton.mp hn]
          exact ⟨i, reserve_indexOf_new, by rw [reserve_slots_self]⟩
      distinct := by
        refine List.nodup_append.mpr ⟨h.distinct, List.pairwise_singleton .., ?_⟩
        rintro n hn m hm rfl
        exact absurd (h.lt_of_outstanding hn) (by simp [List.mem_singleton.mp hm])
      owner := fun j r hr => by
        by_cases hj : j = i
        · subst hj
          rw [reserve_slots_self] at hr
          cases hclear.owner.symm.trans hr
        · rw [reserve_slots_of_ne hj] at hr ⊢
          obtain ⟨hmem, hidx, hrun⟩ := h.owner j r hr
          exact ⟨List.mem_append_left _ hmem,
            (reserve_indexOf_old (indexOf_lt hidx)).trans hidx, hrun⟩
      reserved := fun j hodd => by
        by_cases hj : j = i
        · subst hj
          rw [reserve_slots_self]
          exact List.mem_append_right _ (List.mem_singleton.mpr rfl)
        · rw [reserve_slots_of_ne hj] at hodd ⊢
          exact List.mem_append_left _ (h.reserved j hodd)
      uncommitted := fun j hodd hnone => by
        by_cases hj : j = i
        · subst hj
          rw [reserve_slots_self]
          exact h.runners _ (Nat.le_refl _)
        · rw [reserve_slots_of_ne hj] at hodd hnone ⊢
          exact h.uncommitted j hodd hnone
      runners := fun n hn => h.runners n (by simp [reserve_reservations] at hn; omega)
      reservation := fun n r hr => by
        rcases reserve_getElem hr with hr | ⟨rfl, rfl⟩
        · obtain ⟨h1, h2, h3, h4⟩ := h.reservation n r hr
          refine ⟨h1, h2, ?_, ?_⟩
          · by_cases hj : r.index = i
            · rw [hj] at h3 ⊢
              rw [reserve_slots_self]
              exact Nat.le_succ_of_le h3
            · rwa [reserve_slots_of_ne hj]
          · by_cases hj : r.index = i
            · rw [hj, reserve_slots_self]
              exact Nat.le_of_lt (List.getElem?_eq_some_iff.mp hr).1
            · rwa [reserve_slots_of_ne hj]
        · rw [reserve_slots_self]
          exact ⟨Nat.le_add_left 1 _, hg', Nat.le_refl _, Nat.le_refl _⟩
      latest := fun j hj => by
        by_cases hji : j = i
        · subst hji
          rw [reserve_slots_self, reserve_reservations]
          exact ⟨_, List.getElem?_concat_length .., rfl, rfl⟩
        · rw [reserve_slots_of_ne hji] at hj ⊢
          obtain ⟨r, hr, hidx, hord⟩ := h.latest j hj
          exact ⟨r, reserve_getElem_old hr, hidx, hord⟩
      ordinal := fun n m r q hr hq hidx hnm => by
        rcases reserve_getElem hr with hr | ⟨rfl, rfl⟩ <;>
          rcases reserve_getElem hq with hq | ⟨rfl, rfl⟩
        · exact h.ordinal n m r q hr hq hidx hnm
        · have := (h.reservation n r hr).2.2.1
          rw [hidx] at this
          exact Nat.lt_succ_of_le this
        · have := (List.getElem?_eq_some_iff.mp hq).1
          omega
        · omega }

theorem Pending.reserve {n : Nat} (h : d.Pending n) (hok : d.Ok) (hclear : d.Clear i) :
    (d.reserve i g).Pending n where
  outstanding := List.mem_append_left _ h.outstanding
  runner := h.runner
  owner j hj := by
    rw [reserve_indexOf_old (hok.lt_of_outstanding h.outstanding)] at hj
    have hji : j ≠ i := fun hji => hclear.outstanding n h.outstanding (hji ▸ hj)
    rw [reserve_slots_of_ne hji]
    exact h.owner j hj

theorem Current.reserve {handle : Handle} (h : d.Current handle) (hclear : d.Clear i) :
    (d.reserve i g).Current handle := by
  have hne : handle.index ≠ i := fun heq =>
    hclear.outstanding _ h.outstanding (heq ▸ h.names.index)
  obtain ⟨r, hr, hhandle⟩ := h.names
  refine ⟨?_, ⟨r, ?_, hhandle⟩, ?_⟩ <;> rw [reserve_slots_of_ne hne]
  · exact List.mem_append_left _ h.outstanding
  · exact reserve_getElem_old hr
  · exact h.runner

theorem Ok.reserve_pending (h : d.Ok) (hclear : d.Clear i) :
    (d.reserve i g).Pending d.reservations.length where
  outstanding := List.mem_append_right _ (List.mem_singleton.mpr rfl)
  runner := h.runners _ (Nat.le_refl _)
  owner j hj := by
    rw [reserve_indexOf_new] at hj
    cases hj
    rw [reserve_slots_self]
    exact hclear.owner

end Reserve

/-! ### `commit` -/

section Commit

variable {n i : Nat} {runner : R}

theorem commit_slots_self :
    (d.commit n i runner).slots i = { d.slots i with owner := some runner } :=
  Function.update_self ..

theorem commit_slots_of_ne {j : Nat} (hj : j ≠ i) :
    (d.commit n i runner).slots j = d.slots j :=
  Function.update_of_ne hj ..

theorem commit_runners_of_ne {m : Nat} (hm : m ≠ n) :
    (d.commit n i runner).runners m = d.runners m :=
  Function.update_of_ne hm ..

theorem commit_latest (j : Nat) :
    ((d.commit n i runner).slots j).latest = (d.slots j).latest := by
  by_cases hj : j = i
  · rw [hj, commit_slots_self]
  · rw [commit_slots_of_ne hj]

theorem commit_reserves (j : Nat) :
    ((d.commit n i runner).slots j).reserves = (d.slots j).reserves := by
  by_cases hj : j = i
  · rw [hj, commit_slots_self]
  · rw [commit_slots_of_ne hj]

theorem commit_generation (j : Nat) :
    ((d.commit n i runner).slots j).generation = (d.slots j).generation := by
  by_cases hj : j = i
  · rw [hj, commit_slots_self]
  · rw [commit_slots_of_ne hj]

theorem commit_even {j : Nat} : ((d.commit n i runner).slots j).Even ↔ (d.slots j).Even := by
  rw [Slot.Even, Slot.Even, commit_generation, commit_reserves]

theorem commit_odd {j : Nat} : ((d.commit n i runner).slots j).Odd ↔ (d.slots j).Odd :=
  Slot.odd_congr (commit_generation j) (commit_reserves j)

theorem Clear.commit {j : Nat} (h : d.Clear j) (hn : n ∈ d.outstanding)
    (hi : d.indexOf n = some i) : (d.commit n i runner).Clear j := by
  have hji : j ≠ i := fun hji => h.outstanding n hn (hji ▸ hi)
  exact h.congr (commit_slots_of_ne hji) rfl rfl

theorem Current.commit {handle : Handle} (h : d.Current handle) (hi : d.indexOf n = some i)
    (hne : handle.index ≠ i) : (d.commit n i runner).Current handle := by
  have hlatest : (d.slots handle.index).latest ≠ n := fun heq => hne (by
    have hidx := h.names.index
    rw [heq, hi] at hidx
    exact (Option.some.inj hidx).symm)
  obtain ⟨r, hr, hhandle⟩ := h.names
  refine ⟨?_, ⟨r, ?_, hhandle⟩, ?_⟩ <;> rw [commit_slots_of_ne hne]
  · exact h.outstanding
  · exact hr
  · rw [commit_runners_of_ne hlatest]
    exact h.runner

theorem Pending.commit {m : Nat} (h : d.Pending m) (hok : d.Ok) (hn : n ∈ d.outstanding)
    (hi : d.indexOf n = some i) (hmn : m ≠ n) : (d.commit n i runner).Pending m where
  outstanding := h.outstanding
  runner := by rw [commit_runners_of_ne hmn, h.runner]
  owner j hj := by
    have hji : j ≠ i := by
      rintro rfl
      exact hmn ((hok.latest_of_outstanding h.outstanding hj).symm.trans
        (hok.latest_of_outstanding hn hi))
    rw [commit_slots_of_ne hji]
    exact h.owner j hj

theorem Taken.commit {j : Nat} (h : d.Taken j) (hok : d.Ok) (hn : d.Pending n)
    (hi : d.indexOf n = some i) : (d.commit n i runner).Taken j := by
  have hji : j ≠ i := by
    rintro rfl
    rw [← hok.latest_of_outstanding hn.outstanding hi] at hn
    exact h.runner hn.runner
  have hne : (d.slots j).latest ≠ n := fun heq => h.runner (heq ▸ hn.runner)
  refine ⟨?_, ?_, ?_, ?_, ?_⟩ <;> rw [commit_slots_of_ne hji]
  · exact h.outstanding
  · exact h.index
  · exact h.even
  · exact h.owner
  · rw [commit_runners_of_ne hne]
    exact h.runner

theorem Ok.commit (h : d.Ok) (hn : d.Pending n) (hi : d.indexOf n = some i) :
    (d.commit n i runner).Ok where
  phase j := by
    rw [commit_even, commit_odd]
    exact h.phase j
  nodup := h.nodup
  below := h.below
  free j hj := (h.free j hj).commit hn.outstanding hi
  unused j hj := (h.unused j hj).commit hn.outstanding hi
  outstanding m hm := by
    obtain ⟨j, hj, hlatest⟩ := h.outstanding m hm
    exact ⟨j, hj, by rw [commit_latest, hlatest]⟩
  distinct := h.distinct
  owner j r hr := by
    rw [commit_latest]
    by_cases hj : j = i
    · subst hj
      rw [commit_slots_self] at hr
      cases hr
      rw [h.latest_of_outstanding hn.outstanding hi]
      exact ⟨hn.outstanding, hi, Function.update_self ..⟩
    · rw [commit_slots_of_ne hj] at hr
      obtain ⟨hmem, hidx, hrun⟩ := h.owner j r hr
      have hne : (d.slots j).latest ≠ n := fun heq => by
        rw [heq, hn.runner] at hrun
        cases hrun
      exact ⟨hmem, hidx, (commit_runners_of_ne hne).trans hrun⟩
  reserved j hodd := by
    rw [commit_odd] at hodd
    rw [commit_latest]
    exact h.reserved j hodd
  uncommitted j hodd hnone := by
    rw [commit_odd] at hodd
    rw [commit_latest]
    by_cases hj : j = i
    · subst hj
      rw [commit_slots_self] at hnone
      cases hnone
    · rw [commit_slots_of_ne hj] at hnone
      have hne : (d.slots j).latest ≠ n := by
        rintro heq
        have hidx := h.indexOf_latest hodd.reserved
        rw [heq, hi] at hidx
        exact hj (Option.some.inj hidx).symm
      rw [commit_runners_of_ne hne]
      exact h.uncommitted j hodd hnone
  runners m hm := by
    have hne : m ≠ n := fun heq => absurd (h.lt_of_outstanding hn.outstanding)
      (Nat.not_lt.mpr (heq ▸ hm))
    rw [commit_runners_of_ne hne]
    exact h.runners m hm
  reservation m r hr := by
    rw [commit_reserves, commit_latest]
    exact h.reservation m r hr
  latest j hj := by
    rw [commit_reserves] at hj ⊢
    rw [commit_latest]
    exact h.latest j hj
  ordinal := h.ordinal

end Commit

/-! ### `remove` -/

section Retire

variable {handle : Handle}

theorem retire_slots_self : (d.retire handle).slots handle.index =
    { d.slots handle.index with generation := wrappingSucc handle.generation } :=
  Function.update_self ..

theorem retire_slots_of_ne {j : Nat} (hj : j ≠ handle.index) :
    (d.retire handle).slots j = d.slots j :=
  Function.update_of_ne hj ..

theorem retire_owner (j : Nat) : ((d.retire handle).slots j).owner = (d.slots j).owner := by
  by_cases hj : j = handle.index
  · rw [hj, retire_slots_self]
  · rw [retire_slots_of_ne hj]

theorem retire_latest (j : Nat) : ((d.retire handle).slots j).latest = (d.slots j).latest := by
  by_cases hj : j = handle.index
  · rw [hj, retire_slots_self]
  · rw [retire_slots_of_ne hj]

theorem retire_reserves (j : Nat) :
    ((d.retire handle).slots j).reserves = (d.slots j).reserves := by
  by_cases hj : j = handle.index
  · rw [hj, retire_slots_self]
  · rw [retire_slots_of_ne hj]

theorem retire_even (hodd : (d.slots handle.index).Odd)
    (hg : (d.slots handle.index).generation = handle.generation) :
    ((d.retire handle).slots handle.index).Even := by
  rw [retire_slots_self, Slot.Even, ← hg, hodd.generation, wrappingSucc_odd hodd.reserved]

theorem Clear.retire {j : Nat} (h : d.Clear j) (hodd : (d.slots handle.index).Odd) :
    (d.retire handle).Clear j := by
  have hj : j ≠ handle.index := fun hj => hodd.not_even (hj ▸ h.even)
  exact h.congr (retire_slots_of_ne hj) rfl rfl

theorem Pending.retire {n : Nat} (h : d.Pending n) : (d.retire handle).Pending n :=
  ⟨h.outstanding, h.runner, fun i hi => (retire_owner i).trans (h.owner i hi)⟩

theorem Current.retire {other : Handle} (h : d.Current other) :
    (d.retire handle).Current other := by
  obtain ⟨r, hr, hhandle⟩ := h.names
  refine ⟨?_, ⟨r, ?_, hhandle⟩, ?_⟩ <;> rw [retire_latest]
  · exact h.outstanding
  · exact hr
  · rw [retire_owner]
    exact h.runner

theorem Ok.retire (h : d.Ok) (hodd : (d.slots handle.index).Odd)
    (hg : (d.slots handle.index).generation = handle.generation) : (d.retire handle).Ok where
  phase j := by
    by_cases hj : j = handle.index
    · exact .inl (hj ▸ retire_even hodd hg)
    · rw [retire_slots_of_ne hj]
      exact h.phase j
  nodup := h.nodup
  below := h.below
  free j hj := (h.free j hj).retire hodd
  unused j hj := (h.unused j hj).retire hodd
  outstanding n hn := by
    obtain ⟨j, hj, hlatest⟩ := h.outstanding n hn
    exact ⟨j, hj, (retire_latest j).trans hlatest⟩
  distinct := h.distinct
  owner j r hr := by
    rw [retire_owner] at hr
    rw [retire_latest]
    exact h.owner j r hr
  reserved j hodd' := by
    by_cases hj : j = handle.index
    · exact absurd (hj ▸ retire_even hodd hg) hodd'.not_even
    · rw [retire_slots_of_ne hj] at hodd' ⊢
      exact h.reserved j hodd'
  uncommitted j hodd' hnone := by
    by_cases hj : j = handle.index
    · exact absurd (hj ▸ retire_even hodd hg) hodd'.not_even
    · rw [retire_slots_of_ne hj] at hodd' hnone ⊢
      exact h.uncommitted j hodd' hnone
  runners := h.runners
  reservation n r hr := by
    rw [retire_reserves, retire_latest]
    exact h.reservation n r hr
  latest j hj := by
    rw [retire_reserves] at hj ⊢
    rw [retire_latest]
    exact h.latest j hj
  ordinal := h.ordinal

end Retire

section TakeOwner

variable {i : Nat}

theorem takeOwner_slots_self : (d.takeOwner i).slots i = { d.slots i with owner := none } :=
  Function.update_self ..

theorem takeOwner_slots_of_ne {j : Nat} (hj : j ≠ i) : (d.takeOwner i).slots j = d.slots j :=
  Function.update_of_ne hj ..

theorem takeOwner_latest (j : Nat) : ((d.takeOwner i).slots j).latest = (d.slots j).latest := by
  by_cases hj : j = i
  · rw [hj, takeOwner_slots_self]
  · rw [takeOwner_slots_of_ne hj]

theorem takeOwner_reserves (j : Nat) :
    ((d.takeOwner i).slots j).reserves = (d.slots j).reserves := by
  by_cases hj : j = i
  · rw [hj, takeOwner_slots_self]
  · rw [takeOwner_slots_of_ne hj]

theorem takeOwner_generation (j : Nat) :
    ((d.takeOwner i).slots j).generation = (d.slots j).generation := by
  by_cases hj : j = i
  · rw [hj, takeOwner_slots_self]
  · rw [takeOwner_slots_of_ne hj]

theorem takeOwner_even {j : Nat} : ((d.takeOwner i).slots j).Even ↔ (d.slots j).Even := by
  rw [Slot.Even, Slot.Even, takeOwner_generation, takeOwner_reserves]

theorem takeOwner_odd {j : Nat} : ((d.takeOwner i).slots j).Odd ↔ (d.slots j).Odd :=
  Slot.odd_congr (takeOwner_generation j) (takeOwner_reserves j)

theorem takeOwner_owner {j : Nat} (h : (d.slots j).owner = none) :
    ((d.takeOwner i).slots j).owner = none := by
  by_cases hj : j = i
  · rw [hj, takeOwner_slots_self]
  · rw [takeOwner_slots_of_ne hj, h]

theorem Clear.takeOwner {j : Nat} (h : d.Clear j) : (d.takeOwner i).Clear j :=
  ⟨takeOwner_even.mpr h.even, takeOwner_owner h.owner, h.outstanding⟩

theorem Pending.takeOwner {n : Nat} (h : d.Pending n) : (d.takeOwner i).Pending n :=
  ⟨h.outstanding, h.runner, fun j hj => takeOwner_owner (h.owner j hj)⟩

theorem Current.takeOwner {handle : Handle} (h : d.Current handle) (hne : handle.index ≠ i) :
    (d.takeOwner i).Current handle := by
  obtain ⟨r, hr, hhandle⟩ := h.names
  refine ⟨?_, ⟨r, ?_, hhandle⟩, ?_⟩ <;> rw [takeOwner_slots_of_ne hne]
  · exact h.outstanding
  · exact hr
  · exact h.runner

/-- What `remove` finds at a slot that had an owner. -/
theorem Ok.takeOwner_taken (h : d.Ok) (heven : (d.slots i).Even) {r : R}
    (hr : (d.slots i).owner = some r) : (d.takeOwner i).Taken i := by
  obtain ⟨hmem, hidx, hrun⟩ := h.owner i r hr
  refine ⟨?_, ?_, takeOwner_even.mpr heven, ?_, ?_⟩
  · rw [takeOwner_latest]
    exact hmem
  · rw [takeOwner_latest]
    exact hidx
  · rw [takeOwner_slots_self]
  · rw [takeOwner_latest]
    exact fun hnone => by cases hrun.symm.trans hnone

theorem Ok.takeOwner (h : d.Ok) (heven : (d.slots i).Even) : (d.takeOwner i).Ok where
  phase j := by
    rw [takeOwner_even, takeOwner_odd]
    exact h.phase j
  nodup := h.nodup
  below := h.below
  free j hj := (h.free j hj).takeOwner
  unused j hj := (h.unused j hj).takeOwner
  outstanding n hn := by
    obtain ⟨j, hj, hlatest⟩ := h.outstanding n hn
    exact ⟨j, hj, (takeOwner_latest j).trans hlatest⟩
  distinct := h.distinct
  owner j r hr := by
    rw [takeOwner_latest]
    by_cases hj : j = i
    · subst hj
      rw [takeOwner_slots_self] at hr
      cases hr
    · rw [takeOwner_slots_of_ne hj] at hr
      exact h.owner j r hr
  reserved j hodd := by
    rw [takeOwner_odd] at hodd
    rw [takeOwner_latest]
    exact h.reserved j hodd
  uncommitted j hodd hnone := by
    rw [takeOwner_odd] at hodd
    have hj : j ≠ i := fun hj => hodd.not_even (hj ▸ heven)
    rw [takeOwner_slots_of_ne hj] at hnone ⊢
    exact h.uncommitted j hodd hnone
  runners := h.runners
  reservation n r hr := by
    rw [takeOwner_reserves, takeOwner_latest]
    exact h.reservation n r hr
  latest j hj := by
    rw [takeOwner_reserves] at hj ⊢
    rw [takeOwner_latest]
    exact h.latest j hj
  ordinal := h.ordinal

end TakeOwner

section GiveBack

variable {i : Nat}

theorem Ok.mem_giveBack (h : d.Ok) {n : Nat} :
    n ∈ (d.giveBack i).outstanding ↔ n ≠ (d.slots i).latest ∧ n ∈ d.outstanding :=
  h.distinct.mem_erase_iff

theorem Clear.giveBack {j : Nat} (h : d.Clear j) : (d.giveBack i).Clear j :=
  ⟨h.even, h.owner, fun n hn => h.outstanding n (List.mem_of_mem_erase hn)⟩

theorem Pending.giveBack {n : Nat} (h : d.Pending n) (hok : d.Ok) (htaken : d.Taken i) :
    (d.giveBack i).Pending n :=
  ⟨hok.mem_giveBack.mpr ⟨fun heq => htaken.runner (heq ▸ h.runner), h.outstanding⟩, h.runner,
    h.owner⟩

/-- The latest reservation of another slot is another one. -/
theorem Taken.latest_ne {j : Nat} (htaken : d.Taken i)
    (hidx : d.indexOf (d.slots j).latest = some j) (hji : j ≠ i) :
    (d.slots j).latest ≠ (d.slots i).latest := by
  intro heq
  rw [heq, htaken.index] at hidx
  exact hji (Option.some.inj hidx).symm

theorem Current.giveBack {handle : Handle} (h : d.Current handle) (hok : d.Ok)
    (htaken : d.Taken i) : (d.giveBack i).Current handle := by
  have hne : handle.index ≠ i := fun heq => by
    have hrunner := htaken.runner
    rw [← heq] at hrunner
    exact hrunner (h.runner (heq ▸ htaken.owner))
  exact ⟨hok.mem_giveBack.mpr ⟨htaken.latest_ne h.names.index hne, h.outstanding⟩, h.names,
    h.runner⟩

theorem Ok.giveBack (h : d.Ok) (htaken : d.Taken i) : (d.giveBack i).Ok where
  phase := h.phase
  nodup := by
    refine List.nodup_cons.mpr ⟨fun hmem => ?_, h.nodup⟩
    exact (h.free i hmem).outstanding _ htaken.outstanding htaken.index
  below j hj := by
    rcases List.mem_cons.mp hj with rfl | hj
    · refine Nat.lt_of_not_le fun hle => ?_
      exact (h.unused j hle).outstanding _ htaken.outstanding htaken.index
    · exact h.below j hj
  free j hj := by
    rcases List.mem_cons.mp hj with rfl | hj
    · refine ⟨htaken.even, htaken.owner, fun n hn hidx => ?_⟩
      obtain ⟨hne, hn⟩ := h.mem_giveBack.mp hn
      exact hne (h.latest_of_outstanding hn hidx).symm
    · exact (h.free j hj).giveBack
  unused j hj := (h.unused j hj).giveBack
  outstanding n hn := h.outstanding n (List.mem_of_mem_erase hn)
  distinct := h.distinct.erase _
  owner j r hr := by
    obtain ⟨hmem, hidx, hrun⟩ := h.owner j r hr
    have hji : j ≠ i := by
      rintro rfl
      cases htaken.owner.symm.trans hr
    exact ⟨h.mem_giveBack.mpr ⟨htaken.latest_ne hidx hji, hmem⟩, hidx, hrun⟩
  reserved j hodd := by
    have hji : j ≠ i := fun hji => hodd.not_even (hji ▸ htaken.even)
    exact h.mem_giveBack.mpr
      ⟨htaken.latest_ne (h.indexOf_latest hodd.reserved) hji, h.reserved j hodd⟩
  uncommitted := h.uncommitted
  runners := h.runners
  reservation := h.reservation
  latest := h.latest
  ordinal := h.ordinal

end GiveBack

end Data

end DignusActor.Registry
