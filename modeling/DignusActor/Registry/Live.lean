import DignusActor.Registry.Threads

/-! # The live counter

`alloc.live` is the number of outstanding reservations, up to the one that the holder of the `alloc`
mutex has made and not yet counted (`Counted`). -/

namespace DignusActor.Registry

open Machine (Reach)

variable {T R : Type}

/-- What a step does to `alloc.live` and to the outstanding reservations. -/
inductive CountMove (m : Mem T R) (pc : Pc R) (m' : Mem T R) (pc' : Pc R) : Prop
  | same : m'.live = m.live → m'.data.outstanding = m.data.outstanding →
    (∀ n, pc ≠ .reserveLive n) → (∀ n, pc' ≠ .reserveLive n) → CountMove m pc m' pc'
  | reserve (i g : Nat) : pc = .reserveStore i g → pc' = .reserveLive m.data.reservations.length →
    m' = { m with data := m.data.reserve i g } → CountMove m pc m' pc'
  | count (n : Nat) : pc = .reserveLive n → pc' = .reserveUnlock n →
    m' = { m with live := m.live + 1 } → CountMove m pc m' pc'
  | giveBack (handle : Handle) (runner : R) : pc = .removeFree handle (some runner) →
    pc' = .removeUnlock handle (some runner) → m' = m.giveBack handle.index (some runner) →
    CountMove m pc m' pc'

section

variable {m m' : Mem T R} {t : T} {pc pc' : Pc R} {poisons : Bool}

theorem callStep_count (h : callStep poisons t m pc = some (m', pc')) :
    CountMove m pc m' pc' := by
  cases callStep_move h with
  | reserveStore i g => exact .reserve i g rfl rfl rfl
  | reserveLive n => exact .count n rfl rfl rfl
  | giveBack handle runner => exact .giveBack handle runner rfl rfl rfl
  | removeUnlock handle removed => cases removed <;> exact .same rfl rfl nofun nofun
  | _ => exact .same rfl rfl nofun nofun

end

/-- `alloc.live` counts the outstanding reservations, less the one that is being counted. -/
structure Counted (s : State T R) : Prop where
  counting : ∀ t n, s.pcs t = .reserveLive n → s.mem.live + 1 = s.mem.data.outstanding.length
  exact : (∀ t n, s.pcs t ≠ .reserveLive n) → s.mem.live = s.mem.data.outstanding.length

section

variable {s : State T R} {t : T} {m : Mem T R} {pc : Pc R} {poisons : Bool}

/-- Nobody else is being counted while thread `t` holds the mutex. -/
theorem Inv.ne_reserveLive (hinv : Inv s) (hin : (s.pcs t).inAlloc = true) {u : T} (hut : u ≠ t)
    (n : Nat) : s.pcs u ≠ .reserveLive n := by
  intro hpc
  have hfree := hinv.not_inAlloc ((hinv.thread t).alloc hin) hut
  rw [hpc] at hfree
  cases hfree

theorem Counted.exact_of_inAlloc (hc : Counted s) (hinv : Inv s) (hin : (s.pcs t).inAlloc = true)
    (hne : ∀ n, s.pcs t ≠ .reserveLive n) : s.mem.live = s.mem.data.outstanding.length := by
  refine hc.exact fun u n => ?_
  by_cases hut : u = t
  · exact hut ▸ hne n
  · exact hinv.ne_reserveLive hin hut n

theorem Counted.update [DecidableEq T] (hc : Counted s) (hinv : Inv s)
    (hmove : CountMove s.mem (s.pcs t) m pc) :
    Counted { s with mem := m, pcs := Function.update s.pcs t pc } := by
  have hothers (hin : (s.pcs t).inAlloc = true) (hne : ∀ n, pc ≠ .reserveLive n) (u : T) (n : Nat) :
      Function.update s.pcs t pc u ≠ .reserveLive n := by
    by_cases hut : u = t
    · subst hut
      rw [Function.update_self]
      exact hne n
    · rw [Function.update_of_ne hut]
      exact hinv.ne_reserveLive hin hut n
  cases hmove with
  | same hlive houtstanding hne hne' =>
    have hiff (u : T) (n : Nat) :
        Function.update s.pcs t pc u = .reserveLive n ↔ s.pcs u = .reserveLive n := by
      by_cases hut : u = t
      · subst hut
        rw [Function.update_self]
        exact ⟨fun h => absurd h (hne' n), fun h => absurd h (hne n)⟩
      · rw [Function.update_of_ne hut]
    refine ⟨fun u n hu => ?_, fun h => ?_⟩ <;> rw [hlive, houtstanding]
    · exact hc.counting u n ((hiff u n).mp hu)
    · exact hc.exact fun u n hu => h u n ((hiff u n).mpr hu)
  | reserve i g hpc hpc' hm =>
    have hexact := hc.exact_of_inAlloc (t := t) hinv (by rw [hpc]; rfl) (by simp [hpc])
    refine ⟨fun u n _ => ?_, fun h => ?_⟩
    · rw [hm]
      simp [Data.reserve_outstanding, hexact]
    · exact absurd hpc' (by simpa using h t s.mem.data.reservations.length)
  | count n hpc hpc' hm =>
    have hin : (s.pcs t).inAlloc = true := by rw [hpc]; rfl
    refine ⟨fun u k hu => ?_, fun _ => ?_⟩
    · exact absurd hu (hothers hin (by simp [hpc']) u k)
    · rw [hm]
      exact hc.counting t n hpc
  | giveBack handle runner hpc hpc' hm =>
    have hin : (s.pcs t).inAlloc = true := by rw [hpc]; rfl
    have hexact := hc.exact_of_inAlloc hinv hin (by simp [hpc])
    have htaken := (hinv.thread t).taken handle.index (by rw [hpc]; rfl)
    refine ⟨fun u k hu => ?_, fun _ => ?_⟩
    · exact absurd hu (hothers hin (by simp [hpc']) u k)
    · rw [hm]
      simp only [Mem.giveBack, Data.giveBack, List.length_erase_of_mem htaken.outstanding, hexact]

theorem Counted.step [DecidableEq T] {s' : State T R} {a : Action T R} (hc : Counted s)
    (hinv : Inv s) (h : step poisons s a = some s') : Counted s' := by
  have hquiet {t : T} {pc : Pc R} (hne : ∀ n, s.pcs t ≠ .reserveLive n)
      (hne' : ∀ n, pc ≠ .reserveLive n) : Counted (s.setPc t pc) :=
    hc.update hinv (.same rfl rfl hne hne')
  have hbegin {t : T} {pc : Pc R} (h : s.begin t pc = some s') (hne' : ∀ n, pc ≠ .reserveLive n) :
      Counted s' := by
    unfold State.begin at h
    split at h <;> cases h
    rename_i hrest
    refine hquiet (fun n hpc => ?_) hne'
    rw [hpc] at hrest
    cases hrest
  cases a with
  | reserve | lookup | snapshotLive | liveCount => exact hbegin h (by simp)
  | commit t runner | abandon t =>
    simp only [Registry.step] at h
    split at h <;> cases h
    rename_i hpc
    exact hquiet (by simp [hpc]) (by simp)
  | remove t n =>
    simp only [Registry.step, Option.bind_eq_some_iff] at h
    obtain ⟨r, -, h⟩ := h
    exact hbegin h (by simp)
  | call t =>
    simp only [Registry.step, Option.map_eq_some_iff] at h
    obtain ⟨⟨m, pc⟩, h, rfl⟩ := h
    exact hc.update hinv (callStep_count h)

theorem step_countUnlock [DecidableEq T] {s' : State T R} {live : Nat}
    (h : step poisons s (.call t) = some s') (ht : s'.pcs t = .countUnlock live) :
    s.pcs t = .countRead ∧ s.mem.live = live := by
  cases step_move h with
  | call _ hcall =>
    simp only [Function.update_self] at ht
    subst ht
    generalize s.pcs t = pc at hcall
    cases hcall
    exact ⟨rfl, rfl⟩

theorem step_counted [DecidableEq T] {s' : State T R} {live : Nat}
    (h : step poisons s (.call t) = some s') (ht : s'.pcs t = .counted live) :
    s.pcs t = .countUnlock live := by
  cases step_move h with
  | call _ hcall =>
    simp only [Function.update_self] at ht
    subst ht
    generalize s.pcs t = pc at hcall
    cases hcall
    rfl

theorem counted_of_reach [DecidableEq T] {capacity : Nat} {ok : State T R → Action T R → Prop}
    (h : Reach (machine T R poisons capacity) ok s) : Counted s := by
  refine h.inv_of Inv Counted inv_of_reach ?_ fun hinv hc _ hs => hc.step hinv hs
  rintro _ rfl
  exact ⟨fun _ _ => nofun, fun _ => rfl⟩

end

end DignusActor.Registry
