import Mathlib

/-! # Cutting a stream into items

A cutter takes one item off the front of a buffer, or waits for more input. What makes it usable on
a stream that arrives in pieces is `stable`: an item that was cut from a buffer is cut from every
extension of the buffer too. `Cutter.all` cuts as long as it can; `all_append` says that it may stop
anywhere and go on with what is left. -/

universe u v

/-- A partial function that takes an item off the front of a buffer. -/
structure Cutter (α : Type u) (β : Type v) where
  cut : List α → Option (β × List α)
  shrinks : ∀ {s b r}, cut s = some (b, r) → r.length < s.length
  stable : ∀ {s b r} (t : List α), cut s = some (b, r) → cut (s ++ t) = some (b, r ++ t)

namespace Cutter

variable {α : Type u} {β : Type v} (c : Cutter α β)

/-- Cut at most `fuel` items. -/
def upTo : Nat → List α → List β × List α
  | 0, s => ([], s)
  | fuel + 1, s =>
    match c.cut s with
    | none => ([], s)
    | some (b, r) => (b :: (upTo fuel r).1, (upTo fuel r).2)

/-- The items of a buffer and what is left of it. Each item has at least one letter. -/
def all (s : List α) : List β × List α := c.upTo s.length s

variable {c} {s r : List α} {b : β}

theorem upTo_of_le {fuel fuel' : Nat} (h : s.length ≤ fuel) (h' : s.length ≤ fuel') :
    c.upTo fuel s = c.upTo fuel' s := by
  induction fuel generalizing fuel' s with
  | zero =>
    obtain rfl := List.length_eq_zero_iff.mp (Nat.le_zero.mp h)
    cases fuel' with
    | zero => rfl
    | succ fuel' =>
      have hnone : c.cut [] = none := by
        cases hc : c.cut [] with
        | none => rfl
        | some x => exact absurd (c.shrinks hc) (Nat.not_lt_zero _)
      simp [upTo, hnone]
  | succ fuel ih =>
    cases hc : c.cut s with
    | none => cases fuel' <;> simp [upTo, hc]
    | some x =>
      have hlt := c.shrinks hc
      obtain ⟨fuel', rfl⟩ : ∃ k, fuel' = k + 1 := ⟨fuel' - 1, by omega⟩
      simp only [upTo, hc]
      rw [ih (s := x.2) (by omega) (by omega : x.2.length ≤ fuel')]

theorem all_of_none (h : c.cut s = none) : c.all s = ([], s) := by
  cases hs : s.length <;> simp [all, hs, upTo, h]

theorem all_of_some (h : c.cut s = some (b, r)) : c.all s = (b :: (c.all r).1, (c.all r).2) := by
  have hlt := c.shrinks h
  obtain ⟨n, hn⟩ : ∃ n, s.length = n + 1 := ⟨s.length - 1, by omega⟩
  simp only [all, hn, upTo, h]
  rw [upTo_of_le (s := r) (by omega) (Nat.le_refl _)]

/-- Induction along the cuts of a buffer. -/
theorem rec_cut {motive : List α → Prop} (none : ∀ s, c.cut s = none → motive s)
    (some : ∀ s b r, c.cut s = some (b, r) → motive r → motive s) (s : List α) : motive s := by
  induction hn : s.length using Nat.strongRecOn generalizing s with
  | ind n ih =>
    cases hc : c.cut s with
    | none => exact none s hc
    | some x => exact some s x.1 x.2 hc (ih x.2.length (hn ▸ c.shrinks hc) x.2 rfl)

/-- What is left has no item at its front. -/
theorem cut_rest (s : List α) : c.cut (c.all s).2 = none := by
  induction s using c.rec_cut with
  | none s h =>
    rw [all_of_none h]
    exact h
  | some s b r h ih =>
    rw [all_of_some h]
    exact ih

/-- Cutting can stop anywhere and go on with what is left and what comes. -/
theorem all_append (s t : List α) :
    c.all (s ++ t) =
      ((c.all s).1 ++ (c.all ((c.all s).2 ++ t)).1, (c.all ((c.all s).2 ++ t)).2) := by
  induction s using c.rec_cut with
  | none s h => rw [all_of_none h, List.nil_append]
  | some s b r h ih =>
    rw [all_of_some h, all_of_some (c.stable t h), ih, List.cons_append]

end Cutter
