import DignusActor.Stream.Cutter

/-! # Encoders of a cutter

An encoder writes items that the cutter takes off again, whatever follows them. Of a stream that was
written so and has arrived in part, the cutter takes off the items that are there in full and keeps
a part of the next one (`Encodes.all_of_part`). -/

universe u v

namespace Cutter

variable {α : Type u} {β : Type v} {c : Cutter α β} {encode : β → List α} {Accepts : β → Prop}
  {s : List α} {b : β} {bs : List β}

/-- The cutter takes off what the encoder has written, if it accepts the item. -/
def Encodes (c : Cutter α β) (encode : β → List α) (Accepts : β → Prop) : Prop :=
  ∀ b, Accepts b → ∀ t, c.cut (encode b ++ t) = some (b, t)

/-- What has arrived of these items ends before the first of them does. -/
def Unfinished (encode : β → List α) : List β → List α → Prop
  | [], s => s = []
  | b :: _, s => s <+: encode b ∧ s ≠ encode b

theorem Encodes.cut_eq_none (h : c.Encodes encode Accepts) (hb : Accepts b)
    (hs : s <+: encode b) (hne : s ≠ encode b) : c.cut s = none := by
  cases hcut : c.cut s with
  | none => rfl
  | some x =>
    -- the item would be cut from all of its encoding too, and leave something
    obtain ⟨t, ht⟩ := hs
    have hlong := c.stable t hcut
    have hall := h b hb []
    rw [List.append_nil, ← ht, hlong, Option.some.injEq, Prod.mk.injEq] at hall
    obtain rfl := (List.append_eq_nil_iff.mp hall.2).2
    exact absurd ((List.append_nil s).symm.trans ht) hne

theorem cut_nil (c : Cutter α β) : c.cut [] = none := by
  cases hcut : c.cut [] with
  | none => rfl
  | some x => exact absurd (c.shrinks hcut) (Nat.not_lt_zero _)

/-- **A stream that has arrived in part.** The induction is on the items that were written. -/
theorem Encodes.all_of_part (h : c.Encodes encode Accepts) (hbs : ∀ b ∈ bs, Accepts b)
    (hs : s <+: (bs.map encode).flatten) :
    ∃ rest, bs = (c.all s).1 ++ rest ∧
      s = ((c.all s).1.map encode).flatten ++ (c.all s).2 ∧
      Unfinished encode rest (c.all s).2 := by
  induction bs generalizing s with
  | nil =>
    obtain rfl := List.prefix_nil.mp hs
    rw [all_of_none c.cut_nil]
    exact ⟨[], rfl, rfl, rfl⟩
  | cons b bs ih =>
    have hb := hbs b List.mem_cons_self
    rw [List.map_cons, List.flatten_cons] at hs
    by_cases hfull : encode b <+: s
    · obtain ⟨t, rfl⟩ := hfull
      obtain ⟨rest, hrest, ht, hun⟩ := ih (fun b hb => hbs b (List.mem_cons_of_mem _ hb))
        ((List.prefix_append_right_inj _).mp hs)
      rw [all_of_some (h b hb t)]
      refine ⟨rest, congrArg (b :: ·) hrest, ?_, hun⟩
      rw [List.map_cons, List.flatten_cons, List.append_assoc, ← ht]
    · have hpart : s <+: encode b :=
        (List.prefix_or_prefix_of_prefix hs (List.prefix_append _ _)).resolve_right hfull
      have hne : s ≠ encode b := fun e => hfull (e ▸ List.prefix_refl _)
      rw [all_of_none (h.cut_eq_none hb hpart hne)]
      exact ⟨b :: bs, rfl, rfl, hpart, hne⟩

/-- What is unfinished of items whose encodings it has in full is no item. -/
theorem Unfinished.eq_nil (h : Unfinished encode bs s) (hs : (bs.map encode).flatten <+: s) :
    bs = [] := by
  cases bs with
  | nil => rfl
  | cons b bs =>
    obtain ⟨hpre, hne⟩ := h
    rw [List.map_cons, List.flatten_cons] at hs
    have hle := ((List.prefix_append _ _).trans hs).length_le
    exact absurd (hpre.eq_of_length_le hle) hne

end Cutter
