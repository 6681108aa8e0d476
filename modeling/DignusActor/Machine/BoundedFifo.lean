import DignusActor.Machine.Transition

/-! # The bounded first-in first-out buffer

The abstract buffer that a bounded queue implements: `put` is enabled while there is room, `take`
hands out the items in the order they were put. -/

universe u

/-- The items inside a buffer, and the items taken out of it so far. -/
structure BoundedFifo (M : Type u) where
  content : List M
  taken : List M

namespace BoundedFifo

variable {M : Type u}

inductive Action (M : Type u)
  | put (item : M)
  | take

def step (room : Nat) (b : BoundedFifo M) : Action M → Option (BoundedFifo M)
  | .put item =>
    if b.content.length < room then some { b with content := b.content ++ [item] } else none
  | .take =>
    match b.content with
    | [] => none
    | item :: rest => some ⟨rest, b.taken ++ [item]⟩

def machine (M : Type u) (room : Nat) : Machine (BoundedFifo M) (Action M) where
  Init b := b = ⟨[], []⟩
  step := step room

/-- A buffer given by what was put into it and how much of that was taken. -/
def ofPut (items : List M) (n : Nat) : BoundedFifo M := ⟨items.drop n, items.take n⟩

theorem step_put_ofPut {room n : Nat} {items : List M} (item : M) (hn : n ≤ items.length)
    (hroom : items.length < n + room) :
    step room (ofPut items n) (.put item) = some (ofPut (items ++ [item]) n) := by
  have hlen : (ofPut items n).content.length < room := by
    rw [ofPut, List.length_drop]
    omega
  rw [step, if_pos hlen, ofPut, ofPut, List.drop_append_of_le_length hn,
    List.take_append_of_le_length hn]

theorem step_take_ofPut (room : Nat) {n : Nat} {items : List M} (hn : n < items.length) :
    step room (ofPut items n) .take = some (ofPut items (n + 1)) := by
  simp only [step, ofPut, List.drop_eq_getElem_cons hn, List.take_append_getElem hn]

end BoundedFifo
