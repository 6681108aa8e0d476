import Mathlib

/-! # Memory behind store buffers

Threads `T` write a memory of states `σ` through buffers of stores `τ`: a store enters the buffer of
its thread and reaches the memory at any later step, in the order of the thread's stores. A thread
reads the memory as it is with its own stores in flight applied to it (`view`). An operation that
drains the buffer first is one that is taken with an empty buffer, where the view is the memory
(`view_of_nil`). -/

universe u v w

structure StoreBuffer (T : Type u) (σ : Type v) (τ : Type w) where
  memory : σ
  buffers : T → List τ

namespace StoreBuffer

variable {T : Type u} {σ : Type v} {τ : Type w} {apply : σ → τ → σ} {b b' : StoreBuffer T σ τ}
  {t t' : T} {x : τ}

/-- What thread `t` reads. -/
def view (apply : σ → τ → σ) (b : StoreBuffer T σ τ) (t : T) : σ :=
  (b.buffers t).foldl apply b.memory

theorem view_of_nil (h : b.buffers t = []) : b.view apply t = b.memory := by
  rw [view, h]
  rfl

variable [DecidableEq T]

def store (b : StoreBuffer T σ τ) (t : T) (x : τ) : StoreBuffer T σ τ :=
  { b with buffers := Function.update b.buffers t (b.buffers t ++ [x]) }

/-- The oldest store of `t` reaches the memory. -/
def flush (apply : σ → τ → σ) (b : StoreBuffer T σ τ) (t : T) : Option (StoreBuffer T σ τ) :=
  match b.buffers t with
  | [] => none
  | x :: rest => some ⟨apply b.memory x, Function.update b.buffers t rest⟩

theorem buffers_store_self : (b.store t x).buffers t = b.buffers t ++ [x] :=
  Function.update_self ..

theorem buffers_store_of_ne (h : t' ≠ t) : (b.store t x).buffers t' = b.buffers t' :=
  Function.update_of_ne h ..

theorem view_store_self : (b.store t x).view apply t = apply (b.view apply t) x := by
  rw [view, buffers_store_self, List.foldl_append]
  rfl

theorem view_store_of_ne (h : t' ≠ t) : (b.store t x).view apply t' = b.view apply t' := by
  rw [view, buffers_store_of_ne h]
  rfl

theorem flush_eq_some (h : b.flush apply t = some b') : ∃ x rest, b.buffers t = x :: rest ∧
    b' = ⟨apply b.memory x, Function.update b.buffers t rest⟩ := by
  unfold flush at h
  split at h
  · cases h
  · rename_i x rest hbuffer
    cases h
    exact ⟨x, rest, hbuffer, rfl⟩

end StoreBuffer
