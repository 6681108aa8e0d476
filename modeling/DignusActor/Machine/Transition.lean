import Mathlib

/-! # Transition machines with executable steps

A machine has a predicate of initial states and a partial step function on labelled actions, so a
list of actions can be run (`run`) and a concrete run is a witness of reachability
(`Reach.get`). `Reach ok` is reachability along steps that all meet a condition `ok` on the state
before the step and the action; plain reachability is `Reach` at the trivial condition.

Every safety theorem goes through `Reach.inv`, or through `Reach.inv_of` when an invariant is known
already. `Reach.map` projects the runs of a machine to the runs of one of its components. -/

universe u v w x

/-- A labelled transition machine: which states are initial, and what an action does, if it is
enabled. -/
structure Machine (σ : Type u) (α : Type v) where
  Init : σ → Prop
  step : σ → α → Option σ

namespace Machine

variable {σ : Type u} {α : Type v}

/-- The states reached from an initial state by steps that all meet `ok`. -/
inductive Reach (m : Machine σ α) (ok : σ → α → Prop) : σ → Prop
  | init {s : σ} : m.Init s → Reach m ok s
  | step {s t : σ} {a : α} : Reach m ok s → ok s a → m.step s a = some t → Reach m ok t

/-- The condition met by every step. -/
def free (_ : σ) (_ : α) : Prop := True

variable {m : Machine σ α} {ok ok' : σ → α → Prop} {s t : σ}

/-- **The invariant rule.** -/
theorem Reach.inv (h : Reach m ok s) (Inv : σ → Prop) (init : ∀ {s}, m.Init s → Inv s)
    (step : ∀ {s a t}, Inv s → ok s a → m.step s a = some t → Inv t) : Inv s := by
  induction h with
  | init h => exact init h
  | step _ hok hs ih => exact step ih hok hs

/-- The invariant rule relative to an invariant that is known already. -/
theorem Reach.inv_of (h : Reach m ok s) (Known Inv : σ → Prop)
    (known : ∀ {s}, Reach m ok s → Known s) (init : ∀ {s}, m.Init s → Inv s)
    (step : ∀ {s a t}, Known s → Inv s → ok s a → m.step s a = some t → Inv t) : Inv s := by
  induction h with
  | init h => exact init h
  | step hr hok hs ih => exact step (known hr) ih hok hs

theorem Reach.mono (h : Reach m ok s) (hle : ∀ s a, ok s a → ok' s a) : Reach m ok' s := by
  induction h with
  | init h => exact .init h
  | step _ hok hs ih => exact .step ih (hle _ _ hok) hs

/-- A map that sends each step to a step of `n`, or to no change, sends runs to runs. -/
theorem Reach.map {τ : Type w} {β : Type x} {n : Machine τ β} {ok' : τ → β → Prop} (f : σ → τ)
    (h : Reach m ok s) (init : ∀ {s}, m.Init s → n.Init (f s))
    (step : ∀ {s a t}, Reach m ok s → Reach n ok' (f s) → ok s a → m.step s a = some t →
      f t = f s ∨ ∃ b, ok' (f s) b ∧ n.step (f s) b = some (f t)) : Reach n ok' (f s) := by
  induction h with
  | init h => exact .init (init h)
  | step hr hok hs ih =>
    rcases step hr ih hok hs with h | ⟨b, hb, h⟩
    · rwa [h]
    · exact .step ih hb h

/-- Run a list of actions. -/
def run (m : Machine σ α) : σ → List α → Option σ
  | s, [] => some s
  | s, a :: as => (m.step s a).bind fun t => m.run t as

/-- Every step of the run from `s` meets `ok`. -/
def RunOk (m : Machine σ α) (ok : σ → α → Prop) : σ → List α → Prop
  | _, [] => True
  | s, a :: as => ok s a ∧ ∀ t, m.step s a = some t → m.RunOk ok t as

instance RunOk.decidable [∀ s a, Decidable (ok s a)] :
    ∀ (as : List α) (s : σ), Decidable (m.RunOk ok s as)
  | [], _ => .isTrue trivial
  | a :: as, s =>
    have : Decidable (∀ t, m.step s a = some t → m.RunOk ok t as) :=
      match m.step s a with
      | none => .isTrue nofun
      | some t => match RunOk.decidable as t with
        | .isTrue h => .isTrue fun _ e => Option.some.inj e ▸ h
        | .isFalse h => .isFalse fun h' => h (h' t rfl)
    inferInstanceAs (Decidable (_ ∧ _))

theorem RunOk.of_forall {as : List α} (h : ∀ a ∈ as, ∀ s, ok s a) (s : σ) : m.RunOk ok s as := by
  induction as generalizing s with
  | nil => trivial
  | cons a as ih =>
    exact ⟨h a List.mem_cons_self s, fun t _ => ih (fun b hb => h b (List.mem_cons_of_mem a hb)) t⟩

theorem Reach.run {as : List α} (hs : Reach m ok s) (hok : m.RunOk ok s as)
    (hrun : m.run s as = some t) : Reach m ok t := by
  induction as generalizing s with
  | nil =>
    cases hrun
    exact hs
  | cons a as ih =>
    obtain ⟨u, hu, hrun⟩ := Option.bind_eq_some_iff.mp hrun
    exact ih (.step hs hok.1 hu) (hok.2 u hu) hrun

/-- What every step keeps, a run keeps. -/
theorem Reach.keeps {as : List α} (hs : Reach m ok s) (hok : m.RunOk ok s as)
    (hrun : m.run s as = some t) (P : σ → Prop) (hp : P s)
    (step : ∀ {s a t}, Reach m ok s → P s → m.step s a = some t → P t) : P t := by
  induction as generalizing s with
  | nil =>
    cases hrun
    exact hp
  | cons a as ih =>
    obtain ⟨u, hu, hrun⟩ := Option.bind_eq_some_iff.mp hrun
    exact ih (.step hs hok.1 hu) (hok.2 u hu) hrun (step hs hp hu)

/-- A concrete run from an initial state is a witness of reachability. -/
theorem Reach.get {as : List α} (hs : m.Init s) (hok : m.RunOk ok s as)
    (h : (m.run s as).isSome = true) : Reach m ok ((m.run s as).get h) :=
  .run (.init hs) hok (Option.some_get h).symm

theorem Reach.get_free {as : List α} (hs : m.Init s) (h : (m.run s as).isSome = true) :
    Reach m free ((m.run s as).get h) :=
  .get hs (.of_forall (fun _ _ _ => trivial) s) h

end Machine
