import DignusActor.Machine.Transition

/-! # Bounded work

A rank that the counted actions lower and the others do not raise bounds how many counted actions a
run can have, whatever the others do in between (`run_rank`). Where the others may raise the rank,
but pay for it, the bound is the rank and what has been paid: what a state shows to be paid
(`run_credit`), and what the steps themselves pay (`run_paid`). Where the counted actions lower the
rank up to a step that is waited for, so many of them bring that step (`run_takes`). -/

universe u v

namespace Machine

variable {σ : Type u} {α : Type v} {m : Machine σ α} {ok : σ → α → Prop}

/-- What the steps of a run pay, when `pay` says what each of them does. -/
def total (m : Machine σ α) (pay : σ → α → Nat) : σ → List α → Nat
  | _, [] => 0
  | s, a :: as => pay s a + match m.step s a with
    | some t => m.total pay t as
    | none => 0

theorem total_zero (as : List α) (s : σ) : m.total (fun _ _ => 0) s as = 0 := by
  induction as generalizing s with
  | nil => rfl
  | cons a as ih =>
    rw [total]
    split <;> simp [ih]

theorem total_mul (k : Nat) (pay : σ → α → Nat) (as : List α) (s : σ) :
    m.total (fun s a => k * pay s a) s as = k * m.total pay s as := by
  induction as generalizing s with
  | nil => rfl
  | cons a as ih =>
    rw [total, total, Nat.mul_add]
    split
    · rw [ih]
    · rfl

/-- **The rank rule**, with credit and with what the steps pay. -/
theorem run_paid (counted : α → Bool) (P : σ → Prop) (rank paid : σ → Nat) (pay : σ → α → Nat)
    (step : ∀ {s a t}, P s → ok s a → m.step s a = some t →
      P t ∧ rank t + (if counted a then 1 else 0) + paid s ≤ rank s + paid t + pay s a)
    {as : List α} {s t : σ} (hp : P s) (hok : m.RunOk ok s as) (hrun : m.run s as = some t) :
    P t ∧ rank t + as.countP counted + paid s ≤ rank s + paid t + m.total pay s as := by
  induction as generalizing s with
  | nil =>
    cases hrun
    exact ⟨hp, Nat.le_refl _⟩
  | cons a as ih =>
    obtain ⟨u, hu, hrun⟩ := Option.bind_eq_some_iff.mp hrun
    obtain ⟨hp, hle⟩ := step hp hok.1 hu
    obtain ⟨hpt, hrest⟩ := ih hp (hok.2 u hu) hrun
    refine ⟨hpt, ?_⟩
    simp only [total, hu, List.countP_cons]
    omega

/-- **The rank rule**, with credit. -/
theorem run_credit (counted : α → Bool) (P : σ → Prop) (rank paid : σ → Nat)
    (step : ∀ {s a t}, P s → ok s a → m.step s a = some t →
      P t ∧ rank t + (if counted a then 1 else 0) + paid s ≤ rank s + paid t)
    {as : List α} {s t : σ} (hp : P s) (hok : m.RunOk ok s as) (hrun : m.run s as = some t) :
    P t ∧ rank t + as.countP counted + paid s ≤ rank s + paid t := by
  simpa only [total_zero, Nat.add_zero] using
    run_paid counted P rank paid (fun _ _ => 0) (fun hp hok hs => step hp hok hs) hp hok hrun

/-- **The rank rule.** -/
theorem run_rank (counted : α → Bool) (P : σ → Prop) (rank : σ → Nat)
    (step : ∀ {s a t}, P s → m.step s a = some t →
      P t ∧ rank t + (if counted a then 1 else 0) ≤ rank s)
    {as : List α} {s t : σ} (hp : P s) (hrun : m.run s as = some t) :
    P t ∧ rank t + as.countP counted ≤ rank s :=
  run_credit counted P rank (fun _ => 0) (fun hp _ hs => step hp hs) hp
    (show m.RunOk free s as from .of_forall (fun _ _ _ => trivial) s) hrun

/-- The run from `s` takes a step of `Q`. -/
def Takes (m : Machine σ α) (Q : σ → α → σ → Prop) (s : σ) (as : List α) : Prop :=
  ∃ bs u a v cs, as = bs ++ a :: cs ∧ m.run s bs = some u ∧ m.step u a = some v ∧ Q u a v

theorem Takes.cons {Q : σ → α → σ → Prop} {as : List α} {s u : σ} {a : α} (hu : m.step s a = some u)
    (h : m.Takes Q u as) : m.Takes Q s (a :: as) := by
  obtain ⟨bs, v, b, w, cs, rfl, hrun, hs, hq⟩ := h
  exact ⟨a :: bs, v, b, w, cs, rfl, by simp [run, hu, hrun], hs, hq⟩

/-- **The rank rule**, up to a step that is waited for. -/
theorem run_takes (counted : α → Bool) (P : σ → Prop) (Q : σ → α → σ → Prop) (rank : σ → Nat)
    (step : ∀ {s a t}, P s → ok s a → m.step s a = some t →
      Q s a t ∨ P t ∧ rank t + (if counted a then 1 else 0) ≤ rank s)
    {as : List α} {s t : σ} (hp : P s) (hok : m.RunOk ok s as) (hrun : m.run s as = some t) :
    m.Takes Q s as ∨ P t ∧ rank t + as.countP counted ≤ rank s := by
  induction as generalizing s with
  | nil =>
    cases hrun
    exact .inr ⟨hp, Nat.le_refl _⟩
  | cons a as ih =>
    obtain ⟨u, hu, hrun⟩ := Option.bind_eq_some_iff.mp hrun
    rcases step hp hok.1 hu with hq | ⟨hpu, hle⟩
    · exact .inl ⟨[], s, a, u, as, rfl, rfl, hu, hq⟩
    · refine (ih hpu (hok.2 u hu) hrun).imp (.cons hu) fun ⟨hpt, hrest⟩ => ⟨hpt, ?_⟩
      rw [List.countP_cons]
      omega

end Machine
