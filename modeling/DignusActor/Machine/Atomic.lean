import DignusActor.Machine.Transition

/-! # Atomic objects

A sequential object says what a call can return and what it leaves. In `Object.Atomic` threads call
it at once, and each call takes effect at one instant between its call and its return. The effects
of such a run are a linearization of its history (`Atomic.toLinearizable`).

`Traced` gives the runs of a machine with the events that an observer sees. To prove a machine
linearizable, relate its states to those of the atomic object, step by step (`Traced.simulates`). -/

universe u v w x y

/-- A sequential object: where it starts, what a call can return, and what it leaves. -/
structure Object (σ : Type u) (ι : Type v) (ο : Type w) where
  Init : σ → Prop
  Apply : σ → ι → ο → σ → Prop

namespace Object

variable {σ : Type u} {ι : Type v} {ο : Type w} {T : Type x}

/-- What an observer sees of a thread. -/
inductive Event (T : Type x) (ι : Type v) (ο : Type w)
  | call (t : T) (input : ι)
  | ret (t : T) (output : ο)
  deriving DecidableEq, Repr

def Event.thread : Event T ι ο → T
  | .call t _ | .ret t _ => t

/-- Where a thread stands in its call. -/
inductive Phase (ι : Type v) (ο : Type w)
  | idle
  | called (input : ι)
  | done (output : ο)

/-- A call that took effect: event `called` of the history is the call, and the history had
`effect` events then. -/
structure Op (T : Type x) (ι : Type v) (ο : Type w) where
  thread : T
  input : ι
  output : ο
  called : Nat
  effect : Nat

/-- The object serves the calls one after the other. -/
inductive Runs (O : Object σ ι ο) : List (ι × ο) → σ → Prop
  | init {s : σ} : O.Init s → Runs O [] s
  | apply {l : List (ι × ο)} {s s' : σ} {i : ι} {o : ο} :
    Runs O l s → O.Apply s i o s' → Runs O (l ++ [(i, o)]) s'

/-- The last event of thread `t` in `h` is event `k`. -/
def LastOf (h : List (Event T ι ο)) (t : T) (k : Nat) : Prop :=
  ∀ j e, h[j]? = some e → k < j → e.thread ≠ t

/-- The calls `ops`, in the order of their effects, explain the history `h`: one after the other
they return what they returned there, each takes effect once and after its call, and each return
ends a call that has taken effect. -/
structure Linearization (O : Object σ ι ο) (h : List (Event T ι ο)) (ops : List (Op T ι ο)) :
    Prop where
  legal : ∃ s, O.Runs (ops.map fun op => (op.input, op.output)) s
  called : ∀ op ∈ ops, h[op.called]? = some (.call op.thread op.input)
  once : (ops.map Op.called).Nodup
  after : ∀ op ∈ ops, op.called < op.effect
  ordered : ops.Pairwise fun a b => a.effect ≤ b.effect
  returned : ∀ k t o, h[k]? = some (.ret t o) → ∃ op ∈ ops, op.thread = t ∧ op.output = o ∧
    op.effect ≤ k ∧ LastOf (h.take k) t op.called

/-- Some order of the calls, each at an instant between its call and its return, explains `h`. -/
def Linearizable (O : Object σ ι ο) (h : List (Event T ι ο)) : Prop :=
  ∃ ops, O.Linearization h ops

section
variable [DecidableEq T]

/-- The threads call the object at once, and each call takes effect at one instant. -/
inductive Atomic (O : Object σ ι ο) : σ → (T → Phase ι ο) → List (Event T ι ο) → Prop
  | init {s : σ} : O.Init s → Atomic O s (fun _ => .idle) []
  | call {s : σ} {p : T → Phase ι ο} {h : List (Event T ι ο)} (t : T) (i : ι) :
    Atomic O s p h → p t = .idle →
    Atomic O s (Function.update p t (.called i)) (h ++ [.call t i])
  | effect {s s' : σ} {p : T → Phase ι ο} {h : List (Event T ι ο)} (t : T) {i : ι} (o : ο) :
    Atomic O s p h → p t = .called i → O.Apply s i o s' →
    Atomic O s' (Function.update p t (.done o)) h
  | ret {s : σ} {p : T → Phase ι ο} {h : List (Event T ι ο)} (t : T) (o : ο) :
    Atomic O s p h → p t = .done o →
    Atomic O s (Function.update p t .idle) (h ++ [.ret t o])

/-! ## The linearization of a run -/

/-- The call of thread `t` is event `k`, and has not taken effect. -/
structure Waits (h : List (Event T ι ο)) (ops : List (Op T ι ο)) (t : T) (i : ι) (k : Nat) :
    Prop where
  call : h[k]? = some (.call t i)
  last : LastOf h t k
  fresh : k ∉ ops.map Op.called

/-- `op` is the call of thread `t`, which has taken effect. -/
structure Took (h : List (Event T ι ο)) (t : T) (o : ο) (op : Op T ι ο) : Prop where
  thread : op.thread = t
  output : op.output = o
  last : LastOf h t op.called

/-- What the effects so far say about the threads. -/
structure Explains (O : Object σ ι ο) (s : σ) (p : T → Phase ι ο) (h : List (Event T ι ο))
    (ops : List (Op T ι ο)) : Prop extends O.Linearization h ops where
  state : O.Runs (ops.map fun op => (op.input, op.output)) s
  past : ∀ op ∈ ops, op.effect ≤ h.length
  waits : ∀ t i, p t = .called i → ∃ k, Waits h ops t i k
  took : ∀ t o, p t = .done o → ∃ op ∈ ops, Took h t o op

variable {O : Object σ ι ο} {s s' : σ} {p : T → Phase ι ο} {h : List (Event T ι ο)}
  {ops : List (Op T ι ο)} {t : T}

omit [DecidableEq T] in
theorem LastOf.append {k : Nat} {e : Event T ι ο} (hl : LastOf h t k) (ht : e.thread ≠ t) :
    LastOf (h ++ [e]) t k := by
  intro j f hj hkj
  rcases Nat.lt_or_ge j h.length with hlt | hge
  · rw [List.getElem?_append_left hlt] at hj
    exact hl j f hj hkj
  · rw [List.getElem?_append_right hge] at hj
    obtain ⟨rfl⟩ : f = e := by
      have := List.mem_of_getElem? hj
      simpa using this
    exact ht

omit [DecidableEq T] in
theorem lastOf_append (e : Event T ι ο) : LastOf (h ++ [e]) t h.length := by
  intro j f hj hlt
  have := (List.getElem?_eq_some_iff.mp hj).1
  rw [List.length_append, List.length_singleton] at this
  omega

omit [DecidableEq T] in
/-- An old event is an event of a longer history, at the same place. -/
theorem getElem?_append_of_some {k : Nat} {e f : Event T ι ο} (hk : h[k]? = some e) :
    (h ++ [f])[k]? = some e := by
  rw [List.getElem?_append_left (List.getElem?_eq_some_iff.mp hk).1, hk]

omit [DecidableEq T] in
theorem Waits.append {k : Nat} {i : ι} {e : Event T ι ο} (hw : Waits h ops t i k)
    (ht : e.thread ≠ t) : Waits (h ++ [e]) ops t i k :=
  ⟨getElem?_append_of_some hw.call, hw.last.append ht, hw.fresh⟩

omit [DecidableEq T] in
theorem Took.append {o : ο} {op : Op T ι ο} {e : Event T ι ο} (hk : Took h t o op)
    (ht : e.thread ≠ t) : Took (h ++ [e]) t o op :=
  ⟨hk.thread, hk.output, hk.last.append ht⟩

omit [DecidableEq T] in
/-- An event is added that ends no call, or a call that has taken effect. -/
theorem Linearization.append (hl : O.Linearization h ops) (hpast : ∀ op ∈ ops, op.effect ≤ h.length)
    {e : Event T ι ο} (he : ∀ t o, e = .ret t o → ∃ op ∈ ops, Took h t o op) :
    O.Linearization (h ++ [e]) ops where
  legal := hl.legal
  called op hop := getElem?_append_of_some (hl.called op hop)
  once := hl.once
  after := hl.after
  ordered := hl.ordered
  returned k t o hk := by
    rcases Nat.lt_or_ge k h.length with hlt | hge
    · rw [List.getElem?_append_left hlt] at hk
      rw [List.take_append_of_le_length (Nat.le_of_lt hlt)]
      exact hl.returned k t o hk
    · have hlen := (List.getElem?_eq_some_iff.mp hk).1
      rw [List.length_append, List.length_singleton] at hlen
      obtain rfl : k = h.length := by omega
      rw [List.getElem?_append_right (Nat.le_refl _), Nat.sub_self] at hk
      obtain ⟨op, hop, hk⟩ := he t o (Option.some.inj hk)
      refine ⟨op, hop, hk.thread, hk.output, hpast op hop, ?_⟩
      rw [List.take_append_of_le_length (Nat.le_refl _), List.take_length]
      exact hk.last

theorem Explains.call (H : O.Explains s p h ops) (hidle : p t = .idle) (i : ι) :
    O.Explains s (Function.update p t (.called i)) (h ++ [.call t i]) ops where
  toLinearization := H.toLinearization.append H.past (by simp)
  state := H.state
  past op hop := by
    rw [List.length_append]
    exact Nat.le_add_right_of_le (H.past op hop)
  waits u j hu := by
    by_cases hut : u = t
    · subst hut
      rw [Function.update_self] at hu
      cases hu
      refine ⟨h.length, List.getElem?_concat_length, lastOf_append _, ?_⟩
      -- the calls that took effect are older
      intro hmem
      obtain ⟨op, hop, heq⟩ := List.mem_map.mp hmem
      have := (List.getElem?_eq_some_iff.mp (H.called op hop)).1
      omega
    · rw [Function.update_of_ne hut] at hu
      obtain ⟨k, hk⟩ := H.waits u j hu
      exact ⟨k, hk.append (Ne.symm hut)⟩
  took u o hu := by
    by_cases hut : u = t
    · subst hut
      rw [Function.update_self] at hu
      cases hu
    · rw [Function.update_of_ne hut] at hu
      obtain ⟨op, hop, hk⟩ := H.took u o hu
      exact ⟨op, hop, hk.append (Ne.symm hut)⟩

theorem Explains.ret (H : O.Explains s p h ops) {o : ο} (hdone : p t = .done o) :
    O.Explains s (Function.update p t .idle) (h ++ [.ret t o]) ops where
  toLinearization := by
    refine H.toLinearization.append H.past fun u q heq => ?_
    cases heq
    exact H.took t o hdone
  state := H.state
  past op hop := by
    rw [List.length_append]
    exact Nat.le_add_right_of_le (H.past op hop)
  waits u j hu := by
    by_cases hut : u = t
    · subst hut
      rw [Function.update_self] at hu
      cases hu
    · rw [Function.update_of_ne hut] at hu
      obtain ⟨k, hk⟩ := H.waits u j hu
      exact ⟨k, hk.append (Ne.symm hut)⟩
  took u q hu := by
    by_cases hut : u = t
    · subst hut
      rw [Function.update_self] at hu
      cases hu
    · rw [Function.update_of_ne hut] at hu
      obtain ⟨op, hop, hk⟩ := H.took u q hu
      exact ⟨op, hop, hk.append (Ne.symm hut)⟩

/-- The call of thread `t` takes effect: it is the last operation so far. -/
theorem Explains.effect (H : O.Explains s p h ops) {i : ι} {o : ο} (hcalled : p t = .called i)
    (happly : O.Apply s i o s') :
    ∃ ops, O.Explains s' (Function.update p t (.done o)) h ops := by
  obtain ⟨k, hk⟩ := H.waits t i hcalled
  have hlt := (List.getElem?_eq_some_iff.mp hk.call).1
  let op : Op T ι ο := { thread := t, input := i, output := o, called := k, effect := h.length }
  have hruns : O.Runs ((ops ++ [op]).map fun op => (op.input, op.output)) s' := by
    rw [List.map_append]
    exact .apply H.state happly
  have hold {P : Op T ι ο → Prop} (hP : ∀ a ∈ ops, P a) (hop : P op) : ∀ a ∈ ops ++ [op], P a := by
    intro a ha
    rcases List.mem_append.mp ha with ha | ha
    · exact hP a ha
    · exact List.mem_singleton.mp ha ▸ hop
  refine ⟨ops ++ [op], ?_, hruns, hold H.past (Nat.le_refl _), fun u j hu => ?_, fun u q hu => ?_⟩
  · refine ⟨⟨s', hruns⟩, hold H.called hk.call, ?_, hold H.after hlt, ?_, fun j u q hj => ?_⟩
    · rw [List.map_append, List.nodup_append]
      refine ⟨H.once, List.nodup_singleton _, fun a ha b hb heq => hk.fresh ?_⟩
      have hak : a = k := heq.trans (List.mem_singleton.mp hb)
      exact hak ▸ ha
    · rw [List.pairwise_append]
      refine ⟨H.ordered, List.pairwise_singleton _ _, fun a ha b hb => ?_⟩
      exact List.mem_singleton.mp hb ▸ H.past a ha
    · obtain ⟨a, ha, hret⟩ := H.returned j u q hj
      exact ⟨a, List.mem_append_left _ ha, hret⟩
  · by_cases hut : u = t
    · subst hut
      rw [Function.update_self] at hu
      cases hu
    · rw [Function.update_of_ne hut] at hu
      obtain ⟨k', hk'⟩ := H.waits u j hu
      refine ⟨k', hk'.call, hk'.last, fun hmem => ?_⟩
      rw [List.map_append] at hmem
      rcases List.mem_append.mp hmem with hmem | hmem
      · exact hk'.fresh hmem
      · -- one event is the call of one thread
        obtain rfl : k' = k := List.mem_singleton.mp hmem
        cases hk.call.symm.trans hk'.call
        exact hut rfl
  · by_cases hut : u = t
    · subst hut
      rw [Function.update_self] at hu
      cases hu
      exact ⟨op, List.mem_append_right _ (List.mem_singleton.mpr rfl), rfl, rfl, hk.last⟩
    · rw [Function.update_of_ne hut] at hu
      obtain ⟨a, ha, hk⟩ := H.took u q hu
      exact ⟨a, List.mem_append_left _ ha, hk⟩

theorem Atomic.explains (H : O.Atomic s p h) : ∃ ops, O.Explains s p h ops := by
  induction H with
  | init hs =>
    exact ⟨[], ⟨⟨_, .init hs⟩, by simp, List.nodup_nil, by simp, .nil, by simp⟩, .init hs, by simp,
      by simp, by simp⟩
  | call t i _ hidle ih =>
    obtain ⟨ops, H⟩ := ih
    exact ⟨ops, H.call hidle i⟩
  | effect t o _ hcalled happly ih =>
    obtain ⟨ops, H⟩ := ih
    exact H.effect hcalled happly
  | ret t o _ hdone ih =>
    obtain ⟨ops, H⟩ := ih
    exact ⟨ops, H.ret hdone⟩

/-- **The histories of an atomic object are linearizable.** -/
theorem Atomic.toLinearizable (H : O.Atomic s p h) : O.Linearizable h := by
  obtain ⟨ops, H⟩ := H.explains
  exact ⟨ops, H.toLinearization⟩

end

end Object

namespace Machine

variable {σ : Type u} {α : Type v} {ε : Type w}

/-- The runs along `ok` with the events of their steps. -/
inductive Traced (m : Machine σ α) (ok : σ → α → Prop) (events : σ → α → σ → List ε) :
    σ → List ε → Prop
  | init {s : σ} : m.Init s → Traced m ok events s []
  | step {s t : σ} {a : α} {h : List ε} : Traced m ok events s h → ok s a → m.step s a = some t →
    Traced m ok events t (h ++ events s a t)

variable {m : Machine σ α} {ok : σ → α → Prop} {events : σ → α → σ → List ε} {s : σ} {h : List ε}

theorem Traced.reach (H : m.Traced ok events s h) : Reach m ok s := by
  induction H with
  | init h => exact .init h
  | step _ hok hs ih => exact .step ih hok hs

/-- The events of a run. -/
def trace (m : Machine σ α) (events : σ → α → σ → List ε) : σ → List α → List ε
  | _, [] => []
  | s, a :: as => match m.step s a with
    | none => []
    | some t => events s a t ++ m.trace events t as

theorem Traced.run {as : List α} {t : σ} (H : m.Traced ok events s h) (hok : m.RunOk ok s as)
    (hrun : m.run s as = some t) : m.Traced ok events t (h ++ m.trace events s as) := by
  induction as generalizing s h with
  | nil =>
    cases hrun
    rwa [trace, List.append_nil]
  | cons a as ih =>
    obtain ⟨u, hu, hrun⟩ := Option.bind_eq_some_iff.mp hrun
    have := ih (H.step hok.1 hu) (hok.2 u hu) hrun
    rw [trace, hu, ← List.append_assoc]
    exact this

/-- A concrete run from an initial state is a witness. -/
theorem Traced.get {as : List α} (hs : m.Init s) (hok : m.RunOk ok s as)
    (h : (m.run s as).isSome = true) :
    m.Traced ok events ((m.run s as).get h) (m.trace events s as) :=
  Traced.run (.init hs) hok (Option.some_get h).symm

variable {τ : Type x} {ι : Type y} {ο : Type u} {T : Type v} [DecidableEq T]
  {events : σ → α → σ → List (Object.Event T ι ο)} {h : List (Object.Event T ι ο)}

/-- **The simulation rule.** Each step of the machine can be answered by calls, effects and returns
of the atomic object with the events of the step. -/
theorem Traced.simulates {O : Object τ ι ο} (H : m.Traced ok events s h)
    (Abs : σ → τ → (T → Object.Phase ι ο) → Prop)
    (init : ∀ {s}, m.Init s → ∃ a, O.Init a ∧ Abs s a fun _ => .idle)
    (step : ∀ {s b t a p h}, Reach m ok s → Abs s a p → ok s b → m.step s b = some t →
      O.Atomic a p h → ∃ a' p', O.Atomic a' p' (h ++ events s b t) ∧ Abs t a' p') :
    ∃ a p, O.Atomic a p h ∧ Abs s a p := by
  induction H with
  | init hs =>
    obtain ⟨a, ha, habs⟩ := init hs
    exact ⟨a, _, .init ha, habs⟩
  | step hr hok hs ih =>
    obtain ⟨a, p, hatomic, habs⟩ := ih
    exact step hr.reach habs hok hs hatomic

end Machine
