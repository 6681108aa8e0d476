import DignusActor.Ask.Moves

/-! # The history of the asks

`complete` decides the result of an ask under the lock of its state and takes the waker there; it
wakes it after the lock is released (`Traced.step`), so a poll, another reply or a timeout can come
in between. The first completion decides every answer of the future (`Decided`) and the waker that
it has taken is woken once (`Awoken`). -/

namespace DignusActor.Ask

open Machine (Reach)

variable {T M W : Type} [DecidableEq T]

/-! ## The history of the asks -/

/-- The history of one awaiter. -/
structure History (M W : Type) where
  /-- The calls of `set_response` (with the message) and `set_timeout`, in the order in which they
  took the lock of the state. -/
  completions : List (Option M)
  answers : List (PollResult M)
  /-- The waker given to the last poll that returned `Pending`. -/
  lastPoll : Option W
  /-- The waker that `complete` took out of the state. -/
  taken : Option W
  /-- The wakers that were woken. -/
  woken : List W

/-- The ask system with the wakers that its threads have yet to wake; thread `none` is the
sweeper. -/
structure Traced (T M W : Type) where
  ask : State T M W
  history : Nat → History M W
  waking : Option T → Option (Nat × W)
  /-- The clock values that the passes of the sweeper have read. -/
  reads : List Nat

inductive Traced.Action (T M W : Type)
  | ask (act : Ask.Action T M W)
  /-- The thread wakes the waker that it has taken. -/
  | wake (x : Option T)

/-- The thread that takes the step. -/
def Action.thread : Action T M W → Option (Option T)
  | .call x => some (some x)
  | .sweep => some none
  | _ => none

/-- The call of `complete` that the step makes. -/
def State.completes (s : State T M W) : Action T M W → Option (Nat × Option M)
  | .call x => match s.callers x with
    | .setResponse a message => some (a, some message)
    | .stopTimeout _ a => some (a, none)
    | _ => none
  | .sweep => match s.sweeper with
    | .setTimeout _ (a :: _) _ => some (a, none)
    | _ => none
  | _ => none

namespace Traced

variable (s : Traced T M W)

/-- A call of `complete` on an awaiter. -/
def noteCompletion (x : Option T) (a : Nat) (response : Option M) (w : Awaiter M W) :
    Traced T M W :=
  let h := s.history a
  { s with
    history := Function.update s.history a
      { h with
        completions := h.completions ++ [response]
        taken := if w.completed then h.taken else w.waker }
    waking := if w.completed then s.waking
      else Function.update s.waking x (w.waker.map fun u => (a, u)) }

/-- An answer of a poll. -/
def noteAnswer (a : Nat) (waker : W) (answer : PollResult M) : Traced T M W :=
  let h := s.history a
  { s with
    history := Function.update s.history a
      { h with
        answers := h.answers ++ [answer]
        lastPoll := match answer with
          | .pending => some waker
          | _ => h.lastPoll } }

def note (willWake : W → W → Bool) (act : Ask.Action T M W) : Traced T M W :=
  match act with
  | .poll a waker => match s.ask.awaiters a with
    | some w => s.noteAnswer a waker (w.poll willWake waker).2
    | none => s
  | _ => match act.thread, s.ask.completes act with
    | some x, some (a, response) => match s.ask.awaiters a with
      | some w => s.noteCompletion x a response w
      | none => s
    | some none, none => match s.ask.sweeper with
      | .readClock => { s with reads := s.reads ++ [s.ask.clock] }
      | _ => s
    | _, _ => s

/-- The thread of the step has a waker to wake first. -/
def blocked (act : Ask.Action T M W) : Bool :=
  match act.thread with
  | some x => (s.waking x).isSome
  | none => false

def step (willWake : W → W → Bool) (s : Traced T M W) : Action T M W → Option (Traced T M W)
  | .ask act =>
    if s.blocked act then none
    else (Ask.step willWake s.ask act).map fun ask => { s.note willWake act with ask }
  | .wake x => (s.waking x).map fun (a, u) =>
    let h := s.history a
    { s with
      history := Function.update s.history a { h with woken := h.woken ++ [u] }
      waking := Function.update s.waking x none }

/-- Nothing has happened. -/
def start (ask : State T M W) : Traced T M W where
  ask := ask
  history := fun _ => { completions := [], answers := [], lastPoll := none, taken := none,
                        woken := [] }
  waking := fun _ => none
  reads := []

end Traced

def trace (T M W : Type) [DecidableEq T] (willWake : W → W → Bool) (slotCountHint : Nat) :
    Machine (Traced T M W) (Traced.Action T M W) where
  Init s := (machine T M W willWake slotCountHint).Init s.ask ∧ s = Traced.start s.ask
  step := Traced.step willWake

/-! ## What a step does to an awaiter -/

/-- The awaiter but for the references to it; the last one of them is never made again. -/
structure Awaiter.Same (w w' : Awaiter M W) : Prop where
  deadline : w'.deadline = w.deadline
  strongCount : w.strongCount = 0 → w'.strongCount = 0
  accepts : w'.accepts = w.accepts
  response : w'.response = w.response
  completed : w'.completed = w.completed
  timedOut : w'.timedOut = w.timedOut
  waker : w'.waker = w.waker

omit [DecidableEq T] in
theorem Awaiter.Same.refl (w : Awaiter M W) : w.Same w := ⟨rfl, id, rfl, rfl, rfl, rfl, rfl⟩

omit [DecidableEq T] in
theorem Awaiter.same_upgrade {w : Awaiter M W} (h : w.strongCount ≠ 0) : w.Same w.upgrade :=
  ⟨rfl, fun h' => absurd h' h, rfl, rfl, rfl, rfl, rfl⟩

omit [DecidableEq T] in
theorem Awaiter.same_drop (w : Awaiter M W) : w.Same w.drop := by
  refine ⟨rfl, fun h => ?_, rfl, rfl, rfl, rfl, rfl⟩
  simp only [strongCount, drop] at h ⊢
  omega

/-- The awaiters but for the references to them. -/
def State.SameAwaiters (s t : State T M W) : Prop :=
  ∀ b, Option.Rel Awaiter.Same (s.awaiters b) (t.awaiters b)

section

variable {willWake : W → W → Bool} {s t : State T M W} {act : Action T M W}

omit [DecidableEq T] in
theorem State.SameAwaiters.of_eq (h : t.awaiters = s.awaiters) : s.SameAwaiters t := by
  intro b
  rw [h]
  cases s.awaiters b with
  | none => exact .none
  | some w => exact .some (.refl w)

omit [DecidableEq T] in
theorem State.SameAwaiters.update {a : Nat} {f : Awaiter M W → Awaiter M W}
    (hf : ∀ w, s.awaiters a = some w → w.Same (f w))
    (h : t.awaiters = Function.update s.awaiters a ((s.awaiters a).map f)) : s.SameAwaiters t := by
  intro b
  rw [h]
  by_cases hb : b = a
  · subst hb
    rw [Function.update_self]
    cases hw : s.awaiters b with
    | none => exact .none
    | some w => exact .some (hf w hw)
  · rw [Function.update_of_ne hb]
    exact State.SameAwaiters.of_eq (t := s) rfl b

omit [DecidableEq T] in
theorem State.SameAwaiters.modify {a : Nat} {f : Awaiter M W → Awaiter M W}
    (hf : ∀ w, s.awaiters a = some w → w.Same (f w))
    (h : t.awaiters = (s.modify a f).awaiters) : s.SameAwaiters t := by
  rw [State.modify_eq] at h
  exact .update hf h

omit [DecidableEq T] in
theorem State.SameAwaiters.upgrade {a : Nat} (hup : s.upgradable a = true)
    (h : t.awaiters = (s.modify a .upgrade).awaiters) : s.SameAwaiters t := by
  refine .modify (fun w hw => Awaiter.same_upgrade ?_) h
  simpa [State.upgradable, hw] using hup

omit [DecidableEq T] in
theorem State.SameAwaiters.drop {a : Nat} (h : t.awaiters = (s.modify a .drop).awaiters) :
    s.SameAwaiters t := .modify (fun w _ => w.same_drop) h

/-- What a step does to the awaiters. -/
inductive State.Touch (willWake : W → W → Bool) (s : State T M W) (act : Action T M W)
    (t : State T M W) : Prop
  | quiet : s.SameAwaiters t → t.allocated = s.allocated → s.completes act = none →
    (∀ a v, act ≠ .poll a v) → s.Touch willWake act t
  | register (address deadline : Nat) (accepts : M → Bool) :
    t.awaiters = Function.update s.awaiters s.allocated
      (some (Awaiter.new address deadline accepts)) →
    t.allocated = s.allocated + 1 → s.completes act = none → (∀ a v, act ≠ .poll a v) →
    s.Touch willWake act t
  | complete (x : Option T) (a : Nat) (response : Option M) : act.thread = some x →
    s.completes act = some (a, response) →
    t.awaiters = Function.update s.awaiters a
      ((s.awaiters a).map (·.complete response response.isNone)) →
    t.allocated = s.allocated → s.Touch willWake act t
  | poll (a : Nat) (v : W) (w : Awaiter M W) : act = .poll a v → s.awaiters a = some w →
    t.awaiters = Function.update s.awaiters a (some (w.poll willWake v).1) →
    t.allocated = s.allocated → s.Touch willWake act t

theorem callerStep_touch {x : T} (h : callerStep s x = some t) :
    s.Touch willWake (.call x) t := by
  have hquiet {pc : CallerPc M} {u : State T M W} (hu : s.SameAwaiters u)
      (hallocated : u.allocated = s.allocated) (hc : s.completes (.call x) = none)
      (ht : t = u.setCaller x pc) : s.Touch willWake (.call x) t := by
    subst ht
    exact .quiet hu hallocated hc nofun
  have hupgrade {pc : CallerPc M} {a : Nat} (hup : s.upgradable a = true)
      (hc : s.completes (.call x) = none) (ht : t = (s.modify a .upgrade).setCaller x pc) :
      s.Touch willWake (.call x) t :=
    hquiet (.upgrade hup rfl) (by rw [State.modify_eq]) hc ht
  have hdrop {pc : CallerPc M} {a : Nat} (hc : s.completes (.call x) = none)
      (ht : t = (s.modify a .drop).setCaller x pc) : s.Touch willWake (.call x) t :=
    hquiet (.drop rfl) (by rw [State.modify_eq]) hc ht
  have hsame {pc : CallerPc M} (hc : s.completes (.call x) = none) (ht : t = s.setCaller x pc) :
      s.Touch willWake (.call x) t := hquiet (.of_eq rfl) rfl hc ht
  by_cases hstop : (s.callers x).Stopping
  · cases callerStep_stopMove h hstop with
    | swap hpc _ ht =>
      subst ht
      exact .quiet (.of_eq rfl) rfl (by simp [State.completes, hpc]) nofun
    | stopped hpc _ ht | notify hpc ht | join hpc _ ht | skip _ hpc _ _ ht
    | drained _ hpc _ ht | gone _ _ hpc _ ht => exact hsame (by simp [State.completes, hpc]) ht
    | take i entry hpc _ ht =>
      exact hquiet (u := s.setSlot i none) (.of_eq rfl) rfl (by simp [State.completes, hpc]) ht
    | upgrade i entry hpc ht =>
      have hc : s.completes (.call x) = none := by simp [State.completes, hpc]
      unfold callerStep at h
      simp only [hpc] at h
      split at h <;> cases h
      · exact hupgrade ‹_› hc rfl
      · exact hsame hc rfl
    | drop _ _ hpc ht => exact hdrop (by simp [State.completes, hpc]) ht
    | timeout i a hpc ht =>
      rw [State.modify_eq] at ht
      subst ht
      exact .complete (some x) a none rfl (by simp [State.completes, hpc]) rfl rfl
  · unfold callerStep at h
    cases hpc : s.callers x with
    | idle | panicked => simp [hpc] at h
    | registerStopped =>
      simp only [hpc, Option.some.injEq] at h
      exact hsame (by simp [State.completes, hpc]) h.symm
    | registerClock timeout address accepts =>
      simp only [hpc, Option.some.injEq] at h
      subst h
      exact .register address _ accepts rfl rfl (by simp [State.completes, hpc]) nofun
    | reserveSlot a =>
      simp only [hpc, Option.map_eq_some_iff] at h
      obtain ⟨w, hw, rfl⟩ := h
      exact .quiet (.of_eq rfl) rfl (by simp [State.completes, hpc]) nofun
    | replyUpgrade a message =>
      simp only [hpc] at h
      split at h <;> cases h
      · exact hupgrade ‹_› (by simp [State.completes, hpc]) rfl
      · exact hsame (by simp [State.completes, hpc]) rfl
    | setResponse a message =>
      simp only [hpc, Option.some.injEq] at h
      rw [State.modify_eq] at h
      subst h
      exact .complete (some x) a (some message) rfl (by simp [State.completes, hpc]) rfl rfl
    | replyDrop a =>
      simp only [hpc, Option.some.injEq] at h
      exact hdrop (by simp [State.completes, hpc]) h.symm
    | _ => exact absurd (hpc ▸ trivial) hstop

omit [DecidableEq T] in
theorem sweeperStep_touch (h : sweeperStep s = some t) : s.Touch willWake .sweep t := by
  have hnone (hpc : ∀ now a expired next, s.sweeper ≠ .setTimeout now (a :: expired) next) :
      s.completes .sweep = none := by
    unfold State.completes
    dsimp only
    split
    · exact absurd ‹_› (hpc _ _ _ _)
    · rfl
  cases sweeperStep_sweep h with
  | between pc hnow _ _ ht =>
    subst ht
    exact .quiet (.of_eq rfl) rfl (hnone fun _ _ _ _ hpc => by simp [hpc, SweeperPc.now] at hnow)
      nofun
  | readClock hpc ht | skip _ _ _ _ _ hpc _ _ ht | take _ _ _ _ _ hpc _ ht
  | scanned _ _ _ _ hpc _ ht | gone _ _ _ _ _ hpc _ ht | finish _ _ hpc ht =>
    subst ht
    exact .quiet (.of_eq rfl) rfl (hnone (by simp [hpc])) nofun
  | upgrade _ _ _ _ _ hpc ht =>
    have hc := hnone (by simp [hpc])
    unfold sweeperStep at h
    simp only [hpc] at h
    split at h <;> cases h
    · exact .quiet (.upgrade ‹_› rfl) (by rw [State.modify_eq]) hc nofun
    · exact .quiet (.of_eq rfl) rfl hc nofun
  | drop _ _ _ _ hpc ht =>
    subst ht
    exact .quiet (.drop rfl) (by rw [State.modify_eq]) (hnone (by simp [hpc])) nofun
  | timeout now a expired next hpc ht =>
    rw [State.modify_eq] at ht
    subst ht
    exact .complete none a none rfl (by simp [State.completes, hpc]) rfl rfl

theorem step_touch (h : step willWake s act = some t) : s.Touch willWake act t := by
  have hbegin {x : T} {pc : CallerPc M} (hb : s.begin x pc = some t)
      (hc : s.completes act = none) (hp : ∀ a v, act ≠ .poll a v) : s.Touch willWake act t := by
    unfold State.begin at hb
    split at hb <;> cases hb
    exact .quiet (.of_eq rfl) rfl hc hp
  cases act with
  | register | stop => exact hbegin h rfl (by simp)
  | reply x a message =>
    simp only [step] at h
    split at h
    · exact hbegin h rfl (by simp)
    · cases h
  | call x => exact callerStep_touch h
  | sweep => exact sweeperStep_touch h
  | poll a v =>
    simp only [step] at h
    split at h
    · rename_i w hw
      split at h <;> cases h
      exact .poll a v w rfl hw rfl rfl
    · cases h
  | drop a =>
    simp only [step] at h
    split at h
    · rename_i w hw
      split at h <;> cases h
      refine .quiet (.update (a := a) (f := fun w => { w with alive := false })
        (fun w _ => ⟨rfl, fun h => ?_, rfl, rfl, rfl, rfl, rfl⟩) ?_) rfl rfl (by simp)
      · simp only [Awaiter.strongCount, Bool.toNat_false] at h ⊢
        omega
      rw [hw]
      rfl
    · cases h
  | tick =>
    cases h
    exact .quiet (.of_eq rfl) rfl rfl (by simp)

end

/-! ## The invariant of one ask -/

/-- What the first completion says of an answer. -/
def Decided (accepts : M → Bool) (first : Option (Option M)) : PollResult M → Prop
  | .pending => True
  | .timeout => first = some none
  | .ok response => first = some (some response) ∧ accepts response = true
  | .responseTypeMismatch => ∃ message, first = some (some message) ∧ accepts message = false
  | .alreadyConsumed => ∃ message, first = some (some message)

/-- The answer takes the response out of the state. -/
def PollResult.consumes : PollResult M → Bool
  | .ok _ | .responseTypeMismatch => true
  | _ => false

/-- Waker `u` stands for the one that was given to the last pending poll. -/
def Registered (willWake : W → W → Bool) : Option W → Option W → Prop
  | none, u => u = none
  | some v, some u => u = v ∨ willWake u v = true
  | some _, none => False

/-- The waker that was taken was woken, or one thread has yet to wake it. -/
def Awoken (a : Nat) (waking : Option T → Option (Nat × W)) (woken : List W) : Option W → Prop
  | none => woken = [] ∧ ∀ x u, waking x ≠ some (a, u)
  | some u => (woken = [u] ∧ ∀ x v, waking x ≠ some (a, v)) ∨
    (woken = [] ∧ ∃ x, waking x = some (a, u) ∧ ∀ y v, waking y = some (a, v) → y = x)

structure Resolved (willWake : W → W → Bool) (a : Nat) (waking : Option T → Option (Nat × W))
    (h : History M W) (w : Awaiter M W) : Prop where
  pending : w.completed = false → h.completions = [] ∧ h.taken = none ∧ w.response = none ∧
    (∀ r ∈ h.answers, r = .pending) ∧ Registered willWake h.lastPoll w.waker
  completed : w.completed = true → Registered willWake h.lastPoll h.taken ∧
    ∃ first, h.completions.head? = some first ∧ w.timedOut = first.isNone ∧
      ∀ message, w.response = some message → first = some message
  kept : w.completed = true → w.timedOut = false → w.response = none →
    ∃ r ∈ h.answers, r.consumes = true
  answers : ∀ r ∈ h.answers, Decided w.accepts h.completions.head? r
  once : h.answers.countP PollResult.consumes + w.response.isSome.toNat ≤ 1
  awoken : Awoken a waking h.woken h.taken

section

variable {willWake : W → W → Bool} {a : Nat} {waking waking' : Option T → Option (Nat × W)}
  {h : History M W} {w w' : Awaiter M W}

omit [DecidableEq T] in
theorem Awoken.congr {woken : List W} {taken : Option W} (H : Awoken a waking woken taken)
    (hw : ∀ x u, waking' x = some (a, u) ↔ waking x = some (a, u)) :
    Awoken a waking' woken taken := by
  cases taken with
  | none => simpa only [Awoken, ne_eq, hw] using H
  | some u => simpa only [Awoken, ne_eq, hw] using H

omit [DecidableEq T] in
theorem Resolved.congr (H : Resolved willWake a waking h w)
    (hw : ∀ x u, waking' x = some (a, u) ↔ waking x = some (a, u)) (hsame : w.Same w') :
    Resolved willWake a waking' h w' := by
  refine ⟨?_, ?_, ?_, ?_, ?_, H.awoken.congr hw⟩
  · rw [hsame.completed, hsame.response, hsame.waker]
    exact H.pending
  · rw [hsame.completed, hsame.timedOut, hsame.response]
    exact H.completed
  · rw [hsame.completed, hsame.timedOut, hsame.response]
    exact H.kept
  · rw [hsame.accepts]
    exact H.answers
  · rw [hsame.response]
    exact H.once

omit [DecidableEq T] in
theorem Resolved.fresh (hnone : ∀ x u, waking x ≠ some (a, u)) {address deadline : Nat}
    {accepts : M → Bool} : Resolved willWake a waking
      { completions := [], answers := [], lastPoll := none, taken := none, woken := [] }
      (Awaiter.new address deadline accepts) where
  pending _ := ⟨rfl, rfl, rfl, nofun, rfl⟩
  completed := nofun
  kept := nofun
  answers := nofun
  once := Nat.zero_le 1
  awoken := ⟨rfl, hnone⟩

/-- A later completion changes nothing. -/
theorem Awaiter.complete_of_completed (hc : w.completed = true) (response : Option M)
    (timedOut : Bool) : w.complete response timedOut = w := by
  simp [complete, hc]

/-- The call of `complete` of thread `x`. -/
theorem Resolved.complete (H : Resolved willWake a waking h w) (x : Option T)
    (response : Option M) :
    Resolved willWake a
      (if w.completed then waking else Function.update waking x (w.waker.map fun u => (a, u)))
      { h with
        completions := h.completions ++ [response]
        taken := if w.completed then h.taken else w.waker }
      (w.complete response response.isNone) := by
  cases hc : w.completed with
  | true =>
    rw [Awaiter.complete_of_completed hc]
    simp only [if_true]
    obtain ⟨hreg, first, hfirst, htimed, hresp⟩ := H.completed hc
    have hhead : (h.completions ++ [response]).head? = h.completions.head? := by
      rw [List.head?_append, hfirst]
      rfl
    refine ⟨by simp [hc], fun _ => ⟨hreg, first, hhead.trans hfirst, htimed, hresp⟩, H.kept,
      fun r hr => ?_, H.once, H.awoken⟩
    dsimp only
    rw [hhead]
    exact H.answers r hr
  | false =>
    obtain ⟨hcompl, htaken, hresp, hans, hreg⟩ := H.pending hc
    have hcount : h.answers.countP PollResult.consumes = 0 :=
      List.countP_eq_zero.mpr fun r hr => by simp [hans r hr, PollResult.consumes]
    have hwoken := H.awoken
    rw [htaken] at hwoken
    simp only [Awaiter.complete, hc, Bool.false_eq_true, if_false, hcompl, List.nil_append]
    refine ⟨nofun, fun _ => ⟨hreg, response, rfl, rfl, fun _ => id⟩, fun _ htimed hnone => ?_,
      fun r hr => ?_, ?_, ?_⟩
    · dsimp only at htimed hnone
      rw [hnone] at htimed
      cases htimed
    · rw [hans r hr]
      trivial
    · dsimp only
      rw [hcount, Nat.zero_add]
      exact Bool.toNat_le _
    · cases hw : w.waker with
      | none =>
        refine ⟨hwoken.1, fun y u hy => ?_⟩
        by_cases hyx : y = x
        · rw [hyx, Option.map_none, Function.update_self] at hy
          cases hy
        · rw [Function.update_of_ne hyx] at hy
          exact hwoken.2 y u hy
      | some u =>
        refine .inr ⟨hwoken.1, x, Function.update_self .., fun y v hy => ?_⟩
        by_contra hyx
        rw [Function.update_of_ne hyx] at hy
        exact hwoken.2 y v hy

/-- A poll before the completion registers its waker, or finds an equivalent one. -/
theorem Awaiter.poll_pending (willWake : W → W → Bool) (hc : w.completed = false) (v : W) :
    (w.poll willWake v).2 = .pending ∧ (w.poll willWake v).1.completed = false ∧
      (w.poll willWake v).1.accepts = w.accepts ∧ (w.poll willWake v).1.response = w.response ∧
      Registered willWake (some v) (w.poll willWake v).1.waker := by
  simp only [poll, hc, Bool.false_eq_true, if_false]
  cases hw : w.waker with
  | none => simp [Registered]
  | some c =>
    cases hwill : willWake c v with
    | true => simp [hwill, hc, hw, Registered]
    | false => simp [hwill, Registered]

omit [DecidableEq T] in
/-- A poll after the completion. -/
theorem Resolved.poll_completed (H : Resolved willWake a waking h w) (hc : w.completed = true)
    (v : W) : Resolved willWake a waking
      { h with answers := h.answers ++ [(w.poll willWake v).2] } (w.poll willWake v).1 ∧
      (w.poll willWake v).2 ≠ .pending := by
  obtain ⟨hreg, first, hfirst, htimed, hresp⟩ := H.completed hc
  have hanswers {r : PollResult M} (hr : Decided w.accepts h.completions.head? r)
      (r' : PollResult M) (hr' : r' ∈ h.answers ++ [r]) :
      Decided w.accepts h.completions.head? r' := by
    rcases List.mem_append.mp hr' with hr' | hr'
    · exact H.answers r' hr'
    · exact List.mem_singleton.mp hr' ▸ hr
  have hcount {r : PollResult M} (hr : r.consumes = false) :
      (h.answers ++ [r]).countP PollResult.consumes = h.answers.countP PollResult.consumes := by
    simp [List.countP_append, hr]
  cases htime : w.timedOut with
  | true =>
    rw [htime] at htimed
    simp only [Awaiter.poll, hc, htime, if_true]
    refine ⟨⟨by simp [hc], H.completed, by simp [htime], hanswers ?_, ?_, H.awoken⟩, nofun⟩
    · rw [Option.isNone_iff_eq_none.mp htimed.symm] at hfirst
      exact hfirst
    · rw [hcount rfl]
      exact H.once
  | false =>
    rw [htime] at htimed
    obtain ⟨message, rfl⟩ := Option.isSome_iff_exists.mp (Option.isNone_eq_false_iff.mp htimed.symm)
    simp only [Awaiter.poll, hc, htime, if_true, Bool.false_eq_true, if_false]
    cases hw : w.response with
    | none =>
      refine ⟨⟨by simp [hc], H.completed, fun _ _ _ => ?_, hanswers ⟨message, hfirst⟩, ?_,
        H.awoken⟩, nofun⟩
      · obtain ⟨r, hr, hconsumes⟩ := H.kept hc htime hw
        exact ⟨r, List.mem_append_left _ hr, hconsumes⟩
      · rw [hcount rfl]
        exact H.once
    | some response =>
      have hmessage : message = response := Option.some.inj (hresp response hw)
      subst hmessage
      have honce := H.once
      rw [hw] at honce
      have hzero : h.answers.countP PollResult.consumes = 0 := Nat.le_zero.mp
        (Nat.le_of_add_le_add_right honce)
      have hresolved {r : PollResult M} (hr : Decided w.accepts h.completions.head? r)
          (hconsumes : r.consumes = true) : Resolved willWake a waking
            { h with answers := h.answers ++ [r] }
            { w with response := none, completed := true, timedOut := false } := by
        refine ⟨nofun, fun _ => ⟨hreg, some message, hfirst, rfl, nofun⟩,
          fun _ _ _ => ⟨r, by simp, hconsumes⟩, hanswers hr, ?_, H.awoken⟩
        simp [List.countP_append, hzero, hconsumes]
      cases haccepts : w.accepts message with
      | true =>
        simp only [haccepts, if_true]
        exact ⟨hresolved (r := .ok message) ⟨hfirst, haccepts⟩ rfl, nofun⟩
      | false =>
        simp only [haccepts, Bool.false_eq_true, if_false]
        exact ⟨hresolved (r := .responseTypeMismatch) ⟨message, hfirst, haccepts⟩ rfl, nofun⟩

omit [DecidableEq T] in
theorem Resolved.poll_pending (H : Resolved willWake a waking h w) (hc : w.completed = false)
    (v : W) : Resolved willWake a waking
      { h with answers := h.answers ++ [.pending], lastPoll := some v } (w.poll willWake v).1 := by
  obtain ⟨hcompl, htaken, hresp, hans, -⟩ := H.pending hc
  obtain ⟨-, hc', haccepts, hresp', hreg⟩ := Awaiter.poll_pending willWake hc v
  have hpending (r : PollResult M) (hr : r ∈ h.answers ++ [.pending]) : r = .pending := by
    rcases List.mem_append.mp hr with hr | hr
    · exact hans r hr
    · exact List.mem_singleton.mp hr
  refine ⟨fun _ => ⟨hcompl, htaken, hresp'.trans hresp, hpending, hreg⟩, fun h => ?_, fun h => ?_,
    fun r hr => ?_, ?_, H.awoken⟩
  · cases hc'.symm.trans h
  · cases hc'.symm.trans h
  · rw [hpending r hr]
    trivial
  · rw [hresp']
    simpa [List.countP_append, PollResult.consumes] using H.once

/-- Thread `x` wakes the waker that it has taken. -/
theorem Resolved.wake (H : Resolved willWake a waking h w) {x : Option T} {u : W}
    (hx : waking x = some (a, u)) :
    Resolved willWake a (Function.update waking x none)
      { h with woken := h.woken ++ [u] } w := by
  refine ⟨H.pending, H.completed, H.kept, H.answers, H.once, ?_⟩
  have hwoken := H.awoken
  dsimp only
  cases htaken : h.taken with
  | none =>
    rw [htaken] at hwoken
    exact absurd hx (hwoken.2 x u)
  | some v =>
    rw [htaken] at hwoken
    rcases hwoken with ⟨-, hnone⟩ | ⟨hempty, y, hy, honly⟩
    · exact absurd hx (hnone x u)
    · have hxy := honly x u hx
      subst hxy
      cases hx.symm.trans hy
      refine .inl ⟨by rw [hempty, List.nil_append], fun z v hz => ?_⟩
      by_cases hzx : z = x
      · rw [hzx, Function.update_self] at hz
        cases hz
      · rw [Function.update_of_ne hzx] at hz
        exact hzx (honly z v hz)

end

/-! ## The invariant of all asks -/

structure TracedInv (willWake : W → W → Bool) (s : Traced T M W) : Prop where
  fresh : ∀ a, s.ask.allocated ≤ a → s.ask.awaiters a = none
  untouched : ∀ a, s.ask.awaiters a = none → s.history a =
    { completions := [], answers := [], lastPoll := none, taken := none, woken := [] } ∧
    ∀ x u, s.waking x ≠ some (a, u)
  resolved : ∀ a w, s.ask.awaiters a = some w →
    Resolved willWake a s.waking (s.history a) w

section

variable {willWake : W → W → Bool} {s s' : Traced T M W} {u : State T M W}
  {act : Ask.Action T M W}

theorem Traced.note_quiet (willWake : W → W → Bool) (hc : s.ask.completes act = none)
    (hp : ∀ a v, act ≠ .poll a v) : (s.note willWake act).history = s.history ∧
      (s.note willWake act).waking = s.waking := by
  cases act with
  | poll a v => exact absurd rfl (hp a v)
  | call x => simp [note, Action.thread, hc]
  | sweep =>
    unfold note
    simp only [Action.thread, hc]
    split <;> exact ⟨rfl, rfl⟩
  | _ => exact ⟨rfl, rfl⟩

theorem Traced.note_complete {x : Option T} {a : Nat} {response : Option M} {w : Awaiter M W}
    (hx : act.thread = some x) (hc : s.ask.completes act = some (a, response))
    (hw : s.ask.awaiters a = some w) :
    s.note willWake act = s.noteCompletion x a response w := by
  cases act with
  | call y | sweep =>
    simp only [note, hx, hc, hw]
  | _ => cases hx

theorem Traced.note_complete_none {x : Option T} {a : Nat} {response : Option M}
    (hx : act.thread = some x) (hc : s.ask.completes act = some (a, response))
    (hw : s.ask.awaiters a = none) : s.note willWake act = s := by
  cases act with
  | call y | sweep => simp only [note, hx, hc, hw]
  | _ => cases hx

omit [DecidableEq T] in
theorem Traced.not_blocked {x : Option T} (hb : ¬s.blocked act = true) (hx : act.thread = some x) :
    s.waking x = none := by
  simpa [blocked, hx] using hb

omit [DecidableEq T] in
/-- The awaiters are the same ones, up to the references to them. -/
theorem TracedInv.quiet (H : TracedInv willWake s) (hsame : s.ask.SameAwaiters s'.ask)
    (hallocated : s'.ask.allocated = s.ask.allocated) (hhistory : s'.history = s.history)
    (hwaking : s'.waking = s.waking) : TracedInv willWake s' := by
  have hnone {a : Nat} (ha : s'.ask.awaiters a = none) : s.ask.awaiters a = none := by
    have hrel := hsame a
    rw [ha] at hrel
    cases hs : s.ask.awaiters a with
    | none => rfl
    | some w =>
      rw [hs] at hrel
      cases hrel
  refine ⟨fun a ha => ?_, fun a ha => ?_, fun a w hw => ?_⟩
  · have hrel := hsame a
    rw [H.fresh a (hallocated ▸ ha)] at hrel
    cases hs : s'.ask.awaiters a with
    | none => rfl
    | some w =>
      rw [hs] at hrel
      cases hrel
  · rw [hhistory, hwaking]
    exact H.untouched a (hnone ha)
  · have hrel := hsame a
    rw [hw] at hrel
    rw [hhistory, hwaking]
    cases hs : s.ask.awaiters a with
    | none =>
      rw [hs] at hrel
      cases hrel
    | some v =>
      rw [hs] at hrel
      cases hrel with
      | some hrel => exact (H.resolved a v hs).congr (fun _ _ => .rfl) hrel

omit [DecidableEq T] in
/-- One awaiter changes, with its history; the threads that wake others go on doing so. -/
theorem TracedInv.update (H : TracedInv willWake s) {a : Nat} {w w' : Awaiter M W}
    {h : History M W} (hw : s.ask.awaiters a = some w)
    (hawaiters : s'.ask.awaiters = Function.update s.ask.awaiters a (some w'))
    (hallocated : s'.ask.allocated = s.ask.allocated)
    (hhistory : s'.history = Function.update s.history a h)
    (hwaking : ∀ b, b ≠ a → ∀ x u, s'.waking x = some (b, u) ↔ s.waking x = some (b, u))
    (hself : Resolved willWake a s'.waking h w') : TracedInv willWake s' := by
  have hne {b : Nat} (hb : s'.ask.awaiters b = none) : b ≠ a := by
    rintro rfl
    rw [hawaiters, Function.update_self] at hb
    cases hb
  refine ⟨fun b hb => ?_, fun b hb => ?_, fun b v hv => ?_⟩
  · have hnone := H.fresh b (hallocated ▸ hb)
    have hba : b ≠ a := by
      rintro rfl
      cases hnone.symm.trans hw
    rw [hawaiters, Function.update_of_ne hba]
    exact hnone
  · have hba := hne hb
    rw [hawaiters, Function.update_of_ne hba] at hb
    rw [hhistory, Function.update_of_ne hba]
    obtain ⟨hempty, hwak⟩ := H.untouched b hb
    exact ⟨hempty, fun x u hx => hwak x u ((hwaking b hba x u).mp hx)⟩
  · by_cases hba : b = a
    · subst hba
      rw [hawaiters, Function.update_self] at hv
      cases hv
      rw [hhistory, Function.update_self]
      exact hself
    · rw [hawaiters, Function.update_of_ne hba] at hv
      rw [hhistory, Function.update_of_ne hba]
      exact (H.resolved b v hv).congr (hwaking b hba) (.refl v)

theorem TracedInv.ask (H : TracedInv willWake s) (hb : ¬s.blocked act = true)
    (hs : Ask.step willWake s.ask act = some u) :
    TracedInv willWake { s.note willWake act with ask := u } := by
  cases step_touch hs with
  | quiet hsame hallocated hc hp =>
    obtain ⟨hhistory, hwaking⟩ := Traced.note_quiet willWake hc hp
    exact H.quiet hsame hallocated hhistory hwaking
  | register address deadline accepts hawaiters hallocated hc hp =>
    obtain ⟨hhistory, hwaking⟩ := Traced.note_quiet willWake hc hp
    obtain ⟨hempty, hnone⟩ := H.untouched _ (H.fresh _ (Nat.le_refl _))
    refine ⟨fun a ha => ?_, fun a ha => ?_, fun a w hw => ?_⟩
    · dsimp only at ha ⊢
      rw [hallocated] at ha
      rw [hawaiters, Function.update_of_ne (by omega)]
      exact H.fresh a (by omega)
    · dsimp only at ha ⊢
      rw [hhistory, hwaking]
      have hne : a ≠ s.ask.allocated := by
        rintro rfl
        rw [hawaiters, Function.update_self] at ha
        cases ha
      rw [hawaiters, Function.update_of_ne hne] at ha
      exact H.untouched a ha
    · dsimp only at hw ⊢
      rw [hhistory, hwaking]
      by_cases ha : a = s.ask.allocated
      · subst ha
        rw [hawaiters, Function.update_self] at hw
        cases hw
        rw [hempty]
        exact .fresh hnone
      · rw [hawaiters, Function.update_of_ne ha] at hw
        exact H.resolved a w hw
  | complete x a response hx hc hawaiters hallocated =>
    cases hw : s.ask.awaiters a with
    | none =>
      rw [hw, Option.map_none, ← hw, Function.update_eq_self] at hawaiters
      rw [Traced.note_complete_none hx hc hw]
      exact H.quiet (.of_eq hawaiters) hallocated rfl rfl
    | some w =>
      rw [hw, Option.map_some] at hawaiters
      rw [Traced.note_complete hx hc hw]
      refine H.update hw hawaiters hallocated rfl (fun b hba y u => ?_)
        ((H.resolved a w hw).complete x response)
      simp only [Traced.noteCompletion]
      split
      · rfl
      · by_cases hyx : y = x
        · rw [hyx, Function.update_self, Traced.not_blocked hb hx]
          cases w.waker with
          | none => rfl
          | some v => simp [Ne.symm hba]
        · rw [Function.update_of_ne hyx]
  | poll a v w hact hw hawaiters hallocated =>
    subst hact
    have hres := H.resolved a w hw
    simp only [Traced.note, hw]
    cases hc : w.completed with
    | true =>
      obtain ⟨hself, hne⟩ := hres.poll_completed hc v
      refine H.update hw hawaiters hallocated rfl (fun _ _ _ _ => .rfl) ?_
      split
      · exact absurd ‹_› hne
      · exact hself
    | false =>
      have hself := hres.poll_pending hc v
      refine H.update hw hawaiters hallocated rfl (fun _ _ _ _ => .rfl) ?_
      rw [(Awaiter.poll_pending willWake hc v).1]
      exact hself

theorem TracedInv.wake (H : TracedInv willWake s) {x : Option T} {a : Nat} {v : W}
    (hx : s.waking x = some (a, v)) :
    TracedInv willWake { s with
      history := Function.update s.history a
        { s.history a with woken := (s.history a).woken ++ [v] }
      waking := Function.update s.waking x none } := by
  cases hw : s.ask.awaiters a with
  | none => exact absurd hx ((H.untouched a hw).2 x v)
  | some w =>
    refine H.update hw (Function.update_eq_self_iff.mpr hw.symm).symm rfl rfl (fun b hba y u => ?_)
      ((H.resolved a w hw).wake hx)
    by_cases hyx : y = x
    · simp [hyx, hx, Ne.symm hba]
    · simp [hyx]

theorem TracedInv.step {act : Traced.Action T M W} (H : TracedInv willWake s)
    (h : Traced.step willWake s act = some s') : TracedInv willWake s' := by
  cases act with
  | ask act =>
    simp only [Traced.step] at h
    split at h
    · cases h
    · obtain ⟨u, hu, rfl⟩ := Option.map_eq_some_iff.mp h
      exact H.ask ‹_› hu
  | wake x =>
    obtain ⟨⟨a, v⟩, hx, rfl⟩ := Option.map_eq_some_iff.mp h
    exact H.wake hx

omit [DecidableEq T] in
theorem start_tracedInv {slotCountHint : Nat} :
    TracedInv willWake (Traced.start (new T M W slotCountHint)) where
  fresh _ _ := rfl
  untouched _ _ := ⟨rfl, nofun⟩
  resolved := nofun

theorem tracedInv_of_reach {slotCountHint : Nat}
    (h : Reach (trace T M W willWake slotCountHint) Machine.free s) : TracedInv willWake s :=
  h.inv (TracedInv willWake)
    (fun hinit => by
      obtain ⟨hask, hs⟩ := hinit
      rw [hs, show Traced.ask _ = _ from hask]
      exact start_tracedInv)
    fun H _ hs => H.step hs

end

end DignusActor.Ask
