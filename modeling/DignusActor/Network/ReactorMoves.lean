import DignusActor.Network.Reactor

/-! # The steps of the reactors

What a step of a reactor can do, said once (`WorkerMove`), and what it keeps of every worker: who
has the listener, which tokens can come out of the pending lists, and that `close_all` has the
tokens of all connections (`Worker.Follows`). -/

namespace DignusActor.Reactor

variable {T : Type} {s s' : State T} {w : Nat}

/-! ## The steps of a reactor -/

/-- The streams that `take_incoming` has yet to register. -/
def WorkerPc.streams : WorkerPc → List Nat
  | .incoming streams => streams
  | _ => []

/-- The tokens that a worker has taken from its pending lists. -/
def WorkerPc.tokens : WorkerPc → List Nat
  | .flushing tokens | .closing tokens => tokens
  | .flushClose token tokens => token :: tokens
  | _ => []

/-- What `close_all` relies on, and what it comes to. -/
def WorkerPc.Closes : WorkerPc → (AList fun _ : Nat => Nat) → Prop
  | .closingAll tokens, connections => ∀ token ∈ connections, token ∈ tokens
  | .returnedOk, connections => ∀ token, token ∉ connections
  | _, _ => True

/-- A reactor goes from `pc` on to `pc'`, with `connections` before and `connections'` after. -/
structure WorkerPc.Goes (pc pc' : WorkerPc) (connections connections' : AList fun _ : Nat => Nat) :
    Prop where
  streams : pc.streams = []
  streams' : pc'.streams = []
  tokens : ∀ token ∈ pc'.tokens, token ∈ pc.tokens
  closes : pc.Closes connections → pc'.Closes connections'

/-- What a step of a reactor does. -/
inductive WorkerMove (overflowChecks : Bool) (s : State T) (w : Nat) (outcome : Outcome) :
    State T → Prop
  | stay : WorkerMove overflowChecks s w outcome s
  | go (events : List Event) (pc : WorkerPc) :
    (s.workers w).pc.Goes pc (s.workers w).connections (s.workers w).connections →
    WorkerMove overflowChecks s w outcome (s.setWorker w { s.workers w with events, pc })
  | panic : WorkerMove overflowChecks s w outcome (s.goto w .panicked)
  | issue (next : Nat) : outcome = .accepted → (s.workers w).pc = .accept →
    (s.workers w).listener = true →
    increment overflowChecks (s.workers w).nextSessionId = some next →
    WorkerMove overflowChecks s w outcome (s.acceptStream w next)
  | takeIncoming : (s.workers w).pc = .takeIncoming →
    WorkerMove overflowChecks s w outcome
      (s.setWorker w { s.workers w with incoming := [], pc := .incoming (s.workers w).incoming })
  | register (id : Nat) (streams : List Nat) (next : Nat) (ok : Bool) :
    outcome = .registered ok → (s.workers w).pc = .incoming (id :: streams) →
    increment overflowChecks (s.workers w).nextToken = some next →
    WorkerMove overflowChecks s w outcome
      (let s' := s.setWorker w { s.workers w with nextToken := next, pc := .incoming streams }
      if ok then s'.addSession w id (s.workers w).nextToken else s')
  | takeWrites : (s.workers w).pc = .flushPending →
    WorkerMove overflowChecks s w outcome (s.setWorker w
      { s.workers w with pendingWrites := [], pc := .flushing (s.workers w).pendingWrites })
  | takeCloses : (s.workers w).pc = .closePending →
    WorkerMove overflowChecks s w outcome (s.setWorker w
      { s.workers w with pendingCloses := [], pc := .closing (s.workers w).pendingCloses })
  | write (n count : Nat) (pc : WorkerPc) :
    (s.workers w).pc.Goes pc (s.workers w).connections (s.workers w).connections →
    WorkerMove overflowChecks s w outcome ((s.write n count).goto w pc)
  | data (token n : Nat) (data : List UInt8) (pc : WorkerPc) :
    (s.workers w).connections.lookup token = some n →
    (s.workers w).pc.Goes pc (s.workers w).connections (s.workers w).connections →
    WorkerMove overflowChecks s w outcome ((s.onData w (s.sessionId n) data).goto w pc)
  | close (token : Nat) (pc : WorkerPc) :
    (s.workers w).pc.Goes pc (s.workers w).connections ((s.workers w).connections.erase token) →
    WorkerMove overflowChecks s w outcome ((s.close w token).goto w pc)

theorem State.flush_move {overflowChecks : Bool} {token : Nat} {outcome : Outcome}
    {closed next : WorkerPc} (h : s.flush w token outcome closed next = some s')
    (hclosed : (s.workers w).pc.Goes closed (s.workers w).connections (s.workers w).connections)
    (hnext : (s.workers w).pc.Goes next (s.workers w).connections (s.workers w).connections) :
    WorkerMove overflowChecks s w outcome s' := by
  unfold State.flush at h
  cases hlookup : (s.workers w).connections.lookup token with
  | none =>
    cases outcome <;> simp only [hlookup, Option.some.injEq, reduceCtorEq] at h
    subst h
    exact .go _ next hnext
  | some n =>
    cases outcome with
    | written count isClosed =>
      simp only [hlookup] at h
      split at h <;> cases h
      refine .write n count _ ?_
      cases isClosed
      · exact hnext
      · exact hclosed
    | _ => simp only [hlookup, reduceCtorEq] at h

/-- A reactor outside `take_incoming` and `close_all` goes on. -/
theorem WorkerPc.Goes.of_trivial {pc pc' : WorkerPc}
    {connections connections' : AList fun _ : Nat => Nat} (hpc : pc.streams = [])
    (hpc' : pc'.streams = []) (htokens : ∀ token ∈ pc'.tokens, token ∈ pc.tokens)
    (hcloses : pc'.Closes connections') : pc.Goes pc' connections connections' :=
  ⟨hpc, hpc', htokens, fun _ => hcloses⟩

theorem Event.dispatch_streams (event : Event) : event.dispatch.streams = [] := by
  unfold Event.dispatch
  repeat' split
  all_goals rfl

theorem Event.dispatch_tokens (event : Event) : event.dispatch.tokens = [] := by
  unfold Event.dispatch
  repeat' split
  all_goals rfl

theorem Event.dispatch_closes (event : Event) (connections : AList fun _ : Nat => Nat) :
    event.dispatch.Closes connections := by
  unfold Event.dispatch
  repeat' split
  all_goals trivial

theorem workerStep_move {overflowChecks : Bool} {outcome : Outcome}
    (h : workerStep overflowChecks s w outcome = some s') :
    WorkerMove overflowChecks s w outcome s' := by
  simp only [workerStep] at h
  have hgo {pc pc' : WorkerPc} (hpc : (s.workers w).pc = pc) (hs : pc.streams = [])
      (hs' : pc'.streams = []) (ht : ∀ token ∈ pc'.tokens, token ∈ pc.tokens)
      (hc : ∀ connections, pc'.Closes connections) :
      (s.workers w).pc.Goes pc' (s.workers w).connections (s.workers w).connections :=
    .of_trivial (hpc ▸ hs) hs' (hpc ▸ ht) (hc _)
  have hread (token : Nat) (writable : Bool) (pc : WorkerPc) (hpc : (s.workers w).pc = pc)
      (hs : pc.streams = []) : (s.workers w).pc.Goes (afterRead token writable)
        (s.workers w).connections (s.workers w).connections := by
    cases writable
    · exact hgo hpc hs rfl (by simp [afterRead, WorkerPc.tokens]) fun _ => trivial
    · exact hgo hpc hs rfl (by simp [afterRead, WorkerPc.tokens]) fun _ => trivial
  cases hpc : (s.workers w).pc with
  | poll =>
    cases outcome <;> simp only [hpc, Option.some.injEq, reduceCtorEq] at h
    · subst h
      exact .go _ _ (hgo hpc rfl rfl (by simp [WorkerPc.tokens]) fun _ => trivial)
    · subst h
      exact .go _ _ (hgo hpc rfl rfl (by simp [WorkerPc.tokens]) fun _ => trivial)
  | event =>
    cases outcome <;> simp only [hpc, reduceCtorEq] at h
    split at h <;> cases h
    · exact .go _ _ (hgo hpc rfl rfl (by simp [WorkerPc.tokens]) fun _ => trivial)
    · rename_i event events _
      exact .go _ _ (hgo hpc rfl event.dispatch_streams (by simp [event.dispatch_tokens])
        event.dispatch_closes)
  | accept =>
    simp only [hpc] at h
    split at h
    · rename_i hl
      cases outcome <;> simp only [Option.some.injEq, reduceCtorEq] at h
      · split at h <;> cases h
        · exact .panic
        · exact .issue _ rfl hpc hl ‹_›
      · subst h
        exact .go _ _ (hgo hpc rfl rfl (by simp [WorkerPc.tokens]) fun _ => trivial)
      · exact h ▸ .stay
      · subst h
        exact .go _ _ (hgo hpc rfl rfl (by simp [WorkerPc.tokens]) fun _ => trivial)
    · split at h <;> cases h
      exact .go _ _ (hgo hpc rfl rfl (by simp [WorkerPc.tokens]) fun _ => trivial)
  | waker =>
    cases outcome <;> simp only [hpc, Option.some.injEq, reduceCtorEq] at h
    subst h
    split
    · exact .go _ _ (hgo hpc rfl rfl (by simp [WorkerPc.tokens]) fun _ => trivial)
    · exact .go _ _ (hgo hpc rfl rfl (by simp [WorkerPc.tokens]) fun _ => trivial)
  | takeIncoming =>
    cases outcome <;> simp only [hpc, Option.some.injEq, reduceCtorEq] at h
    exact h ▸ .takeIncoming hpc
  | incoming streams =>
    cases streams with
    | nil =>
      cases outcome <;> simp only [hpc, Option.some.injEq, reduceCtorEq] at h
      subst h
      exact .go _ _ (hgo hpc rfl rfl (by simp [WorkerPc.tokens]) fun _ => trivial)
    | cons id streams =>
      cases outcome <;> simp only [hpc, reduceCtorEq] at h
      split at h <;> cases h
      · exact .panic
      · exact .register id streams _ _ rfl hpc ‹_›
  | flushPending =>
    cases outcome <;> simp only [hpc, Option.some.injEq, reduceCtorEq] at h
    exact h ▸ .takeWrites hpc
  | flushing tokens =>
    cases tokens with
    | nil =>
      cases outcome <;> simp only [hpc, Option.some.injEq, reduceCtorEq] at h
      subst h
      exact .go _ _ (hgo hpc rfl rfl (by simp [WorkerPc.tokens]) fun _ => trivial)
    | cons token tokens =>
      simp only [hpc] at h
      exact State.flush_move h (hgo hpc rfl rfl (fun _ => id) fun _ => trivial)
        (hgo hpc rfl rfl (fun _ => List.mem_cons_of_mem token) fun _ => trivial)
  | flushClose token tokens =>
    cases outcome <;> simp only [hpc, Option.some.injEq, reduceCtorEq] at h
    subst h
    refine .close token _ (.of_trivial (hpc ▸ rfl) rfl ?_ trivial)
    rw [hpc]
    exact fun _ => List.mem_cons_of_mem token
  | closePending =>
    cases outcome <;> simp only [hpc, Option.some.injEq, reduceCtorEq] at h
    exact h ▸ .takeCloses hpc
  | closing tokens =>
    cases tokens with
    | nil =>
      cases outcome <;> simp only [hpc, Option.some.injEq, reduceCtorEq] at h
      subst h
      exact .go _ _ (hgo hpc rfl rfl (by simp [WorkerPc.tokens]) fun _ => trivial)
    | cons token tokens =>
      cases outcome <;> simp only [hpc, Option.some.injEq, reduceCtorEq] at h
      subst h
      refine .close token _ (.of_trivial (hpc ▸ rfl) rfl ?_ trivial)
      rw [hpc]
      exact fun _ => List.mem_cons_of_mem token
  | read token writable =>
    simp only [hpc] at h
    cases hlookup : (s.workers w).connections.lookup token with
    | none =>
      cases outcome <;> simp only [hlookup, Option.some.injEq, reduceCtorEq] at h
      subst h
      exact .go _ _ (hread token writable _ hpc rfl)
    | some n =>
      cases outcome with
      | read data closed =>
        simp only [hlookup, Option.some.injEq] at h
        subst h
        have hnext : (s.workers w).pc.Goes
            (if closed then .handleClose token else .readFlush token writable)
            (s.workers w).connections (s.workers w).connections := by
          cases closed
          · exact hgo hpc rfl rfl (by simp [WorkerPc.tokens]) fun _ => trivial
          · exact hgo hpc rfl rfl (by simp [WorkerPc.tokens]) fun _ => trivial
        split
        · exact .go _ _ hnext
        · exact .data token n data _ hlookup hnext
      | _ => simp only [hlookup, reduceCtorEq] at h
  | readFlush token writable =>
    simp only [hpc] at h
    exact State.flush_move h (hgo hpc rfl rfl (by simp [WorkerPc.tokens]) fun _ => trivial)
      (hread token writable _ hpc rfl)
  | writableFlush token =>
    simp only [hpc] at h
    exact State.flush_move h (hgo hpc rfl rfl (by simp [WorkerPc.tokens]) fun _ => trivial)
      (hgo hpc rfl rfl (by simp [WorkerPc.tokens]) fun _ => trivial)
  | handleClose token =>
    cases outcome <;> simp only [hpc, Option.some.injEq, reduceCtorEq] at h
    subst h
    exact .close token _ (.of_trivial (hpc ▸ rfl) rfl (by simp [WorkerPc.tokens]) trivial)
  | closeAll =>
    cases outcome <;> simp only [hpc, reduceCtorEq] at h
    split at h <;> cases h
    rename_i tokens hperm
    refine .go _ _ (.of_trivial (hpc ▸ rfl) rfl (by simp [WorkerPc.tokens]) fun token ht => ?_)
    exact (List.isPerm_iff.mp hperm).mem_iff.mpr ht
  | closingAll tokens =>
    cases tokens with
    | nil =>
      cases outcome <;> simp only [hpc, Option.some.injEq, reduceCtorEq] at h
      subst h
      refine .go _ _ ⟨hpc ▸ rfl, rfl, by simp [WorkerPc.tokens], fun hc token ht => ?_⟩
      rw [hpc] at hc
      exact absurd (hc token ht) List.not_mem_nil
    | cons token tokens =>
      cases outcome <;> simp only [hpc, Option.some.injEq, reduceCtorEq] at h
      subst h
      refine .close token _ ⟨hpc ▸ rfl, rfl, by simp [WorkerPc.tokens], fun hc t ht => ?_⟩
      rw [hpc] at hc
      obtain ⟨hne, ht⟩ := AList.mem_erase.mp ht
      exact (List.mem_cons.mp (hc t ht)).resolve_left hne
  | returnedOk | returnedErr | panicked => simp [hpc] at h

/-! ## The pending lists and `close_all` -/

/-- The tokens in the pending lists of a worker, and those it has taken from them. -/
def Worker.queued (worker : Worker) : List Nat :=
  worker.pendingWrites ++ worker.pendingCloses ++ worker.pc.tokens

/-- What a step of a reactor keeps of a worker. -/
structure Worker.Follows (a b : Worker) : Prop where
  listener : b.listener = a.listener
  queued : ∀ token ∈ b.queued, token ∈ a.queued
  closes : a.pc.Closes a.connections → b.pc.Closes b.connections

theorem Worker.Follows.refl (a : Worker) : a.Follows a := ⟨rfl, fun _ => id, id⟩

theorem Worker.Follows.trans {a b c : Worker} (h : a.Follows b) (h' : b.Follows c) : a.Follows c :=
  ⟨h'.listener.trans h.listener, fun token ht => h.queued token (h'.queued token ht),
    fun hc => h'.closes (h.closes hc)⟩

theorem State.setWorker_follows {worker : Worker} (h : (s.workers w).Follows worker) (v : Nat) :
    (s.workers v).Follows ((s.setWorker w worker).workers v) := by
  by_cases hv : v = w
  · subst hv
    simpa [State.setWorker] using h
  · simpa [State.setWorker, hv] using Worker.Follows.refl (s.workers v)

theorem WorkerPc.Closes.anti {pc : WorkerPc} {connections connections' : AList fun _ : Nat => Nat}
    (h : pc.Closes connections) (hsub : ∀ token ∈ connections', token ∈ connections) :
    pc.Closes connections' := by
  cases pc with
  | closingAll tokens => exact fun token ht => h token (hsub token ht)
  | returnedOk => exact fun token ht => h token (hsub token ht)
  | _ => trivial

/-- A reactor goes on. -/
theorem WorkerPc.Goes.follows {worker : Worker} {pc : WorkerPc} {events : List Event}
    {connections : AList fun _ : Nat => Nat} {calls : List Call}
    (h : worker.pc.Goes pc worker.connections connections) :
    worker.Follows { worker with events, pc, connections, calls } := by
  refine ⟨rfl, fun token ht => ?_, h.closes⟩
  rcases List.mem_append.mp ht with ht | ht
  · exact List.mem_append_left _ ht
  · exact List.mem_append_right _ (h.tokens token ht)

theorem State.close_of_none {token : Nat}
    (h : (s.workers w).connections.lookup token = none) : s.close w token = s := by
  simp only [State.close, h]

theorem WorkerMove.follows {overflowChecks : Bool} {outcome : Outcome}
    (h : WorkerMove overflowChecks s w outcome s') (v : Nat) :
    (s.workers v).Follows (s'.workers v) := by
  cases h with
  | stay => exact .refl _
  | go events pc hgoes => exact State.setWorker_follows hgoes.follows v
  | panic =>
    refine State.setWorker_follows ?_ v
    refine ⟨rfl, fun token ht => ?_, fun _ => trivial⟩
    simp only [Worker.queued, WorkerPc.tokens, List.append_nil] at ht
    exact List.mem_append_left _ ht
  | issue next _ hpc hl hnext =>
    refine .trans ?_ (State.setWorker_follows ?_ v)
    · refine State.setWorker_follows ?_ v
      exact ⟨rfl, fun _ => id, id⟩
    · exact ⟨rfl, fun _ => id, id⟩
  | takeIncoming hpc =>
    refine State.setWorker_follows ?_ v
    refine ⟨rfl, fun token ht => ?_, fun _ => trivial⟩
    simpa [Worker.queued, WorkerPc.tokens, hpc] using ht
  | register stream streams next ok _ hpc hnext =>
    have hfirst : (s.workers w).Follows
        { s.workers w with nextToken := next, pc := .incoming streams } := by
      refine ⟨rfl, fun token ht => ?_, fun _ => trivial⟩
      simpa [Worker.queued, WorkerPc.tokens, hpc] using ht
    cases ok with
    | false => exact State.setWorker_follows hfirst v
    | true =>
      refine .trans (State.setWorker_follows hfirst v) (State.setWorker_follows ?_ v)
      refine ⟨rfl, fun _ => id, fun _ => ?_⟩
      simp only [State.setWorker, Function.update_self]
      trivial
  | takeWrites hpc =>
    refine State.setWorker_follows ?_ v
    refine ⟨rfl, fun token ht => ?_, fun _ => trivial⟩
    simp only [Worker.queued, WorkerPc.tokens, hpc, List.nil_append, List.append_nil] at ht ⊢
    exact List.mem_append.mpr (List.mem_append.mp ht).symm
  | takeCloses hpc =>
    refine State.setWorker_follows ?_ v
    refine ⟨rfl, fun token ht => ?_, fun _ => trivial⟩
    simpa [Worker.queued, WorkerPc.tokens, hpc] using ht
  | write n count pc hgoes => exact State.setWorker_follows hgoes.follows v
  | data token n data pc hlookup hgoes =>
    have hworkers : ((s.onData w (s.sessionId n) data).goto w pc).workers = (s.setWorker w
        { s.workers w with
          calls := (s.workers w).calls ++ [.onData (s.sessionId n) data]
          pc }).workers := by
      simp only [State.onData, State.goto, State.setWorker, Function.update_idem,
        Function.update_self]
    rw [hworkers]
    exact State.setWorker_follows hgoes.follows v
  | close token pc hgoes =>
    cases hlookup : (s.workers w).connections.lookup token with
    | none =>
      have hnot : token ∉ (s.workers w).connections := AList.lookup_eq_none.mp hlookup
      have hgoes' : (s.workers w).pc.Goes pc (s.workers w).connections
          (s.workers w).connections := by
        refine ⟨hgoes.streams, hgoes.streams', hgoes.tokens, fun hc => ?_⟩
        refine (hgoes.closes hc).anti fun t ht => AList.mem_erase.mpr ⟨?_, ht⟩
        rintro rfl
        exact hnot ht
      rw [State.close_of_none hlookup]
      exact State.setWorker_follows hgoes'.follows v
    | some n =>
      have hworkers : ((s.close w token).goto w pc).workers = (s.setWorker w { s.workers w with
          connections := (s.workers w).connections.erase token
          calls := (s.workers w).calls ++ [.onDisconnected (s.sessionId n)]
          pc }).workers := by
        simp only [State.close, hlookup, State.goto, State.setWorker, State.setCells,
          Function.update_idem, Function.update_self]
      rw [hworkers]
      exact State.setWorker_follows hgoes.follows v

theorem State.close_sessions (token : Nat) : (s.close w token).sessions = s.sessions := by
  simp only [State.close]
  split <;> rfl

theorem WorkerMove.sessions {overflowChecks : Bool} {outcome : Outcome}
    (h : WorkerMove overflowChecks s w outcome s') :
    s.sessions <+: s'.sessions := by
  cases h with
  | register id streams next ok =>
    cases ok with
    | false => exact List.prefix_refl _
    | true => exact List.prefix_append ..
  | close token pc =>
    have heq : ((s.close w token).goto w pc).sessions = s.sessions := State.close_sessions token
    exact heq ▸ List.prefix_refl _
  | _ => exact List.prefix_refl _

end DignusActor.Reactor
