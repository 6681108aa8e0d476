import DignusActor.Network.Callbacks

/-! # What a step of a reactor does to the output

Which steps write to a transport (`WorkerPc.flushes`) and where they leave the reactor
(`workerStep_flush`), what a `send` appends (`callerStep_output`), and that a token in
`pending_writes` stays with the reactor until it is flushed (`workerStep_queued`). -/

namespace DignusActor.Reactor

variable {T : Type}

/-- The token that the next step of a reactor flushes. -/
def WorkerPc.flushes : WorkerPc → Option Nat
  | .flushing (token :: _) | .readFlush token _ | .writableFlush token => some token
  | _ => none

/-- The session whose transport the next step of a reactor writes to. -/
def State.writesTo (s : State T) (w : Nat) : Option Nat :=
  (s.workers w).pc.flushes.bind (s.workers w).connections.lookup

/-- Where a flush leaves the reactor. -/
def WorkerPc.flushed : WorkerPc → (closed : Bool) → WorkerPc
  | .flushing (token :: tokens), closed =>
    if closed then .flushClose token tokens else .flushing tokens
  | .readFlush token writable, closed =>
    if closed then .handleClose token else afterRead token writable
  | .writableFlush token, closed => if closed then .handleClose token else .event
  | pc, _ => pc

/-- The tokens that `flush_pending` has yet to flush. -/
def WorkerPc.toFlush : WorkerPc → List Nat
  | .flushing tokens | .flushClose _ tokens => tokens
  | _ => []

/-- The reactor has yet to flush the token. -/
def Worker.Queued (worker : Worker) (token : Nat) : Prop :=
  token ∈ worker.pendingWrites ∨ token ∈ worker.pc.toFlush

section

variable {s s' : State T} {w : Nat} {overflowChecks : Bool} {outcome : Outcome}

/-- A reactor takes no token out of `pending_writes` and admits nothing. -/
structure Worker.Keeps (a b : Worker) : Prop where
  connections : ∀ token n, b.connections.lookup token = some n →
    a.connections.lookup token = some n
  pendingWrites : b.pendingWrites = a.pendingWrites

theorem Worker.Keeps.refl (a : Worker) : a.Keeps a := ⟨fun _ _ => id, rfl⟩

theorem Worker.Keeps.trans {a b c : Worker} (h : a.Keeps b) (h' : b.Keeps c) : a.Keeps c :=
  ⟨fun token n hn => h.connections token n (h'.connections token n hn),
    h'.pendingWrites.trans h.pendingWrites⟩

theorem State.setWorker_keeps {worker : Worker} (h : (s.workers w).Keeps worker) (v : Nat) :
    (s.workers v).Keeps ((s.setWorker w worker).workers v) := by
  by_cases hv : v = w
  · subst hv
    simpa [State.setWorker] using h
  · simpa [State.setWorker, hv] using Worker.Keeps.refl (s.workers v)

theorem State.goto_keeps (s : State T) (w : Nat) (pc : WorkerPc) (v : Nat) :
    (s.workers v).Keeps ((s.goto w pc).workers v) := by
  refine State.setWorker_keeps ?_ v
  exact ⟨fun _ _ => id, rfl⟩

theorem State.close_keeps (s : State T) (w token v : Nat) :
    (s.workers v).Keeps ((s.close w token).workers v) := by
  unfold State.close
  dsimp only
  split
  · exact .refl _
  · refine State.setWorker_keeps (s := s) ?_ v
    refine ⟨fun t n h => ?_, rfl⟩
    by_cases ht : t = token
    · rw [ht, AList.lookup_erase] at h
      cases h
    · rwa [AList.lookup_erase_ne ht] at h

theorem WorkerMove.keeps (h : WorkerMove overflowChecks s w outcome s')
    (htake : (s.workers w).pc ≠ .flushPending)
    (hincoming : ∀ id streams, (s.workers w).pc ≠ .incoming (id :: streams)) (v : Nat) :
    (s.workers v).Keeps (s'.workers v) := by
  cases h with
  | stay => exact .refl _
  | go | takeIncoming | takeCloses =>
    refine State.setWorker_keeps ?_ v
    exact ⟨fun _ _ => id, rfl⟩
  | panic => exact s.goto_keeps w _ v
  | issue next =>
    refine .trans (State.setWorker_keeps ?_ v) (State.setWorker_keeps ?_ v) <;>
      exact ⟨fun _ _ => id, rfl⟩
  | register id streams next ok _ hpc => exact absurd hpc (hincoming id streams)
  | takeWrites hpc => exact absurd hpc htake
  | write n count pc => exact State.goto_keeps (s.write n count) w pc v
  | data token n data pc =>
    refine .trans (State.setWorker_keeps ?_ v) (State.goto_keeps _ w pc v)
    exact ⟨fun _ _ => id, rfl⟩
  | close token pc => exact (s.close_keeps w token v).trans (State.goto_keeps _ w pc v)

/-- A connection of a reactor was there before the step, or is the one that it admits. -/
theorem workerStep_connections (h : workerStep overflowChecks s w outcome = some s')
    {v token n : Nat} (hn : (s'.workers v).connections.lookup token = some n) :
    (s.workers v).connections.lookup token = some n ∨
      n = s.sessions.length ∧ ∃ id, s'.sessions[n]? = some ⟨id, token, v⟩ := by
  by_cases htake : (s.workers w).pc = .flushPending
  · cases outcome <;> simp only [workerStep, htake, Option.some.injEq, reduceCtorEq] at h
    subst h
    left
    by_cases hv : v = w
    · subst hv
      simpa [State.setWorker] using hn
    · simpa [State.setWorker, hv] using hn
  by_cases hincoming : ∃ id streams, (s.workers w).pc = .incoming (id :: streams)
  · obtain ⟨id, streams, hpc⟩ := hincoming
    cases outcome <;> simp only [workerStep, hpc, reduceCtorEq] at h
    split at h <;> cases h
    · exact .inl ((s.goto_keeps w _ v).connections token n hn)
    · rename_i ok _ next _
      have hset (t : Nat) : ((s.setWorker w { s.workers w with
          nextToken := next, pc := .incoming streams }).workers v).connections.lookup t =
          (s.workers v).connections.lookup t := by
        by_cases hv : v = w
        · subst hv
          simp [State.setWorker]
        · simp [State.setWorker, hv]
      cases ok with
      | false => exact .inl ((hset token).symm.trans hn)
      | true =>
        simp only [if_true, State.addSession] at hn ⊢
        by_cases hv : v = w
        · subst hv
          simp only [State.setWorker, Function.update_self] at hn
          by_cases ht : token = (s.workers v).nextToken
          · subst ht
            rw [AList.lookup_insert] at hn
            cases hn
            exact .inr ⟨rfl, id, by simp [State.setWorker]⟩
          · rw [AList.lookup_insert_ne ht] at hn
            exact .inl hn
        · simp only [State.setWorker, Function.update_of_ne hv] at hn
          exact .inl hn
  · exact .inl (((workerStep_move h).keeps htake
      (fun id streams hpc => hincoming ⟨id, streams, hpc⟩) v).connections token n hn)

/-- A step that flushes. -/
theorem workerStep_flush (h : workerStep overflowChecks s w outcome = some s') {token : Nat}
    (hf : (s.workers w).pc.flushes = some token) :
    (s.workers w).connections.lookup token = none ∧
        s' = s.goto w ((s.workers w).pc.flushed false) ∨
      ∃ n count closed, (s.workers w).connections.lookup token = some n ∧
        outcome = .written count closed ∧ count ≤ (s.cells n).outbound.pendingLen ∧
        s' = (s.write n count).goto w ((s.workers w).pc.flushed closed) := by
  have hflush {closedPc next : WorkerPc}
      (h : s.flush w token outcome closedPc next = some s') :
      (s.workers w).connections.lookup token = none ∧ s' = s.goto w next ∨
        ∃ n count closed, (s.workers w).connections.lookup token = some n ∧
          outcome = .written count closed ∧ count ≤ (s.cells n).outbound.pendingLen ∧
          s' = (s.write n count).goto w (if closed then closedPc else next) := by
    unfold State.flush at h
    split at h
    · cases h
      exact .inl ⟨‹_›, rfl⟩
    · split at h <;> cases h
      exact .inr ⟨_, _, _, ‹_›, rfl, ‹_›, rfl⟩
    · cases h
  cases hpc : (s.workers w).pc with
  | flushing tokens =>
    rw [hpc] at hf
    cases tokens with
    | nil => cases hf
    | cons first tokens =>
      cases hf
      simp only [workerStep, hpc] at h
      exact hflush h
  | readFlush first writable | writableFlush first =>
    rw [hpc] at hf
    cases hf
    simp only [workerStep, hpc] at h
    exact hflush h
  | _ =>
    rw [hpc] at hf
    cases hf

theorem State.write_outbound_self (s : State T) (n count w : Nat) (pc : WorkerPc) :
    (((s.write n count).goto w pc).cells n).outbound = (s.cells n).outbound.advance count := by
  simp only [State.goto, State.setWorker, State.write, State.setCells, Function.update_self]

theorem State.write_outbound_of_ne (s : State T) {n m : Nat} (hn : n ≠ m) (count w : Nat)
    (pc : WorkerPc) :
    (((s.write m count).goto w pc).cells n).outbound = (s.cells n).outbound := by
  simp only [State.goto, State.setWorker, State.write, State.setCells, Function.update_of_ne hn]

theorem State.close_outbound (s : State T) (w token n : Nat) :
    ((s.close w token).cells n).outbound = (s.cells n).outbound := by
  unfold State.close
  dsimp only
  split
  · rfl
  · rename_i m _
    by_cases hn : n = m
    · subst hn
      simp [State.setWorker, State.setCells]
    · simp [State.setWorker, State.setCells, hn]

theorem State.close_lookup (s : State T) (w token : Nat) :
    ((s.close w token).workers w).connections.lookup token = none := by
  unfold State.close
  dsimp only
  split
  · assumption
  · simp [State.setWorker]

theorem State.close_events (s : State T) (w token : Nat) :
    ((s.close w token).workers w).events = (s.workers w).events := by
  unfold State.close
  dsimp only
  split
  · rfl
  · simp [State.setWorker]

theorem State.goto_events (s : State T) (w : Nat) (pc : WorkerPc) :
    ((s.goto w pc).workers w).events = (s.workers w).events := by
  simp [State.goto, State.setWorker]

theorem State.goto_connections (s : State T) (w : Nat) (pc : WorkerPc) (v : Nat) :
    ((s.goto w pc).workers v).connections = (s.workers v).connections := by
  by_cases hv : v = w
  · subst hv
    simp [State.goto, State.setWorker]
  · simp [State.goto, State.setWorker, hv]

theorem State.goto_pc (s : State T) (w : Nat) (pc : WorkerPc) :
    ((s.goto w pc).workers w).pc = pc := by
  simp [State.goto, State.setWorker]

theorem State.acceptStream_pc (s : State T) (w next : Nat) :
    ((s.acceptStream w next).workers w).pc = (s.workers w).pc := by
  by_cases hw : w = (s.workers w).nextWorker
  · simp [State.acceptStream, State.pushIncoming, State.setWorker, ← hw]
  · simp [State.acceptStream, State.pushIncoming, State.setWorker, hw]

/-- The send buffers of `s'` and the rest of the batch of reactor `w` are those of `s`. -/
structure State.SameOutput (s : State T) (w : Nat) (s' : State T) : Prop where
  outbound : ∀ n, (s'.cells n).outbound = (s.cells n).outbound
  events : (s'.workers w).events = (s.workers w).events

theorem State.SameOutput.goto {u : State T} (h : s.SameOutput w u) (pc : WorkerPc) :
    s.SameOutput w (u.goto w pc) := ⟨h.outbound, (u.goto_events w pc).trans h.events⟩

theorem State.SameOutput.close (s : State T) (w token : Nat) :
    s.SameOutput w (s.close w token) := ⟨s.close_outbound w token, s.close_events w token⟩

theorem State.SameOutput.setWorker {u : State T} (hcells : u.cells = s.cells) {worker : Worker}
    (h : worker.events = (s.workers w).events) : s.SameOutput w (u.setWorker w worker) :=
  ⟨fun n => by rw [← hcells]; rfl, by simpa [State.setWorker] using h⟩

theorem State.SameOutput.addSession {u : State T} (h : s.SameOutput w u) (id token : Nat) :
    s.SameOutput w (u.addSession w id token) :=
  ⟨h.outbound, by simpa [State.addSession, State.setWorker] using h.events⟩

theorem State.SameOutput.onData (s : State T) (w id : Nat) (data : List UInt8) :
    s.SameOutput w (s.onData w id data) := .setWorker rfl rfl

theorem State.SameOutput.refl (s : State T) (w : Nat) : s.SameOutput w s := ⟨fun _ => rfl, rfl⟩

theorem State.SameOutput.acceptStream (s : State T) (w next : Nat) :
    s.SameOutput w (s.acceptStream w next) := by
  refine ⟨fun _ => rfl, ?_⟩
  by_cases hw : w = (s.workers w).nextWorker
  · simp [State.acceptStream, State.pushIncoming, State.setWorker, ← hw]
  · simp [State.acceptStream, State.pushIncoming, State.setWorker, hw]

/-- A step that neither polls, nor takes an event, nor flushes leaves the send buffers and the rest
of the batch alone. -/
theorem workerStep_sameOutput (h : workerStep overflowChecks s w outcome = some s')
    (hf : (s.workers w).pc.flushes = none) (hpoll : (s.workers w).pc ≠ .poll)
    (hevent : (s.workers w).pc ≠ .event) : s.SameOutput w s' := by
  cases hpc : (s.workers w).pc with
  | poll => exact absurd hpc hpoll
  | event => exact absurd hpc hevent
  | flushing tokens =>
    cases tokens with
    | nil =>
      cases outcome <;> simp only [workerStep, hpc, Option.some.injEq, reduceCtorEq] at h
      exact h ▸ (State.SameOutput.refl s w).goto _
    | cons first tokens => simp [hpc, WorkerPc.flushes] at hf
  | readFlush | writableFlush => simp [hpc, WorkerPc.flushes] at hf
  | flushClose | handleClose =>
    cases outcome <;> simp only [workerStep, hpc, Option.some.injEq, reduceCtorEq] at h
    exact h ▸ (State.SameOutput.close s w _).goto _
  | closing tokens | closingAll tokens =>
    cases tokens <;> cases outcome <;>
      simp only [workerStep, hpc, Option.some.injEq, reduceCtorEq] at h
    · exact h ▸ (State.SameOutput.refl s w).goto _
    · exact h ▸ (State.SameOutput.close s w _).goto _
  | waker =>
    cases outcome <;> simp only [workerStep, hpc, Option.some.injEq, reduceCtorEq] at h
    exact h ▸ (State.SameOutput.refl s w).goto _
  | takeIncoming | flushPending | closePending =>
    cases outcome <;> simp only [workerStep, hpc, Option.some.injEq, reduceCtorEq] at h
    subst h
    exact .setWorker rfl rfl
  | closeAll =>
    cases outcome <;> simp only [workerStep, hpc, reduceCtorEq] at h
    split at h <;> cases h
    exact (State.SameOutput.refl s w).goto _
  | accept =>
    simp only [workerStep, hpc] at h
    split at h
    · cases outcome <;> simp only [Option.some.injEq, reduceCtorEq] at h
      · split at h <;> cases h
        · exact (State.SameOutput.refl s w).goto _
        · exact .acceptStream s w _
      · exact h ▸ (State.SameOutput.refl s w).goto _
      · exact h ▸ State.SameOutput.refl s w
      · exact h ▸ (State.SameOutput.refl s w).goto _
    · split at h <;> cases h
      exact (State.SameOutput.refl s w).goto _
  | incoming streams =>
    cases streams <;> cases outcome <;>
      simp only [workerStep, hpc, Option.some.injEq, reduceCtorEq] at h
    · exact h ▸ (State.SameOutput.refl s w).goto _
    · split at h <;> cases h
      · exact (State.SameOutput.refl s w).goto _
      · split
        · refine .addSession ?_ _ _
          exact .setWorker rfl rfl
        · exact .setWorker rfl rfl
  | read token writable =>
    simp only [workerStep, hpc] at h
    split at h <;> cases h
    · exact (State.SameOutput.refl s w).goto _
    · refine .goto ?_ _
      split
      · exact .refl s w
      · exact .onData s w _ _
  | returnedOk | returnedErr | panicked => simp [workerStep, hpc] at h

/-- A step that does not flush leaves the send buffers alone. -/
theorem workerStep_outbound (h : workerStep overflowChecks s w outcome = some s')
    (hf : (s.workers w).pc.flushes = none) (n : Nat) :
    (s'.cells n).outbound = (s.cells n).outbound := by
  by_cases hpoll : (s.workers w).pc = .poll
  · cases outcome <;> simp only [workerStep, hpoll, Option.some.injEq, reduceCtorEq] at h
    all_goals exact h ▸ rfl
  by_cases hevent : (s.workers w).pc = .event
  · cases outcome <;> simp only [workerStep, hevent, reduceCtorEq] at h
    split at h <;> cases h <;> rfl
  · exact (workerStep_sameOutput h hf hpoll hevent).outbound n

/-- What a step of a thread does to the output: a send appends and goes on to its push. -/
theorem callerStep_output [DecidableEq T] {t : T} (h : callerStep s t = some s') :
    (∀ u, u ≠ t → s'.callers u = s.callers u) ∧
      ∀ n, (s'.cells n).outbound = (s.cells n).outbound ∨
        s'.callers t = .sendPush n ∧
          ∃ bytes : List UInt8, (s.cells n).outbound.canWrite bytes.length = true ∧
            (s'.cells n).outbound = (s.cells n).outbound.append bytes := by
  have hset {u : State T} {pc : CallerPc} (hu : u.callers = s.callers) (hs : s' = u.setCaller t pc)
      (hcells : ∀ n, (u.cells n).outbound = (s.cells n).outbound) :
      (∀ u, u ≠ t → s'.callers u = s.callers u) ∧
        ∀ n, (s'.cells n).outbound = (s.cells n).outbound ∨
          s'.callers t = .sendPush n ∧
            ∃ bytes : List UInt8, (s.cells n).outbound.canWrite bytes.length = true ∧
              (s'.cells n).outbound = (s.cells n).outbound.append bytes := by
    subst hs
    exact ⟨fun v hv => (Function.update_of_ne hv ..).trans (congrFun hu v),
      fun n => .inl (hcells n)⟩
  have hother {m n : Nat} {cells : Cells} (hn : n ≠ m) :
      ((s.setCells m cells).cells n).outbound = (s.cells n).outbound := by
    simp [State.setCells, hn]
  unfold callerStep at h
  cases hpc : s.callers t with
  | idle | sent => simp [hpc] at h
  | sendDisposed | closeDisposed =>
    simp only [hpc, Option.some.injEq] at h
    exact hset rfl h.symm fun _ => rfl
  | sendStopped | sendPush | closePush =>
    simp only [hpc, Option.map_eq_some_iff] at h
    obtain ⟨session, -, h⟩ := h
    refine hset ?_ h.symm fun _ => rfl
    rfl
  | sendAppend m bytes =>
    simp only [hpc] at h
    split at h <;> cases h
    · rename_i hcan
      refine ⟨fun v hv => Function.update_of_ne hv .., fun n => ?_⟩
      by_cases hn : n = m
      · subst hn
        refine .inr ⟨Function.update_self .., bytes, hcan, ?_⟩
        simp [State.setCells, State.setCaller]
      · exact .inl (hother hn)
    · exact hset rfl rfl fun _ => rfl
  | closeSwap m =>
    simp only [hpc] at h
    split at h <;> cases h
    · exact hset rfl rfl fun _ => rfl
    · refine hset ?_ rfl fun n => ?_
      · rfl
      · by_cases hn : n = m
        · subst hn
          simp [State.setCells]
        · exact hother hn
  | shutdown w =>
    simp only [hpc] at h
    split at h <;> cases h
    · refine hset ?_ rfl fun _ => rfl
      rfl
    · exact hset rfl rfl fun _ => rfl

theorem WorkerMove.callers (h : WorkerMove overflowChecks s w outcome s') :
    s'.callers = s.callers := by
  cases h with
  | register id streams next ok => cases ok <;> rfl
  | close token pc =>
    have hclose : (s.close w token).callers = s.callers := by
      unfold State.close
      dsimp only
      split <;> rfl
    exact hclose
  | _ => rfl

/-- A reactor leaves to the others only streams. -/
theorem WorkerMove.others (h : WorkerMove overflowChecks s w outcome s') {v : Nat} (hv : v ≠ w) :
    ∃ incoming, s'.workers v = { s.workers v with incoming } := by
  have hset {u : State T} {worker : Worker}
      (hu : ∃ incoming, u.workers v = { s.workers v with incoming }) :
      ∃ incoming, (u.setWorker w worker).workers v = { s.workers v with incoming } := by
    obtain ⟨incoming, hu⟩ := hu
    exact ⟨incoming, (Function.update_of_ne hv ..).trans hu⟩
  have hsame : ∃ incoming, s.workers v = { s.workers v with incoming } := ⟨_, rfl⟩
  cases h with
  | stay => exact hsame
  | go | panic | takeIncoming | takeWrites | takeCloses => exact hset hsame
  | write => exact hset hsame
  | data => exact hset (hset hsame)
  | issue next =>
    by_cases hne : v = (s.workers w).nextWorker
    · subst hne
      refine ⟨(s.workers (s.workers w).nextWorker).incoming ++ [(s.workers w).nextSessionId], ?_⟩
      simp [State.acceptStream, State.pushIncoming, State.setWorker, hv]
    · refine ⟨(s.workers v).incoming, ?_⟩
      simp [State.acceptStream, State.pushIncoming, State.setWorker, hv, hne]
  | register id streams next ok =>
    cases ok with
    | false => exact hset hsame
    | true => exact hset (hset hsame)
  | close token pc =>
    refine hset ?_
    unfold State.close
    dsimp only
    split
    · exact hsame
    · exact hset hsame

theorem workerStep_pendingWrites (h : workerStep overflowChecks s w outcome = some s')
    (htake : (s.workers w).pc ≠ .flushPending) (v : Nat) :
    (s'.workers v).pendingWrites = (s.workers v).pendingWrites := by
  have hmove := workerStep_move h
  by_cases hincoming : ∃ id streams, (s.workers w).pc = .incoming (id :: streams)
  · by_cases hv : v = w
    · subst hv
      obtain ⟨id, streams, hpc⟩ := hincoming
      cases outcome <;> simp only [workerStep, hpc, reduceCtorEq] at h
      split at h <;> cases h
      · exact (s.goto_keeps v _ v).pendingWrites
      · split <;> simp [State.addSession, State.setWorker]
    · obtain ⟨incoming, heq⟩ := hmove.others hv
      rw [heq]
  · exact (hmove.keeps htake (fun id streams hpc => hincoming ⟨id, streams, hpc⟩) v).pendingWrites

/-- A token stays in `pending_writes` until `flush_pending` takes it. -/
theorem workerStep_pending (h : workerStep overflowChecks s w outcome = some s') {v token : Nat}
    (hq : token ∈ (s.workers v).pendingWrites) :
    token ∈ (s'.workers v).pendingWrites ∨
      v = w ∧ (s.workers w).pc = .flushPending ∧ (s'.workers w).pendingWrites = [] ∧
        token ∈ (s'.workers w).pc.toFlush := by
  by_cases htake : (s.workers w).pc = .flushPending
  · by_cases hv : v = w
    · subst hv
      cases outcome <;> simp only [workerStep, htake, Option.some.injEq, reduceCtorEq] at h
      subst h
      exact .inr ⟨rfl, htake, by simp [State.setWorker],
        by simpa [State.setWorker, WorkerPc.toFlush] using hq⟩
    · obtain ⟨incoming, heq⟩ := (workerStep_move h).others hv
      rw [heq]
      exact .inl hq
  · rw [workerStep_pendingWrites h htake]
    exact .inl hq

/-- A token that `flush_pending` has taken stays with it until it is flushed. -/
theorem workerStep_toFlush (h : workerStep overflowChecks s w outcome = some s') {v token : Nat}
    (hq : token ∈ (s.workers v).pc.toFlush) :
    token ∈ (s'.workers v).pc.toFlush ∨
      v = w ∧ ∃ tokens, (s.workers w).pc = .flushing (token :: tokens) := by
  by_cases hv : v = w
  swap
  · obtain ⟨incoming, heq⟩ := (workerStep_move h).others hv
    rw [heq]
    exact .inl hq
  subst hv
  cases hpc : (s.workers v).pc with
  | flushing tokens =>
    rw [hpc] at hq
    cases tokens with
    | nil => cases hq
    | cons first tokens =>
      by_cases hfirst : token = first
      · exact .inr ⟨rfl, tokens, by rw [hfirst]⟩
      · left
        have hmem : token ∈ tokens := (List.mem_cons.mp hq).resolve_left hfirst
        have hflushes : (s.workers v).pc.flushes = some first := by
          rw [hpc]
          rfl
        rcases workerStep_flush h hflushes with
          ⟨-, rfl⟩ | ⟨n, count, closed, -, -, -, rfl⟩ <;> rw [State.goto_pc, hpc]
        · exact hmem
        · cases closed <;> exact hmem
  | flushClose first tokens =>
    rw [hpc] at hq
    cases outcome <;> simp only [workerStep, hpc, Option.some.injEq, reduceCtorEq] at h
    subst h
    rw [State.goto_pc]
    exact .inl hq
  | _ =>
    rw [hpc] at hq
    cases hq

/-- A token stays queued until it is flushed. -/
theorem workerStep_queued (h : workerStep overflowChecks s w outcome = some s') {v token : Nat}
    (hq : (s.workers v).Queued token) :
    (s'.workers v).Queued token ∨
      v = w ∧ ∃ tokens, (s.workers w).pc = .flushing (token :: tokens) := by
  rcases hq with hq | hq
  · rcases workerStep_pending h hq with hq | ⟨rfl, -, -, hq⟩
    · exact .inl (.inl hq)
    · exact .inl (.inr hq)
  · exact (workerStep_toFlush h hq).imp_left .inr

/-! ## Where a step leaves a reactor -/

/-- The reactor has not left the loop of `run`. -/
def WorkerPc.Running : WorkerPc → Prop
  | .closeAll | .closingAll _ | .returnedOk | .returnedErr | .panicked => False
  | _ => True

/-- The reactor handles a waker event and has yet to take `pending_writes`. -/
def WorkerPc.Heeding : WorkerPc → Prop
  | .waker | .takeIncoming | .incoming _ | .flushPending => True
  | _ => False

/-- A waker event of the batch is still to be heeded. -/
def Worker.Heeds (worker : Worker) : Prop :=
  (∃ event ∈ worker.events, event.token = wakerToken) ∨ worker.pc.Heeding

/-- The reactor is in the round of an event, or between two events of its batch. -/
def WorkerPc.Busy : WorkerPc → Prop
  | .poll | .closeAll | .closingAll _ | .returnedOk | .returnedErr | .panicked => False
  | _ => True

/-- Where a reactor can be after `pc`. -/
def WorkerPc.Follow : WorkerPc → WorkerPc → Prop
  | .poll, pc' => pc' = .event ∨ pc' = .returnedErr
  | .event, pc' => pc' = .poll ∨ pc'.Busy
  | .accept, pc' => pc' ≠ .poll
  | .waker, pc' => pc' = .closeAll ∨ pc' = .takeIncoming
  | .takeIncoming, pc' => ∃ streams, pc' = .incoming streams
  | .incoming _, pc' => pc' = .flushPending ∨ pc' = .panicked ∨ ∃ streams, pc' = .incoming streams
  | .closeAll, pc' => ∃ tokens, pc' = .closingAll tokens
  | .closingAll _, pc' => pc' = .returnedOk ∨ ∃ tokens, pc' = .closingAll tokens
  | _, pc' => pc'.Busy

theorem Event.dispatch_busy (event : Event) : event.dispatch.Busy := by
  unfold Event.dispatch
  repeat' split
  all_goals trivial

theorem WorkerPc.flushed_busy {pc : WorkerPc} {token : Nat} (h : pc.flushes = some token)
    (closed : Bool) : (pc.flushed closed).Busy := by
  cases pc with
  | flushing tokens =>
    cases tokens with
    | nil => cases h
    | cons first tokens => cases closed <;> trivial
  | readFlush first writable =>
    cases closed
    · cases writable <;> trivial
    · trivial
  | writableFlush first => cases closed <;> trivial
  | _ => cases h

theorem workerStep_follow (h : workerStep overflowChecks s w outcome = some s') :
    (s.workers w).pc.Follow (s'.workers w).pc := by
  have hflush (token : Nat) (hf : (s.workers w).pc.flushes = some token) :
      (s'.workers w).pc.Busy := by
    rcases workerStep_flush h hf with ⟨-, rfl⟩ | ⟨n, count, closed, -, -, -, rfl⟩ <;>
      rw [State.goto_pc]
    · exact WorkerPc.flushed_busy hf false
    · exact WorkerPc.flushed_busy hf closed
  cases hpc : (s.workers w).pc with
  | event =>
    cases outcome <;> simp only [workerStep, hpc, reduceCtorEq] at h
    split at h <;> cases h
    · exact .inl (s.goto_pc w _)
    · refine .inr ?_
      simp only [State.setWorker, Function.update_self]
      exact Event.dispatch_busy _
  | poll =>
    cases outcome <;> simp only [workerStep, hpc, Option.some.injEq, reduceCtorEq] at h <;>
      subst h
    · exact .inl (by simp [State.setWorker])
    · exact .inr (s.goto_pc w _)
  | accept =>
    have hnot {pc : WorkerPc} (hpc' : (s'.workers w).pc = pc) (hne : pc ≠ .poll) :
        WorkerPc.accept.Follow (s'.workers w).pc :=
      fun hpoll => hne (hpc'.symm.trans hpoll)
    simp only [workerStep, hpc] at h
    split at h
    · cases outcome <;> simp only [Option.some.injEq, reduceCtorEq] at h
      · split at h <;> cases h
        · exact hnot (s.goto_pc w _) (by simp)
        · exact hnot ((s.acceptStream_pc w _).trans hpc) (by simp)
      · subst h
        exact hnot (s.goto_pc w _) (by simp)
      · subst h
        exact hnot hpc (by simp)
      · subst h
        exact hnot (s.goto_pc w _) (by simp)
    · split at h <;> cases h
      exact hnot (s.goto_pc w _) (by simp)
  | waker =>
    cases outcome <;> simp only [workerStep, hpc, Option.some.injEq, reduceCtorEq] at h
    subst h
    rw [State.goto_pc]
    split
    · exact .inl rfl
    · exact .inr rfl
  | takeIncoming =>
    cases outcome <;> simp only [workerStep, hpc, Option.some.injEq, reduceCtorEq] at h
    subst h
    exact ⟨(s.workers w).incoming, by simp [State.setWorker]⟩
  | incoming streams =>
    cases streams <;> cases outcome <;>
      simp only [workerStep, hpc, Option.some.injEq, reduceCtorEq] at h
    · subst h
      exact .inl (s.goto_pc w _)
    · split at h <;> cases h
      · exact .inr (.inl (s.goto_pc w _))
      · refine .inr (.inr ?_)
        split <;> simp [State.addSession, State.setWorker]
  | flushPending | closePending =>
    cases outcome <;> simp only [workerStep, hpc, Option.some.injEq, reduceCtorEq] at h
    subst h
    simp [State.setWorker, WorkerPc.Follow, WorkerPc.Busy]
  | flushing tokens =>
    cases tokens with
    | nil =>
      cases outcome <;> simp only [workerStep, hpc, Option.some.injEq, reduceCtorEq] at h
      subst h
      rw [State.goto_pc]
      trivial
    | cons first tokens => exact hflush first (by rw [hpc]; rfl)
  | readFlush first writable => exact hflush first (by rw [hpc]; rfl)
  | writableFlush first => exact hflush first (by rw [hpc]; rfl)
  | flushClose | handleClose =>
    cases outcome <;> simp only [workerStep, hpc, Option.some.injEq, reduceCtorEq] at h
    subst h
    rw [State.goto_pc]
    trivial
  | closing tokens =>
    cases tokens <;> cases outcome <;>
      simp only [workerStep, hpc, Option.some.injEq, reduceCtorEq] at h
    all_goals
      subst h
      rw [State.goto_pc]
      trivial
  | read token writable =>
    simp only [workerStep, hpc] at h
    split at h <;> cases h <;> rw [State.goto_pc]
    · cases writable <;> trivial
    · split <;> trivial
  | closeAll =>
    cases outcome <;> simp only [workerStep, hpc, reduceCtorEq] at h
    split at h <;> cases h
    exact ⟨_, s.goto_pc w _⟩
  | closingAll tokens =>
    cases tokens <;> cases outcome <;>
      simp only [workerStep, hpc, Option.some.injEq, reduceCtorEq] at h
    · subst h
      exact .inl (s.goto_pc w _)
    · subst h
      exact .inr ⟨_, State.goto_pc _ w _⟩
  | returnedOk | returnedErr | panicked => simp [workerStep, hpc] at h

/-- A reactor that has left the loop of `run` does not come back. -/
theorem workerStep_running (h : workerStep overflowChecks s w outcome = some s')
    (hrun : (s'.workers w).pc.Running) : (s.workers w).pc.Running := by
  have hfollow := workerStep_follow h
  cases hpc : (s.workers w).pc with
  | closeAll =>
    rw [hpc] at hfollow
    obtain ⟨tokens, htokens⟩ := hfollow
    rw [htokens] at hrun
    exact hrun
  | closingAll =>
    rw [hpc] at hfollow
    rcases hfollow with hpc' | ⟨tokens, hpc'⟩ <;> rw [hpc'] at hrun <;> exact hrun
  | returnedOk | returnedErr | panicked => simp [workerStep, hpc] at h
  | _ => trivial

/-- A reactor polls with its batch used up. -/
theorem workerStep_polled (h : workerStep overflowChecks s w outcome = some s')
    (hpoll : (s'.workers w).pc = .poll) : (s'.workers w).events = [] := by
  have hfollow := workerStep_follow h
  rw [hpoll] at hfollow
  cases hpc : (s.workers w).pc with
  | event =>
    cases outcome <;> simp only [workerStep, hpc, reduceCtorEq] at h
    split at h <;> cases h
    · exact (s.goto_events w _).trans ‹_›
    · rename_i event events _
      simp only [State.setWorker, Function.update_self] at hpoll
      exact (hpoll ▸ event.dispatch_busy).elim
  | waker | poll => rw [hpc] at hfollow; rcases hfollow with h | h <;> cases h
  | takeIncoming | closeAll =>
    rw [hpc] at hfollow
    obtain ⟨_, h⟩ := hfollow
    cases h
  | incoming => rw [hpc] at hfollow; rcases hfollow with h | h | ⟨_, h⟩ <;> cases h
  | closingAll => rw [hpc] at hfollow; rcases hfollow with h | ⟨_, h⟩ <;> cases h
  | returnedOk | returnedErr | panicked => simp [workerStep, hpc] at h
  | accept =>
    rw [hpc] at hfollow
    exact absurd rfl hfollow
  | _ =>
    rw [hpc] at hfollow
    exact hfollow.elim

/-- A waker event stays to be heeded until `flush_pending` takes its tokens. -/
theorem workerStep_heeds (h : workerStep overflowChecks s w outcome = some s')
    (hpolled : (s.workers w).pc = .poll → (s.workers w).events = [])
    (hrun : (s'.workers w).pc.Running) (hheeds : (s.workers w).Heeds) :
    (s'.workers w).Heeds ∨ (s.workers w).pc = .flushPending := by
  have hfollow := workerStep_follow h
  have hevents (hpc : ¬(s.workers w).pc.Heeding)
      (hsame : (s'.workers w).events = (s.workers w).events) : (s'.workers w).Heeds := by
    obtain ⟨event, hmem, htoken⟩ := hheeds.resolve_right hpc
    exact .inl ⟨event, hsame ▸ hmem, htoken⟩
  cases hflushes : (s.workers w).pc.flushes with
  | some token =>
    have hpc : ¬(s.workers w).pc.Heeding := by
      cases hpc : (s.workers w).pc <;> rw [hpc] at hflushes <;>
        first | exact id | cases hflushes
    refine .inl (hevents hpc ?_)
    rcases workerStep_flush h hflushes with ⟨-, rfl⟩ | ⟨n, count, closed, -, -, -, rfl⟩ <;>
      exact State.goto_events ..
  | none =>
    cases hpc : (s.workers w).pc with
    | poll =>
      rcases hheeds with ⟨event, hmem, -⟩ | hheeding
      · rw [hpolled hpc] at hmem
        cases hmem
      · rw [hpc] at hheeding
        exact hheeding.elim
    | event =>
      obtain ⟨event, hmem, htoken⟩ := hheeds.resolve_right (by rw [hpc]; exact id)
      cases outcome <;> simp only [workerStep, hpc, reduceCtorEq] at h
      split at h <;> cases h
      · rename_i hnil
        rw [hnil] at hmem
        cases hmem
      · rename_i first rest hcons
        rw [hcons] at hmem
        simp only [Worker.Heeds, State.setWorker, Function.update_self]
        rcases List.mem_cons.mp hmem with rfl | hmem
        · refine .inl (.inr ?_)
          simp only [Event.dispatch, htoken, wakerToken, listenerToken, Nat.one_ne_zero, if_false,
            if_true]
          trivial
        · exact .inl (.inl ⟨event, hmem, htoken⟩)
    | waker =>
      rw [hpc] at hfollow
      rcases hfollow with hpc' | hpc' <;> rw [hpc'] at hrun
      · exact hrun.elim
      · exact .inl (.inr (by rw [hpc']; trivial))
    | takeIncoming =>
      rw [hpc] at hfollow
      obtain ⟨streams, hpc'⟩ := hfollow
      exact .inl (.inr (by rw [hpc']; trivial))
    | incoming =>
      rw [hpc] at hfollow
      rcases hfollow with hpc' | hpc' | ⟨streams, hpc'⟩
      · exact .inl (.inr (by rw [hpc']; trivial))
      · rw [hpc'] at hrun
        exact hrun.elim
      · exact .inl (.inr (by rw [hpc']; trivial))
    | flushPending => exact .inr rfl
    | _ =>
      refine .inl (hevents (by rw [hpc]; exact id) ?_)
      exact (workerStep_sameOutput h hflushes (by simp [hpc]) (by simp [hpc])).events

end

end DignusActor.Reactor
