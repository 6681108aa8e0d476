import DignusActor.Network.Triggers

/-! # No request is left behind

What threads leave with a reactor outside its own fields: the flag `stopped`, the streams in
`incoming`, the tokens in `pending_writes` and in `pending_closes` (`Request`). A reactor looks at
them only in the round of a waker event, at each in its turn. As long as one of them is there, a
waker event is outstanding, or a thread or another reactor is about to wake the reactor; and a
session that was asked to close is in `pending_closes`, or its `close` is on its way there
(`no_request_left`). -/

namespace DignusActor.Reactor

open Machine (Reach)

variable {T : Type}

inductive Request
  | stop
  | incoming
  | writes
  | closes
  deriving DecidableEq

/-- There is such a request. -/
def Worker.Has (worker : Worker) : Request → Prop
  | .stop => worker.stopped = true
  | .incoming => worker.incoming ≠ []
  | .writes => worker.pendingWrites ≠ []
  | .closes => worker.pendingCloses ≠ []

/-- The reactor handles a waker event and has not come to these requests yet. -/
def WorkerPc.Ahead : WorkerPc → Request → Prop
  | .waker, _ => True
  | .takeIncoming, r => r ≠ .stop
  | .incoming _, r | .flushPending, r => r = .writes ∨ r = .closes
  | .flushing _, r | .flushClose .., r | .closePending, r => r = .closes
  | _, _ => False

/-- A waker event of the batch is still to come, or has yet to come to these requests. -/
def Worker.Alerted (worker : Worker) (r : Request) : Prop :=
  (∃ event ∈ worker.events, event.token = wakerToken) ∨ worker.pc.Ahead r

/-- What makes reactor `w` look for these requests. -/
inductive Wakeful.Noticed (s : Wakeful T) (w : Nat) (r : Request) : Prop
  | woken : s.woken w = true → Noticed s w r
  | alerted : (s.host.workers w).Alerted r → Noticed s w r
  | waking (t : T) (wake : Wake) : s.waking t = some wake → wake.worker = w → Noticed s w r
  | accepting (v : Nat) : s.accepting v = some w → Noticed s w r

/-! ## The steps of the reactors -/

section
variable {s s' : State T} {w : Nat} {overflowChecks : Bool} {outcome : Outcome} {r : Request}

theorem workerStep_events (h : workerStep overflowChecks s w outcome = some s')
    (hpoll : (s.workers w).pc ≠ .poll) (hevent : (s.workers w).pc ≠ .event) :
    (s'.workers w).events = (s.workers w).events := by
  cases hflushes : (s.workers w).pc.flushes with
  | none => exact (workerStep_sameOutput h hflushes hpoll hevent).events
  | some token =>
    rcases workerStep_flush h hflushes with ⟨-, rfl⟩ | ⟨n, count, closed, -, -, -, rfl⟩ <;>
      exact State.goto_events ..

/-- A waker event of the batch stays in it, or its round begins. -/
theorem workerStep_eventAhead (h : workerStep overflowChecks s w outcome = some s')
    (hpolled : (s.workers w).pc = .poll → (s.workers w).events = [])
    (hevent : ∃ event ∈ (s.workers w).events, event.token = wakerToken) :
    (s'.workers w).Alerted r := by
  by_cases hpoll : (s.workers w).pc = .poll
  · obtain ⟨event, hmem, -⟩ := hevent
    rw [hpolled hpoll] at hmem
    cases hmem
  by_cases hpc : (s.workers w).pc = .event
  · obtain ⟨event, hmem, htoken⟩ := hevent
    cases outcome <;> simp only [workerStep, hpc, reduceCtorEq] at h
    split at h <;> cases h
    · rename_i hnil
      rw [hnil] at hmem
      cases hmem
    · rename_i first rest hcons
      rw [hcons] at hmem
      simp only [Worker.Alerted, State.setWorker, Function.update_self]
      rcases List.mem_cons.mp hmem with rfl | hmem
      · refine .inr ?_
        simp only [Event.dispatch, htoken, wakerToken, listenerToken, Nat.one_ne_zero, if_false,
          if_true]
        trivial
      · exact .inl ⟨event, hmem, htoken⟩
  · rw [Worker.Alerted, workerStep_events h hpoll hpc]
    exact .inl hevent

/-- In the round of a waker event the reactor comes to all requests. -/
theorem workerStep_ahead (h : workerStep overflowChecks s w outcome = some s')
    (hrun : (s'.workers w).pc.Running) (hahead : (s.workers w).pc.Ahead r) :
    (s'.workers w).pc.Ahead r ∨ ¬(s'.workers w).Has r := by
  cases hpc : (s.workers w).pc with
  | waker =>
    cases outcome <;> simp only [workerStep, hpc, Option.some.injEq, reduceCtorEq] at h
    subst h
    rw [State.goto_pc] at hrun ⊢
    cases hstopped : (s.workers w).stopped with
    | true =>
      rw [hstopped] at hrun
      exact hrun.elim
    | false =>
      by_cases hr : r = .stop
      · subst hr
        refine .inr ?_
        simp [Worker.Has, State.goto, State.setWorker, hstopped]
      · exact .inl hr
  | takeIncoming =>
    cases outcome <;> simp only [workerStep, hpc, Option.some.injEq, reduceCtorEq] at h
    subst h
    rw [hpc] at hahead
    simp only [State.setWorker, Function.update_self]
    cases r with
    | stop => exact absurd rfl hahead
    | incoming => exact .inr fun hne => hne rfl
    | writes => exact .inl (.inl rfl)
    | closes => exact .inl (.inr rfl)
  | incoming streams =>
    rw [hpc] at hahead
    have hfollow := workerStep_follow h
    rw [hpc] at hfollow
    rcases hfollow with hpc' | hpc' | ⟨streams', hpc'⟩ <;> rw [hpc'] at hrun ⊢
    · exact .inl hahead
    · exact hrun.elim
    · exact .inl hahead
  | flushPending =>
    cases outcome <;> simp only [workerStep, hpc, Option.some.injEq, reduceCtorEq] at h
    subst h
    rw [hpc] at hahead
    simp only [State.setWorker, Function.update_self]
    rcases hahead with rfl | rfl
    · exact .inr fun hne => hne rfl
    · exact .inl rfl
  | flushing tokens =>
    rw [hpc] at hahead
    cases tokens with
    | nil =>
      cases outcome <;> simp only [workerStep, hpc, Option.some.injEq, reduceCtorEq] at h
      subst h
      rw [State.goto_pc]
      exact .inl hahead
    | cons first tokens =>
      have hflushes : (s.workers w).pc.flushes = some first := by
        rw [hpc]
        rfl
      rcases workerStep_flush h hflushes with ⟨-, rfl⟩ | ⟨n, count, closed, -, -, -, rfl⟩ <;>
        rw [State.goto_pc, hpc]
      · exact .inl hahead
      · cases closed <;> exact .inl hahead
  | flushClose first tokens =>
    cases outcome <;> simp only [workerStep, hpc, Option.some.injEq, reduceCtorEq] at h
    subst h
    rw [hpc] at hahead
    rw [State.goto_pc]
    exact .inl hahead
  | closePending =>
    cases outcome <;> simp only [workerStep, hpc, Option.some.injEq, reduceCtorEq] at h
    subst h
    rw [hpc] at hahead
    obtain rfl := hahead
    simp only [State.setWorker, Function.update_self]
    exact .inr fun hne => hne rfl
  | _ =>
    rw [hpc] at hahead
    exact hahead.elim

/-- `b` has no requests that `a` does not have. -/
def Worker.Asks (a b : Worker) : Prop := ∀ r, b.Has r → a.Has r

theorem State.setWorker_asks {u : State T} {worker : Worker} {v : Nat}
    (hu : (s.workers v).Asks (u.workers v)) (h : v = w → (s.workers v).Asks worker) :
    (s.workers v).Asks ((u.setWorker w worker).workers v) := by
  by_cases hv : v = w
  · subst hv
    simpa [State.setWorker] using h rfl
  · simpa [State.setWorker, hv] using hu

theorem Worker.Asks.of_eq {a b : Worker} (hstopped : b.stopped = a.stopped)
    (hincoming : b.incoming = a.incoming) (hwrites : b.pendingWrites = a.pendingWrites)
    (hcloses : b.pendingCloses = a.pendingCloses) : a.Asks b := by
  intro r
  cases r <;> simp only [Has, hstopped, hincoming, hwrites, hcloses, imp_self]

theorem Worker.Asks.refl (a : Worker) : a.Asks a := fun _ => id

/-- A reactor leaves no requests but the stream that it accepts. -/
theorem workerStep_asks (h : workerStep overflowChecks s w outcome = some s') (v : Nat) :
    (s.workers v).Asks (s'.workers v) ∨
      (s.workers w).pc = .accept ∧ outcome = .accepted ∧ v = (s.workers w).nextWorker ∧
        (s'.workers w).pc = .accept := by
  have hrefl := Worker.Asks.refl (s.workers v)
  cases workerStep_move h with
  | stay => exact .inl hrefl
  | go | panic =>
    refine .inl (State.setWorker_asks hrefl ?_)
    rintro rfl
    exact .of_eq rfl rfl rfl rfl
  | issue next ho hpc =>
    by_cases hv : v = (s.workers w).nextWorker
    · refine .inr ⟨hpc, ho, hv, ?_⟩
      rw [State.acceptStream_pc, hpc]
    · refine .inl (State.setWorker_asks (State.setWorker_asks hrefl ?_) fun h => absurd h hv)
      rintro rfl
      exact .of_eq rfl rfl rfl rfl
  | takeIncoming | takeWrites | takeCloses =>
    refine .inl (State.setWorker_asks hrefl ?_)
    rintro rfl r
    cases r
    all_goals first | exact id | exact fun hne => absurd rfl hne
  | register id streams next ok =>
    have hset : (s.workers v).Asks ((s.setWorker w
        { s.workers w with nextToken := next, pc := .incoming streams }).workers v) := by
      refine State.setWorker_asks hrefl ?_
      rintro rfl
      exact .of_eq rfl rfl rfl rfl
    cases ok with
    | false => exact .inl hset
    | true =>
      refine .inl (State.setWorker_asks hset ?_)
      rintro rfl
      apply Worker.Asks.of_eq <;> simp [State.setWorker]
  | write n count pc =>
    refine .inl (State.setWorker_asks hrefl ?_)
    rintro rfl
    exact .of_eq rfl rfl rfl rfl
  | data token n data pc =>
    refine .inl (State.setWorker_asks (State.setWorker_asks hrefl ?_) ?_) <;> rintro rfl
    · exact .of_eq rfl rfl rfl rfl
    · apply Worker.Asks.of_eq <;> simp [State.onData, State.setWorker]
  | close token pc =>
    have hclose : (s.workers v).Asks ((s.close w token).workers v) := by
      unfold State.close
      dsimp only
      split
      · exact hrefl
      · refine State.setWorker_asks hrefl ?_
        rintro rfl
        exact .of_eq rfl rfl rfl rfl
    refine .inl (State.setWorker_asks hclose ?_)
    rintro rfl
    intro r hr
    apply hclose
    cases r <;> exact hr

theorem workerStep_noticed {s : Wakeful T} {host : State T} {wantsWrite : Bool}
    (h : workerStep overflowChecks s.host w outcome = some host)
    (hpolled : (s.host.workers w).pc = .poll → (s.host.workers w).events = [])
    (hfree : s.accepting w = none) {v : Nat}
    (hrun : (host.workers v).pc.Running) (hhas : (host.workers v).Has r)
    (hnoticed : (s.host.workers v).Has r → s.Noticed v r) :
    (s.noteWorker host w outcome wantsWrite).Noticed v r := by
  obtain ⟨hhost, hwaking, -⟩ := s.noteWorker_same host w outcome wantsWrite
  rcases workerStep_asks h v with hasks | ⟨hpc, rfl, rfl, hpc'⟩
  · cases hnoticed (hasks r hhas) with
    | woken hwoken =>
      rcases s.noteWorker_woken host w outcome wantsWrite hwoken with
        hwoken | ⟨rfl, batch, hpc, rfl, hevent⟩
      · exact .woken hwoken
      · refine .alerted (.inl ?_)
        simp only [workerStep, hpc, Option.some.injEq] at h
        rw [hhost, ← h]
        simpa [State.setWorker] using hevent
    | alerted halerted =>
      refine .alerted ?_
      rw [hhost]
      by_cases hv : v = w
      · subst hv
        rcases halerted with hevent | hahead
        · exact workerStep_eventAhead h hpolled hevent
        · exact .inr ((workerStep_ahead h hrun hahead).resolve_right (not_not_intro hhas))
      · obtain ⟨incoming, heq⟩ := (workerStep_move h).others hv
        rw [heq]
        exact halerted
    | waking t wake ht hwake => exact .waking t wake (hwaking ▸ ht) hwake
    | accepting u hu => exact .accepting u (s.noteWorker_accepting host outcome wantsWrite hfree hu)
  · -- the reactor has pushed the stream, and goes on to wake its peer
    refine .accepting w ?_
    simp only [Wakeful.noteWorker, hpc, hpc', Function.update_self]

end

/-! ## The steps of the threads -/

section
variable [DecidableEq T] {s s' : State T} {t : T} {v : Nat}

/-- What a step of a thread leaves with reactor `v`. -/
inductive CallerLeaves (s : State T) (t : T) (v : Nat) : Worker → Prop
  | nothing : CallerLeaves s t v (s.workers v)
  | write (n : Nat) (session : Session) : s.callers t = .sendPush n →
    s.sessions[n]? = some session → session.worker = v → CallerLeaves s t v
      { s.workers v with pendingWrites := (s.workers v).pendingWrites ++ [session.token] }
  | close (n : Nat) (session : Session) : s.callers t = .closePush n →
    s.sessions[n]? = some session → session.worker = v → CallerLeaves s t v
      { s.workers v with pendingCloses := (s.workers v).pendingCloses ++ [session.token] }
  | stop : s.callers t = .shutdown v → v < s.workerCount →
    CallerLeaves s t v { s.workers v with stopped := true }

theorem callerStep_leaves (h : callerStep s t = some s') (v : Nat) :
    CallerLeaves s t v (s'.workers v) := by
  unfold callerStep at h
  cases hpc : s.callers t with
  | idle | sent => simp [hpc] at h
  | sendDisposed | closeDisposed =>
    simp only [hpc, Option.some.injEq] at h
    subst h
    exact .nothing
  | sendStopped =>
    simp only [hpc, Option.map_eq_some_iff] at h
    obtain ⟨session, -, rfl⟩ := h
    exact .nothing
  | sendAppend | closeSwap =>
    simp only [hpc] at h
    split at h <;> cases h <;> exact .nothing
  | sendPush n =>
    simp only [hpc, Option.map_eq_some_iff] at h
    obtain ⟨session, hn, rfl⟩ := h
    by_cases hv : v = session.worker
    · subst hv
      simp only [State.setCaller, State.setWorker, Function.update_self]
      exact .write n session hpc hn rfl
    · simp only [State.setCaller, State.setWorker, Function.update_of_ne hv]
      exact .nothing
  | closePush n =>
    simp only [hpc, Option.map_eq_some_iff] at h
    obtain ⟨session, hn, rfl⟩ := h
    by_cases hv : v = session.worker
    · subst hv
      simp only [State.setCaller, State.setWorker, Function.update_self]
      exact .close n session hpc hn rfl
    · simp only [State.setCaller, State.setWorker, Function.update_of_ne hv]
      exact .nothing
  | shutdown w =>
    simp only [hpc] at h
    split at h <;> cases h
    · by_cases hv : v = w
      · subst hv
        simp only [State.setCaller, State.setWorker, Function.update_self]
        exact .stop hpc ‹_›
      · simp only [State.setCaller, State.setWorker, Function.update_of_ne hv]
        exact .nothing
    · exact .nothing

/-- A thread that leaves something goes on to wake the reactor. -/
theorem callerStep_noticed {s : Wakeful T} {host : State T} {r : Request}
    (h : callerStep s.host t = some host) (hfree : s.waking t = none)
    (hhas : (host.workers v).Has r) (hnoticed : (s.host.workers v).Has r → s.Noticed v r) :
    (s.noteCall host t).Noticed v r := by
  obtain ⟨hb, hhost⟩ := s.noteCall_beside host t
  have hkeep (hsame : (host.workers v).events = (s.host.workers v).events ∧
      (host.workers v).pc = (s.host.workers v).pc) (hn : s.Noticed v r) :
      (s.noteCall host t).Noticed v r := by
    cases hn with
    | woken hwoken => exact .woken (hb.woken ▸ hwoken)
    | alerted halerted =>
      refine .alerted ?_
      rw [hhost, Worker.Alerted, hsame.1, hsame.2]
      exact halerted
    | waking u wake hu hwake =>
      have hut : u ≠ t := by
        rintro rfl
        cases hfree.symm.trans hu
      exact .waking u wake ((hb.waking u hut).trans hu) hwake
    | accepting u hu => exact .accepting u (hb.accepting ▸ hu)
  have hserved := callerStep_workers h v
  generalize hworker : host.workers v = worker at hhas
  have hleaves := callerStep_leaves h v
  rw [hworker] at hleaves hserved
  cases hleaves with
  | nothing => exact hkeep (hworker ▸ ⟨rfl, rfl⟩) (hnoticed hhas)
  | write n session hpc hn hv =>
    refine .waking t ⟨session.worker, some n⟩ ?_ hv
    simp only [Wakeful.noteCall, hpc, hn, Function.update_self]
  | close n session hpc hn hv =>
    refine .waking t ⟨session.worker, none⟩ ?_ hv
    simp only [Wakeful.noteCall, hpc, hn, Function.update_self]
  | stop hpc hlt =>
    refine .waking t ⟨v, none⟩ ?_ rfl
    simp only [Wakeful.noteCall, hpc, if_pos hlt, Function.update_self]

end

/-! ## The sessions that are asked to close -/

/-- The session of the `close` that a thread is in. -/
def CallerPc.closes : CallerPc → Option Nat
  | .closeDisposed n | .closeSwap n | .closePush n => some n
  | _ => none

/-- The tokens that `close_pending` has yet to close. -/
def WorkerPc.toClose : WorkerPc → List Nat
  | .closing tokens => tokens
  | _ => []

section
variable {s s' : State T} {w : Nat} {overflowChecks : Bool} {outcome : Outcome}

theorem State.close_closeRequested (s : State T) (w token n : Nat) :
    ((s.close w token).cells n).closeRequested = (s.cells n).closeRequested := by
  unfold State.close
  dsimp only
  split
  · rfl
  · rename_i m _
    by_cases hn : n = m
    · subst hn
      simp [State.setWorker, State.setCells]
    · simp [State.setWorker, State.setCells, hn]

theorem workerStep_closeRequested (h : workerStep overflowChecks s w outcome = some s') (n : Nat) :
    (s'.cells n).closeRequested = (s.cells n).closeRequested := by
  cases workerStep_move h with
  | register id streams next ok => cases ok <;> rfl
  | write m count pc =>
    by_cases hn : n = m
    · subst hn
      simp [State.goto, State.setWorker, State.write, State.setCells]
    · simp [State.goto, State.setWorker, State.write, State.setCells, hn]
  | close token pc => exact s.close_closeRequested w token n
  | _ => rfl

theorem workerStep_pendingCloses (h : workerStep overflowChecks s w outcome = some s')
    (htake : (s.workers w).pc ≠ .closePending) :
    (s'.workers w).pendingCloses = (s.workers w).pendingCloses := by
  have hgoto (u : State T) (pc : WorkerPc) :
      ((u.goto w pc).workers w).pendingCloses = (u.workers w).pendingCloses := by
    simp [State.goto, State.setWorker]
  cases workerStep_move h with
  | stay => rfl
  | panic => exact hgoto s _
  | go | takeIncoming | takeWrites => simp [State.setWorker]
  | takeCloses hpc => exact absurd hpc htake
  | write n count pc => exact hgoto _ pc
  | issue next =>
    by_cases hw : w = (s.workers w).nextWorker
    · simp [State.acceptStream, State.pushIncoming, State.setWorker, ← hw]
    · simp [State.acceptStream, State.pushIncoming, State.setWorker, hw]
  | register id streams next ok => cases ok <;> simp [State.addSession, State.setWorker]
  | data token n data pc =>
    rw [hgoto]
    simp [State.onData, State.setWorker]
  | close token pc =>
    rw [hgoto]
    unfold State.close
    dsimp only
    split
    · rfl
    · simp [State.setWorker]

/-- A token stays in `pending_closes` until `close_pending` takes it, and with it until the
connection is closed. -/
theorem workerStep_closes (h : workerStep overflowChecks s w outcome = some s') {v token : Nat}
    (ht : token ∈ (s.workers v).pendingCloses ∨ token ∈ (s.workers v).pc.toClose) :
    (token ∈ (s'.workers v).pendingCloses ∨ token ∈ (s'.workers v).pc.toClose) ∨
      (s'.workers v).connections.lookup token = none := by
  by_cases hv : v = w
  swap
  · obtain ⟨incoming, heq⟩ := (workerStep_move h).others hv
    rw [heq]
    exact .inl ht
  subst hv
  by_cases htake : (s.workers v).pc = .closePending
  · cases outcome <;> simp only [workerStep, htake, Option.some.injEq, reduceCtorEq] at h
    subst h
    rw [htake] at ht
    refine .inl (.inr ?_)
    simpa [State.setWorker, WorkerPc.toClose] using ht
  rw [workerStep_pendingCloses h htake]
  rcases ht with ht | ht
  · exact .inl (.inl ht)
  cases hpc : (s.workers v).pc with
  | closing tokens =>
    rw [hpc] at ht
    cases tokens with
    | nil => cases ht
    | cons first tokens =>
      cases outcome <;> simp only [workerStep, hpc, Option.some.injEq, reduceCtorEq] at h
      subst h
      rw [State.goto_pc]
      rcases List.mem_cons.mp ht with rfl | ht
      · refine .inr ?_
        rw [State.goto_connections, State.close_lookup]
      · exact .inl (.inr ht)
  | _ =>
    rw [hpc] at ht
    cases ht

end

section
variable [DecidableEq T] {s s' : State T} {t : T}

/-- What a step of a thread does to the requests to close. -/
theorem callerStep_closeRequested (h : callerStep s t = some s') (n : Nat) :
    (s'.cells n).closeRequested = (s.cells n).closeRequested ∨
      s.callers t = .closeSwap n ∧ s'.callers t = .closePush n := by
  unfold callerStep at h
  cases hpc : s.callers t with
  | idle | sent => simp [hpc] at h
  | sendDisposed | closeDisposed =>
    simp only [hpc, Option.some.injEq] at h
    subst h
    exact .inl rfl
  | sendStopped | sendPush | closePush =>
    simp only [hpc, Option.map_eq_some_iff] at h
    obtain ⟨session, -, rfl⟩ := h
    exact .inl rfl
  | sendAppend m bytes =>
    simp only [hpc] at h
    split at h <;> cases h
    · by_cases hn : n = m
      · subst hn
        exact .inl (by simp [State.setCaller, State.setCells])
      · exact .inl (by simp [State.setCaller, State.setCells, hn])
    · exact .inl rfl
  | closeSwap m =>
    simp only [hpc] at h
    split at h <;> cases h
    · exact .inl rfl
    · by_cases hn : n = m
      · subst hn
        exact .inr ⟨rfl, Function.update_self ..⟩
      · exact .inl (by simp [State.setCaller, State.setCells, hn])
  | shutdown w =>
    simp only [hpc] at h
    split at h <;> cases h <;> exact .inl rfl

/-- A thread goes on in its `close`. -/
theorem callerStep_closes (h : callerStep s t = some s') {n : Nat}
    (hn : (s'.callers t).closes = some n) : (s.callers t).closes = some n := by
  unfold callerStep at h
  cases hpc : s.callers t with
  | idle | sent => simp [hpc] at h
  | sendDisposed | closeDisposed =>
    simp only [hpc, Option.some.injEq] at h
    subst h
    simp only [State.setCaller, Function.update_self] at hn
    split at hn <;> first | exact hn | cases hn
  | sendStopped =>
    simp only [hpc, Option.map_eq_some_iff] at h
    obtain ⟨session, -, rfl⟩ := h
    simp only [State.setCaller, Function.update_self] at hn
    split at hn <;> cases hn
  | sendPush | closePush =>
    simp only [hpc, Option.map_eq_some_iff] at h
    obtain ⟨session, -, rfl⟩ := h
    simp only [State.setCaller, Function.update_self] at hn
    cases hn
  | sendAppend | closeSwap | shutdown =>
    simp only [hpc] at h
    split at h <;> cases h <;> simp only [State.setCaller, Function.update_self] at hn <;>
      first | exact hn | cases hn

/-- A `close` at its push leaves the token with the reactor. -/
theorem callerStep_closePush (h : callerStep s t = some s') {n : Nat} {session : Session}
    (hpc : s.callers t = .closePush n) (hn : s.sessions[n]? = some session) :
    session.token ∈ (s'.workers session.worker).pendingCloses := by
  simp only [callerStep, hpc, hn, Option.map_some, Option.some.injEq] at h
  rw [← h]
  simp [State.setCaller, State.setWorker]

end

/-! ## Every run -/

/-- What keeps a request from being left behind. -/
structure Wakeful.Attended (s : Wakeful T) : Prop where
  noticed : ∀ w r, (s.host.workers w).pc.Running → (s.host.workers w).Has r → s.Noticed w r
  known : ∀ t n, (s.host.callers t).closes = some n → n < s.host.sessions.length
  fresh : ∀ n, s.host.sessions.length ≤ n → (s.host.cells n).closeRequested = false
  requested : ∀ w token n, (s.host.workers w).connections.lookup token = some n →
    (s.host.cells n).closeRequested = true →
    (token ∈ (s.host.workers w).pendingCloses ∨ token ∈ (s.host.workers w).pc.toClose) ∨
      ∃ t, s.host.callers t = .closePush n

section
variable {s : Wakeful T} {host : State T} {overflowChecks : Bool} {w : Nat} {outcome : Outcome}
  {wantsWrite : Bool}

theorem Wakeful.Attended.worker (h : s.Attended) (hinv : s.Inv)
    (hfree : s.accepting w = none) (hs : workerStep overflowChecks s.host w outcome = some host) :
    (s.noteWorker host w outcome wantsWrite).Attended := by
  have hhost := (s.noteWorker_same host w outcome wantsWrite).1
  have hcallers := (workerStep_move hs).callers
  have hlen := (workerStep_move hs).sessions.length_le
  refine ⟨fun v r hrun hhas => ?_, fun t n hn => ?_, fun n hn => ?_, fun v token n hn hreq => ?_⟩
  · rw [hhost] at hrun hhas
    refine workerStep_noticed hs (hinv.polled w) hfree hrun hhas fun hhas => h.noticed v r ?_ hhas
    by_cases hv : v = w
    · subst hv
      exact workerStep_running hs hrun
    · obtain ⟨incoming, heq⟩ := (workerStep_move hs).others hv
      rwa [heq] at hrun
  · rw [hhost] at hn ⊢
    rw [hcallers] at hn
    exact Nat.lt_of_lt_of_le (h.known t n hn) hlen
  · rw [hhost] at hn ⊢
    rw [workerStep_closeRequested hs]
    exact h.fresh n (Nat.le_trans hlen hn)
  · rw [hhost] at hn hreq ⊢
    rw [workerStep_closeRequested hs] at hreq
    rcases workerStep_connections hs hn with hold | ⟨rfl, -⟩
    · rcases h.requested v token n hold hreq with hclose | ⟨t, ht⟩
      · refine .inl ((workerStep_closes hs hclose).resolve_right ?_)
        rw [hn]
        exact nofun
      · exact .inr ⟨t, hcallers ▸ ht⟩
    · rw [h.fresh _ (Nat.le_refl _)] at hreq
      cases hreq

variable [DecidableEq T] {t : T}

/-- A thread starts a call. -/
theorem Wakeful.Attended.begin (h : s.Attended) {pc : CallerPc}
    (hs : s.host.begin t pc = some host)
    (hpc : ∀ n, pc.closes = some n → n < s.host.sessions.length) :
    Wakeful.Attended { s with host } := by
  have hidle (n : Nat) : s.host.callers t ≠ .closePush n := by
    intro hpush
    rw [State.begin, hpush] at hs
    cases hs
  cases State.begin_eq hs
  refine ⟨fun w r hrun hhas => ?_, fun u n hn => ?_, h.fresh, fun w token n hn hreq => ?_⟩
  · cases h.noticed w r hrun hhas with
    | woken hwoken => exact .woken hwoken
    | alerted halerted => exact .alerted halerted
    | waking u wake hu hwake => exact .waking u wake hu hwake
    | accepting u hu => exact .accepting u hu
  · by_cases hut : u = t
    · subst hut
      exact hpc n (by simpa [State.setCaller] using hn)
    · exact h.known u n (by simpa [State.setCaller, hut] using hn)
  · refine (h.requested w token n hn hreq).imp_right ?_
    rintro ⟨u, hu⟩
    have hut : u ≠ t := by
      rintro rfl
      exact hidle n hu
    exact ⟨u, (Function.update_of_ne hut ..).trans hu⟩

theorem Wakeful.Attended.call (h : s.Attended) (hinv : s.Inv) (hfree : s.waking t = none)
    (hs : callerStep s.host t = some host) : (s.noteCall host t).Attended := by
  obtain ⟨-, hhost⟩ := s.noteCall_beside host t
  have hsessions := (callerStep_called hs).1
  have hcallers := (callerStep_output hs).1
  have hserved := callerStep_workers hs
  have hknown (u : T) (n : Nat) (hn : (host.callers u).closes = some n) :
      n < s.host.sessions.length := by
    by_cases hut : u = t
    · subst hut
      exact h.known u n (callerStep_closes hs hn)
    · rw [hcallers u hut] at hn
      exact h.known u n hn
  refine ⟨fun v r hrun hhas => ?_, fun u n hn => ?_, fun n hn => ?_, fun w token n hn hreq => ?_⟩
  · rw [hhost] at hrun hhas
    refine callerStep_noticed hs hfree hhas fun hhas => h.noticed v r ?_ hhas
    rwa [(hserved v).pc] at hrun
  · rw [hhost] at hn ⊢
    rw [hsessions]
    exact hknown u n hn
  · rw [hhost] at hn ⊢
    rcases callerStep_closeRequested hs n with hsame | ⟨-, hpush⟩
    · rw [hsame]
      exact h.fresh n (hsessions ▸ hn)
    · have hlt := hknown t n (by rw [hpush]; rfl)
      rw [hsessions] at hn
      exact absurd hlt (Nat.not_lt_of_le hn)
  · rw [hhost] at hn hreq ⊢
    rcases callerStep_closeRequested hs n with hsame | ⟨-, hpush⟩
    swap
    · exact .inr ⟨t, hpush⟩
    rw [(hserved w).connections] at hn
    rw [hsame] at hreq
    rcases h.requested w token n hn hreq with hclose | ⟨u, hu⟩
    · refine .inl (hclose.imp (fun hmem => ?_) fun hmem => ?_)
      · have hleaves := callerStep_leaves hs w
        generalize host.workers w = worker at hleaves
        cases hleaves with
        | close => exact List.mem_append_left _ hmem
        | _ => exact hmem
      · rw [(hserved w).pc]
        exact hmem
    · by_cases hut : u = t
      · subst hut
        obtain ⟨id, hid⟩ := hinv.connected w token n hn
        exact .inl (.inl (callerStep_closePush hs hu hid))
      · exact .inr ⟨u, (hcallers u hut).trans hu⟩

theorem Wakeful.Attended.step (h : s.Attended) (hinv : s.Inv) {act : Wakeful.Action T}
    {s' : Wakeful T} (hs : Wakeful.step overflowChecks s act = some s') : s'.Attended := by
  cases act with
  | host act wantsWrite =>
    simp only [Wakeful.step] at hs
    split at hs
    · cases hs
    rename_i hblocked
    obtain ⟨host, hhost, rfl⟩ := Option.map_eq_some_iff.mp hs
    cases act with
    | worker w outcome =>
      simp only [Reactor.step] at hhost
      split at hhost
      · refine h.worker hinv ?_ hhost
        simp only [blocked, Bool.or_eq_true, not_or, Bool.not_eq_true, Option.isSome_eq_false_iff,
          Option.isNone_iff_eq_none] at hblocked
        exact hblocked.2
      · cases hhost
    | send t n bytes =>
      simp only [Reactor.step] at hhost
      split at hhost
      · exact h.begin hhost fun _ hm => by cases hm
      · cases hhost
    | close t n =>
      simp only [Reactor.step] at hhost
      split at hhost
      · refine h.begin hhost fun m hm => ?_
        cases hm
        assumption
      · cases hhost
    | shutdown t => exact h.begin hhost fun _ hm => by cases hm
    | call t =>
      refine h.call hinv ?_ hhost
      simpa [blocked] using hblocked
  | reregister w =>
    obtain ⟨⟨n, b⟩, hw, rfl⟩ := Option.map_eq_some_iff.mp hs
    refine ⟨fun v r hrun hhas => ?_, h.known, h.fresh, h.requested⟩
    cases h.noticed v r hrun hhas with
    | woken hwoken => exact .woken hwoken
    | alerted halerted => exact .alerted halerted
    | waking u wake hu hwake => exact .waking u wake hu hwake
    | accepting u hu => exact .accepting u hu
  | wakePeer w =>
    obtain ⟨peer, hpeer, rfl⟩ := Option.map_eq_some_iff.mp hs
    refine ⟨fun v r hrun hhas => ?_, h.known, h.fresh, h.requested⟩
    cases h.noticed v r hrun hhas with
    | woken hwoken =>
      refine .woken ?_
      dsimp only
      rw [Function.update_apply, hwoken, ite_self]
    | alerted halerted => exact .alerted halerted
    | waking u wake hu hwake => exact .waking u wake hu hwake
    | accepting u hu =>
      by_cases huw : u = w
      · subst huw
        cases hpeer.symm.trans hu
        exact .woken (Function.update_self ..)
      · exact .accepting u ((Function.update_of_ne huw ..).trans hu)
  | wake t =>
    obtain ⟨wake, ht, rfl⟩ := Option.map_eq_some_iff.mp hs
    refine ⟨fun v r hrun hhas => ?_, h.known, h.fresh, h.requested⟩
    cases h.noticed v r hrun hhas with
    | woken hwoken =>
      refine .woken ?_
      dsimp only
      rw [Function.update_apply]
      split
      · rfl
      · exact hwoken
    | alerted halerted => exact .alerted halerted
    | waking u wake' hu hwake =>
      by_cases hut : u = t
      · subst hut
        cases ht.symm.trans hu
        subst hwake
        exact .woken (Function.update_self ..)
      · exact .waking u wake' ((Function.update_of_ne hut ..).trans hu) hwake
    | accepting u hu => exact .accepting u hu

variable {workerCount maxPendingSend : Nat}

theorem attended_of_reach
    (h : Reach (waking T overflowChecks workerCount maxPendingSend) Machine.free s) :
    s.Attended := by
  refine h.inv_of Wakeful.Inv Wakeful.Attended wakefulInv_of_reach ?_ ?_
  · rintro _ rfl
    refine ⟨fun w r _ hhas => ?_, nofun, fun _ _ => rfl, nofun⟩
    cases r
    · cases hhas
    all_goals exact absurd rfl hhas
  · intro s act s' hinv hi _ hs
    exact hi.step hinv hs

/-- **No request is left behind.** Between two events of a reactor that runs, if it was stopped, has
streams to take in, or has tokens to flush or to close, then its waker was woken, or a waker event
is in the rest of the batch, or a thread, or a reactor that has pushed a stream to it, is about to
wake it. An open session that was asked to close has its token among those to close, or the `close`
is at its push. -/
theorem no_request_left
    (h : Reach (waking T overflowChecks workerCount maxPendingSend) Machine.free s)
    (hpc : (s.host.workers w).pc = .poll ∨ (s.host.workers w).pc = .event) :
    (∀ r, (s.host.workers w).Has r → s.woken w = true ∨
      (∃ event ∈ (s.host.workers w).events, event.token = wakerToken) ∨
      (∃ t wake, s.waking t = some wake ∧ wake.worker = w) ∨ ∃ v, s.accepting v = some w) ∧
    ∀ token n, (s.host.workers w).connections.lookup token = some n →
      (s.host.cells n).closeRequested = true →
      token ∈ (s.host.workers w).pendingCloses ∨ ∃ t, s.host.callers t = .closePush n := by
  have hattended := attended_of_reach h
  refine ⟨fun r hhas => ?_, fun token n hn hreq => ?_⟩
  · have hrun : (s.host.workers w).pc.Running := by
      rcases hpc with hpc | hpc <;> rw [hpc] <;> trivial
    cases hattended.noticed w r hrun hhas with
    | woken hwoken => exact .inl hwoken
    | alerted halerted =>
      refine .inr (.inl (halerted.resolve_right ?_))
      rcases hpc with hpc | hpc <;> rw [hpc] <;> exact id
    | waking t wake ht hwake => exact .inr (.inr (.inl ⟨t, wake, ht, hwake⟩))
    | accepting v hv => exact .inr (.inr (.inr ⟨v, hv⟩))
  · refine (hattended.requested w token n hn hreq).imp_left fun hclose => hclose.resolve_right ?_
    rcases hpc with hpc | hpc <;> rw [hpc] <;> exact List.not_mem_nil

end

/-- A thread has pushed the close of a session of reactor 1, and has yet to wake it; reactor 0 has
pushed a stream to it, and has yet to wake it too. -/
def closePushed : Wakeful Unit :=
  ((waking Unit false 2 64).run (Wakeful.start (buildPool Unit 2 64))
    ([Wakeful.Action.host (.worker 0 (.events [⟨0, true, false⟩])) false,
        .host (.worker 0 .none) false, .host (.worker 0 .accepted) false, .wakePeer 0,
        .host (.worker 0 .accepted) false, .wakePeer 0,
        .host (.worker 1 (.events [⟨1, true, false⟩])) false] ++
      List.replicate 3 (Wakeful.Action.host (.worker 1 .none) false) ++
      [Wakeful.Action.host (.worker 1 (.registered true)) false] ++
      List.replicate 6 (Wakeful.Action.host (.worker 1 .none) false) ++
      [Wakeful.Action.host (.close () 0) false, .host (.call ()) false, .host (.call ()) false,
        .host (.call ()) false, .host (.worker 0 .accepted) false, .wakePeer 0,
        .host (.worker 0 .accepted) false])).get (by decide +kernel)

theorem no_request_left_closePushed :
    (closePushed.host.workers 1).pc = .poll ∧ (closePushed.host.workers 1).pendingCloses = [2] ∧
      (closePushed.host.workers 1).Has .incoming ∧ closePushed.woken 1 = false ∧
      (closePushed.woken 1 = true ∨
        (∃ event ∈ (closePushed.host.workers 1).events, event.token = wakerToken) ∨
        (∃ t wake, closePushed.waking t = some wake ∧ wake.worker = 1) ∨
        ∃ v, closePushed.accepting v = some 1) :=
  have hpc : (closePushed.host.workers 1).pc = .poll := by decide +kernel
  have hcloses : (closePushed.host.workers 1).pendingCloses = [2] := by decide +kernel
  have hincoming : (closePushed.host.workers 1).incoming ≠ [] := by decide +kernel
  have hwoken : closePushed.woken 1 = false := by decide +kernel
  have hr : Reach (waking Unit false 2 64) Machine.free closePushed := .get_free rfl _
  ⟨hpc, hcloses, hincoming, hwoken, (no_request_left hr (.inl hpc)).1 .incoming hincoming⟩

end DignusActor.Reactor
