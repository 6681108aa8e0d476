import DignusActor.Network.ReactorMoves
import DignusActor.Network.SessionLedger

/-! # The callbacks of the reactors

Every step of a host is a step of the ledger of its sessions, or leaves the ledger as it is, as long
as no counter wraps (`ledger_reach`). So the handlers of a host see the callbacks in their order,
and its pending lists and its maps of connections keep to the sessions they are about
(`protocol_of_noWrap`). A host without overflow checks whose counters have gone round has two
sessions of one id (`notProtocol_wrapped`). -/

namespace DignusActor.Reactor

open Machine (Reach)

variable {T : Type} {s s' : State T} {w : Nat}

/-! ## The ledger of a host -/

def Worker.desk (worker : Worker) : Desk where
  connections := worker.connections
  nextToken := worker.nextToken
  calls := worker.calls
  waiting := worker.pc.streams ++ worker.incoming

def State.ledger (s : State T) : Ledger where
  nextSessionId := (s.workers 0).nextSessionId
  desks w := (s.workers w).desk
  sessions := s.sessions

/-- The step increments a counter that is at its largest value. -/
def Action.overflows (s : State T) : Action T → Bool
  | .worker w outcome =>
    let worker := s.workers w
    match worker.pc, outcome with
    | .accept, .accepted => worker.listener && !(worker.nextSessionId + 1 < 2 ^ 64)
    | .incoming (_ :: _), .registered _ => !(worker.nextToken + 1 < 2 ^ 64)
    | _, _ => false
  | _ => false

/-- The counters of the reactors do not wrap: the build has overflow checks, or they do not get
there. -/
def NoWrap (overflowChecks : Bool) (s : State T) (a : Action T) : Prop :=
  overflowChecks = true ∨ a.overflows s = false

instance (overflowChecks : Bool) (s : State T) (a : Action T) :
    Decidable (NoWrap overflowChecks s a) :=
  inferInstanceAs (Decidable (_ ∨ _))

theorem Ledger.setDesk_eq_self {l : Ledger} {desk : Desk} (h : desk = l.desks w) :
    l.setDesk w desk = l := by
  rw [Ledger.setDesk, h, Function.update_eq_self]

theorem State.setWorker_ledger {worker : Worker}
    (h : worker.nextSessionId = (s.workers w).nextSessionId) :
    (s.setWorker w worker).ledger = s.ledger.setDesk w worker.desk := by
  have hnext : (Function.update s.workers w worker 0).nextSessionId =
      (s.workers 0).nextSessionId := by
    by_cases hw : 0 = w
    · subst hw
      rw [Function.update_self, h]
    · rw [Function.update_of_ne hw]
  have hdesks : (fun v => (Function.update s.workers w worker v).desk) =
      Function.update (fun v => (s.workers v).desk) w worker.desk := by
    funext v
    by_cases hv : v = w
    · subst hv
      rw [Function.update_self, Function.update_self]
    · rw [Function.update_of_ne hv, Function.update_of_ne hv]
  simp only [State.ledger, State.setWorker, Ledger.setDesk, hnext, hdesks]

/-- A step that the ledger does not see. -/
theorem State.setWorker_ledger_same {worker : Worker}
    (hnext : worker.nextSessionId = (s.workers w).nextSessionId)
    (hdesk : worker.desk = (s.workers w).desk) : (s.setWorker w worker).ledger = s.ledger :=
  (State.setWorker_ledger hnext).trans (Ledger.setDesk_eq_self hdesk)

theorem State.goto_ledger {pc : WorkerPc} (h : pc.streams = (s.workers w).pc.streams) :
    (s.goto w pc).ledger = s.ledger :=
  State.setWorker_ledger_same rfl (by simp only [Worker.desk, h])

/-- A step of the host and what it is to the ledger. -/
def State.Books (s s' : State T) : Prop :=
  s'.ledger = s.ledger ∨ ∃ entry, s.ledger.step entry = some s'.ledger

theorem State.Books.goto (h : s.Books s') {pc : WorkerPc}
    (hpc : pc.streams = (s'.workers w).pc.streams) : s.Books (s'.goto w pc) := by
  unfold State.Books at *
  rwa [State.goto_ledger hpc]

theorem State.sessionId_eq {n : Nat} {session : Session} (h : s.sessions[n]? = some session) :
    s.sessionId n = session.id := by
  simp only [State.sessionId, h]

theorem State.close_books (hinv : s.ledger.Inv) (token : Nat) : s.Books (s.close w token) := by
  simp only [State.close]
  split
  · exact .inl rfl
  · rename_i n hn
    obtain ⟨session, hsession, -⟩ := hinv.known w token n hn
    refine .inr ⟨.close w token, ?_⟩
    have hlookup : (s.ledger.desks w).connections.lookup token = some n := hn
    rw [State.setWorker_ledger (by rfl), State.sessionId_eq hsession]
    simp only [Ledger.step, hlookup, Option.bind_some, hsession, Option.map_some]
    rfl

theorem State.close_pc (token v : Nat) : ((s.close w token).workers v).pc = (s.workers v).pc := by
  simp only [State.close]
  split
  · rfl
  · by_cases hv : v = w
    · subst hv
      simp [State.setWorker]
    · simp [State.setWorker, State.setCells, hv]

theorem State.onData_books (hinv : s.ledger.Inv) {token n : Nat} (data : List UInt8)
    (hn : (s.workers w).connections.lookup token = some n) :
    s.Books (s.onData w (s.sessionId n) data) := by
  obtain ⟨session, hsession, -⟩ := hinv.known w token n hn
  refine .inr ⟨.data w token data, ?_⟩
  have hlookup : (s.ledger.desks w).connections.lookup token = some n := hn
  rw [State.onData, State.setWorker_ledger (by rfl), State.sessionId_eq hsession]
  simp only [Ledger.step, hlookup, Option.bind_some, hsession, Option.map_some]
  rfl

theorem State.pushIncoming_ledger (v stream : Nat) :
    (s.pushIncoming v stream).ledger = s.ledger.setDesk v { s.ledger.desks v with
      waiting := (s.ledger.desks v).waiting ++ [stream] } := by
  rw [State.pushIncoming, State.setWorker_ledger (by rfl)]
  simp only [Worker.desk, State.ledger, List.append_assoc]

/-- A stream that is accepted waits at the next worker. -/
theorem State.acceptStream_books (hw : w = 0) :
    s.Books (s.acceptStream w ((s.workers w).nextSessionId + 1)) := by
  subst hw
  refine .inr ⟨.issue (s.workers 0).nextWorker, ?_⟩
  rw [State.acceptStream, State.pushIncoming_ledger]
  set worker : Worker := { s.workers 0 with
    nextSessionId := (s.workers 0).nextSessionId + 1
    nextWorker := ((s.workers 0).nextWorker + 1) % s.workerCount } with hworker
  have hfirst : (s.setWorker 0 worker).ledger =
      { s.ledger with nextSessionId := s.ledger.nextSessionId + 1 } := by
    have hdesks (v : Nat) : ((s.setWorker 0 worker).workers v).desk = (s.workers v).desk := by
      by_cases hv : v = 0
      · subst hv
        simp [State.setWorker, hworker, Worker.desk]
      · simp [State.setWorker, hv]
    simp only [State.ledger, hdesks]
    simp [State.setWorker, hworker]
  rw [hfirst]
  rfl

theorem State.admit_ledger (id token : Nat) :
    (s.addSession w id token).ledger = { s.ledger.setDesk w { s.ledger.desks w with
        connections := (s.ledger.desks w).connections.insert token s.ledger.sessions.length
        calls := (s.ledger.desks w).calls ++ [.onAccepted id] } with
      sessions := s.ledger.sessions ++ [⟨id, token, w⟩] } := by
  have hledger (s₁ : State T) (sessions : List Session) :
      { s₁ with sessions }.ledger = { s₁.ledger with sessions } := rfl
  rw [State.addSession, hledger, State.setWorker_ledger (by rfl)]
  rfl

/-- A stream that is registered becomes a session; one that is not is given up. -/
theorem State.register_books {id : Nat} {streams : List Nat}
    (hpc : (s.workers w).pc = .incoming (id :: streams)) (ok : Bool) :
    let s₁ := s.setWorker w { s.workers w with
      nextToken := (s.workers w).nextToken + 1, pc := .incoming streams }
    s.Books (if ok then s₁.addSession w id (s.workers w).nextToken else s₁) := by
  have hwaiting : (s.ledger.desks w).waiting = id :: (streams ++ (s.workers w).incoming) := by
    simp only [State.ledger, Worker.desk, hpc, WorkerPc.streams, List.cons_append]
  cases ok with
  | false =>
    refine .inr ⟨.giveUp w 1 1, ?_⟩
    rw [if_neg Bool.false_ne_true, State.setWorker_ledger (by rfl)]
    simp only [Ledger.step, hwaiting, List.drop_succ_cons, List.drop_zero]
    rfl
  | true =>
    refine .inr ⟨.accept w, ?_⟩
    rw [if_pos rfl]
    rw [State.admit_ledger, State.setWorker_ledger (by rfl)]
    simp only [Ledger.step, hwaiting, Ledger.setDesk, Function.update_idem, Function.update_self]
    rfl

theorem increment_eq {overflowChecks : Bool} {n m : Nat} (hm : increment overflowChecks n = some m)
    (h : overflowChecks = true ∨ n + 1 < 2 ^ 64) : m = n + 1 := by
  unfold increment at hm
  split at hm
  · cases hm
    rfl
  · rename_i hlt
    rw [if_pos (h.resolve_right hlt)] at hm
    cases hm

/-! ## The steps -/

/-- The streams of a worker are dropped when its thread panics. -/
theorem State.panic_books (s : State T) (w : Nat) : s.Books (s.goto w .panicked) := by
  refine .inr ⟨.giveUp w (s.workers w).pc.streams.length 0, ?_⟩
  rw [State.goto, State.setWorker_ledger (by rfl)]
  simp only [Ledger.step, State.ledger, Worker.desk, List.drop_left, Nat.add_zero]
  rfl

theorem WorkerMove.books {overflowChecks : Bool} {outcome : Outcome}
    (h : WorkerMove overflowChecks s w outcome s')
    (hlistener : (s.workers w).listener = true → w = 0) (hinv : s.ledger.Inv)
    (hok : NoWrap overflowChecks s (.worker w outcome)) : s.Books s' := by
  cases h with
  | stay => exact .inl rfl
  | go events pc hgoes =>
    refine .inl (State.setWorker_ledger_same rfl ?_)
    simp only [Worker.desk, hgoes.streams, hgoes.streams']
  | panic => exact s.panic_books w
  | issue next hout hpc hl hnext =>
    obtain rfl := increment_eq hnext (by simpa [NoWrap, Action.overflows, hout, hpc, hl] using hok)
    exact State.acceptStream_books (hlistener hl)
  | takeIncoming hpc =>
    refine .inl (State.setWorker_ledger_same rfl ?_)
    simp [Worker.desk, hpc, WorkerPc.streams]
  | register id streams next ok hout hpc hnext =>
    obtain rfl := increment_eq hnext (by simpa [NoWrap, Action.overflows, hout, hpc] using hok)
    exact State.register_books hpc ok
  | takeWrites hpc | takeCloses hpc =>
    refine .inl (State.setWorker_ledger_same rfl ?_)
    simp only [Worker.desk, hpc, WorkerPc.streams]
  | write n count pc hgoes =>
    refine .inl ((State.goto_ledger ?_).trans rfl)
    exact hgoes.streams'.trans hgoes.streams.symm
  | data token n data pc hlookup hgoes =>
    refine (State.onData_books hinv data hlookup).goto ?_
    simp only [State.onData, State.setWorker, Function.update_self]
    exact hgoes.streams'.trans hgoes.streams.symm
  | close token pc hgoes =>
    refine (State.close_books hinv token).goto ?_
    rw [State.close_pc]
    exact hgoes.streams'.trans hgoes.streams.symm

/-! ## The workers beside the ledger -/

/-- What holds of the workers beside the ledger. -/
structure State.HostInv (s : State T) : Prop where
  listener : ∀ w, (s.workers w).listener = true → w = 0
  queued : ∀ w, ∀ token ∈ (s.workers w).queued, ∃ (n : Nat) (session : Session),
    s.sessions[n]? = some session ∧ session.worker = w ∧ session.token = token
  closes : ∀ w, (s.workers w).pc.Closes (s.workers w).connections

theorem State.HostInv.worker (hinv : s.HostInv) {overflowChecks : Bool} {outcome : Outcome}
    (h : WorkerMove overflowChecks s w outcome s') : s'.HostInv where
  listener v hv := hinv.listener v ((h.follows v).listener ▸ hv)
  queued v token ht := by
    obtain ⟨n, session, hn, hrest⟩ := hinv.queued v token ((h.follows v).queued token ht)
    obtain ⟨rest, hsessions⟩ := h.sessions
    refine ⟨n, session, ?_, hrest⟩
    rw [← hsessions, List.getElem?_append_left (List.getElem?_eq_some_iff.mp hn).1]
    exact hn
  closes v := (h.follows v).closes (hinv.closes v)

section

variable [DecidableEq T]

/-- What a step of a thread in `send`, `close` or `shutdown` does to a worker. -/
structure Worker.Called (sessions : List Session) (w : Nat) (a b : Worker) : Prop where
  desk : b.desk = a.desk
  nextSessionId : b.nextSessionId = a.nextSessionId
  listener : b.listener = a.listener
  pc : b.pc = a.pc
  queued : ∀ token ∈ b.queued, token ∈ a.queued ∨
    ∃ (n : Nat) (session : Session), sessions[n]? = some session ∧ session.worker = w ∧
      session.token = token

theorem Worker.Called.refl (sessions : List Session) (w : Nat) (a : Worker) :
    a.Called sessions w a :=
  ⟨rfl, rfl, rfl, rfl, fun _ => .inl⟩

theorem callerStep_called {t : T} (h : callerStep s t = some s') :
    s'.sessions = s.sessions ∧ ∀ w, (s.workers w).Called s.sessions w (s'.workers w) := by
  have hsame (w : Nat) := Worker.Called.refl s.sessions w (s.workers w)
  have hset {v : Nat} {worker : Worker} (hw : (s.workers v).Called s.sessions v worker) (w : Nat) :
      (s.workers w).Called s.sessions w (Function.update s.workers v worker w) := by
    by_cases hwv : w = v
    · subst hwv
      rwa [Function.update_self]
    · rw [Function.update_of_ne hwv]
      exact hsame w
  unfold callerStep at h
  cases hpc : s.callers t with
  | idle | sent => simp [hpc] at h
  | sendDisposed | closeDisposed =>
    simp only [hpc, Option.some.injEq] at h
    subst h
    exact ⟨rfl, hsame⟩
  | sendStopped =>
    simp only [hpc, Option.map_eq_some_iff] at h
    obtain ⟨session, -, rfl⟩ := h
    exact ⟨rfl, hsame⟩
  | sendAppend | closeSwap =>
    simp only [hpc] at h
    split at h <;> cases h <;> exact ⟨rfl, hsame⟩
  | sendPush n | closePush n =>
    simp only [hpc, Option.map_eq_some_iff] at h
    obtain ⟨session, hn, rfl⟩ := h
    refine ⟨rfl, hset ⟨rfl, rfl, rfl, rfl, fun token ht => ?_⟩⟩
    simp only [Worker.queued, List.mem_append, List.mem_singleton] at ht ⊢
    have htoken : token = session.token → ∃ (n : Nat) (σ : Session),
        s.sessions[n]? = some σ ∧ σ.worker = session.worker ∧ σ.token = token :=
      fun heq => ⟨n, session, hn, rfl, heq.symm⟩
    tauto
  | shutdown v =>
    simp only [hpc] at h
    split at h <;> cases h
    · exact ⟨rfl, hset ⟨rfl, rfl, rfl, rfl, fun _ => .inl⟩⟩
    · exact ⟨rfl, hsame⟩

theorem State.begin_eq {t : T} {pc : CallerPc} (h : s.begin t pc = some s') :
    s' = s.setCaller t pc := by
  unfold State.begin at h
  split at h <;> cases h <;> rfl

/-- A step is one of a reactor, or one of a thread outside. -/
theorem step_cases {overflowChecks : Bool} {a : Action T} (h : step overflowChecks s a = some s') :
    (∃ w outcome, a = .worker w outcome ∧ workerStep overflowChecks s w outcome = some s') ∨
      s'.sessions = s.sessions ∧ ∀ w, (s.workers w).Called s.sessions w (s'.workers w) := by
  have hbegin {t : T} {pc : CallerPc} (h : s.begin t pc = some s') : s'.sessions = s.sessions ∧
      ∀ w, (s.workers w).Called s.sessions w (s'.workers w) := by
    rw [State.begin_eq h]
    exact ⟨rfl, fun w => .refl s.sessions w (s.workers w)⟩
  cases a with
  | worker w outcome =>
    simp only [step] at h
    split at h
    · exact .inl ⟨w, outcome, rfl, h⟩
    · cases h
  | send | close =>
    simp only [step] at h
    split at h
    · exact .inr (hbegin h)
    · cases h
  | shutdown => exact .inr (hbegin h)
  | call => exact .inr (callerStep_called h)

theorem State.HostInv.step (hinv : s.HostInv) {overflowChecks : Bool} {a : Action T}
    (h : step overflowChecks s a = some s') : s'.HostInv := by
  rcases step_cases h with ⟨w, outcome, -, h⟩ | ⟨hsessions, hcalled⟩
  · exact hinv.worker (workerStep_move h)
  · refine ⟨fun v hv => hinv.listener v ((hcalled v).listener ▸ hv), fun v token ht => ?_,
      fun v => ?_⟩
    · rw [hsessions]
      rcases (hcalled v).queued token ht with ht | ht
      · exact hinv.queued v token ht
      · exact ht
    · have hdesk : (s'.workers v).connections = (s.workers v).connections :=
        congrArg Desk.connections (hcalled v).desk
      rw [(hcalled v).pc, hdesk]
      exact hinv.closes v

theorem hostInv_of_reach {overflowChecks : Bool} {workerCount maxPendingSend : Nat}
    {ok : State T → Action T → Prop}
    (h : Reach (machine T overflowChecks workerCount maxPendingSend) ok s) : s.HostInv := by
  refine h.inv State.HostInv ?_ fun hinv _ hs => hinv.step hs
  rintro _ rfl
  refine ⟨fun w hw => ?_, fun w token ht => absurd ht List.not_mem_nil, fun _ => trivial⟩
  simpa [buildPool, buildWorker] using hw

/-- A step of a host whose counters do not wrap, in its ledger. -/
theorem step_books {overflowChecks : Bool} {a : Action T} (hhost : s.HostInv)
    (hinv : s.ledger.Inv) (hok : NoWrap overflowChecks s a)
    (h : step overflowChecks s a = some s') : s.Books s' := by
  rcases step_cases h with ⟨w, outcome, rfl, hstep⟩ | ⟨hsessions, hcalled⟩
  · exact (workerStep_move hstep).books (hhost.listener w) hinv hok
  · have hdesks (v : Nat) := (hcalled v).desk
    left
    simp only [State.ledger, hdesks, hsessions, (hcalled 0).nextSessionId]

/-- The ledger of a host whose counters do not wrap is a ledger. -/
theorem ledger_reach {overflowChecks : Bool} {workerCount maxPendingSend : Nat}
    (h : Reach (machine T overflowChecks workerCount maxPendingSend) (NoWrap overflowChecks) s) :
    Reach Ledger.machine Machine.free s.ledger := by
  refine h.map State.ledger ?_ fun hr hl hok hs => ?_
  · rintro _ rfl
    rfl
  · rcases step_books (hostInv_of_reach hr) (Ledger.inv_of_reach hl) hok hs with h | ⟨entry, h⟩
    · exact .inl h
    · exact .inr ⟨entry, trivial, h⟩

end

/-! ## The protocol -/

/-- What a handler sees of session `id`: a beginning of `on_accepted`, `on_data` any number of
times, `on_disconnected`. -/
inductive Conversation (id : Nat) : List Call → Prop
  | silent : Conversation id []
  | opened (data : List (List UInt8)) : Conversation id (.onAccepted id :: data.map (.onData id))
  | closed (data : List (List UInt8)) :
    Conversation id (.onAccepted id :: data.map (.onData id) ++ [.onDisconnected id])

structure Protocol (s : State T) : Prop where
  ids : ∀ (n m : Nat) (session other : Session), s.sessions[n]? = some session →
    s.sessions[m]? = some other → session.id = other.id → n = m
  tokens : ∀ (n m : Nat) (session other : Session), s.sessions[n]? = some session →
    s.sessions[m]? = some other → session.worker = other.worker → session.token = other.token →
      n = m
  /-- A handler is called about the sessions of its worker. -/
  about : ∀ w, ∀ call ∈ (s.workers w).calls, ∃ (n : Nat) (session : Session),
    s.sessions[n]? = some session ∧ session.worker = w ∧ session.id = call.id
  calls : ∀ w id, Conversation id ((s.workers w).calls.filter (·.id == id))
  /-- `connections` has the sessions that were accepted and not disconnected. -/
  connections : ∀ w token n, (s.workers w).connections.lookup token = some n ↔
    ∃ session : Session, s.sessions[n]? = some session ∧ session.worker = w ∧
      session.token = token ∧ .onAccepted session.id ∈ (s.workers w).calls ∧
      .onDisconnected session.id ∉ (s.workers w).calls
  /-- A token that a session has put into a pending list is never that of another connection. -/
  stale : ∀ w, ∀ token ∈ (s.workers w).queued, ∃ (n : Nat) (session : Session),
    s.sessions[n]? = some session ∧ session.worker = w ∧ session.token = token ∧
      ∀ m, (s.workers w).connections.lookup token = some m → m = n
  /-- Once `run` has returned, every session that was accepted was disconnected once. -/
  returned : ∀ w, (s.workers w).pc = .returnedOk → ∀ (n : Nat) (session : Session),
    s.sessions[n]? = some session → session.worker = w →
      (s.workers w).calls.count (.onDisconnected session.id) = 1

section

variable {l : Ledger}

theorem Ledger.Inv.conversation (hinv : l.Inv) (w id : Nat) :
    Conversation id ((l.desks w).trace id) := by
  cases htrace : (l.desks w).trace id with
  | nil => exact .silent
  | cons call calls =>
    rw [← htrace]
    have hmem : call ∈ (l.desks w).trace id := htrace ▸ List.mem_cons_self
    obtain ⟨hcall, hid⟩ := List.mem_filter.mp hmem
    obtain ⟨n, session, hn, rfl, hsession⟩ := hinv.about w call hcall
    obtain rfl : session.id = id := hsession.trans (by simpa using hid)
    rcases hinv.told n session hn with h | h
    · obtain ⟨data, heq⟩ := h.told
      exact heq ▸ .opened data
    · obtain ⟨calls, ⟨data, rfl⟩, heq⟩ := h.told
      exact heq ▸ .closed data

theorem Ledger.Open.calls {n : Nat} {session : Session} (h : l.Open n session) :
    .onAccepted session.id ∈ (l.desks session.worker).calls ∧
      .onDisconnected session.id ∉ (l.desks session.worker).calls := by
  obtain ⟨data, heq⟩ := h.told
  refine ⟨?_, fun hmem => ?_⟩
  · have hmem : .onAccepted session.id ∈ (l.desks session.worker).trace session.id :=
      heq ▸ List.mem_cons_self
    exact List.mem_of_mem_filter hmem
  · have hmem : .onDisconnected session.id ∈ (l.desks session.worker).trace session.id :=
      List.mem_filter.mpr ⟨hmem, by simp [Call.id]⟩
    simp [heq] at hmem

theorem Ledger.Closed.calls {session : Session} (h : l.Closed session) :
    (l.desks session.worker).calls.count (.onDisconnected session.id) = 1 := by
  obtain ⟨calls, ⟨data, rfl⟩, heq⟩ := h.told
  have hcount : ((l.desks session.worker).trace session.id).count (.onDisconnected session.id) =
      (l.desks session.worker).calls.count (.onDisconnected session.id) :=
    List.count_filter (by simp [Call.id])
  rw [← hcount, heq]
  have hzero : (data.map (Call.onData session.id)).count (.onDisconnected session.id) = 0 :=
    List.count_eq_zero.mpr (by simp)
  simp [hzero]

end

/-- A host whose ledger is in order keeps the protocol. -/
theorem protocol_of_inv (hinv : s.ledger.Inv) (hhost : s.HostInv) : Protocol s := by
  refine ⟨hinv.ids, hinv.tokens, hinv.about, hinv.conversation, fun w token n => ⟨?_, ?_⟩,
    fun w token ht => ?_, fun w hpc n session hn hw => ?_⟩
  · intro hlookup
    obtain ⟨session, hn, hw, ht⟩ := hinv.known w token n hlookup
    obtain ⟨-, -, hopen⟩ := hinv.open_of_lookup hlookup hn
    exact ⟨session, hn, hw, ht, hw ▸ hopen.calls⟩
  · rintro ⟨session, hn, rfl, rfl, -, hnot⟩
    rcases hinv.told n session hn with h | h
    · exact h.connected
    · have hpos : 0 < (s.workers session.worker).calls.count (.onDisconnected session.id) :=
        h.calls.symm ▸ Nat.one_pos
      exact absurd (List.count_pos_iff.mp hpos) hnot
  · obtain ⟨n, session, hn, hw, rfl⟩ := hhost.queued w token ht
    refine ⟨n, session, hn, hw, rfl, fun m hm => ?_⟩
    obtain ⟨other, hm', hw', ht'⟩ := hinv.known w session.token m hm
    exact hinv.tokens m n other session hm' hn (hw'.trans hw.symm) ht'
  · have hcloses := hhost.closes w
    rw [hpc] at hcloses
    rcases hinv.told n session hn with h | h
    · have hnone := AList.lookup_eq_none.mpr (hcloses session.token)
      cases hnone.symm.trans (hw ▸ h.connected)
    · exact hw ▸ h.calls

/-- **The callback protocol of a host whose counters do not wrap.** -/
theorem protocol_of_noWrap [DecidableEq T] {overflowChecks : Bool}
    {workerCount maxPendingSend : Nat}
    (h : Reach (machine T overflowChecks workerCount maxPendingSend) (NoWrap overflowChecks) s) :
    Protocol s :=
  protocol_of_inv (Ledger.inv_of_reach (ledger_reach h)) (hostInv_of_reach h)

/-! ## Runs -/

/-- Two streams are accepted, one for each worker. Worker 0 admits its own, passes data on and is
stopped with a close request pending. -/
def stoppedHost : State Unit :=
  ((machine Unit false 2 64).run (buildPool Unit 2 64)
    ([Action.worker 0 (.events [⟨0, true, false⟩, ⟨1, true, false⟩]), Action.worker 0 .none,
        Action.worker 0 .accepted, Action.worker 0 .accepted, Action.worker 0 .wouldBlock] ++
      List.replicate 3 (Action.worker 0 .none) ++ [Action.worker 0 (.registered true)] ++
      List.replicate 6 (Action.worker 0 .none) ++
      [Action.worker 0 (.events [⟨2, true, true⟩]), Action.worker 0 .none,
        Action.worker 0 (.read [7] false), Action.worker 0 (.written 0 false),
        Action.worker 0 (.written 0 false), Action.worker 0 .none] ++
      [Action.close () 0] ++ List.replicate 3 (Action.call ()) ++
      [Action.shutdown ()] ++ List.replicate 3 (Action.call ()) ++
      [Action.worker 0 (.events [⟨1, true, false⟩]), Action.worker 0 .none, Action.worker 0 .none,
        Action.worker 0 (.keys [2]), Action.worker 0 .none, Action.worker 0 .none])).get rfl

theorem protocol_of_noWrap_stoppedHost :
    (stoppedHost.workers 0).pc = .returnedOk ∧
      (stoppedHost.workers 0).calls = [.onAccepted 1, .onData 1 [7], .onDisconnected 1] ∧
      (stoppedHost.workers 0).pendingCloses = [2] ∧ (stoppedHost.workers 1).incoming = [2] ∧
      Protocol stoppedHost :=
  ⟨rfl, rfl, rfl, rfl, protocol_of_noWrap (.get rfl (by decide) rfl)⟩

/-- The worker of a host that has only one. -/
def lap (id token : Nat) (connections : AList fun _ : Nat => Nat) (calls : List Call)
    (events : List Event) (pc : WorkerPc) (incoming : List Nat) : Worker :=
  { buildWorker 0 with
    nextSessionId := id, nextToken := token, connections, calls, events, pc, incoming }

/-- In a build without overflow checks the worker can come to `worker`. -/
def Laps (worker : Worker) (sessions : List Session) : Prop :=
  ∃ s, Reach (machine Unit false 1 64) Machine.free s ∧ s.workerCount = 1 ∧
    s.workers 0 = worker ∧ s.sessions = sessions

theorem Laps.of_step {worker worker' : Worker} {sessions sessions' : List Session}
    (h : Laps worker sessions) (outcome : Outcome)
    (hstep : ∀ s : State Unit, s.workerCount = 1 → s.workers 0 = worker → s.sessions = sessions →
      ∃ s', workerStep false s 0 outcome = some s' ∧ s'.workerCount = 1 ∧ s'.workers 0 = worker' ∧
        s'.sessions = sessions') : Laps worker' sessions' := by
  obtain ⟨s, hr, hcount, hw, hs⟩ := h
  obtain ⟨s', hstep, h'⟩ := hstep s hcount hw hs
  have hstep' : (machine Unit false 1 64).step s (.worker 0 outcome) = some s' := by
    change (if 0 < s.workerCount then workerStep false s 0 outcome else none) = some s'
    rw [hcount, if_pos Nat.one_pos, hstep]
  exact ⟨s', .step hr trivial hstep', h'⟩

theorem Laps.step {worker worker' : Worker} {sessions : List Session} (h : Laps worker sessions)
    (outcome : Outcome)
    (hstep : ∀ s : State Unit, s.workerCount = 1 → s.workers 0 = worker →
      workerStep false s 0 outcome = some (s.setWorker 0 worker')) : Laps worker' sessions := by
  refine h.of_step outcome fun s hcount hw hs => ?_
  refine ⟨s.setWorker 0 worker', hstep s hcount hw, hcount, ?_, hs⟩
  exact Function.update_self 0 worker' s.workers

section

variable {id token : Nat} {connections : AList fun _ : Nat => Nat} {calls : List Call}
  {sessions : List Session}

theorem increment_unchecked {n : Nat} (h : n < 2 ^ 64) :
    increment false n = some ((n + 1) % 2 ^ 64) := by
  unfold increment
  split
  · rw [Nat.mod_eq_of_lt ‹_›]
  · have heq : n + 1 = 2 ^ 64 := by omega
    simp [heq]

/-- A batch with a stream to accept and the wake-up that it causes, up to the registration. -/
theorem Laps.incoming (h : Laps (lap id token connections calls [] .poll []) sessions)
    (hid : id < 2 ^ 64) :
    Laps (lap ((id + 1) % 2 ^ 64) token connections calls [] (.incoming [id]) []) sessions := by
  have h : Laps (lap id token connections calls [⟨0, true, false⟩, ⟨1, true, false⟩] .event [])
      sessions :=
    h.step (.events [⟨0, true, false⟩, ⟨1, true, false⟩]) fun s _ hw => by
      simp [workerStep, hw, lap, buildWorker]
  have h : Laps (lap id token connections calls [⟨1, true, false⟩] .accept []) sessions :=
    h.step .none fun s _ hw => by
      simp [workerStep, hw, lap, buildWorker, Event.dispatch, listenerToken]
  have h : Laps (lap ((id + 1) % 2 ^ 64) token connections calls [⟨1, true, false⟩] .accept [id])
      sessions :=
    h.step .accepted fun s hcount hw => by
      simp [workerStep, hw, hcount, lap, buildWorker, increment_unchecked hid, State.acceptStream,
        State.pushIncoming, State.setWorker]
  have h : Laps (lap ((id + 1) % 2 ^ 64) token connections calls [⟨1, true, false⟩] .event [id])
      sessions :=
    h.step .wouldBlock fun s _ hw => by
      simp [workerStep, hw, lap, buildWorker, State.goto]
  have h : Laps (lap ((id + 1) % 2 ^ 64) token connections calls [] .waker [id]) sessions :=
    h.step .none fun s _ hw => by
      simp [workerStep, hw, lap, buildWorker, Event.dispatch, listenerToken, wakerToken]
  have h : Laps (lap ((id + 1) % 2 ^ 64) token connections calls [] .takeIncoming [id]) sessions :=
    h.step .none fun s _ hw => by
      simp [workerStep, hw, lap, buildWorker, State.goto]
  exact h.step .none fun s _ hw => by
    simp [workerStep, hw, lap, buildWorker]

/-- The end of such a batch. -/
theorem Laps.poll (h : Laps (lap id token connections calls [] (.incoming []) []) sessions) :
    Laps (lap id token connections calls [] .poll []) sessions := by
  have h : Laps (lap id token connections calls [] .flushPending []) sessions :=
    h.step .none fun s _ hw => by
      simp [workerStep, hw, lap, buildWorker, State.goto]
  have h : Laps (lap id token connections calls [] (.flushing []) []) sessions :=
    h.step .none fun s _ hw => by
      simp [workerStep, hw, lap, buildWorker]
  have h : Laps (lap id token connections calls [] .closePending []) sessions :=
    h.step .none fun s _ hw => by
      simp [workerStep, hw, lap, buildWorker, State.goto]
  have h : Laps (lap id token connections calls [] (.closing []) []) sessions :=
    h.step .none fun s _ hw => by
      simp [workerStep, hw, lap, buildWorker]
  have h : Laps (lap id token connections calls [] .event []) sessions :=
    h.step .none fun s _ hw => by
      simp [workerStep, hw, lap, buildWorker, State.goto]
  exact h.step .none fun s _ hw => by
    simp [workerStep, hw, lap, buildWorker, State.goto]

/-- A stream whose registration fails leaves nothing but the two counters. -/
theorem Laps.refused (h : Laps (lap id token connections calls [] .poll []) sessions)
    (hid : id < 2 ^ 64) (htoken : token < 2 ^ 64) :
    Laps (lap ((id + 1) % 2 ^ 64) ((token + 1) % 2 ^ 64) connections calls [] .poll [])
      sessions := by
  refine Laps.poll ((h.incoming hid).step (.registered false) fun s _ hw => ?_)
  simp [workerStep, hw, lap, buildWorker, increment_unchecked htoken]

/-- A stream that is registered becomes a session. -/
theorem Laps.admitted (h : Laps (lap id token connections calls [] .poll []) sessions)
    (hid : id < 2 ^ 64) (htoken : token < 2 ^ 64) :
    Laps (lap ((id + 1) % 2 ^ 64) ((token + 1) % 2 ^ 64)
        (connections.insert token sessions.length) (calls ++ [.onAccepted id]) [] .poll [])
      (sessions ++ [⟨id, token, 0⟩]) := by
  refine Laps.poll ((h.incoming hid).of_step (.registered true) fun s hcount hw hs => ?_)
  refine ⟨(s.setWorker 0 (lap ((id + 1) % 2 ^ 64) ((token + 1) % 2 ^ 64) connections calls []
    (.incoming []) [])).addSession 0 id token, ?_, hcount, ?_, ?_⟩
  · simp [workerStep, hw, lap, buildWorker, increment_unchecked htoken]
  · simp [State.addSession, State.setWorker, hs, lap]
  · simp [State.addSession, State.setWorker, hs]

/-- After `n` refused streams the counters have gone `n` further. -/
theorem Laps.refusals (h : Laps (lap id token connections calls [] .poll []) sessions)
    (hid : id < 2 ^ 64) (htoken : token < 2 ^ 64) (n : Nat) :
    Laps (lap ((id + n) % 2 ^ 64) ((token + n) % 2 ^ 64) connections calls [] .poll [])
      sessions := by
  induction n with
  | zero => rwa [Nat.add_zero, Nat.add_zero, Nat.mod_eq_of_lt hid, Nat.mod_eq_of_lt htoken]
  | succ n ih =>
    have hlt (m : Nat) : m % 2 ^ 64 < 2 ^ 64 := Nat.mod_lt _ (Nat.two_pow_pos 64)
    have hnext := ih.refused (hlt _) (hlt _)
    rwa [Nat.mod_add_mod, Nat.mod_add_mod] at hnext

end

/-- In a build without overflow checks the 2^64th stream after the first one gets the id and the
token of the first. -/
theorem notProtocol_wrapped :
    ∃ s, Reach (machine Unit false 1 64) Machine.free s ∧
      s.sessions = [⟨1, 2, 0⟩, ⟨1, 2, 0⟩] ∧ ¬Protocol s := by
  have hstart : Laps (lap 1 2 ∅ [] [] .poll []) [] := ⟨_, .init rfl, rfl, rfl, rfl⟩
  have hfirst := hstart.admitted (by norm_num) (by norm_num)
  have hwrapped := hfirst.refusals (by norm_num) (by norm_num) (2 ^ 64 - 1)
  have hsecond := hwrapped.admitted (Nat.mod_lt _ (Nat.two_pow_pos 64))
    (Nat.mod_lt _ (Nat.two_pow_pos 64))
  obtain ⟨s, hr, -, -, hs⟩ := hsecond
  have hs : s.sessions = [⟨1, 2, 0⟩, ⟨1, 2, 0⟩] := by simpa using hs
  refine ⟨s, hr, hs, fun h => ?_⟩
  cases h.ids 0 1 ⟨1, 2, 0⟩ ⟨1, 2, 0⟩ (by simp [hs]) (by simp [hs]) rfl

end DignusActor.Reactor
