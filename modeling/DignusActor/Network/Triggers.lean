import DignusActor.Network.ReactorOutput

/-! # No stranded output

Whether a flush leaves output behind is computed under the lock of the send buffer and acted on
after it is released, so `reregister` is a step of its own here, as are the `wake` that ends a
`send` and the one of the peer behind the push of `accept` (`Wakeful.step`). A `wake` makes a later
poll return a waker event, and `reregister` succeeds. What a reactor still has to write always has
a trigger (`Wakeful.Trigger`): the interest, a wake, or a thread on its way to one. -/

namespace DignusActor.Reactor

open Machine (Reach)

variable {T : Type}

/-! ## Hosts with wakers and interests -/

/-- A wake to come: the reactor, and the session if it ends a `send`. -/
structure Wake where
  worker : Nat
  session : Option Nat
  deriving DecidableEq

structure Wakeful (T : Type) where
  host : State T
  /-- What `transport.wants_write` returned in the last flush of a session. -/
  wants : Nat → Bool
  /-- The interest last registered for a session includes `WRITABLE`. -/
  writable : Nat → Bool
  /-- The `reregister` that ends the flush of a reactor: the session, and whether its interest
  includes `WRITABLE`. -/
  reregistering : Nat → Option (Nat × Bool)
  /-- The peer that a reactor wakes in `accept`, behind the push of a stream to its `incoming`. -/
  accepting : Nat → Option Nat
  /-- A wake of a reactor that no poll has returned yet. -/
  woken : Nat → Bool
  waking : T → Option Wake

inductive Wakeful.Action (T : Type)
  /-- A step of the host; if it flushes, `transport.wants_write` returns `wantsWrite` after it. -/
  | host (act : Reactor.Action T) (wantsWrite : Bool)
  | reregister (w : Nat)
  | wakePeer (w : Nat)
  | wake (t : T)
  deriving DecidableEq

namespace Wakeful

/-- The interest that the session has, or is about to have. -/
def interest (s : Wakeful T) (w n : Nat) : Bool :=
  match s.reregistering w with
  | some (m, writable) => if m = n then writable else s.writable n
  | none => s.writable n

/-- What a step of reactor `w` to `host` does to its waker and to the interests, and the peer that
it has the reactor wake. -/
def noteWorker (s : Wakeful T) (host : State T) (w : Nat) (outcome : Outcome)
    (wantsWrite : Bool) : Wakeful T :=
  match (s.host.workers w).pc, outcome with
  | .poll, .events batch =>
    { s with
      host
      woken := Function.update s.woken w
        (s.woken w && !batch.any fun event => event.token == wakerToken) }
  | .accept, .accepted =>
    match (host.workers w).pc with
    -- the session id was the last one, and nothing is pushed
    | .panicked => { s with host }
    | _ =>
      { s with
        host
        accepting := Function.update s.accepting w (some (s.host.workers w).nextWorker) }
  | pc, .written _ closed =>
    match pc.flushes.bind (s.host.workers w).connections.lookup with
    | some n =>
      let stillPending := decide (0 < (host.cells n).outbound.pendingLen) || wantsWrite
      { s with
        host
        wants := Function.update s.wants n wantsWrite
        reregistering := if closed then s.reregistering
          else Function.update s.reregistering w (some (n, stillPending)) }
    | none => { s with host }
  | _, _ => { s with host }

variable [DecidableEq T]

/-- What a step of thread `t` to `host` has it wake. -/
def noteCall (s : Wakeful T) (host : State T) (t : T) : Wakeful T :=
  let wake (w : Nat) (session : Option Nat) : Wakeful T :=
    { s with
      host
      waking := Function.update s.waking t (some ⟨w, session⟩) }
  match s.host.callers t with
  | .sendPush n => match s.host.sessions[n]? with
    | some session => wake session.worker (some n)
    | none => { s with host }
  | .closePush n => match s.host.sessions[n]? with
    | some session => wake session.worker none
    | none => { s with host }
  | .shutdown w => if w < s.host.workerCount then wake w none else { s with host }
  | _ => { s with host }

def note (s : Wakeful T) (host : State T) (act : Reactor.Action T) (wantsWrite : Bool) :
    Wakeful T :=
  match act with
  | .worker w outcome => s.noteWorker host w outcome wantsWrite
  | .call t => s.noteCall host t
  | _ => { s with host }

/-- The thread or reactor of the step has something to do first. -/
def blocked (s : Wakeful T) : Reactor.Action T → Bool
  | .worker w _ => (s.reregistering w).isSome || (s.accepting w).isSome
  | .send t _ _ | .close t _ | .shutdown t | .call t => (s.waking t).isSome

def step (overflowChecks : Bool) (s : Wakeful T) : Action T → Option (Wakeful T)
  | .host act wantsWrite =>
    if s.blocked act then none
    else (Reactor.step overflowChecks s.host act).map fun host => s.note host act wantsWrite
  | .reregister w => (s.reregistering w).map fun (n, writable) =>
    { s with
      writable := Function.update s.writable n writable
      reregistering := Function.update s.reregistering w none }
  | .wakePeer w => (s.accepting w).map fun peer =>
    { s with
      woken := Function.update s.woken peer true
      accepting := Function.update s.accepting w none }
  | .wake t => (s.waking t).map fun wake =>
    { s with
      woken := Function.update s.woken wake.worker true
      waking := Function.update s.waking t none }

omit [DecidableEq T] in
def start (host : State T) : Wakeful T where
  host := host
  wants _ := false
  writable _ := false
  reregistering _ := none
  accepting _ := none
  woken _ := false
  waking _ := none

end Wakeful

def waking (T : Type) [DecidableEq T] (overflowChecks : Bool) (workerCount maxPendingSend : Nat) :
    Machine (Wakeful T) (Wakeful.Action T) where
  Init s := s = Wakeful.start (buildPool T workerCount maxPendingSend)
  step := Wakeful.step overflowChecks

/-! ## The triggers -/

/-- The session of the `send` that a thread is in. -/
def CallerPc.sends : CallerPc → Option Nat
  | .sendDisposed n _ | .sendStopped n _ | .sendAppend n _ | .sendPush n => some n
  | _ => none

namespace Wakeful

variable (s : Wakeful T)

/-- The session has something to write. -/
def Needs (n : Nat) : Prop := 0 < (s.host.cells n).outbound.pendingLen ∨ s.wants n = true

/-- A waker event of the reactor is outstanding. -/
def Outstanding (w : Nat) : Prop := s.woken w = true ∨ (s.host.workers w).Heeds

/-- A `send` on the session is between its append and its wake. -/
def Sending (n : Nat) : Prop :=
  ∃ t, s.host.callers t = .sendPush n ∨ ∃ wake ∈ s.waking t, wake.session = some n

/-- What makes reactor `w` write to session `n`, its connection with this token. -/
inductive Trigger (w token n : Nat) : Prop
  | interest : s.interest w n = true → Trigger w token n
  | pending : token ∈ (s.host.workers w).pendingWrites → s.Outstanding w → Trigger w token n
  | flushing : token ∈ (s.host.workers w).pc.toFlush → Trigger w token n
  | sending (t : T) : s.host.callers t = .sendPush n → Trigger w token n
  | waking (t : T) (wake : Wake) : s.waking t = some wake → wake.session = some n →
    token ∈ (s.host.workers w).pendingWrites → Trigger w token n
  | closing (tokens : List Nat) : (s.host.workers w).pc = .flushClose token tokens →
    Trigger w token n
  | handling : (s.host.workers w).pc = .handleClose token → Trigger w token n

structure Inv : Prop where
  known : ∀ t n, (s.host.callers t).sends = some n → n < s.host.sessions.length
  connected : ∀ w token n, (s.host.workers w).connections.lookup token = some n →
    ∃ id, s.host.sessions[n]? = some ⟨id, token, w⟩
  unknown : ∀ n, s.host.sessions.length ≤ n → ¬s.Needs n
  polled : ∀ w, (s.host.workers w).pc = .poll → (s.host.workers w).events = []
  reregistering : ∀ w n b, s.reregistering w = some (n, b) →
    ∃ session, s.host.sessions[n]? = some session ∧ session.worker = w
  waking : ∀ t wake n, s.waking t = some wake → wake.session = some n →
    ∃ session, s.host.sessions[n]? = some session ∧ session.worker = wake.worker
  triggered : ∀ w, (s.host.workers w).pc.Running → ∀ token n,
    (s.host.workers w).connections.lookup token = some n → s.Needs n → s.Trigger w token n

end Wakeful

section

variable {s : Wakeful T} {host : State T} {overflowChecks : Bool} {w : Nat} {outcome : Outcome}
  {wantsWrite : Bool}

/-! ## The steps of the reactors -/

variable (s host w outcome wantsWrite) in
/-- What `noteWorker` leaves alone. -/
theorem Wakeful.noteWorker_same : (s.noteWorker host w outcome wantsWrite).host = host ∧
    (s.noteWorker host w outcome wantsWrite).waking = s.waking ∧
    (s.noteWorker host w outcome wantsWrite).writable = s.writable := by
  unfold noteWorker
  split
  · exact ⟨rfl, rfl, rfl⟩
  · split <;> exact ⟨rfl, rfl, rfl⟩
  · split <;> exact ⟨rfl, rfl, rfl⟩
  · exact ⟨rfl, rfl, rfl⟩

variable (host w outcome wantsWrite) in
/-- A wake stays until a poll returns it. -/
theorem Wakeful.noteWorker_woken {v : Nat} (hv : s.woken v = true) :
    (s.noteWorker host w outcome wantsWrite).woken v = true ∨
      v = w ∧ ∃ batch, (s.host.workers w).pc = .poll ∧ outcome = .events batch ∧
        ∃ event ∈ batch, event.token = wakerToken := by
  unfold noteWorker
  split
  · rename_i batch hpc
    dsimp only
    by_cases hvw : v = w
    · subst hvw
      rw [Function.update_self, hv, Bool.true_and]
      cases hany : batch.any fun event => event.token == wakerToken with
      | false => exact .inl rfl
      | true =>
        obtain ⟨event, hmem, htoken⟩ := List.any_eq_true.mp hany
        exact .inr ⟨rfl, batch, hpc, rfl, event, hmem, beq_iff_eq.mp htoken⟩
    · rw [Function.update_of_ne hvw]
      exact .inl hv
  · split <;> exact .inl hv
  · split <;> exact .inl hv
  · exact .inl hv

variable (host outcome wantsWrite) in
/-- A reactor on its way to wake a peer stays on it. -/
theorem Wakeful.noteWorker_accepting (hfree : s.accepting w = none) {v peer : Nat}
    (hv : s.accepting v = some peer) :
    (s.noteWorker host w outcome wantsWrite).accepting v = some peer := by
  have hvw : v ≠ w := by
    rintro rfl
    cases hfree.symm.trans hv
  unfold noteWorker
  split
  · exact hv
  · split
    · exact hv
    · exact (Function.update_of_ne hvw ..).trans hv
  · split <;> exact hv
  · exact hv

/-- What a flush notes. -/
theorem Wakeful.noteWorker_flush {n count : Nat} {closed : Bool}
    (hwrites : s.host.writesTo w = some n) :
    s.noteWorker host w (.written count closed) wantsWrite = { s with
      host
      wants := Function.update s.wants n wantsWrite
      reregistering := if closed then s.reregistering
        else Function.update s.reregistering w
          (some (n, decide (0 < (host.cells n).outbound.pendingLen) || wantsWrite)) } := by
  unfold State.writesTo at hwrites
  unfold noteWorker
  split
  · rename_i h
    cases h
  · rename_i h
    cases h
  · rename_i h
    cases h
    rw [hwrites]
  · rename_i h _ _
    exact absurd rfl (h count closed)

variable (host outcome wantsWrite) in
theorem Wakeful.noteWorker_quiet (hwrites : s.host.writesTo w = none) :
    (s.noteWorker host w outcome wantsWrite).wants = s.wants ∧
      (s.noteWorker host w outcome wantsWrite).reregistering = s.reregistering := by
  unfold State.writesTo at hwrites
  unfold noteWorker
  split
  · exact ⟨rfl, rfl⟩
  · split <;> exact ⟨rfl, rfl⟩
  · rw [hwrites]
    exact ⟨rfl, rfl⟩
  · exact ⟨rfl, rfl⟩

variable (wantsWrite) in
/-- A step of a reactor writes to one session, or to none. -/
theorem Wakeful.noteWorker_cases (h : workerStep overflowChecks s.host w outcome = some host) :
    (s.host.writesTo w = none ∧ (∀ n, (host.cells n).outbound = (s.host.cells n).outbound) ∧
      (s.noteWorker host w outcome wantsWrite).wants = s.wants ∧
      (s.noteWorker host w outcome wantsWrite).reregistering = s.reregistering) ∨
    ∃ token m count closed, (s.host.workers w).pc.flushes = some token ∧
      (s.host.workers w).connections.lookup token = some m ∧ s.host.writesTo w = some m ∧
      host = (s.host.write m count).goto w ((s.host.workers w).pc.flushed closed) ∧
      s.noteWorker host w outcome wantsWrite = { s with
        host
        wants := Function.update s.wants m wantsWrite
        reregistering := if closed then s.reregistering
          else Function.update s.reregistering w
            (some (m, decide (0 < (host.cells m).outbound.pendingLen) || wantsWrite)) } := by
  have hquiet (hwrites : s.host.writesTo w = none) :=
    Wakeful.noteWorker_quiet host outcome wantsWrite hwrites
  cases hflushes : (s.host.workers w).pc.flushes with
  | none =>
    have hwrites : s.host.writesTo w = none := by
      rw [State.writesTo, hflushes]
      rfl
    exact .inl ⟨hwrites, workerStep_outbound h hflushes, hquiet hwrites⟩
  | some token =>
    rcases workerStep_flush h hflushes with ⟨hnone, hhost⟩ | ⟨m, count, closed, hm, ho, -, hhost⟩
    · have hwrites : s.host.writesTo w = none := by
        rw [State.writesTo, hflushes]
        exact hnone
      refine .inl ⟨hwrites, fun n => ?_, hquiet hwrites⟩
      rw [hhost]
      rfl
    · have hwrites : s.host.writesTo w = some m := by
        rw [State.writesTo, hflushes]
        exact hm
      refine .inr ⟨token, m, count, closed, rfl, hm, hwrites, hhost, ?_⟩
      rw [ho]
      exact Wakeful.noteWorker_flush hwrites

theorem Wakeful.noteWorker_needs (h : workerStep overflowChecks s.host w outcome = some host)
    {n : Nat} (hwrites : s.host.writesTo w ≠ some n)
    (hn : (s.noteWorker host w outcome wantsWrite).Needs n) : s.Needs n := by
  rcases s.noteWorker_cases wantsWrite h with
    ⟨-, houtbound, hwants, -⟩ | ⟨token, m, count, closed, -, -, hm, hhost, hnote⟩
  · rw [Needs, (noteWorker_same ..).1, houtbound, hwants] at hn
    exact hn
  · have hne : n ≠ m := by
      rintro rfl
      exact hwrites hm
    rw [hnote] at hn
    refine hn.imp (fun hn => ?_) fun hn => (Function.update_of_ne hne ..).symm.trans hn
    dsimp only at hn
    rw [hhost] at hn
    rwa [State.write_outbound_of_ne _ hne] at hn

theorem Wakeful.noteWorker_interest (h : workerStep overflowChecks s.host w outcome = some host)
    (hfree : s.reregistering w = none) {v n : Nat} (hwrites : s.host.writesTo w ≠ some n) :
    (s.noteWorker host w outcome wantsWrite).interest v n = s.interest v n := by
  rcases s.noteWorker_cases wantsWrite h with
    ⟨-, -, -, hsame⟩ | ⟨token, m, count, closed, -, -, hm, -, hnote⟩
  · simp only [interest, hsame, (noteWorker_same ..).2.2]
  · have hne : m ≠ n := by
      rintro rfl
      exact hwrites hm
    rw [hnote]
    cases closed with
    | true => rfl
    | false =>
      simp only [interest, Bool.false_eq_true, if_false]
      by_cases hv : v = w
      · subst hv
        simp [hfree, hne]
      · rw [Function.update_of_ne hv]

variable (wantsWrite) in
/-- A waker event stays outstanding until `flush_pending` has taken its tokens. -/
theorem Wakeful.Outstanding.worker (hinv : s.Inv)
    (h : workerStep overflowChecks s.host w outcome = some host) {v : Nat}
    (hrun : (host.workers v).pc.Running) (hout : s.Outstanding v) :
    (s.noteWorker host w outcome wantsWrite).Outstanding v ∨
      v = w ∧ (host.workers w).pendingWrites = [] := by
  have hhost := (s.noteWorker_same host w outcome wantsWrite).1
  unfold Outstanding
  rw [hhost]
  rcases hout with hwoken | hheeds
  · rcases s.noteWorker_woken host w outcome wantsWrite hwoken with
      hwoken | ⟨rfl, batch, hpc, rfl, hevent⟩
    · exact .inl (.inl hwoken)
    · simp only [workerStep, hpc, Option.some.injEq] at h
      subst h
      exact .inl (.inr (.inl (by simpa [State.setWorker] using hevent)))
  · by_cases hv : v = w
    · subst hv
      rcases workerStep_heeds h (hinv.polled v) hrun hheeds with hheeds | hpc
      · exact .inl (.inr hheeds)
      · cases outcome <;> simp only [workerStep, hpc, Option.some.injEq, reduceCtorEq] at h
        subst h
        exact .inr ⟨rfl, by simp [State.setWorker]⟩
    · obtain ⟨incoming, heq⟩ := (workerStep_move h).others hv
      rw [heq]
      exact .inl (.inr hheeds)

/-- A trigger stays, but for the one of a session that is written to. -/
theorem Wakeful.Trigger.worker (hinv : s.Inv)
    (h : workerStep overflowChecks s.host w outcome = some host) (hfree : s.reregistering w = none)
    {v token n : Nat} (hn : (s.host.workers v).connections.lookup token = some n)
    (hn' : (host.workers v).connections.lookup token = some n)
    (hwrites : s.host.writesTo w ≠ some n) (hrun : (host.workers v).pc.Running)
    (ht : s.Trigger v token n) : (s.noteWorker host w outcome wantsWrite).Trigger v token n := by
  obtain ⟨hhost, hwaking, -⟩ := s.noteWorker_same host w outcome wantsWrite
  have hcloses (pc : WorkerPc) (hclose : v = w → host = (s.host.close w token).goto w pc) :
      v ≠ w := by
    rintro rfl
    rw [hclose rfl, State.goto_connections, State.close_lookup] at hn'
    cases hn'
  have hsame (hv : v ≠ w) : (host.workers v).pc = (s.host.workers v).pc := by
    obtain ⟨incoming, heq⟩ := (workerStep_move h).others hv
    rw [heq]
  cases ht with
  | interest ht => exact .interest ((s.noteWorker_interest h hfree hwrites).trans ht)
  | pending hmem hout =>
    rcases workerStep_pending h hmem with hmem | ⟨rfl, -, -, hmem⟩
    · rcases hout.worker wantsWrite hinv h hrun with hout | ⟨rfl, hnil⟩
      · exact .pending (by rwa [hhost]) hout
      · rw [hnil] at hmem
        cases hmem
    · exact .flushing (by rwa [hhost])
  | flushing hmem =>
    rcases workerStep_toFlush h hmem with hmem | ⟨rfl, tokens, hpc⟩
    · exact .flushing (by rwa [hhost])
    · refine absurd ?_ hwrites
      rw [State.writesTo, hpc]
      exact hn
  | sending t ht =>
    refine .sending t ?_
    rw [hhost, (workerStep_move h).callers]
    exact ht
  | waking t wake ht hsession hmem =>
    rcases workerStep_pending h hmem with hmem | ⟨rfl, -, -, hmem⟩
    · exact .waking t wake (hwaking ▸ ht) hsession (by rwa [hhost])
    · exact .flushing (by rwa [hhost])
  | closing tokens hpc =>
    refine .closing tokens ?_
    have hv := hcloses (.flushing tokens) fun hv => by
      subst hv
      cases outcome <;> simp only [workerStep, hpc, Option.some.injEq, reduceCtorEq] at h
      exact h.symm
    rw [hhost, hsame hv]
    exact hpc
  | handling hpc =>
    refine .handling ?_
    have hv := hcloses .event fun hv => by
      subst hv
      cases outcome <;> simp only [workerStep, hpc, Option.some.injEq, reduceCtorEq] at h
      exact h.symm
    rw [hhost, hsame hv]
    exact hpc

/-- The session that a step writes to has its interest, or is about to be closed. -/
theorem Wakeful.trigger_written (hinv : s.Inv)
    (h : workerStep overflowChecks s.host w outcome = some host) {v token n : Nat}
    (hn : (s.host.workers v).connections.lookup token = some n)
    (hwrites : s.host.writesTo w = some n)
    (hneeds : (s.noteWorker host w outcome wantsWrite).Needs n) :
    (s.noteWorker host w outcome wantsWrite).Trigger v token n := by
  rcases s.noteWorker_cases wantsWrite h with
    ⟨hnone, -⟩ | ⟨first, m, count, closed, hflushes, hm, hwrites', hhost, hnote⟩
  · cases hnone.symm.trans hwrites
  · cases hwrites'.symm.trans hwrites
    -- the session has one reactor and one token
    obtain ⟨i, hi⟩ := hinv.connected v token n hn
    obtain ⟨j, hj⟩ := hinv.connected w first n hm
    cases hi.symm.trans hj
    rw [hnote] at hneeds ⊢
    cases closed with
    | true =>
      have hpc : (host.workers w).pc = (s.host.workers w).pc.flushed true := by
        rw [hhost]
        exact State.goto_pc ..
      cases hpc' : (s.host.workers w).pc with
      | flushing tokens =>
        rw [hpc'] at hflushes hpc
        cases tokens with
        | nil => cases hflushes
        | cons first tokens =>
          cases hflushes
          exact .closing tokens hpc
      | readFlush | writableFlush =>
        rw [hpc'] at hflushes hpc
        cases hflushes
        exact .handling hpc
      | _ =>
        rw [hpc'] at hflushes
        cases hflushes
    | false =>
      refine .interest ?_
      simp only [interest, Bool.false_eq_true, if_false, Function.update_self, if_true,
        Bool.or_eq_true, decide_eq_true_eq]
      exact hneeds.imp id fun hwants => (Function.update_self ..).symm.trans hwants

theorem Wakeful.Inv.worker (hinv : s.Inv)
    (h : workerStep overflowChecks s.host w outcome = some host)
    (hfree : s.reregistering w = none) : (s.noteWorker host w outcome wantsWrite).Inv := by
  obtain ⟨hhost, hwaking, -⟩ := s.noteWorker_same host w outcome wantsWrite
  obtain ⟨rest, hsessions⟩ := (workerStep_move h).sessions
  have hkeep {n : Nat} {session : Session} (hn : s.host.sessions[n]? = some session) :
      host.sessions[n]? = some session := by
    rw [← hsessions, List.getElem?_append_left (List.getElem?_eq_some_iff.mp hn).1]
    exact hn
  have hunknown {n : Nat} (hn : s.host.sessions.length ≤ n) :
      ¬(s.noteWorker host w outcome wantsWrite).Needs n := by
    refine fun hneeds => hinv.unknown n hn (noteWorker_needs h (fun hwrites => ?_) hneeds)
    obtain ⟨token, -, hlookup⟩ := Option.bind_eq_some_iff.mp hwrites
    obtain ⟨id, hid⟩ := hinv.connected w token n hlookup
    exact absurd (List.getElem?_eq_some_iff.mp hid).1 (Nat.not_lt_of_le hn)
  refine ⟨fun t n ht => ?_, fun v token n hn => ?_, fun n hn => ?_, fun v hpoll => ?_,
    fun v n b hv => ?_, fun t wake n ht hsession => ?_, fun v hrun token n hn hneeds => ?_⟩
  · rw [hhost] at ht ⊢
    rw [(workerStep_move h).callers] at ht
    rw [← hsessions, List.length_append]
    exact Nat.lt_add_right _ (hinv.known t n ht)
  · rw [hhost] at hn ⊢
    rcases workerStep_connections h hn with hn | ⟨-, hnew⟩
    · obtain ⟨id, hid⟩ := hinv.connected v token n hn
      exact ⟨id, hkeep hid⟩
    · exact hnew
  · refine hunknown ?_
    rw [hhost, ← hsessions, List.length_append] at hn
    omega
  · rw [hhost] at hpoll ⊢
    by_cases hv : v = w
    · subst hv
      exact workerStep_polled h hpoll
    · obtain ⟨incoming, heq⟩ := (workerStep_move h).others hv
      rw [heq] at hpoll ⊢
      exact hinv.polled v hpoll
  · rw [hhost]
    have hold (hv : s.reregistering v = some (n, b)) :
        ∃ session, host.sessions[n]? = some session ∧ session.worker = v := by
      obtain ⟨session, hsession, hworker⟩ := hinv.reregistering v n b hv
      exact ⟨session, hkeep hsession, hworker⟩
    rcases s.noteWorker_cases wantsWrite h with
      ⟨-, -, -, hsame⟩ | ⟨token, m, count, closed, -, hm, -, -, hnote⟩
    · exact hold (hsame ▸ hv)
    · rw [hnote] at hv
      cases closed with
      | true => exact hold hv
      | false =>
        simp only [Bool.false_eq_true, if_false] at hv
        by_cases hvw : v = w
        · subst hvw
          rw [Function.update_self] at hv
          cases hv
          obtain ⟨id, hid⟩ := hinv.connected v token n hm
          exact ⟨_, hkeep hid, rfl⟩
        · rw [Function.update_of_ne hvw] at hv
          exact hold hv
  · rw [hwaking] at ht
    rw [hhost]
    obtain ⟨session, hn, hworker⟩ := hinv.waking t wake n ht hsession
    exact ⟨session, hkeep hn, hworker⟩
  · rw [hhost] at hrun hn
    have hrun' : (s.host.workers v).pc.Running := by
      by_cases hv : v = w
      · subst hv
        exact workerStep_running h hrun
      · obtain ⟨incoming, heq⟩ := (workerStep_move h).others hv
        rw [heq] at hrun
        exact hrun
    rcases workerStep_connections h hn with hold | ⟨hnew, -⟩
    · by_cases hwrites : s.host.writesTo w = some n
      · exact trigger_written hinv h hold hwrites hneeds
      · exact (hinv.triggered v hrun' token n hold (noteWorker_needs h hwrites hneeds)).worker
          hinv h hfree hold hn hwrites hrun
    · exact absurd hneeds (hunknown (Nat.le_of_eq hnew.symm))

end

/-! ## The steps of the threads -/

section

variable [DecidableEq T] {s s' : Wakeful T} {host : State T} {overflowChecks : Bool}

/-- A thread outside only adds to the lists of a reactor. -/
structure Worker.Served (a b : Worker) : Prop where
  connections : b.connections = a.connections
  events : b.events = a.events
  pc : b.pc = a.pc
  pendingWrites : ∀ token ∈ a.pendingWrites, token ∈ b.pendingWrites

theorem Worker.Served.refl (a : Worker) : a.Served a := ⟨rfl, rfl, rfl, fun _ => id⟩

theorem callerStep_workers {s s' : State T} {t : T} (h : callerStep s t = some s') (v : Nat) :
    (s.workers v).Served (s'.workers v) := by
  have hset {w : Nat} {worker : Worker} (hw : (s.workers w).Served worker) :
      (s.workers v).Served (Function.update s.workers w worker v) := by
    by_cases hv : v = w
    · subst hv
      rwa [Function.update_self]
    · rw [Function.update_of_ne hv]
      exact .refl _
  unfold callerStep at h
  cases hpc : s.callers t with
  | idle | sent => simp [hpc] at h
  | sendDisposed | closeDisposed =>
    simp only [hpc, Option.some.injEq] at h
    subst h
    exact .refl _
  | sendStopped =>
    simp only [hpc, Option.map_eq_some_iff] at h
    obtain ⟨session, -, rfl⟩ := h
    exact .refl _
  | sendAppend | closeSwap =>
    simp only [hpc] at h
    split at h <;> cases h <;> exact .refl _
  | sendPush n =>
    simp only [hpc, Option.map_eq_some_iff] at h
    obtain ⟨session, -, rfl⟩ := h
    exact hset ⟨rfl, rfl, rfl, fun _ => List.mem_append_left _⟩
  | closePush n =>
    simp only [hpc, Option.map_eq_some_iff] at h
    obtain ⟨session, -, rfl⟩ := h
    exact hset ⟨rfl, rfl, rfl, fun _ => id⟩
  | shutdown w =>
    simp only [hpc] at h
    split at h <;> cases h
    · exact hset ⟨rfl, rfl, rfl, fun _ => id⟩
    · exact .refl _

/-- A thread goes on in its `send`. -/
theorem callerStep_sends {s s' : State T} {t : T} (h : callerStep s t = some s') {n : Nat}
    (hn : (s'.callers t).sends = some n) : (s.callers t).sends = some n := by
  have hset {u : State T} {pc : CallerPc} (hs : s' = u.setCaller t pc)
      (hpc : ∀ n, pc.sends = some n → (s.callers t).sends = some n) :
      (s.callers t).sends = some n := by
    rw [hs] at hn
    exact hpc n (by simpa [State.setCaller] using hn)
  unfold callerStep at h
  cases hpc : s.callers t with
  | idle | sent => simp [hpc] at h
  | sendDisposed m bytes | closeDisposed m =>
    simp only [hpc, Option.some.injEq] at h
    rw [← hpc]
    refine hset h.symm fun n hn => ?_
    split at hn
    · cases hn
    · rw [hpc]
      exact hn
  | sendStopped m bytes =>
    simp only [hpc, Option.map_eq_some_iff] at h
    obtain ⟨session, -, h⟩ := h
    rw [← hpc]
    refine hset h.symm fun n hn => ?_
    split at hn
    · cases hn
    · rw [hpc]
      exact hn
  | sendAppend m bytes =>
    simp only [hpc] at h
    rw [← hpc]
    split at h <;> cases h
    · refine hset rfl fun n hn => ?_
      rw [hpc]
      exact hn
    · exact hset rfl fun _ hn => by cases hn
  | sendPush m | closePush m =>
    simp only [hpc, Option.map_eq_some_iff] at h
    obtain ⟨session, -, h⟩ := h
    rw [← hpc]
    exact hset h.symm fun _ hn => by cases hn
  | closeSwap m | shutdown w =>
    simp only [hpc] at h
    rw [← hpc]
    split at h <;> cases h <;> exact hset rfl fun _ hn => by cases hn

/-- What `noteCall` leaves alone. -/
structure Wakeful.Beside (s : Wakeful T) (t : T) (s' : Wakeful T) : Prop where
  wants : s'.wants = s.wants
  writable : s'.writable = s.writable
  reregistering : s'.reregistering = s.reregistering
  accepting : s'.accepting = s.accepting
  woken : s'.woken = s.woken
  waking : ∀ u, u ≠ t → s'.waking u = s.waking u

theorem Wakeful.noteCall_beside (s : Wakeful T) (host : State T) (t : T) :
    s.Beside t (s.noteCall host t) ∧ (s.noteCall host t).host = host := by
  have hwake (u : T) (hu : u ≠ t) (wake : Option Wake) :
      Function.update s.waking t wake u = s.waking u := Function.update_of_ne hu ..
  unfold noteCall
  dsimp only
  split
  · split
    · exact ⟨⟨rfl, rfl, rfl, rfl, rfl, fun u hu => hwake u hu _⟩, rfl⟩
    · exact ⟨⟨rfl, rfl, rfl, rfl, rfl, fun _ _ => rfl⟩, rfl⟩
  · split
    · exact ⟨⟨rfl, rfl, rfl, rfl, rfl, fun u hu => hwake u hu _⟩, rfl⟩
    · exact ⟨⟨rfl, rfl, rfl, rfl, rfl, fun _ _ => rfl⟩, rfl⟩
  · split
    · exact ⟨⟨rfl, rfl, rfl, rfl, rfl, fun u hu => hwake u hu _⟩, rfl⟩
    · exact ⟨⟨rfl, rfl, rfl, rfl, rfl, fun _ _ => rfl⟩, rfl⟩
  · exact ⟨⟨rfl, rfl, rfl, rfl, rfl, fun _ _ => rfl⟩, rfl⟩

/-- The push of `send` leaves its thread with a wake. -/
theorem Wakeful.noteCall_push {t : T} {n : Nat} {session : Session}
    (hpc : s.host.callers t = .sendPush n) (hn : s.host.sessions[n]? = some session) :
    (s.noteCall host t).waking t = some ⟨session.worker, some n⟩ := by
  unfold noteCall
  simp only [hpc, hn, Function.update_self]

/-- A thread comes to a wake that ends a `send` by its push. -/
theorem Wakeful.noteCall_waking {t : T} (hfree : s.waking t = none) {wake : Wake} {n : Nat}
    (ht : (s.noteCall host t).waking t = some wake) (hwake : wake.session = some n) :
    ∃ session, s.host.sessions[n]? = some session ∧ session.worker = wake.worker := by
  unfold noteCall at ht
  dsimp only at ht
  split at ht
  · split at ht
    · rename_i session hm
      dsimp only at ht
      rw [Function.update_self] at ht
      cases ht
      cases hwake
      exact ⟨session, hm, rfl⟩
    · cases hfree.symm.trans ht
  · split at ht
    · dsimp only at ht
      rw [Function.update_self] at ht
      cases ht
      cases hwake
    · cases hfree.symm.trans ht
  · split at ht
    · dsimp only at ht
      rw [Function.update_self] at ht
      cases ht
      cases hwake
    · cases hfree.symm.trans ht
  · cases hfree.symm.trans ht

/-- A trigger that is not the step's own stays. -/
theorem Wakeful.Trigger.beside {t : T} (hb : s.Beside t s') {w token n : Nat}
    (hworker : (s.host.workers w).Served (s'.host.workers w))
    (hcallers : ∀ u, u ≠ t → s'.host.callers u = s.host.callers u) (hfree : s.waking t = none)
    (ht : s.Trigger w token n) :
    s'.Trigger w token n ∨ s.host.callers t = .sendPush n := by
  cases ht with
  | interest ht =>
    refine .inl (.interest (Eq.trans ?_ ht))
    simp only [Wakeful.interest, hb.reregistering, hb.writable]
  | pending hmem hout =>
    refine .inl (.pending (hworker.pendingWrites token hmem) ?_)
    rw [Outstanding, Worker.Heeds, hworker.events, hworker.pc, hb.woken]
    exact hout
  | flushing hmem =>
    refine .inl (.flushing ?_)
    rw [hworker.pc]
    exact hmem
  | sending u hu =>
    by_cases hut : u = t
    · exact .inr (hut ▸ hu)
    · exact .inl (.sending u ((hcallers u hut).trans hu))
  | waking u wake hu hsession hmem =>
    have hut : u ≠ t := by
      rintro rfl
      cases hfree.symm.trans hu
    exact .inl (.waking u wake ((hb.waking u hut).trans hu) hsession
      (hworker.pendingWrites token hmem))
  | closing tokens hpc => exact .inl (.closing tokens (hworker.pc.trans hpc))
  | handling hpc => exact .inl (.handling (hworker.pc.trans hpc))

theorem Wakeful.Inv.call (hinv : s.Inv) {t : T} (hfree : s.waking t = none)
    (h : callerStep s.host t = some host) : (s.noteCall host t).Inv := by
  obtain ⟨hb, hhost⟩ := s.noteCall_beside host t
  have hsessions := (callerStep_called h).1
  obtain ⟨hcallers, houtbound⟩ := callerStep_output h
  have hserved := callerStep_workers h
  have hneeds {n : Nat} (hn : (s.noteCall host t).Needs n) :
      s.Needs n ∨ host.callers t = .sendPush n := by
    rw [Needs, hhost, hb.wants] at hn
    rcases houtbound n with hsame | ⟨hpush, -⟩
    · rw [hsame] at hn
      exact .inl hn
    · exact .inr hpush
  have hknown {u : T} {n : Nat} (hu : (host.callers u).sends = some n) :
      n < s.host.sessions.length := by
    by_cases hut : u = t
    · subst hut
      exact hinv.known u n (callerStep_sends h hu)
    · rw [hcallers u hut] at hu
      exact hinv.known u n hu
  refine ⟨fun u n hu => ?_, fun w token n hn => ?_, fun n hn hneed => ?_, fun w hpoll => ?_,
    fun w n b hw => ?_, fun u wake n hu hwake => ?_, fun w hrun token n hn hneed => ?_⟩
  · rw [hhost] at hu ⊢
    exact hsessions ▸ hknown hu
  · rw [hhost] at hn ⊢
    rw [(hserved w).connections] at hn
    exact hsessions ▸ hinv.connected w token n hn
  · rw [hhost, hsessions] at hn
    rcases hneeds hneed with hold | hpush
    · exact hinv.unknown n hn hold
    · exact Nat.not_lt_of_le hn (hknown (by rw [hpush]; rfl))
  · rw [hhost] at hpoll ⊢
    rw [(hserved w).events]
    exact hinv.polled w ((hserved w).pc.symm.trans hpoll)
  · rw [hhost, hsessions]
    exact hinv.reregistering w n b (hb.reregistering ▸ hw)
  · rw [hhost, hsessions]
    by_cases hut : u = t
    · subst hut
      exact noteCall_waking hfree hu hwake
    · exact hinv.waking u wake n ((hb.waking u hut).symm.trans hu) hwake
  · rw [hhost] at hrun hn
    rw [(hserved w).connections] at hn
    rw [(hserved w).pc] at hrun
    rcases hneeds hneed with hold | hpush
    · rcases (hinv.triggered w hrun token n hn hold).beside hb (by rw [hhost]; exact hserved w)
        (by rw [hhost]; exact hcallers) hfree with htrigger | hpc
      · exact htrigger
      · -- the token goes into the list, and the thread to its wake
        obtain ⟨id, hid⟩ := hinv.connected w token n hn
        refine .waking t _ (noteCall_push hpc hid) rfl ?_
        simp only [callerStep, hpc, hid, Option.map_some, Option.some.injEq] at h
        rw [hhost, ← h]
        simp [State.setCaller, State.setWorker]
    · exact .sending t (by rw [hhost, hpush])

/-- A thread starts a call. -/
theorem Wakeful.Inv.begin (hinv : s.Inv) {t : T} {pc : CallerPc}
    (h : s.host.begin t pc = some host) (hfree : s.waking t = none)
    (hpc : ∀ n, pc.sends = some n → n < s.host.sessions.length) :
    Wakeful.Inv { s with host } := by
  have hidle : s.host.callers t = .idle ∨ ∃ result, s.host.callers t = .sent result := by
    unfold State.begin at h
    split at h
    · exact .inl ‹_›
    · exact .inr ⟨_, ‹_›⟩
    · cases h
  cases State.begin_eq h
  refine { hinv with known := fun u n hu => ?_, triggered := fun w hrun token n hn hneed => ?_ }
  · by_cases hut : u = t
    · subst hut
      exact hpc n (by simpa [State.setCaller] using hu)
    · exact hinv.known u n (by simpa [State.setCaller, hut] using hu)
  · have hbeside : s.Beside t { s with host := s.host.setCaller t pc } :=
      ⟨rfl, rfl, rfl, rfl, rfl, fun _ _ => rfl⟩
    refine ((hinv.triggered w hrun token n hn hneed).beside hbeside (.refl _)
      (fun u hu => Function.update_of_ne hu ..) hfree).resolve_right fun hpush => ?_
    rcases hidle with hidle | ⟨result, hidle⟩ <;> rw [hidle] at hpush <;> cases hpush

omit [DecidableEq T] in
theorem Wakeful.Inv.reregister (hinv : s.Inv) {w n : Nat} {b : Bool}
    (hw : s.reregistering w = some (n, b)) :
    Wakeful.Inv { s with
      writable := Function.update s.writable n b
      reregistering := Function.update s.reregistering w none } := by
  obtain ⟨session, hn, hworker⟩ := hinv.reregistering w n b hw
  refine { hinv with
    reregistering := fun v m c hv => ?_
    triggered := fun v hrun token m hm hneed => ?_ }
  · dsimp only at hv
    by_cases hvw : v = w
    · rw [hvw, Function.update_self] at hv
      cases hv
    · rw [Function.update_of_ne hvw] at hv
      exact hinv.reregistering v m c hv
  · have hsame : interest { s with
        writable := Function.update s.writable n b
        reregistering := Function.update s.reregistering w none } v m = s.interest v m := by
      simp only [interest]
      by_cases hvw : v = w
      · subst hvw
        rw [Function.update_self, hw]
        dsimp only
        by_cases hmn : n = m
        · rw [if_pos hmn, hmn, Function.update_self]
        · rw [if_neg hmn, Function.update_of_ne (Ne.symm hmn)]
      · -- the session is one of reactor `w`
        have hmn : m ≠ n := by
          rintro rfl
          obtain ⟨id, hid⟩ := hinv.connected v token m hm
          cases hn.symm.trans hid
          exact hvw hworker
        rw [Function.update_of_ne hvw, Function.update_of_ne hmn]
    cases hinv.triggered v hrun token m hm hneed with
    | interest h => exact .interest (hsame.trans h)
    | pending hmem hout => exact .pending hmem hout
    | flushing hmem => exact .flushing hmem
    | sending t ht => exact .sending t ht
    | waking t wake ht hsession hmem => exact .waking t wake ht hsession hmem
    | closing tokens hpc => exact .closing tokens hpc
    | handling hpc => exact .handling hpc

theorem Wakeful.Inv.wake (hinv : s.Inv) {t : T} {wake : Wake} (ht : s.waking t = some wake) :
    Wakeful.Inv { s with
      woken := Function.update s.woken wake.worker true
      waking := Function.update s.waking t none } := by
  refine { hinv with
    waking := fun u wake' n hu => ?_
    triggered := fun v hrun token n hn hneed => ?_ }
  · dsimp only at hu
    by_cases hut : u = t
    · rw [hut, Function.update_self] at hu
      cases hu
    · rw [Function.update_of_ne hut] at hu
      exact hinv.waking u wake' n hu
  · cases hinv.triggered v hrun token n hn hneed with
    | interest h => exact .interest h
    | pending hmem hout =>
      refine .pending hmem (hout.imp_left fun hwoken => ?_)
      dsimp only
      by_cases hv : v = wake.worker
      · rw [hv, Function.update_self]
      · rw [Function.update_of_ne hv]
        exact hwoken
    | flushing hmem => exact .flushing hmem
    | sending u hu => exact .sending u hu
    | waking u wake' hu hsession hmem =>
      by_cases hut : u = t
      · subst hut
        cases ht.symm.trans hu
        -- the wake is one of the reactor of the session
        obtain ⟨session, hsome, hworker⟩ := hinv.waking u wake n hu hsession
        obtain ⟨id, hid⟩ := hinv.connected v token n hn
        cases hsome.symm.trans hid
        refine .pending hmem (.inl ?_)
        dsimp only at hworker ⊢
        rw [← hworker, Function.update_self]
      · exact .waking u wake' ((Function.update_of_ne hut ..).trans hu) hsession hmem
    | closing tokens hpc => exact .closing tokens hpc
    | handling hpc => exact .handling hpc

omit [DecidableEq T] in
theorem Wakeful.Inv.wakePeer (hinv : s.Inv) (w peer : Nat) :
    Wakeful.Inv { s with
      woken := Function.update s.woken peer true
      accepting := Function.update s.accepting w none } := by
  refine { hinv with triggered := fun v hrun token n hn hneed => ?_ }
  cases hinv.triggered v hrun token n hn hneed with
  | interest h => exact .interest h
  | pending hmem hout =>
    refine .pending hmem (hout.imp_left fun hwoken => ?_)
    dsimp only
    rw [Function.update_apply, hwoken, ite_self]
  | flushing hmem => exact .flushing hmem
  | sending t ht => exact .sending t ht
  | waking t wake ht hsession hmem => exact .waking t wake ht hsession hmem
  | closing tokens hpc => exact .closing tokens hpc
  | handling hpc => exact .handling hpc

theorem Wakeful.Inv.step (hinv : s.Inv) {act : Wakeful.Action T}
    (h : Wakeful.step overflowChecks s act = some s') : s'.Inv := by
  cases act with
  | host act wantsWrite =>
    simp only [Wakeful.step] at h
    split at h
    · cases h
    rename_i hblocked
    obtain ⟨host, hhost, rfl⟩ := Option.map_eq_some_iff.mp h
    have hfree : s.blocked act = false := Bool.eq_false_iff.mpr hblocked
    cases act with
    | worker w outcome =>
      simp only [Reactor.step] at hhost
      split at hhost
      · simp only [blocked, Bool.or_eq_false_iff, Option.isSome_eq_false_iff,
          Option.isNone_iff_eq_none] at hfree
        exact hinv.worker hhost hfree.1
      · cases hhost
    | send t n bytes =>
      simp only [Reactor.step] at hhost
      split at hhost
      · refine hinv.begin hhost (by simpa [blocked] using hfree) fun m hm => ?_
        cases hm
        assumption
      · cases hhost
    | close t n =>
      simp only [Reactor.step] at hhost
      split at hhost
      · exact hinv.begin hhost (by simpa [blocked] using hfree) fun _ hm => by cases hm
      · cases hhost
    | shutdown t => exact hinv.begin hhost (by simpa [blocked] using hfree) fun _ hm => by cases hm
    | call t => exact hinv.call (by simpa [blocked] using hfree) hhost
  | reregister w =>
    obtain ⟨⟨n, b⟩, hw, rfl⟩ := Option.map_eq_some_iff.mp h
    exact hinv.reregister hw
  | wakePeer w =>
    obtain ⟨peer, -, rfl⟩ := Option.map_eq_some_iff.mp h
    exact hinv.wakePeer w peer
  | wake t =>
    obtain ⟨wake, ht, rfl⟩ := Option.map_eq_some_iff.mp h
    exact hinv.wake ht

theorem wakefulInv_of_reach {workerCount maxPendingSend : Nat}
    (h : Reach (waking T overflowChecks workerCount maxPendingSend) Machine.free s) : s.Inv := by
  refine h.inv Wakeful.Inv ?_ fun hinv _ hs => hinv.step hs
  rintro _ rfl
  refine ⟨nofun, nofun, fun n _ hneed => ?_, fun _ _ => rfl, nofun, nofun, nofun⟩
  rcases hneed with hneed | hneed <;> cases hneed

/-! ## No stranded output -/

/-- **No stranded output.** Between two events of a reactor that runs, every open connection whose
send buffer has pending bytes, or whose transport wanted to write after its last flush, has
`WRITABLE` in its interest, or its token in `pending_writes` with a waker event outstanding, or a
`send` on its session is between its append and its wake. -/
theorem no_stranded_output {workerCount maxPendingSend : Nat}
    (h : Reach (waking T overflowChecks workerCount maxPendingSend) Machine.free s) {w : Nat}
    (hpc : (s.host.workers w).pc = .poll ∨ (s.host.workers w).pc = .event)
    (hfree : s.reregistering w = none) {token n : Nat}
    (hn : (s.host.workers w).connections.lookup token = some n) (hneeds : s.Needs n) :
    s.writable n = true ∨
      token ∈ (s.host.workers w).pendingWrites ∧ (s.woken w = true ∨
        ∃ event ∈ (s.host.workers w).events, event.token = wakerToken) ∨
      s.Sending n := by
  have hrun : (s.host.workers w).pc.Running := by
    rcases hpc with hpc | hpc <;> rw [hpc] <;> trivial
  have hheeding : ¬(s.host.workers w).pc.Heeding := by
    rcases hpc with hpc | hpc <;> rw [hpc] <;> exact id
  cases (wakefulInv_of_reach h).triggered w hrun token n hn hneeds with
  | interest h =>
    simp only [Wakeful.interest, hfree] at h
    exact .inl h
  | pending hmem hout => exact .inr (.inl ⟨hmem, hout.imp_right fun h => h.resolve_right hheeding⟩)
  | flushing hmem => rcases hpc with hpc | hpc <;> rw [hpc] at hmem <;> cases hmem
  | sending t ht => exact .inr (.inr ⟨t, .inl ht⟩)
  | waking t wake ht hsession => exact .inr (.inr ⟨t, .inr ⟨wake, ht, hsession⟩⟩)
  | closing tokens hclose => rcases hpc with hpc | hpc <;> rw [hpc] at hclose <;> cases hclose
  | handling hclose => rcases hpc with hpc | hpc <;> rw [hpc] at hclose <;> cases hclose

end

/-- A reactor admits a stream; a thread sends two bytes before `pending_writes` is taken, and the
socket takes one of them. -/
def partlyFlushed : Wakeful Unit :=
  ((waking Unit false 1 64).run (Wakeful.start (buildPool Unit 1 64))
    ([Wakeful.Action.host (.worker 0 (.events [⟨0, true, false⟩, ⟨1, true, false⟩])) false,
        .host (.worker 0 .none) false, .host (.worker 0 .accepted) false, .wakePeer 0,
        .host (.worker 0 .wouldBlock) false] ++
      List.replicate 3 (Wakeful.Action.host (.worker 0 .none) false) ++
      [Wakeful.Action.host (.worker 0 (.registered true)) false,
        .host (.worker 0 .none) false, .host (.send () 0 [7, 8]) false] ++
      List.replicate 4 (Wakeful.Action.host (.call ()) false) ++
      [Wakeful.Action.wake (), .host (.worker 0 .none) false,
        .host (.worker 0 (.written 1 false)) false, .reregister 0] ++
      List.replicate 4 (Wakeful.Action.host (.worker 0 .none) false))).get (by decide +kernel)

theorem no_stranded_output_partlyFlushed :
    (partlyFlushed.host.workers 0).pc = .poll ∧
      (partlyFlushed.host.cells 0).outbound.pendingLen = 1 ∧
      (partlyFlushed.writable 0 = true ∨
        2 ∈ (partlyFlushed.host.workers 0).pendingWrites ∧ (partlyFlushed.woken 0 = true ∨
          ∃ event ∈ (partlyFlushed.host.workers 0).events, event.token = wakerToken) ∨
        partlyFlushed.Sending 0) :=
  have hpc : (partlyFlushed.host.workers 0).pc = .poll := by decide +kernel
  have hlen : (partlyFlushed.host.cells 0).outbound.pendingLen = 1 := by decide +kernel
  have hr : Reach (waking Unit false 1 64) Machine.free partlyFlushed := .get_free rfl _
  have hfree : partlyFlushed.reregistering 0 = none := by decide +kernel
  have hn : (partlyFlushed.host.workers 0).connections.lookup 2 = some 0 := by decide +kernel
  have hneeds : partlyFlushed.Needs 0 := .inl (Nat.lt_of_lt_of_eq Nat.one_pos hlen.symm)
  ⟨hpc, hlen, no_stranded_output hr (.inl hpc) hfree hn hneeds⟩

end DignusActor.Reactor
