import DignusActor.Network.ReactorOutput

/-! # The end of a host

`run_reactors` (`tcp_host.rs`) runs each reactor on a thread of its own and joins the threads in
order; `SessionActorHost` (`session_actor_host.rs`) spawns an actor for each session and kills it
when the session is disconnected. A reactor that is stopped closes its connections; one that leaves
`run` by an error of `Poll::poll` or of `accept`, or by a panic of `on_accepted`, does not, and the
loop that joins returns at the first such thread (`outlived_acceptFailed`). As long as no reactor
with an open connection leaves so, and the loop meets such a thread only when the later ones have
ended (`Orderly`), no session outlives its host (`concluded_of_orderly`). -/

namespace DignusActor.Reactor

open Machine (Reach)

variable {T : Type}

/-! ## `session_actor_host.rs` -/

/-- The actors of a `SessionActorHost`, numbered in the order of their spawns. No two workers have a
session of one id (`Protocol.ids`), so those of each worker are followed by themselves. -/
structure SessionActors where
  /-- The actor of the entry of a session in `sessions`. -/
  sessions : Nat → Option Nat
  spawned : Nat
  killed : List Nat

namespace SessionActors

def new : SessionActors := ⟨fun _ => none, 0, []⟩

/-- A callback that returns, as far as it spawns and kills. -/
def call (actors : SessionActors) : Call → SessionActors
  | .onAccepted id =>
    { actors with
      sessions := Function.update actors.sessions id (some actors.spawned)
      spawned := actors.spawned + 1 }
  | .onData .. => actors
  | .onDisconnected id => match actors.sessions id with
    | some actor =>
      { actors with
        sessions := Function.update actors.sessions id none
        killed := actors.killed ++ [actor] }
    | none => actors

/-- The callbacks of a run. -/
def ofCalls (calls : List Call) : SessionActors := calls.foldl call new

end SessionActors

/-! ## `tcp_host.rs` -/

/-- Where `run_reactors` stands once it has spawned its threads. -/
inductive JoinPc
  | join (index : Nat)
  | returned (ok : Bool)
  deriving DecidableEq

structure HostRun (T : Type) where
  host : State T
  pc : JoinPc

/-- The reactor has returned from `run`, or its thread has panicked. -/
def WorkerPc.Ended : WorkerPc → Prop
  | .returnedOk | .returnedErr | .panicked => True
  | _ => False

/-- The reactor has left `run` by an error or a panic. -/
def WorkerPc.failed : WorkerPc → Bool
  | .returnedErr | .panicked => true
  | _ => false

inductive HostRun.Action (T : Type)
  | host (act : Reactor.Action T)
  /-- `on_accepted` panics on the thread of a reactor: the system is full or disposed. The session
  that was to be accepted is dropped with its reactor. -/
  | refuse (w : Nat)
  | join
  deriving DecidableEq

section

variable [DecidableEq T]

def HostRun.step (overflowChecks : Bool) (s : HostRun T) : HostRun.Action T → Option (HostRun T)
  | .host act => (Reactor.step overflowChecks s.host act).map fun host => { s with host }
  | .refuse w =>
    let worker := s.host.workers w
    match worker.pc with
    | .incoming (_ :: _) =>
      if w < s.host.workerCount then
        (increment overflowChecks worker.nextToken).map fun nextToken =>
          { s with host := s.host.setWorker w { worker with nextToken, pc := .panicked } }
      else none
    | _ => none
  | .join =>
    match s.pc with
    | .returned _ => none
    | .join index =>
      if index < s.host.workerCount then
        match (s.host.workers index).pc with
        | .returnedOk => some { s with pc := .join (index + 1) }
        | .returnedErr | .panicked => some { s with pc := .returned false }
        | _ => none
      else some { s with pc := .returned true }

def hostRun (T : Type) [DecidableEq T] (overflowChecks : Bool) (workerCount maxPendingSend : Nat) :
    Machine (HostRun T) (HostRun.Action T) where
  Init s := s = ⟨buildPool T workerCount maxPendingSend, .join 0⟩
  step := HostRun.step overflowChecks

end

instance : DecidablePred WorkerPc.Ended := fun pc => by
  cases pc <;> unfold WorkerPc.Ended <;> infer_instance

/-- The reactor that the step makes leave `run` by an error, or whose thread it makes panic. -/
def Action.failing (overflowChecks : Bool) (s : State T) : Action T → Option Nat
  | .worker w outcome =>
    match (s.workers w).pc, outcome with
    | .poll, .failed | .accept, .failed => some w
    | _, _ =>
      if overflowChecks && (Action.worker (T := T) w outcome).overflows s then some w else none
  | _ => none

/-- The counters do not wrap; a reactor that leaves by an error or a panic has no connection; and
the loop that joins meets such a reactor only when the later ones have ended. -/
def Orderly (overflowChecks : Bool) (s : HostRun T) : HostRun.Action T → Prop
  | .host act => NoWrap overflowChecks s.host act ∧
    ∀ w ∈ act.failing overflowChecks s.host, (s.host.workers w).connections.keys = []
  | .refuse w => NoWrap overflowChecks s.host (.worker w (.registered true)) ∧
    (s.host.workers w).connections.keys = []
  | .join => match s.pc with
    | .returned _ => True
    | .join index => index < s.host.workerCount → (s.host.workers index).pc ≠ .returnedOk →
      ∀ w < s.host.workerCount, index < w → (s.host.workers w).pc.Ended

instance [DecidableEq T] (overflowChecks : Bool) (s : HostRun T) :
    DecidablePred (Orderly overflowChecks s) := fun act => by
  cases act with
  | join => cases hpc : s.pc <;> simp only [Orderly, hpc] <;> infer_instance
  | host | refuse =>
    unfold Orderly
    infer_instance

/-- Every thread has ended, every session that was accepted was disconnected, and every actor that
was spawned for one was killed. -/
structure Concluded (s : State T) : Prop where
  ended : ∀ w < s.workerCount, (s.workers w).pc.Ended
  disconnected : ∀ w < s.workerCount, ∀ id, .onAccepted id ∈ (s.workers w).calls →
    .onDisconnected id ∈ (s.workers w).calls
  killed : ∀ w < s.workerCount, ∀ actor < (SessionActors.ofCalls (s.workers w).calls).spawned,
    actor ∈ (SessionActors.ofCalls (s.workers w).calls).killed

/-! ## The session actors -/

theorem Conversation.of_append {id : Nat} {calls : List Call} {call : Call}
    (h : Conversation id (calls ++ [call])) : Conversation id calls := by
  have hdrop : calls = (calls ++ [call]).dropLast := List.dropLast_concat.symm
  rw [hdrop]
  generalize calls ++ [call] = all at h
  cases h with
  | silent => exact .silent
  | opened data =>
    rcases List.eq_nil_or_concat data with rfl | ⟨data, last, rfl⟩
    · exact .silent
    · rw [List.concat_eq_append, List.map_append, ← List.cons_append, List.map_singleton,
        List.dropLast_concat]
      exact .opened data
  | closed data =>
    rw [List.dropLast_concat]
    exact .opened data

/-- A session is accepted before anything else happens to it. -/
theorem Conversation.first {id : Nat} {calls : List Call}
    (h : Conversation id (calls ++ [.onAccepted id])) : calls = [] := by
  have hlast : (calls ++ [Call.onAccepted id]).getLast? = some (.onAccepted id) :=
    List.getLast?_concat
  have hdrop : calls = (calls ++ [Call.onAccepted id]).dropLast := List.dropLast_concat.symm
  rw [hdrop]
  generalize calls ++ [Call.onAccepted id] = all at h hlast
  cases h with
  | silent => cases hlast
  | opened data =>
    rcases List.eq_nil_or_concat data with rfl | ⟨data, last, rfl⟩
    · rfl
    · rw [List.concat_eq_append, List.map_append, ← List.cons_append, List.map_singleton,
        List.getLast?_concat] at hlast
      cases hlast
  | closed data =>
    rw [List.getLast?_concat] at hlast
    cases hlast

theorem SessionActors.ofCalls_append (calls : List Call) (call : Call) :
    ofCalls (calls ++ [call]) = (ofCalls calls).call call := by
  simp [ofCalls, List.foldl_append]

/-- Every actor that was spawned was killed, or is the one of a session that is open. -/
theorem SessionActors.ofCalls_inv (calls : List Call)
    (h : ∀ id, Conversation id (calls.filter (·.id == id))) :
    (∀ actor < (ofCalls calls).spawned, actor ∈ (ofCalls calls).killed ∨
      ∃ id, (ofCalls calls).sessions id = some actor) ∧
    ∀ id, (ofCalls calls).sessions id ≠ none →
      .onAccepted id ∈ calls ∧ .onDisconnected id ∉ calls := by
  induction calls using List.reverseRecOn with
  | nil => exact ⟨fun _ h => absurd h (Nat.not_lt_zero _), fun _ h => absurd rfl h⟩
  | append_singleton calls call ih =>
    have hold (id : Nat) : Conversation id (calls.filter (·.id == id)) := by
      have hid := h id
      rw [List.filter_append] at hid
      by_cases hcall : call.id = id
      · rw [List.filter_singleton, beq_iff_eq.mpr hcall] at hid
        exact hid.of_append
      · rw [List.filter_singleton, beq_eq_false_iff_ne.mpr hcall] at hid
        simpa using hid
    obtain ⟨hspawned, hopen⟩ := ih hold
    rw [ofCalls_append]
    cases call with
    | onAccepted id =>
      have hempty : calls.filter (·.id == id) = [] := by
        have hid := h id
        rw [List.filter_append, List.filter_singleton, Call.id, beq_self_eq_true] at hid
        exact hid.first
      have hnone {call : Call} (hcall : call.id = id) : call ∉ calls := by
        intro hmem
        have hfilter : call ∈ calls.filter (·.id == id) :=
          List.mem_filter.mpr ⟨hmem, beq_iff_eq.mpr hcall⟩
        rw [hempty] at hfilter
        cases hfilter
      refine ⟨fun actor hactor => ?_, fun other hother => ?_⟩
      · rcases Nat.lt_succ_iff_lt_or_eq.mp hactor with hlt | rfl
        · refine (hspawned actor hlt).imp_right fun hsession => ?_
          obtain ⟨other, hother⟩ := hsession
          have hne : other ≠ id := by
            rintro rfl
            exact hnone rfl (hopen other (by rw [hother]; exact Option.some_ne_none _)).1
          exact ⟨other, (Function.update_of_ne hne ..).trans hother⟩
        · exact .inr ⟨id, Function.update_self ..⟩
      · by_cases hne : other = id
        · subst hne
          exact ⟨by simp, by simpa using hnone rfl⟩
        · obtain ⟨haccepted, hnot⟩ :=
            hopen other ((Function.update_of_ne hne ..).symm.trans_ne hother)
          exact ⟨List.mem_append_left _ haccepted, by simpa using hnot⟩
    | onData id data =>
      refine ⟨hspawned, fun other hother => ?_⟩
      obtain ⟨haccepted, hnot⟩ := hopen other hother
      exact ⟨List.mem_append_left _ haccepted, by simpa using hnot⟩
    | onDisconnected id =>
      have hkeep {other : Nat} (hne : other ≠ id) (hother : (ofCalls calls).sessions other ≠ none) :
          .onAccepted other ∈ calls ++ [.onDisconnected id] ∧
            .onDisconnected other ∉ calls ++ [.onDisconnected id] := by
        obtain ⟨haccepted, hnot⟩ := hopen other hother
        exact ⟨List.mem_append_left _ haccepted, by simpa [hne] using hnot⟩
      cases hid : (ofCalls calls).sessions id with
      | none =>
        simp only [SessionActors.call, hid]
        refine ⟨hspawned, fun other hother => hkeep ?_ hother⟩
        rintro rfl
        exact hother hid
      | some last =>
        simp only [SessionActors.call, hid]
        refine ⟨fun actor hactor => ?_, fun other hother => ?_⟩
        · rcases hspawned actor hactor with hkilled | ⟨other, hother⟩
          · exact .inl (List.mem_append_left _ hkilled)
          · by_cases hne : other = id
            · subst hne
              cases hid.symm.trans hother
              exact .inl (List.mem_append_right _ (List.mem_singleton_self _))
            · exact .inr ⟨other, (Function.update_of_ne hne ..).trans hother⟩
        · have hne : other ≠ id := by
            rintro rfl
            exact hother (Function.update_self ..)
          exact hkeep hne ((Function.update_of_ne hne ..).symm.trans_ne hother)

/-- The actors of the sessions that were all disconnected are killed. -/
theorem SessionActors.killed_of_disconnected {calls : List Call}
    (h : ∀ id, Conversation id (calls.filter (·.id == id)))
    (hdisconnected : ∀ id, .onAccepted id ∈ calls → .onDisconnected id ∈ calls) :
    ∀ actor < (ofCalls calls).spawned, actor ∈ (ofCalls calls).killed := by
  obtain ⟨hspawned, hopen⟩ := ofCalls_inv calls h
  intro actor hactor
  refine (hspawned actor hactor).resolve_right fun hsession => ?_
  obtain ⟨id, hid⟩ := hsession
  obtain ⟨haccepted, hnot⟩ := hopen id (by rw [hid]; exact Option.some_ne_none _)
  exact hnot (hdisconnected id haccepted)

/-! ## The invariant -/

/-- A reactor leaves `run` by an error or a panic in the steps of `Action.failing`, as it is. -/
theorem workerStep_failing {s s' : State T} {w : Nat} {overflowChecks : Bool} {outcome : Outcome}
    (h : workerStep overflowChecks s w outcome = some s')
    (hend : (s'.workers w).pc.failed = true) :
    (Action.worker (T := T) w outcome).failing overflowChecks s = some w ∧
      (s'.workers w).connections = (s.workers w).connections := by
  have hfollow := workerStep_follow h
  have hbusy (hbusy : (s'.workers w).pc.Busy) : False := by
    cases hpc : (s'.workers w).pc with
    | returnedErr | panicked =>
      rw [hpc] at hbusy
      exact hbusy
    | _ =>
      rw [hpc] at hend
      cases hend
  have hne {pc : WorkerPc} (hpc : (s'.workers w).pc = pc) (hstays : pc.failed = false) : False := by
    rw [hpc, hstays] at hend
    cases hend
  have hoverflow {n : Nat} (hnone : increment overflowChecks n = none) :
      overflowChecks = true ∧ ¬n + 1 < 2 ^ 64 := by
    unfold increment at hnone
    split at hnone
    · cases hnone
    · split at hnone
      · exact ⟨‹_›, ‹_›⟩
      · cases hnone
  cases hpc : (s.workers w).pc with
  | poll =>
    cases outcome <;> simp only [workerStep, hpc, Option.some.injEq, reduceCtorEq] at h <;>
      subst h
    · exact (hne (congrArg Worker.pc (Function.update_self ..)) rfl).elim
    · exact ⟨by simp [Action.failing, hpc], s.goto_connections w _ w⟩
  | accept =>
    simp only [workerStep, hpc] at h
    split at h
    · rename_i hlistener
      cases outcome <;> simp only [Option.some.injEq, reduceCtorEq] at h
      · split at h <;> cases h
        · rename_i hnone
          obtain ⟨hchecks, hlt⟩ := hoverflow hnone
          refine ⟨?_, s.goto_connections w _ w⟩
          simp [Action.failing, Action.overflows, hpc, hchecks, hlistener]
          omega
        · exact (hne ((s.acceptStream_pc w _).trans hpc) rfl).elim
      · subst h
        exact (hne (s.goto_pc w _) rfl).elim
      · subst h
        exact (hne hpc rfl).elim
      · subst h
        exact ⟨by simp [Action.failing, hpc], s.goto_connections w _ w⟩
    · split at h <;> cases h
      exact (hne (s.goto_pc w _) rfl).elim
  | incoming streams =>
    cases streams <;> cases outcome <;>
      simp only [workerStep, hpc, Option.some.injEq, reduceCtorEq] at h
    · subst h
      exact (hne (s.goto_pc w _) rfl).elim
    · split at h <;> cases h
      · rename_i hnone
        obtain ⟨hchecks, hlt⟩ := hoverflow hnone
        refine ⟨?_, s.goto_connections w _ w⟩
        simp [Action.failing, Action.overflows, hpc, hchecks]
        omega
      · rename_i id streams ok _ next _
        refine (hne ?_ (rfl : (WorkerPc.incoming streams).failed = false)).elim
        split <;> simp [State.addSession, State.setWorker]
  | event =>
    rw [hpc] at hfollow
    exact (hfollow.elim (hne · rfl) hbusy).elim
  | waker =>
    rw [hpc] at hfollow
    exact (hfollow.elim (hne · rfl) (hne · rfl)).elim
  | takeIncoming | closeAll =>
    rw [hpc] at hfollow
    obtain ⟨_, hpc'⟩ := hfollow
    exact (hne hpc' rfl).elim
  | closingAll =>
    rw [hpc] at hfollow
    rcases hfollow with hpc' | ⟨_, hpc'⟩ <;> exact (hne hpc' rfl).elim
  | returnedOk | returnedErr | panicked => simp [workerStep, hpc] at h
  | _ =>
    rw [hpc] at hfollow
    exact (hbusy hfollow).elim

structure HostRun.Inv (s : HostRun T) : Prop where
  ledger : s.host.ledger.Inv
  hostInv : s.host.HostInv
  bare : ∀ w, (s.host.workers w).pc.failed = true → (s.host.workers w).connections.keys = []
  joined : ∀ index, s.pc = .join index → ∀ w < s.host.workerCount, w < index →
    (s.host.workers w).pc.Ended
  returned : ∀ ok, s.pc = .returned ok → ∀ w < s.host.workerCount, (s.host.workers w).pc.Ended

section

variable {s s' : State T} {w : Nat} {overflowChecks : Bool} {outcome : Outcome}

theorem State.Books.inv (h : s.Books s') (hinv : s.ledger.Inv) : s'.ledger.Inv := by
  rcases h with h | ⟨entry, h⟩
  · exact h ▸ hinv
  · exact hinv.step h

theorem WorkerMove.workerCount (h : WorkerMove overflowChecks s w outcome s') :
    s'.workerCount = s.workerCount := by
  cases h with
  | register id streams next ok => cases ok <;> rfl
  | close token pc =>
    have hclose : (s.close w token).workerCount = s.workerCount := by
      unfold State.close
      dsimp only
      split <;> rfl
    exact hclose
  | _ => rfl

variable [DecidableEq T]

theorem callerStep_workerCount {t : T} (h : callerStep s t = some s') :
    s'.workerCount = s.workerCount := by
  unfold callerStep at h
  cases hpc : s.callers t with
  | idle | sent => simp [hpc] at h
  | sendDisposed | closeDisposed =>
    simp only [hpc, Option.some.injEq] at h
    exact h ▸ rfl
  | sendStopped | sendPush | closePush =>
    simp only [hpc, Option.map_eq_some_iff] at h
    obtain ⟨session, -, h⟩ := h
    exact h ▸ rfl
  | sendAppend | closeSwap | shutdown =>
    simp only [hpc] at h
    split at h <;> cases h <;> rfl

theorem step_workerCount {a : Action T} (h : step overflowChecks s a = some s') :
    s'.workerCount = s.workerCount := by
  cases a with
  | worker w outcome =>
    simp only [step] at h
    split at h
    · exact (workerStep_move h).workerCount
    · cases h
  | send | close =>
    simp only [step] at h
    split at h
    · rw [State.begin_eq h]
      rfl
    · cases h
  | shutdown =>
    rw [State.begin_eq h]
    rfl
  | call => exact callerStep_workerCount h

/-- What a step does to a reactor that does not take it. -/
theorem step_aside {a : Action T} (h : step overflowChecks s a = some s')
    (hw : ∀ outcome, a ≠ .worker w outcome) :
    (s'.workers w).pc = (s.workers w).pc ∧
      (s'.workers w).connections = (s.workers w).connections := by
  rcases step_cases h with ⟨v, outcome, rfl, hstep⟩ | ⟨-, hcalled⟩
  · have hne : w ≠ v := by
      rintro rfl
      exact hw outcome rfl
    obtain ⟨incoming, heq⟩ := (workerStep_move hstep).others hne
    rw [heq]
    exact ⟨rfl, rfl⟩
  · exact ⟨(hcalled w).pc, congrArg Desk.connections (hcalled w).desk⟩

theorem step_ended {a : Action T} (h : step overflowChecks s a = some s')
    (hended : (s.workers w).pc.Ended) : (s'.workers w).pc.Ended := by
  have hw : ∀ outcome, a ≠ .worker w outcome := by
    rintro outcome rfl
    simp only [step] at h
    split at h
    · cases hpc : (s.workers w).pc with
      | returnedOk | returnedErr | panicked => simp [workerStep, hpc] at h
      | _ =>
        rw [hpc] at hended
        exact hended.elim
    · cases h
  rw [(step_aside h hw).1]
  exact hended

end

section

variable [DecidableEq T] {s s' : HostRun T} {overflowChecks : Bool}

theorem HostRun.Inv.host (hinv : s.Inv) {act : Reactor.Action T} {host : State T}
    (hok : Orderly overflowChecks s (.host act))
    (h : Reactor.step overflowChecks s.host act = some host) :
    HostRun.Inv { s with host } := by
  have hcount := step_workerCount h
  refine ⟨(step_books hinv.hostInv hinv.ledger hok.1 h).inv hinv.ledger, hinv.hostInv.step h,
    fun w hend => ?_, fun index hpc w hw hlt => ?_, fun ok hpc w hw => ?_⟩
  · dsimp only at hend ⊢
    by_cases hact : ∃ outcome, act = .worker w outcome
    · obtain ⟨outcome, rfl⟩ := hact
      have hstep := h
      simp only [Reactor.step] at hstep
      split at hstep
      · obtain ⟨hfailing, hsame⟩ := workerStep_failing hstep hend
        rw [hsame]
        exact hok.2 w hfailing
      · cases hstep
    · obtain ⟨hpc, hsame⟩ := step_aside h fun outcome hact' => hact ⟨outcome, hact'⟩
      rw [hpc] at hend
      rw [hsame]
      exact hinv.bare w hend
  · exact step_ended h (hinv.joined index hpc w (hcount ▸ hw) hlt)
  · exact step_ended h (hinv.returned ok hpc w (hcount ▸ hw))

omit [DecidableEq T] in
/-- A panic of `on_accepted`. -/
theorem HostRun.Inv.refuse (hinv : s.Inv) {w id next : Nat} {streams : List Nat}
    (hok : Orderly overflowChecks s (.refuse w))
    (hpc : (s.host.workers w).pc = .incoming (id :: streams))
    (hnext : increment overflowChecks (s.host.workers w).nextToken = some next) :
    HostRun.Inv { s with
      host :=
        s.host.setWorker w { s.host.workers w with nextToken := next, pc := .panicked } } := by
  -- the stream is given up, and then the thread panics
  let u := s.host.setWorker w { s.host.workers w with nextToken := next, pc := .incoming streams }
  have hfirst : WorkerMove overflowChecks s.host w (.registered false) u :=
    .register id streams next false rfl hpc hnext
  have hu : u.goto w .panicked =
      s.host.setWorker w { s.host.workers w with nextToken := next, pc := .panicked } := by
    simp [u, State.goto, State.setWorker]
  have hnowrap : NoWrap overflowChecks s.host (.worker w (.registered false)) := by
    simpa [NoWrap, Action.overflows, hpc] using hok.1
  have hledger : u.ledger.Inv :=
    (hfirst.books (hinv.hostInv.listener w) hinv.ledger hnowrap).inv hinv.ledger
  have hother {v : Nat} (hv : v ≠ w) : (s.host.setWorker w
      { s.host.workers w with nextToken := next, pc := .panicked }).workers v = s.host.workers v :=
    Function.update_of_ne hv ..
  have hended {v : Nat} (hv : (s.host.workers v).pc.Ended) : ((s.host.setWorker w
      { s.host.workers w with nextToken := next, pc := .panicked }).workers v).pc.Ended := by
    by_cases hvw : v = w
    · subst hvw
      simp [State.setWorker, WorkerPc.Ended]
    · rw [hother hvw]
      exact hv
  have hsecond : WorkerMove overflowChecks u w .none (u.goto w .panicked) := .panic
  refine ⟨hu ▸ (u.panic_books w).inv hledger,
    hu ▸ (hinv.hostInv.worker hfirst).worker hsecond, fun v hend => ?_,
    fun index hpc v hv hlt => hended (hinv.joined index hpc v hv hlt),
    fun ok hpc v hv => hended (hinv.returned ok hpc v hv)⟩
  dsimp only at hend ⊢
  by_cases hvw : v = w
  · subst hvw
    simpa [State.setWorker] using hok.2
  · rw [hother hvw] at hend ⊢
    exact hinv.bare v hend

theorem HostRun.Inv.step (hinv : s.Inv) {act : HostRun.Action T}
    (hok : Orderly overflowChecks s act)
    (h : HostRun.step overflowChecks s act = some s') : s'.Inv := by
  cases act with
  | host act =>
    obtain ⟨host, hhost, rfl⟩ := Option.map_eq_some_iff.mp h
    exact hinv.host hok hhost
  | refuse w =>
    simp only [HostRun.step] at h
    split at h
    · rename_i id streams hpc
      split at h
      · obtain ⟨next, hnext, rfl⟩ := Option.map_eq_some_iff.mp h
        exact hinv.refuse hok hpc hnext
      · cases h
    · cases h
  | join =>
    simp only [HostRun.step] at h
    split at h
    · cases h
    · rename_i index hpc
      split at h
      · rename_i hlt
        simp only [Orderly, hpc] at hok
        have herr (hended : (s.host.workers index).pc.Ended)
            (hne : (s.host.workers index).pc ≠ .returnedOk) :
            HostRun.Inv { s with pc := .returned false } := by
          refine { hinv with
            joined := fun _ hnext => by cases hnext
            returned := fun ok _ w hw => ?_ }
          rcases Nat.lt_trichotomy w index with hbefore | rfl | hafter
          · exact hinv.joined index hpc w hw hbefore
          · exact hended
          · exact hok hlt hne w hw hafter
        split at h <;> cases h
        · rename_i hreturned
          refine { hinv with
            joined := fun next hnext w hw hwn => ?_
            returned := fun _ hok => by cases hok }
          cases hnext
          rcases Nat.lt_succ_iff_lt_or_eq.mp hwn with hwn | rfl
          · exact hinv.joined index hpc w hw hwn
          · exact hreturned ▸ trivial
        · rename_i herror
          exact herr (herror ▸ trivial) (by simp [herror])
        · rename_i hpanic
          exact herr (hpanic ▸ trivial) (by simp [hpanic])
      · rename_i hle
        cases h
        exact { hinv with
          joined := fun _ hnext => by cases hnext
          returned := fun ok _ w hw =>
            hinv.joined index hpc w hw (Nat.lt_of_lt_of_le hw (Nat.le_of_not_lt hle)) }

/-! ## When `run_reactors` returns -/

/-- **No session outlives its host**, as long as no reactor with an open connection leaves `run` by
an error or a panic, the loop of `run_reactors` meets a reactor that left so only when the later
ones have ended, and the counters do not wrap. -/
theorem concluded_of_orderly {workerCount maxPendingSend : Nat}
    (h : Reach (hostRun T overflowChecks workerCount maxPendingSend) (Orderly overflowChecks) s)
    {ok : Bool} (hpc : s.pc = .returned ok) : Concluded s.host := by
  have hinv : s.Inv := by
    refine h.inv HostRun.Inv ?_ fun hinv hok hs => hinv.step hok hs
    rintro _ rfl
    have hr : Reach (machine T overflowChecks workerCount maxPendingSend) Machine.free
        (buildPool T workerCount maxPendingSend) := .init rfl
    have hl : Reach Ledger.machine Machine.free (buildPool T workerCount maxPendingSend).ledger :=
      .init rfl
    refine ⟨Ledger.inv_of_reach hl, hostInv_of_reach hr, fun _ _ => rfl,
      fun index hpc w _ hlt => ?_, fun _ hok => by cases hok⟩
    cases hpc
    cases hlt
  have hprotocol := protocol_of_inv hinv.ledger hinv.hostInv
  have hended := hinv.returned ok hpc
  have hdisconnected (w : Nat) (hw : w < s.host.workerCount) (id : Nat)
      (hid : .onAccepted id ∈ (s.host.workers w).calls) :
      .onDisconnected id ∈ (s.host.workers w).calls := by
    by_contra hnot
    obtain ⟨n, session, hn, hworker, hsession⟩ := hprotocol.about w _ hid
    obtain rfl : session.id = id := hsession
    have hlookup := (hprotocol.connections w session.token n).mpr
      ⟨session, hn, hworker, rfl, hid, hnot⟩
    have hmem : session.token ∈ (s.host.workers w).connections :=
      AList.lookup_isSome.mp (by rw [hlookup]; rfl)
    have hclosed := hended w hw
    cases hend : (s.host.workers w).pc with
    | returnedOk =>
      have hcloses := hinv.hostInv.closes w
      rw [hend] at hcloses
      exact hcloses session.token hmem
    | returnedErr | panicked =>
      have hkeys := hinv.bare w (by rw [hend]; rfl)
      rw [AList.mem_keys, hkeys] at hmem
      cases hmem
    | _ =>
      rw [hend] at hclosed
      exact hclosed
  exact ⟨hended, hdisconnected, fun w hw =>
    SessionActors.killed_of_disconnected (hprotocol.calls w) (hdisconnected w hw)⟩

end

/-! ## Runs -/

/-- Worker 0 accepts a stream, admits it and polls again. -/
def sessionOpened : List (HostRun.Action Unit) :=
  ([Action.worker 0 (.events [⟨0, true, false⟩, ⟨1, true, false⟩]), Action.worker 0 .none,
      Action.worker 0 .accepted, Action.worker 0 .wouldBlock] ++
    List.replicate 3 (Action.worker 0 .none) ++ [Action.worker 0 (.registered true)] ++
    List.replicate 6 (Action.worker 0 .none)).map .host

/-- Of two workers the second leaves by an error of `Poll::poll` without a connection; the first is
stopped with one. -/
def stoppedRun : HostRun Unit :=
  ((hostRun Unit false 2 64).run ⟨buildPool Unit 2 64, .join 0⟩
    (sessionOpened ++ ([Action.worker 1 .failed, Action.shutdown ()] ++
        List.replicate 3 (Action.call ()) ++
        [Action.worker 0 (.events [⟨1, true, false⟩]), Action.worker 0 .none,
          Action.worker 0 .none, Action.worker 0 (.keys [2]), Action.worker 0 .none,
          Action.worker 0 .none]).map .host ++ [.join, .join])).get (by decide +kernel)

theorem concluded_of_orderly_stoppedRun :
    stoppedRun.pc = .returned false ∧
      (stoppedRun.host.workers 0).calls = [.onAccepted 1, .onDisconnected 1] ∧
      Concluded stoppedRun.host := by
  have hpc : stoppedRun.pc = .returned false := by decide +kernel
  have hr : Reach (hostRun Unit false 2 64) (Orderly false) stoppedRun :=
    .get rfl (by decide +kernel) _
  exact ⟨hpc, by decide +kernel, concluded_of_orderly hr hpc⟩

/-- `accept` fails at the worker that has the session. -/
def acceptFailed : HostRun Unit :=
  ((hostRun Unit false 2 64).run ⟨buildPool Unit 2 64, .join 0⟩
    (sessionOpened ++ [.host (.worker 0 (.events [⟨0, true, false⟩])), .host (.worker 0 .none),
      .host (.worker 0 .failed), .join])).get (by decide +kernel)

/-- `run_reactors` returns with the other worker running and the session actor alive. -/
theorem outlived_acceptFailed :
    Reach (hostRun Unit false 2 64) Machine.free acceptFailed ∧
      acceptFailed.pc = .returned false ∧ (acceptFailed.host.workers 1).pc = .poll ∧
      (acceptFailed.host.workers 0).calls = [.onAccepted 1] ∧
      (SessionActors.ofCalls (acceptFailed.host.workers 0).calls).spawned = 1 ∧
      (SessionActors.ofCalls (acceptFailed.host.workers 0).calls).killed = [] ∧
      ¬Concluded acceptFailed.host := by
  have hcount : acceptFailed.host.workerCount = 2 := by decide +kernel
  have hpc : (acceptFailed.host.workers 1).pc = .poll := by decide +kernel
  refine ⟨.get_free rfl _, by decide +kernel, hpc, by decide +kernel, by decide +kernel,
    by decide +kernel, fun h => ?_⟩
  have hended := h.ended 1 (by rw [hcount]; decide)
  rw [hpc] at hended
  exact hended

end DignusActor.Reactor
