import DignusActor.Network.ReactorOutput

/-! # A send followed by a close

`run` flushes the tokens of `pending_writes` before it closes those of `pending_closes`, but it
takes the two lists one after the other: a thread that sends and closes between the two has its
connection removed with the bytes unwritten (`unflushed_betweenTakes`). As long as `close_pending`
removes no connection whose token is in `pending_writes` again (`NoLateSend`), what a thread has
sent before it closed has been in the buffer at a write (`flushed_of_noLateSend`). -/

namespace DignusActor.Reactor

open Machine (Reach)

variable {T : Type}

/-! ## Hosts that count appends -/

/-- A removal of a connection in `close_pending`. -/
structure Closing where
  session : Nat
  /-- The last append whose `send` had returned `Success` to a thread that then called `close`. -/
  promised : Nat
  /-- How many appends there had been when the transport was last written to. -/
  written : Nat
  deriving DecidableEq

/-- A host with the appends to the send buffers of its sessions, which are counted from 1. -/
structure Counted (T : Type) where
  host : State T
  appended : Nat → Nat
  /-- How many appends there had been when the transport was last written to. -/
  written : Nat → Nat
  /-- What was appended since then. -/
  unwritten : Nat → List UInt8
  /-- The append of the `send` that a thread is in. -/
  sending : T → Nat
  /-- The append of a thread's last `send` that has returned `Success`. -/
  returned : T → Nat → Nat
  /-- The last append whose `send` had returned `Success` to a thread that then called `close`. -/
  promised : Nat → Nat
  closings : List Closing

/-- The token that the next step of a reactor closes in `close_pending`. -/
def WorkerPc.closesPending : WorkerPc → Option Nat
  | .closing (token :: _) => some token
  | _ => none

/-- The session whose connection the next step of a reactor removes in `close_pending`. -/
def State.removes (s : State T) (w : Nat) : Option Nat :=
  (s.workers w).pc.closesPending.bind (s.workers w).connections.lookup

namespace Counted

def noteWorker (s : Counted T) (w : Nat) : Counted T :=
  match s.host.writesTo w, s.host.removes w with
  | some n, _ =>
    { s with
      written := Function.update s.written n (s.appended n)
      unwritten := Function.update s.unwritten n [] }
  | none, some n => { s with closings := s.closings ++ [⟨n, s.promised n, s.written n⟩] }
  | none, none => s

variable [DecidableEq T]

def noteCall (s : Counted T) (t : T) : Counted T :=
  match s.host.callers t with
  | .sendAppend n bytes =>
    if (s.host.cells n).outbound.canWrite bytes.length then
      { s with
        appended := Function.update s.appended n (s.appended n + 1)
        unwritten := Function.update s.unwritten n (s.unwritten n ++ bytes)
        sending := Function.update s.sending t (s.appended n + 1) }
    else s
  | .sendPush n =>
    { s with
      returned := Function.update s.returned t
        (Function.update (s.returned t) n (s.sending t)) }
  | _ => s

def note (s : Counted T) : Action T → Counted T
  | .worker w _ => s.noteWorker w
  | .call t => s.noteCall t
  | .close t n =>
    { s with promised := Function.update s.promised n (max (s.promised n) (s.returned t n)) }
  | _ => s

def step (overflowChecks : Bool) (s : Counted T) (act : Action T) : Option (Counted T) :=
  (Reactor.step overflowChecks s.host act).map fun host => { s.note act with host }

omit [DecidableEq T] in
def start (host : State T) : Counted T where
  host := host
  appended _ := 0
  written _ := 0
  unwritten _ := []
  sending _ := 0
  returned _ _ := 0
  promised _ := 0
  closings := []

end Counted

def counting (T : Type) [DecidableEq T] (overflowChecks : Bool)
    (workerCount maxPendingSend : Nat) : Machine (Counted T) (Action T) where
  Init s := s = Counted.start (buildPool T workerCount maxPendingSend)
  step := Counted.step overflowChecks

/-- `close_pending` removes no connection whose token is in `pending_writes`. -/
def NoLateSend (s : Counted T) : Action T → Prop
  | .worker w _ => ∀ token ∈ (s.host.workers w).pc.closesPending,
    token ∈ (s.host.workers w).connections → token ∉ (s.host.workers w).pendingWrites
  | _ => True

instance NoLateSend.decidable (s : Counted T) : ∀ act, Decidable (NoLateSend s act)
  | .worker w _ => inferInstanceAs (Decidable (∀ token ∈ (s.host.workers w).pc.closesPending,
    token ∈ (s.host.workers w).connections → token ∉ (s.host.workers w).pendingWrites))
  | .send .. | .close .. | .shutdown _ | .call _ => .isTrue trivial

/-! ## The invariant -/

/-- Append `k` of session `n`, if it was not in the buffer at a write yet, is about to be. -/
def Counted.Owed (s : Counted T) (n k : Nat) : Prop :=
  k ≤ s.appended n ∧ (s.written n < k → ∀ w token,
    (s.host.workers w).connections.lookup token = some n → (s.host.workers w).Queued token)

/-- What was appended since the last write is in the buffer and unread. -/
def Counted.Carried (s : Counted T) (n : Nat) : Prop :=
  ∃ before, (s.host.cells n).outbound.data = before ++ s.unwritten n ∧
    (s.host.cells n).outbound.offset ≤ before.length

structure Counted.Inv (s : Counted T) : Prop where
  connected : ∀ w token n, (s.host.workers w).connections.lookup token = some n →
    ∃ id, s.host.sessions[n]? = some ⟨id, token, w⟩
  unknown : ∀ n, s.host.sessions.length ≤ n → s.promised n = 0 ∧ ∀ t, s.returned t n = 0
  sending : ∀ t n, s.host.callers t = .sendPush n → s.sending t ≤ s.appended n
  returned : ∀ t n, s.Owed n (s.returned t n)
  promised : ∀ n, s.Owed n (s.promised n)
  carried : ∀ n, s.Carried n
  closings : ∀ closing ∈ s.closings, closing.promised ≤ closing.written

section

variable [DecidableEq T] {s : Counted T} {host : State T} {overflowChecks : Bool}
  {w : Nat} {outcome : Outcome}

omit [DecidableEq T] in
/-- A reactor only notes its writes and its closings. -/
theorem Counted.noteWorker_same (s : Counted T) (w : Nat) :
    (s.noteWorker w).appended = s.appended ∧ (s.noteWorker w).sending = s.sending ∧
      (s.noteWorker w).returned = s.returned ∧ (s.noteWorker w).promised = s.promised := by
  unfold noteWorker
  split <;> exact ⟨rfl, rfl, rfl, rfl⟩

omit [DecidableEq T] in
theorem Counted.noteWorker_written (s : Counted T) (w n : Nat) :
    s.host.writesTo w = some n ∧ (s.noteWorker w).written n = s.appended n ∧
        (s.noteWorker w).unwritten n = [] ∨
      s.host.writesTo w ≠ some n ∧ (s.noteWorker w).written n = s.written n ∧
        (s.noteWorker w).unwritten n = s.unwritten n := by
  unfold noteWorker
  split
  · rename_i m hm
    by_cases hn : n = m
    · subst hn
      exact .inl ⟨hm, Function.update_self .., Function.update_self ..⟩
    · refine .inr ⟨fun h => hn ?_, Function.update_of_ne hn .., Function.update_of_ne hn ..⟩
      exact Option.some.inj (h.symm.trans hm)
  · rename_i hm _
    exact .inr ⟨by simp [hm], rfl, rfl⟩
  · rename_i hm _
    exact .inr ⟨by simp [hm], rfl, rfl⟩

omit [DecidableEq T] in
/-- What is owed stays owed until it is written. -/
theorem Counted.Owed.worker {n k : Nat} (hk : s.Owed n k)
    (hknown : s.host.sessions.length ≤ n → k = 0)
    (h : workerStep overflowChecks s.host w outcome = some host) :
    Counted.Owed { s.noteWorker w with host } n k := by
  obtain ⟨happended, -, -, -⟩ := s.noteWorker_same w
  refine ⟨hk.1.trans_eq (congrFun happended n).symm, fun hlt v token hn => ?_⟩
  dsimp only at hlt hn ⊢
  rcases s.noteWorker_written w n with ⟨-, hwritten, -⟩ | ⟨hwrites, hwritten, -⟩ <;>
    rw [hwritten] at hlt
  · exact absurd hk.1 (Nat.not_le_of_lt hlt)
  · rcases workerStep_connections h hn with hn | ⟨hnew, -⟩
    · rcases workerStep_queued h (hk.2 hlt v token hn) with hq | ⟨rfl, tokens, hpc⟩
      · exact hq
      · refine absurd ?_ hwrites
        simp only [State.writesTo, hpc, WorkerPc.flushes, Option.bind_some]
        exact hn
    · rw [hknown (Nat.le_of_eq hnew.symm)] at hlt
      cases hlt

omit [DecidableEq T] in
theorem Counted.Carried.worker {n : Nat} (hn : s.Carried n)
    (h : workerStep overflowChecks s.host w outcome = some host) :
    Counted.Carried { s.noteWorker w with host } n := by
  obtain ⟨before, hdata, hoffset⟩ := hn
  unfold Counted.Carried
  dsimp only
  rcases s.noteWorker_written w n with ⟨hwrites, -, hunwritten⟩ | ⟨hwrites, -, hunwritten⟩ <;>
    rw [hunwritten]
  · refine ⟨_, (List.append_nil _).symm, ?_⟩
    obtain ⟨token, hflushes, hlookup⟩ := Option.bind_eq_some_iff.mp hwrites
    rcases workerStep_flush h hflushes with ⟨hnone, -⟩ | ⟨m, count, closed, hm, -, hle, rfl⟩
    · cases hnone.symm.trans hlookup
    · cases hm.symm.trans hlookup
      rw [State.write_outbound_self]
      unfold SendBuffer.advance
      split
      · exact Nat.le_refl 0
      · exact Nat.le_of_not_le ‹_›
  · have hsame : (host.cells n).outbound = (s.host.cells n).outbound := by
      cases hflushes : (s.host.workers w).pc.flushes with
      | none => exact workerStep_outbound h hflushes n
      | some token =>
        rcases workerStep_flush h hflushes with ⟨-, rfl⟩ | ⟨m, count, closed, hm, -, -, rfl⟩
        · rfl
        · have hne : n ≠ m := by
            rintro rfl
            exact hwrites (by simp only [State.writesTo, hflushes, Option.bind_some, hm])
          exact State.write_outbound_of_ne _ hne ..
    rw [hsame]
    exact ⟨before, hdata, hoffset⟩

omit [DecidableEq T] in
/-- Each closing of a reactor that meets `NoLateSend` comes after the write. -/
theorem Counted.Inv.closings_worker (hinv : s.Inv) (hok : NoLateSend s (.worker w outcome)) :
    ∀ closing ∈ (s.noteWorker w).closings, closing.promised ≤ closing.written := by
  intro closing hmem
  unfold noteWorker at hmem
  split at hmem
  · exact hinv.closings closing hmem
  · rename_i n _ hremoves
    rcases List.mem_append.mp hmem with hmem | hmem
    · exact hinv.closings closing hmem
    · rw [List.mem_singleton.mp hmem]
      obtain ⟨token, hcloses, hlookup⟩ := Option.bind_eq_some_iff.mp hremoves
      refine Nat.le_of_not_lt fun hlt => ?_
      have hconnected : token ∈ (s.host.workers w).connections :=
        AList.lookup_isSome.mp (by rw [hlookup]; rfl)
      rcases (hinv.promised n).2 hlt w token hlookup with hq | hq
      · exact hok token hcloses hconnected hq
      · cases hpc : (s.host.workers w).pc <;> rw [hpc] at hcloses hq <;>
          first | cases hcloses | cases hq
  · exact hinv.closings closing hmem

omit [DecidableEq T] in
theorem Counted.Inv.worker (hinv : s.Inv)
    (h : workerStep overflowChecks s.host w outcome = some host)
    (hok : NoLateSend s (.worker w outcome)) : Counted.Inv { s.noteWorker w with host } := by
  obtain ⟨happended, hsending, hreturned, hpromised⟩ := s.noteWorker_same w
  obtain ⟨rest, hsessions⟩ := (workerStep_move h).sessions
  have hknown {n : Nat} (hn : host.sessions.length ≤ n) : s.host.sessions.length ≤ n := by
    rw [← hsessions, List.length_append] at hn
    omega
  refine ⟨fun v token n hn => ?_, fun n hn => ?_, fun t n ht => ?_, fun t n => ?_, fun n => ?_,
    fun n => (hinv.carried n).worker h, hinv.closings_worker hok⟩
  · rcases workerStep_connections h hn with hn | ⟨-, hnew⟩
    · obtain ⟨id, hid⟩ := hinv.connected v token n hn
      refine ⟨id, ?_⟩
      dsimp only
      rw [← hsessions, List.getElem?_append_left (List.getElem?_eq_some_iff.mp hid).1]
      exact hid
    · exact hnew
  · dsimp only
    rw [hpromised, hreturned]
    exact hinv.unknown n (hknown hn)
  · dsimp only at ht ⊢
    rw [hsending, happended]
    rw [(workerStep_move h).callers] at ht
    exact hinv.sending t n ht
  · dsimp only
    rw [hreturned]
    exact (hinv.returned t n).worker (fun hn => (hinv.unknown n hn).2 t) h
  · dsimp only
    rw [hpromised]
    exact (hinv.promised n).worker (fun hn => (hinv.unknown n hn).1) h

/-- What a thread outside does to a reactor, but for the streams and the closes. -/
structure Worker.Outside (a b : Worker) : Prop where
  connections : b.connections = a.connections
  queued : ∀ token, a.Queued token → b.Queued token

theorem Worker.Outside.refl (a : Worker) : a.Outside a := ⟨rfl, fun _ => id⟩

omit [DecidableEq T] in
theorem State.setWorker_outside {s : State T} {worker : Worker}
    (h : (s.workers w).Outside worker) (v : Nat) :
    (s.workers v).Outside (Function.update s.workers w worker v) := by
  by_cases hv : v = w
  · subst hv
    rwa [Function.update_self]
  · rw [Function.update_of_ne hv]
    exact .refl _

omit [DecidableEq T] in
theorem Counted.Owed.outside {n k : Nat} (hk : s.Owed n k) {s' : Counted T}
    (hworkers : ∀ v, (s.host.workers v).Outside (s'.host.workers v))
    (happended : s.appended n ≤ s'.appended n) (hwritten : s'.written n = s.written n) :
    s'.Owed n k := by
  refine ⟨hk.1.trans happended, fun hlt v token hn => ?_⟩
  rw [(hworkers v).connections] at hn
  exact (hworkers v).queued token (hk.2 (hwritten ▸ hlt) v token hn)

omit [DecidableEq T] in
/-- A thread that neither appends nor pushes. -/
theorem Counted.Inv.aside (hinv : s.Inv) (hsessions : host.sessions = s.host.sessions)
    (hworkers : ∀ v, (s.host.workers v).Outside (host.workers v))
    (hcells : ∀ n, (host.cells n).outbound = (s.host.cells n).outbound)
    (hcallers : ∀ t n, host.callers t = .sendPush n → s.host.callers t = .sendPush n) :
    Counted.Inv { s with host } where
  connected v token n hn := by
    dsimp only at hn ⊢
    rw [(hworkers v).connections] at hn
    rw [hsessions]
    exact hinv.connected v token n hn
  unknown n hn := hinv.unknown n (hsessions ▸ hn)
  sending t n ht := hinv.sending t n (hcallers t n ht)
  returned t n := (hinv.returned t n).outside hworkers (Nat.le_refl _) rfl
  promised n := (hinv.promised n).outside hworkers (Nat.le_refl _) rfl
  carried n := by
    unfold Counted.Carried
    dsimp only
    rw [hcells]
    exact hinv.carried n
  closings := hinv.closings

theorem State.setCaller_sendPush {s : State T} {t t' : T} {pc : CallerPc} {n : Nat}
    (hpc : ∀ n, pc ≠ .sendPush n) (h : (s.setCaller t pc).callers t' = .sendPush n) :
    s.callers t' = .sendPush n := by
  by_cases ht : t' = t
  · subst ht
    exact absurd ((Function.update_self ..).symm.trans h) (hpc n)
  · exact (Function.update_of_ne ht ..).symm.trans h

/-- The append of `send`. -/
theorem Counted.Inv.append (hinv : s.Inv) {t : T} {n : Nat} {bytes : List UInt8}
    (hpc : s.host.callers t = .sendAppend n bytes)
    (hroom : (s.host.cells n).outbound.canWrite bytes.length = true) :
    Counted.Inv { s.noteCall t with
      host := (s.host.setCells n { s.host.cells n with
        outbound := (s.host.cells n).outbound.append bytes }).setCaller t (.sendPush n) } := by
  have hnote : s.noteCall t = { s with
      appended := Function.update s.appended n (s.appended n + 1)
      unwritten := Function.update s.unwritten n (s.unwritten n ++ bytes)
      sending := Function.update s.sending t (s.appended n + 1) } := by
    simp only [noteCall, hpc, hroom, if_true]
  have hle (m : Nat) : s.appended m ≤ Function.update s.appended n (s.appended n + 1) m := by
    by_cases hm : m = n
    · rw [hm, Function.update_self]
      exact Nat.le_succ _
    · rw [Function.update_of_ne hm]
  rw [hnote]
  refine ⟨hinv.connected, hinv.unknown, fun t' m ht => ?_, fun t' m => ?_, fun m => ?_,
    fun m => ?_, hinv.closings⟩
  · dsimp only [State.setCaller] at ht ⊢
    by_cases htt : t' = t
    · subst htt
      rw [Function.update_self] at ht ⊢
      cases ht
      rw [Function.update_self]
    · rw [Function.update_of_ne htt] at ht ⊢
      exact (hinv.sending t' m ht).trans (hle m)
  · exact (hinv.returned t' m).outside (fun v => .refl _) (hle m) rfl
  · exact (hinv.promised m).outside (fun v => .refl _) (hle m) rfl
  · unfold Counted.Carried
    dsimp only [State.setCaller, State.setCells]
    by_cases hm : m = n
    · subst hm
      obtain ⟨before, hdata, hoffset⟩ := hinv.carried m
      rw [Function.update_self, Function.update_self]
      refine ⟨before, ?_, hoffset⟩
      rw [SendBuffer.append, hdata, List.append_assoc]
    · rw [Function.update_of_ne hm, Function.update_of_ne hm]
      exact hinv.carried m

/-- The push of `send` that makes it return. -/
theorem Counted.Inv.push (hinv : s.Inv) {t : T} {n : Nat} {session : Session}
    (hpc : s.host.callers t = .sendPush n) (hn : s.host.sessions[n]? = some session) :
    let worker := s.host.workers session.worker
    Counted.Inv { s.noteCall t with
      host := (s.host.setWorker session.worker
        { worker with pendingWrites := worker.pendingWrites ++ [session.token] }).setCaller t
          (.sent .success) } := by
  intro worker
  have hnote : s.noteCall t = { s with
      returned := Function.update s.returned t
        (Function.update (s.returned t) n (s.sending t)) } := by
    simp only [noteCall, hpc]
  have hworkers (v : Nat) : (s.host.workers v).Outside
      (Function.update s.host.workers session.worker
        { worker with pendingWrites := worker.pendingWrites ++ [session.token] } v) := by
    refine State.setWorker_outside ?_ v
    exact ⟨rfl, fun token hq => hq.imp_left (List.mem_append_left _)⟩
  rw [hnote]
  refine ⟨fun v token m hm => ?_, fun m hm => ?_, fun t' m ht => ?_, fun t' m => ?_, fun m => ?_,
    hinv.carried, hinv.closings⟩
  · dsimp only [State.setCaller, State.setWorker] at hm ⊢
    rw [(hworkers v).connections] at hm
    exact hinv.connected v token m hm
  · refine ⟨(hinv.unknown m hm).1, fun t' => ?_⟩
    have hmn : m ≠ n := by
      rintro rfl
      exact absurd (List.getElem?_eq_some_iff.mp hn).1 (Nat.not_lt_of_le hm)
    dsimp only
    by_cases htt : t' = t
    · rw [htt, Function.update_self, Function.update_of_ne hmn]
      exact (hinv.unknown m hm).2 t
    · rw [Function.update_of_ne htt]
      exact (hinv.unknown m hm).2 t'
  · refine hinv.sending t' m (State.setCaller_sendPush ?_ ht)
    simp
  · have hold (k : Nat) (hk : s.Owed m k) : Counted.Owed { s with
        host := (s.host.setWorker session.worker
          { worker with pendingWrites := worker.pendingWrites ++ [session.token] }).setCaller t
            (.sent .success)
        returned := Function.update s.returned t
          (Function.update (s.returned t) n (s.sending t)) } m k :=
      hk.outside hworkers (Nat.le_refl _) rfl
    dsimp only
    by_cases htt : t' = t
    · subst htt
      rw [Function.update_self]
      by_cases hmn : m = n
      · subst hmn
        rw [Function.update_self]
        refine ⟨hinv.sending t' m hpc, fun _ v token hm => ?_⟩
        -- the session has one token
        dsimp only [State.setCaller, State.setWorker] at hm ⊢
        rw [(hworkers v).connections] at hm
        obtain ⟨id, hid⟩ := hinv.connected v token m hm
        cases hn.symm.trans hid
        rw [Function.update_self]
        exact .inl (List.mem_append_right _ (List.mem_singleton_self _))
      · rw [Function.update_of_ne hmn]
        exact hold _ (hinv.returned t' m)
    · rw [Function.update_of_ne htt]
      exact hold _ (hinv.returned t' m)
  · exact (hinv.promised m).outside hworkers (Nat.le_refl _) rfl

theorem Counted.Inv.call (hinv : s.Inv) {t : T} (h : callerStep s.host t = some host) :
    Counted.Inv { s.noteCall t with host } := by
  have haside {pc : CallerPc} {u : State T} (hnote : s.noteCall t = s)
      (hu : host = u.setCaller t pc) (hpc : ∀ n, pc ≠ .sendPush n)
      (hsessions : u.sessions = s.host.sessions) (hcallers : u.callers = s.host.callers)
      (hworkers : ∀ v, (s.host.workers v).Outside (u.workers v))
      (hcells : ∀ n, (u.cells n).outbound = (s.host.cells n).outbound) :
      Counted.Inv { s.noteCall t with host } := by
    rw [hnote, hu]
    exact hinv.aside hsessions hworkers hcells fun t' n ht =>
      hcallers ▸ State.setCaller_sendPush hpc ht
  unfold callerStep at h
  cases hpc : s.host.callers t with
  | idle | sent => simp [hpc] at h
  | sendDisposed | closeDisposed =>
    simp only [hpc, Option.some.injEq] at h
    refine haside (by simp only [Counted.noteCall, hpc]) h.symm ?_ rfl rfl (fun _ => .refl _)
      fun _ => rfl
    split <;> simp
  | sendStopped =>
    simp only [hpc, Option.map_eq_some_iff] at h
    obtain ⟨session, -, h⟩ := h
    refine haside (by simp only [Counted.noteCall, hpc]) h.symm ?_ rfl rfl (fun _ => .refl _)
      fun _ => rfl
    split <;> simp
  | sendAppend n bytes =>
    simp only [hpc] at h
    split at h <;> cases h
    · exact hinv.append hpc ‹_›
    · refine haside ?_ rfl ?_ rfl rfl (fun _ => .refl _) fun _ => rfl
      · simp only [Counted.noteCall, hpc]
        exact if_neg ‹_›
      · simp
  | sendPush n =>
    simp only [hpc, Option.map_eq_some_iff] at h
    obtain ⟨session, hn, rfl⟩ := h
    exact hinv.push hpc hn
  | closeSwap n =>
    have hnote : s.noteCall t = s := by simp only [Counted.noteCall, hpc]
    simp only [hpc] at h
    split at h <;> cases h
    · exact haside hnote rfl (by simp) rfl rfl (fun _ => .refl _) fun _ => rfl
    · refine haside hnote rfl ?_ rfl rfl (fun _ => .refl _) fun m => ?_
      · simp
      · by_cases hm : m = n
        · subst hm
          simp [State.setCells]
        · simp [State.setCells, hm]
  | closePush n =>
    simp only [hpc, Option.map_eq_some_iff] at h
    obtain ⟨session, -, rfl⟩ := h
    refine haside (by simp only [Counted.noteCall, hpc]) rfl ?_ rfl rfl (fun v => ?_) fun _ => rfl
    · simp
    · refine State.setWorker_outside ?_ v
      exact ⟨rfl, fun _ => id⟩
  | shutdown v =>
    have hnote : s.noteCall t = s := by simp only [Counted.noteCall, hpc]
    simp only [hpc] at h
    split at h <;> cases h
    · refine haside hnote rfl ?_ rfl rfl (fun v => ?_) fun _ => rfl
      · simp
      · refine State.setWorker_outside ?_ v
        exact ⟨rfl, fun _ => id⟩
    · exact haside hnote rfl (by simp) rfl rfl (fun _ => .refl _) fun _ => rfl

omit [DecidableEq T] in
/-- A thread closes a session: what it has sent on it is promised. -/
theorem Counted.Inv.promise (hinv : s.Inv) (t : T) {n : Nat} :
    Counted.Inv { s with
      promised := Function.update s.promised n (max (s.promised n) (s.returned t n)) } := by
  refine { hinv with unknown := fun m hm => ⟨?_, (hinv.unknown m hm).2⟩, promised := fun m => ?_ }
  · dsimp only
    by_cases hmn : m = n
    · subst hmn
      rw [Function.update_self, (hinv.unknown m hm).1, (hinv.unknown m hm).2]
      rfl
    · rw [Function.update_of_ne hmn]
      exact (hinv.unknown m hm).1
  · dsimp only
    by_cases hmn : m = n
    · subst hmn
      rw [Function.update_self]
      rcases Nat.le_total (s.promised m) (s.returned t m) with hle | hle
      · rw [Nat.max_eq_right hle]
        exact hinv.returned t m
      · rw [Nat.max_eq_left hle]
        exact hinv.promised m
    · rw [Function.update_of_ne hmn]
      exact hinv.promised m

theorem Counted.Inv.begin (hinv : s.Inv) {t : T} {pc : CallerPc}
    (h : s.host.begin t pc = some host) (hpc : ∀ n, pc ≠ .sendPush n) :
    Counted.Inv { s with host } := by
  rw [State.begin_eq h]
  exact hinv.aside rfl (fun _ => .refl _) (fun _ => rfl) fun t' n ht =>
    State.setCaller_sendPush hpc ht

theorem Counted.Inv.step (hinv : s.Inv) {act : Action T} (hok : NoLateSend s act) {s' : Counted T}
    (h : Counted.step overflowChecks s act = some s') : s'.Inv := by
  obtain ⟨host, hhost, rfl⟩ := Option.map_eq_some_iff.mp h
  cases act with
  | worker w outcome =>
    simp only [Reactor.step] at hhost
    split at hhost
    · exact hinv.worker hhost hok
    · cases hhost
  | send t n bytes =>
    simp only [Reactor.step] at hhost
    split at hhost
    · exact hinv.begin hhost (by simp)
    · cases hhost
  | close t n =>
    simp only [Reactor.step] at hhost
    split at hhost
    · exact (hinv.promise t).begin hhost (by simp)
    · cases hhost
  | shutdown t => exact hinv.begin hhost (by simp)
  | call t => exact hinv.call hhost

/-! ## What was sent before a close is written -/

/-- **A send followed by a close is flushed before the close**, as long as `close_pending` removes
no connection whose token is in `pending_writes`: each of its removals comes when every append whose
`send` had returned `Success` to a thread that then called `close` has been followed by a write, and
what was appended since the last write is in the buffer and unread. -/
theorem flushed_of_noLateSend {workerCount maxPendingSend : Nat}
    (h : Reach (counting T overflowChecks workerCount maxPendingSend) NoLateSend s) :
    (∀ closing ∈ s.closings, closing.promised ≤ closing.written) ∧ ∀ n, s.Carried n := by
  have hinv : s.Inv := by
    refine h.inv Counted.Inv ?_ fun hinv hok hs => hinv.step hok hs
    rintro _ rfl
    exact ⟨nofun, fun _ _ => ⟨rfl, fun _ => rfl⟩, nofun, fun _ _ => ⟨Nat.le_refl 0, nofun⟩,
      fun _ => ⟨Nat.le_refl 0, nofun⟩, fun _ => ⟨[], rfl, Nat.le_refl 0⟩, nofun⟩
  exact ⟨hinv.closings, hinv.carried⟩

end

/-! ## Runs -/

/-- A reactor accepts a stream, admits it and comes to the waker in its next batch. -/
def admitted : List (Action Unit) :=
  [Action.worker 0 (.events [⟨0, true, false⟩, ⟨1, true, false⟩]), Action.worker 0 .none,
      Action.worker 0 .accepted, Action.worker 0 .wouldBlock] ++
    List.replicate 3 (Action.worker 0 .none) ++ [Action.worker 0 (.registered true)] ++
    List.replicate 6 (Action.worker 0 .none) ++
    [Action.worker 0 (.events [⟨1, true, false⟩])] ++ List.replicate 4 (Action.worker 0 .none)

/-- The thread sends a byte and closes the session. -/
def sendClose : List (Action Unit) :=
  [Action.send () 0 [7]] ++ List.replicate 4 (Action.call ()) ++
    [Action.close () 0] ++ List.replicate 3 (Action.call ())

/-- The thread sends and closes before the reactor takes `pending_writes`. -/
def flushedFirst : Counted Unit :=
  ((counting Unit false 1 64).run (Counted.start (buildPool Unit 1 64))
    (admitted ++ sendClose ++ List.replicate 1 (Action.worker 0 .none) ++
      [Action.worker 0 (.written 1 false)] ++ List.replicate 3 (Action.worker 0 .none))).get
    (by decide +kernel)

theorem flushed_of_noLateSend_flushedFirst :
    flushedFirst.closings = [⟨0, 1, 1⟩] ∧ (flushedFirst.host.workers 0).connections.keys = [] ∧
      (∀ closing ∈ flushedFirst.closings, closing.promised ≤ closing.written) ∧
      ∀ n, flushedFirst.Carried n := by
  have hr : Reach (counting Unit false 1 64) NoLateSend flushedFirst :=
    .get rfl (by decide +kernel) _
  exact ⟨by decide +kernel, by decide +kernel, flushed_of_noLateSend hr⟩

/-- The thread sends and closes when the reactor has taken `pending_writes` and not yet
`pending_closes`. -/
def raced : Counted Unit :=
  ((counting Unit false 1 64).run (Counted.start (buildPool Unit 1 64))
    (admitted ++ List.replicate 2 (Action.worker 0 .none) ++ sendClose ++
      List.replicate 2 (Action.worker 0 .none))).get (by decide +kernel)

/-- The connection is removed in `close_pending` with its byte unwritten. -/
theorem unflushed_betweenTakes :
    Reach (counting Unit false 1 64) Machine.free raced ∧ raced.closings = [⟨0, 1, 0⟩] ∧
      (raced.host.cells 0).outbound.data = [7] ∧ (raced.host.workers 0).connections.keys = [] ∧
      ¬∀ closing ∈ raced.closings, closing.promised ≤ closing.written :=
  ⟨.get_free rfl _, by decide +kernel, by decide +kernel, by decide +kernel, by decide +kernel⟩

end DignusActor.Reactor
