import DignusActor.Network.ReactorOutput

/-! # The bytes that a session sends

The model of one session's way out: any number of threads in `Session::send` (`session.rs`), and the
reactor that calls `TcpTransport::write` (`tcp_transport.rs`) on its `SendBuffer`. The check and the
append of a send are one block under the outbound lock, and so is a whole call of `write`; what each
`socket.write` inside it returns comes with the action. `State.accepted` and `State.appended` record
what the socket has taken and what the sends have appended, in the order of the lock.

A reactor makes a whole call of `write` in its `written` step (`write_written`).

The buffer drops what it has sent only when all of it is sent. The bytes that leave are right all
the same (`outbound_intact`), but what the buffer holds is bounded for the smallest caps only
(`bounded_iff`). -/

namespace DignusActor.Reactor.SendBuffer

def hasPending (buffer : SendBuffer) : Bool := buffer.offset < buffer.data.length

def pendingSlice (buffer : SendBuffer) : List UInt8 := buffer.data.drop buffer.offset

/-- What the operations of the buffer keep. -/
structure Ok (maxPending : Nat) (buffer : SendBuffer) : Prop where
  cap : buffer.maxPending = maxPending
  offset : buffer.offset ≤ buffer.data.length
  pending : buffer.pendingLen ≤ maxPending
  reset : buffer.data.length ≤ buffer.offset → buffer.data = []

variable {maxPending : Nat} {buffer : SendBuffer} {bytes : List UInt8}

theorem ok_new (maxPending : Nat) : (new maxPending).Ok maxPending :=
  ⟨rfl, Nat.le_refl 0, Nat.zero_le _, fun _ => rfl⟩

theorem length_pendingSlice (buffer : SendBuffer) :
    buffer.pendingSlice.length = buffer.pendingLen := List.length_drop

theorem Ok.append (h : buffer.Ok maxPending) (hcan : buffer.canWrite bytes.length = true) :
    (buffer.append bytes).Ok maxPending ∧
      (buffer.append bytes).pendingSlice = buffer.pendingSlice ++ bytes := by
  have hcan : buffer.pendingLen + bytes.length ≤ buffer.maxPending := of_decide_eq_true hcan
  have hoff := h.offset
  refine ⟨⟨h.cap, ?_, ?_, fun hall => ?_⟩, List.drop_append_of_le_length hoff⟩
  · simp only [SendBuffer.append, List.length_append]
    omega
  · rw [h.cap] at hcan
    simp only [pendingLen, SendBuffer.append, List.length_append] at hcan ⊢
    omega
  · simp only [SendBuffer.append, List.length_append] at hall ⊢
    rw [h.reset (by omega), List.nil_append]
    exact List.length_eq_zero_iff.mp (by omega)

/-- `advance` takes bytes off the front of what is pending. -/
theorem Ok.advance (h : buffer.Ok maxPending) (count : Nat) :
    (buffer.advance count).Ok maxPending ∧
      (buffer.advance count).pendingSlice = buffer.pendingSlice.drop count := by
  have hoff := h.offset
  have hpending := h.pending
  unfold SendBuffer.advance
  split
  · rename_i hall
    refine ⟨⟨h.cap, Nat.le_refl 0, Nat.zero_le _, fun _ => rfl⟩, ?_⟩
    rw [pendingSlice, pendingSlice, List.drop_drop, List.drop_eq_nil_of_le hall]
    rfl
  · rename_i hsome
    refine ⟨⟨h.cap, by dsimp only; omega, ?_, fun hall => absurd hall hsome⟩, ?_⟩
    · unfold pendingLen at hpending ⊢
      dsimp only
      omega
    · rw [pendingSlice, pendingSlice, List.drop_drop]

/-- Two advances in a row, where the first one leaves something. -/
theorem advance_advance {first second : Nat} (h : first < buffer.pendingLen) :
    (buffer.advance first).advance second = buffer.advance (first + second) := by
  have hsome : ¬buffer.data.length ≤ buffer.offset + first := by
    unfold pendingLen at h
    omega
  unfold SendBuffer.advance
  rw [if_neg hsome]
  simp only [Nat.add_assoc]

theorem Ok.advance_zero (h : buffer.Ok maxPending) : buffer.advance 0 = buffer := by
  have hoff := h.offset
  unfold SendBuffer.advance
  split
  · rename_i hall
    have hdata := h.reset hall
    cases buffer
    simp only at hdata hoff ⊢
    subst hdata
    simp only [List.length_nil, Nat.le_zero] at hoff
    rw [hoff]
  · rfl

end DignusActor.Reactor.SendBuffer

namespace DignusActor.Outbound

open Machine (Reach)
open Reactor (SendBuffer SendResult)

/-! ## The model -/

/-- What `socket.write` returns. -/
inductive SocketResult
  | wrote (count : Nat)
  | wouldBlock
  | interrupted
  | failed
  deriving DecidableEq

inductive TransportOutcome
  | continue
  | closed
  deriving DecidableEq

/-- A send buffer, and what the socket has accepted from it. -/
structure Output where
  buffer : SendBuffer
  accepted : List UInt8
  deriving DecidableEq

/-- `advance` after a `socket.write` that took `count` bytes. -/
def Output.advance (out : Output) (count : Nat) : Output where
  buffer := out.buffer.advance count
  accepted := out.accepted ++ out.buffer.pendingSlice.take count

/-- `TcpTransport::write`, with one result for each `socket.write` that it makes. A socket takes no
more than it is given. -/
def write : List SocketResult → Output → Option (Output × TransportOutcome)
  | [], out => if out.buffer.hasPending then none else some (out, .continue)
  | result :: results, out =>
    if out.buffer.hasPending then
      match result with
      | .wrote 0 => if results.isEmpty then some (out, .closed) else none
      | .wrote count =>
        if count ≤ out.buffer.pendingSlice.length then write results (out.advance count) else none
      | .wouldBlock => if results.isEmpty then some (out, .continue) else none
      | .interrupted => write results out
      | .failed => if results.isEmpty then some (out, .closed) else none
    else none

/-- Where a thread stands in `Session::send`. -/
inductive SenderPc
  | idle
  | sent (result : SendResult)
  | disposed (bytes : List UInt8)
  | stopped (bytes : List UInt8)
  | append (bytes : List UInt8)
  | push
  deriving DecidableEq

structure State (T : Type) where
  out : Output
  disposed : Bool
  stopped : Bool
  senders : T → SenderPc
  /-- The byte strings of the sends that were appended. -/
  appended : List (List UInt8)

def new (T : Type) (maxPendingSend : Nat) : State T where
  out := ⟨.new maxPendingSend, []⟩
  disposed := false
  stopped := false
  senders _ := .idle
  appended := []

inductive Action (T : Type)
  | send (t : T) (bytes : List UInt8)
  | call (t : T)
  | write (results : List SocketResult)
  | dispose
  | stop
  deriving DecidableEq

section
variable {T : Type} [DecidableEq T]

def State.setSender (s : State T) (t : T) (pc : SenderPc) : State T :=
  { s with senders := Function.update s.senders t pc }

/-- The next step of a thread in `Session::send`. -/
def senderStep (s : State T) (t : T) : Option (State T) :=
  match s.senders t with
  | .idle | .sent _ => none
  | .disposed bytes => some (s.setSender t (if s.disposed then .sent .disposed else .stopped bytes))
  | .stopped bytes => some (s.setSender t (if s.stopped then .sent .disposed else .append bytes))
  | .append bytes =>
    if s.out.buffer.canWrite bytes.length then
      some ({ s with
        out := { s.out with buffer := s.out.buffer.append bytes }
        appended := s.appended ++ [bytes] }.setSender t .push)
    else some (s.setSender t (.sent .bufferFull))
  | .push => some (s.setSender t (.sent .success))

def step (s : State T) : Action T → Option (State T)
  | .send t bytes =>
    match s.senders t with
    | .idle | .sent _ => some (s.setSender t (.disposed bytes))
    | _ => none
  | .call t => senderStep s t
  | .write results => (write results s.out).map fun (out, _) => { s with out }
  | .dispose => some { s with disposed := true }
  | .stop => some { s with stopped := true }

/-- The way out of a session of a host with this `max_pending_send`. -/
def machine (T : Type) [DecidableEq T] (maxPendingSend : Nat) : Machine (State T) (Action T) where
  Init s := s = new T maxPendingSend
  step := step

end

/-! ## What one call does -/

section
variable {out out' : Output} {outcome : TransportOutcome} {maxPending : Nat}

/-- Everything that has left or waits in the buffer. -/
def Output.bytes (out : Output) : List UInt8 := out.accepted ++ out.buffer.pendingSlice

theorem Output.advance_bytes (h : out.buffer.Ok maxPending) (count : Nat) :
    (out.advance count).buffer.Ok maxPending ∧ (out.advance count).bytes = out.bytes := by
  obtain ⟨hok, hslice⟩ := h.advance count
  refine ⟨hok, ?_⟩
  simp only [bytes, Output.advance, hslice, List.append_assoc, List.take_append_drop]

/-- The rule for `write`: what every `advance` keeps, a call keeps. The induction is on the calls of
`socket.write`. -/
theorem write_keeps (P : Output → Prop)
    (advance : ∀ out count, P out → 0 < count → count ≤ out.buffer.pendingLen →
      P (out.advance count))
    {results : List SocketResult} (h : write results out = some (out', outcome)) (hp : P out) :
    P out' := by
  induction results generalizing out with
  | nil =>
    simp only [write] at h
    split at h <;> cases h
    exact hp
  | cons result results ih =>
    simp only [write] at h
    split at h
    · cases result with
      | wrote count =>
        cases count with
        | zero =>
          simp only at h
          split at h <;> cases h
          exact hp
        | succ count =>
          simp only at h
          split at h
          · rename_i hcount
            rw [SendBuffer.length_pendingSlice] at hcount
            exact ih h (advance out (count + 1) hp (Nat.succ_pos count) hcount)
          · cases h
      | interrupted => exact ih h hp
      | wouldBlock | failed =>
        dsimp only at h
        split at h <;> cases h
        exact hp
    · cases h

/-- `write` moves bytes from the buffer to the socket. -/
theorem write_bytes {results : List SocketResult} (h : write results out = some (out', outcome))
    (hok : out.buffer.Ok maxPending) :
    out'.buffer.Ok maxPending ∧ out'.bytes = out.bytes := by
  refine write_keeps (fun o => o.buffer.Ok maxPending ∧ o.bytes = out.bytes) ?_ h ⟨hok, rfl⟩
  rintro o count ⟨hok, hbytes⟩ - -
  obtain ⟨hok', hbytes'⟩ := o.advance_bytes hok count
  exact ⟨hok', hbytes'.trans hbytes⟩

/-- What a call of `write` does to the buffer: it advances by all that the socket took. -/
theorem write_advance {results : List SocketResult} (h : write results out = some (out', outcome))
    (hok : out.buffer.Ok maxPending) :
    ∃ count ≤ out.buffer.pendingLen, out'.buffer = out.buffer.advance count := by
  refine write_keeps
    (fun o => ∃ count ≤ out.buffer.pendingLen, o.buffer = out.buffer.advance count) ?_ h
    ⟨0, Nat.zero_le _, hok.advance_zero.symm⟩
  rintro o count ⟨before, hbefore, ho⟩ hpos hcount
  rw [ho] at hcount
  have hslice := congrArg List.length (hok.advance before).2
  rw [List.length_drop, SendBuffer.length_pendingSlice, SendBuffer.length_pendingSlice] at hslice
  refine ⟨before + count, by omega, ?_⟩
  rw [Output.advance, ho, SendBuffer.advance_advance (by omega)]

end

/-! ## The write of a reactor -/

section
variable {T : Type} [DecidableEq T] {overflowChecks : Bool} {workerCount maxPending : Nat}
  {ok : Reactor.State T → Reactor.Action T → Prop} {s : Reactor.State T}

/-- The send buffers of a host are as their operations leave them. -/
theorem ok_of_reach (h : Reach (Reactor.machine T overflowChecks workerCount maxPending) ok s) :
    ∀ n, (s.cells n).outbound.Ok maxPending := by
  refine h.inv (fun s => ∀ n, (s.cells n).outbound.Ok maxPending) ?_ fun {s a s'} hok _ hs n => ?_
  · rintro _ rfl n
    exact SendBuffer.ok_new maxPending
  cases a with
  | worker w outcome =>
    simp only [Reactor.machine, Reactor.step] at hs
    split at hs
    · cases hf : (s.workers w).pc.flushes with
      | none =>
        rw [Reactor.workerStep_outbound hs hf]
        exact hok n
      | some token =>
        rcases Reactor.workerStep_flush hs hf with ⟨-, rfl⟩ | ⟨m, count, closed, -, -, -, rfl⟩
        · exact hok n
        · by_cases hn : n = m
          · subst hn
            rw [Reactor.State.write_outbound_self]
            exact ((hok n).advance count).1
          · rw [Reactor.State.write_outbound_of_ne _ hn]
            exact hok n
    · cases hs
  | send t m bytes | close t m =>
    simp only [Reactor.machine, Reactor.step, Reactor.State.begin] at hs
    split at hs
    · split at hs <;> cases hs <;> exact hok n
    · cases hs
  | shutdown t =>
    simp only [Reactor.machine, Reactor.step, Reactor.State.begin] at hs
    split at hs <;> cases hs <;> exact hok n
  | call t =>
    rcases (Reactor.callerStep_output hs).2 n with heq | ⟨-, bytes, hcan, heq⟩
    · rw [heq]
      exact hok n
    · rw [heq]
      exact ((hok n).append hcan).1

/-- **A write is a step of the reactor.** In every run of a host, whatever the socket answers, a
reactor about to flush session `n` can take a `written` step that leaves the buffer of the session
as the call of `write` does. -/
theorem write_written (h : Reach (Reactor.machine T overflowChecks workerCount maxPending) ok s)
    {w token n : Nat} (hw : w < s.workerCount) (hf : (s.workers w).pc.flushes = some token)
    (hn : (s.workers w).connections.lookup token = some n) {results : List SocketResult}
    {accepted : List UInt8} {out : Output} {outcome : TransportOutcome}
    (hwrite : write results ⟨(s.cells n).outbound, accepted⟩ = some (out, outcome)) :
    ∃ count s',
      Reactor.step overflowChecks s (.worker w (.written count (decide (outcome = .closed)))) =
        some s' ∧ (s'.cells n).outbound = out.buffer := by
  obtain ⟨count, hcount, hbuffer⟩ := write_advance hwrite (ok_of_reach h n)
  have hstep : ∃ s', Reactor.workerStep overflowChecks s w
      (.written count (decide (outcome = .closed))) = some s' := by
    cases hpc : (s.workers w).pc with
    | flushing tokens =>
      rw [hpc] at hf
      cases tokens with
      | nil => cases hf
      | cons first tokens =>
        cases hf
        simp [Reactor.workerStep, hpc, Reactor.State.flush, hn, hcount]
    | readFlush first writable | writableFlush first =>
      rw [hpc] at hf
      cases hf
      simp [Reactor.workerStep, hpc, Reactor.State.flush, hn, hcount]
    | _ =>
      rw [hpc] at hf
      cases hf
  obtain ⟨s', hs⟩ := hstep
  refine ⟨count, s', (if_pos hw).trans hs, ?_⟩
  rcases Reactor.workerStep_flush hs hf with ⟨hnone, -⟩ | ⟨m, written, closed, hm, hout, -, rfl⟩
  · cases hnone.symm.trans hn
  · cases hm.symm.trans hn
    cases hout
    rw [hbuffer, Reactor.State.write_outbound_self]

end

/-! ## Every run -/

section
variable {T : Type} {s s' : State T} {a : Action T} {t : T} {maxPending : Nat}

structure Intact (maxPending : Nat) (s : State T) : Prop where
  buffer : s.out.buffer.Ok maxPending
  bytes : s.out.bytes = s.appended.flatten

theorem Intact.new (T : Type) (maxPending : Nat) : Intact maxPending (new T maxPending) :=
  ⟨SendBuffer.ok_new maxPending, rfl⟩

variable [DecidableEq T]

/-- What a step of a send does: it appends, and will answer `Success`, or it leaves the output
alone. -/
theorem senderStep_cases (h : senderStep s t = some s') :
    (∃ pc, s' = s.setSender t pc ∧ pc ≠ .push) ∨
      ∃ bytes, s.out.buffer.canWrite bytes.length = true ∧
        s' = { s with
          out := { s.out with buffer := s.out.buffer.append bytes }
          appended := s.appended ++ [bytes] }.setSender t .push := by
  unfold senderStep at h
  split at h
  · cases h
  · cases h
  · cases h
    refine .inl ⟨_, rfl, ?_⟩
    split <;> exact nofun
  · cases h
    refine .inl ⟨_, rfl, ?_⟩
    split <;> exact nofun
  · split at h
    · rename_i hcan
      cases h
      exact .inr ⟨_, hcan, rfl⟩
    · cases h
      exact .inl ⟨_, rfl, nofun⟩
  · cases h
    exact .inl ⟨_, rfl, nofun⟩

theorem Intact.step (h : Intact maxPending s) (hs : step s a = some s') : Intact maxPending s' := by
  cases a with
  | send t bytes =>
    simp only [Outbound.step] at hs
    split at hs <;> cases hs <;> exact ⟨h.buffer, h.bytes⟩
  | call t =>
    rcases senderStep_cases hs with ⟨pc, rfl, -⟩ | ⟨bytes, hcan, rfl⟩
    · exact ⟨h.buffer, h.bytes⟩
    · obtain ⟨hok, hslice⟩ := h.buffer.append hcan
      refine ⟨hok, ?_⟩
      have hbytes := h.bytes
      unfold Output.bytes at hbytes
      simp only [State.setSender, Output.bytes, hslice, List.flatten_append, ← hbytes,
        List.append_assoc, List.flatten_cons, List.flatten_nil, List.append_nil]
  | write results =>
    obtain ⟨⟨out, outcome⟩, hw, rfl⟩ := Option.map_eq_some_iff.mp hs
    obtain ⟨hok, hbytes⟩ := write_bytes hw h.buffer
    exact ⟨hok, hbytes.trans h.bytes⟩
  | dispose | stop =>
    cases hs
    exact ⟨h.buffer, h.bytes⟩

theorem intact_of_reach {ok : State T → Action T → Prop}
    (h : Reach (machine T maxPending) ok s) : Intact maxPending s := by
  refine h.inv (Intact maxPending) ?_ fun hi _ hs => hi.step hs
  rintro _ rfl
  exact .new T maxPending

/-- **No byte is lost, doubled or moved.** In every run the bytes that the socket has accepted,
followed by what is pending, are the byte strings of the appended sends in the order of the lock;
the offset stays inside the buffer and what is pending within `max_pending_send`; and a send that
answers `BufferFull` or `Disposed` has left the buffer as it was: a send that changes it goes on to
answer `Success`. -/
theorem outbound_intact (h : Reach (machine T maxPending) Machine.free s) :
    s.out.accepted ++ s.out.buffer.pendingSlice = s.appended.flatten ∧
      s.out.buffer.offset ≤ s.out.buffer.data.length ∧ s.out.buffer.pendingLen ≤ maxPending ∧
      ∀ t s', step s (.call t) = some s' →
        (s'.out = s.out ∧ s'.appended = s.appended ∨ s'.senders t = .push) ∧
          (s.senders t = .push → s'.senders t = .sent .success) := by
  have hi := intact_of_reach h
  refine ⟨hi.bytes, hi.buffer.offset, hi.buffer.pending, fun t s' hs => ⟨?_, fun hpc => ?_⟩⟩
  · rcases senderStep_cases hs with ⟨pc, rfl, -⟩ | ⟨bytes, -, rfl⟩
    · exact .inl ⟨rfl, rfl⟩
    · exact .inr (Function.update_self ..)
  · simp only [step, senderStep, hpc, Option.some.injEq] at hs
    subst hs
    exact Function.update_self ..

/-- Two threads send; the socket takes three bytes, is interrupted and blocks. -/
def partlySent : State Bool :=
  ((machine Bool 8).run (new Bool 8)
    [.send true [1, 2], .send false [3, 4], .call true, .call false, .call true, .call false,
      .call true, .call false, .call true, .write [.wrote 3, .interrupted, .wouldBlock]]).get rfl

theorem outbound_intact_partlySent :
    partlySent.out.accepted = [1, 2, 3] ∧ partlySent.out.buffer.offset = 3 ∧
      partlySent.out.accepted ++ partlySent.out.buffer.pendingSlice = [1, 2, 3, 4] :=
  ⟨rfl, rfl, (outbound_intact (.get_free rfl rfl)).1⟩

/-! ## What the buffer holds -/

/-- A cap of at most one byte: a write that takes anything takes everything. -/
theorem offset_eq_zero (hmax : maxPending ≤ 1) (h : Reach (machine T maxPending) Machine.free s) :
    s.out.buffer.offset = 0 := by
  refine h.inv_of (Intact maxPending) (fun s => s.out.buffer.offset = 0) intact_of_reach ?_ ?_
  · rintro _ rfl
    rfl
  · rintro s a s' hi hz - hs
    cases a with
    | send t bytes =>
      simp only [machine, step] at hs
      split at hs <;> cases hs <;> exact hz
    | call t =>
      rcases senderStep_cases hs with ⟨pc, rfl, -⟩ | ⟨bytes, -, rfl⟩ <;> exact hz
    | write results =>
      obtain ⟨⟨out, outcome⟩, hw, rfl⟩ := Option.map_eq_some_iff.mp hs
      refine (write_keeps (fun o => o.buffer.Ok maxPending ∧ o.buffer.offset = 0) ?_ hw
        ⟨hi.buffer, hz⟩).2
      rintro o count ⟨hok, hz⟩ hpos -
      refine ⟨(o.advance_bytes hok count).1, ?_⟩
      have hpending := hok.pending
      simp only [SendBuffer.pendingLen] at hpending
      simp only [Output.advance, SendBuffer.advance]
      rw [if_pos (by omega)]
    | dispose | stop =>
      cases hs
      exact hz

/-- Thread `t` can send, and all but the last byte of the buffer is sent. -/
structure Lagging (t : T) (len : Nat) (s : State T) : Prop where
  sender : s.senders t = .sent .success
  disposed : s.disposed = false
  stopped : s.stopped = false
  length : s.out.buffer.data.length = len + 1
  offset : s.out.buffer.offset = len

/-- A thread sends, and the socket takes one byte and blocks. -/
def sendAndWrite (t : T) (bytes : List UInt8) : List (Action T) :=
  [.send t bytes, .call t, .call t, .call t, .call t, .write [.wrote 1, .wouldBlock]]

/-- The socket takes one byte of a buffer that has more. -/
theorem write_one (out : Output) (hlen : out.buffer.offset + 1 < out.buffer.data.length) :
    write [.wrote 1, .wouldBlock] out = some (out.advance 1, .continue) := by
  have hpending : out.buffer.hasPending = true := decide_eq_true (by omega)
  have hlen' : 1 ≤ out.buffer.pendingSlice.length := by
    rw [SendBuffer.length_pendingSlice, SendBuffer.pendingLen]
    omega
  have hmore : (out.advance 1).buffer.hasPending = true := by
    simp only [Output.advance, SendBuffer.advance, if_neg (Nat.not_le_of_lt hlen)]
    exact decide_eq_true hlen
  simp [write, hpending, hlen', hmore]

/-- The send leaves two bytes pending, and the socket takes one of them. -/
theorem sendAndWrite_run (maxPending : Nat) (bytes : List UInt8)
    (hidle : s.senders t = .idle ∨ s.senders t = .sent .success)
    (hdisposed : s.disposed = false) (hstopped : s.stopped = false)
    (hcan : s.out.buffer.canWrite bytes.length = true)
    (hlen : s.out.buffer.data.length + bytes.length = s.out.buffer.offset + 2) :
    ∃ s', (machine T maxPending).run s (sendAndWrite t bytes) = some s' ∧
      Lagging t (s.out.buffer.offset + 1) s' := by
  have hbegin : step s (.send t bytes) = some (s.setSender t (.disposed bytes)) := by
    rcases hidle with h | h <;> simp [step, h]
  have hlen' :
      (s.out.buffer.append bytes).offset + 1 < (s.out.buffer.append bytes).data.length := by
    simp only [SendBuffer.append, List.length_append]
    omega
  have hwrite := write_one ⟨s.out.buffer.append bytes, s.out.accepted⟩ hlen'
  refine ⟨{ s with
    out := Output.advance ⟨s.out.buffer.append bytes, s.out.accepted⟩ 1
    senders := Function.update s.senders t (.sent .success)
    appended := s.appended ++ [bytes] }, ?_, ?_⟩
  · simp only [sendAndWrite, Machine.run, machine, hbegin, Option.bind_some]
    simp [step, senderStep, State.setSender, hdisposed, hstopped, hcan, hwrite]
  · refine ⟨Function.update_self .., hdisposed, hstopped, ?_, ?_⟩ <;>
      simp only [Output.advance, SendBuffer.advance, if_neg (Nat.not_le_of_lt hlen')]
    · simpa [SendBuffer.append] using hlen
    · rfl

/-- From two bytes on, the buffer grows without end: each send finds room, because the socket has
taken a byte, and none finds the buffer drained. -/
theorem lagging_reach [Inhabited T] (hmax : 2 ≤ maxPending) (len : Nat) :
    ∃ s, Reach (machine T maxPending) Machine.free s ∧ Lagging default (len + 1) s := by
  have hfree (s : State T) (as : List (Action T)) :
      (machine T maxPending).RunOk Machine.free s as :=
    .of_forall (fun _ _ _ => trivial) s
  induction len with
  | zero =>
    obtain ⟨s', hrun, hlag⟩ := sendAndWrite_run (s := new T maxPending) (t := default)
      maxPending [0, 0] (.inl rfl) rfl rfl (decide_eq_true hmax) rfl
    exact ⟨s', .run (.init rfl) (hfree _ _) hrun, hlag⟩
  | succ len ih =>
    obtain ⟨s, hs, hlag⟩ := ih
    have hcan : s.out.buffer.canWrite [(0 : UInt8)].length = true := by
      refine decide_eq_true ?_
      rw [(intact_of_reach hs).buffer.cap, SendBuffer.pendingLen, hlag.length, hlag.offset]
      simpa using hmax
    obtain ⟨s', hrun, hlag'⟩ := sendAndWrite_run maxPending [0] (.inr hlag.sender)
      hlag.disposed hlag.stopped hcan (by rw [hlag.length, hlag.offset]; rfl)
    refine ⟨s', .run hs (hfree _ _) hrun, ?_⟩
    rwa [hlag.offset] at hlag'

/-- There is a bound on what the buffer holds, over all runs, if and only if the cap is at most one
byte. -/
theorem bounded_iff [Inhabited T] (maxPending : Nat) :
    (∃ bound, ∀ s, Reach (machine T maxPending) Machine.free s →
      s.out.buffer.data.length ≤ bound) ↔ maxPending ≤ 1 := by
  constructor
  · rintro ⟨bound, hbound⟩
    by_contra hmax
    obtain ⟨s, hs, hlag⟩ := lagging_reach (T := T) (by omega : 2 ≤ maxPending) bound
    have hle := hbound s hs
    rw [hlag.length] at hle
    omega
  · intro hmax
    refine ⟨maxPending, fun s hs => ?_⟩
    have hpending := (intact_of_reach hs).buffer.pending
    rwa [SendBuffer.pendingLen, offset_eq_zero hmax hs] at hpending

/-- With a cap of two bytes no bound holds. -/
theorem unbounded_two : ¬∃ bound, ∀ s, Reach (machine Unit 2) Machine.free s →
    s.out.buffer.data.length ≤ bound := by
  rintro ⟨bound, hbound⟩
  obtain ⟨s, hs, hlag⟩ := lagging_reach (T := Unit) (Nat.le_refl 2) bound
  have hle := hbound s hs
  rw [hlag.length] at hle
  omega

end

end DignusActor.Outbound
