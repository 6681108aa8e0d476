import DignusActor.Network.Outbound
import DignusActor.Network.Chunking
import DignusActor.Network.RoundTrip
import DignusActor.Stream.Codec

/-! # From a session to its peer

Both ends of a connection: threads that send through a `SessionSender` (`session_sender.rs`,
`frame_encoder.rs`) on a session of one host, and the reactor of the other, which reads with
`TcpTransport::read` (`tcp_transport.rs`) and hands what it has read to `on_data`
(`session_actor_host.rs`). The connection delivers what the sending socket has accepted, in order,
cut anywhere, and may break off at any time.

With length-prefixed frames the peer's actor is sent the payloads of the sends in the order of the
outbound lock (`frames_delivered`); with the raw codec it is sent their bytes
(`bytes_delivered`). -/

namespace DignusActor.Link

open Machine (Reach)
open Network
open Outbound (SocketResult TransportOutcome)

/-! ## `frame_encoder.rs`, `codec.rs` and `tcp_transport.rs` -/

/-- `FrameEncoder::encode`. -/
abbrev Encode := Bytes → Bytes

/-- `RawEncoder::encode`. -/
def rawEncode : Encode := fun payload => payload

/-- `LengthPrefixedEncoder::encode`. -/
def lengthPrefixedEncode : Encode := lengthPrefixedFrame

/-- `RawFrameDecoder::try_decode`; a `SessionReceived` is its bytes. -/
def rawTryDecode : TryDecode Bytes := fun buffer =>
  if buffer.isEmpty then .ok .incomplete else .ok (.frame buffer.length (some buffer))

/-- `READ_BUFFER_SIZE`. -/
def readBufferSize : Nat := 8192

/-- What `socket.read` returns. -/
inductive SocketRead
  | read (count : Nat)
  | wouldBlock
  | interrupted
  | failed
  deriving DecidableEq

/-- `TcpTransport::read` from a socket that can give the bytes `arrived`, with one result for each
`socket.read` that it makes. What it appends to `inbound` comes with what it has left. -/
def read : List SocketRead → Bytes → Bytes → Option (Bytes × Bytes × TransportOutcome)
  | [], _, _ => none
  | .read 0 :: results, arrived, inbound =>
    if results.isEmpty then some (inbound, arrived, .closed) else none
  | .read count :: results, arrived, inbound =>
    if count ≤ min readBufferSize arrived.length then
      read results (arrived.drop count) (inbound ++ arrived.take count)
    else none
  | .wouldBlock :: results, arrived, inbound =>
    if results.isEmpty then some (inbound, arrived, .continue) else none
  | .interrupted :: results, arrived, inbound => read results arrived inbound
  | .failed :: results, arrived, inbound =>
    if results.isEmpty then some (inbound, arrived, .closed) else none

/-! ## The connection -/

structure State (T M : Type) where
  /-- The sending session, with what its socket has accepted. -/
  sender : Outbound.State T
  /-- What the socket has accepted and the peer has not read. -/
  wire : Bytes
  /-- What the peer has read. -/
  received : Bytes
  /-- The peer's session; an error when a call of `on_data` did not return. -/
  entry : Except Fault (SessionEntry M)
  connected : Bool

def new (T M : Type) (maxPendingSend : Nat) : State T M where
  sender := Outbound.new T maxPendingSend
  wire := []
  received := []
  entry := .ok (.new M)
  connected := true

inductive Action (T : Type)
  /-- `SessionSender::send`. -/
  | send (t : T) (payload : Bytes)
  /-- `SessionSender::send_raw`. -/
  | sendRaw (t : T) (bytes : Bytes)
  | call (t : T)
  | write (results : List SocketResult)
  | dispose
  | stop
  /-- `Reactor::read` at the peer. -/
  | read (results : List SocketRead)
  /-- The peer closes its connection. -/
  | disconnect
  deriving DecidableEq

section
variable {T M : Type}

/-- A step of the sending session; what its socket accepts is on the wire. -/
def State.setSender (s : State T M) (sender : Outbound.State T) : State T M :=
  { s with
    sender
    wire := s.wire ++ sender.out.accepted.drop s.sender.out.accepted.length }

/-- `Reactor::read` and the `close` that follows it when the transport is closed. -/
def State.read (tryDecode : TryDecode M) (s : State T M) (results : List SocketRead) :
    Option (State T M) :=
  if s.connected then
    match s.entry, Link.read results s.wire [] with
    | .ok entry, some (scratch, wire, outcome) =>
      some { s with
        wire
        received := s.received ++ scratch
        entry := if scratch.isEmpty then .ok entry else entry.onData tryDecode scratch
        connected := outcome == .continue }
    | _, _ => none
  else none

variable [DecidableEq T]

def step (encode : Encode) (tryDecode : TryDecode M) (s : State T M) :
    Action T → Option (State T M)
  | .send t payload => (Outbound.step s.sender (.send t (encode payload))).map s.setSender
  | .sendRaw t bytes => (Outbound.step s.sender (.send t bytes)).map s.setSender
  | .call t => (Outbound.step s.sender (.call t)).map s.setSender
  | .write results => (Outbound.step s.sender (.write results)).map s.setSender
  | .dispose => (Outbound.step s.sender .dispose).map s.setSender
  | .stop => (Outbound.step s.sender .stop).map s.setSender
  | .read results => s.read tryDecode results
  | .disconnect => some { s with connected := false }

def machine (T : Type) [DecidableEq T] (encode : Encode) (tryDecode : TryDecode M)
    (maxPendingSend : Nat) : Machine (State T M) (Action T) where
  Init s := s = new T M maxPendingSend
  step := step encode tryDecode

end

/-! ## What a step does to the sender -/

section
variable {T : Type} [DecidableEq T] {s s' : Outbound.State T} {t : T}

/-- The bytes of a send that are not appended yet. -/
def pendingBytes : Outbound.SenderPc → Option Bytes
  | .disposed bytes | .stopped bytes | .append bytes => some bytes
  | .idle | .sent _ | .push => none

theorem eq_of_send {bytes : Bytes} (h : Outbound.step s (.send t bytes) = some s') :
    s' = s.setSender t (.disposed bytes) := by
  simp only [Outbound.step] at h
  split at h <;> cases h <;> rfl

/-- What the socket has accepted stays accepted. -/
theorem accepted_prefix {a : Outbound.Action T} (h : Outbound.step s a = some s') :
    s.out.accepted <+: s'.out.accepted := by
  cases a with
  | send t bytes =>
    obtain rfl := eq_of_send h
    exact List.prefix_refl _
  | call t =>
    rcases Outbound.senderStep_cases h with ⟨pc, rfl, -⟩ | ⟨bytes, -, rfl⟩ <;>
      exact List.prefix_refl _
  | write results =>
    obtain ⟨⟨out, outcome⟩, hw, rfl⟩ := Option.map_eq_some_iff.mp h
    refine Outbound.write_keeps (fun o => s.out.accepted <+: o.accepted) ?_ hw (List.prefix_refl _)
    intro o count ho _ _
    exact ho.trans (List.prefix_append _ _)
  | dispose | stop =>
    cases h
    exact List.prefix_refl _

/-- Every send that is under way, and every one that was appended, is of bytes that satisfy `P`. -/
structure Written (P : Bytes → Prop) (s : Outbound.State T) : Prop where
  pending : ∀ t bytes, pendingBytes (s.senders t) = some bytes → P bytes
  appended : ∀ bytes ∈ s.appended, P bytes

/-- A sender goes on with the bytes that it had, or with none. -/
theorem Written.setSender {P : Bytes → Prop} (h : Written P s) {pc : Outbound.SenderPc}
    (hpc : ∀ bytes, pendingBytes pc = some bytes → pendingBytes (s.senders t) = some bytes) :
    Written P (s.setSender t pc) := by
  refine ⟨fun u bytes hu => ?_, h.appended⟩
  simp only [Outbound.State.setSender, Function.update_apply] at hu
  split at hu
  · exact h.pending t bytes (hpc bytes hu)
  · exact h.pending u bytes hu

theorem Written.call {P : Bytes → Prop} (h : Written P s)
    (hs : Outbound.senderStep s t = some s') : Written P s' := by
  unfold Outbound.senderStep at hs
  split at hs
  · cases hs
  · cases hs
  · rename_i bytes hpc
    cases hs
    apply h.setSender
    intro b hb
    rw [hpc]
    split at hb
    · cases hb
    · exact hb
  · rename_i bytes hpc
    cases hs
    apply h.setSender
    intro b hb
    rw [hpc]
    split at hb
    · cases hb
    · exact hb
  · rename_i bytes hpc
    split at hs <;> cases hs
    · apply Written.setSender
      · refine ⟨h.pending, fun b hb => ?_⟩
        rcases List.mem_append.mp hb with hb | hb
        · exact h.appended b hb
        · exact h.pending t b (by rw [hpc, List.mem_singleton.mp hb]; rfl)
      · exact nofun
    · exact h.setSender nofun
  · cases hs
    exact h.setSender nofun

theorem Written.step {P : Bytes → Prop} {a : Outbound.Action T} (h : Written P s)
    (hs : Outbound.step s a = some s') (hsend : ∀ t bytes, a = .send t bytes → P bytes) :
    Written P s' := by
  cases a with
  | send t bytes =>
    obtain rfl := eq_of_send hs
    refine ⟨fun u b hu => ?_, h.appended⟩
    simp only [Outbound.State.setSender, Function.update_apply] at hu
    split at hu
    · cases hu
      exact hsend t bytes rfl
    · exact h.pending u b hu
  | call t => exact h.call hs
  | write results =>
    obtain ⟨_, _, rfl⟩ := Option.map_eq_some_iff.mp hs
    exact ⟨h.pending, h.appended⟩
  | dispose | stop =>
    cases hs
    exact ⟨h.pending, h.appended⟩

end

/-! ## Every run -/

/-- A read takes what it appends off the front of what has arrived. -/
theorem read_takes {results : List SocketRead} {arrived inbound inbound' rest : Bytes}
    {outcome : TransportOutcome}
    (h : read results arrived inbound = some (inbound', rest, outcome)) :
    ∃ taken, inbound' = inbound ++ taken ∧ arrived = taken ++ rest := by
  induction results generalizing arrived inbound with
  | nil => cases h
  | cons result results ih =>
    cases result with
    | read count =>
      cases count with
      | zero =>
        simp only [read] at h
        split at h <;> cases h
        exact ⟨[], (List.append_nil _).symm, rfl⟩
      | succ count =>
        simp only [read] at h
        split at h
        · obtain ⟨taken, rfl, htaken⟩ := ih h
          refine ⟨arrived.take (count + 1) ++ taken, List.append_assoc .., ?_⟩
          rw [List.append_assoc, ← htaken, List.take_append_drop]
        · cases h
    | interrupted => exact ih h
    | wouldBlock | failed =>
      simp only [read] at h
      split at h <;> cases h
      exact ⟨[], (List.append_nil _).symm, rfl⟩

section
variable {T M : Type} [DecidableEq T] {encode : Encode} {tryDecode : TryDecode M}
  {s s' : State T M} {a : Action T} {maxPending : Nat}

/-- A step is one of the sender, a read or the end of the connection. -/
theorem step_cases (h : step encode tryDecode s a = some s') :
    (∃ b sender, Outbound.step s.sender b = some sender ∧ s' = s.setSender sender ∧
      ∀ t bytes, b = .send t bytes →
        (∃ payload, a = .send t payload ∧ bytes = encode payload) ∨ a = .sendRaw t bytes) ∨
    (∃ results, s.read tryDecode results = some s') ∨
      s' = { s with connected := false } := by
  cases a with
  | send t payload =>
    obtain ⟨sender, hs, rfl⟩ := Option.map_eq_some_iff.mp h
    refine .inl ⟨_, sender, hs, rfl, fun u bytes hb => ?_⟩
    cases hb
    exact .inl ⟨payload, rfl, rfl⟩
  | sendRaw t bytes =>
    obtain ⟨sender, hs, rfl⟩ := Option.map_eq_some_iff.mp h
    refine .inl ⟨_, sender, hs, rfl, fun u bytes hb => ?_⟩
    cases hb
    exact .inr rfl
  | call t | write results =>
    obtain ⟨sender, hs, rfl⟩ := Option.map_eq_some_iff.mp h
    exact .inl ⟨_, sender, hs, rfl, nofun⟩
  | dispose =>
    cases h
    exact .inl ⟨.dispose, _, rfl, rfl, nofun⟩
  | stop =>
    cases h
    exact .inl ⟨.stop, _, rfl, rfl, nofun⟩
  | read results => exact .inr (.inl ⟨results, h⟩)
  | disconnect =>
    cases h
    exact .inr (.inr rfl)

omit [DecidableEq T] in
/-- A read gives a chunk to `on_data`, if it has read anything. -/
theorem read_cases {results : List SocketRead} (h : s.read tryDecode results = some s') :
    ∃ entry scratch, s.entry = .ok entry ∧ s.wire = scratch ++ s'.wire ∧
      s'.received = s.received ++ scratch ∧ s'.sender = s.sender ∧
      s'.entry = if scratch.isEmpty then .ok entry else entry.onData tryDecode scratch := by
  unfold State.read at h
  split at h
  · split at h
    · rename_i entry scratch wire outcome hentry hread
      cases h
      obtain ⟨taken, htaken, hwire⟩ := read_takes hread
      rw [List.nil_append] at htaken
      subst htaken
      exact ⟨entry, scratch, hentry, hwire, rfl, rfl, rfl⟩
    · cases h
  · cases h

/-- The sending session does what one does that has no peer. -/
theorem sender_reach {ok : State T M → Action T → Prop}
    (h : Reach (machine T encode tryDecode maxPending) ok s) :
    Reach (Outbound.machine T maxPending) Machine.free s.sender := by
  refine h.map State.sender ?_ ?_
  · rintro _ rfl
    rfl
  · intro s a s' _ _ _ hs
    rcases step_cases hs with ⟨b, sender, hb, rfl, -⟩ | ⟨results, hr⟩ | rfl
    · exact .inr ⟨b, trivial, hb⟩
    · obtain ⟨_, _, _, _, _, hsender, _⟩ := read_cases hr
      exact .inl hsender
    · exact .inl rfl

/-- No byte is lost between the two sockets, and `on_data` was called with all that was read. -/
structure Carried (tryDecode : TryDecode M) (s : State T M) : Prop where
  bytes : s.received ++ s.wire = s.sender.out.accepted
  chunks : ∃ chunks, s.entry = (SessionEntry.new M).receive tryDecode chunks ∧
    chunks.flatten = s.received ∧ [] ∉ chunks

theorem carried_of_reach {ok : State T M → Action T → Prop}
    (h : Reach (machine T encode tryDecode maxPending) ok s) : Carried tryDecode s := by
  refine h.inv (Carried tryDecode) ?_ ?_
  · rintro _ rfl
    exact ⟨rfl, [], rfl, rfl, List.not_mem_nil⟩
  · intro s a s' hi _ hs
    rcases step_cases hs with ⟨b, sender, hb, rfl, -⟩ | ⟨results, hr⟩ | rfl
    · refine ⟨?_, hi.chunks⟩
      obtain ⟨more, hmore⟩ := accepted_prefix hb
      simp only [State.setSender]
      rw [← List.append_assoc, hi.bytes, ← hmore, List.drop_left]
    · obtain ⟨entry, scratch, hentry, hwire, hreceived, hsender, hentry'⟩ := read_cases hr
      obtain ⟨chunks, hchunks, hflat, hne⟩ := hi.chunks
      refine ⟨?_, ?_⟩
      · rw [hreceived, hsender, List.append_assoc, ← hwire, hi.bytes]
      · rw [hentry] at hchunks
        cases scratch with
        | nil => exact ⟨chunks, hentry'.trans hchunks, by rw [hreceived, hflat]; simp, hne⟩
        | cons byte scratch =>
          refine ⟨chunks ++ [byte :: scratch], ?_, by rw [hreceived, ← hflat]; simp, ?_⟩
          · rw [hentry', SessionEntry.receive, List.foldlM_append,
              ← SessionEntry.receive, ← hchunks, ok_bind, List.foldlM_cons]
            simp [List.foldlM_nil]
          · simp [hne]
    · exact ⟨hi.bytes, hi.chunks⟩

/-- The bytes that the peer has read are the first of those that were appended, in the order of the
lock. -/
theorem received_prefix {ok : State T M → Action T → Prop}
    (h : Reach (machine T encode tryDecode maxPending) ok s) :
    s.received <+: s.sender.appended.flatten := by
  have hbytes := (Outbound.intact_of_reach (sender_reach h)).bytes
  rw [Outbound.Output.bytes, ← (carried_of_reach h).bytes, List.append_assoc] at hbytes
  exact ⟨_, hbytes⟩

/-- What was appended was written by `encode`, when no send is raw. -/
theorem appended_eq_map {Accepts : Bytes → Prop} {ok : State T M → Action T → Prop}
    (hok : ∀ s a, ok s a → (∀ t payload, a = .send t payload → Accepts payload) ∧
      ∀ t bytes, a ≠ .sendRaw t bytes)
    (h : Reach (machine T encode tryDecode maxPending) ok s) :
    ∃ payloads : List Bytes,
      s.sender.appended = payloads.map encode ∧ ∀ p ∈ payloads, Accepts p := by
  have hwritten : Written (fun bytes => ∃ p, Accepts p ∧ encode p = bytes) s.sender := by
    refine h.inv (fun s => Written _ s.sender) ?_ ?_
    · rintro _ rfl
      exact ⟨fun _ _ hb => (nomatch hb), fun _ hb => (nomatch hb)⟩
    · intro s a s' hi ha hs
      rcases step_cases hs with ⟨b, sender, hb, rfl, hsend⟩ | ⟨results, hr⟩ | rfl
      · refine hi.step hb fun t bytes hbytes => ?_
        rcases hsend t bytes hbytes with ⟨payload, hpayload, rfl⟩ | hraw
        · exact ⟨payload, (hok s a ha).1 t payload hpayload, rfl⟩
        · exact absurd hraw ((hok s a ha).2 t bytes)
      · obtain ⟨_, _, _, _, _, hsender, _⟩ := read_cases hr
        rwa [hsender]
      · exact hi
  have hall := hwritten.appended
  generalize s.sender.appended = appended at hall
  induction appended with
  | nil => exact ⟨[], rfl, nofun⟩
  | cons bytes appended ih =>
    obtain ⟨p, hp, rfl⟩ := hall bytes List.mem_cons_self
    obtain ⟨payloads, rfl, hpayloads⟩ := ih fun b hb => hall b (List.mem_cons_of_mem _ hb)
    refine ⟨p :: payloads, rfl, ?_⟩
    simpa [hp] using hpayloads

end

/-! ## Length-prefixed frames -/

section
variable {T M : Type} [DecidableEq T] {decoder : LengthPrefixedDecoder M} {maxPending : Nat}
  {s : State T M}

/-- The sends are framed, of payloads that the decoder accepts. -/
def Framed (decoder : LengthPrefixedDecoder M) (_ : State T M) : Action T → Prop
  | .send _ payload => decoder.Accepts payload
  | .sendRaw .. => False
  | _ => True

omit [DecidableEq T] in
theorem framed_sends (s : State T M) (a : Action T) (ha : Framed decoder s a) :
    (∀ t payload, a = .send t payload → decoder.Accepts payload) ∧
      ∀ t bytes, a ≠ .sendRaw t bytes := by
  refine ⟨?_, ?_⟩
  · rintro t payload rfl
    exact ha
  · rintro t bytes rfl
    exact ha

omit [DecidableEq T] in
instance (s : State T M) : DecidablePred (Framed decoder s)
  | .send _ payload =>
    inferInstanceAs (Decidable (payload.length ≤ min decoder.maxFrameLen (2 ^ 32 - 1)))
  | .sendRaw .. => .isFalse id
  | .call _ | .write _ | .dispose | .stop | .read _ | .disconnect => .isTrue trivial

theorem framing_encodes (decoder : LengthPrefixedDecoder M) :
    (framing decoder.maxFrameLen).Encodes lengthPrefixedFrame decoder.Accepts :=
  fun _ h t => cutFrame_accepted h t

/-- Frames that have arrived in part are no corrupt stream. -/
theorem not_corruptStream_of_prefix {payloads : List Bytes} {stream : Bytes}
    (haccepts : ∀ p ∈ payloads, decoder.Accepts p)
    (h : stream <+: (payloads.map lengthPrefixedFrame).flatten) :
    ¬CorruptStream decoder.maxFrameLen stream := by
  obtain ⟨rest, hrest, -, hun⟩ := (framing_encodes decoder).all_of_part haccepts h
  cases rest with
  | nil =>
    rw [CorruptStream, unparsed, show ((framing _).all stream).2 = [] from hun]
    exact id
  | cons p rest =>
    have hp : p ∈ payloads := by
      rw [hrest]
      exact List.mem_append_right _ List.mem_cons_self
    exact not_corruptHeader_of_isPrefix (haccepts p hp) hun.1

/-- **Payloads arrive whole, once and in order.** In every run in which the sends are framed and
accepted, the peer has posted the messages of the first payloads that were appended, in the order
of the lock, and keeps the bytes that it has of the next one; it has not panicked and never asked
to close the session. Once everything that was appended has arrived, everything is posted. -/
theorem frames_delivered
    (h : Reach (machine T lengthPrefixedEncode decoder.tryDecode maxPending) (Framed decoder) s) :
    ∃ whole rest entry, s.sender.appended = (whole ++ rest).map lengthPrefixedFrame ∧
      s.entry = .ok entry ∧ entry.posted = whole.filterMap decoder.deserialize ∧
      s.received = (whole.map lengthPrefixedFrame).flatten ++ entry.inbound ∧
      Cutter.Unfinished lengthPrefixedFrame rest entry.inbound ∧ entry.session = .new ∧
      (s.wire = [] → s.sender.out.buffer.hasPending = false → rest = []) := by
  obtain ⟨payloads, happended, haccepts⟩ := appended_eq_map framed_sends h
  rw [lengthPrefixedEncode] at happended
  have hpre := received_prefix h
  rw [happended] at hpre
  obtain ⟨chunks, hentry, hflat, -⟩ := (carried_of_reach h).chunks
  obtain ⟨rest, hrest, hreceived, hun⟩ := (framing_encodes decoder).all_of_part haccepts hpre
  have hclean := not_corruptStream_of_prefix haccepts hpre
  rw [← hflat] at hclean
  have hafter : (decoder.entryAfter []).receive decoder.tryDecode chunks =
      .ok (decoder.entryAfter ([] ++ chunks.flatten)) := receive_entryAfter (by simpa using hclean)
  rw [entryAfter_nil, List.nil_append, hflat, ← hentry] at hafter
  refine ⟨_, rest, _, by rw [happended, hrest], hafter, rfl, hreceived, hun, rfl, ?_⟩
  intro hwire hpending
  apply hun.eq_nil
  -- all that was appended was received
  have hslice : s.sender.out.buffer.pendingSlice = [] :=
    List.drop_eq_nil_of_le (Nat.not_lt.mp (of_decide_eq_false hpending))
  have hall := (Outbound.intact_of_reach (sender_reach h)).bytes
  rw [Outbound.Output.bytes, ← (carried_of_reach h).bytes, hwire, hslice, List.append_nil,
    List.append_nil, happended, hrest, List.map_append, List.flatten_append] at hall
  exact ⟨[], by rw [List.append_nil]; exact List.append_cancel_left (hall.symm.trans hreceived)⟩

/-- Two threads send; the peer has the frame of the second and the header of the other. -/
def overtaken : State Bool Bytes :=
  ((machine Bool lengthPrefixedEncode (LengthPrefixedDecoder.mk some 9).tryDecode 64).run
    (new Bool Bytes 64)
    [.send true [1, 2], .send false [3], .call false, .call true, .call false, .call true,
      .call false, .call true, .write [.wrote 7, .interrupted, .wrote 3, .wouldBlock],
      .read [.read 2, .wouldBlock], .call false,
      .read [.read 4, .interrupted, .read 3, .wouldBlock]]).get rfl

theorem frames_delivered_overtaken :
    ∃ whole rest entry, overtaken.sender.appended = (whole ++ rest).map lengthPrefixedFrame ∧
      overtaken.entry = .ok entry ∧ entry.posted = whole.filterMap some ∧
      overtaken.received = (whole.map lengthPrefixedFrame).flatten ++ entry.inbound ∧
      Cutter.Unfinished lengthPrefixedFrame rest entry.inbound := by
  have hreach : Reach (machine Bool lengthPrefixedEncode _ 64)
      (Framed (LengthPrefixedDecoder.mk some 9)) overtaken :=
    .get rfl (by decide +kernel) rfl
  obtain ⟨whole, rest, entry, h₁, h₂, h₃, h₄, h₅, -⟩ := frames_delivered hreach
  exact ⟨whole, rest, entry, h₁, h₂, h₃, h₄, h₅⟩

example : overtaken.entry = .ok ⟨.new, [[3]], [0, 0, 0, 2]⟩ := rfl

end

/-! ## Raw bytes -/

theorem decodeLoop_raw_end (data : Bytes) {rounds : Nat} (posted : List Bytes)
    (h : 0 < rounds) :
    decodeLoop rawTryDecode data rounds data.length posted = .ok (data.length, posted, false) := by
  obtain ⟨rounds, rfl⟩ := Nat.exists_eq_succ_of_ne_zero (Nat.pos_iff_ne_zero.mp h)
  simp only [decodeLoop, sliceFrom, Nat.le_refl, if_true, List.drop_length, ok_bind, rawTryDecode,
    List.isEmpty_nil]
  rfl

theorem onData_raw {entry : SessionEntry Bytes} {data : Bytes} (hin : entry.inbound = [])
    (hdata : data ≠ []) :
    entry.onData rawTryDecode data = .ok { entry with posted := entry.posted ++ [data] } := by
  have hloop : decodeLoop rawTryDecode data (data.length + 1) 0 entry.posted =
      .ok (data.length, entry.posted ++ [data], false) := by
    have hfull : data.isEmpty = false := by simpa using hdata
    simp only [decodeLoop, sliceFrom, Nat.zero_le, if_true, List.drop_zero, ok_bind, rawTryDecode,
      hfull, Bool.false_eq_true, if_false, Nat.zero_add]
    exact decodeLoop_raw_end data _ (List.length_pos_iff.mpr hdata)
  rw [SessionEntry.onData, hin]
  simp only [List.isEmpty_nil, if_true, hloop, ok_bind, Bool.false_eq_true, if_false,
    Nat.lt_irrefl]
  rw [← hin]
  rfl

theorem receive_raw {entry : SessionEntry Bytes} {chunks : List Bytes} (hin : entry.inbound = [])
    (hne : [] ∉ chunks) :
    entry.receive rawTryDecode chunks = .ok { entry with posted := entry.posted ++ chunks } := by
  induction chunks generalizing entry with
  | nil =>
    rw [List.append_nil]
    rfl
  | cons chunk chunks ih =>
    obtain ⟨hchunk, hne⟩ := List.ne_and_not_mem_of_not_mem_cons hne
    rw [SessionEntry.receive, List.foldlM_cons, onData_raw hin hchunk.symm, ok_bind,
      ← SessionEntry.receive]
    have hrest := @ih { entry with posted := entry.posted ++ [chunk] } hin hne
    rw [List.append_assoc] at hrest
    exact hrest

/-- **The raw codec carries bytes.** In every run the peer has posted messages that are not empty
and that one after the other are the bytes it has read, and these are the first bytes of the
payloads that were appended, in the order of the lock; it keeps nothing back, has not panicked and
never asked to close the session. -/
theorem bytes_delivered {T : Type} [DecidableEq T] {maxPending : Nat} {s : State T Bytes}
    (h : Reach (machine T rawEncode rawTryDecode maxPending) Machine.free s) :
    ∃ entry, s.entry = .ok entry ∧ [] ∉ entry.posted ∧ entry.posted.flatten = s.received ∧
      s.received <+: s.sender.appended.flatten ∧ entry.inbound = [] ∧ entry.session = .new := by
  obtain ⟨chunks, hentry, hflat, hne⟩ := (carried_of_reach h).chunks
  rw [receive_raw rfl hne] at hentry
  exact ⟨_, hentry, hne, hflat, received_prefix h, rfl, rfl⟩

/-- A send and a raw send that the peer reads in two pieces, before the connection fails. -/
def brokenOff : State Unit Bytes :=
  ((machine Unit rawEncode rawTryDecode 8).run (new Unit Bytes 8)
    [.send () [1, 2, 3], .call (), .call (), .call (), .call (), .write [.wrote 2, .wouldBlock],
      .read [.read 1, .wouldBlock], .sendRaw () [4], .call (), .call (), .call (),
      .write [.wrote 2], .read [.read 2, .failed]]).get rfl

theorem bytes_delivered_brokenOff :
    ∃ entry, brokenOff.entry = .ok entry ∧ [] ∉ entry.posted ∧
      entry.posted.flatten = [1, 2, 3] ∧ entry.inbound = [] := by
  obtain ⟨entry, h₁, h₂, h₃, -, h₅, -⟩ := bytes_delivered (s := brokenOff) (.get_free rfl rfl)
  exact ⟨entry, h₁, h₂, h₃, h₅⟩

end DignusActor.Link
