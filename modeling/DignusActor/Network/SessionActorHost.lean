import Mathlib

/-! # The host of the session actors

The model of `SessionActorHost` (`session_actor_host.rs`) with the decoder of length-prefixed frames
(`length_prefixed_decoder.rs`) and the part of `Session` that a decoder reaches (`session.rs`). A
call that would panic or never return is an error (`Fault`). What an actor is sent is recorded in
`SessionEntry.posted`. -/

namespace DignusActor.Network

abbrev Bytes := List UInt8

/-- What keeps a call from returning: an index or a range outside its slice, or an endless loop. -/
inductive Fault
  | outOfRange
  | endlessLoop
  deriving DecidableEq, Repr

@[simp] theorem ok_bind {α β : Type} (x : α) (f : α → Except Fault β) :
    ((.ok x : Except Fault α) >>= f) = f x := rfl

/-- `buffer[index]`. -/
def index (buffer : Bytes) (i : Nat) : Except Fault UInt8 :=
  match buffer[i]? with
  | some byte => .ok byte
  | none => .error .outOfRange

/-- `&buffer[start..]`. -/
def sliceFrom (buffer : Bytes) (start : Nat) : Except Fault Bytes :=
  if start ≤ buffer.length then .ok (buffer.drop start) else .error .outOfRange

/-- `&buffer[start..stop]`. -/
def slice (buffer : Bytes) (start stop : Nat) : Except Fault Bytes :=
  if start ≤ stop ∧ stop ≤ buffer.length then .ok ((buffer.take stop).drop start)
  else .error .outOfRange

/-! ## `codec.rs` and `length_prefixed_decoder.rs` -/

inductive DecodeResult (M : Type)
  | incomplete
  | frame (consumed : Nat) (message : Option M)
  | corrupt

/-- `MessageDecoder::try_decode`. -/
abbrev TryDecode (M : Type) := Bytes → Except Fault (DecodeResult M)

/-- `u32::from_be_bytes`. -/
def fromBeBytes (b₀ b₁ b₂ b₃ : UInt8) : Nat :=
  2 ^ 24 * b₀.toNat + 2 ^ 16 * b₁.toNat + 2 ^ 8 * b₂.toNat + b₃.toNat

/-- `u32::to_be_bytes`. -/
def toBeBytes (n : Nat) : Bytes :=
  [.ofNat (n / 2 ^ 24), .ofNat (n / 2 ^ 16), .ofNat (n / 2 ^ 8), .ofNat n]

/-- `LENGTH_PREFIX_SIZE`. -/
def lengthPrefixSize : Nat := 4

/-- `length_prefixed_frame`; `payload.len() as u32` wraps. -/
def lengthPrefixedFrame (payload : Bytes) : Bytes :=
  toBeBytes (payload.length % 2 ^ 32) ++ payload

structure LengthPrefixedDecoder (M : Type) where
  deserialize : Bytes → Option M
  maxFrameLen : Nat

/-- `LengthPrefixedDecoder::try_decode`. -/
def LengthPrefixedDecoder.tryDecode {M : Type} (decoder : LengthPrefixedDecoder M) :
    TryDecode M := fun buffer =>
  if buffer.length < lengthPrefixSize then .ok .incomplete
  else do
    let payloadLen :=
      fromBeBytes (← index buffer 0) (← index buffer 1) (← index buffer 2) (← index buffer 3)
    if payloadLen > decoder.maxFrameLen then return .corrupt
    let total := lengthPrefixSize + payloadLen
    if buffer.length < total then return .incomplete
    let message := decoder.deserialize (← slice buffer lengthPrefixSize total)
    return .frame total message

/-! ## `session.rs` -/

structure Session where
  disposed : Bool
  closeRequested : Bool
  /-- How often the session's token was pushed to `pending_closes`. -/
  pendingCloses : Nat
  deriving DecidableEq

def Session.new : Session := ⟨false, false, 0⟩

/-- `Session::close`. -/
def Session.close (session : Session) : Session :=
  if session.disposed then session
  else if session.closeRequested then session
  else { session with closeRequested := true, pendingCloses := session.pendingCloses + 1 }

/-! ## `session_actor_host.rs` -/

structure SessionEntry (M : Type) where
  session : Session
  /-- The messages that `network_session.post` was called with. -/
  posted : List M
  inbound : Bytes

def SessionEntry.new (M : Type) : SessionEntry M := ⟨.new, [], []⟩

section
variable {M : Type} (tryDecode : TryDecode M)

/-- The loop of `on_data`: the offset it ends at, the messages it posts and whether it met a corrupt
frame. -/
def decodeLoop (buffer : Bytes) :
    Nat → Nat → List M → Except Fault (Nat × List M × Bool)
  | 0, _, _ => .error .endlessLoop
  | rounds + 1, offset, posted => do
    match ← tryDecode (← sliceFrom buffer offset) with
    | .incomplete => return (offset, posted, false)
    | .corrupt => return (offset, posted, true)
    | .frame consumed message =>
      decodeLoop buffer rounds (offset + consumed) (posted ++ message.toList)

/-- `on_data` for the entry of the session. A loop that is still running after one round more than
the buffer has bytes has met a frame that consumes nothing, and runs for ever. -/
def SessionEntry.onData (entry : SessionEntry M) (data : Bytes) : Except Fault (SessionEntry M) :=
  if entry.inbound.isEmpty then do
    let (offset, posted, corrupt) ← decodeLoop tryDecode data (data.length + 1) 0 entry.posted
    if corrupt then return { entry with posted, session := entry.session.close }
    else if offset < data.length then
      return { entry with posted, inbound := entry.inbound ++ (← sliceFrom data offset) }
    else return { entry with posted }
  else do
    let inbound := entry.inbound ++ data
    let (offset, posted, corrupt) ← decodeLoop tryDecode inbound (inbound.length + 1) 0 entry.posted
    let inbound := if offset > 0 then inbound.drop offset else inbound
    let session := if corrupt then entry.session.close else entry.session
    return { session, posted, inbound }

/-- `SessionActorHost::sessions`. -/
abbrev Sessions (M : Type) := Nat → Option (SessionEntry M)

/-- The calls that a reactor makes to its host. -/
inductive HostCall
  | onAccepted (id : Nat)
  | onData (id : Nat) (data : Bytes)
  | onDisconnected (id : Nat)
  deriving DecidableEq

def Sessions.call (sessions : Sessions M) : HostCall → Except Fault (Sessions M)
  | .onAccepted id => .ok (Function.update sessions id (some (.new M)))
  | .onData id data =>
    match sessions id with
    | none => .ok sessions
    | some entry => do return Function.update sessions id (some (← entry.onData tryDecode data))
  | .onDisconnected id => .ok (Function.update sessions id none)

/-- A host that has no session yet, and the calls made to it. -/
def hostRun (calls : List HostCall) : Except Fault (Sessions M) :=
  calls.foldlM (Sessions.call tryDecode) fun _ => none

/-- The chunks that `on_data` is called with for one session. -/
def SessionEntry.receive (entry : SessionEntry M) (chunks : List Bytes) :
    Except Fault (SessionEntry M) :=
  chunks.foldlM (SessionEntry.onData tryDecode) entry

end

end DignusActor.Network
