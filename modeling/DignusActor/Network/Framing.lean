import DignusActor.Network.SessionActorHost
import DignusActor.Stream.Cutter

/-! # Length-prefixed frames

The meaning of a byte stream as a sequence of frames: four bytes with the length of the payload, the
highest first, then the payload. `framing` cuts one frame off the front of a buffer, so
`(framing max).all s` has the payloads of the frames of `s` and what is left of it. `tryDecode_eq`,
`decodeLoop_eq` and the equations of `onData` say what the code does in these terms. -/

namespace DignusActor.Network

/-- Four bytes of a length up to `max`, then as many bytes of payload. -/
def cutFrame (max : Nat) : Bytes → Option (Bytes × Bytes)
  | b₀ :: b₁ :: b₂ :: b₃ :: rest =>
    let payloadLen := fromBeBytes b₀ b₁ b₂ b₃
    if payloadLen ≤ max ∧ payloadLen ≤ rest.length then
      some (rest.take payloadLen, rest.drop payloadLen)
    else none
  | _ => none

/-- The buffer begins with a header that announces more than `max` bytes. -/
def CorruptHeader (max : Nat) : Bytes → Prop
  | b₀ :: b₁ :: b₂ :: b₃ :: _ => max < fromBeBytes b₀ b₁ b₂ b₃
  | _ => False

instance (max : Nat) : DecidablePred (CorruptHeader max)
  | b₀ :: b₁ :: b₂ :: b₃ :: _ => inferInstanceAs (Decidable (max < fromBeBytes b₀ b₁ b₂ b₃))
  | [] | [_] | [_, _] | [_, _, _] => .isFalse id

theorem fromBeBytes_lt (b₀ b₁ b₂ b₃ : UInt8) : fromBeBytes b₀ b₁ b₂ b₃ < 2 ^ 32 := by
  have h₀ := b₀.toNat_lt
  have h₁ := b₁.toNat_lt
  have h₂ := b₂.toNat_lt
  have h₃ := b₃.toNat_lt
  unfold fromBeBytes
  omega

section
variable {max : Nat} {s p r : Bytes}

/-- What a cut says about the buffer. -/
theorem cutFrame_eq_some (h : cutFrame max s = some (p, r)) :
    (p.length ≤ max ∧ p.length < 2 ^ 32) ∧
      ∃ header : Bytes, header.length = lengthPrefixSize ∧ s = header ++ p ++ r := by
  match s, h with
  | b₀ :: b₁ :: b₂ :: b₃ :: rest, h =>
    simp only [cutFrame] at h
    split at h
    · rename_i hle
      have hlt := fromBeBytes_lt b₀ b₁ b₂ b₃
      cases h
      have hlen := Nat.le_of_eq (List.length_take_of_le hle.2)
      refine ⟨⟨Nat.le_trans hlen hle.1, Nat.lt_of_le_of_lt hlen hlt⟩, [b₀, b₁, b₂, b₃], rfl, ?_⟩
      rw [List.append_assoc, List.take_append_drop]
      rfl
    · cases h

theorem cutFrame_shrinks (h : cutFrame max s = some (p, r)) : r.length < s.length := by
  obtain ⟨_, header, hlen, rfl⟩ := cutFrame_eq_some h
  simp only [List.length_append, hlen, lengthPrefixSize]
  omega

theorem cutFrame_stable (t : Bytes) (h : cutFrame max s = some (p, r)) :
    cutFrame max (s ++ t) = some (p, r ++ t) := by
  match s, h with
  | b₀ :: b₁ :: b₂ :: b₃ :: rest, h =>
    simp only [cutFrame] at h
    split at h
    · rename_i hle
      cases h
      have hle' : fromBeBytes b₀ b₁ b₂ b₃ ≤ (rest ++ t).length := by
        rw [List.length_append]
        omega
      simp only [cutFrame, List.cons_append]
      rw [if_pos ⟨hle.1, hle'⟩, List.take_append_of_le_length hle.2,
        List.drop_append_of_le_length hle.2]
    · cases h

/-- The four bytes of a length below `2 ^ 32`. -/
theorem cutFrame_lengthPrefixedFrame (hmax : p.length ≤ max) (hlt : p.length < 2 ^ 32) (t : Bytes) :
    cutFrame max (lengthPrefixedFrame p ++ t) = some (p, t) := by
  have hlen : fromBeBytes (.ofNat (p.length / 2 ^ 24)) (.ofNat (p.length / 2 ^ 16))
      (.ofNat (p.length / 2 ^ 8)) (.ofNat p.length) = p.length := by
    simp only [fromBeBytes, UInt8.toNat_ofNat']
    omega
  rw [lengthPrefixedFrame, Nat.mod_eq_of_lt hlt, toBeBytes, List.append_assoc]
  simp only [List.cons_append, List.nil_append, cutFrame, hlen]
  rw [if_pos ⟨hmax, by simp⟩, List.take_left, List.drop_left]

end

def framing (max : Nat) : Cutter UInt8 Bytes where
  cut := cutFrame max
  shrinks := cutFrame_shrinks
  stable := cutFrame_stable

/-- What is left of a stream after its frames. -/
def unparsed (max : Nat) (s : Bytes) : Bytes := ((framing max).all s).2

/-- A frame header in the stream announces more than `max` bytes. -/
def CorruptStream (max : Nat) (s : Bytes) : Prop := CorruptHeader max (unparsed max s)

instance (max : Nat) (s : Bytes) : Decidable (CorruptStream max s) :=
  inferInstanceAs (Decidable (CorruptHeader max (unparsed max s)))

/-- The messages of the frames of a stream; a payload that is not deserialized is skipped. -/
def LengthPrefixedDecoder.messages {M : Type} (decoder : LengthPrefixedDecoder M) (s : Bytes) :
    List M :=
  ((framing decoder.maxFrameLen).all s).1.filterMap decoder.deserialize

section
variable {max : Nat} {s : Bytes}

theorem CorruptHeader.append (h : CorruptHeader max s) (t : Bytes) :
    CorruptHeader max (s ++ t) := by
  match s, h with
  | _ :: _ :: _ :: _ :: _, h => exact h

theorem CorruptHeader.cutFrame_eq_none (h : CorruptHeader max s) : cutFrame max s = none := by
  match s, h with
  | b₀ :: b₁ :: b₂ :: b₃ :: rest, h =>
    have hlt : max < fromBeBytes b₀ b₁ b₂ b₃ := h
    simp only [cutFrame]
    rw [if_neg (by omega)]

theorem CorruptHeader.ne_nil (h : CorruptHeader max s) : s ≠ [] := by
  rintro rfl
  exact h

/-- A buffer that is neither a frame nor corrupt is shorter than the longest frame. -/
theorem length_lt_of_cutFrame (h : cutFrame max s = none) (hc : ¬CorruptHeader max s) :
    s.length < lengthPrefixSize + max := by
  match s, h, hc with
  | [], _, _ | [_], _, _ | [_, _], _, _ | [_, _, _], _, _ =>
    simp only [lengthPrefixSize, List.length_cons, List.length_nil]
    omega
  | b₀ :: b₁ :: b₂ :: b₃ :: rest, h, hc =>
    have hle : ¬max < fromBeBytes b₀ b₁ b₂ b₃ := hc
    simp only [cutFrame] at h
    split at h
    · cases h
    · simp only [lengthPrefixSize, List.length_cons]
      omega

theorem unparsed_append (s t : Bytes) :
    unparsed max (s ++ t) = unparsed max (unparsed max s ++ t) := by
  unfold unparsed
  rw [Cutter.all_append]

/-- A corrupt header stays where it is. -/
theorem CorruptHeader.unparsed_eq (h : CorruptHeader max s) : unparsed max s = s := by
  unfold unparsed
  rw [Cutter.all_of_none (show (framing max).cut s = none from h.cutFrame_eq_none)]

theorem CorruptStream.append (h : CorruptStream max s) (t : Bytes) :
    CorruptStream max (s ++ t) := by
  have ht : CorruptHeader max (unparsed max s ++ t) := CorruptHeader.append h t
  rw [CorruptStream, unparsed_append, ht.unparsed_eq]
  exact ht

theorem length_unparsed_lt (h : ¬CorruptStream max s) :
    (unparsed max s).length < lengthPrefixSize + max :=
  length_lt_of_cutFrame (show (framing max).cut (unparsed max s) = none from Cutter.cut_rest s) h

end

section
variable {M : Type} {decoder : LengthPrefixedDecoder M}

theorem LengthPrefixedDecoder.messages_append (s t : Bytes) :
    decoder.messages (s ++ t) =
      decoder.messages s ++ decoder.messages (unparsed decoder.maxFrameLen s ++ t) := by
  rw [messages, Cutter.all_append, List.filterMap_append]
  rfl

theorem LengthPrefixedDecoder.messages_of_cut {s p r : Bytes}
    (h : cutFrame decoder.maxFrameLen s = some (p, r)) :
    decoder.messages s = (decoder.deserialize p).toList ++ decoder.messages r := by
  rw [messages, Cutter.all_of_some (show (framing _).cut s = _ from h), List.filterMap_cons]
  cases decoder.deserialize p <;> rfl

theorem LengthPrefixedDecoder.messages_of_none {s : Bytes}
    (h : cutFrame decoder.maxFrameLen s = none) : decoder.messages s = [] := by
  rw [messages, Cutter.all_of_none (show (framing _).cut s = _ from h)]
  rfl

end

/-! ## What the code does -/

section
variable {M : Type} {decoder : LengthPrefixedDecoder M}

/-- `try_decode` returns for every buffer: it cuts off a frame, or says why it cannot. -/
theorem tryDecode_eq (buffer : Bytes) :
    decoder.tryDecode buffer = .ok (match cutFrame decoder.maxFrameLen buffer with
      | some (payload, _) =>
        .frame (lengthPrefixSize + payload.length) (decoder.deserialize payload)
      | none => if CorruptHeader decoder.maxFrameLen buffer then .corrupt else .incomplete) := by
  match buffer with
  | [] | [_] | [_, _] | [_, _, _] => rfl
  | b₀ :: b₁ :: b₂ :: b₃ :: rest =>
    have hlong : ¬(b₀ :: b₁ :: b₂ :: b₃ :: rest).length < lengthPrefixSize := by
      simp [lengthPrefixSize]
    rw [LengthPrefixedDecoder.tryDecode, if_neg hlong]
    simp only [index, List.getElem?_cons_zero, List.getElem?_cons_succ, cutFrame, CorruptHeader,
      ok_bind]
    by_cases hmax : decoder.maxFrameLen < fromBeBytes b₀ b₁ b₂ b₃
    · rw [if_pos hmax, if_neg (by omega)]
      exact congrArg Except.ok (if_pos hmax).symm
    · rw [if_neg hmax]
      by_cases hrest : fromBeBytes b₀ b₁ b₂ b₃ ≤ rest.length
      · have hle : lengthPrefixSize + fromBeBytes b₀ b₁ b₂ b₃ ≤
            (b₀ :: b₁ :: b₂ :: b₃ :: rest).length := by
          simp only [lengthPrefixSize, List.length_cons]
          omega
        rw [if_neg (by omega), if_pos ⟨by omega, hrest⟩, slice, if_pos ⟨by omega, hle⟩]
        simp only [List.length_take_of_le hrest, ok_bind]
        rw [lengthPrefixSize, Nat.add_comm]
        rfl
      · have hgt : (b₀ :: b₁ :: b₂ :: b₃ :: rest).length <
            lengthPrefixSize + fromBeBytes b₀ b₁ b₂ b₃ := by
          simp only [lengthPrefixSize, List.length_cons]
          omega
        rw [if_pos hgt, if_neg (by omega)]
        exact congrArg Except.ok (if_neg hmax).symm

/-- The loop of `on_data` returns for every buffer: it posts the messages of the frames of the
buffer and stops at what is left. -/
theorem decodeLoop_eq (decoder : LengthPrefixedDecoder M) {buffer : Bytes} {rounds offset : Nat}
    (posted : List M)
    (hoff : offset ≤ buffer.length) (hrounds : buffer.length < rounds + offset) :
    ∃ offset', decodeLoop decoder.tryDecode buffer rounds offset posted =
        .ok (offset', posted ++ decoder.messages (buffer.drop offset),
          decide (CorruptStream decoder.maxFrameLen (buffer.drop offset))) ∧
      offset' ≤ buffer.length ∧
      buffer.drop offset' = unparsed decoder.maxFrameLen (buffer.drop offset) := by
  induction rounds generalizing offset posted with
  | zero => omega
  | succ rounds ih =>
    rw [decodeLoop, sliceFrom, if_pos hoff]
    simp only [ok_bind, tryDecode_eq]
    cases hcut : cutFrame decoder.maxFrameLen (buffer.drop offset) with
    | none =>
      have hunp : unparsed decoder.maxFrameLen (buffer.drop offset) = buffer.drop offset := by
        rw [unparsed, Cutter.all_of_none (show (framing _).cut _ = _ from hcut)]
      have hcor : CorruptStream decoder.maxFrameLen (buffer.drop offset) ↔
          CorruptHeader decoder.maxFrameLen (buffer.drop offset) := by
        rw [CorruptStream, hunp]
      refine ⟨offset, ?_, hoff, hunp.symm⟩
      rw [LengthPrefixedDecoder.messages_of_none hcut, List.append_nil]
      by_cases hc : CorruptHeader decoder.maxFrameLen (buffer.drop offset) <;>
        simp only [hc, hcor, if_true, if_false, decide_true, decide_false] <;> rfl
    | some x =>
      obtain ⟨p, r⟩ := x
      obtain ⟨_, header, hheader, hbuf⟩ := cutFrame_eq_some hcut
      have hlen := congrArg List.length hbuf
      simp only [List.length_drop, List.length_append, hheader] at hlen
      have hdrop : buffer.drop (offset + (lengthPrefixSize + p.length)) = r := by
        rw [← List.drop_drop, hbuf, List.drop_left' (by simp [hheader])]
      obtain ⟨offset', hloop, hle, hrest⟩ :=
        ih (posted ++ (decoder.deserialize p).toList)
          (by unfold lengthPrefixSize at *; omega : offset + (lengthPrefixSize + p.length) ≤ _)
          (by unfold lengthPrefixSize at *; omega)
      rw [hdrop] at hloop hrest
      have hunp : unparsed decoder.maxFrameLen (buffer.drop offset) =
          unparsed decoder.maxFrameLen r := by
        rw [unparsed, Cutter.all_of_some (show (framing _).cut _ = _ from hcut)]
        rfl
      have hcor : CorruptStream decoder.maxFrameLen (buffer.drop offset) ↔
          CorruptStream decoder.maxFrameLen r := by
        rw [CorruptStream, CorruptStream, hunp]
      refine ⟨offset', ?_, hle, hrest.trans hunp.symm⟩
      rw [LengthPrefixedDecoder.messages_of_cut hcut, ← List.append_assoc,
        decide_eq_decide.mpr hcor]
      exact hloop

/-- `on_data` on the buffered path. -/
theorem onData_buffered {entry : SessionEntry M} (data : Bytes) (h : entry.inbound ≠ []) :
    entry.onData decoder.tryDecode data = .ok
      { session := if CorruptStream decoder.maxFrameLen (entry.inbound ++ data) then
          entry.session.close else entry.session
        posted := entry.posted ++ decoder.messages (entry.inbound ++ data)
        inbound := unparsed decoder.maxFrameLen (entry.inbound ++ data) } := by
  obtain ⟨offset, hloop, _, hrest⟩ := decodeLoop_eq decoder entry.posted
    (Nat.zero_le (entry.inbound ++ data).length) (Nat.lt_succ_self _)
  rw [List.drop_zero] at hloop hrest
  have hinbound : (if offset > 0 then (entry.inbound ++ data).drop offset
      else entry.inbound ++ data) = unparsed decoder.maxFrameLen (entry.inbound ++ data) := by
    split
    · exact hrest
    · rw [← hrest, show offset = 0 by omega, List.drop_zero]
  rw [SessionEntry.onData, if_neg (by simpa using h)]
  simp only [hloop, ok_bind, hinbound, decide_eq_true_eq]
  rfl

/-- `on_data` on the path for an empty buffer: what is left after a corrupt header is dropped. -/
theorem onData_empty {entry : SessionEntry M} (data : Bytes) (h : entry.inbound = []) :
    entry.onData decoder.tryDecode data = .ok
      { session := if CorruptStream decoder.maxFrameLen data then
          entry.session.close else entry.session
        posted := entry.posted ++ decoder.messages data
        inbound := if CorruptStream decoder.maxFrameLen data then []
          else unparsed decoder.maxFrameLen data } := by
  obtain ⟨offset, hloop, hle, hrest⟩ := decodeLoop_eq decoder entry.posted
    (Nat.zero_le data.length) (Nat.lt_succ_self _)
  rw [List.drop_zero] at hloop hrest
  rw [SessionEntry.onData, if_pos (by simp [h]), hloop, ok_bind]
  by_cases hc : CorruptStream decoder.maxFrameLen data
  · simp only [hc, decide_true, if_true, h]
    rfl
  · simp only [hc, decide_false, Bool.false_eq_true, if_false]
    by_cases hlt : offset < data.length
    · rw [if_pos hlt, sliceFrom, if_pos hle, ok_bind, h, List.nil_append, hrest]
      rfl
    · rw [if_neg hlt, ← hrest, List.drop_eq_nil_of_le (by omega), h]
      rfl

/-- As long as no header is corrupt, both paths do the same. -/
theorem onData_eq {entry : SessionEntry M} (data : Bytes)
    (h : ¬CorruptStream decoder.maxFrameLen (entry.inbound ++ data)) :
    entry.onData decoder.tryDecode data = .ok
      { session := entry.session
        posted := entry.posted ++ decoder.messages (entry.inbound ++ data)
        inbound := unparsed decoder.maxFrameLen (entry.inbound ++ data) } := by
  by_cases hin : entry.inbound = []
  · rw [hin, List.nil_append] at h ⊢
    rw [onData_empty data hin, if_neg h, if_neg h]
  · rw [onData_buffered data hin, if_neg h]

end

end DignusActor.Network
