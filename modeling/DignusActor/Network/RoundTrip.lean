import DignusActor.Network.Framing

/-! # The codec round trip

`length_prefixed_frame` and `try_decode` are written independently of each other. `decodeFrames` is
the decoder applied call after call to one buffer, each call to what the one before has left. On the
frames of a list of payloads it gives the payloads back, each as long as it can be encoded and is
accepted; what is shorter than a frame is incomplete; and a buffer that a frame was decoded from
begins with the encoding of its payload. -/

namespace DignusActor.Network

/-- Calls of `try_decode`, each on what the last one has left of the buffer: what each consumed and
returned, and what is left after the last. A call that returns no frame ends it. -/
def decodeFrames {M : Type} (tryDecode : TryDecode M) :
    Nat → Bytes → Except Fault (List (Nat × Option M) × Bytes)
  | 0, buffer => .ok ([], buffer)
  | calls + 1, buffer => do
    match ← tryDecode buffer with
    | .frame consumed message =>
      let (frames, rest) ← decodeFrames tryDecode calls (← sliceFrom buffer consumed)
      return ((consumed, message) :: frames, rest)
    | .incomplete | .corrupt => return ([], buffer)

/-- The payload can be encoded, and the decoder accepts its frame. -/
def LengthPrefixedDecoder.Accepts {M : Type} (decoder : LengthPrefixedDecoder M)
    (payload : Bytes) : Prop :=
  payload.length ≤ min decoder.maxFrameLen (2 ^ 32 - 1)

section
variable {M : Type} {decoder : LengthPrefixedDecoder M} {payload buffer : Bytes}

theorem length_lengthPrefixedFrame (payload : Bytes) :
    (lengthPrefixedFrame payload).length = lengthPrefixSize + payload.length := by
  rw [lengthPrefixedFrame, List.length_append]
  rfl

theorem cutFrame_accepted (h : decoder.Accepts payload) (t : Bytes) :
    cutFrame decoder.maxFrameLen (lengthPrefixedFrame payload ++ t) = some (payload, t) := by
  unfold LengthPrefixedDecoder.Accepts at h
  exact cutFrame_lengthPrefixedFrame (by omega) (by omega) t

theorem tryDecode_accepted (h : decoder.Accepts payload) (t : Bytes) :
    decoder.tryDecode (lengthPrefixedFrame payload ++ t) =
      .ok (.frame (lengthPrefixedFrame payload).length (decoder.deserialize payload)) := by
  rw [tryDecode_eq, cutFrame_accepted h, length_lengthPrefixedFrame]

/-- The frames of a list of payloads are decoded one by one. -/
theorem decodeFrames_accepted {payloads : List Bytes} (h : ∀ p ∈ payloads, decoder.Accepts p)
    (t : Bytes) :
    decodeFrames decoder.tryDecode payloads.length
        ((payloads.map lengthPrefixedFrame).flatten ++ t) =
      .ok (payloads.map fun p => ((lengthPrefixedFrame p).length, decoder.deserialize p), t) := by
  induction payloads with
  | nil => rfl
  | cons p payloads ih =>
    have hp := h p List.mem_cons_self
    have ih := ih fun q hq => h q (List.mem_cons_of_mem p hq)
    simp only [List.map_cons, List.flatten_cons, List.append_assoc, List.length_cons, decodeFrames]
    rw [tryDecode_accepted hp]
    simp only [ok_bind]
    rw [sliceFrom, if_pos (by simp), List.drop_left, ok_bind, ih]
    rfl

/-- A buffer that is cut off before the end of its frame has no frame. -/
theorem cutFrame_of_prefix (h : decoder.Accepts payload)
    (hpre : buffer <+: lengthPrefixedFrame payload) (hne : buffer ≠ lengthPrefixedFrame payload) :
    cutFrame decoder.maxFrameLen buffer = none := by
  obtain ⟨rest, hrest⟩ := hpre
  cases hcut : cutFrame decoder.maxFrameLen buffer with
  | none => rfl
  | some x =>
    -- the frame would be the whole of the longer buffer
    obtain ⟨p, r⟩ := x
    have hlong := cutFrame_stable rest hcut
    rw [hrest, ← List.append_nil (lengthPrefixedFrame payload), cutFrame_accepted h] at hlong
    simp only [Option.some.injEq, Prod.mk.injEq, List.nil_eq_append_iff] at hlong
    obtain ⟨-, -, rfl⟩ := hlong
    exact absurd (by simpa using hrest) hne

theorem not_corruptHeader_of_isPrefix (h : decoder.Accepts payload)
    (hpre : buffer <+: lengthPrefixedFrame payload) :
    ¬CorruptHeader decoder.maxFrameLen buffer := by
  intro hc
  obtain ⟨rest, hrest⟩ := hpre
  have hnone := (hc.append rest).cutFrame_eq_none
  rw [hrest, ← List.append_nil (lengthPrefixedFrame payload), cutFrame_accepted h] at hnone
  cases hnone

theorem tryDecode_of_prefix (h : decoder.Accepts payload)
    (hpre : buffer <+: lengthPrefixedFrame payload) (hne : buffer ≠ lengthPrefixedFrame payload) :
    decoder.tryDecode buffer = .ok .incomplete := by
  rw [tryDecode_eq, cutFrame_of_prefix h hpre hne]
  simp only [if_neg (not_corruptHeader_of_isPrefix h hpre)]

/-- Four bytes are the encoding of the number that they are read as. -/
theorem toBeBytes_fromBeBytes (b₀ b₁ b₂ b₃ : UInt8) :
    toBeBytes (fromBeBytes b₀ b₁ b₂ b₃) = [b₀, b₁, b₂, b₃] := by
  have h₀ := b₀.toNat_lt
  have h₁ := b₁.toNat_lt
  have h₂ := b₂.toNat_lt
  have h₃ := b₃.toNat_lt
  simp only [toBeBytes, List.cons.injEq, and_true]
  refine ⟨?_, ?_, ?_, ?_⟩ <;> apply UInt8.toNat_inj.mp <;>
    simp only [fromBeBytes, UInt8.toNat_ofNat'] <;> omega

/-- A buffer that a frame is cut from begins with the encoding of the payload. -/
theorem eq_lengthPrefixedFrame_of_cut {max : Nat} {r : Bytes}
    (h : cutFrame max buffer = some (payload, r)) : buffer = lengthPrefixedFrame payload ++ r := by
  match buffer, h with
  | b₀ :: b₁ :: b₂ :: b₃ :: rest, h =>
    simp only [cutFrame] at h
    split at h
    · rename_i hle
      cases h
      have hlt := fromBeBytes_lt b₀ b₁ b₂ b₃
      rw [lengthPrefixedFrame, List.length_take_of_le hle.2, Nat.mod_eq_of_lt hlt,
        toBeBytes_fromBeBytes, List.append_assoc, List.take_append_drop]
      rfl
    · cases h

/-- A frame that is decoded is what `length_prefixed_frame` makes of the slice that `deserialize` is
given, whatever comes after it. -/
theorem tryDecode_frame {consumed : Nat} {message : Option M}
    (h : decoder.tryDecode buffer = .ok (.frame consumed message)) :
    lengthPrefixSize ≤ consumed ∧ consumed ≤ buffer.length ∧
      ∃ payload, slice buffer lengthPrefixSize consumed = .ok payload ∧
        buffer.take consumed = lengthPrefixedFrame payload ∧
        message = decoder.deserialize payload ∧
        ∀ more, decoder.tryDecode (buffer ++ more) = .ok (.frame consumed message) := by
  rw [tryDecode_eq] at h
  cases hcut : cutFrame decoder.maxFrameLen buffer with
  | none =>
    rw [hcut] at h
    by_cases hc : CorruptHeader decoder.maxFrameLen buffer <;> simp [hc] at h
  | some x =>
    obtain ⟨payload, r⟩ := x
    rw [hcut] at h
    simp only [Except.ok.injEq, DecodeResult.frame.injEq] at h
    obtain ⟨rfl, rfl⟩ := h
    have hbuf := eq_lengthPrefixedFrame_of_cut hcut
    have hlen := length_lengthPrefixedFrame payload
    have htake : buffer.take (lengthPrefixSize + payload.length) = lengthPrefixedFrame payload := by
      rw [hbuf, List.take_left' hlen]
    have hle : lengthPrefixSize + payload.length ≤ buffer.length := by
      rw [hbuf, List.length_append, hlen]
      exact Nat.le_add_right ..
    refine ⟨Nat.le_add_right .., hle, payload, ?_, htake, rfl, fun more => ?_⟩
    · rw [slice, if_pos ⟨Nat.le_add_right .., hle⟩, htake]
      rfl
    · rw [tryDecode_eq, cutFrame_stable more hcut]

end

/-- **The codec round trip.** The frames of a list of payloads, each accepted, are decoded to these
payloads and leave what followed them; a strict prefix of such a frame is incomplete; and a frame
that is decoded is the encoding of the slice given to `deserialize`, whatever follows it. -/
theorem codec_roundTrip {M : Type} (decoder : LengthPrefixedDecoder M) :
    (∀ payloads : List Bytes, (∀ p ∈ payloads, decoder.Accepts p) → ∀ t,
      decodeFrames decoder.tryDecode payloads.length
          ((payloads.map lengthPrefixedFrame).flatten ++ t) =
        .ok (payloads.map fun p => ((lengthPrefixedFrame p).length, decoder.deserialize p), t)) ∧
    (∀ payload, decoder.Accepts payload → ∀ buffer, buffer <+: lengthPrefixedFrame payload →
      buffer ≠ lengthPrefixedFrame payload → decoder.tryDecode buffer = .ok .incomplete) ∧
    ∀ buffer consumed message, decoder.tryDecode buffer = .ok (.frame consumed message) →
      lengthPrefixSize ≤ consumed ∧ consumed ≤ buffer.length ∧
        ∃ payload, slice buffer lengthPrefixSize consumed = .ok payload ∧
          buffer.take consumed = lengthPrefixedFrame payload ∧
          message = decoder.deserialize payload ∧
          ∀ more, decoder.tryDecode (buffer ++ more) = .ok (.frame consumed message) :=
  ⟨fun _ h t => decodeFrames_accepted h t, fun _ h _ => tryDecode_of_prefix h,
    fun _ _ _ => tryDecode_frame⟩

/-- Two frames, the second one empty, and the first byte of a third. -/
theorem codec_roundTrip_twoFrames :
    decodeFrames (LengthPrefixedDecoder.mk some 3).tryDecode 2
        (([[104, 105], []].map lengthPrefixedFrame).flatten ++ [0]) =
      .ok ([(6, some [104, 105]), (4, some [])], [0]) :=
  (codec_roundTrip (LengthPrefixedDecoder.mk some 3)).1 [[104, 105], []]
    (by simp [LengthPrefixedDecoder.Accepts]) [0]

end DignusActor.Network
