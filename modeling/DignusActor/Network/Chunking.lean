import DignusActor.Network.Framing

/-! # Frames in chunks

A session receives its stream in chunks, as the reads of the socket happen to cut it. As long as no
header is corrupt, what the session's actor is sent and what the session keeps depend only on the
bytes received so far (`hostRun_chunks`). After a corrupt header the two paths of `on_data` differ:
the buffered path keeps the header and posts nothing more, the path for an empty buffer forgets it
and takes the next chunk for the beginning of a frame (`receive_corrupt_iff`). -/

namespace DignusActor.Network

variable {M : Type} {decoder : LengthPrefixedDecoder M}

/-! ## Clean streams -/

/-- The state of a session that has received the bytes `s`. -/
def LengthPrefixedDecoder.entryAfter (decoder : LengthPrefixedDecoder M) (s : Bytes) :
    SessionEntry M where
  session := .new
  posted := decoder.messages s
  inbound := unparsed decoder.maxFrameLen s

theorem onData_entryAfter {s data : Bytes}
    (h : ¬CorruptStream decoder.maxFrameLen (s ++ data)) :
    (decoder.entryAfter s).onData decoder.tryDecode data =
      .ok (decoder.entryAfter (s ++ data)) := by
  have hclean : ¬CorruptStream decoder.maxFrameLen
      ((decoder.entryAfter s).inbound ++ data) := by
    rw [CorruptStream, LengthPrefixedDecoder.entryAfter, ← unparsed_append]
    exact h
  rw [onData_eq data hclean]
  simp only [LengthPrefixedDecoder.entryAfter, ← LengthPrefixedDecoder.messages_append,
    ← unparsed_append]

theorem entryAfter_nil : decoder.entryAfter [] = .new M := rfl

theorem receive_entryAfter {s : Bytes} {chunks : List Bytes}
    (h : ¬CorruptStream decoder.maxFrameLen (s ++ chunks.flatten)) :
    (decoder.entryAfter s).receive decoder.tryDecode chunks =
      .ok (decoder.entryAfter (s ++ chunks.flatten)) := by
  induction chunks generalizing s with
  | nil =>
    rw [List.flatten_nil, List.append_nil]
    rfl
  | cons chunk chunks ih =>
    rw [List.flatten_cons, ← List.append_assoc] at h ⊢
    rw [SessionEntry.receive, List.foldlM_cons, onData_entryAfter fun hc => h (hc.append _),
      ok_bind]
    exact ih h

/-! ## The host -/

/-- The data that a call brings for session `id`. -/
def HostCall.dataFor (id : Nat) : HostCall → Option Bytes
  | .onData i data => if i = id then some data else none
  | .onAccepted _ | .onDisconnected _ => none

/-- The chunks of the stream of session `id`. -/
def chunksOf (id : Nat) (calls : List HostCall) : List Bytes := calls.filterMap (·.dataFor id)

theorem onData_ok (decoder : LengthPrefixedDecoder M) (entry : SessionEntry M) (data : Bytes) :
    ∃ entry', entry.onData decoder.tryDecode data = .ok entry' := by
  by_cases hin : entry.inbound = []
  · exact ⟨_, onData_empty data hin⟩
  · exact ⟨_, onData_buffered data hin⟩

/-- No call panics or loops for ever. -/
theorem call_ok (decoder : LengthPrefixedDecoder M) (sessions : Sessions M) (call : HostCall) :
    ∃ sessions', sessions.call decoder.tryDecode call = .ok sessions' := by
  cases call with
  | onAccepted id | onDisconnected id => exact ⟨_, rfl⟩
  | onData id data =>
    cases hs : sessions id with
    | none => exact ⟨sessions, by simp only [Sessions.call, hs]⟩
    | some entry =>
      obtain ⟨entry', h⟩ := onData_ok decoder entry data
      exact ⟨_, by simp only [Sessions.call, hs, h, ok_bind]; rfl⟩

theorem calls_ok (decoder : LengthPrefixedDecoder M) (sessions : Sessions M)
    (calls : List HostCall) :
    ∃ sessions', calls.foldlM (Sessions.call decoder.tryDecode) sessions = .ok sessions' := by
  induction calls generalizing sessions with
  | nil => exact ⟨sessions, rfl⟩
  | cons call calls ih =>
    obtain ⟨sessions', h⟩ := call_ok decoder sessions call
    rw [List.foldlM_cons, h, ok_bind]
    exact ih sessions'

/-- While session `id` is neither accepted anew nor disconnected, the calls do to its entry what its
own chunks do; the calls for other sessions do nothing to it. -/
theorem calls_receive {sessions sessions' : Sessions M} {id : Nat} {entry : SessionEntry M}
    {calls : List HostCall} (hid : sessions id = some entry)
    (hsession : ∀ call ∈ calls, call ≠ .onAccepted id ∧ call ≠ .onDisconnected id)
    (h : calls.foldlM (Sessions.call decoder.tryDecode) sessions = .ok sessions') :
    ∃ entry', entry.receive decoder.tryDecode (chunksOf id calls) = .ok entry' ∧
      sessions' id = some entry' := by
  induction calls generalizing sessions entry with
  | nil =>
    cases h
    exact ⟨entry, rfl, hid⟩
  | cons call calls ih =>
    obtain ⟨hacc, hdis⟩ := hsession call List.mem_cons_self
    have hrest : ∀ call ∈ calls, call ≠ .onAccepted id ∧ call ≠ .onDisconnected id :=
      fun call hc => hsession call (List.mem_cons_of_mem _ hc)
    rw [List.foldlM_cons] at h
    cases call with
    | onAccepted i =>
      have hne : id ≠ i := fun e => hacc (e ▸ rfl)
      exact ih (by rw [Function.update_of_ne hne]; exact hid) hrest h
    | onDisconnected i =>
      have hne : id ≠ i := fun e => hdis (e ▸ rfl)
      exact ih (by rw [Function.update_of_ne hne]; exact hid) hrest h
    | onData i data =>
      by_cases hi : i = id
      · subst hi
        obtain ⟨entry', hdata⟩ := onData_ok decoder entry data
        simp only [Sessions.call, hid, hdata, ok_bind] at h
        obtain ⟨entry'', hrec, hent⟩ := ih (Function.update_self ..) hrest h
        refine ⟨entry'', ?_, hent⟩
        rw [show chunksOf i (.onData i data :: calls) = data :: chunksOf i calls by
          simp [chunksOf, HostCall.dataFor], SessionEntry.receive, List.foldlM_cons, hdata, ok_bind]
        exact hrec
      · have hchunks : chunksOf id (.onData i data :: calls) = chunksOf id calls := by
          simp [chunksOf, HostCall.dataFor, hi]
        obtain ⟨sessions₁, hcall⟩ := call_ok decoder sessions (.onData i data)
        rw [hcall, ok_bind] at h
        rw [hchunks]
        refine ih ?_ hrest h
        simp only [Sessions.call] at hcall
        split at hcall
        · cases hcall
          exact hid
        · rename_i other hother
          obtain ⟨other', hdata⟩ := onData_ok decoder other data
          simp only [hdata, ok_bind] at hcall
          cases hcall
          rw [Function.update_of_ne (Ne.symm hi)]
          exact hid

/-- **Chunking does not matter.** After each call, the session's actor has been sent the messages of
the bytes received so far, parsed as one buffer; the session holds what is left of them, and no
close was requested. -/
theorem hostRun_chunks {before calls : List HostCall} {id : Nat}
    (hsession : ∀ call ∈ calls, call ≠ .onAccepted id ∧ call ≠ .onDisconnected id)
    (hclean : ¬CorruptStream decoder.maxFrameLen (chunksOf id calls).flatten) (n : Nat) :
    ∃ sessions,
      hostRun decoder.tryDecode (before ++ .onAccepted id :: calls.take n) = .ok sessions ∧
      sessions id = some
        { session := .new
          posted := decoder.messages (chunksOf id (calls.take n)).flatten
          inbound := unparsed decoder.maxFrameLen (chunksOf id (calls.take n)).flatten } ∧
      (unparsed decoder.maxFrameLen (chunksOf id (calls.take n)).flatten).length <
        4 + decoder.maxFrameLen := by
  have hsplit : (chunksOf id calls).flatten =
      (chunksOf id (calls.take n)).flatten ++ (chunksOf id (calls.drop n)).flatten := by
    rw [← List.flatten_append, chunksOf, chunksOf, chunksOf, ← List.filterMap_append,
      List.take_append_drop]
  have hclean' : ¬CorruptStream decoder.maxFrameLen (chunksOf id (calls.take n)).flatten := by
    intro hc
    rw [hsplit] at hclean
    exact hclean (hc.append _)
  obtain ⟨sessions₀, h₀⟩ := calls_ok decoder (fun _ => none) before
  obtain ⟨sessions, hrun⟩ := calls_ok decoder
    (Function.update sessions₀ id (some (.new M))) (calls.take n)
  obtain ⟨entry, hrec, hent⟩ := calls_receive (Function.update_self ..)
    (fun call hc => hsession call (List.mem_of_mem_take hc)) hrun
  refine ⟨sessions, ?_, ?_, length_unparsed_lt hclean'⟩
  · rw [hostRun, List.foldlM_append, h₀, ok_bind, List.foldlM_cons]
    exact hrun
  · have hall :
        (decoder.entryAfter []).receive decoder.tryDecode (chunksOf id (calls.take n)) = _ :=
      receive_entryAfter (by simpa using hclean')
    rw [entryAfter_nil, hrec] at hall
    cases hall
    rw [hent]
    rfl

/-- A frame of two bytes in three chunks, between calls for another session. -/
def splitCalls : List HostCall :=
  [.onData 1 [0, 0], .onData 2 [9, 9, 9, 9], .onData 1 [0, 2, 7], .onAccepted 3,
    .onData 1 [8, 0, 0]]

theorem hostRun_chunks_splitCalls :
    ∃ sessions,
      hostRun (LengthPrefixedDecoder.mk some 10).tryDecode
        ([.onAccepted 2] ++ .onAccepted 1 :: splitCalls) = .ok sessions ∧
      sessions 1 = some ⟨.new, [[7, 8]], [0, 0]⟩ := by
  obtain ⟨sessions, hrun, hentry, _⟩ :=
    @hostRun_chunks Bytes ⟨some, 10⟩ [.onAccepted 2] splitCalls 1 (by decide) (by decide) 5
  exact ⟨sessions, hrun, hentry⟩

/-! ## Corrupt streams -/

/-- The state of a session after the chunk that completes the first corrupt header. -/
theorem receive_corrupt {before : List Bytes} {chunk : Bytes}
    (hclean : ¬CorruptStream decoder.maxFrameLen before.flatten)
    (hcorrupt : CorruptStream decoder.maxFrameLen (before.flatten ++ chunk)) :
    (SessionEntry.new M).receive decoder.tryDecode (before ++ [chunk]) = .ok
      { session := Session.new.close
        posted := decoder.messages (before.flatten ++ chunk)
        inbound := if unparsed decoder.maxFrameLen before.flatten = [] then []
          else unparsed decoder.maxFrameLen (before.flatten ++ chunk) } := by
  have hbefore : (SessionEntry.new M).receive decoder.tryDecode before =
      .ok (decoder.entryAfter before.flatten) :=
    receive_entryAfter (s := []) hclean
  have hcor : CorruptStream decoder.maxFrameLen
      (unparsed decoder.maxFrameLen before.flatten ++ chunk) := by
    rw [CorruptStream, ← unparsed_append]
    exact hcorrupt
  rw [SessionEntry.receive] at hbefore ⊢
  rw [List.foldlM_append, hbefore, ok_bind, List.foldlM_cons, LengthPrefixedDecoder.messages_append]
  by_cases hin : unparsed decoder.maxFrameLen before.flatten = []
  · rw [onData_empty chunk hin, ok_bind, if_pos hin]
    rw [hin, List.nil_append] at hcor ⊢
    rw [if_pos hcor, if_pos hcor]
    rfl
  · rw [onData_buffered chunk hin, ok_bind, if_neg hin]
    rw [LengthPrefixedDecoder.entryAfter, if_pos hcor, ← unparsed_append]
    rfl

/-- The buffered path keeps the corrupt header, so nothing is posted any more. -/
theorem receive_kept {entry : SessionEntry M}
    (h : CorruptHeader decoder.maxFrameLen entry.inbound) (later : List Bytes) :
    ∃ entry', entry.receive decoder.tryDecode later = .ok entry' ∧
      entry'.posted = entry.posted := by
  induction later generalizing entry with
  | nil => exact ⟨entry, rfl, rfl⟩
  | cons data later ih =>
    have hdata := h.append data
    rw [SessionEntry.receive, List.foldlM_cons, onData_buffered data h.ne_nil, ok_bind,
      LengthPrefixedDecoder.messages_of_none hdata.cutFrame_eq_none, List.append_nil,
      hdata.unparsed_eq]
    exact @ih ⟨_, entry.posted, entry.inbound ++ data⟩ hdata

/-- Payloads that are never deserialized give no messages. -/
theorem messages_eq_nil (h : ∀ payload : Bytes, payload.length ≤ decoder.maxFrameLen →
    payload.length < 2 ^ 32 → decoder.deserialize payload = none) (s : Bytes) :
    decoder.messages s = [] := by
  induction s using (framing decoder.maxFrameLen).rec_cut with
  | none s hcut => exact LengthPrefixedDecoder.messages_of_none hcut
  | some s p r hcut ih =>
    obtain ⟨⟨hmax, hlt⟩, _⟩ := cutFrame_eq_some hcut
    rw [LengthPrefixedDecoder.messages_of_cut hcut, h p hmax hlt, ih]
    rfl

theorem receive_silent (h : ∀ s, decoder.messages s = []) (entry : SessionEntry M)
    (later : List Bytes) :
    ∃ entry', entry.receive decoder.tryDecode later = .ok entry' ∧
      entry'.posted = entry.posted := by
  induction later generalizing entry with
  | nil => exact ⟨entry, rfl, rfl⟩
  | cons data later ih =>
    by_cases hin : entry.inbound = []
    · rw [SessionEntry.receive, List.foldlM_cons, onData_empty data hin, ok_bind, h,
        List.append_nil]
      exact ih ⟨_, entry.posted, _⟩
    · rw [SessionEntry.receive, List.foldlM_cons, onData_buffered data hin, ok_bind, h,
        List.append_nil]
      exact ih ⟨_, entry.posted, _⟩

/-- A stream has the messages of the frames before its first corrupt header. -/
theorem messages_corrupt {s : Bytes} (h : CorruptStream decoder.maxFrameLen s) (t : Bytes) :
    decoder.messages (s ++ t) = decoder.messages s := by
  rw [LengthPrefixedDecoder.messages_append,
    LengthPrefixedDecoder.messages_of_none (CorruptHeader.append h t).cutFrame_eq_none,
    List.append_nil]

/-- **When a corrupt stream stays dead.** After the chunk that completes the first corrupt header,
whatever follows posts nothing exactly when the session held bytes of an unfinished frame before
that chunk, or no payload is ever deserialized. -/
theorem receive_corrupt_iff {before : List Bytes} {chunk : Bytes}
    (hclean : ¬CorruptStream decoder.maxFrameLen before.flatten)
    (hcorrupt : CorruptStream decoder.maxFrameLen (before.flatten ++ chunk)) :
    (∀ later : List Bytes, ∃ entry,
      (SessionEntry.new M).receive decoder.tryDecode (before ++ chunk :: later) = .ok entry ∧
        entry.posted = decoder.messages (before ++ chunk :: later).flatten) ↔
    unparsed decoder.maxFrameLen before.flatten ≠ [] ∨
      ∀ payload : Bytes, payload.length ≤ decoder.maxFrameLen → payload.length < 2 ^ 32 →
        decoder.deserialize payload = none := by
  have hrun : ∀ later, (SessionEntry.new M).receive decoder.tryDecode (before ++ chunk :: later) =
      SessionEntry.receive decoder.tryDecode
        { session := Session.new.close
          posted := decoder.messages (before.flatten ++ chunk)
          inbound := if unparsed decoder.maxFrameLen before.flatten = [] then []
            else unparsed decoder.maxFrameLen (before.flatten ++ chunk) } later := by
    intro later
    have hfirst := receive_corrupt hclean hcorrupt
    rw [SessionEntry.receive] at hfirst
    rw [List.append_cons, SessionEntry.receive, List.foldlM_append, hfirst]
    rfl
  have hmsgs : ∀ later : List Bytes, decoder.messages (before ++ chunk :: later).flatten =
      decoder.messages (before.flatten ++ chunk) := by
    intro later
    rw [List.flatten_append, List.flatten_cons, ← List.append_assoc, messages_corrupt hcorrupt]
  simp only [hrun, hmsgs]
  constructor
  · intro h
    by_contra hno
    obtain ⟨hin, hdes⟩ := not_or.mp hno
    push Not at hin hdes
    obtain ⟨payload, hmax, hlt, hdes⟩ := hdes
    obtain ⟨entry, hrec, hposted⟩ := h [lengthPrefixedFrame payload]
    -- the forgotten header: the next frame is taken at its word
    have hcut :
        cutFrame decoder.maxFrameLen (lengthPrefixedFrame payload) = some (payload, []) := by
      simpa using cutFrame_lengthPrefixedFrame hmax hlt []
    rw [if_pos hin, SessionEntry.receive, List.foldlM_cons, onData_empty _ rfl, ok_bind] at hrec
    cases hrec
    rw [LengthPrefixedDecoder.messages_of_cut hcut] at hposted
    have hlen := congrArg List.length hposted
    obtain ⟨m, hm⟩ := Option.ne_none_iff_exists'.mp hdes
    simp only [hm, List.length_append, Option.toList_some, List.length_singleton] at hlen
    omega
  · rintro (hin | hdes) later
    · exact receive_kept (by rw [if_neg hin]; exact hcorrupt) later
    · exact receive_silent (messages_eq_nil hdes) _ later

/-- The header is cut by a read, so the session holds it. -/
theorem receive_corrupt_split :
    CorruptStream 10 [0, 0, 0, 1, 5, 0, 0, 0, 255] ∧ ∀ later : List Bytes, ∃ entry,
      (SessionEntry.new Bytes).receive (LengthPrefixedDecoder.mk some 10).tryDecode
        ([[0, 0, 0, 1, 5, 0]] ++ [0, 0, 255] :: later) = .ok entry ∧
      entry.posted = (LengthPrefixedDecoder.mk some 10).messages
        ([[0, 0, 0, 1, 5, 0]] ++ [0, 0, 255] :: later).flatten :=
  ⟨by decide, (@receive_corrupt_iff Bytes ⟨some, 10⟩ [[0, 0, 0, 1, 5, 0]] [0, 0, 255]
    (by decide) (by decide)).mpr (.inl (by decide))⟩

/-- The header comes as a chunk of its own. The frame after it is posted. -/
theorem receive_corrupt_forgotten :
    ∃ entry, (SessionEntry.new Bytes).receive (LengthPrefixedDecoder.mk some 10).tryDecode
        [[0, 0, 0, 255], [0, 0, 0, 2, 104, 105]] = .ok entry ∧
      CorruptStream 10 [0, 0, 0, 255] ∧
      (LengthPrefixedDecoder.mk some 10).messages [0, 0, 0, 255, 0, 0, 0, 2, 104, 105] = [] ∧
      entry.posted = [[104, 105]] ∧ entry.session.closeRequested = true :=
  ⟨_, rfl, by decide, by decide, rfl, rfl⟩

end DignusActor.Network
