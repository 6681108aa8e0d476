import DignusActor.Network.Reactor

/-! # The ledger of the sessions

What the workers of a host keep of their sessions, apart from how a reactor gets there: ids are
issued and wait at a worker, a waiting stream is admitted as a session with the next token of its
worker or given up with others, a session is told data, and a session is closed. In every ledger
that is reached ids and tokens name one session each, the callbacks about a session are a
conversation, and a worker is connected to the sessions that it has opened and not closed
(`Ledger.Inv`). -/

namespace DignusActor.Reactor

open Machine (Reach)

/-- What one worker keeps. -/
structure Desk where
  connections : AList fun _ : Nat => Nat
  nextToken : Nat
  calls : List Call
  /-- The ids that have been issued to the worker and not been looked at. -/
  waiting : List Nat

/-- The callbacks about a session, in order. -/
def Desk.trace (desk : Desk) (id : Nat) : List Call := desk.calls.filter (·.id == id)

structure Ledger where
  nextSessionId : Nat
  desks : Nat → Desk
  sessions : List Session

namespace Ledger

inductive Entry
  | issue (w : Nat)
  | giveUp (w count tokens : Nat)
  | accept (w : Nat)
  | data (w token : Nat) (data : List UInt8)
  | close (w token : Nat)

def setDesk (l : Ledger) (w : Nat) (desk : Desk) : Ledger :=
  { l with desks := Function.update l.desks w desk }

def step (l : Ledger) : Entry → Option Ledger
  | .issue w =>
    let desk := l.desks w
    some { l.setDesk w { desk with waiting := desk.waiting ++ [l.nextSessionId] } with
      nextSessionId := l.nextSessionId + 1 }
  | .giveUp w count tokens =>
    let desk := l.desks w
    some (l.setDesk w { desk with
      nextToken := desk.nextToken + tokens
      waiting := desk.waiting.drop count })
  | .accept w =>
    let desk := l.desks w
    match desk.waiting with
    | [] => none
    | id :: waiting =>
      some { l.setDesk w
          { connections := desk.connections.insert desk.nextToken l.sessions.length
            nextToken := desk.nextToken + 1
            calls := desk.calls ++ [.onAccepted id]
            waiting } with
        sessions := l.sessions ++ [⟨id, desk.nextToken, w⟩] }
  | .data w token data =>
    let desk := l.desks w
    ((desk.connections.lookup token).bind (l.sessions[·]?)).map fun session =>
      l.setDesk w { desk with calls := desk.calls ++ [.onData session.id data] }
  | .close w token =>
    let desk := l.desks w
    ((desk.connections.lookup token).bind (l.sessions[·]?)).map fun session =>
      l.setDesk w { desk with
        connections := desk.connections.erase token
        calls := desk.calls ++ [.onDisconnected session.id] }

def machine : Machine Ledger Entry where
  Init l := l = ⟨1, fun _ => ⟨∅, firstConnectionToken, [], []⟩, []⟩
  step := step

/-! ## What holds of a ledger -/

/-- The callbacks about a session that a worker is connected to. -/
def Told (id : Nat) (calls : List Call) : Prop :=
  ∃ data : List (List UInt8), calls = .onAccepted id :: data.map (.onData id)

/-- Session `n` has been told of its start and of data. -/
structure Open (l : Ledger) (n : Nat) (session : Session) : Prop where
  connected : (l.desks session.worker).connections.lookup session.token = some n
  told : Told session.id ((l.desks session.worker).trace session.id)

/-- Session `n` has been told of its end, too. -/
structure Closed (l : Ledger) (session : Session) : Prop where
  connected : (l.desks session.worker).connections.lookup session.token = none
  told : ∃ calls, Told session.id calls ∧
    (l.desks session.worker).trace session.id = calls ++ [.onDisconnected session.id]

structure Inv (l : Ledger) : Prop where
  issued : ∀ w, ∀ id ∈ (l.desks w).waiting, id < l.nextSessionId
  below : ∀ (n : Nat) (session : Session), l.sessions[n]? = some session →
    session.id < l.nextSessionId
  nodup : ∀ w, (l.desks w).waiting.Nodup
  apart : ∀ v w id, id ∈ (l.desks v).waiting → id ∈ (l.desks w).waiting → v = w
  fresh : ∀ w, ∀ id ∈ (l.desks w).waiting, ∀ (n : Nat) (session : Session),
    l.sessions[n]? = some session → session.id ≠ id
  ids : ∀ (n m : Nat) (session other : Session), l.sessions[n]? = some session →
    l.sessions[m]? = some other → session.id = other.id → n = m
  token : ∀ (n : Nat) (session : Session), l.sessions[n]? = some session →
    session.token < (l.desks session.worker).nextToken
  tokens : ∀ (n m : Nat) (session other : Session), l.sessions[n]? = some session →
    l.sessions[m]? = some other → session.worker = other.worker → session.token = other.token →
      n = m
  known : ∀ w token n, (l.desks w).connections.lookup token = some n →
    ∃ session, l.sessions[n]? = some session ∧ session.worker = w ∧ session.token = token
  about : ∀ w, ∀ call ∈ (l.desks w).calls,
    ∃ (n : Nat) (session : Session), l.sessions[n]? = some session ∧ session.worker = w ∧
      session.id = call.id
  told : ∀ (n : Nat) (session : Session), l.sessions[n]? = some session →
    l.Open n session ∨ l.Closed session

variable {l l' : Ledger} {w : Nat}

theorem setDesk_self (desk : Desk) : (l.setDesk w desk).desks w = desk := Function.update_self ..

theorem setDesk_of_ne {v : Nat} (h : v ≠ w) (desk : Desk) :
    (l.setDesk w desk).desks v = l.desks v := Function.update_of_ne h ..

/-- Only the ids that wait at a worker change. -/
theorem Inv.rewait (hinv : l.Inv) {next : Nat} {desk : Desk} (hnext : l.nextSessionId ≤ next)
    (hconnections : desk.connections = (l.desks w).connections)
    (htoken : (l.desks w).nextToken ≤ desk.nextToken) (hcalls : desk.calls = (l.desks w).calls)
    (hissued : ∀ id ∈ desk.waiting, id < next) (hnodup : desk.waiting.Nodup)
    (hold : ∀ id ∈ desk.waiting, id ∈ (l.desks w).waiting ∨ l.nextSessionId ≤ id) :
    Inv { l.setDesk w desk with nextSessionId := next } := by
  have hdesk (v : Nat) : (l.setDesk w desk).desks v = l.desks v ∨
      v = w ∧ (l.setDesk w desk).desks v = desk := by
    by_cases hv : v = w
    · exact .inr ⟨hv, hv ▸ setDesk_self desk⟩
    · exact .inl (setDesk_of_ne hv desk)
  have hwaiting (v id : Nat) (h : id ∈ ((l.setDesk w desk).desks v).waiting) :
      id ∈ (l.desks v).waiting ∨ v = w ∧ l.nextSessionId ≤ id := by
    rcases hdesk v with heq | ⟨rfl, heq⟩ <;> rw [heq] at h
    · exact .inl h
    · exact (hold id h).imp_right fun hle => ⟨rfl, hle⟩
  have hlookup (v : Nat) :
      ((l.setDesk w desk).desks v).connections = (l.desks v).connections := by
    rcases hdesk v with heq | ⟨rfl, heq⟩ <;> rw [heq]
    exact hconnections
  have hcall (v : Nat) : ((l.setDesk w desk).desks v).calls = (l.desks v).calls := by
    rcases hdesk v with heq | ⟨rfl, heq⟩ <;> rw [heq]
    exact hcalls
  have htrace (v id : Nat) : ((l.setDesk w desk).desks v).trace id = (l.desks v).trace id := by
    rw [Desk.trace, hcall, Desk.trace]
  refine ⟨fun v id h => ?_, fun n σ h => Nat.lt_of_lt_of_le (hinv.below n σ h) hnext, fun v => ?_,
    fun u v id hu hv => ?_, fun v id h n σ hσ => ?_, hinv.ids, fun n σ h => ?_, hinv.tokens,
    fun v token n h => hinv.known v token n (hlookup v ▸ h),
    fun v call h => hinv.about v call (hcall v ▸ h), fun n σ h => ?_⟩
  · rcases hdesk v with heq | ⟨rfl, heq⟩ <;> simp only [heq] at h
    · exact Nat.lt_of_lt_of_le (hinv.issued v id h) hnext
    · exact hissued id h
  · rcases hdesk v with heq | ⟨rfl, heq⟩ <;> simp only [heq]
    · exact hinv.nodup v
    · exact hnodup
  · rcases hwaiting u id hu with hu' | ⟨hu', hule⟩ <;>
      rcases hwaiting v id hv with hv' | ⟨hv', hvle⟩
    · exact hinv.apart u v id hu' hv'
    · exact absurd (hinv.issued u id hu') (Nat.not_lt_of_le hvle)
    · exact absurd (hinv.issued v id hv') (Nat.not_lt_of_le hule)
    · exact hu'.trans hv'.symm
  · rcases hwaiting v id h with h | ⟨-, h⟩
    · exact hinv.fresh v id h n σ hσ
    · exact Nat.ne_of_lt (Nat.lt_of_lt_of_le (hinv.below n σ hσ) h)
  · refine Nat.lt_of_lt_of_le (hinv.token n σ h) ?_
    rcases hdesk σ.worker with heq | ⟨hw, heq⟩ <;> simp only [heq]
    · exact Nat.le_refl _
    · exact hw ▸ htoken
  · rcases hinv.told n σ h with h | h
    · exact .inl ⟨(congrArg _ (hlookup _)).trans h.connected, (htrace ..).symm ▸ h.told⟩
    · refine .inr ⟨(congrArg _ (hlookup _)).trans h.connected, ?_⟩
      obtain ⟨calls, htold, heq⟩ := h.told
      exact ⟨calls, htold, (htrace ..).trans heq⟩

theorem Inv.issue (hinv : l.Inv) (h : l.step (.issue w) = some l') : l'.Inv := by
  cases h
  have hlt := hinv.issued w
  refine hinv.rewait (Nat.le_succ _) rfl (Nat.le_refl _) rfl (fun id hid => ?_) ?_ fun id hid => ?_
  · rcases List.mem_append.mp hid with hid | hid
    · exact Nat.lt_succ_of_lt (hlt id hid)
    · exact List.mem_singleton.mp hid ▸ Nat.lt_succ_self _
  · refine List.nodup_append.mpr ⟨hinv.nodup w, List.nodup_singleton _, fun a ha b hb => ?_⟩
    exact List.mem_singleton.mp hb ▸ Nat.ne_of_lt (hlt a ha)
  · rcases List.mem_append.mp hid with hid | hid
    · exact .inl hid
    · exact .inr (List.mem_singleton.mp hid ▸ Nat.le_refl _)

theorem Inv.giveUp (hinv : l.Inv) {count tokens : Nat}
    (h : l.step (.giveUp w count tokens) = some l') : l'.Inv := by
  cases h
  have hsub := List.drop_sublist count (l.desks w).waiting
  exact hinv.rewait (Nat.le_refl _) rfl (Nat.le_add_right ..) rfl
    (fun id hid => hinv.issued w id (hsub.subset hid)) (hsub.nodup (hinv.nodup w))
    fun id hid => .inl (hsub.subset hid)

/-- A callback about session `id` comes to the end of its trace. -/
theorem Desk.trace_append_self {d d' : Desk} {call : Call} {id : Nat}
    (hcalls : d'.calls = d.calls ++ [call]) (h : call.id = id) :
    d'.trace id = d.trace id ++ [call] := by
  rw [Desk.trace, hcalls, List.filter_append, Desk.trace]
  simp [h]

theorem Desk.trace_append_of_ne {d d' : Desk} {call : Call} {id : Nat}
    (hcalls : d'.calls = d.calls ++ [call]) (h : call.id ≠ id) : d'.trace id = d.trace id := by
  rw [Desk.trace, hcalls, List.filter_append, Desk.trace]
  simp [h]

theorem Told.append {d d' : Desk} {id : Nat} {data : List UInt8} (h : Told id (d.trace id))
    (hcalls : d'.calls = d.calls ++ [.onData id data]) : Told id (d'.trace id) := by
  obtain ⟨datas, hdatas⟩ := h
  refine ⟨datas ++ [data], ?_⟩
  have htrace : d'.trace id = d.trace id ++ [.onData id data] := Desk.trace_append_self hcalls rfl
  rw [htrace, hdatas, List.map_append]
  rfl

/-- A callback about the open session `n` of worker `w`, whose connections become `connections`. -/
theorem Inv.callback (hinv : l.Inv) {n : Nat} {session : Session}
    (hn : l.sessions[n]? = some session) (hw : session.worker = w) {call : Call}
    (hid : call.id = session.id) {connections : AList fun _ : Nat => Nat}
    (hlookup : ∀ token, token ≠ session.token →
      connections.lookup token = (l.desks w).connections.lookup token)
    (hsub : ∀ m, connections.lookup session.token = some m →
      (l.desks w).connections.lookup session.token = some m)
    (htold : (l.setDesk w
        { l.desks w with connections, calls := (l.desks w).calls ++ [call] }).Open n session ∨
      (l.setDesk w
        { l.desks w with connections, calls := (l.desks w).calls ++ [call] }).Closed session) :
    (l.setDesk w { l.desks w with connections, calls := (l.desks w).calls ++ [call] }).Inv := by
  set desk : Desk := { l.desks w with connections, calls := (l.desks w).calls ++ [call] }
  have hdesk (v : Nat) : (l.setDesk w desk).desks v = l.desks v ∨
      v = w ∧ (l.setDesk w desk).desks v = desk := by
    by_cases hv : v = w
    · exact .inr ⟨hv, hv ▸ setDesk_self desk⟩
    · exact .inl (setDesk_of_ne hv desk)
  have hwaiting (v : Nat) : ((l.setDesk w desk).desks v).waiting = (l.desks v).waiting := by
    rcases hdesk v with heq | ⟨rfl, heq⟩ <;> rw [heq]
  refine ⟨fun v => hwaiting v ▸ hinv.issued v, hinv.below, fun v => hwaiting v ▸ hinv.nodup v,
    fun u v id hu hv => hinv.apart u v id (hwaiting u ▸ hu) (hwaiting v ▸ hv),
    fun v => hwaiting v ▸ hinv.fresh v, hinv.ids, fun m σ hσ => ?_, hinv.tokens,
    fun v token m h => ?_, fun v call' h => ?_, fun m σ hσ => ?_⟩
  · have heq : ((l.setDesk w desk).desks σ.worker).nextToken = (l.desks σ.worker).nextToken := by
      rcases hdesk σ.worker with heq | ⟨hv, heq⟩ <;> rw [heq]
      rw [hv]
    exact heq ▸ hinv.token m σ hσ
  · rcases hdesk v with heq | ⟨rfl, heq⟩ <;> rw [heq] at h
    · exact hinv.known v token m h
    · by_cases ht : token = session.token
      · subst ht
        exact hinv.known v _ m (hsub m h)
      · exact hinv.known v token m (hlookup token ht ▸ h)
  · rcases hdesk v with heq | ⟨rfl, heq⟩ <;> rw [heq] at h
    · exact hinv.about v call' h
    · rcases List.mem_append.mp h with h | h
      · exact hinv.about v call' h
      · exact ⟨n, session, hn, hw, List.mem_singleton.mp h ▸ hid.symm⟩
  · by_cases hmn : m = n
    · subst hmn
      cases hσ.symm.trans hn
      exact htold
    · -- the callback and the connection are those of another session
      have hlook : ((l.setDesk w desk).desks σ.worker).connections.lookup σ.token =
          (l.desks σ.worker).connections.lookup σ.token := by
        rcases hdesk σ.worker with heq | ⟨hv, heq⟩ <;> rw [heq]
        refine (hlookup σ.token fun ht => hmn ?_).trans (by rw [hv])
        exact hinv.tokens m n σ session hσ hn (hv.trans hw.symm) ht
      have htrace : ((l.setDesk w desk).desks σ.worker).trace σ.id =
          (l.desks σ.worker).trace σ.id := by
        rcases hdesk σ.worker with heq | ⟨hv, heq⟩ <;> rw [heq]
        rw [hv]
        refine Desk.trace_append_of_ne rfl fun he => hmn ?_
        exact hinv.ids m n σ session hσ hn (he.symm.trans hid)
      rcases hinv.told m σ hσ with h | h
      · exact .inl ⟨hlook.trans h.connected, htrace ▸ h.told⟩
      · obtain ⟨calls, ht, heq⟩ := h.told
        exact .inr ⟨hlook.trans h.connected, calls, ht, htrace.trans heq⟩

/-- The session at a token is open. -/
theorem Inv.open_of_lookup (hinv : l.Inv) {token n : Nat} {session : Session}
    (h : (l.desks w).connections.lookup token = some n) (hn : l.sessions[n]? = some session) :
    session.worker = w ∧ session.token = token ∧ l.Open n session := by
  obtain ⟨σ, hσ, hw, ht⟩ := hinv.known w token n h
  cases hσ.symm.trans hn
  refine ⟨hw, ht, (hinv.told n session hn).resolve_right fun hc => ?_⟩
  have hnone := hc.connected
  rw [hw, ht, h] at hnone
  cases hnone

theorem Inv.data (hinv : l.Inv) {token : Nat} {data : List UInt8}
    (h : l.step (.data w token data) = some l') : l'.Inv := by
  simp only [step, Option.map_eq_some_iff, Option.bind_eq_some_iff] at h
  obtain ⟨session, ⟨n, hlookup, hn⟩, rfl⟩ := h
  obtain ⟨hw, ht, hopen⟩ := hinv.open_of_lookup hlookup hn
  refine hinv.callback hn hw rfl (fun _ _ => rfl) (fun _ => id) (.inl ⟨?_, ?_⟩)
  · rw [hw, setDesk_self, ht]
    exact hlookup
  · have htold := hopen.told
    rw [hw] at htold
    rw [hw, setDesk_self]
    exact htold.append rfl

theorem Inv.close (hinv : l.Inv) {token : Nat} (h : l.step (.close w token) = some l') :
    l'.Inv := by
  simp only [step, Option.map_eq_some_iff, Option.bind_eq_some_iff] at h
  obtain ⟨session, ⟨n, hlookup, hn⟩, rfl⟩ := h
  obtain ⟨hw, rfl, hopen⟩ := hinv.open_of_lookup hlookup hn
  refine hinv.callback hn hw rfl (fun _ hne => AList.lookup_erase_ne hne) (fun m hm => ?_)
    (.inr ⟨?_, ?_⟩)
  · rw [AList.lookup_erase] at hm
    cases hm
  · rw [hw, setDesk_self]
    exact AList.lookup_erase ..
  · have htold := hopen.told
    rw [hw] at htold ⊢
    refine ⟨_, htold, ?_⟩
    rw [setDesk_self]
    exact Desk.trace_append_self rfl rfl

theorem getElem?_append_singleton {sessions : List Session} {n : Nat} {σ session : Session}
    (h : (sessions ++ [session])[n]? = some σ) :
    sessions[n]? = some σ ∨ n = sessions.length ∧ σ = session := by
  rw [List.getElem?_append] at h
  split at h
  · exact .inl h
  · simp only [List.getElem?_singleton] at h
    split at h
    · cases h
      exact .inr ⟨by omega, rfl⟩
    · cases h

theorem Inv.accept (hinv : l.Inv) (h : l.step (.accept w) = some l') : l'.Inv := by
  simp only [step] at h
  split at h
  · cases h
  · rename_i id waiting hwait
    cases h
    set desk : Desk :=
      { connections := (l.desks w).connections.insert (l.desks w).nextToken l.sessions.length
        nextToken := (l.desks w).nextToken + 1
        calls := (l.desks w).calls ++ [.onAccepted id]
        waiting }
    have hid : id ∈ (l.desks w).waiting := hwait ▸ List.mem_cons_self
    have hnodup := hinv.nodup w
    rw [hwait, List.nodup_cons] at hnodup
    have hdesk (v : Nat) : (l.setDesk w desk).desks v = l.desks v ∨
        v = w ∧ (l.setDesk w desk).desks v = desk := by
      by_cases hv : v = w
      · exact .inr ⟨hv, hv ▸ setDesk_self desk⟩
      · exact .inl (setDesk_of_ne hv desk)
    have hsub (v : Nat) :
        ((l.setDesk w desk).desks v).waiting.Sublist (l.desks v).waiting := by
      rcases hdesk v with heq | ⟨rfl, heq⟩ <;> rw [heq]
      exact hwait ▸ List.sublist_cons_self id waiting
    have hold {n : Nat} {σ : Session} (h : l.sessions[n]? = some σ) :
        (l.sessions ++ [⟨id, (l.desks w).nextToken, w⟩])[n]? = some σ :=
      (List.getElem?_append_left (List.getElem?_eq_some_iff.mp h).1).trans h
    -- nothing has been said about the new session
    have hnew : (l.desks w).trace id = [] := by
      refine List.filter_eq_nil_iff.mpr fun call hcall => ?_
      obtain ⟨n, σ, hσ, -, hσid⟩ := hinv.about w call hcall
      have hne := hinv.fresh w id hid n σ hσ
      simpa [← hσid] using hne
    refine ⟨fun v x hx => hinv.issued v x ((hsub v).subset hx), fun n σ hσ => ?_,
      fun v => (hsub v).nodup (hinv.nodup v),
      fun u v x hu hv => hinv.apart u v x ((hsub u).subset hu) ((hsub v).subset hv),
      fun v x hx n σ hσ => ?_, fun n m σ τ hσ hτ heq => ?_, fun n σ hσ => ?_,
      fun n m σ τ hσ hτ hw ht => ?_, fun v token n hn => ?_, fun v call hcall => ?_,
      fun n σ hσ => ?_⟩
    · rcases getElem?_append_singleton hσ with hσ | ⟨-, rfl⟩
      · exact hinv.below n σ hσ
      · exact hinv.issued w id hid
    · rcases getElem?_append_singleton hσ with hσ | ⟨-, rfl⟩
      · exact hinv.fresh v x ((hsub v).subset hx) n σ hσ
      · rintro rfl
        obtain rfl := hinv.apart v w _ ((hsub v).subset hx) hid
        dsimp only at hx
        rw [setDesk_self] at hx
        exact hnodup.1 hx
    · rcases getElem?_append_singleton hσ with hσ | ⟨rfl, rfl⟩ <;>
        rcases getElem?_append_singleton hτ with hτ | ⟨rfl, rfl⟩
      · exact hinv.ids n m σ τ hσ hτ heq
      · exact absurd heq (hinv.fresh w id hid n σ hσ)
      · exact absurd heq.symm (hinv.fresh w id hid m τ hτ)
      · rfl
    · rcases getElem?_append_singleton hσ with hσ | ⟨-, rfl⟩
      · have hlt := hinv.token n σ hσ
        rcases hdesk σ.worker with heq | ⟨hw, heq⟩ <;> simp only [heq]
        · exact hlt
        · exact Nat.lt_succ_of_lt (hw ▸ hlt)
      · dsimp only
        rw [setDesk_self]
        exact Nat.lt_succ_self _
    · rcases getElem?_append_singleton hσ with hσ | ⟨rfl, rfl⟩ <;>
        rcases getElem?_append_singleton hτ with hτ | ⟨rfl, rfl⟩
      · exact hinv.tokens n m σ τ hσ hτ hw ht
      · have hlt := hinv.token n σ hσ
        rw [hw] at hlt
        exact absurd ht (Nat.ne_of_lt hlt)
      · have hlt := hinv.token m τ hτ
        rw [← hw] at hlt
        exact absurd ht.symm (Nat.ne_of_lt hlt)
      · rfl
    · rcases hdesk v with heq | ⟨rfl, heq⟩ <;> simp only [heq] at hn
      · obtain ⟨σ, hσ, h⟩ := hinv.known v token n hn
        exact ⟨σ, hold hσ, h⟩
      · by_cases ht : token = (l.desks v).nextToken
        · subst ht
          rw [AList.lookup_insert] at hn
          cases hn
          exact ⟨_, List.getElem?_concat_length, rfl, rfl⟩
        · rw [AList.lookup_insert_ne ht] at hn
          obtain ⟨σ, hσ, h⟩ := hinv.known v token n hn
          exact ⟨σ, hold hσ, h⟩
    · rcases hdesk v with heq | ⟨rfl, heq⟩ <;> simp only [heq] at hcall
      · obtain ⟨n, σ, hσ, h⟩ := hinv.about v call hcall
        exact ⟨n, σ, hold hσ, h⟩
      · rcases List.mem_append.mp hcall with hcall | hcall
        · obtain ⟨n, σ, hσ, h⟩ := hinv.about v call hcall
          exact ⟨n, σ, hold hσ, h⟩
        · exact ⟨_, _, List.getElem?_concat_length, rfl, List.mem_singleton.mp hcall ▸ rfl⟩
    · rcases getElem?_append_singleton hσ with hσ | ⟨rfl, rfl⟩
      · have hlook : ((l.setDesk w desk).desks σ.worker).connections.lookup σ.token =
            (l.desks σ.worker).connections.lookup σ.token := by
          have hlt := hinv.token n σ hσ
          rcases hdesk σ.worker with heq | ⟨hw, heq⟩ <;> rw [heq]
          rw [hw] at hlt ⊢
          exact AList.lookup_insert_ne (Nat.ne_of_lt hlt)
        have htrace : ((l.setDesk w desk).desks σ.worker).trace σ.id =
            (l.desks σ.worker).trace σ.id := by
          rcases hdesk σ.worker with heq | ⟨hw, heq⟩ <;> rw [heq]
          rw [hw]
          exact Desk.trace_append_of_ne rfl fun he => hinv.fresh w id hid n σ hσ he.symm
        rcases hinv.told n σ hσ with h | h
        · exact .inl ⟨hlook.trans h.connected, htrace ▸ h.told⟩
        · obtain ⟨calls, ht, heq⟩ := h.told
          exact .inr ⟨hlook.trans h.connected, calls, ht, htrace.trans heq⟩
      · refine .inl ⟨?_, [], ?_⟩ <;> dsimp only <;> rw [setDesk_self]
        · exact AList.lookup_insert ..
        · have htrace : desk.trace id = (l.desks w).trace id ++ [.onAccepted id] :=
            Desk.trace_append_self rfl rfl
          rw [htrace, hnew]
          rfl

theorem Inv.step (hinv : l.Inv) {entry : Entry} (h : l.step entry = some l') : l'.Inv := by
  cases entry with
  | issue => exact hinv.issue h
  | giveUp => exact hinv.giveUp h
  | accept => exact hinv.accept h
  | data => exact hinv.data h
  | close => exact hinv.close h

theorem inv_of_reach {ok : Ledger → Entry → Prop} (h : Reach machine ok l) : l.Inv := by
  refine h.inv Inv ?_ fun hinv _ hs => hinv.step hs
  rintro _ rfl
  constructor <;> simp

end Ledger

end DignusActor.Reactor
