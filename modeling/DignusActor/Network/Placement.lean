import DignusActor.Network.HostRun
import DignusActor.Network.Requests

/-! # Where the streams go

`accept` hands each stream over to the next worker in turn, with the next session id. So the id says
at which worker the session is, and of any number of streams no worker is given more than one beyond
its share (`placed_in_turn`). -/

namespace DignusActor.Reactor

open Machine (Reach)

variable {T : Type} {s s' : State T} {w : Nat}

/-- The stream with this id is one of worker `w`, when it is the turn of worker 0 first. -/
def Turn (workerCount w id : Nat) : Prop := 1 ≤ id ∧ (id - 1) % workerCount = w

/-- The streams are handed over in turn. -/
structure State.Placed (s : State T) : Prop where
  workers : 0 < s.workerCount
  issued : 1 ≤ (s.workers 0).nextSessionId
  next : (s.workers 0).nextWorker = ((s.workers 0).nextSessionId - 1) % s.workerCount
  waiting : ∀ w, ∀ id ∈ (s.workers w).desk.waiting, Turn s.workerCount w id
  sessions : ∀ session ∈ s.sessions, Turn s.workerCount session.worker session.id

/-- No stream comes to a worker. -/
structure Worker.Waits (a b : Worker) : Prop where
  nextSessionId : b.nextSessionId = a.nextSessionId
  nextWorker : b.nextWorker = a.nextWorker
  waiting : ∀ id ∈ b.desk.waiting, id ∈ a.desk.waiting

theorem Worker.Waits.refl (a : Worker) : a.Waits a := ⟨rfl, rfl, fun _ => id⟩

theorem Worker.Waits.trans {a b c : Worker} (h : a.Waits b) (h' : b.Waits c) : a.Waits c :=
  ⟨h'.nextSessionId.trans h.nextSessionId, h'.nextWorker.trans h.nextWorker,
    fun id hid => h.waiting id (h'.waiting id hid)⟩

theorem State.setWorker_waits {worker : Worker} (h : (s.workers w).Waits worker) (v : Nat) :
    (s.workers v).Waits ((s.setWorker w worker).workers v) := by
  by_cases hv : v = w
  · subst hv
    simpa [State.setWorker] using h
  · simpa [State.setWorker, hv] using Worker.Waits.refl (s.workers v)

theorem State.goto_waits {pc : WorkerPc} (h : (s.workers w).pc.streams = [])
    (h' : pc.streams = []) (v : Nat) : (s.workers v).Waits ((s.goto w pc).workers v) := by
  refine State.setWorker_waits ?_ v
  refine ⟨rfl, rfl, fun id hid => ?_⟩
  simpa [Worker.desk, h, h'] using hid

theorem State.close_waits (s : State T) (w token v : Nat) :
    (s.workers v).Waits ((s.close w token).workers v) := by
  unfold State.close
  dsimp only
  split
  · exact .refl _
  · refine State.setWorker_waits (s := s) ?_ v
    exact ⟨rfl, rfl, fun _ => id⟩

theorem State.close_workerCount (s : State T) (w token : Nat) :
    (s.close w token).workerCount = s.workerCount := by
  unfold State.close
  dsimp only
  split <;> rfl

theorem State.Placed.of_waits (h : s.Placed) (hcount : s'.workerCount = s.workerCount)
    (hwaits : ∀ v, (s.workers v).Waits (s'.workers v))
    (hsessions : ∀ session ∈ s'.sessions, session ∈ s.sessions ∨
      session.id ∈ (s.workers session.worker).desk.waiting) : s'.Placed := by
  refine ⟨hcount ▸ h.workers, ?_, ?_, fun w id hid => ?_, fun session hs => ?_⟩
  · rw [(hwaits 0).nextSessionId]
    exact h.issued
  · rw [(hwaits 0).nextSessionId, (hwaits 0).nextWorker, hcount]
    exact h.next
  · rw [hcount]
    exact h.waiting w id ((hwaits w).waiting id hid)
  · rw [hcount]
    rcases hsessions session hs with hs | hs
    · exact h.sessions session hs
    · exact h.waiting _ _ hs

/-- The stream that is accepted goes to the worker whose turn it is. -/
theorem State.Placed.accept (h : s.Placed) :
    (s.acceptStream 0 ((s.workers 0).nextSessionId + 1)).Placed := by
  have hissued := h.issued
  have hnext := h.next
  set s₁ := s.setWorker 0 { s.workers 0 with
    nextSessionId := (s.workers 0).nextSessionId + 1
    nextWorker := ((s.workers 0).nextWorker + 1) % s.workerCount } with hs₁
  have hdesk (v : Nat) : (s₁.workers v).desk.waiting = (s.workers v).desk.waiting := by
    by_cases hv : v = 0
    · subst hv
      simp [hs₁, State.setWorker, Worker.desk]
    · simp [hs₁, State.setWorker, hv]
  have hpush (v : Nat) : ((s.acceptStream 0 ((s.workers 0).nextSessionId + 1)).workers v) =
      if v = (s.workers 0).nextWorker then
        { s₁.workers v with incoming := (s₁.workers v).incoming ++ [(s.workers 0).nextSessionId] }
      else s₁.workers v := by
    split
    · rename_i hv
      subst hv
      exact Function.update_self ..
    · rename_i hv
      exact Function.update_of_ne hv ..
  have hzero : (s₁.workers 0).nextSessionId = (s.workers 0).nextSessionId + 1 ∧
      (s₁.workers 0).nextWorker = ((s.workers 0).nextWorker + 1) % s.workerCount := by
    simp [hs₁, State.setWorker]
  refine ⟨h.workers, ?_, ?_, fun v id hid => ?_, h.sessions⟩
  · rw [hpush]
    split <;> simp only [hzero.1] <;> omega
  · rw [hpush]
    have hturn : (s₁.workers 0).nextWorker =
        ((s₁.workers 0).nextSessionId - 1) % s.workerCount := by
      rw [hzero.1, hzero.2, hnext, Nat.mod_add_mod]
      congr 1
      omega
    split <;> exact hturn
  · rw [hpush] at hid
    split at hid
    · rename_i hv
      have hid : id ∈ (s₁.workers v).desk.waiting ∨ id = (s.workers 0).nextSessionId := by
        simpa [Worker.desk, or_assoc] using hid
      rcases hid with hid | rfl
      · exact h.waiting v id (hdesk v ▸ hid)
      · exact ⟨hissued, hnext.symm.trans hv.symm⟩
    · exact h.waiting v id (hdesk v ▸ hid)

theorem WorkerMove.placed {overflowChecks : Bool} {outcome : Outcome}
    (h : WorkerMove overflowChecks s w outcome s')
    (hlistener : (s.workers w).listener = true → w = 0)
    (hok : NoWrap overflowChecks s (.worker w outcome)) (hp : s.Placed) : s'.Placed := by
  have hsame : ∀ session ∈ s.sessions, session ∈ s.sessions ∨
      session.id ∈ (s.workers session.worker).desk.waiting := fun _ => .inl
  cases h with
  | stay => exact hp
  | go events pc hgoes =>
    refine hp.of_waits rfl (State.setWorker_waits ⟨rfl, rfl, fun id hid => ?_⟩) hsame
    simpa [Worker.desk, hgoes.streams, hgoes.streams'] using hid
  | panic =>
    refine hp.of_waits rfl (State.setWorker_waits ⟨rfl, rfl, fun id hid => ?_⟩) hsame
    exact List.mem_append_right _ hid
  | issue next hout hpc hl hnext =>
    obtain rfl := increment_eq hnext (by simpa [NoWrap, Action.overflows, hout, hpc, hl] using hok)
    obtain rfl := hlistener hl
    exact hp.accept
  | takeIncoming hpc =>
    refine hp.of_waits rfl (State.setWorker_waits ⟨rfl, rfl, fun id hid => ?_⟩) hsame
    simpa [Worker.desk, WorkerPc.streams, hpc] using hid
  | register id streams next ok hout hpc =>
    have hset (v : Nat) : (s.workers v).Waits ((s.setWorker w { s.workers w with
        nextToken := next, pc := .incoming streams }).workers v) := by
      refine State.setWorker_waits ?_ v
      refine ⟨rfl, rfl, fun i hi => ?_⟩
      simp only [Worker.desk, WorkerPc.streams, hpc, List.cons_append] at hi ⊢
      exact List.mem_cons_of_mem _ hi
    cases ok with
    | false => exact hp.of_waits rfl hset hsame
    | true =>
      refine hp.of_waits rfl (fun v => (hset v).trans ?_) fun session hmem => ?_
      · refine State.setWorker_waits ?_ v
        exact ⟨rfl, rfl, fun _ hid => hid⟩
      · rcases List.mem_append.mp hmem with hmem | hmem
        · exact .inl hmem
        · cases List.mem_singleton.mp hmem
          refine .inr ?_
          simp [Worker.desk, WorkerPc.streams, hpc]
  | takeWrites hpc | takeCloses hpc =>
    refine hp.of_waits rfl (State.setWorker_waits ⟨rfl, rfl, fun id hid => ?_⟩) hsame
    simpa [Worker.desk, WorkerPc.streams, hpc] using hid
  | write n count pc hgoes =>
    refine hp.of_waits rfl (fun v => ?_) hsame
    exact State.goto_waits (s := s.write n count) hgoes.streams hgoes.streams' v
  | data token n data pc hlookup hgoes =>
    refine hp.of_waits rfl (fun v => ?_) hsame
    refine .trans (State.setWorker_waits ?_ v) (State.goto_waits ?_ hgoes.streams' v)
    · exact ⟨rfl, rfl, fun _ => id⟩
    · simpa [State.onData, State.setWorker] using hgoes.streams
  | close token pc hgoes =>
    refine hp.of_waits (s.close_workerCount w token) (fun v => ?_) ?_
    · refine (s.close_waits w token v).trans (State.goto_waits ?_ hgoes.streams' v)
      rw [State.close_pc]
      exact hgoes.streams
    · intro session hmem
      rw [State.goto, State.setWorker, State.close_sessions] at hmem
      exact .inl hmem

section
variable [DecidableEq T] {overflowChecks : Bool} {workerCount maxPendingSend : Nat}

theorem callerStep_waits {t : T} (h : callerStep s t = some s') (v : Nat) :
    (s.workers v).Waits (s'.workers v) := by
  have hleaves := callerStep_leaves h v
  generalize s'.workers v = worker at hleaves
  cases hleaves <;> exact ⟨rfl, rfl, fun _ => id⟩

theorem State.Placed.step {a : Action T} (hp : s.Placed) (hhost : s.HostInv)
    (hok : NoWrap overflowChecks s a) (h : step overflowChecks s a = some s') : s'.Placed := by
  have hbegin {t : T} {pc : CallerPc} (h : s.begin t pc = some s') : s'.Placed := by
    rw [State.begin_eq h]
    exact hp.of_waits rfl (fun _ => .refl _) fun _ => .inl
  cases a with
  | worker w outcome =>
    simp only [Reactor.step] at h
    split at h
    · exact (workerStep_move h).placed (hhost.listener w) hok hp
    · cases h
  | send | close =>
    simp only [Reactor.step] at h
    split at h
    · exact hbegin h
    · cases h
  | shutdown => exact hbegin h
  | call t =>
    refine hp.of_waits (callerStep_workerCount h) (callerStep_waits h) fun session hmem => ?_
    rw [(callerStep_called h).1] at hmem
    exact .inl hmem

theorem placed_of_reach
    (h : Reach (machine T overflowChecks workerCount maxPendingSend) (NoWrap overflowChecks) s) :
    s.Placed := by
  refine h.inv_of State.HostInv State.Placed hostInv_of_reach ?_ ?_
  · rintro _ rfl
    refine ⟨Nat.le_max_right .., Nat.le_refl 1, ?_, fun _ _ hid => ?_, nofun⟩
    · exact (Nat.zero_mod _).symm
    · cases hid
  · intro s a s' hhost hp hok hs
    exact hp.step hhost hok hs

omit [DecidableEq T] in
/-- Of the first `n` streams, one in `count` is in the turn of a worker. -/
theorem length_turn_le {count n : Nat} {ids : List Nat} (hcount : 0 < count) (hnodup : ids.Nodup)
    (h : ∀ id ∈ ids, Turn count w id ∧ id ≤ n) : ids.length ≤ (n + (count - 1)) / count := by
  have hmaps (id : Nat) (hid : id ∈ ids) : (id - 1) / count < (n + (count - 1)) / count := by
    obtain ⟨⟨hpos, -⟩, hle⟩ := h id hid
    have hround : (n + (count - 1)) / count = (n - 1) / count + 1 := by
      rw [← Nat.add_div_right _ hcount]
      congr 1
      omega
    rw [hround, Nat.lt_succ_iff]
    exact Nat.div_le_div_right (by omega)
  have hinj (id : Nat) (hid : id ∈ ids) (id' : Nat) (hid' : id' ∈ ids)
      (heq : (id - 1) / count = (id' - 1) / count) : id = id' := by
    obtain ⟨⟨hpos, hmod⟩, -⟩ := h id hid
    obtain ⟨⟨hpos', hmod'⟩, -⟩ := h id' hid'
    have hsplit := Nat.div_add_mod (id - 1) count
    rw [heq, hmod, ← hmod', Nat.div_add_mod] at hsplit
    omega
  rw [← List.toFinset_card_of_nodup hnodup, ← Finset.card_range ((n + (count - 1)) / count)]
  refine Finset.card_le_card_of_injOn (fun id => (id - 1) / count) ?_ ?_
  · intro id hid
    exact Finset.mem_coe.mpr (Finset.mem_range.mpr (hmaps id (List.mem_toFinset.mp hid)))
  · intro id hid id' hid' heq
    exact hinj id (List.mem_toFinset.mp hid) id' (List.mem_toFinset.mp hid') heq

omit [DecidableEq T] in
theorem Ledger.Inv.nodup_ids {l : Ledger} (h : l.Inv) : (l.sessions.map (·.id)).Nodup := by
  rw [List.nodup_iff_getElem?_ne_getElem?]
  intro i j hij hj heq
  rw [List.length_map] at hj
  rw [List.getElem?_map, List.getElem?_map, List.getElem?_eq_getElem hj,
    List.getElem?_eq_getElem (Nat.lt_trans hij hj)] at heq
  have hids := h.ids i j _ _ (List.getElem?_eq_getElem (Nat.lt_trans hij hj))
    (List.getElem?_eq_getElem hj) (Option.some.inj heq)
  exact Nat.ne_of_lt hij hids

/-- **Streams are placed in turn.** As long as no counter wraps, the streams that wait at a worker
and those that it has accepted are the ones whose ids are in its turn; so of all the streams that
were accepted, no worker has admitted more than its share, rounded up. -/
theorem placed_in_turn
    (h : Reach (machine T overflowChecks workerCount maxPendingSend) (NoWrap overflowChecks) s)
    (w : Nat) :
    (∀ id ∈ (s.workers w).incoming, Turn s.workerCount w id) ∧
    (∀ id, .onAccepted id ∈ (s.workers w).calls → Turn s.workerCount w id) ∧
    (s.sessions.filter (·.worker == w)).length ≤
      ((s.workers 0).nextSessionId - 1 + (s.workerCount - 1)) / s.workerCount := by
  have hp := placed_of_reach h
  have hl := Ledger.inv_of_reach (ledger_reach h)
  refine ⟨fun id hid => hp.waiting w id (List.mem_append_right _ hid), fun id hid => ?_, ?_⟩
  · obtain ⟨n, session, hn, rfl, rfl⟩ := hl.about w _ hid
    exact hp.sessions session (List.mem_of_getElem? hn)
  · rw [← List.length_map (·.id)]
    refine length_turn_le (w := w) hp.workers ?_ fun id hid => ?_
    · exact hl.nodup_ids.sublist (List.filter_sublist.map _)
    · obtain ⟨session, hmem, rfl⟩ := List.mem_map.mp hid
      obtain ⟨hmem, hw⟩ := List.mem_filter.mp hmem
      obtain ⟨n, hn⟩ := List.getElem?_of_mem hmem
      have hlt : session.id < (s.workers 0).nextSessionId := hl.below n session hn
      exact ⟨beq_iff_eq.mp hw ▸ hp.sessions session hmem, by omega⟩

end

/-- Three streams for two workers: the first worker has admitted the third. -/
def wrappedTurn : State Unit :=
  ((machine Unit false 2 64).run (buildPool Unit 2 64)
    ([Action.worker 0 (.events [⟨0, true, false⟩, ⟨1, true, false⟩]), Action.worker 0 .none,
        Action.worker 0 .accepted, Action.worker 0 .accepted, Action.worker 0 .accepted,
        Action.worker 0 .wouldBlock] ++
      List.replicate 3 (Action.worker 0 .none) ++
      List.replicate 2 (Action.worker 0 (.registered true)))).get (by decide +kernel)

theorem placed_in_turn_wrappedTurn :
    (wrappedTurn.workers 0).calls = [.onAccepted 1, .onAccepted 3] ∧
      (wrappedTurn.workers 1).incoming = [2] ∧ Turn 2 1 2 ∧ Turn 2 0 3 := by
  have hcalls : (wrappedTurn.workers 0).calls = [.onAccepted 1, .onAccepted 3] := by
    decide +kernel
  have hincoming : (wrappedTurn.workers 1).incoming = [2] := by decide +kernel
  have hreach : Reach (machine Unit false 2 64) (NoWrap false) wrappedTurn :=
    .get rfl (by decide +kernel) _
  refine ⟨hcalls, hincoming, ?_, ?_⟩
  · exact (placed_in_turn hreach 1).1 2 (hincoming ▸ List.mem_singleton_self 2)
  · exact (placed_in_turn hreach 0).2.1 3 (hcalls ▸ List.mem_cons_of_mem _ List.mem_cons_self)

end DignusActor.Reactor
