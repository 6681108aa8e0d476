import DignusActor.System.Released

/-! # A shutdown that succeeds has killed every actor once

All that a shutdown sees is `live_count`. The count is zero only when no reservation is outstanding,
so every actor whose spawn had returned has been given back, after its `on_kill` returned
(`killed_of_shutdown`). -/

namespace DignusActor.ActorSystem

open Machine (Reach)

variable {k : Nat} {T M F A : Type}

/-- The slot of reservation `n` has been given back. -/
def State.Gone (s : State k T M F A) (n : Nat) : Prop :=
  n < s.registry.mem.data.reservations.length ∧ n ∉ s.registry.mem.data.outstanding

/-- The first `began` spawns that returned are of actors that have been given back. -/
structure State.Emptied (s : State k T M F A) (began : Nat) : Prop where
  le : began ≤ s.returned.length
  gone : ∀ n ∈ s.returned.take began, s.Gone n

namespace CallerPc

/-- The shutdown in progress. -/
def shutdown : CallerPc k M A → Option (Shutdown k)
  | .disposeSwap call | .askStop call | .snapshotting call | .killing call _
  | .killRunner call _ _ | .counting call | .counted call _ | .stopDispatcher call _
  | .takeHandle call _ | .join call _ => some call
  | _ => none

/-- The shutdown that has seen a count of zero. -/
def emptied : CallerPc k M A → Registry.Pc Nat → Option (Shutdown k)
  | .counting call, .countUnlock 0 | .counted call 0, _ | .stopDispatcher call _, _
  | .takeHandle call _, _ | .join call _, _ => some call
  | _, _ => none

theorem emptied_counting {call call' : Shutdown k} {pc : Registry.Pc Nat}
    (h : (CallerPc.counting call : CallerPc k M A).emptied pc = some call') :
    call' = call ∧ pc = .countUnlock 0 := by
  cases pc with
  | countUnlock live =>
    cases live with
    | zero => exact ⟨(Option.some.inj h).symm, rfl⟩
    | succ => cases h
  | _ => cases h

end CallerPc

structure ShutdownInv (s : State k T M F A) : Prop where
  returned : ∀ n ∈ s.returned, n < s.registry.mem.data.reservations.length
  began : ∀ t call, (s.callers t).shutdown = some call → call.began ≤ s.returned.length
  emptied : ∀ t call, (s.callers t).emptied (s.registry.pcs (.caller t)) = some call →
    s.Emptied call.began
  succeeded : ∀ began ∈ s.succeeded, s.Emptied began

section
variable [DecidableEq T] [DecidableEq A] {poisons : Bool} {s s' : State k T M F A}
  {u : Thread k T} {t : T} {pc : CallerPc k M A}

theorem Move.gone (h : Move poisons s s' u) (hinv : Registry.Inv s.registry) {n : Nat}
    (hn : s.Gone n) : s'.Gone n := by
  refine ⟨Nat.lt_of_lt_of_le hn.1 (h.grows hinv).length, fun hn' => ?_⟩
  rcases h.registry with hr | ⟨b, hr, -⟩
  · exact hn.2 (hr ▸ hn')
  · rcases Registry.step_mem_outstanding hr hn' with hout | hle
    · exact hn.2 hout
    · exact Nat.not_lt.mpr hle hn.1

theorem Move.emptied (h : Move poisons s s' u) (hinv : Registry.Inv s.registry) {began : Nat}
    (hb : s.Emptied began) : s'.Emptied began := by
  obtain ⟨l, hl, -⟩ := h.returned
  refine ⟨?_, ?_⟩
  · rw [hl, List.length_append]
    exact Nat.le_add_right_of_le hb.le
  · rw [hl, List.take_append_of_le_length hb.le]
    exact fun n hn => h.gone hinv (hb.gone n hn)

theorem CallMove.shutdown (h : CallMove poisons s t pc s') (hpc : s.callers t = pc)
    {call : Shutdown k} (hc : (s'.callers t).shutdown = some call) :
    pc.shutdown = some call ∨ call.began = s.returned.length := by
  cases h with
  | beginShutdown =>
    simp only [State.setCaller, Function.update_self, CallerPc.shutdown, Option.some.injEq] at hc
    exact .inr (hc ▸ rfl)
  | reserving | committing | snapshotting | killRunner | counting | countRemaining | requesting
  | inRunner =>
    change (s.callers t).shutdown = some call at hc
    rw [hpc] at hc
    exact .inl hc
  | disposeAgain | dispose | askStop | snapshot | killed | kill | killReturn | counted | noneLive
  | countAgain | stop | takeHandle | noHandle | join =>
    simp only [State.setCaller, State.setActor, Function.update_self] at hc
    exact .inl hc
  | _ => simp [State.setCaller, State.setActor, CallerPc.shutdown] at hc

/-- A shutdown sees a count of zero when it reads `alloc.live`. -/
theorem CallMove.emptied (h : CallMove poisons s t pc s') (hpc : s.callers t = pc)
    {call : Shutdown k}
    (hc : (s'.callers t).emptied (s'.registry.pcs (.caller t)) = some call) :
    pc.emptied (s.registry.pcs (.caller t)) = some call ∨
      pc.shutdown = some call ∧ s.registry.pcs (.caller t) = .countRead ∧
        s.registry.mem.live = 0 := by
  cases h with
  | counting call' hr =>
    change (s.callers t).emptied _ = _ at hc
    rw [hpc] at hc
    obtain ⟨rfl, hunlock⟩ := CallerPc.emptied_counting hc
    obtain ⟨hread, hlive⟩ := Registry.step_countUnlock hr hunlock
    exact .inr ⟨rfl, hread, hlive⟩
  | counted call' live hr hpcs =>
    simp only [State.setCaller, Function.update_self] at hc
    have hunlock := Registry.step_counted hr hpcs
    cases live with
    | zero => exact .inl (by rw [hunlock]; exact hc)
    | succ => simp [CallerPc.emptied] at hc
  | disposeAgain _ _ hr | killed _ hr | countAgain _ _ hr =>
    cases Registry.step_move hr
    simp [State.setCaller, Registry.State.setPc, CallerPc.emptied] at hc
  | noneLive | stop | takeHandle | noHandle | join =>
    simp only [State.setCaller, Function.update_self] at hc
    exact .inl hc
  | reserving | committing | snapshotting | killRunner | countRemaining | requesting | inRunner =>
    change (s.callers t).emptied _ = _ at hc
    rw [hpc] at hc
    cases hc
  | _ => simp [State.setCaller, State.setActor, CallerPc.emptied] at hc

theorem CallMove.succeeded (h : CallMove poisons s t pc s') {began : Nat}
    (hb : began ∈ s'.succeeded) : began ∈ s.succeeded ∨
      ∃ call : Shutdown k, call.began = began ∧ ∀ rpc, pc.emptied rpc = some call := by
  cases h with
  | shutdownOk call i =>
    rcases List.mem_append.mp hb with hb | hb
    · exact .inl hb
    · exact .inr ⟨call, (List.mem_singleton.mp hb).symm, fun _ => rfl⟩
  | _ => exact .inl hb

omit [DecidableEq T] [DecidableEq A] in
/-- No reservation is outstanding when a shutdown reads a count of zero. -/
theorem ShutdownInv.emptied_of_live (hsh : ShutdownInv s) (hinv : Registry.Inv s.registry)
    (hcount : Registry.Counted s.registry) {call : Shutdown k}
    (hpc : (s.callers t).shutdown = some call)
    (hread : s.registry.pcs (.caller t) = .countRead) (hlive : s.registry.mem.live = 0) :
    s.Emptied call.began := by
  have hin : (s.registry.pcs (.caller t)).inAlloc = true := by
    rw [hread]
    rfl
  have hout := hcount.exact_of_inAlloc hinv hin (by simp [hread])
  rw [hlive] at hout
  refine ⟨hsh.began t call hpc, fun n hn => ⟨hsh.returned n (List.mem_of_mem_take hn), ?_⟩⟩
  rw [List.length_eq_zero_iff.mp hout.symm]
  exact List.not_mem_nil

theorem ShutdownInv.step (hsh : ShutdownInv s) (hl : Linked s) (hinv : Registry.Inv s.registry)
    (hcount : Registry.Counted s.registry) (h : Move poisons s s' u) : ShutdownInv s' where
  returned n hn := by
    refine Nat.lt_of_lt_of_le ?_ (h.grows hinv).length
    obtain ⟨l, hret, hnew⟩ := h.returned
    rw [hret] at hn
    rcases List.mem_append.mp hn with hn | hn
    · exact hsh.returned n hn
    · obtain ⟨t, -, hpc⟩ := hnew n hn
      exact (hinv.thread (.caller t)).known n (by rw [hl.commitUnlock hpc]; rfl)
  began t call hc := by
    obtain ⟨l, hret, -⟩ := h.returned
    rw [hret, List.length_append]
    refine Nat.le_add_right_of_le ?_
    cases h with
    | caller t' hpc h =>
      by_cases ht : t = t'
      · subst ht
        rcases h.shutdown hpc hc with hc | hc
        · exact hsh.began t call (hpc ▸ hc)
        · exact Nat.le_of_eq hc
      · rw [h.callers_of_ne ht] at hc
        exact hsh.began t call hc
    | worker d h =>
      rw [h.callers] at hc
      exact hsh.began t call hc
  emptied t call hc := by
    refine h.emptied hinv ?_
    cases h with
    | caller t' hpc h =>
      by_cases ht : t = t'
      · subst ht
        rcases h.emptied hpc hc with hc | ⟨hcall, hread, hlive⟩
        · exact hsh.emptied t call (hpc ▸ hc)
        · exact hsh.emptied_of_live hinv hcount (hpc ▸ hcall) hread hlive
      · rw [h.callers_of_ne ht, (Move.caller t' hpc h).pcs_of_ne fun heq =>
          ht (Thread.caller.inj heq)] at hc
        exact hsh.emptied t call hc
    | worker d h =>
      rw [h.callers, (Move.worker d h).pcs_of_ne (v := .caller t) nofun] at hc
      exact hsh.emptied t call hc
  succeeded began hb := by
    refine h.emptied hinv ?_
    cases h with
    | caller t hpc h =>
      rcases h.succeeded hb with hb | ⟨call, rfl, hcall⟩
      · exact hsh.succeeded began hb
      · exact hsh.emptied t call (hpc ▸ hcall _)
    | worker d h =>
      rw [h.sameCalls.succeeded] at hb
      exact hsh.succeeded began hb

end

section
variable [DecidableEq T] [DecidableEq A] {poisons : Bool} {capacity : Nat} {s : State k T M F A}
  {ok : State k T M F A → Action k T M F A → Prop}

theorem shutdownInv_of_reach (h : Reach (machine k T M F A poisons capacity) ok s) :
    ShutdownInv s := by
  refine h.inv_of
    (fun s => Linked s ∧ Registry.Inv s.registry ∧ Registry.Counted s.registry) ShutdownInv
    (fun h => ⟨linked_of_reach h, registry_inv h, Registry.counted_of_reach (registry_reach h)⟩) ?_
    fun ⟨hl, hinv, hcount⟩ hsh _ hs => hsh.step hl hinv hcount (step_move hs)
  rintro _ rfl
  exact ⟨nofun, fun _ _ => nofun, fun _ _ => nofun, nofun⟩

/-- For every run of the system, with any dispatchers, spawns, posts, kills, wakes, panics and
shutdowns: every actor whose spawn had returned when a `dispose` or a `shutdown_timeout` that
succeeded was called has had `on_kill` called once, and the call has returned; and no actor ever has
it called twice. -/
theorem killed_of_shutdown (h : Reach (machine k T M F A poisons capacity) Machine.free s) :
    (∀ began ∈ s.succeeded, ∀ n ∈ s.returned.take began, ∃ actor, s.actors n = some actor ∧
      actor.run.mem.onKillStarts = 1 ∧ actor.run.mem.onKillReturns = 1) ∧
    ∀ n actor, s.actors n = some actor → actor.run.mem.onKillStarts ≤ 1 := by
  have hl := linked_of_reach h
  refine ⟨fun began hb n hn => ?_, fun n actor ha => (hl.finalize n actor ha).once.2⟩
  obtain ⟨hlt, hout⟩ := ((shutdownInv_of_reach h).succeeded began hb).gone n hn
  obtain ⟨actor, ha, hret⟩ := (released_of_reach h).returned n hlt hout
  have honce := (hl.finalize n actor ha).once
  exact ⟨actor, ha, by omega, by omega⟩

/-- One actor is spawned, and the system disposed of: the caller kills the actor, the dispatcher
finalizes it and leaves its loop, and `dispose` returns. -/
def disposed : State 1 Nat Nat Nat Nat :=
  ((machine 1 Nat Nat Nat Nat true 4).run (withCapacity 1 Nat Nat Nat Nat 4)
    ([Action.spawn 0 ⟨none, none, 2, true⟩] ++ List.replicate 13 (Action.call 0 false) ++
      [Action.shutdown 0 false none] ++ List.replicate 13 (Action.call 0 false) ++
      [Action.pick (Fin.last 0) 0] ++ List.replicate 21 (Action.execute (Fin.last 0) .done) ++
      List.replicate 7 (Action.call 0 false) ++ [Action.exit (Fin.last 0)] ++
      List.replicate 2 (Action.call 0 false))).get rfl

theorem killed_of_shutdown_disposed : disposed.succeeded = [1] ∧ disposed.returned = [0] ∧
    (∀ began ∈ disposed.succeeded, ∀ n ∈ disposed.returned.take began,
      ∃ actor, disposed.actors n = some actor ∧ actor.run.mem.onKillStarts = 1 ∧
        actor.run.mem.onKillReturns = 1) ∧
    ∀ n actor, disposed.actors n = some actor → actor.run.mem.onKillStarts ≤ 1 :=
  ⟨rfl, rfl, killed_of_shutdown (.get_free rfl rfl)⟩

end

end DignusActor.ActorSystem
