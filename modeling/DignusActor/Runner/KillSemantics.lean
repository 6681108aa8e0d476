import DignusActor.Runner.Delivery
import DignusActor.Runner.Finalize
import DignusActor.Runner.Pending

/-! # What a kill lets through

With one dispatcher thread. Once the lifecycle has left `RUNNING` no check passes any more, so the
only `on_receive` still to come is that of a mail already past its check (`step_passing`). The
thread that swaps to `STOPPED` is the one that would poll or receive, and it has no future armed
then, so nothing of the actor runs after `on_kill` has started (`StopInv.halted`); and its drain
takes out every mail that was published before (`Drained`). -/

namespace DignusActor.MpscBoundedQueue

variable {P C M : Type} {c : C} {s s' : State P C M}

/-- Every position below `n` is published. -/
structure State.Arrived (s : State P C M) (n : Nat) : Prop where
  claimed : n ≤ s.claimed.length
  published : ∀ t p, (s.producers t).held = some p → n ≤ p

theorem Inv.length_dequeued (H : Inv c s) : s.dequeued.length = s.queue.consumerIndex := by
  rw [H.dequeued, List.length_take, s.length_accepted]
  exact Nat.min_eq_left H.consumed

variable [DecidableEq P]

/-- A producer comes to hold a position by claiming the next one. -/
theorem State.Arrived.producerStep {n : Nat} {t : P} (h : s.Arrived n) (H : Inv c s)
    (hs : MpscBoundedQueue.producerStep s t = some s') : s'.Arrived n := by
  have hself {pc : ProducerPc M} (hpc : ∀ p, pc.held = some p → n ≤ p) (u : P) (p : Nat)
      (hu : (Function.update s.producers t pc u).held = some p) : n ≤ p := by
    by_cases hut : u = t
    · subst hut
      rw [Function.update_self] at hu
      exact hpc p hu
    · rw [Function.update_of_ne hut] at hu
      exact h.published u p hu
  unfold MpscBoundedQueue.producerStep at hs
  cases hpc : s.producers t with
  | idle | returned =>
    rw [hpc] at hs
    cases hs
  | loadIndex item =>
    rw [hpc] at hs
    cases hs
    exact ⟨h.claimed, hself nofun⟩
  | loadSequence p item =>
    rw [hpc] at hs
    simp only at hs
    split at hs
    · cases hs
      exact ⟨h.claimed, hself nofun⟩
    · split at hs <;> cases hs <;> exact ⟨h.claimed, hself nofun⟩
  | compareExchange p item =>
    rw [hpc] at hs
    simp only at hs
    split at hs <;> cases hs
    · rename_i hindex
      refine ⟨?_, hself fun q hq => ?_⟩
      · simp only [List.length_append]
        exact Nat.le_add_right_of_le h.claimed
      · cases hq
        exact h.claimed.trans_eq (H.index.symm.trans hindex)
    · exact ⟨h.claimed, hself nofun⟩
  | write p item =>
    rw [hpc] at hs
    cases hs
    refine ⟨h.claimed, hself fun q hq => ?_⟩
    cases hq
    exact h.published t p (by rw [hpc]; rfl)
  | publish p =>
    rw [hpc] at hs
    cases hs
    exact ⟨h.claimed, hself nofun⟩

variable [DecidableEq C]

/-- `try_dequeue` returns `None` only at a position that is not published. -/
theorem State.Arrived.le_of_none {n : Nat} {a : Action P C M} (h : s.Arrived n) (H : Inv c s)
    (ha : a = .consumer c ∨ a = .dequeue c) (hs : step s a = some s')
    (hr : s'.consumers c = .returned none) : n ≤ s.dequeued.length := by
  rw [H.length_dequeued]
  rcases ha with rfl | rfl
  · have hok := H.consumer
    simp only [step, consumerStep] at hs
    cases hpc : s.consumers c with
    | dequeueSequence p =>
      rw [hpc] at hok
      obtain ⟨hp, hrel, -⟩ := hok
      simp only [hpc] at hs
      split at hs
      · cases hs
        simp [State.setConsumer] at hr
      · rename_i hd
        have htwo := H.shape.two_le
        rcases H.window p (by omega) (by omega) with hwin | ⟨-, -, t, ht⟩ | hwin
        · exact h.claimed.trans (hwin.1.trans_eq hp)
        · exact (h.published t p ht).trans_eq hp
        · exact absurd hwin.2.1 (by omega)
    | read p =>
      simp only [hpc] at hs
      obtain ⟨item, -, rfl⟩ := Option.map_eq_some_iff.mp hs
      simp [State.setConsumer] at hr
    | idle | returned | peeked =>
      simp only [hpc] at hs
      cases hs
    | _ =>
      simp only [hpc] at hs
      cases hs
      simp [State.setConsumer] at hr
  · simp only [step] at hs
    split at hs <;> cases hs
    simp [State.setConsumer] at hr

end DignusActor.MpscBoundedQueue

namespace DignusActor.ActorRunner

open Machine (Reach)

variable {T M F : Type}

/-- Where the worker can be once the actor is `STOPPED`. -/
def WorkerPc.Halted : WorkerPc M F → Prop
  | .idle | .dead | .loadActive _ | .loadLifecycle | .drain | .clearSlot | .clearActive
  | .clearUnmark | .callOnKill | .onKill | .onFinalize => True
  | _ => False

structure StopInv (s : State Unit T M F) : Prop where
  mailbox : MpscBoundedQueue.Inv () s.mem.mailbox
  calls : CallOk (s.mem.mailbox.consumers ()) (s.workers ())
  finalizing : (s.workers ()).Finalizing → s.mem.lifecycle = .stopped
  delivered : s.mem.delivered ++ (s.workers ()).passing <+: s.mem.mailbox.dequeued
  handled : s.mem.lifecycle = .running →
    s.mem.delivered ++ (s.workers ()).taken = s.mem.mailbox.dequeued
  halted : s.mem.lifecycle = .stopped → (s.workers ()).Halted ∧ s.mem.slot = none

section
variable [DecidableEq T] {t : T} {o : Outcome F} {m m' : Shared Unit T M F} {pc pc' : WorkerPc M F}

theorem workerStep_halted (hp : PollPhase m pc)
    (hhalted : m.lifecycle = .stopped → pc.Halted ∧ m.slot = none)
    (h : workerStep () () m o pc = some (m', pc')) (hstop : m'.lifecycle = .stopped) :
    pc'.Halted ∧ m'.slot = none := by
  cases workerStep_move h with
  | finalizeSwap => exact ⟨trivial, hp.1⟩
  | active origin hactive =>
    have hslot := (hhalted hstop).2
    rw [PollPhase, hslot, hactive] at hp
    cases hp
  | killRunning => cases hstop
  | lifecycleKilling hl | lifecycleRunning hl =>
    rw [hl] at hstop
    cases hstop
  | clearSlot => exact ⟨trivial, rfl⟩
  | inactive | lifecycleStopped | drain | drainNone | clearActive | clearUnmark
  | callOnKill | onKill | onKillPanic | onFinalize | onFinalizePanic =>
    exact ⟨trivial, (hhalted hstop).2⟩
  | _ => exact (hhalted hstop).1.elim

variable {s s' : State Unit T M F} {a : Action Unit T M F}

theorem StopInv.step (H : StopInv s) (hp : PollInv s) (hs : ActorRunner.step () s a = some s') :
    StopInv s' := by
  cases step_move hs with
  | post | kill | wake | stop =>
    exact ⟨H.mailbox, H.calls, H.finalizing, H.delivered, H.handled, H.halted⟩
  | @caller t m' pc' h =>
    obtain ⟨⟨hcons, hdeq⟩, -⟩ := callerStep_mailbox h
    obtain ⟨hslot, -, -, hdel, -⟩ := callerStep_frame h
    have hlife {l : Lifecycle} (hl : l ≠ .killing) (h' : m'.lifecycle = l) :
        s.mem.lifecycle = l := by
      rcases callerStep_lifecycle h with heq | ⟨-, heq, -⟩
      · exact heq.symm.trans h'
      · exact absurd (h'.symm.trans heq) hl
    refine ⟨callerStep_mailbox_inv h H.mailbox, ?_, fun hfin => ?_, ?_, fun hrun => ?_,
      fun hstop => ?_⟩ <;> dsimp only at *
    · simpa only [hcons] using H.calls
    · rcases callerStep_lifecycle h with heq | ⟨heq, -⟩
      · exact heq.trans (H.finalizing hfin)
      · cases heq.symm.trans (H.finalizing hfin)
    · simpa only [hdel, hdeq] using H.delivered
    · simpa only [hdel, hdeq] using H.handled (hlife nofun hrun)
    · simpa only [hslot] using H.halted (hlife nofun hstop)
  | pick hidle hq =>
    have hdel := H.delivered
    have hhandled := H.handled
    have hcalls := H.calls
    rw [hidle] at hdel hhandled hcalls
    exact ⟨H.mailbox, hcalls, False.elim, hdel, hhandled,
      fun hstop => ⟨trivial, (H.halted hstop).2⟩⟩
  | @worker _ o m' pc' h =>
    have hrunning (hrun : m'.lifecycle = .running) : s.mem.lifecycle = .running := by
      rcases workerStep_lifecycle h with heq | ⟨heq, -⟩ | ⟨-, heq, -⟩
      · exact heq.symm.trans hrun
      · exact heq
      · cases hrun.symm.trans heq
    exact ⟨workerStep_mailbox_inv h H.mailbox, (workerStep_calls h H.calls).2,
      workerStep_finalizing h H.finalizing,
      workerStep_delivered h H.calls H.delivered H.handled,
      fun hrun => workerStep_handled h H.calls H.finalizing hrun H.handled,
      workerStep_halted hp.phase H.halted h⟩

omit [DecidableEq T] in
theorem StopInv.initial {slotSize capacity : Nat} {q : MpscBoundedQueue M}
    (hq : MpscBoundedQueue.new M slotSize capacity = some q) : StopInv (initial Unit T F q) where
  mailbox := .initial () hq
  calls := ⟨id, id⟩
  finalizing := False.elim
  delivered := List.prefix_rfl
  handled _ := rfl
  halted := nofun

theorem stopInv_of_reach {capacity : Nat}
    (h : (machine T M F () capacity).Reach Machine.free s) : StopInv s :=
  h.inv_of PollInv StopInv pollInv_of_reach (fun ⟨_, hq, hs⟩ => hs ▸ .initial hq)
    fun hp H _ hs => H.step hp hs

/-! ## What a kill lets through -/

/-- Out of `RUNNING`, `on_receive` is called for the mail that has passed its check and for no
other. -/
theorem step_passing (hl : s.mem.lifecycle ≠ .running) (hs : ActorRunner.step () s a = some s') :
    s'.mem.lifecycle ≠ .running ∧ s'.mem.delivered ++ (s'.workers ()).passing =
      s.mem.delivered ++ (s.workers ()).passing := by
  cases step_move hs with
  | post | kill | wake | stop => exact ⟨hl, rfl⟩
  | caller h =>
    obtain ⟨-, -, -, hdel, -⟩ := callerStep_frame h
    refine ⟨?_, by rw [← hdel]⟩
    rcases callerStep_lifecycle h with heq | ⟨heq, -⟩
    · exact heq ▸ hl
    · exact absurd heq hl
  | pick hidle =>
    rw [hidle]
    exact ⟨hl, rfl⟩
  | @worker _ o m' pc' h =>
    simp only [Function.update_self]
    generalize s.workers () = pc at h
    refine ⟨?_, ?_⟩
    · rcases workerStep_lifecycle h with heq | ⟨heq, -⟩ | ⟨-, heq, -⟩
      · exact heq ▸ hl
      · exact absurd heq hl
      · exact heq ▸ nofun
    · cases workerStep_move h with
      | callReceive mail => simp [WorkerPc.passing]
      | checkRunning mail hrun => exact absurd hrun hl
      | dropEntry site | pushEntry site => cases site <;> rfl
      | _ => rfl

omit [DecidableEq T] in
theorem StopInv.passing_eq_nil (H : StopInv s) (hl : s.mem.lifecycle = .stopped) :
    (s.workers ()).passing = [] := by
  have hhalted := (H.halted hl).1
  generalize s.workers () = pc at hhalted
  cases pc <;> first | rfl | exact hhalted.elim

theorem step_halted (hl : s.mem.lifecycle = .stopped) (hs : ActorRunner.step () s a = some s') :
    s'.mem.lifecycle = .stopped := by
  cases step_move hs with
  | post | kill | wake | stop | pick => exact hl
  | caller h =>
    rcases callerStep_lifecycle h with heq | ⟨heq, -⟩
    · exact heq.trans hl
    · cases heq.symm.trans hl
  | worker h =>
    rcases workerStep_lifecycle h with heq | ⟨heq, -⟩ | ⟨-, heq, -⟩
    · exact heq.trans hl
    · cases heq.symm.trans hl
    · exact heq

/-- The mails that arrived below position `n` before the drain have been taken out when it is
over. -/
structure Drained (n : Nat) (s : State Unit T M F) : Prop where
  stopped : s.mem.lifecycle = .stopped
  arrived : s.mem.mailbox.Arrived n
  drained : s.workers () = .drain ∨ n ≤ s.mem.mailbox.dequeued.length

theorem callerStep_arrived {n : Nat} {pc pc' : CallerPc Unit M}
    (h : callerStep () t m pc = some (m', pc')) (hinv : MpscBoundedQueue.Inv () m.mailbox)
    (harr : m.mailbox.Arrived n) : m'.mailbox.Arrived n := by
  cases callerStep_move h with
  | enqueue _ ha hs | enqueueFull _ ha hs | enqueued _ ha hs =>
    rcases ha with rfl | rfl
    · exact harr.producerStep hinv hs
    · simp only [MpscBoundedQueue.step] at hs
      split at hs <;> cases hs
      refine ⟨harr.claimed, fun u p hu => ?_⟩
      by_cases hut : u = t
      · subst hut
        simp [MpscBoundedQueue.State.setProducer, MpscBoundedQueue.ProducerPc.held] at hu
      · exact harr.published u p (by
          simpa [MpscBoundedQueue.State.setProducer, Function.update_of_ne hut] using hu)
  | _ => exact harr

theorem Drained.step {n : Nat} (hd : Drained n s) (H : StopInv s)
    (hs : ActorRunner.step () s a = some s') : Drained n s' := by
  have hl := step_halted hd.stopped hs
  cases step_move hs with
  | post | kill | wake | stop => exact ⟨hl, hd.arrived, hd.drained⟩
  | caller h =>
    obtain ⟨⟨-, hdeq⟩, -⟩ := callerStep_mailbox h
    refine ⟨hl, callerStep_arrived h H.mailbox hd.arrived, ?_⟩
    dsimp only
    rw [hdeq]
    exact hd.drained
  | pick hidle =>
    refine ⟨hl, hd.arrived, .inr (hd.drained.resolve_left fun hpc => ?_)⟩
    cases hidle.symm.trans hpc
  | @worker _ o m' pc' h =>
    obtain ⟨⟨hprod, hclaimed⟩, -⟩ := workerStep_calls h H.calls
    have hmono := (workerStep_dequeued h H.calls).length_le
    refine ⟨hl, ⟨?_, fun u p hu => ?_⟩, ?_⟩ <;> dsimp only at *
    · exact hd.arrived.claimed.trans_eq (congrArg List.length hclaimed.symm)
    · exact hd.arrived.published u p (by rwa [hprod] at hu)
    · rw [Function.update_self]
      rcases hd.drained with hpc | hle
      · have hcalls := H.calls
        rw [hpc] at h hcalls
        cases workerStep_move h with
        | drain => exact .inl rfl
        | drainNone ha hstep hr =>
          exact .inr ((hd.arrived.le_of_none H.mailbox ha hstep hr).trans hmono)
      · exact .inr (hle.trans hmono)

/-- **Kill semantics**, with one dispatcher thread. Out of `RUNNING` at most one `on_receive` is
still called; `on_kill` starts with no receive future outstanding; once it has started `on_receive`
is not called and no future is polled; and what is in the mailbox when the drain begins is not
delivered, and taken out by the drain if it had arrived. -/
theorem kill_semantics {capacity : Nat} (h : (machine T M F () capacity).Reach Machine.free s) :
    (s.mem.lifecycle ≠ .running → ∀ as s', (machine T M F () capacity).run s as = some s' →
      s'.mem.delivered <+: s.mem.delivered ++ (s.workers ()).passing ∧
        s'.mem.delivered.length ≤ s.mem.delivered.length + 1) ∧
    (s.workers () = .callOnKill ∨ 0 < s.mem.onKillStarts → s.mem.armed = s.mem.finished) ∧
    (0 < s.mem.onKillStarts →
      (∀ mail, s.workers () ≠ .callReceive mail) ∧ (∀ site, s.workers () ≠ .pollSlot site) ∧
      ∀ as s', (machine T M F () capacity).run s as = some s' →
        s'.mem.delivered = s.mem.delivered) ∧
    (s.workers () = .drain → s.mem.delivered <+: s.mem.mailbox.dequeued ∧
      ∀ as s', (machine T M F () capacity).run s as = some s' →
        s'.mem.delivered = s.mem.delivered ∧
        ∀ n, s.mem.mailbox.Arrived n → s'.workers () ≠ .drain →
          n ≤ s'.mem.mailbox.dequeued.length) := by
  have hp := pollInv_of_reach h
  have H := stopInv_of_reach h
  have hf := finalizeInv_of_reach h
  have hfree (as : List (Action Unit T M F)) :
      (machine T M F () capacity).RunOk Machine.free s as := .of_forall (fun _ _ _ => trivial) s
  have hstopped (hk : 0 < s.mem.onKillStarts) : s.mem.lifecycle = .stopped := by
    by_contra hne
    exact absurd (hf.unstopped hne).1 (Nat.pos_iff_ne_zero.mp hk)
  -- nothing is on its way to `on_receive` of a stopped actor
  have hfrozen (hl : s.mem.lifecycle = .stopped) (as : List (Action Unit T M F))
      (s' : State Unit T M F) (hrun : (machine T M F () capacity).run s as = some s') :
      s'.mem.delivered = s.mem.delivered := by
    refine (h.keeps (hfree as) hrun
      (fun s' => s'.mem.lifecycle = .stopped ∧ s'.mem.delivered = s.mem.delivered) ⟨hl, rfl⟩
      fun {u a u'} hu hkept hstep => ?_).2
    have hl' := step_halted hkept.1 hstep
    have hdel := (step_passing (hkept.1 ▸ nofun) hstep).2
    rw [(stopInv_of_reach hu).passing_eq_nil hkept.1,
      (stopInv_of_reach (.step hu trivial hstep)).passing_eq_nil hl', List.append_nil,
      List.append_nil] at hdel
    exact ⟨hl', hdel.trans hkept.2⟩
  refine ⟨fun hl as s' hrun => ?_, fun hk => ?_, fun hk => ⟨fun mail hpc => ?_, fun site hpc => ?_,
    hfrozen (hstopped hk)⟩, fun hpc => ?_⟩
  · have hdel := (h.keeps (hfree as) hrun (fun s' => s'.mem.lifecycle ≠ .running ∧
      s'.mem.delivered ++ (s'.workers ()).passing = s.mem.delivered ++ (s.workers ()).passing)
      ⟨hl, rfl⟩ fun _ hkept hstep => by
        obtain ⟨hl', heq⟩ := step_passing hkept.1 hstep
        exact ⟨hl', heq.trans hkept.2⟩).2
    have hpre : s'.mem.delivered <+: s.mem.delivered ++ (s.workers ()).passing :=
      hdel ▸ List.prefix_append ..
    refine ⟨hpre, hpre.length_le.trans ?_⟩
    have hone : (s.workers ()).passing.length ≤ 1 := by
      generalize s.workers () = pc
      cases pc <;> first | exact Nat.le_refl 1 | exact Nat.zero_le 1
    rw [List.length_append]
    exact Nat.add_le_add_left hone _
  · have hslot : s.mem.slot = none := by
      rcases hk with hpc | hk
      · exact (H.halted (H.finalizing (by rw [hpc]; trivial))).2
      · exact (H.halted (hstopped hk)).2
    have harmed := hp.outstanding
    rwa [hslot] at harmed
  · have hhalted := (H.halted (hstopped hk)).1
    rw [hpc] at hhalted
    exact hhalted
  · have hhalted := (H.halted (hstopped hk)).1
    rw [hpc] at hhalted
    exact hhalted
  · have hl := H.finalizing (by rw [hpc]; trivial)
    refine ⟨(List.prefix_append ..).trans H.delivered, fun as s' hrun => ⟨hfrozen hl as s' hrun,
      fun n harr hover => ?_⟩⟩
    have hdrained := h.keeps (hfree as) hrun (Drained n) ⟨hl, harr, .inl hpc⟩
      fun hu hd hstep => hd.step (stopInv_of_reach hu) hstep
    exact hdrained.drained.resolve_left hover

end

/-! ## A run -/

section
open List

def killable : State Unit Nat Nat Unit :=
  initial _ _ _ ((MpscBoundedQueue.new Nat mailSlotSize 32).get rfl)

/-- Three mails are posted. The kill falls between the check of the first and its `on_receive`, the
second is taken out for a check that fails, and the third is in the mailbox when the drain
begins. -/
def killPastCheck : List (Action Unit Nat Nat Unit) :=
  Action.post 0 7 :: replicate 11 (Action.caller 0) ++
    Action.post 1 8 :: replicate 8 (Action.caller 1) ++
    Action.post 2 9 :: replicate 8 (Action.caller 2) ++
    Action.pick () :: replicate 9 (Action.worker () .done) ++
    Action.kill 1 :: replicate 2 (Action.caller 1) ++ replicate 11 (Action.worker () .done)

theorem kill_semantics_pastCheck : ∃ s s', (machine Nat Nat Unit () 32).Reach Machine.free s ∧
    s.mem.mailbox.accepted = [7, 8, 9] ∧ s.mem.mailbox.dequeued = [7, 8] ∧
    (machine Nat Nat Unit () 32).run s (replicate 13 (Action.worker () .done)) = some s' ∧
    s'.mem.onKillStarts = 1 ∧ s'.mem.delivered = s.mem.delivered ∧ s.mem.delivered = [7] ∧
    3 ≤ s'.mem.mailbox.dequeued.length := by
  have hreach : (machine Nat Nat Unit () 32).Reach Machine.free
      (((machine Nat Nat Unit () 32).run killable killPastCheck).get rfl) :=
    .get_free (show (machine Nat Nat Unit () 32).Init _ from ⟨_, rfl, rfl⟩) rfl
  obtain ⟨-, -, -, hdrain⟩ := kill_semantics hreach
  obtain ⟨hdel, hdrained⟩ := (hdrain rfl).2 (replicate 13 (Action.worker () .done)) _ rfl
  refine ⟨_, _, hreach, rfl, rfl, rfl, rfl, hdel, rfl, hdrained 3 ⟨Nat.le_refl 3, ?_⟩ nofun⟩
  intro t p ht
  match t with
  | 0 | 1 | 2 => cases ht
  | _ + 3 => cases ht

end

end DignusActor.ActorRunner
