import DignusActor.Queues.MpscNonblocking
import DignusActor.Runner.KillSemantics
import DignusActor.Runner.Returning

/-! # The dispatcher works off what it is given

With one dispatcher thread, what there is to do for a runner is bounded (`Shared.effort`): each mail
in the mailbox, each entry in the queue and the armed future stand for so many steps, and each step
of the worker takes one away (`workerStep_effort`). `execute` may push its own runner again when
`try_peek` finds a mail; that entry is paid for by the look itself, since the mail is still at the
head when the entry is run, and the loop that finds the mailbox empty has found no published mail
(`Shared.spare`). So the dispatcher never goes round for nothing: in every run the steps it takes
are bounded by what was there and by the mails and the entries that the callers bring
(`worked_off`). -/

namespace DignusActor.MpscBoundedQueue

variable {P M : Type} [DecidableEq P] {s s' : State P Unit M} {a : Action P Unit M}

/-- A bound on the steps to the end of the consumer's next return, the call included. -/
def ConsumerPc.callRank (consumer : ConsumerPc M) : Nat :=
  if consumer.inCall then consumer.rank else 6

theorem ConsumerPc.callRank_of_inCall {pc : ConsumerPc M} (h : pc.inCall = true) :
    pc.callRank = pc.rank := if_pos h

theorem ConsumerPc.callRank_le (pc : ConsumerPc M) : pc.callRank ≤ 6 := by
  cases pc <;> simp [callRank, inCall, rank]

/-- A step of the consumer brings its call nearer to its end. -/
theorem consumer_callRank (ha : a = .consumer () ∨ a = .dequeue () ∨ a = .peek ())
    (hs : step s a = some s') : (s'.consumers ()).rank + 1 ≤ (s.consumers ()).callRank := by
  rcases ha with rfl | rfl | rfl
  · have hrank := (consumerStep_rank hs).1
    have hin : (s.consumers ()).inCall = true := by
      cases hpc : s.consumers () <;> first | rfl | (rw [hpc] at hrank; cases hrank)
    rwa [ConsumerPc.callRank_of_inCall hin]
  all_goals
    simp only [step] at hs
    split at hs <;> cases hs
    rename_i hno
    simp [ConsumerPc.callRank, hno, State.setConsumer, ConsumerPc.rank]

/-- The position that the consumer comes to next is published. -/
def State.Ready (s : State P Unit M) : Prop := s.Arrived (s.dequeued.length + 1)

/-- What a step of `try_dequeue` does: the call goes on, or returns `None` at a position that is not
published, or returns an item. -/
inductive DequeueStep (s s' : State P Unit M) : Prop
  | on : s'.dequeued = s.dequeued →
    (s'.consumers ()).callRank + 1 ≤ (s.consumers ()).callRank → DequeueStep s s'
  | none : s'.consumers () = .returned none → s'.dequeued = s.dequeued → ¬s.Ready →
    DequeueStep s s'
  | item (item : M) : s'.consumers () = .returned (some item) →
    s'.dequeued = s.dequeued ++ [item] → DequeueStep s s'

theorem dequeueStep (H : Inv () s) (ha : a = .consumer () ∨ a = .dequeue ())
    (hno : ¬(s.consumers ()).Peeking) (hs : step s a = some s') :
    (s'.producers = s.producers ∧ s'.claimed = s.claimed) ∧ DequeueStep s s' := by
  obtain ⟨hside, -, hdeq⟩ := dequeue_step ha hno hs
  refine ⟨hside, ?_⟩
  rcases hdeq with ⟨hdeq, hsome⟩ | ⟨item, hdeq, hr⟩
  · cases dequeue_move H.shape ha hno hs with
    | on hin | read hin =>
      have hrank := consumer_callRank (ha.imp_right .inl) hs
      rw [← ConsumerPc.callRank_of_inCall hin] at hrank
      exact .on hdeq hrank
    | empty hr => exact .none hr hdeq fun hready => absurd (hready.le_of_none H ha hs hr) (by omega)
    | item item hr => exact absurd hr (hsome item)
  · exact .item item hr hdeq

omit [DecidableEq P] in
theorem State.Ready.of_eq (hp : s'.producers = s.producers) (hc : s'.claimed = s.claimed)
    (hd : s'.dequeued = s.dequeued) : s'.Ready ↔ s.Ready := by
  constructor <;> rintro ⟨hclaimed, hpublished⟩
  · exact ⟨by rw [← hc, ← hd]; exact hclaimed, by rw [← hp, ← hd]; exact hpublished⟩
  · exact ⟨by rw [hc, hd]; exact hclaimed, by rw [hp, hd]; exact hpublished⟩

omit [DecidableEq P] in
theorem Inv.dequeued_le {c : Unit} (H : Inv c s) : s.dequeued.length ≤ s.claimed.length := by
  rw [H.length_dequeued]
  exact H.consumed

/-- A producer adds to the claimed positions. -/
theorem claimed_le {t : P} {item : M} (ha : a = .producer t ∨ a = .enqueue t item)
    (hs : step s a = some s') : s.claimed.length ≤ s'.claimed.length := by
  rcases ha with rfl | rfl
  · simp only [step, producerStep] at hs
    cases hpc : s.producers t <;> simp only [hpc] at hs <;> (repeat' split at hs) <;> cases hs <;>
      simp [State.setProducer]
  · simp only [step] at hs
    split at hs <;> cases hs
    exact Nat.le_refl _

/-- `try_peek` answers `true` at a position that is published. -/
theorem Inv.ready_of_peeked (H : Inv () s) (ha : a = .consumer () ∨ a = .peek ())
    (hs : MpscBoundedQueue.step s a = some s') (hr : s'.consumers () = .peeked true) :
    s.Ready := by
  have hlen := H.length_dequeued
  rcases ha with rfl | rfl
  · have hok := H.consumer
    simp only [MpscBoundedQueue.step, MpscBoundedQueue.consumerStep] at hs
    cases hpc : s.consumers () with
    | peekSequence p =>
      rw [hpc] at hok
      obtain ⟨rfl, hrel, -⟩ := hok
      simp only [hpc] at hs
      cases hs
      simp only [State.setConsumer, Function.update_self, ConsumerPc.peeked.injEq,
        decide_eq_true_eq] at hr
      have hseq : (s.queue.slot s.queue.consumerIndex).sequence = s.queue.consumerIndex + 1 := by
        omega
      have htwo := H.shape.two_le
      refine ⟨?_, fun t q hq => ?_⟩
      · rcases H.window _ (Nat.le_of_eq hrel) (by omega) with hwin | hwin | hwin
        · omega
        · omega
        · exact hlen ▸ hwin.1
      · obtain ⟨hge, -, hheld⟩ := H.held hq
        have hne : q ≠ s.queue.consumerIndex := by
          rintro rfl
          omega
        omega
    | read p =>
      simp only [hpc] at hs
      obtain ⟨item, -, rfl⟩ := Option.map_eq_some_iff.mp hs
      simp [State.setConsumer] at hr
    | idle | returned | peeked =>
      simp only [hpc] at hs
      cases hs
    | dequeueSequence p =>
      simp only [hpc] at hs
      split at hs <;> cases hs <;> simp [State.setConsumer] at hr
    | _ =>
      simp only [hpc] at hs
      cases hs
      simp [State.setConsumer] at hr
  · simp only [MpscBoundedQueue.step] at hs
    split at hs <;> cases hs
    simp [State.setConsumer] at hr

end DignusActor.MpscBoundedQueue

namespace DignusActor.ActorRunner

open Machine (Reach)
open MpscBoundedQueue (ConsumerPc Readable)

variable {T M F : Type}

/-! ## What there is to do -/

/-- A bound on the steps of the worker until it comes back for an entry, an item or an armed
future. -/
def WorkerPc.cost (consumer : ConsumerPc M) : WorkerPc M F → Nat
  | .idle | .dead => 0
  | .onFinalize => 1
  | .onKill => 2
  | .callOnKill => 3
  | .clearUnmark => 4
  | .clearActive => 5
  | .clearSlot => 6
  | .drain => 7 + consumer.callRank
  | .finalizeSwap => 14
  | .peek => 4 + consumer.callRank
  | .clearScheduled => 11
  | .finalLoad => 15
  | .dequeue => 15 + consumer.callRank
  | .loadLifecycle => 22
  | .pollSlot .mailbox => 22
  | .pollUnmark .mailbox => 23
  | .pollSlot (.pending _) => 23
  | .pollUnmark (.pending _) => 24
  | .loadActive _ => 25
  | .armUnmark => 24
  | .armActivate => 25
  -- pushing an entry, which stands for 26 steps
  | .schedule (.kill _) true => 69
  | .schedule (.kill _) false => 70
  | .schedule _ true => 27
  | .schedule _ false => 28
  | .reschedule => 30
  | .publish _ => 42
  | .killScheduled _ => 71
  | .killLifecycle _ => 72
  | .pollReset _ _ => 73
  | .pollDeactivate _ _ => 74
  -- arming a future, which stands for 74 steps
  | .armSlot _ => 100
  | .receiving => 101
  | .callReceive _ => 102
  | .checkLifecycle _ => 103

/-- Between the loop and the last look at the mailbox. -/
def WorkerPc.Closing : WorkerPc M F → Prop
  | .finalLoad | .clearScheduled | .peek => True
  | _ => False

/-- What the mails, the entries and the armed future stand for. -/
def Shared.load (m : Shared Unit T M F) : Nat :=
  114 * (m.mailbox.claimed.length - m.mailbox.dequeued.length) + 26 * (m.queue ()).length +
    if m.slot.isSome then 74 else 0

open Classical in
/-- The entry that the last look at the mailbox may push is set aside until a mail is published that
it can find. -/
noncomputable def Shared.spare (m : Shared Unit T M F) (pc : WorkerPc M F) : Nat :=
  if pc.Closing ∨ ¬m.mailbox.Ready then 26 else 0

/-- The steps that the worker can take with what is there. -/
noncomputable def Shared.effort (m : Shared Unit T M F) (pc : WorkerPc M F) : Nat :=
  m.load + pc.cost (m.mailbox.consumers ()) + m.spare pc

section
variable {m m' : Shared Unit T M F} {pc pc' : WorkerPc M F}

theorem Shared.spare_le (m : Shared Unit T M F) (pc : WorkerPc M F) : m.spare pc ≤ 26 := by
  unfold spare
  split <;> decide

theorem Shared.spare_of_closing (h : pc.Closing) : m.spare pc = 26 := if_pos (.inl h)

theorem Shared.spare_of_not_ready (h : ¬m.mailbox.Ready) : m.spare pc = 26 := if_pos (.inr h)

theorem Shared.spare_of_ready (h : m.mailbox.Ready) (hpc : ¬pc.Closing) : m.spare pc = 0 :=
  if_neg fun hor => hor.elim hpc fun hno => hno h

theorem Shared.spare_mono (hready : m.mailbox.Ready → m'.mailbox.Ready)
    (hclosing : pc'.Closing → pc.Closing) : m'.spare pc' ≤ m.spare pc := by
  by_cases hc : pc.Closing
  · exact spare_of_closing (m := m) hc ▸ spare_le m' pc'
  · by_cases hr : m.mailbox.Ready
    · rw [spare_of_ready (hready hr) fun h => hc (hclosing h)]
      exact Nat.zero_le _
    · have hspare : m.spare pc = 26 := spare_of_not_ready hr
      exact hspare ▸ spare_le m' pc'

end

section
variable {o : Outcome F} {m m' : Shared Unit T M F} {pc pc' : WorkerPc M F}

theorem Shared.load_push (m : Shared Unit T M F) (dest : Unit) (origin : Origin) :
    (m.push dest origin).load = m.load + 26 := by
  have hlen : ((m.push dest origin).queue ()).length = (m.queue ()).length + 1 := by
    simp [Shared.push]
  have hslot : (m.push dest origin).slot = m.slot := rfl
  have hmailbox : (m.push dest origin).mailbox = m.mailbox := rfl
  rw [load, load, hlen, hslot, hmailbox]
  omega

/-- A step that leaves the mailbox alone is seen by what is left in the code, by the entries and by
the armed future. -/
theorem Shared.effort_of_mailbox (hmailbox : m'.mailbox = m.mailbox)
    (hclosing : pc'.Closing → pc.Closing)
    (h : 26 * (m'.queue ()).length + (if m'.slot.isSome then 74 else 0) +
        pc'.cost (m.mailbox.consumers ()) <
      26 * (m.queue ()).length + (if m.slot.isSome then 74 else 0) +
        pc.cost (m.mailbox.consumers ())) : m'.effort pc' < m.effort pc := by
  have hspare : m'.spare pc' ≤ m.spare pc := spare_mono (hmailbox ▸ id) hclosing
  simp only [effort, load, hmailbox]
  omega

theorem Shared.effort_pick (d : Unit) {origin : Origin} {rest : List Origin}
    (hq : m.queue d = origin :: rest) :
    { m with queue := Function.update m.queue d rest }.effort (.loadActive origin) <
      m.effort .idle := by
  refine Shared.effort_of_mailbox rfl nofun ?_
  have hlen : (m.queue ()).length = rest.length + 1 := congrArg List.length hq
  simp only [WorkerPc.cost, Function.update_self, hlen]
  omega

/-- A step into the end of `execute` sets an entry aside. -/
theorem Shared.effort_of_enter (hcost : pc'.cost (m.mailbox.consumers ()) + 26 <
    pc.cost (m.mailbox.consumers ())) : m.effort pc' < m.effort pc := by
  have hspare := m.spare_le pc'
  simp only [effort]
  omega

variable [DecidableEq T] {a : MpscBoundedQueue.Action T Unit M}
  {mailbox : MpscBoundedQueue.State T Unit M}

/-- A step of `try_dequeue` from `pc`: an item pays for what is done with it, and without an item no
published mail was there. -/
theorem Shared.effort_of_dequeue (H : MpscBoundedQueue.Inv () m.mailbox)
    (ha : a = .consumer () ∨ a = .dequeue ()) (hno : ¬(m.mailbox.consumers ()).Peeking)
    (hs : MpscBoundedQueue.step m.mailbox a = some mailbox) (base : Nat)
    (hpc : ∀ consumer, pc.cost consumer = base + consumer.callRank)
    (hon : (∀ item, mailbox.consumers () ≠ .returned item) → pc' = pc)
    (hnone : mailbox.consumers () = .returned none → pc'.cost (mailbox.consumers ()) ≤ base)
    (hitem : ∀ item, mailbox.consumers () = .returned (some item) →
      pc'.cost (mailbox.consumers ()) ≤ base + 88) :
    { m with mailbox }.effort pc' < m.effort pc := by
  obtain ⟨⟨hproducers, hclaimed⟩, hmove⟩ := MpscBoundedQueue.dequeueStep H ha hno hs
  have hrank := MpscBoundedQueue.consumer_callRank (ha.imp_right .inl) hs
  cases hmove with
  | on hdeq hlt =>
    have hle := (m.mailbox.consumers ()).callRank_le
    obtain rfl : pc' = pc := hon fun item hr => by
      rw [hr, ConsumerPc.callRank, if_neg nofun] at hlt
      omega
    have hready := MpscBoundedQueue.State.Ready.of_eq hproducers hclaimed hdeq
    have hspare : { m with mailbox }.spare pc' ≤ m.spare pc' := spare_mono hready.mpr id
    simp only [effort, load, hclaimed, hdeq, hpc]
    omega
  | none hr hdeq hunready =>
    have hspare : { m with mailbox }.spare pc' ≤ 26 := spare_le ..
    have hcost := hnone hr
    simp only [effort, load, hclaimed, hdeq, hpc, spare_of_not_ready hunready]
    omega
  | item item hr hdeq =>
    have hspare : { m with mailbox }.spare pc' ≤ 26 := spare_le ..
    have hcost := hitem item hr
    have hle := (H.step (fun _ _ => rfl) hs).dequeued_le
    rw [hclaimed, hdeq, List.length_append, List.length_singleton] at hle
    simp only [effort, load, hclaimed, hdeq, hpc, List.length_append, List.length_singleton]
    omega

/-- A step of the last look at the mailbox: it finds a mail only where one is published. -/
theorem Shared.effort_of_peek (H : MpscBoundedQueue.Inv () m.mailbox)
    (ha : a = .consumer () ∨ a = .peek ()) (hno : ¬(m.mailbox.consumers ()).Dequeuing)
    (hs : MpscBoundedQueue.step m.mailbox a = some mailbox)
    (hpc' : pc' = .peek ∧ (∀ b, mailbox.consumers () ≠ .peeked b) ∨
      pc' = .reschedule ∧ mailbox.consumers () = .peeked true ∨ pc' = .idle) :
    { m with mailbox }.effort pc' < m.effort .peek := by
  obtain ⟨⟨hproducers, hclaimed, hdeq⟩, -⟩ := MpscBoundedQueue.peek_step ha hno hs
  obtain ⟨-, -, hgo⟩ := MpscBoundedQueue.peek_move ha hno hs
  have hrank := MpscBoundedQueue.consumer_callRank (ha.imp_right .inr) hs
  have hspare : m.spare .peek = 26 := spare_of_closing trivial
  simp only [effort, load, hclaimed, hdeq, hspare]
  rcases hpc' with ⟨rfl, hne⟩ | ⟨rfl, hr⟩ | rfl
  · have hin : (mailbox.consumers ()).inCall = true := by
      rcases hgo with ⟨b, hb⟩ | ⟨hin, -⟩
      · exact absurd hb (hne b)
      · exact hin
    have hspare' : { m with mailbox }.spare .peek ≤ 26 := spare_le ..
    rw [← ConsumerPc.callRank_of_inCall hin] at hrank
    simp only [WorkerPc.cost]
    omega
  · have hready := (MpscBoundedQueue.State.Ready.of_eq hproducers hclaimed hdeq).mpr
      (H.ready_of_peeked ha hs hr)
    have hspare' : { m with mailbox }.spare .reschedule = 0 := spare_of_ready hready id
    simp only [WorkerPc.cost, hspare']
    omega
  · have hspare' : { m with mailbox }.spare .idle ≤ 26 := spare_le ..
    simp only [WorkerPc.cost]
    omega

/-- **Each step of the worker lessens what there is to do.** -/
theorem workerStep_effort (H : MpscBoundedQueue.Inv () m.mailbox)
    (hcall : CallOk (m.mailbox.consumers ()) pc)
    (h : workerStep () () m o pc = some (m', pc')) : m'.effort pc' < m.effort pc := by
  by_cases hdrain : pc = .drain
  · subst hdrain
    obtain ⟨a, mailbox, ha, hs, rfl, hpc'⟩ := workerStep_drain h
    refine Shared.effort_of_dequeue H ha hcall hs 7 (fun _ => rfl) (fun hno => ?_)
      (fun hr => ?_) fun item hr => ?_
    · rcases hpc' with ⟨rfl, -⟩ | ⟨-, hr⟩
      · rfl
      · exact absurd hr (hno none)
    · rcases hpc' with ⟨-, hne⟩ | ⟨rfl, -⟩
      · exact absurd hr hne
      · exact Nat.le_succ 6
    · rcases hpc' with ⟨rfl, -⟩ | ⟨-, hnone⟩
      · have hle := (mailbox.consumers ()).callRank_le
        simp only [WorkerPc.cost]
        omega
      · cases hr.symm.trans hnone
  -- a step that changes neither the mailbox nor the queue nor the slot
  have hrest {m₁ : Shared Unit T M F} {pc₁ : WorkerPc M F} (hmailbox : m₁.mailbox = m.mailbox)
      (hqueue : m₁.queue = m.queue) (hslot : m₁.slot = m.slot) (hclosing : pc₁.Closing → pc.Closing)
      (hcost : pc₁.cost (m.mailbox.consumers ()) < pc.cost (m.mailbox.consumers ())) :
      m₁.effort pc₁ < m.effort pc := by
    refine Shared.effort_of_mailbox hmailbox hclosing ?_
    rw [hqueue, hslot]
    omega
  cases workerStep_move h with
  | dequeue ha hs hno =>
    exact Shared.effort_of_dequeue H ha hcall hs 15 (fun _ => rfl) (fun _ => rfl)
      (fun hr => absurd hr (hno _)) fun item hr => absurd hr (hno _)
  | dequeueNone ha hs hr =>
    exact Shared.effort_of_dequeue H ha hcall hs 15 (fun _ => rfl)
      (fun hno => absurd hr (hno _)) (fun _ => Nat.le_refl _) fun item hr' => by
        cases hr.symm.trans hr'
  | dequeueSome mail ha hs hr =>
    exact Shared.effort_of_dequeue H ha hcall hs 15 (fun _ => rfl)
      (fun hno => absurd hr (hno _)) (fun hr' => by cases hr.symm.trans hr')
      fun _ _ => Nat.le_refl _
  | drain | drainNone => exact absurd rfl hdrain
  | peek =>
    obtain ⟨a, mailbox, ha, hs, hm, ⟨-, hne⟩ | hpc' | hpc'⟩ := workerStep_peek h
    · rw [hm]
      exact Shared.effort_of_peek H ha hcall hs (.inl ⟨rfl, hne⟩)
    · cases hpc'
    · cases hpc'
  | peekTrue ha hs hr => exact Shared.effort_of_peek H ha hcall hs (.inr (.inl ⟨rfl, hr⟩))
  | peekFalse ha hs => exact Shared.effort_of_peek H ha hcall hs (.inr (.inr rfl))
  | checkKilled | publishMailbox => exact Shared.effort_of_enter (by simp [WorkerPc.cost])
  | pollEmptyLoop | receiveDone | lifecycleRunning | finalizeSwap =>
    have hle := (m.mailbox.consumers ()).callRank_le
    refine hrest rfl rfl rfl (by simp [WorkerPc.Closing]) ?_
    simp only [WorkerPc.cost]
    omega
  | clearScheduled =>
    have hle := (m.mailbox.consumers ()).callRank_le
    refine hrest rfl rfl rfl (fun _ => trivial) ?_
    simp only [WorkerPc.cost]
    omega
  | finalLoad => exact hrest rfl rfl rfl (fun _ => trivial) (by simp [WorkerPc.cost])
  | dropEntry site | checkEntry site =>
    cases site <;> exact hrest rfl rfl rfl False.elim (by simp [WorkerPc.cost, ScheduleSite.next])
  | pushEntry site =>
    refine Shared.effort_of_mailbox rfl ?_ ?_
    · cases site <;> exact False.elim
    · have hlen : ((m.push () site.origin).queue ()).length = (m.queue ()).length + 1 := by
        simp [Shared.push]
      have hslot : (m.push () site.origin).slot = m.slot := rfl
      rw [hlen, hslot]
      cases site <;> simp only [WorkerPc.cost, ScheduleSite.next] <;> omega
  | pollPending site _ hsome | pollFinished site _ hsome =>
    refine Shared.effort_of_mailbox rfl False.elim ?_
    cases site <;> simp [hsome, WorkerPc.cost]
  | armSlot future =>
    refine Shared.effort_of_mailbox rfl False.elim ?_
    simp only [WorkerPc.cost, Option.isSome_some, if_true]
    split <;> omega
  | clearSlot =>
    refine Shared.effort_of_mailbox rfl False.elim ?_
    simp only [WorkerPc.cost, Option.isSome_none, Bool.false_eq_true, if_false]
    omega
  | pollUnmark site => cases site <;> exact hrest rfl rfl rfl False.elim (by simp [WorkerPc.cost])
  | _ => exact hrest rfl rfl rfl False.elim (by simp [WorkerPc.cost])

/-! ## What the callers bring -/

/-- The step pushes an entry. -/
def CallerPc.entries : CallerPc Unit M → Nat
  | .schedule _ _ true => 1
  | _ => 0

/-- A caller adds to what there is to do by a claimed position or by an entry. -/
theorem callerStep_effort {t : T} {c c' : CallerPc Unit M} (H : MpscBoundedQueue.Inv () m.mailbox)
    (h : callerStep () t m c = some (m', c')) (pc : WorkerPc M F) :
    m'.effort pc + 114 * m.mailbox.claimed.length ≤
      m.effort pc + 114 * m'.mailbox.claimed.length + 26 * c.entries := by
  have hkeep {m₁ : Shared Unit T M F} (hmailbox : m₁.mailbox = m.mailbox)
      (hqueue : m₁.queue = m.queue) (hslot : m₁.slot = m.slot) :
      m₁.effort pc + 114 * m.mailbox.claimed.length ≤
        m.effort pc + 114 * m₁.mailbox.claimed.length + 26 * c.entries := by
    have hspare : m₁.spare pc ≤ m.spare pc := Shared.spare_mono (hmailbox ▸ id) id
    simp only [Shared.effort, Shared.load, hmailbox, hqueue, hslot]
    omega
  have hmail {a : MpscBoundedQueue.Action T Unit M} {mailbox : MpscBoundedQueue.State T Unit M}
      {mail : M} (ha : a = .producer t ∨ a = .enqueue t mail)
      (hs : MpscBoundedQueue.step m.mailbox a = some mailbox)
      (harrived : ∀ n, m.mailbox.Arrived n → mailbox.Arrived n) :
      { m with mailbox }.effort pc + 114 * m.mailbox.claimed.length ≤
        m.effort pc + 114 * mailbox.claimed.length + 26 * c.entries := by
    obtain ⟨⟨hconsumers, hdequeued⟩, -⟩ := MpscBoundedQueue.enqueue_step ha hs
    have hclaimed := MpscBoundedQueue.claimed_le ha hs
    have hle := H.dequeued_le
    have hready (hr : m.mailbox.Ready) : mailbox.Ready := by
      rw [MpscBoundedQueue.State.Ready, hdequeued]
      exact harrived _ hr
    have hspare : { m with mailbox }.spare pc ≤ m.spare pc := Shared.spare_mono hready id
    simp only [Shared.effort, Shared.load, hconsumers, hdequeued]
    omega
  have harrived (n : Nat) : m.mailbox.Arrived n → m'.mailbox.Arrived n := callerStep_arrived h H
  cases callerStep_move h with
  | enqueue mail ha hs | enqueueFull mail ha hs | enqueued mail ha hs => exact hmail ha hs harrived
  | pushEntry origin dest =>
    have hspare : (m.push dest origin).spare pc ≤ m.spare pc := Shared.spare_mono id id
    have hentries : (CallerPc.schedule origin dest true : CallerPc Unit M).entries = 1 := rfl
    have heffort : (m.push dest origin).effort pc ≤ m.effort pc + 26 := by
      rw [Shared.effort, Shared.load_push, Shared.effort]
      change m.load + 26 + pc.cost (m.mailbox.consumers ()) + _ ≤ _
      omega
    rw [hentries]
    change _ + 114 * m.mailbox.claimed.length ≤ _ + 114 * m.mailbox.claimed.length + _
    omega
  | _ => exact hkeep rfl rfl rfl

end

/-! ## Runs -/

section
variable [DecidableEq T] {s s' : State Unit T M F} {a : Action Unit T M F} {capacity : Nat}

/-- A step of the dispatcher thread: it picks an entry, or goes on in `execute`. -/
def Action.ofWorker : Action Unit T M F → Bool
  | .pick _ | .worker _ _ => true
  | _ => false

/-- The steps that the dispatcher can take with what is there, and with an entry that it pushes at
the end of `execute`. -/
def State.backlog (s : State Unit T M F) : Nat :=
  s.mem.load + (s.workers ()).cost (s.mem.mailbox.consumers ()) + 26

/-- The entries that a step of a caller pushes. -/
def brought (s : State Unit T M F) : Action Unit T M F → Nat
  | .caller t => (s.callers t).entries
  | _ => 0

theorem step_effort (H : StopInv s) (hs : step () s a = some s') :
    s'.mem.effort (s'.workers ()) + (if a.ofWorker then 1 else 0) +
        114 * s.mem.mailbox.claimed.length ≤
      s.mem.effort (s.workers ()) + 114 * s'.mem.mailbox.claimed.length + 26 * brought s a := by
  cases step_move hs with
  | post | kill | wake | stop => exact Nat.le_add_right _ _
  | caller hc => exact callerStep_effort H.mailbox hc _
  | @pick d origin rest hidle hq =>
    simp only [Action.ofWorker, if_true, brought, Function.update_self]
    have hlt := Shared.effort_pick d hq
    rw [← show s.workers () = .idle from hidle] at hlt
    omega
  | @worker d o m pc hw =>
    have hlt := workerStep_effort H.mailbox H.calls hw
    have hclaimed := (workerStep_calls hw H.calls).1.2
    simp only [Action.ofWorker, if_true, brought, Function.update_self, hclaimed]
    omega

omit [DecidableEq T] in
theorem effort_le_backlog (s : State Unit T M F) : s.mem.effort (s.workers ()) ≤ s.backlog :=
  Nat.add_le_add_left (Shared.spare_le ..) _

theorem executeInv_of_reach (h : (machine T M F () capacity).Reach Machine.free s) :
    ExecuteInv s := by
  refine h.inv ExecuteInv ?_ fun H _ hs => H.step hs
  rintro s ⟨q, hq, rfl⟩
  exact initial_executeInv hq fun _ => false

/-- The dispatcher goes on while it is inside `execute` or finds an entry. -/
theorem worker_isSome (H : ExecuteInv s) (hdead : s.workers () ≠ .dead)
    (hbusy : s.workers () ≠ .idle ∨ s.mem.queue () ≠ []) :
    ∃ a : Action Unit T M F, a.ofWorker = true ∧ (step () s a).isSome = true := by
  by_cases hidle : s.workers () = .idle
  · obtain ⟨origin, rest, hq⟩ := List.exists_cons_of_ne_nil (hbusy.resolve_left (absurd hidle))
    exact ⟨.pick (), rfl, by simp [ActorRunner.step, hidle, hq]⟩
  · refine ⟨.worker () .done, rfl, ?_⟩
    have hsome : (workerStep () () s.mem .done (s.workers ())).isSome = true :=
      workerStep_isSome H.mailbox hidle hdead
    simpa [ActorRunner.step] using hsome

theorem deliveryInv_of_reach (h : Reach (machine T M F () capacity) Served s) : DeliveryInv s := by
  refine h.inv_of ServedInv DeliveryInv (fun h => ?_) ?_ fun H hd hok hs => hd.step H hok hs
  · exact h.inv ServedInv (fun ⟨q, _, hs⟩ => hs ▸ .initial q) fun H hok hs => H.step hok hs
  · rintro s ⟨q, hq, rfl⟩
    exact .initial hq

omit [DecidableEq T] in
/-- A running actor that has settled has received every mail. -/
theorem DeliveryInv.delivered_of_settled (hd : DeliveryInv s)
    (hrunning : s.mem.lifecycle = .running) (hsettled : Settled s) :
    s.mem.delivered = s.mem.mailbox.accepted := by
  have hall : ¬s.mem.mailbox.dequeued.length < s.mem.mailbox.claimed.length :=
    fun hlt => hd.not_awaited hrunning hsettled (hd.awaited hrunning hlt)
  have hhandled := hd.handled hrunning
  rw [hsettled.worker] at hhandled
  simp only [WorkerPc.taken, List.append_nil] at hhandled
  rw [hhandled, hd.mailbox.dequeued]
  refine List.take_of_length_le ?_
  rw [← hd.mailbox.length_dequeued, s.mem.mailbox.length_accepted]
  exact Nat.le_of_not_lt hall

/-- **The dispatcher works off what it is given**, with one dispatcher thread. In every run the
steps that it takes are bounded by what there was to do, by 114 for each mail that the mailbox
accepts meanwhile, and by 26 for each entry that a post, a kill or a wake pushes. While it is inside
`execute` or has an entry it can go on unless it is dead, so it comes to rest; and at rest, with no
post in progress, a running actor of a run without stops and panics of the dead-letter callback has
received every mail or waits in a receive. -/
theorem worked_off (h : Reach (machine T M F () capacity) Machine.free s) :
    (∀ as s', (machine T M F () capacity).run s as = some s' →
      as.countP Action.ofWorker ≤ s.backlog +
        114 * (s'.mem.mailbox.accepted.length - s.mem.mailbox.accepted.length) +
        26 * (machine T M F () capacity).total brought s as) ∧
    (s.workers () ≠ .dead → s.workers () ≠ .idle ∨ s.mem.queue () ≠ [] →
      ∃ a : Action Unit T M F, a.ofWorker = true ∧ (step () s a).isSome = true) ∧
    (Reach (machine T M F () capacity) Served s → s.workers () = .idle → s.mem.queue () = [] →
      (∀ t, ¬(s.callers t).InPost) → s.mem.lifecycle = .running →
      s.mem.slot.isSome = true ∨ s.mem.delivered = s.mem.mailbox.accepted) := by
  refine ⟨fun as s' hrun => ?_, fun hdead hbusy => ?_,
    fun hserved hidle hqueue hposts hrunning => ?_⟩
  · have hpaid := (Machine.run_paid Action.ofWorker (Reach (machine T M F () capacity) Machine.free)
      (fun s => s.mem.effort (s.workers ())) (fun s => 114 * s.mem.mailbox.claimed.length)
      (fun s a => 26 * brought s a)
      (fun h hok hs => ⟨h.step hok hs, step_effort (stopInv_of_reach h) hs⟩) h
      (.of_forall (fun _ _ _ => trivial) s) hrun).2
    have hle := effort_le_backlog s
    rw [Machine.total_mul] at hpaid
    rw [s.mem.mailbox.length_accepted, s'.mem.mailbox.length_accepted]
    omega
  · exact worker_isSome (executeInv_of_reach h) hdead hbusy
  · refine or_iff_not_imp_left.mpr fun hslot => ?_
    have hsettled : Settled s := ⟨hposts, hidle, hqueue, by simpa using hslot⟩
    exact (deliveryInv_of_reach hserved).delivered_of_settled hrunning hsettled

/-- Two mails have been posted, the first with an entry, and the dispatcher has not begun. -/
def posted : State Unit Nat Nat Unit :=
  ((machine Nat Nat Unit () 2).run
    (initial _ _ _ ((MpscBoundedQueue.new Nat mailSlotSize 2).get MpscBoundedQueue.new_two_isSome))
    (Action.post 0 7 :: List.replicate 11 (Action.caller 0) ++
      Action.post 1 8 :: List.replicate 8 (Action.caller 1))).get rfl

/-- The dispatcher has run the entry, and `on_receive` has returned `Done` twice. -/
def workedOff : State Unit Nat Nat Unit :=
  ((machine Nat Nat Unit () 2).run posted
    (Action.pick () :: List.replicate 28 (Action.worker () .done))).get rfl

theorem worked_off_posted : (posted.backlog = 280 ∧
    ∀ as s', (machine Nat Nat Unit () 2).run posted as = some s' →
      as.countP Action.ofWorker ≤ 280 +
        114 * (s'.mem.mailbox.accepted.length - posted.mem.mailbox.accepted.length) +
        26 * (machine Nat Nat Unit () 2).total brought posted as) ∧
    workedOff.mem.delivered = [7, 8] ∧ (workedOff.mem.slot.isSome = true ∨
      workedOff.mem.delivered = workedOff.mem.mailbox.accepted) := by
  have hposted : Reach (machine Nat Nat Unit () 2) Served posted :=
    .get (show (machine Nat Nat Unit () 2).Init _ from ⟨_, rfl, rfl⟩) (by decide +kernel) rfl
  have hdone : Reach (machine Nat Nat Unit () 2) Served workedOff :=
    hposted.run (by decide +kernel) (Option.some_get rfl).symm
  have hfree : Reach (machine Nat Nat Unit () 2) Machine.free workedOff :=
    hdone.mono fun _ _ _ => trivial
  refine ⟨⟨rfl, (worked_off (hposted.mono fun _ _ _ => trivial)).1⟩, rfl,
    (worked_off hfree).2.2 hdone rfl rfl (fun t => ?_) rfl⟩
  rcases t with _ | _ | t <;> exact id

end

end DignusActor.ActorRunner
