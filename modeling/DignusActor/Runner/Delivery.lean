import DignusActor.Runner.Scheduled
import DignusActor.Queues.MpscCalls
import DignusActor.Queues.MpscRefinement

/-! # Delivery with one dispatcher

With one dispatcher the mailbox has one consumer, so its invariant holds throughout
(`DeliveryInv.mailbox`). Every mail taken out of the mailbox of a running actor is passed to
`on_receive` before the next one is taken (`DeliveryInv.handled`). A mail that is still inside is
waited for: somebody is due to run the actor, or a post is past its claim and has yet to look at
`is_scheduled`, or the worker has cleared the flag and has yet to look at the mailbox
(`DeliveryInv.awaited`). The hand-off between the post and the end of `execute` goes through either
look, since the post publishes before its look and the worker clears before its own. -/

namespace DignusActor.ActorRunner

open MpscBoundedQueue (ConsumerPc)

variable {T M F : Type}

/-- The mail that the worker has taken out of the mailbox and not yet passed to `on_receive`. -/
def WorkerPc.taken : WorkerPc M F → List M
  | .checkLifecycle mail | .callReceive mail => [mail]
  | _ => []

/-- The mail that the worker will pass to `on_receive` whatever happens. -/
def WorkerPc.passing : WorkerPc M F → List M
  | .callReceive mail => [mail]
  | _ => []

/-- Past the last look at the lifecycle, with the last look at the mailbox to come. -/
def WorkerPc.Rechecking : WorkerPc M F → Prop
  | .clearScheduled | .peek | .reschedule => True
  | _ => False

/-- A call of the mailbox is in progress only where `execute` makes one. -/
def CallOk (consumer : ConsumerPc M) : WorkerPc M F → Prop
  | .dequeue | .drain => ¬consumer.Peeking
  | .peek => ¬consumer.Dequeuing
  | _ => ¬consumer.Peeking ∧ ¬consumer.Dequeuing

/-- The post of `t` has claimed a position and has yet to look at `is_scheduled`. -/
def State.Posting (s : State Unit T M F) (t : T) : Prop :=
  match s.callers t with
  | .postEnqueue _ => (s.mem.mailbox.producers t).held.isSome = true
  | .postScheduled | .postSwap => True
  | _ => False

/-- Somebody will look after the mails inside the mailbox. -/
def State.Awaited (s : State Unit T M F) : Prop :=
  s.Due ∨ (∃ t, s.Posting t) ∨ (s.workers ()).Rechecking

/-- Not past the compare-exchange of a `kill` that succeeded. -/
def CallerPc.NotKilling : CallerPc Unit M → Prop
  | .killSwap => False
  | .schedule origin _ _ => origin = .post ∨ origin = .waker
  | _ => True

structure DeliveryInv (s : State Unit T M F) : Prop where
  mailbox : MpscBoundedQueue.Inv () s.mem.mailbox
  calls : CallOk (s.mem.mailbox.consumers ()) (s.workers ())
  posts : ∀ t, (s.mem.mailbox.producers t).held.isSome = true →
    ∃ mail, s.callers t = .postEnqueue mail
  delivered : s.mem.delivered ++ (s.workers ()).passing <+: s.mem.mailbox.dequeued
  handled : s.mem.lifecycle = .running →
    s.mem.delivered ++ (s.workers ()).taken = s.mem.mailbox.dequeued
  awaited : s.mem.lifecycle = .running →
    s.mem.mailbox.dequeued.length < s.mem.mailbox.claimed.length → s.Awaited
  callers : s.mem.lifecycle = .running → ∀ t, (s.callers t).NotKilling

variable [DecidableEq T]

section
variable {owner : Unit} {o : Outcome F} {m m' : Shared Unit T M F} {pc pc' : WorkerPc M F}

/-- The mailbox after a step of the worker. -/
theorem workerStep_mailbox_inv (h : workerStep owner () m o pc = some (m', pc'))
    (hinv : MpscBoundedQueue.Inv () m.mailbox) : MpscBoundedQueue.Inv () m'.mailbox := by
  cases workerStep_move h with
  | dequeue _ hs | dequeueNone _ hs | dequeueSome _ _ hs | drain _ hs | drainNone _ hs
  | peek _ hs | peekTrue _ hs | peekFalse _ hs => exact hinv.step (fun _ _ => rfl) hs
  | _ => exact hinv

/-- A worker leaves the producers and the claimed positions alone, and keeps to its calls. -/
theorem workerStep_calls {D : Type} [DecidableEq D] {owner d : D} {m m' : Shared D T M F}
    (h : workerStep owner d m o pc = some (m', pc')) (hcall : CallOk (m.mailbox.consumers d) pc) :
    (m'.mailbox.producers = m.mailbox.producers ∧ m'.mailbox.claimed = m.mailbox.claimed) ∧
      CallOk (m'.mailbox.consumers d) pc' := by
  cases workerStep_move h with
  | dequeue ha hs | drain ha hs =>
    obtain ⟨hside, hpeek, _⟩ := MpscBoundedQueue.dequeue_step ha hcall hs
    exact ⟨hside, hpeek⟩
  | dequeueNone ha hs hr | dequeueSome _ ha hs hr | drainNone ha hs hr =>
    obtain ⟨hside, _⟩ := MpscBoundedQueue.dequeue_step ha hcall hs
    exact ⟨hside, by rw [hr]; exact ⟨id, id⟩⟩
  | peek ha hs =>
    obtain ⟨⟨hp, hc, _⟩, hdeq, _⟩ := MpscBoundedQueue.peek_step ha hcall hs
    exact ⟨⟨hp, hc⟩, hdeq⟩
  | peekTrue ha hs hr | peekFalse ha hs hr =>
    obtain ⟨⟨hp, hc, _⟩, _⟩ := MpscBoundedQueue.peek_step ha hcall hs
    exact ⟨⟨hp, hc⟩, by rw [hr]; exact ⟨id, id⟩⟩
  | dropEntry site | pushEntry site => cases site <;> exact ⟨⟨rfl, rfl⟩, hcall⟩
  | pollEmptyLoop | receiveDone | lifecycleRunning | finalizeSwap => exact ⟨⟨rfl, rfl⟩, hcall.1⟩
  | clearScheduled => exact ⟨⟨rfl, rfl⟩, hcall.2⟩
  | _ => exact ⟨⟨rfl, rfl⟩, hcall⟩

theorem workerStep_dequeued (h : workerStep owner () m o pc = some (m', pc'))
    (hcall : CallOk (m.mailbox.consumers ()) pc) :
    m.mailbox.dequeued <+: m'.mailbox.dequeued := by
  cases workerStep_move h with
  | dequeue ha hs | dequeueNone ha hs | dequeueSome _ ha hs | drain ha hs | drainNone ha hs =>
    obtain ⟨_, _, hdeq⟩ := MpscBoundedQueue.dequeue_step ha hcall hs
    rcases hdeq with ⟨hdeq, _⟩ | ⟨item, hdeq, _⟩
    · exact hdeq ▸ List.prefix_rfl
    · exact hdeq ▸ List.prefix_append ..
  | peek ha hs | peekTrue ha hs | peekFalse ha hs =>
    obtain ⟨⟨_, _, hdeq⟩, _⟩ := MpscBoundedQueue.peek_step ha hcall hs
    exact hdeq ▸ List.prefix_rfl
  | _ => exact List.prefix_rfl

/-- What the worker has passed to `on_receive` stays an initial part of what it has taken out. -/
theorem workerStep_delivered (h : workerStep owner () m o pc = some (m', pc'))
    (hcall : CallOk (m.mailbox.consumers ()) pc)
    (hpre : m.delivered ++ pc.passing <+: m.mailbox.dequeued)
    (heq : m.lifecycle = .running → m.delivered ++ pc.taken = m.mailbox.dequeued) :
    m'.delivered ++ pc'.passing <+: m'.mailbox.dequeued := by
  cases workerStep_move h with
  | dequeue | dequeueNone | dequeueSome | drain | drainNone | peek | peekTrue | peekFalse =>
    exact hpre.trans (workerStep_dequeued h hcall)
  | checkRunning mail hrun => exact (heq hrun).symm ▸ List.prefix_rfl
  | callReceive mail => simpa [WorkerPc.passing] using hpre
  | dropEntry site | pushEntry site => cases site <;> exact hpre
  | _ => exact hpre

/-- While the actor runs, what was taken out is passed on before anything else is taken. -/
theorem workerStep_handled (h : workerStep owner () m o pc = some (m', pc'))
    (hcall : CallOk (m.mailbox.consumers ()) pc)
    (hfin : pc.Finalizing → m.lifecycle = .stopped) (hrun : m'.lifecycle = .running)
    (heq : m.lifecycle = .running → m.delivered ++ pc.taken = m.mailbox.dequeued) :
    m'.delivered ++ pc'.taken = m'.mailbox.dequeued := by
  cases workerStep_move h with
  | dequeue ha hs hno =>
    obtain ⟨_, _, hdeq⟩ := MpscBoundedQueue.dequeue_step ha hcall hs
    rcases hdeq with ⟨hdeq, _⟩ | ⟨item, _, hr⟩
    · exact (heq hrun).trans hdeq.symm
    · exact (hno _ hr).elim
  | dequeueNone ha hs hr =>
    obtain ⟨_, _, hdeq⟩ := MpscBoundedQueue.dequeue_step ha hcall hs
    rcases hdeq with ⟨hdeq, _⟩ | ⟨item, _, hr'⟩
    · exact (heq hrun).trans hdeq.symm
    · rw [hr] at hr'
      cases hr'
  | dequeueSome mail ha hs hr =>
    obtain ⟨_, _, hdeq⟩ := MpscBoundedQueue.dequeue_step ha hcall hs
    have hall := heq hrun
    rcases hdeq with ⟨_, hno⟩ | ⟨item, hdeq, hr'⟩
    · exact (hno _ hr).elim
    · rw [hr] at hr'
      cases hr'
      simp only [WorkerPc.taken, List.append_nil] at hall ⊢
      rw [hdeq, hall]
  | drain | drainNone =>
    rw [show m.lifecycle = .running from hrun] at hfin
    cases hfin trivial
  | peek ha hs | peekTrue ha hs | peekFalse ha hs =>
    obtain ⟨⟨_, _, hdeq⟩, _⟩ := MpscBoundedQueue.peek_step ha hcall hs
    exact (heq hrun).trans hdeq.symm
  | callReceive mail => simpa [WorkerPc.taken] using heq hrun
  | checkKilled mail hne => exact (hne hrun).elim
  | killRunning => cases hrun
  | finalizeSwap => cases hrun
  | dropEntry site | pushEntry site => cases site <;> exact heq hrun
  | _ => exact heq hrun

end

section
variable {t : T} {m m' : Shared Unit T M F} {pc pc' : CallerPc Unit M}

/-- A caller leaves the consumer and the other producers alone; a position it claims is held while
it stays inside `try_enqueue`. -/
theorem callerStep_mailbox (h : callerStep () t m pc = some (m', pc')) :
    (m'.mailbox.consumers = m.mailbox.consumers ∧ m'.mailbox.dequeued = m.mailbox.dequeued) ∧
      (∀ t', t' ≠ t → m'.mailbox.producers t' = m.mailbox.producers t') ∧
      (m'.mailbox.claimed = m.mailbox.claimed ∨
        (m'.mailbox.producers t).held.isSome = true) := by
  cases callerStep_move h with
  | enqueue _ ha hs | enqueueFull _ ha hs | enqueued _ ha hs =>
    obtain ⟨hside, hothers, hclaim, _⟩ := MpscBoundedQueue.enqueue_step ha hs
    exact ⟨hside, hothers, hclaim⟩
  | _ => exact ⟨⟨rfl, rfl⟩, fun _ _ => rfl, .inl rfl⟩

theorem callerStep_mailbox_inv (h : callerStep () t m pc = some (m', pc'))
    (hinv : MpscBoundedQueue.Inv () m.mailbox) : MpscBoundedQueue.Inv () m'.mailbox := by
  cases callerStep_move h with
  | enqueue _ _ hs | enqueueFull _ _ hs | enqueued _ _ hs => exact hinv.step (fun _ _ => rfl) hs
  | _ => exact hinv

theorem callerStep_notKilling (h : callerStep () t m pc = some (m', pc'))
    (hpc : m.lifecycle = .running → pc.NotKilling) (hrun : m'.lifecycle = .running) :
    pc'.NotKilling := by
  cases callerStep_move h with
  | postSwap => exact .inl rfl
  | wakeMark => exact .inr rfl
  | checkEntry => exact hpc hrun
  | killRunning => cases hrun
  | killSwap => exact (hpc hrun).elim
  | _ => trivial

/-- A caller holds a position only inside `try_enqueue`. -/
theorem callerStep_held (h : callerStep () t m pc = some (m', pc'))
    (hposts : (m.mailbox.producers t).held.isSome = true → ∃ mail, pc = .postEnqueue mail)
    (hheld : (m'.mailbox.producers t).held.isSome = true) : ∃ mail, pc' = .postEnqueue mail := by
  cases callerStep_move h with
  | enqueue mail => exact ⟨mail, rfl⟩
  | enqueueFull _ _ _ hr | enqueued _ _ _ hr =>
    rw [hr] at hheld
    cases hheld
  | _ =>
    obtain ⟨_, hpc⟩ := hposts hheld
    cases hpc

end

section
variable {s s' : State Unit T M F} {a : Action Unit T M F}

/-- A post past its claim goes on to look at `is_scheduled`. If it finds the flag clear it pushes an
entry; if it finds it set, somebody is due or the worker has yet to look at the mailbox. -/
theorem State.Posting.step {t : T} (hpost : s.Posting t) (H : ServedInv s) (hd : DeliveryInv s)
    (hok : Served s a) (hs : ActorRunner.step () s a = some s')
    (hrun : s'.mem.lifecycle = .running) : s'.Awaited := by
  have seen : s.mem.isScheduled = true → s.mem.lifecycle = .running → s'.Due ∨
      ∃ d, s'.workers d = .clearScheduled ∨ s.workers d = .clearScheduled := by
    intro hset hl
    rcases H.scheduled (by simp [hl]) hset with hdue | ⟨d, hd⟩
    · rcases hdue.step H hok hs with h | h | ⟨⟨d, h⟩, _⟩
      · exact .inl h
      · rw [hrun] at h
        cases h
      · exact .inr ⟨d, .inl h⟩
    · exact .inr ⟨d, .inr hd⟩
  cases step_move hs with
  | @post t' mail hidle | @kill t' hidle | @wake t' _ _ hidle =>
    have hne : t ≠ t' := by
      rintro rfl
      simp only [State.Posting, hidle] at hpost
    exact .inr (.inl ⟨t, by simpa [State.Posting, State.setCaller, hne] using hpost⟩)
  | @caller t' m' pc' h =>
    by_cases ht : t = t'
    · subst ht
      have seen' : s.mem.isScheduled = true → m' = s.mem → State.Awaited
          { s with mem := m', callers := Function.update s.callers t pc' } := by
        intro hset hm
        rcases seen hset (hm ▸ hrun) with h' | ⟨⟨⟩, h' | h'⟩
        · exact .inl h'
        all_goals exact .inr (.inr (by simp only at h' ⊢; rw [h']; trivial))
      generalize hpc : s.callers t = pc at h
      simp only [State.Posting, hpc] at hpost
      cases callerStep_move h with
      | enqueue mail ha hstep hno =>
        refine .inr (.inl ⟨t, ?_⟩)
        obtain ⟨_, _, _, hheld⟩ := MpscBoundedQueue.enqueue_step ha hstep
        rcases hheld hpost with h' | h'
        · simpa [State.Posting] using h'
        · exact (hno _ h').elim
      | enqueueFull mail ha hstep hr =>
        obtain ⟨_, _, _, hheld⟩ := MpscBoundedQueue.enqueue_step ha hstep
        rcases hheld hpost with h' | h' <;> rw [hr] at h' <;> cases h'
      | enqueued | postScheduled => exact .inr (.inl ⟨t, by simp [State.Posting]⟩)
      | postSeen hset | postSwapSeen hset => exact seen' hset rfl
      | postSwap => exact .inl (.caller t (by simp [CallerPc.Pushing]))
      | _ => exact hpost.elim
    · obtain ⟨_, hothers, _⟩ := callerStep_mailbox h
      exact .inr (.inl ⟨t, by simpa [State.Posting, ht, hothers t ht] using hpost⟩)
  | pick => exact .inl (.worker () (by simp [WorkerPc.WillRun]))
  | @worker _ o m' pc' h =>
    obtain ⟨⟨hprod, _⟩, _⟩ := workerStep_calls h hd.calls
    exact .inr (.inl ⟨t, by simpa [State.Posting, hprod] using hpost⟩)
  | stop => exact hok.elim

/-- The worker's last look at the mailbox: it finds the head published and pushes an entry, or the
producer of the head is still inside its post. -/
theorem Rechecking.step (hre : (s.workers ()).Rechecking) (H : ServedInv s) (hd : DeliveryInv s)
    (hok : Served s a) (hs : ActorRunner.step () s a = some s')
    (hrun : s'.mem.lifecycle = .running)
    (hlt : s.mem.mailbox.dequeued.length < s.mem.mailbox.claimed.length) : s'.Awaited := by
  cases step_move hs with
  | post | kill | wake | caller => exact .inr (.inr hre)
  | pick => exact .inl (.worker () (by simp [WorkerPc.WillRun]))
  | stop => exact hok.elim
  | @worker _ o m' pc' h =>
    have hcall := hd.calls
    generalize hpc : s.workers () = pc at h hre hcall
    cases workerStep_move h with
    | clearScheduled | peek | peekTrue => exact .inr (.inr (by simp [WorkerPc.Rechecking]))
    | peekFalse ha hstep hr =>
      obtain ⟨⟨hprod, _⟩, _, hfalse⟩ := MpscBoundedQueue.peek_step ha hcall hstep
      obtain ⟨p, hp, hseq⟩ := hfalse hr
      obtain ⟨t, ht⟩ := hd.mailbox.held_of_peekSequence hp hseq hlt
      obtain ⟨mail, hmail⟩ := hd.posts t ht
      exact .inr (.inl ⟨t, by simpa [State.Posting, hmail, hprod] using ht⟩)
    | rescheduleSeen hset =>
      rcases H.scheduled (by simp [show s.mem.lifecycle = .running from hrun]) hset with
        hdue | ⟨⟨⟩, hclear⟩
      · rcases hdue.step H hok hs with h' | h' | ⟨⟨⟨⟩, h'⟩, _⟩
        · exact .inl h'
        · rw [hrun] at h'
          cases h'
        · simp at h'
      · rw [hpc] at hclear
        cases hclear
    | reschedule => exact .inl (.worker () (by simp [WorkerPc.WillRun]))
    | _ => exact hre.elim

theorem State.Awaited.step (haw : s.Awaited) (H : ServedInv s) (hd : DeliveryInv s)
    (hok : Served s a) (hs : ActorRunner.step () s a = some s')
    (hrun : s'.mem.lifecycle = .running)
    (hlt : s.mem.mailbox.dequeued.length < s.mem.mailbox.claimed.length) : s'.Awaited := by
  rcases haw with hdue | ⟨t, ht⟩ | hre
  · rcases hdue.step H hok hs with h | h | ⟨⟨⟨⟩, h⟩, _⟩
    · exact .inl h
    · rw [hrun] at h
      cases h
    · exact .inr (.inr (by rw [h]; trivial))
  · exact ht.step H hd hok hs hrun
  · exact Rechecking.step hre H hd hok hs hrun hlt

/-- A step of a caller that begins its call. -/
theorem DeliveryInv.setCaller (hd : DeliveryInv s) {t : T} {pc : CallerPc Unit M}
    (hidle : s.callers t = .idle) (hpc : pc.NotKilling)
    (haw : s.mem.lifecycle = .running →
      s.mem.mailbox.dequeued.length < s.mem.mailbox.claimed.length → (s.setCaller t pc).Awaited) :
    DeliveryInv (s.setCaller t pc) where
  mailbox := hd.mailbox
  calls := hd.calls
  posts t' ht' := by
    have hne : t' ≠ t := by
      rintro rfl
      obtain ⟨mail, hmail⟩ := hd.posts t' ht'
      rw [hidle] at hmail
      cases hmail
    simpa [State.setCaller, hne] using hd.posts t' ht'
  delivered := hd.delivered
  handled := hd.handled
  awaited := haw
  callers hrun t' := by
    by_cases ht : t' = t
    · subst ht
      simpa [State.setCaller] using hpc
    · simpa [State.setCaller, ht] using hd.callers hrun t'

theorem DeliveryInv.step (hd : DeliveryInv s) (H : ServedInv s) (hok : Served s a)
    (hs : ActorRunner.step () s a = some s') : DeliveryInv s' := by
  have haw : s'.mem.lifecycle = .running → s.mem.lifecycle = .running →
      s.mem.mailbox.dequeued.length < s.mem.mailbox.claimed.length → s'.Awaited :=
    fun hrun' hrun hlt => (hd.awaited hrun hlt).step H hd hok hs hrun' hlt
  cases step_move hs with
  | post mail hidle => exact hd.setCaller hidle trivial fun h => haw h h
  | kill hidle => exact hd.setCaller hidle trivial fun h => haw h h
  | wake hidle => exact hd.setCaller hidle trivial fun h => haw h h
  | @caller t m' pc' h =>
    obtain ⟨⟨hcons, hdeq⟩, hothers, hclaim⟩ := callerStep_mailbox h
    obtain ⟨_, _, _, hdel, _⟩ := callerStep_frame h
    have running : m'.lifecycle = .running → s.mem.lifecycle = .running := by
      intro hrun
      rcases callerStep_lifecycle h with h' | ⟨h', _⟩
      · exact h'.symm.trans hrun
      · exact h'
    refine ⟨callerStep_mailbox_inv h hd.mailbox, ?_, fun t' ht' => ?_, ?_, fun hrun => ?_,
      fun hrun hlt => ?_, fun hrun t' => ?_⟩
    · simpa only [hcons] using hd.calls
    · by_cases ht : t' = t
      · subst ht
        simpa using callerStep_held h (hd.posts t') ht'
      · simp only [hothers t' ht] at ht'
        simpa [ht] using hd.posts t' ht'
    · simpa only [hdel, hdeq] using hd.delivered
    · simpa only [hdel, hdeq] using hd.handled (running hrun)
    · rcases hclaim with hclaim | hheld
      · simp only [hdeq, hclaim] at hlt
        exact haw hrun (running hrun) hlt
      · obtain ⟨mail, hmail⟩ := callerStep_held h (hd.posts t) hheld
        exact .inr (.inl ⟨t, by simpa [State.Posting, hmail] using hheld⟩)
    · by_cases ht : t' = t
      · subst ht
        simpa using callerStep_notKilling h (fun hrun => hd.callers hrun t') hrun
      · simpa [ht] using hd.callers (running hrun) t'
  | @pick _ origin rest hidle hq =>
    have hcall := hd.calls
    have hdel := hd.delivered
    have hhand := hd.handled
    rw [hidle] at hcall hdel hhand
    exact ⟨hd.mailbox, hcall, hd.posts, hdel, hhand, fun hrun hlt => haw hrun hrun hlt,
      hd.callers⟩
  | @worker _ o m' pc' h =>
    obtain ⟨⟨hprod, hclaim⟩, hcall⟩ := workerStep_calls h hd.calls
    have running : m'.lifecycle = .running → s.mem.lifecycle = .running := by
      intro hrun
      rcases workerStep_lifecycle h with h' | ⟨h', _⟩ | ⟨_, h', _⟩
      · exact h'.symm.trans hrun
      · exact h'
      · rw [hrun] at h'
        cases h'
    refine ⟨workerStep_mailbox_inv h hd.mailbox, hcall, fun t ht => ?_,
      workerStep_delivered h hd.calls hd.delivered hd.handled,
      fun hrun => workerStep_handled h hd.calls (H.finalizing ()) hrun hd.handled,
      fun hrun hlt => haw hrun (running hrun) ?_, fun hrun => hd.callers (running hrun)⟩
    · simp only [hprod] at ht
      exact hd.posts t ht
    · have hmono := (workerStep_dequeued h hd.calls).length_le
      simp only [hclaim] at hlt
      omega
  | stop => exact hok.elim

omit [DecidableEq T] in
theorem DeliveryInv.initial {slotSize capacity : Nat} {q : MpscBoundedQueue M}
    (hq : MpscBoundedQueue.new M slotSize capacity = some q) :
    DeliveryInv (initial Unit T F q) where
  mailbox := .initial () hq
  calls := ⟨id, id⟩
  posts _ h := by cases h
  delivered := List.prefix_rfl
  handled _ := rfl
  awaited _ h := (Nat.lt_irrefl _ h).elim
  callers _ _ := trivial

/-- Inside a call of `post`. -/
def CallerPc.InPost : CallerPc Unit M → Prop
  | .postLifecycle _ | .postEnqueue _ | .postScheduled | .postSwap | .schedule .post _ _ => True
  | _ => False

/-- No post and no `execute` is in progress, the queue is empty and no receive future is armed. -/
structure Settled (s : State Unit T M F) : Prop where
  posts : ∀ t, ¬(s.callers t).InPost
  worker : s.workers () = .idle
  queue : s.mem.queue () = []
  slot : s.mem.slot = none

omit [DecidableEq T] in
theorem DeliveryInv.not_awaited (hd : DeliveryInv s) (hrun : s.mem.lifecycle = .running)
    (hset : Settled s) : ¬s.Awaited := by
  rintro (hdue | ⟨t, ht⟩ | hre)
  · cases hdue with
    | entry d hq => exact hq hset.queue
    | future hslot =>
      rw [hset.slot] at hslot
      cases hslot
    | caller t hpush =>
      have hkill := hd.callers hrun t
      have hpost := hset.posts t
      cases hpc : s.callers t with
      | schedule origin dest checked =>
        rw [hpc] at hpush hkill hpost
        rcases hkill with rfl | rfl
        · exact hpost trivial
        · exact hpush rfl
      | _ =>
        rw [hpc] at hpush
        exact hpush
    | worker d hw =>
      rw [show s.workers d = .idle from hset.worker] at hw
      exact hw
  · have hpost := hset.posts t
    cases hpc : s.callers t <;> simp only [State.Posting, hpc] at ht
    all_goals (rw [hpc] at hpost; exact hpost trivial)
  · rw [hset.worker] at hre
    exact hre

/-- **Exactly-once delivery in order**, with one dispatcher: what `on_receive` was called with is an
initial part of the mails accepted by the mailbox in the order of their positions, and all of them
once the running actor has settled. -/
theorem delivered_in_order {capacity : Nat}
    (h : (machine T M F () capacity).Reach Served s) :
    s.mem.delivered <+: s.mem.mailbox.accepted ∧
      (s.mem.lifecycle = .running → Settled s → s.mem.delivered = s.mem.mailbox.accepted) := by
  have hd : DeliveryInv s := by
    refine h.inv_of ServedInv DeliveryInv (fun h => ?_) ?_ ?_
    · exact h.inv ServedInv (fun ⟨q, _, hs⟩ => hs ▸ .initial q) fun H hok hs => H.step hok hs
    · rintro s ⟨q, hq, rfl⟩
      exact .initial hq
    · exact fun H hd hok hs => hd.step H hok hs
  have hdeq := hd.mailbox.dequeued
  refine ⟨?_, fun hrun hset => ?_⟩
  · have htaken : s.mem.mailbox.dequeued <+: s.mem.mailbox.accepted := hdeq ▸ List.take_prefix ..
    exact ((List.prefix_append ..).trans hd.delivered).trans htaken
  · have hall : ¬s.mem.mailbox.dequeued.length < s.mem.mailbox.claimed.length :=
      fun hlt => hd.not_awaited hrun hset (hd.awaited hrun hlt)
    have hhand := hd.handled hrun
    rw [hset.worker] at hhand
    simp only [WorkerPc.taken, List.append_nil] at hhand
    rw [hhand, hdeq]
    refine List.take_of_length_le ?_
    have hlen := congrArg List.length hdeq
    rw [List.length_take, s.mem.mailbox.length_accepted] at hlen
    rw [s.mem.mailbox.length_accepted]
    omega

end

section
open List

/-- Two mails are posted by two threads; the future of the first stays pending until its thread
wakes the actor, and the dispatcher goes on to the second. -/
def twoPosts : List (Action Unit Nat Nat Unit) :=
  Action.post 0 7 :: replicate 11 (Action.caller 0) ++
    Action.post 1 8 :: replicate 8 (Action.caller 1) ++
    Action.pick () :: replicate 10 (Action.worker () .done) ++
    replicate 6 (Action.worker () (.pending ())) ++
    Action.wake 0 none () :: replicate 4 (Action.caller 0) ++
    Action.pick () :: replicate 7 (Action.worker () .done) ++
    Action.pick () :: replicate 19 (Action.worker () .done)

def settled : State Unit Nat Nat Unit :=
  ((machine Nat Nat Unit () 2).run
    (initial _ _ _ ((MpscBoundedQueue.new Nat mailSlotSize 2).get rfl)) twoPosts).get rfl

theorem delivered_in_order_settled :
    settled.mem.delivered = [7, 8] ∧ settled.mem.delivered = settled.mem.mailbox.accepted := by
  have hserved : (machine Nat Nat Unit () 2).Reach Served settled := by
    refine .get (show (machine Nat Nat Unit () 2).Init _ from ⟨_, rfl, rfl⟩) ?_ rfl
    decide +kernel
  have hset : Settled settled := by
    refine ⟨fun t => ?_, rfl, rfl, rfl⟩
    match t with
    | 0 => exact id
    | 1 => exact id
    | _ + 2 => exact id
  exact ⟨rfl, (delivered_in_order hserved).2 rfl hset⟩

end

end DignusActor.ActorRunner
