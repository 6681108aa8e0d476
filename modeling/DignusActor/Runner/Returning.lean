import DignusActor.Queues.MpscProgress
import DignusActor.Runner.Delivery
import DignusActor.Runner.Failure

/-! # `execute` comes to its end

`State.Returns` says that a dispatcher thread that runs alone comes back from `execute`, whatever
user code answers at each of its calls, short of a panic that ends the thread. `left` bounds the
steps to come: the mails it can still read, and its place in the code. It holds of every reachable
state of a runner (`returns_of_reach`), with any number of threads in the middle of anything. -/

namespace DignusActor.ActorRunner

open Machine (Reach)
open MpscBoundedQueue (ConsumerPc Readable)

variable {D T M F : Type}

/-- The mailbox can be read, and each thread is in the call of it that its place says. -/
structure ExecuteInv (s : State D T M F) : Prop where
  mailbox : Readable s.mem.mailbox
  calls : ∀ d, CallOk (s.mem.mailbox.consumers d) (s.workers d)

/-- A bound on the steps of a worker to the end of `execute`, when it reads no further mail. -/
def WorkerPc.rank (consumer : ConsumerPc M) : WorkerPc M F → Nat
  | .idle | .dead => 0
  | .onFinalize => 1
  | .onKill => 2
  | .callOnKill => 3
  | .clearUnmark => 4
  | .clearActive => 5
  | .clearSlot => 6
  | .drain => 6 + consumer.dequeueRank
  | .finalizeSwap => 10
  | .schedule (.kill _) true => 28
  | .schedule (.kill _) false => 29
  | .schedule _ true => 1
  | .schedule _ false => 2
  | .reschedule => 3
  | .peek => 3 + consumer.peekRank
  | .clearScheduled => 7
  | .finalLoad => 11
  | .publish _ => 27
  | .killScheduled _ => 30
  | .killLifecycle _ => 31
  | .dequeue => 31 + consumer.dequeueRank
  | .pollReset _ _ => 32
  | .pollDeactivate _ _ => 33
  | .pollSlot .mailbox => 38
  | .pollUnmark .mailbox => 39
  | .armUnmark => 40
  | .armActivate => 41
  | .armSlot _ => 42
  | .receiving => 43
  | .callReceive _ => 44
  | .checkLifecycle _ => 45
  | .loadLifecycle => 50
  | .pollSlot (.pending _) => 51
  | .pollUnmark (.pending _) => 52
  | .loadActive _ => 53

variable [DecidableEq D] [DecidableEq T]

/-- Dispatcher `d`, taking steps of its own only, comes to the end of `execute`: as long as it has
not, it can go on, and each step that it survives leads to the end. -/
inductive State.Returns (owner d : D) : State D T M F → Prop
  | idle {s} : s.workers d = .idle → State.Returns owner d s
  | step {s} : (∃ o s', step owner s (.worker d o) = some s' ∧ s'.workers d ≠ .dead) →
    (∀ o s', step owner s (.worker d o) = some s' → s'.workers d ≠ .dead →
      State.Returns owner d s') → State.Returns owner d s

/-- A bound on the steps of dispatcher `d` to the end of `execute`. -/
def Shared.left (m : Shared D T M F) (d : D) (pc : WorkerPc M F) : Nat :=
  100 * m.mailbox.unread d + pc.rank (m.mailbox.consumers d)

section
variable {owner d : D} {t : T} {o : Outcome F} {m m' : Shared D T M F} {pc pc' : WorkerPc M F}

omit [DecidableEq D] [DecidableEq T] in
/-- No call of the mailbox is in progress where `execute` makes none. -/
theorem rank_of_callOk {consumer : ConsumerPc M}
    (h : ¬consumer.Peeking ∧ ¬consumer.Dequeuing) :
    consumer.dequeueRank = 3 ∧ consumer.peekRank = 3 := by
  cases consumer <;> first | exact ⟨rfl, rfl⟩ | exact absurd trivial h.1 | exact absurd trivial h.2

theorem workerStep_readable (h : workerStep owner d m o pc = some (m', pc'))
    (hm : Readable m.mailbox) : Readable m'.mailbox := by
  cases workerStep_move h with
  | dequeue _ hs | dequeueNone _ hs | dequeueSome _ _ hs | drain _ hs | drainNone _ hs
  | peek _ hs | peekTrue _ hs | peekFalse _ hs => exact hm.step hs
  | _ => exact hm

/-- A worker moves its own consumer only. -/
theorem workerStep_consumers_of_ne (h : workerStep owner d m o pc = some (m', pc')) {d' : D}
    (hd : d' ≠ d) : m'.mailbox.consumers d' = m.mailbox.consumers d' := by
  have hne : some d ≠ some d' := fun heq => hd (Option.some.inj heq).symm
  cases workerStep_move h with
  | dequeue ha hs | dequeueNone ha hs | dequeueSome _ ha hs | drain ha hs | drainNone ha hs
  | peek ha hs | peekTrue ha hs | peekFalse ha hs =>
    rcases ha with rfl | rfl <;> exact MpscBoundedQueue.step_consumers_of_ne hs hne
  | _ => rfl

theorem callerStep_execute {pc pc' : CallerPc D M} (h : callerStep owner t m pc = some (m', pc'))
    (hm : Readable m.mailbox) :
    Readable m'.mailbox ∧ m'.mailbox.consumers = m.mailbox.consumers := by
  cases callerStep_move h with
  | enqueue _ ha hs | enqueueFull _ ha hs | enqueued _ ha hs =>
    exact ⟨hm.step hs, (MpscBoundedQueue.enqueue_step ha hs).1.1⟩
  | _ => exact ⟨hm, rfl⟩

/-- Where the drain goes. -/
theorem workerStep_drain (h : workerStep owner d m o .drain = some (m', pc')) :
    ∃ a mailbox, (a = .consumer d ∨ a = .dequeue d) ∧
      MpscBoundedQueue.step m.mailbox a = some mailbox ∧ m' = { m with mailbox } ∧
      (pc' = .drain ∧ mailbox.consumers d ≠ .returned none ∨
        pc' = .clearSlot ∧ mailbox.consumers d = .returned none) := by
  obtain ⟨⟨m₁, r⟩, hm, he⟩ := Option.map_eq_some_iff.mp h
  obtain ⟨a, mailbox, ha, hstep, rfl, hnone, hr⟩ := tryDequeue_eq hm
  refine ⟨a, mailbox, ha, hstep, ?_⟩
  rcases r with _ | _ | mail <;> cases he
  · exact ⟨rfl, .inl ⟨rfl, hnone rfl none⟩⟩
  · exact ⟨rfl, .inr ⟨rfl, hr _ rfl⟩⟩
  · refine ⟨rfl, .inl ⟨rfl, ?_⟩⟩
    rw [hr _ rfl]
    nofun

/-- Where the look at the mailbox at the end of `execute` goes. -/
theorem workerStep_peek (h : workerStep owner d m o .peek = some (m', pc')) :
    ∃ a mailbox, (a = .consumer d ∨ a = .peek d) ∧
      MpscBoundedQueue.step m.mailbox a = some mailbox ∧ m' = { m with mailbox } ∧
      (pc' = .peek ∧ (∀ b, mailbox.consumers d ≠ .peeked b) ∨
        pc' = .reschedule ∨ pc' = .idle) := by
  obtain ⟨⟨m₁, r⟩, hm, he⟩ := Option.map_eq_some_iff.mp h
  obtain ⟨mailbox, hs, hr⟩ := Option.map_eq_some_iff.mp hm
  cases hr
  refine ⟨_, mailbox, ?_, hs, ?_⟩
  · split
    · exact .inl rfl
    · exact .inr rfl
  · cases hc : mailbox.consumers d with
    | peeked b =>
      rw [hc] at he
      cases b <;> cases he
      · exact ⟨rfl, .inr (.inr rfl)⟩
      · exact ⟨rfl, .inr (.inl rfl)⟩
    | _ =>
      rw [hc] at he
      cases he
      exact ⟨rfl, .inl ⟨rfl, by simp⟩⟩

/-- Each step of a worker leads towards the end of `execute`. -/
theorem workerStep_left (hm : Readable m.mailbox) (hcall : CallOk (m.mailbox.consumers d) pc)
    (h : workerStep owner d m o pc = some (m', pc')) : m'.left d pc' < m.left d pc := by
  -- a step that leaves the mailbox alone is seen by the place in the code
  have hrest {m₁ : Shared D T M F} {pc₁ : WorkerPc M F} (hmailbox : m₁.mailbox = m.mailbox)
      (hrank : pc₁.rank (m.mailbox.consumers d) < pc.rank (m.mailbox.consumers d)) :
      m₁.left d pc₁ < m.left d pc := by
    simp only [Shared.left, hmailbox]
    omega
  by_cases hdrain : pc = .drain
  · subst hdrain
    obtain ⟨a, mailbox, ha, hs, rfl, hpc'⟩ := workerStep_drain h
    simp only [Shared.left]
    have hmove := MpscBoundedQueue.dequeue_move hm.shape ha hcall hs
    rcases hpc' with ⟨rfl, hne⟩ | ⟨rfl, hnone⟩
    · have hrank := ConsumerPc.dequeueRank_le (mailbox.consumers d)
      simp only [WorkerPc.rank]
      cases hmove with
      | on _ hle hlt => omega
      | read _ hlt => omega
      | empty hr => exact absurd hr hne
      | item item hr hle hlt =>
        have hstart : (mailbox.consumers d).dequeueRank = 3 := by rw [hr]; rfl
        omega
    · have hle := hmove.unread_le
      simp only [WorkerPc.rank]
      have hpos := hmove.rank_none hnone
      omega
  by_cases hpeek : pc = .peek
  · subst hpeek
    obtain ⟨a, mailbox, ha, hs, rfl, hpc'⟩ := workerStep_peek h
    obtain ⟨hunread, hpos, hmove⟩ := MpscBoundedQueue.peek_move ha hcall hs
    simp only [Shared.left, hunread]
    rcases hpc' with ⟨rfl, hne⟩ | rfl | rfl
    · rcases hmove with ⟨b, hb⟩ | ⟨-, hlt⟩
      · exact absurd hb (hne b)
      · simp only [WorkerPc.rank]
        omega
    · simp only [WorkerPc.rank]
      omega
    · simp only [WorkerPc.rank]
      omega
  cases workerStep_move h with
  | @dequeue a mailbox ha hs hno =>
    simp only [Shared.left, WorkerPc.rank]
    cases MpscBoundedQueue.dequeue_move hm.shape ha hcall hs with
    | on _ hle hlt => omega
    | read _ hlt =>
      have hrank := ConsumerPc.dequeueRank_le (mailbox.consumers d)
      omega
    | empty hr => exact absurd hr (hno _)
    | item _ hr => exact absurd hr (hno _)
  | dequeueNone ha hs =>
    have hle := (MpscBoundedQueue.dequeue_move hm.shape ha hcall hs).unread_le
    simp only [Shared.left, WorkerPc.rank]
    omega
  | dequeueSome mail ha hs hr =>
    have hmove := MpscBoundedQueue.dequeue_move hm.shape ha hcall hs
    have hle := hmove.unread_le
    have hpos := hmove.rank_some hr
    simp only [Shared.left, WorkerPc.rank]
    omega
  | drain | drainNone => exact absurd rfl hdrain
  | peek | peekTrue | peekFalse => exact absurd rfl hpeek
  | pollEmptyLoop | receiveDone | lifecycleRunning | finalizeSwap =>
    refine hrest rfl ?_
    simp only [WorkerPc.rank, (rank_of_callOk hcall).1]
    omega
  | clearScheduled =>
    refine hrest rfl ?_
    simp only [WorkerPc.rank, (rank_of_callOk hcall).2]
    omega
  | dropEntry site | checkEntry site | pushEntry site =>
    refine hrest rfl ?_
    cases site <;> simp [WorkerPc.rank, ScheduleSite.next]
  | pollUnmark site | pollPending site | pollFinished site =>
    refine hrest rfl ?_
    cases site <;> simp [WorkerPc.rank]
  | _ => exact hrest rfl (by simp [WorkerPc.rank])

/-- A worker inside `execute` can go on. -/
theorem workerStep_isSome (hm : Readable m.mailbox) (hidle : pc ≠ .idle) (hdead : pc ≠ .dead) :
    (workerStep owner d m .done pc).isSome = true := by
  have hmailbox {a : MpscBoundedQueue.Action T D M} (ha : (m.mailbox.consumers d).inCall = false →
      (MpscBoundedQueue.step m.mailbox a).isSome = true) :
      (MpscBoundedQueue.step m.mailbox
        (if (m.mailbox.consumers d).inCall then .consumer d else a)).isSome = true := by
    cases hin : (m.mailbox.consumers d).inCall with
    | true => exact hm.consumerStep_isSome hin
    | false => exact ha hin
  cases pc with
  | idle => exact absurd rfl hidle
  | dead => exact absurd rfl hdead
  | dequeue | drain =>
    simp only [workerStep, Shared.tryDequeue, Option.isSome_map]
    exact hmailbox fun hin => by simp [MpscBoundedQueue.step, hin]
  | peek =>
    simp only [workerStep, Shared.tryPeek, Option.isSome_map]
    exact hmailbox fun hin => by simp [MpscBoundedQueue.step, hin]
  | schedule site checked =>
    cases checked with
    | false =>
      simp only [workerStep]
      split <;> rfl
    | true => rfl
  | publish part => cases part <;> rfl
  | loadActive | killLifecycle | killScheduled | checkLifecycle | finalLoad | reschedule
  | finalizeSwap | loadLifecycle =>
    simp only [workerStep]
    split <;> rfl
  | _ => rfl

end

section
variable {owner d : D} {s s' : State D T M F} {a : Action D T M F}

theorem ExecuteInv.step (H : ExecuteInv s) (hs : step owner s a = some s') : ExecuteInv s' := by
  cases step_move hs with
  | post | kill | wake | stop => exact ⟨H.mailbox, H.calls⟩
  | caller hc =>
    obtain ⟨hmailbox, hconsumers⟩ := callerStep_execute hc H.mailbox
    refine ⟨hmailbox, fun d => ?_⟩
    dsimp only
    rw [hconsumers]
    exact H.calls d
  | @pick d origin rest hidle =>
    refine ⟨H.mailbox, fun d' => ?_⟩
    by_cases hd : d' = d
    · subst hd
      have hcall := H.calls d'
      rw [hidle] at hcall
      simp only [Function.update_self]
      exact hcall
    · simpa [hd] using H.calls d'
  | @worker d o m pc hw =>
    refine ⟨workerStep_readable hw H.mailbox, fun d' => ?_⟩
    by_cases hd : d' = d
    · subst hd
      simpa using (workerStep_calls hw (H.calls d')).2
    · simpa [hd, workerStep_consumers_of_ne hw hd] using H.calls d'

omit [DecidableEq D] [DecidableEq T] in
theorem initial_executeInv {slotSize capacity : Nat} {q : MpscBoundedQueue M}
    (h : MpscBoundedQueue.new M slotSize capacity = some q) (stopped : D → Bool) :
    ExecuteInv { initial D T F q with mem := { (initial D T F q).mem with stopped } } :=
  ⟨.initial h, fun _ => ⟨id, id⟩⟩

/-- **`execute` returns.** Short of a panic that ends the thread, a dispatcher that runs alone comes
to the end of `execute`. -/
theorem ExecuteInv.returns (H : ExecuteInv s) (hdead : s.workers d ≠ .dead) :
    s.Returns owner d := by
  -- by induction on the bound of the steps to come
  induction hn : s.mem.left d (s.workers d) using Nat.strong_induction_on generalizing s with
  | _ n ih =>
  by_cases hidle : s.workers d = .idle
  · exact .idle hidle
  · refine .step ?_ fun o s' hs hdead' => ?_
    · have hsome : (workerStep owner d s.mem .done (s.workers d)).isSome = true :=
        workerStep_isSome H.mailbox hidle hdead
      obtain ⟨⟨m, pc⟩, hw⟩ := Option.isSome_iff_exists.mp hsome
      refine ⟨.done, { s with mem := m, workers := Function.update s.workers d pc }, ?_, ?_⟩
      · simp [ActorRunner.step, hw]
      · simp only [Function.update_self]
        rintro rfl
        exact absurd (workerStep_dead hw).1 (by simp)
    · cases step_move hs with
      | @worker _ _ m pc hw =>
        have hlt := workerStep_left H.mailbox (H.calls d) hw
        refine ih _ ?_ (H.step hs) hdead' rfl
        simpa [← hn] using hlt

theorem returns_of_reach {capacity : Nat} {ok : State D T M F → Action D T M F → Prop}
    (h : Reach (machine T M F owner capacity) ok s) (hdead : s.workers d ≠ .dead) :
    s.Returns owner d := by
  refine ExecuteInv.returns (h.inv ExecuteInv ?_ fun H _ hs => H.step hs) hdead
  rintro s ⟨q, hq, rfl⟩
  exact initial_executeInv hq fun _ => false

end

end DignusActor.ActorRunner
