import DignusActor.Delayed.Slots

/-! # The hand-off of the mailbox with delayed stores

A poster publishes its slot and then reads `is_scheduled`; the worker clears `is_scheduled` and then
reads the slot of the front. With both stores in flight each can miss the other's, and the mail at
the front is left with nobody to receive it (`stranded_bothDelayed`). That is the only way: as long
as one of them sees the other (`Visible`), a mailbox is empty when everything is quiet
(`handed_off_of_visible`). -/

universe u v

namespace DignusActor.Delayed

open Machine (Reach)

variable {T : Type u} {M : Type v}

/-- The thread has the position, or has published it and has not yet asked for an execution. -/
def CallerPc.Owns (position : Nat) : CallerPc M → Prop
  | .write p _ | .publish p | .loadScheduled p | .swapScheduled p => p = position
  | _ => False

/-- The thread has published the position, and not yet asked for an execution. -/
def CallerPc.Asking (position : Nat) : CallerPc M → Prop
  | .loadScheduled p | .swapScheduled p => p = position
  | _ => False

/-- Up to the store that clears `is_scheduled`, or about to schedule the runner. -/
def WorkerPc.Marked : WorkerPc M → Prop
  | .dequeue | .read | .release _ | .receiving _ | .clearScheduled | .schedule => True
  | _ => False

/-- The runner is executed, or scheduled, or about to be. -/
inductive State.Due (s : State T M) : Prop
  | entry : 0 < s.scheduled + s.batch → State.Due s
  | executing : s.worker ≠ .idle → State.Due s
  | scheduling (t : Option T) : s.callers t = .schedule → State.Due s

/-- When the poster of the front finds `is_scheduled` set, and the worker has returned from
`execute`, the worker's store that clears it is not in flight; and when the worker finds the front
not published, a poster whose store of it is in flight has yet to look at `is_scheduled`. -/
def Visible (s : State T M) : Action T M → Prop
  | .call t =>
    match s.callers t with
    | .loadScheduled p | .swapScheduled p =>
      p = s.front → s.worker = .idle → (s.seen t).isScheduled = true →
        .clearScheduled ∉ s.mem.buffers none
    | _ => True
  | .worker =>
    match s.worker with
    | .peek => s.value s.front ≠ s.front + 1 →
      ∀ t, .sequence s.front (s.front + 1) ∈ s.mem.buffers (some t) →
        (s.callers (some t)).Asking s.front
    | _ => True
  | _ => True

instance (position : Nat) (pc : CallerPc M) : Decidable (pc.Asking position) := by
  cases pc <;> unfold CallerPc.Asking <;> infer_instance

instance [DecidableEq M] [Fintype T] (s : State T M) : DecidablePred (Visible s) := fun act => by
  cases act with
  | call t => cases hpc : s.callers t <;> simp only [Visible, hpc] <;> infer_instance
  | worker => cases hpc : s.worker <;> simp only [Visible, hpc] <;> infer_instance
  | post | take | execute | flush =>
    unfold Visible
    infer_instance

/-- Nothing is in flight, in progress or scheduled. -/
structure Quiet (s : State T M) : Prop where
  drained : ∀ t, s.mem.buffers t = []
  callers : ∀ t, s.callers t = .idle
  worker : s.worker = .idle
  entries : s.scheduled = 0 ∧ s.batch = 0

structure HandOff (s : State T M) : Prop where
  /-- Who has set `is_scheduled` executes the runner, or has its store that clears it in flight. -/
  marked : s.mem.memory.isScheduled = true → 0 < s.scheduled + s.batch ∨ s.worker.Marked ∨
    .clearScheduled ∈ s.mem.buffers none ∨ ∃ t, s.callers t = .schedule
  /-- The front of a mailbox that is not empty has somebody to look after it. -/
  served : s.front < s.back → s.Due ∨ ∃ t, (s.callers t).Owns s.front

section

variable {s s' : State T M} {p : Nat} {t : Option T}

theorem isScheduled_foldl {m : Memory M} {xs : List (Store M)}
    (h : (xs.foldl Memory.apply m).isScheduled = true) : m.isScheduled = true := by
  induction xs generalizing m with
  | nil => exact h
  | cons x xs ih =>
    have hx := ih h
    cases x with
    | data | sequence => exact hx
    | clearScheduled => cases hx

/-- A mark that no store in flight clears is of somebody who executes the runner. -/
theorem HandOff.due (h : HandOff s) (hset : s.mem.memory.isScheduled = true)
    (hclear : s.worker = .idle → .clearScheduled ∉ s.mem.buffers none) : s.Due := by
  by_cases hidle : s.worker = .idle
  · rcases h.marked hset with hentry | hmarked | hflight | ⟨t, ht⟩
    · exact .entry hentry
    · rw [hidle] at hmarked
      exact hmarked.elim
    · exact absurd hflight (hclear hidle)
    · exact .scheduling t ht
  · exact .executing hidle

variable [DecidableEq T] {pc : CallerPc M}

/-- A thread that goes on keeps the front, or leaves it to somebody. -/
theorem HandOff.setCaller (h : HandOff s)
    (hschedule : s.callers t = .schedule → 0 < s.scheduled + s.batch)
    (howns : s.front < s.back → (s.callers t).Owns s.front → pc.Owns s.front ∨ s.Due) :
    HandOff (s.setCaller t pc) := by
  have hdue (hdue : s.Due) : (s.setCaller t pc).Due := by
    rcases hdue with hentry | hexecuting | ⟨u, hu⟩
    · exact .entry hentry
    · exact .executing hexecuting
    · by_cases hut : u = t
      · exact .entry (hschedule (hut ▸ hu))
      · exact .scheduling u ((s.callers_setCaller_of_ne hut pc).trans hu)
  refine ⟨fun hset => ?_, fun hlt => ?_⟩
  · refine (h.marked hset).elim .inl fun hrest => ?_
    rcases hrest with hmarked | hflight | ⟨u, hu⟩
    · exact .inr (.inl hmarked)
    · exact .inr (.inr (.inl hflight))
    · by_cases hut : u = t
      · exact .inl (hschedule (hut ▸ hu))
      · exact .inr (.inr (.inr ⟨u, (s.callers_setCaller_of_ne hut pc).trans hu⟩))
  · rcases h.served hlt with hs | ⟨u, hu⟩
    · exact .inl (hdue hs)
    · by_cases hut : u = t
      · subst hut
        rcases howns hlt hu with hpc | hs
        · exact .inr ⟨u, (congrArg (CallerPc.Owns _) (s.callers_setCaller_self u pc)).mpr hpc⟩
        · exact .inl (hdue hs)
      · exact .inr ⟨u, (congrArg (CallerPc.Owns _) (s.callers_setCaller_of_ne hut pc)).mpr hu⟩

/-- A store that enters the buffer of its thread. -/
theorem HandOff.store (h : HandOff s) {x : Store M} : HandOff (s.store t x) := by
  refine ⟨fun hset => (h.marked hset).imp_right (.imp_right (.imp_left fun hflight => ?_)),
    fun hlt => (h.served hlt).imp_left fun hdue => ?_⟩
  · exact mem_buffers_store.mpr (.inl hflight)
  · rcases hdue with hentry | hexecuting | ⟨u, hu⟩
    · exact .entry hentry
    · exact .executing hexecuting
    · exact .scheduling u hu

/-! ## The steps of a poster -/

/-- A thread that neither schedules nor has a position. -/
theorem HandOff.idleCaller (h : HandOff s) (hschedule : s.callers t ≠ .schedule)
    (howns : ∀ p, ¬(s.callers t).Owns p) : HandOff (s.setCaller t pc) :=
  h.setCaller (fun hpc => absurd hpc hschedule) fun _ ho => absurd ho (howns _)

theorem HandOff.claim (h : HandOff s) (hle : s.front ≤ s.back) {item : M}
    (hpc : s.callers t = .compareExchange s.back item) :
    HandOff ((s.setMemory { s.mem.memory with
      mailbox := { s.mailbox with producerIndex := s.back + 1 } }).setCaller t
        (.write s.back item)) := by
  have hcallers {u : Option T} (hut : u ≠ t) := s.callers_setCaller_of_ne hut (.write s.back item)
  have hself := s.callers_setCaller_self t (.write s.back item)
  have hother {u : Option T} {pc : CallerPc M} (hu : s.callers u = pc)
      (hne : pc ≠ .compareExchange s.back item) : u ≠ t := by
    rintro rfl
    exact hne (hu.symm.trans hpc)
  refine ⟨fun hset => ?_, fun _ => ?_⟩
  · refine (h.marked hset).imp_right (.imp_right (.imp_right fun ⟨u, hu⟩ => ⟨u, ?_⟩))
    exact (hcallers (hother hu (by simp))).trans hu
  · rcases hle.lt_or_eq with hlt | heq
    · rcases h.served hlt with (hentry | hexecuting | ⟨u, hu⟩) | ⟨u, hu⟩
      · exact .inl (.entry hentry)
      · exact .inl (.executing hexecuting)
      · exact .inl (.scheduling u ((hcallers (hother hu (by simp))).trans hu))
      · have hut : u ≠ t := by
          rintro rfl
          rw [hpc] at hu
          exact hu
        exact .inr ⟨u, (congrArg (CallerPc.Owns s.front) (hcallers hut)).mpr hu⟩
    · exact .inr ⟨t, (congrArg (CallerPc.Owns s.front) hself).mpr heq.symm⟩

omit [DecidableEq T] in
theorem setMemory_same (hset : s.mem.memory.isScheduled = true) :
    s.setMemory { s.mem.memory with isScheduled := true } = s := by
  obtain ⟨⟨⟨q, flag⟩, buffers⟩, scheduled, batch, worker, callers⟩ := s
  cases hset
  rfl

theorem HandOff.call (h : HandOff s) (hslots : Slots s) (hok : Visible s (.call t))
    (hs : callerStep s t = some s') : HandOff s' := by
  unfold callerStep at hs
  unfold Visible at hok
  cases hpc : s.callers t <;> simp only [hpc] at hs hok
  case idle => cases hs
  case loadIndex =>
    cases hs
    exact h.idleCaller (by simp [hpc]) fun p => by rw [hpc]; exact id
  case loadSequence =>
    split at hs
    · cases hs
      exact h.idleCaller (by simp [hpc]) fun p => by rw [hpc]; exact id
    · split at hs <;> cases hs <;>
        exact h.idleCaller (by simp [hpc]) fun p => by rw [hpc]; exact id
  case compareExchange p item =>
    split at hs
    · split at hs <;> cases hs
      · rename_i hp
        subst hp
        exact h.claim hslots.le hpc
      · exact h.idleCaller (by simp [hpc]) fun p => by rw [hpc]; exact id
    · cases hs
  case write p item =>
    cases hs
    refine h.store.setCaller (fun hschedule => ?_) fun _ ho => .inl ?_
    · cases hpc.symm.trans hschedule
    · exact (congrArg (CallerPc.Owns s.front) hpc).mp ho
  case publish p =>
    cases hs
    refine h.store.setCaller (fun hschedule => ?_) fun _ ho => .inl ?_
    · cases hpc.symm.trans hschedule
    · exact (congrArg (CallerPc.Owns s.front) hpc).mp ho
  case loadScheduled p =>
    cases hs
    refine h.setCaller (fun hschedule => ?_) fun _ ho => ?_
    · cases hpc.symm.trans hschedule
    have hp : p = s.front := (congrArg (CallerPc.Owns s.front) hpc).mp ho
    by_cases hset : (s.seen t).isScheduled = true
    · exact .inr (h.due (isScheduled_foldl hset) fun hidle => hok hp hidle hset)
    · rw [if_neg hset]
      exact .inl hp
  case swapScheduled p =>
    split at hs <;> cases hs
    rename_i hdrained
    by_cases hset : s.mem.memory.isScheduled = true
    · rw [if_pos hset, setMemory_same hset]
      refine h.setCaller (fun hschedule => ?_) fun _ ho => .inr ?_
      · cases hpc.symm.trans hschedule
      have hp : p = s.front := (congrArg (CallerPc.Owns s.front) hpc).mp ho
      have hseen : (s.seen t).isScheduled = true := by
        rw [State.seen, StoreBuffer.view_of_nil (List.isEmpty_iff.mp hdrained)]
        exact hset
      exact h.due hset fun hidle => hok hp hidle hseen
    · rw [if_neg hset]
      exact ⟨fun _ => .inr (.inr (.inr ⟨t, State.callers_setCaller_self ..⟩)),
        fun _ => .inl (.scheduling t (State.callers_setCaller_self ..))⟩
  case schedule =>
    split at hs <;> cases hs
    have hentry : 0 < s.scheduled + 1 + s.batch := by omega
    exact ⟨fun _ => .inl hentry, fun _ => .inl (.entry hentry)⟩

/-! ## The steps of the worker -/

omit [DecidableEq T] in
theorem HandOff.of_marked (h : s.worker.Marked) : HandOff s := by
  refine ⟨fun _ => .inr (.inl h), fun _ => .inl (.executing fun hidle => ?_)⟩
  rw [hidle] at h
  exact h

omit [DecidableEq T] in
/-- The worker returns from `execute`, or goes on to schedule the runner. -/
theorem HandOff.leave (h : HandOff s) (hpc : ¬s.worker.Marked) {pc : WorkerPc M}
    (hserved : s.front < s.back → 0 < s.scheduled + s.batch ∨ pc ≠ .idle ∨
      (∃ t, s.callers t = .schedule) ∨ ∃ t, (s.callers t).Owns s.front) :
    HandOff { s with worker := pc } := by
  refine ⟨fun hset => (h.marked hset).imp_right fun hrest => ?_, fun hlt => ?_⟩
  · exact .inr (hrest.resolve_left hpc)
  · rcases hserved hlt with hentry | hbusy | ⟨t, ht⟩ | howns
    · exact .inl (.entry hentry)
    · exact .inl (.executing hbusy)
    · exact .inl (.scheduling t ht)
    · exact .inr howns

omit [DecidableEq T] in
/-- A front that the worker does not see published has its poster. -/
theorem Slots.poster (h : Slots s) (hlt : s.front < s.back)
    (hmiss : s.value s.front ≠ s.front + 1) :
    (∃ t, (s.callers t).Owns s.front) ∨
      ∃ t, .sequence s.front (s.front + 1) ∈ s.mem.buffers (some t) := by
  obtain ⟨-, t, ht⟩ := (h.claimed s.front le_rfl hlt).resolve_left hmiss
  have howns (u : Option T) (hu : s.front ∈ (s.callers u).held) : (s.callers u).Owns s.front := by
    cases hpc : s.callers u with
    | write p _ | publish p =>
      rw [hpc] at hu
      exact (List.mem_singleton.mp hu).symm
    | _ =>
      rw [hpc] at hu
      cases hu
  cases t with
  | none => exact .inl ⟨none, howns none ht⟩
  | some t =>
    rcases List.mem_append.mp ht with hflight | hheld
    · obtain ⟨x, hx, hp⟩ := List.mem_filterMap.mp hflight
      cases x with
      | sequence p value =>
        cases hp
        obtain rfl := h.flying t _ value hx
        exact .inr ⟨t, hx⟩
      | data | clearScheduled => cases hp
    · exact .inl ⟨some t, howns _ hheld⟩

theorem HandOff.worker (h : HandOff s) (hslots : Slots s) (hok : Visible s .worker)
    (hs : workerStep s = some s') : HandOff s' := by
  unfold workerStep at hs
  unfold Visible at hok
  cases hpc : s.worker <;> simp only [hpc] at hs hok
  case idle => cases hs
  case dequeue =>
    cases hs
    refine .of_marked ?_
    split <;> trivial
  case read =>
    obtain ⟨item, -, rfl⟩ := Option.map_eq_some_iff.mp hs
    exact .of_marked trivial
  case release item =>
    cases hs
    exact .of_marked trivial
  case receiving =>
    split at hs <;> cases hs
    exact .of_marked trivial
  case clearScheduled =>
    cases hs
    exact ⟨fun _ => .inr (.inr (.inl (mem_buffers_store.mpr (.inr ⟨rfl, rfl⟩)))),
      fun _ => .inl (.executing (by simp))⟩
  case peek =>
    cases hs
    refine h.leave (by rw [hpc]; exact id) fun hlt => ?_
    by_cases hfound : s.value s.front = s.front + 1
    · refine .inr (.inl ?_)
      have hzero : ((s.seen none).sequence s.mailbox.consumerIndex : Int) -
          (s.mailbox.consumerIndex + 1 : Nat) = 0 := by
        rw [show (s.seen none).sequence s.mailbox.consumerIndex = s.mailbox.consumerIndex + 1
          from hfound]
        omega
      rw [if_pos hzero]
      simp
    · rcases hslots.poster hlt hfound with howns | ⟨t, ht⟩
      · exact .inr (.inr (.inr howns))
      · refine .inr (.inr (.inr ⟨some t, ?_⟩))
        have hasking := hok hfound t ht
        cases hcaller : s.callers (some t) with
        | loadScheduled p | swapScheduled p =>
          rw [hcaller] at hasking
          exact hasking
        | _ =>
          rw [hcaller] at hasking
          exact hasking.elim
  case swapScheduled =>
    split at hs <;> cases hs
    rename_i hdrained
    by_cases hset : s.mem.memory.isScheduled = true
    · rw [if_pos hset, setMemory_same hset]
      refine h.leave (by rw [hpc]; exact id) fun _ => ?_
      rcases h.marked hset with hentry | hmarked | hflight | hschedule
      · exact .inl hentry
      · rw [hpc] at hmarked
        exact hmarked.elim
      · rw [List.isEmpty_iff.mp hdrained] at hflight
        cases hflight
      · exact .inr (.inr (.inl hschedule))
    · rw [if_neg hset]
      exact .of_marked trivial
  case schedule =>
    split at hs <;> cases hs
    have hentry : 0 < s.scheduled + 1 + s.batch := by omega
    exact ⟨fun _ => .inl hentry, fun _ => .inl (.entry hentry)⟩

theorem HandOff.flush (h : HandOff s)
    {mem : StoreBuffer (Option T) (Memory M) (Store M)}
    (hs : s.mem.flush Memory.apply t = some mem) : HandOff { s with mem } := by
  obtain ⟨x, rest, hbuffer, rfl⟩ := StoreBuffer.flush_eq_some hs
  obtain ⟨hfront, hback, -⟩ := apply_same s.mem.memory x
  refine ⟨fun hset => ?_, fun hlt => ?_⟩
  · replace hset : (s.mem.memory.apply x).isScheduled = true := hset
    have hx : x ≠ .clearScheduled := by
      rintro rfl
      cases hset
    have hfold : ([x].foldl Memory.apply s.mem.memory).isScheduled = true := hset
    have hmemory : s.mem.memory.isScheduled = true := isScheduled_foldl hfold
    refine (h.marked hmemory).imp_right (.imp_right (.imp_left fun hflight => ?_))
    show .clearScheduled ∈ Function.update s.mem.buffers t rest none
    by_cases hnone : none = t
    · subst hnone
      rw [Function.update_self]
      rw [hbuffer] at hflight
      exact (List.mem_cons.mp hflight).resolve_left (Ne.symm hx)
    · rwa [Function.update_of_ne hnone]
  · replace hlt : (s.mem.memory.apply x).mailbox.consumerIndex <
      (s.mem.memory.apply x).mailbox.producerIndex := hlt
    show _ ∨ ∃ u, (s.callers u).Owns (s.mem.memory.apply x).mailbox.consumerIndex
    rw [hfront] at hlt ⊢
    rw [hback] at hlt
    refine (h.served hlt).imp_left fun hdue => ?_
    rcases hdue with hentry | hexecuting | ⟨u, hu⟩
    · exact .entry hentry
    · exact .executing hexecuting
    · exact .scheduling u hu

theorem HandOff.step {a : Action T M} (h : HandOff s) (hslots : Slots s) (hok : Visible s a)
    (hs : step s a = some s') : HandOff s' := by
  cases a with
  | post t item =>
    simp only [Delayed.step] at hs
    split at hs <;> cases hs
    rename_i hidle
    rw [Bool.and_eq_true] at hidle
    have hpc : s.callers t = .idle := by
      cases hpc : s.callers t <;> simp [hpc, CallerPc.isIdle] at hidle
      rfl
    exact h.idleCaller (by simp [hpc]) fun p => by rw [hpc]; exact id
  | call t => exact h.call hslots hok hs
  | take =>
    simp only [Delayed.step] at hs
    split at hs <;> cases hs
    rename_i htake
    rw [Bool.and_eq_true, beq_iff_eq] at htake
    have hentry (hentry : 0 < s.scheduled + s.batch) : 0 < 0 + s.scheduled := by omega
    refine ⟨fun hset => (h.marked hset).imp_left hentry, fun hlt =>
      (h.served hlt).imp_left fun hdue => ?_⟩
    rcases hdue with hdue | hexecuting | ⟨u, hu⟩
    · exact .entry (hentry hdue)
    · exact .executing hexecuting
    · exact .scheduling u hu
  | execute =>
    simp only [Delayed.step] at hs
    split at hs <;> cases hs
    exact .of_marked trivial
  | worker => exact h.worker hslots hok hs
  | flush t =>
    obtain ⟨mem, hmem, rfl⟩ := Option.map_eq_some_iff.mp hs
    exact h.flush hmem

theorem handOff_of_reach {capacity : Nat} (h : Reach (machine T M capacity) Visible s) :
    HandOff s := by
  refine h.inv_of Slots HandOff (fun hr => slots_of_reach (hr.mono fun _ _ _ => trivial)) ?_
    fun hslots hinv hok hs => hinv.step hslots hok hs
  rintro _ ⟨q, hq, rfl⟩
  refine ⟨fun hset => (by cases hset), fun hlt => ?_⟩
  obtain ⟨-, n, -, -, rfl⟩ := MpscBoundedQueue.new_eq_some.mp hq
  exact absurd hlt (lt_irrefl 0)

/-- **The hand-off survives stores that see each other.** For every number of posters and in every
run whose steps are all `Visible`: whenever everything is quiet, the mailbox is empty. -/
theorem handed_off_of_visible {capacity : Nat} (h : Reach (machine T M capacity) Visible s)
    (hquiet : Quiet s) : s.mailbox.consumerIndex = s.mailbox.producerIndex := by
  have hslots := slots_of_reach (h.mono fun _ _ _ => trivial)
  refine hslots.le.antisymm (not_lt.mp fun hlt => ?_)
  rcases (handOff_of_reach h).served hlt with (hentry | hexecuting | ⟨t, ht⟩) | ⟨t, ht⟩
  · have := hquiet.entries
    omega
  · exact hexecuting hquiet.worker
  · cases (hquiet.callers t).symm.trans ht
  · rw [hquiet.callers t] at ht
    exact ht

end

/-! ## Runs -/

def mailboxOfTwo : MpscBoundedQueue Unit := (MpscBoundedQueue.new Unit mailSlotSize 2).get rfl

theorem mailboxOfTwo_init : (machine Unit Unit 2).Init (start Unit mailboxOfTwo) := ⟨_, rfl, rfl⟩

/-- The first mail is posted and scheduled, and the worker has received it and found no other. -/
def received : List (Action Unit Unit) :=
  List.flatten [[.post (some ()) ()], .replicate 5 (.call (some ())),
    .replicate 2 (.flush (some ())), .replicate 3 (.call (some ())), [.take, .execute],
    .replicate 5 .worker]

/-- A second mail is posted. Its publication stays in flight while the poster finds `is_scheduled`
set, but it reaches the memory before the worker looks at the front again. -/
def resumed : State Unit Unit :=
  ((machine Unit Unit 2).run (start Unit mailboxOfTwo)
    (List.flatten [received, [.post (some ()) ()], .replicate 6 (.call (some ())), [.worker],
      .replicate 2 (.flush (some ())), [.worker], .replicate 2 (.flush none),
      .replicate 2 .worker, [.take, .execute], .replicate 7 .worker,
      .replicate 2 (.flush none)])).get (by decide +kernel)

theorem resumed_quiet : Quiet resumed :=
  ⟨by decide +kernel, by decide +kernel, by decide +kernel, by decide +kernel⟩

theorem resumed_reach : Reach (machine Unit Unit 2) Visible resumed :=
  .get mailboxOfTwo_init (by decide +kernel) _

theorem handed_off_of_visible_resumed :
    resumed.mailbox.producerIndex = 2 ∧
      resumed.mailbox.consumerIndex = resumed.mailbox.producerIndex :=
  ⟨by decide +kernel, handed_off_of_visible resumed_reach resumed_quiet⟩

/-- A second mail is posted: its publication stays in flight while the poster finds `is_scheduled`
set, and the worker's store that clears it stays in flight while the worker finds nothing. Then
every store reaches the memory. -/
def bothDelayed : State Unit Unit :=
  ((machine Unit Unit 2).run (start Unit mailboxOfTwo)
    (List.flatten [received, [.post (some ()) ()], .replicate 6 (.call (some ())),
      .replicate 2 .worker, .replicate 2 (.flush (some ())), .replicate 2 (.flush none)])).get
    (by decide +kernel)

theorem bothDelayed_quiet : Quiet bothDelayed :=
  ⟨by decide +kernel, by decide +kernel, by decide +kernel, by decide +kernel⟩

theorem stranded_bothDelayed :
    Reach (machine Unit Unit 2) Machine.free bothDelayed ∧ Quiet bothDelayed ∧
      bothDelayed.mailbox.consumerIndex ≠ bothDelayed.mailbox.producerIndex :=
  ⟨.get_free mailboxOfTwo_init _, bothDelayed_quiet, by decide +kernel⟩

end DignusActor.Delayed
