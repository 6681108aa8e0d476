import DignusActor.Dispatcher.Enqueuers

/-! # Where the tasks are

A task is in one place at a time (`Located`): in the pool, in the hands of one enqueuer, among the
entries that wait, or executed by the worker; and where it is says what its field holds (`Kept`).
So a task that is scheduled still has the callback that was put in it when it is executed. -/

namespace DignusActor.Continuations

open Dispatcher (CallerPc)

variable {T R : Type}

def Entry.task? : Entry R → Option Nat
  | .yieldTask task _ => some task
  | .other _ => none

namespace State

/-- Thread `t` has the task: it popped it, and it has not yet pushed it on the queue. -/
def Holds (s : State T R) (t : Option T) (task : Nat) : Prop :=
  (∃ callback, s.enqueuers t = .set task callback) ∨
    ∃ call, (s.dispatcher.callers t).entryOf = some (.yieldTask task call)

/-- The task in execution, until it is back in the pool. -/
def executing (s : State T R) : List Nat :=
  match s.dispatcher.worker.executing? with
  | some (.yieldTask task _) => if s.execute = .returned then [] else [task]
  | _ => []

/-- The tasks that wait for their execution. -/
def queued (s : State T R) : List Nat := s.dispatcher.waiting.filterMap Entry.task?

/-- The tasks of the pool, in execution and in the queue. -/
def placed (s : State T R) : List Nat := s.innerPool ++ (s.executing ++ s.queued)

end State

/-- What the field of a task in execution holds. -/
def ExecutePc.Keeps (callback : Option Nat) (call : Nat) : ExecutePc → Prop
  | .take => callback = some call
  | .call c => c = call ∧ callback = none
  | .running | .recycleClear | .recyclePush => callback = none
  | .returned => True

/-- Each task is in one place. -/
structure Located (s : State T R) : Prop where
  placed : s.placed.Nodup
  held : ∀ t i, s.Holds t i → i ∉ s.placed
  held_inj : ∀ t t' i, s.Holds t i → s.Holds t' i → t = t'
  placed_lt : ∀ i ∈ s.placed, i < s.created
  held_lt : ∀ t i, s.Holds t i → i < s.created

/-- What the field of each task holds. -/
structure Kept (s : State T R) : Prop where
  pool : ∀ i ∈ s.innerPool, s.sendOrPostCallback i = none
  fresh : ∀ i, s.created ≤ i → s.sendOrPostCallback i = none
  unset : ∀ t i n, s.enqueuers t = .set i n → s.sendOrPostCallback i = none
  handed : ∀ t i n, (s.dispatcher.callers t).entryOf = some (.yieldTask i n) →
    s.sendOrPostCallback i = some n
  waiting : ∀ i n, .yieldTask i n ∈ s.dispatcher.waiting → s.sendOrPostCallback i = some n
  executing : ∀ i n, s.dispatcher.worker.executing? = some (.yieldTask i n) →
    s.execute.Keeps (s.sendOrPostCallback i) n
  ready : (∀ i n, s.dispatcher.worker.executing? ≠ some (.yieldTask i n)) → s.execute = .take

/-! ## Where the tasks are -/

section

variable {s s' : State T R} {i n : Nat}

theorem State.mem_queued (h : .yieldTask i n ∈ s.dispatcher.waiting) : i ∈ s.queued :=
  List.mem_filterMap.mpr ⟨_, h, rfl⟩

theorem State.executing_of (h : s.dispatcher.worker.executing? = some (.yieldTask i n))
    (hpc : s.execute ≠ .returned) : s.executing = [i] := by
  rw [executing, h]
  exact if_neg hpc

theorem State.executing_nil
    (h : ∀ i n, s.dispatcher.worker.executing? ≠ some (.yieldTask i n)) : s.executing = [] := by
  unfold executing
  split
  · exact (h _ _ ‹_›).elim
  · rfl

/-- Tasks that only stay or leave. -/
theorem Located.sub (h : Located s) (hplaced : s'.placed.Sublist s.placed)
    (hholds : ∀ t i, s'.Holds t i → s.Holds t i) (hcreated : s'.created = s.created) :
    Located s' where
  placed := h.placed.sublist hplaced
  held t i hi hmem := h.held t i (hholds t i hi) (hplaced.subset hmem)
  held_inj t t' i hi hi' := h.held_inj t t' i (hholds t i hi) (hholds t' i hi')
  placed_lt i hi := hcreated ▸ h.placed_lt i (hplaced.subset hi)
  held_lt t i hi := hcreated ▸ h.held_lt t i (hholds t i hi)

/-- A task that its holder puts in its place. -/
theorem Located.put (h : Located s) {t : Option T} (hi : s.Holds t i)
    (hplaced : s'.placed.Perm (i :: s.placed))
    (hholds : ∀ t' j, s'.Holds t' j → s.Holds t' j ∧ t' ≠ t) (hcreated : s'.created = s.created) :
    Located s' where
  placed := hplaced.nodup_iff.mpr (List.nodup_cons.mpr ⟨h.held t i hi, h.placed⟩)
  held t' j hj hmem := by
    obtain ⟨hj, hne⟩ := hholds t' j hj
    rcases List.mem_cons.mp (hplaced.mem_iff.mp hmem) with rfl | hmem
    · exact hne (h.held_inj t' t j hj hi)
    · exact h.held t' j hj hmem
  held_inj t' u j hj hj' := h.held_inj t' u j (hholds t' j hj).1 (hholds u j hj').1
  placed_lt j hj := by
    rw [hcreated]
    rcases List.mem_cons.mp (hplaced.mem_iff.mp hj) with rfl | hj
    · exact h.held_lt t j hi
    · exact h.placed_lt j hj
  held_lt t' j hj := hcreated ▸ h.held_lt t' j (hholds t' j hj).1

/-- A task that thread `t` gets hold of. -/
theorem Located.hold (h : Located s) {t : Option T} (hlt : i < s'.created)
    (hle : s.created ≤ s'.created) (hsub : s'.placed.Sublist s.placed) (hi : i ∉ s'.placed)
    (hfree : ∀ u, ¬s.Holds u i) (hholds : ∀ u j, s'.Holds u j → s.Holds u j ∨ u = t ∧ j = i) :
    Located s' where
  placed := h.placed.sublist hsub
  held u j hj hmem := by
    rcases hholds u j hj with hj | ⟨-, rfl⟩
    · exact h.held u j hj (hsub.subset hmem)
    · exact hi hmem
  held_inj u u' j hj hj' := by
    rcases hholds u j hj with hj | ⟨rfl, rfl⟩
    · rcases hholds u' j hj' with hj' | ⟨-, rfl⟩
      · exact h.held_inj u u' j hj hj'
      · exact absurd hj (hfree u)
    · rcases hholds u' j hj' with hj' | ⟨rfl, -⟩
      · exact absurd hj' (hfree u')
      · rfl
  placed_lt j hj := (h.placed_lt j (hsub.subset hj)).trans_le hle
  held_lt u j hj := by
    rcases hholds u j hj with hj | ⟨-, rfl⟩
    · exact (h.held_lt u j hj).trans_le hle
    · exact hlt

/-- The task in execution is nowhere else. -/
theorem Located.alone (h : Located s)
    (hexec : s.dispatcher.worker.executing? = some (.yieldTask i n))
    (hpc : s.execute ≠ .returned) :
    i ∉ s.innerPool ∧ i ∉ s.queued ∧ ∀ t, ¬s.Holds t i := by
  have hplaced := h.placed
  rw [State.placed, State.executing_of hexec hpc, List.nodup_append] at hplaced
  obtain ⟨-, hrest, hdisjoint⟩ := hplaced
  refine ⟨fun hmem => hdisjoint i hmem i (by simp) rfl, (List.nodup_cons.mp hrest).1,
    fun t ht => h.held t i ht ?_⟩
  rw [State.placed, State.executing_of hexec hpc]
  simp

end

/-- The two invariants together. -/
structure Tasks (s : State T R) : Prop where
  located : Located s
  kept : Kept s

theorem start_tasks : Tasks (start T R) where
  located := by
    have hholds (t i) : ¬(start T R).Holds t i := by
      rintro (⟨_, h⟩ | ⟨_, h⟩)
      · cases h
      · cases h
    exact ⟨List.nodup_nil, fun t i h => absurd h (hholds t i),
      fun t _ i h => absurd h (hholds t i), fun _ h => (by cases h),
      fun t i h => absurd h (hholds t i)⟩
  kept := by
    refine ⟨fun _ h => ?_, fun _ _ => rfl, fun _ _ _ h => ?_,
      fun _ _ _ h => ?_, fun _ _ h => ?_, fun _ _ h => ?_, fun _ => rfl⟩
    all_goals cases h

section

variable {s s' : State T R} {i n : Nat} [DecidableEq T] {t : Option T}

/-! ## The steps of a task -/

theorem Tasks.enqueue (h : Tasks s) :
    Tasks { s.setEnqueuer t (.pop n) with given := s.given + 1 } := by
  have hset {u : Option T} {i m : Nat}
      (hu : (s.setEnqueuer t (.pop n)).enqueuers u = .set i m) : s.enqueuers u = .set i m := by
    by_cases hut : u = t
    · subst hut
      cases (Function.update_self ..).symm.trans hu
    · exact (Function.update_of_ne hut ..).symm.trans hu
  refine ⟨h.located.sub (.refl _) (fun u i hu => hu.imp_left fun ⟨m, hm⟩ => ⟨m, hset hm⟩) rfl, ?_⟩
  exact { h.kept with unset := fun u i m hu => h.kept.unset u i m (hset hu) }

/-- A task that nobody has goes to the hands of a thread that calls `pop`. -/
theorem Tasks.hold (h : Tasks s) {pool : List Nat} {created : Nat}
    (hpool : pool.Sublist s.innerPool) (hcreated : s.created ≤ created) (hlt : i < created)
    (hi : i ∉ pool ++ (s.executing ++ s.queued)) (hfree : ∀ u, ¬s.Holds u i)
    (hnone : s.sendOrPostCallback i = none) :
    Tasks (({ s with innerPool := pool, created } : State T R).setEnqueuer t (.set i n)) := by
  have hset {u : Option T} {j m : Nat}
      (hu : Function.update s.enqueuers t (.set i n) u = .set j m) :
      s.enqueuers u = .set j m ∨ u = t ∧ j = i := by
    by_cases hut : u = t
    · subst hut
      cases (Function.update_self ..).symm.trans hu
      exact .inr ⟨rfl, rfl⟩
    · exact .inl ((Function.update_of_ne hut ..).symm.trans hu)
  refine ⟨h.located.hold (t := t) hlt hcreated (hpool.append (.refl _)) hi hfree fun u j hu => ?_,
    ?_⟩
  · rcases hu with ⟨m, hm⟩ | hu
    · exact (hset hm).imp_left fun hm => .inl ⟨m, hm⟩
    · exact .inl (.inr hu)
  · refine { h.kept with
      pool := fun j hj => h.kept.pool j (hpool.subset hj)
      fresh := fun j hj => h.kept.fresh j (hcreated.trans hj)
      unset := fun u j m hu => ?_ }
    rcases hset hu with hu | ⟨-, rfl⟩
    · exact h.kept.unset u j m hu
    · exact hnone

theorem Tasks.pop (h : Tasks s) :
    Tasks (s.pop.2.setEnqueuer t (.set s.pop.1 n)) := by
  have hlocated := h.located
  unfold State.pop
  split
  · rename_i task htask
    have hpool : s.innerPool.dropLast ++ [task] = s.innerPool :=
      List.dropLast_append_getLast? _ htask
    have hmem : task ∈ s.innerPool := List.mem_of_getLast? htask
    have hplaced := hlocated.placed
    rw [State.placed, ← hpool, List.append_assoc, List.singleton_append] at hplaced
    exact h.hold (List.dropLast_sublist _) le_rfl
      (hlocated.placed_lt task (List.mem_append_left _ hmem)) (List.nodup_middle.mp hplaced).notMem
      (fun u hu => hlocated.held u task hu (List.mem_append_left _ hmem)) (h.kept.pool task hmem)
  · have hnone := h.kept.fresh s.created le_rfl
    have hsame : Function.update s.sendOrPostCallback s.created none = s.sendOrPostCallback := by
      rw [← hnone, Function.update_eq_self]
    dsimp only
    rw [hsame]
    exact h.hold (.refl _) (Nat.le_succ _) (Nat.lt_succ_self _)
      (fun hmem => (hlocated.placed_lt _ hmem).false)
      (fun u hu => (hlocated.held_lt u _ hu).false) hnone

/-- The task in the hands of `t` is given its callback. -/
theorem Tasks.set (h : Tasks s) (hpc : s.enqueuers t = .set i n) :
    Tasks (((s.put i (some n)).setEnqueuer t .idle).setCaller t
      (.scheduleStopped (.yieldTask i n))) := by
  have hi : s.Holds t i := .inl ⟨n, hpc⟩
  have hnot := h.located.held t i hi
  have hset {u : Option T} {j m : Nat} (hu : Function.update s.enqueuers t .idle u = .set j m) :
      u ≠ t ∧ s.enqueuers u = .set j m := by
    have hut : u ≠ t := by
      rintro rfl
      cases (Function.update_self ..).symm.trans hu
    exact ⟨hut, (Function.update_of_ne hut ..).symm.trans hu⟩
  have hentry {u : Option T} {j m : Nat} (hu : (Function.update s.dispatcher.callers t
      (.scheduleStopped (.yieldTask i n)) u).entryOf = some (.yieldTask j m)) :
      u = t ∧ j = i ∧ m = n ∨ u ≠ t ∧ (s.dispatcher.callers u).entryOf = some (.yieldTask j m) := by
    by_cases hut : u = t
    · subst hut
      rw [Function.update_self] at hu
      cases hu
      exact .inl ⟨rfl, rfl, rfl⟩
    · rw [Function.update_of_ne hut] at hu
      exact .inr ⟨hut, hu⟩
  -- the callback of no other task changes
  have hother {j : Nat} (hj : j ≠ i) {callback : Option Nat}
      (hcallback : s.sendOrPostCallback j = callback) :
      Function.update s.sendOrPostCallback i (some n) j = callback :=
    (Function.update_of_ne hj ..).trans hcallback
  refine ⟨h.located.sub (.refl _) (fun u j hu => ?_) rfl, ?_⟩
  · rcases hu with ⟨m, hu⟩ | ⟨m, hu⟩
    · exact .inl ⟨m, (hset hu).2⟩
    · rcases hentry hu with ⟨rfl, rfl, -⟩ | ⟨-, hu⟩
      · exact hi
      · exact .inr ⟨m, hu⟩
  · refine ⟨fun j hj => ?_, fun j hj => ?_, fun u j m hu => ?_, fun u j m hu => ?_,
      fun j m hj => ?_, fun j m hj => ?_, h.kept.ready⟩
    · refine hother ?_ (h.kept.pool j hj)
      rintro rfl
      exact hnot (List.mem_append_left _ hj)
    · exact hother (fun hji => (h.located.held_lt t i hi).not_ge (hji ▸ hj)) (h.kept.fresh j hj)
    · obtain ⟨hut, hset⟩ := hset hu
      refine hother ?_ (h.kept.unset u j m hset)
      rintro rfl
      exact hut (h.located.held_inj u t j (.inl ⟨m, hset⟩) hi)
    · rcases hentry hu with ⟨-, rfl, rfl⟩ | ⟨hut, hcaller⟩
      · exact Function.update_self ..
      · refine hother ?_ (h.kept.handed u j m hcaller)
        rintro rfl
        exact hut (h.located.held_inj u t j (.inr ⟨m, hcaller⟩) hi)
    · refine hother ?_ (h.kept.waiting j m hj)
      rintro rfl
      exact hnot (List.mem_append_right _ (List.mem_append_right _ (State.mem_queued hj)))
    · have hkeeps := h.kept.executing j m hj
      by_cases hret : s.execute = .returned
      · exact hret ▸ trivial
      have hji : j ≠ i := by
        rintro rfl
        refine hnot (List.mem_append_right _ (List.mem_append_left _ ?_))
        rw [s.executing_of hj hret]
        exact List.mem_singleton_self j
      exact (congrArg (s.execute.Keeps · m) (hother hji rfl)).mpr hkeeps

/-! ## The steps of the dispatcher -/

/-- A thread that pushes nothing: it keeps its entry, or has none that is a task. -/
theorem Tasks.still (h : Tasks s) {d : Dispatcher.State T (Entry R)} {pc : CallerPc (Entry R)}
    (hpc : pc.entryOf = (s.dispatcher.callers t).entryOf ∨
      ∀ i n, pc.entryOf ≠ some (.yieldTask i n))
    (hcallers : d.callers = Function.update s.dispatcher.callers t pc)
    (hwait : d.waiting = s.dispatcher.waiting)
    (hexec : d.worker.executing? = s.dispatcher.worker.executing?) :
    Tasks { s with dispatcher := d } := by
  have hentry (u : Option T) (i n : Nat) (hu : (d.callers u).entryOf = some (.yieldTask i n)) :
      (s.dispatcher.callers u).entryOf = some (.yieldTask i n) := by
    rw [hcallers] at hu
    by_cases hut : u = t
    · subst hut
      rw [Function.update_self] at hu
      rcases hpc with hpc | hpc
      · exact hpc ▸ hu
      · exact absurd hu (hpc i n)
    · rwa [Function.update_of_ne hut] at hu
  have hplaced : State.placed { s with dispatcher := d } = s.placed := by
    simp only [State.placed, State.executing, State.queued, hexec, hwait]
  refine ⟨h.located.sub (hplaced ▸ .refl _) (fun u i hu => hu.imp_right fun ⟨n, hn⟩ =>
    ⟨n, hentry u i n hn⟩) rfl, ?_⟩
  exact { h.kept with
    handed := fun u i n hu => h.kept.handed u i n (hentry u i n hu)
    waiting := fun i n hi => h.kept.waiting i n (hwait ▸ hi)
    executing := fun i n hi => h.kept.executing i n (hexec ▸ hi)
    ready := fun hi => h.kept.ready fun i n => hexec ▸ hi i n }

theorem Tasks.push (h : Tasks s) (happart : Apart s) {d : Dispatcher.State T (Entry R)}
    {entry : Entry R}
    (hentry : (s.dispatcher.callers t).entryOf = some entry)
    (hcallers : d.callers = Function.update s.dispatcher.callers t .schedulePending)
    (hwait : d.waiting = s.dispatcher.waiting ++ [entry])
    (hexec : d.worker.executing? = s.dispatcher.worker.executing?) :
    Tasks { s with dispatcher := d } := by
  have hother (u : Option T) (e : Entry R) (hu : (d.callers u).entryOf = some e) :
      (s.dispatcher.callers u).entryOf = some e ∧ u ≠ t := by
    rw [hcallers] at hu
    by_cases hut : u = t
    · subst hut
      rw [Function.update_self] at hu
      cases hu
    · rw [Function.update_of_ne hut] at hu
      exact ⟨hu, hut⟩
  have hset (u : Option T) (i n : Nat) (hu : s.enqueuers u = .set i n) : u ≠ t := by
    rintro rfl
    cases hentry.symm.trans (happart.entry_none (by rw [hu]; simp))
  have hplaced : State.placed { s with dispatcher := d } =
      s.placed ++ [entry].filterMap Entry.task? := by
    simp only [State.placed, State.executing, State.queued, hexec, hwait, List.filterMap_append,
      List.append_assoc]
  have hholds (u : Option T) (i : Nat) (hu : State.Holds { s with dispatcher := d } u i) :
      s.Holds u i ∧ u ≠ t := by
    rcases hu with ⟨n, hn⟩ | ⟨n, hn⟩
    · exact ⟨.inl ⟨n, hn⟩, hset u i n hn⟩
    · exact ⟨.inr ⟨n, (hother u _ hn).1⟩, (hother u _ hn).2⟩
  constructor
  · cases entry with
    | other runner =>
      exact h.located.sub (by rw [hplaced]; simp [Entry.task?])
        (fun u i hu => (hholds u i hu).1) rfl
    | yieldTask i n =>
      refine h.located.put (.inr ⟨n, hentry⟩) ?_ hholds rfl
      rw [hplaced]
      exact List.perm_append_singleton i s.placed
  · refine { h.kept with
      handed := fun u i n hu => h.kept.handed u i n (hother u _ hu).1
      waiting := fun i n hi => ?_
      executing := fun i n hi => h.kept.executing i n (hexec ▸ hi)
      ready := fun hi => h.kept.ready fun i n => hexec ▸ hi i n }
    rw [hwait] at hi
    rcases List.mem_append.mp hi with hi | hi
    · exact h.kept.waiting i n hi
    · exact h.kept.handed t i n (List.mem_singleton.mp hi ▸ hentry)

omit [DecidableEq T] in
/-- The worker goes on in the dispatcher, with no task in execution that is not back in the pool. -/
theorem Tasks.worker (h : Tasks s) {d : Dispatcher.State T (Entry R)}
    (hreturned : ∀ i n, s.dispatcher.worker.executing? = some (.yieldTask i n) →
      s.execute = .returned)
    (hmove : Dispatcher.WorkerMove s.dispatcher d) (hcallers : d.callers = s.dispatcher.callers) :
    Tasks { s with execute := .take, dispatcher := d } := by
  have hexec : s.executing = [] := by
    unfold State.executing
    split
    · exact if_pos (hreturned _ _ ‹_›)
    · rfl
  have hplaced : (State.placed { s with execute := .take, dispatcher := d }).Sublist s.placed := by
    refine List.Sublist.append (.refl _) ?_
    rw [hexec, List.nil_append]
    cases hmove with
    | rest hnone _ hwait =>
      rw [State.executing_nil (by simp [hnone]), List.nil_append]
      exact hwait.filterMap _
    | begin entry _ hsome _ hwait =>
      rw [State.queued, State.queued, hwait]
      cases entry with
      | other runner =>
        rw [State.executing_nil (by simp [hsome])]
        exact .refl _
      | yieldTask i n =>
        rw [State.executing_of (by exact hsome) (by simp)]
        exact .refl _
  refine ⟨h.located.sub hplaced (fun u i hu => hu.imp_right fun ⟨n, hn⟩ =>
    ⟨n, (congrArg CallerPc.entryOf (congrFun hcallers u)).symm.trans hn⟩) rfl, ?_⟩
  have hwaiting (e : Entry R) (he : e ∈ d.waiting) : e ∈ s.dispatcher.waiting := by
    cases hmove with
    | rest _ _ hwait => exact hwait.subset he
    | begin _ _ _ _ hwait => exact hwait ▸ List.mem_cons_of_mem _ he
  refine { h.kept with
    handed := fun u i n hu => h.kept.handed u i n (hcallers ▸ hu)
    waiting := fun i n hi => h.kept.waiting i n (hwaiting _ hi)
    executing := fun i n hi => ?_
    ready := fun _ => rfl }
  cases hmove with
  | rest hnone _ _ => cases hnone.symm.trans hi
  | begin entry _ hsome _ hwait =>
    cases hsome.symm.trans hi
    exact h.kept.waiting i n (hwait ▸ List.mem_cons_self ..)

/-! ## The steps of `execute` -/

omit [DecidableEq T] in
/-- The field of the task in execution is written. -/
theorem Tasks.write (h : Tasks s)
    (hexec : s.dispatcher.worker.executing? = some (.yieldTask i n))
    (hpc : s.execute ≠ .returned) {pc : ExecutePc} (hpc' : pc ≠ .returned) {callback : Option Nat}
    (hkeeps : pc.Keeps callback n) {ran : List Nat} :
    Tasks { s.put i callback with execute := pc, ran } := by
  obtain ⟨hpool, hqueued, hfree⟩ := h.located.alone hexec hpc
  have hother {j : Nat} (hj : j ≠ i) {value : Option Nat}
      (hvalue : s.sendOrPostCallback j = value) :
      Function.update s.sendOrPostCallback i callback j = value :=
    (Function.update_of_ne hj ..).trans hvalue
  have hi : i < s.created := by
    refine h.located.placed_lt i (List.mem_append_right _ (List.mem_append_left _ ?_))
    rw [s.executing_of hexec hpc]
    exact List.mem_singleton_self i
  have hplaced : State.placed { s.put i callback with execute := pc, ran } = s.placed := by
    rw [State.placed, State.placed, s.executing_of hexec hpc,
      State.executing_of (by exact hexec) (by exact hpc')]
    rfl
  refine ⟨h.located.sub (hplaced ▸ .refl _) (fun _ _ hu => hu) rfl, ?_⟩
  refine { h.kept with
    pool := fun j hj => ?_
    fresh := fun j hj => hother (fun hji => hi.not_ge (hji ▸ hj)) (h.kept.fresh j hj)
    unset := fun u j m hu => ?_
    handed := fun u j m hu => ?_
    waiting := fun j m hj => ?_
    executing := fun j m hj => ?_
    ready := fun hj => absurd hexec (hj i n) }
  · refine hother ?_ (h.kept.pool j hj)
    rintro rfl
    exact hpool hj
  · refine hother ?_ (h.kept.unset u j m hu)
    rintro rfl
    exact hfree u (.inl ⟨m, hu⟩)
  · refine hother ?_ (h.kept.handed u j m hu)
    rintro rfl
    exact hfree u (.inr ⟨m, hu⟩)
  · refine hother ?_ (h.kept.waiting j m hj)
    rintro rfl
    exact hqueued (State.mem_queued hj)
  · cases hexec.symm.trans hj
    have hself : Function.update s.sendOrPostCallback i callback i = callback :=
      Function.update_self ..
    exact (congrArg (pc.Keeps · n) hself).mpr hkeeps

omit [DecidableEq T] in
/-- The worker goes on without a look at the field. -/
theorem Tasks.goOn (h : Tasks s)
    (hexec : s.dispatcher.worker.executing? = some (.yieldTask i n))
    (hpc : s.execute ≠ .returned) {pc : ExecutePc} (hpc' : pc ≠ .returned)
    (hkeeps : pc.Keeps (s.sendOrPostCallback i) n) {ran : List Nat} :
    Tasks { s with execute := pc, ran } := by
  have hsame : s.put i (s.sendOrPostCallback i) = s := by
    rw [State.put, Function.update_eq_self]
  have hwrite : Tasks { s.put i (s.sendOrPostCallback i) with execute := pc, ran } :=
    h.write hexec hpc hpc' hkeeps
  rwa [hsame] at hwrite

omit [DecidableEq T] in
theorem Tasks.recyclePush (h : Tasks s)
    (hexec : s.dispatcher.worker.executing? = some (.yieldTask i n))
    (hpc : s.execute = .recyclePush) :
    Tasks { s with execute := .returned, innerPool := s.innerPool ++ [i] } := by
  have hplaced : State.placed { s with execute := .returned, innerPool := s.innerPool ++ [i] } =
      s.placed := by
    have hback : State.executing { s with
        execute := .returned, innerPool := s.innerPool ++ [i] } = [] := by
      simp only [State.executing, hexec, if_true]
    rw [State.placed, State.placed, s.executing_of hexec (by simp [hpc]), hback, List.nil_append,
      ← List.append_assoc]
    rfl
  refine ⟨h.located.sub (hplaced ▸ .refl _) (fun _ _ hu => hu) rfl, ?_⟩
  refine { h.kept with
    pool := fun j hj => ?_
    executing := fun _ _ _ => trivial
    ready := fun hj => absurd hexec (hj i n) }
  rcases List.mem_append.mp hj with hj | hj
  · exact h.kept.pool j hj
  · have hkeeps := h.kept.executing i n hexec
    rw [hpc] at hkeeps
    exact List.mem_singleton.mp hj ▸ hkeeps

theorem Tasks.execute (h : Tasks s) (hexec : s.dispatcher.worker.executing? = some (.yieldTask i n))
    (hs : executeStep s i = some s') : Tasks s' := by
  have hkeeps := h.kept.executing i n hexec
  unfold executeStep at hs
  cases hpc : s.execute <;> rw [hpc] at hkeeps <;> simp only [hpc] at hs
  case take =>
    cases hs
    rw [show s.sendOrPostCallback i = some n from hkeeps]
    refine h.write hexec (by simp [hpc]) (by simp) ?_
    exact ⟨rfl, rfl⟩
  case call callback =>
    cases hs
    refine h.goOn hexec (by simp [hpc]) (by simp) ?_
    exact hkeeps.2
  case running =>
    split at hs <;> cases hs
    refine h.goOn hexec (by simp [hpc]) (by simp) ?_
    exact hkeeps
  case recycleClear =>
    cases hs
    refine h.write hexec (by simp [hpc]) (by simp) ?_
    rfl
  case recyclePush =>
    cases hs
    exact h.recyclePush hexec hpc
  case returned =>
    obtain ⟨d, hd, rfl⟩ := Option.map_eq_some_iff.mp hs
    obtain ⟨hmove, hcallers, -⟩ := Dispatcher.workerStep_move hd
    exact h.worker (fun _ _ _ => hpc) hmove hcallers

/-! ## Every step -/

theorem Tasks.call (h : Tasks s) (happart : Apart s)
    (hs : s.inDispatcher (.call t) = some s') : Tasks s' := by
  obtain ⟨d, hd, rfl⟩ := Option.map_eq_some_iff.mp hs
  obtain ⟨hmove, hexec, -⟩ := Dispatcher.callerStep_move hd
  cases hmove with
  | still pc hpc hcallers _ hwait =>
    exact h.still (hpc.imp_right fun hpc i n => by simp [hpc.1]) hcallers hwait hexec
  | push entry hentry hcallers _ hwait => exact h.push happart hentry hcallers hwait hexec

/-- A thread starts a call that has no task. -/
theorem Tasks.begin (h : Tasks s) {pc : CallerPc (Entry R)} {d : Dispatcher.State T (Entry R)}
    (hpc : ∀ i n, pc.entryOf ≠ some (.yieldTask i n))
    (hd : s.dispatcher.begin t pc = some d) : Tasks { s with dispatcher := d } := by
  cases begin_eq hd
  exact h.still (.inr hpc) rfl rfl rfl

omit [DecidableEq T] in
theorem Tasks.goIdle (h : Tasks s) {d : Dispatcher.State T (Entry R)}
    (hexec : ∀ i n, s.dispatcher.worker.executing? ≠ some (.yieldTask i n))
    (hmove : Dispatcher.WorkerMove s.dispatcher d) (hcallers : d.callers = s.dispatcher.callers) :
    Tasks { s with dispatcher := d } := by
  have htasks := h.worker (fun i n hi => absurd hi (hexec i n)) hmove hcallers
  rwa [← h.kept.ready hexec] at htasks

theorem Tasks.step {a : Action T R} (h : Tasks s) (happart : Apart s)
    (hs : step s a = some s') : Tasks s' := by
  cases a with
  | enqueue t =>
    simp only [Continuations.step] at hs
    split at hs <;> cases hs
    exact h.enqueue
  | enqueuer t =>
    simp only [Continuations.step, enqueuerStep] at hs
    cases hpc : s.enqueuers t <;> simp only [hpc] at hs <;> cases hs
    · exact h.pop
    · exact h.set hpc
  | schedule t runner =>
    simp only [Continuations.step] at hs
    split at hs
    · obtain ⟨d, hd, rfl⟩ := Option.map_eq_some_iff.mp hs
      exact h.begin (by simp [CallerPc.entryOf]) hd
    · cases hs
  | dispose t =>
    simp only [Continuations.step] at hs
    split at hs
    · obtain ⟨d, hd, rfl⟩ := Option.map_eq_some_iff.mp hs
      exact h.begin (by simp [CallerPc.entryOf]) hd
    · cases hs
  | call t => exact h.call happart hs
  | worker =>
    rcases workerStep_cases hs with ⟨i, n, hexec, hs⟩ | ⟨hexec, hs⟩
    · exact h.execute hexec hs
    · obtain ⟨d, hd, rfl⟩ := Option.map_eq_some_iff.mp hs
      obtain ⟨hmove, hcallers, -⟩ := Dispatcher.workerStep_move hd
      exact h.goIdle hexec hmove hcallers
  | wakeUp =>
    obtain ⟨d, hd, rfl⟩ := Option.map_eq_some_iff.mp hs
    obtain ⟨hexec, -, hmove, hcallers, -⟩ := Dispatcher.wakeUp_move hd
    exact h.goIdle (by simp [hexec]) hmove hcallers

end

end DignusActor.Continuations
