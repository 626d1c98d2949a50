import AempOS.Task.Creation
import AempOS.Task.TreeProperties

/-! `allocPCBlock` under `sys_fork` and `sys_pthread` by several callers. No two
calls are past their `acquire` at a time, so that a PCB is found, filled and made
`READY` before the next search begins. A call that finds no PCB returns with the
lock taken, and nobody gets it any more. -/

set_option autoImplicit false

namespace AempOS.Task

open Lib

variable {layout : Layout} {state next : CreationState} {tasks : Tasks} {child : Nat}

/-! ## One call at a time is `sysFork` or `sysPthread` -/

/-- `sys_fork` is its steps one after the other. -/
theorem sysFork_steps (tasks : Tasks) (proc dir : Nat) :
    tasks.sysFork proc dir = tasks.allocPcb.map fun (locked, found) =>
      match found with
      | none => (locked, -1)
      | some child =>
          let after := ((TaskCall.fork proc dir).work layout locked child).launch child "fork"
          (after, (after.table child).pid) := rfl

theorem sysPthread_steps (tasks : Tasks) (proc entry : Nat) :
    tasks.sysPthread layout proc entry = tasks.allocPcb.map fun (locked, found) =>
      match found with
      | none => (locked, -1)
      | some child =>
          let after := ((TaskCall.pthread proc entry).work layout locked child).launch child "pthread"
          (after, (after.table child).pid) := rfl

/-! ## What the steps do to the states and the lock -/

theorem modify_stat (tasks : Tasks) (i : Nat) {change : Pcb → Pcb} (same : ∀ pcb, (change pcb).stat = pcb.stat)
    (j : Nat) : ((tasks.modify i change).table j).stat = (tasks.table j).stat := by
  by_cases here : j = i
  · subst here
    simp [Tasks.modify, same]
  · simp [Tasks.modify, here]

theorem modify_stat_other (tasks : Tasks) {i j : Nat} (change : Pcb → Pcb) (apart : j ≠ i) :
    ((tasks.modify i change).table j).stat = (tasks.table j).stat := by
  simp [Tasks.modify, apart]

theorem forkChild_stat (tasks : Tasks) (proc dir : Nat) {i : Nat} (apart : i ≠ child) :
    ((tasks.forkChild proc child dir).table i).stat = (tasks.table i).stat := by
  unfold Tasks.forkChild Tasks.forkUpdateInfo
  rw [modify_stat_other _ _ apart, modify_stat, modify_stat_other _ _ apart, modify_stat_other _ _ apart]
  exact fun _ => rfl

theorem pthreadChild_stat (tasks : Tasks) (proc entry : Nat) {i : Nat} (apart : i ≠ child) :
    ((tasks.pthreadChild layout proc child entry).table i).stat = (tasks.table i).stat := by
  have told : ∀ (tasks : Tasks) (pid parent : Nat),
      ((if parent ≠ proc then tasks.modify parent (addChildThread pid) else tasks).table i).stat =
        (tasks.table i).stat := by
    intro tasks pid parent
    split
    next =>
      rw [modify_stat]
      exact fun _ => rfl
    next => rfl
  simp only [Tasks.pthreadChild, Tasks.pthreadUpdateInfo, Tasks.setEip, Tasks.pthreadHeapInit,
    Tasks.pthreadStackInit]
  rw [modify_stat_other _ _ apart, modify_stat, told, modify_stat_other _ _ apart,
    modify_stat_other _ _ apart, modify_stat_other _ _ apart, modify_stat,
    modify_stat_other _ _ apart, modify_stat_other _ _ apart]
  · exact fun _ => rfl
  · exact fun _ => rfl

theorem work_stat (call : TaskCall) (tasks : Tasks) {i : Nat} (apart : i ≠ child) :
    ((call.work layout tasks child).table i).stat = (tasks.table i).stat := by
  cases call with
  | fork proc dir => exact forkChild_stat tasks proc dir apart
  | pthread proc entry => exact pthreadChild_stat tasks proc entry apart

theorem work_lock (call : TaskCall) (tasks : Tasks) (child : Nat) :
    (call.work layout tasks child).allocPcbLock = tasks.allocPcbLock := by
  cases call with
  | fork proc dir => rfl
  | pthread proc entry =>
      simp only [TaskCall.work, Tasks.pthreadChild, Tasks.pthreadUpdateInfo]
      split <;> rfl

theorem publish_stat_other (tasks : Tasks) (name : String) {i : Nat} (apart : i ≠ child) :
    ((tasks.publish child name).table i).stat = (tasks.table i).stat := by
  simp [Tasks.publish, Tasks.launch, Tasks.modify, apart]

theorem publish_stat (tasks : Tasks) (child : Nat) (name : String) :
    ((tasks.publish child name).table child).stat = .ready := by
  simp [Tasks.publish, Tasks.launch, Tasks.modify]

/-! ## The invariant -/

/-- The call is past its `acquire`. -/
def CreationPhase.Holds : CreationPhase → Prop
  | .away | .spinning _ => False
  | .searching .. | .found .. | .worked .. | .published .. => True

/-- What a call past its `acquire` relies on; `given` are the PCBs of the calls that
have returned. Up to its work nothing but the lock has changed. -/
def CreationPhase.Sound (tasks : Tasks) (given : List Nat) : CreationPhase → Prop
  | .away | .spinning _ => True
  | .searching _ before i =>
      tasks = before.lock ∧ nrTasks + nrInitials ≤ i ∧ ∀ j < i, ¬FreePcb before j
  | .found _ before child => tasks = before.lock ∧ FreePcb before child
  | .worked _ before child => FreePcb before child ∧ child ∉ given
  | .published _ before child =>
      FreePcb before child ∧ child ∉ given ∧ (tasks.table child).stat ≠ .idle

/-- A call that found no PCB has taken the lock and nothing else; a call that found
one has released it. -/
structure Returned.Sound (record : Returned) : Prop where
  failed : record.child = none →
    record.after = record.before.lock ∧ ∀ child, ¬FreePcb record.before child
  done : ∀ child, record.child = some child →
    FreePcb record.before child ∧ 0 ≤ record.result ∧ record.after.allocPcbLock = false

/-- The PCBs of the calls that have returned. -/
def CreationState.given (state : CreationState) : List Nat :=
  state.returned.filterMap Returned.child

structure CreationSound (state : CreationState) : Prop where
  single : ∀ p q, (state.phase p).Holds → (state.phase q).Holds → p = q
  locked : ∀ p, (state.phase p).Holds → state.tasks.allocPcbLock = true
  phases : ∀ p, (state.phase p).Sound state.tasks state.given
  records : ∀ record ∈ state.returned, record.Sound
  distinct : state.given.Nodup
  busy : ∀ child ∈ state.given, (state.tasks.table child).stat ≠ .idle

/-- Nobody else is past its `acquire`. -/
def CreationState.Alone (state : CreationState) (caller : Nat) : Prop :=
  ∀ p, p ≠ caller → ¬(state.phase p).Holds

theorem CreationSound.alone (held : CreationSound state) {caller : Nat}
    (holds : (state.phase caller).Holds) : state.Alone caller :=
  fun p apart other => apart (held.single p caller other holds)

/-- A call without the lock relies on nothing. -/
theorem sound_of_not_holds {phase : CreationPhase} {given : List Nat} (without : ¬phase.Holds) :
    phase.Sound tasks given := by
  cases phase with
  | away => trivial
  | spinning call => trivial
  | searching | found | worked | published => exact absurd trivial without

/-- The caller that has the lock moves on. -/
theorem CreationSound.goTo (held : CreationSound state) {caller : Nat} {phase : CreationPhase}
    (alone : state.Alone caller) (locked : tasks.allocPcbLock = true)
    (sound : phase.Sound tasks state.given)
    (busy : ∀ child ∈ state.given, (tasks.table child).stat ≠ .idle) :
    CreationSound (state.goTo caller tasks phase) := by
  have others : ∀ p, p ≠ caller → (state.goTo caller tasks phase).phase p = state.phase p :=
    fun p apart => Function.update_of_ne apart _ _
  have only : ∀ p, ((state.goTo caller tasks phase).phase p).Holds → p = caller := by
    intro p holds
    by_contra apart
    rw [others p apart] at holds
    exact alone p apart holds
  refine ⟨fun p q left right => (only p left).trans (only q right).symm, fun _ _ => locked, fun p => ?_,
    held.records, held.distinct, busy⟩
  by_cases isCaller : p = caller
  · subst isCaller
    simp only [CreationState.goTo, Function.update_self]
    exact sound
  · rw [others p isCaller]
    exact sound_of_not_holds (alone p isCaller)

/-- The caller that has the lock returns. -/
theorem CreationSound.giveBack (held : CreationSound state) {caller : Nat} {record : Returned}
    (alone : state.Alone caller) (sound : record.Sound)
    (fresh : ∀ child, record.child = some child →
      child ∉ state.given ∧ (record.after.table child).stat ≠ .idle)
    (busy : ∀ child ∈ state.given, (record.after.table child).stat ≠ .idle) :
    CreationSound (state.giveBack caller record) := by
  have nobody : ∀ p, ¬((state.giveBack caller record).phase p).Holds := by
    intro p
    by_cases isCaller : p = caller
    · subst isCaller
      simp [CreationState.giveBack, CreationPhase.Holds]
    · simpa [CreationState.giveBack, isCaller] using alone p isCaller
  refine ⟨fun p _ left => absurd left (nobody p), fun p holds => absurd holds (nobody p),
    fun p => sound_of_not_holds (nobody p), ?_, ?_, ?_⟩
  · intro other member
    rcases List.mem_cons.mp member with rfl | earlier
    · exact sound
    · exact held.records other earlier
  · cases got : record.child with
    | none => simpa [CreationState.given, CreationState.giveBack, got] using held.distinct
    | some child =>
        simp only [CreationState.given, CreationState.giveBack, List.filterMap_cons, got]
        exact List.nodup_cons.mpr ⟨(fresh child got).1, held.distinct⟩
  · intro child member
    cases got : record.child with
    | none =>
        simp only [CreationState.given, CreationState.giveBack, List.filterMap_cons, got] at member
        exact busy child member
    | some made =>
        simp only [CreationState.given, CreationState.giveBack, List.filterMap_cons, got] at member
        rcases List.mem_cons.mp member with rfl | earlier
        · exact (fresh child got).2
        · exact busy child earlier

/-- A caller that takes the lock, or waits for it, changes nothing for the others. -/
theorem CreationSound.call (held : CreationSound state) {caller : Nat} (away : state.phase caller = .away)
    (call : TaskCall) : CreationSound (state.goTo caller state.tasks (.spinning call)) := by
  have others : ∀ p, p ≠ caller →
      (state.goTo caller state.tasks (.spinning call)).phase p = state.phase p :=
    fun p apart => Function.update_of_ne apart _ _
  have holds : ∀ p, ((state.goTo caller state.tasks (.spinning call)).phase p).Holds →
      (state.phase p).Holds := by
    intro p inside
    by_cases isCaller : p = caller
    · subst isCaller
      simp [CreationState.goTo, CreationPhase.Holds] at inside
    · rwa [others p isCaller] at inside
  refine ⟨fun p q left right => held.single p q (holds p left) (holds q right),
    fun p inside => held.locked p (holds p inside), fun p => ?_, held.records, held.distinct, held.busy⟩
  by_cases isCaller : p = caller
  · subst isCaller
    simp [CreationState.goTo, CreationPhase.Sound]
  · rw [others p isCaller]
    exact held.phases p

theorem proceed_sound (held : CreationSound state) {caller : Nat}
    (moved : state.proceed layout caller = some next) : CreationSound next := by
  unfold CreationState.proceed at moved
  have sound := held.phases caller
  have own : (state.phase caller).Holds → state.Alone caller := held.alone
  split at moved
  next => cases moved
  next call spinning =>
    split at moved
    next => cases moved
    next free =>
      cases moved
      have alone : state.Alone caller := fun p _ holds => free (held.locked p holds)
      refine held.goTo alone rfl ⟨rfl, Nat.le_refl _, fun j below free => ?_⟩ held.busy
      exact absurd free.low (Nat.not_le.mpr below)
  next call before i searching =>
    rw [searching] at sound own
    obtain ⟨same, low, none⟩ := sound
    have locked : state.tasks.allocPcbLock = true := by rw [same]; rfl
    split at moved
    next inside =>
      split at moved
      next idle =>
        cases moved
        refine held.goTo (own trivial) locked ⟨same, low, inside, ?_⟩ held.busy
        rw [same] at idle
        exact idle
      next busy =>
        cases moved
        refine held.goTo (own trivial) locked ⟨same, Nat.le_succ_of_le low, fun j below free => ?_⟩ held.busy
        rcases Nat.lt_succ_iff_lt_or_eq.mp below with earlier | rfl
        · exact none j earlier free
        · rw [same] at busy
          exact busy free.idle
    next outside =>
      cases moved
      refine held.giveBack (own trivial) ⟨fun _ => ⟨same, fun child free => ?_⟩, ?_⟩ ?_ held.busy
      · exact none child (Nat.lt_of_lt_of_le free.high (Nat.not_lt.mp outside)) free
      · intro child got
        cases got
      · intro child got
        cases got
  next call before child found =>
    rw [found] at sound own
    obtain ⟨same, free⟩ := sound
    cases moved
    have idle : (state.tasks.table child).stat = .idle := by rw [same]; exact free.idle
    have fresh : child ∉ state.given := fun member => held.busy child member idle
    refine held.goTo (own trivial) ?_ ⟨free, fresh⟩ fun other member => ?_
    · rw [work_lock, same]
      rfl
    · rw [work_stat]
      · exact held.busy other member
      · rintro rfl
        exact fresh member
  next call before child worked =>
    rw [worked] at sound own
    obtain ⟨free, fresh⟩ := sound
    cases moved
    refine held.goTo (own trivial) (held.locked caller (by rw [worked]; trivial)) ⟨free, fresh, ?_⟩
      fun other member => ?_
    · rw [publish_stat]
      decide
    · rw [publish_stat_other]
      · exact held.busy other member
      · rintro rfl
        exact fresh member
  next call before child published =>
    rw [published] at sound own
    obtain ⟨free, fresh, ready⟩ := sound
    cases moved
    refine held.giveBack (own trivial) ⟨?_, ?_⟩ ?_ held.busy
    · intro missing
      cases missing
    · intro got same
      cases same
      exact ⟨free, Int.natCast_nonneg _, rfl⟩
    · intro got same
      cases same
      exact ⟨fresh, ready⟩

theorem creationStep_sound (held : CreationSound state) {action : CreationAction}
    (moved : (creationSystem layout).step state action = some next) : CreationSound next := by
  cases action with
  | call call =>
      simp only [creationSystem, CreationState.step] at moved
      split at moved
      next away =>
        cases moved
        exact held.call away call
      next => cases moved
  | proceed caller => exact proceed_sound held moved

theorem creation_start (start : (creationSystem layout).initial state) : CreationSound state := by
  obtain ⟨_, away, nothing⟩ := start
  have nobody : ∀ p, ¬(state.phase p).Holds := fun p => by rw [away p]; exact id
  exact ⟨fun p _ left => absurd left (nobody p), fun p holds => absurd holds (nobody p),
    fun p => sound_of_not_holds (nobody p), by simp [nothing], by simp [CreationState.given, nothing],
    by simp [CreationState.given, nothing]⟩

theorem creation_reached (reached : (creationSystem layout).Reachable state) : CreationSound state :=
  reached.invariant (fun _ => creation_start) fun _ _ _ held => creationStep_sound held

/-! ## The condition -/

/-- The lock is taken only while some PCB is free. -/
def RoomAtAcquire (state : CreationState) : CreationAction → Prop
  | .proceed caller => ∀ call, state.phase caller = .spinning call → ∃ child, FreePcb state.tasks child
  | .call _ => True

/-- The tasks at the `acquire` of a call. -/
def CreationPhase.before : CreationPhase → Option Tasks
  | .away | .spinning _ => none
  | .searching _ before _ | .found _ before _ | .worked _ before _ | .published _ before _ => some before

/-- Every call got the lock while some PCB was free. -/
structure Roomy (state : CreationState) : Prop where
  phases : ∀ p, ∀ before ∈ (state.phase p).before, ∃ child, FreePcb before child
  records : ∀ record ∈ state.returned, ∃ child, FreePcb record.before child

theorem Roomy.goTo (held : Roomy state) {caller : Nat} {phase : CreationPhase}
    (room : ∀ before ∈ phase.before, ∃ child, FreePcb before child) : Roomy (state.goTo caller tasks phase) := by
  refine ⟨fun p before member => ?_, held.records⟩
  by_cases isCaller : p = caller
  · subst isCaller
    simp only [CreationState.goTo, Function.update_self] at member
    exact room before member
  · simp only [CreationState.goTo, Function.update_of_ne isCaller] at member
    exact held.phases p before member

theorem Roomy.giveBack (held : Roomy state) {caller : Nat} {record : Returned}
    (room : ∃ child, FreePcb record.before child) : Roomy (state.giveBack caller record) := by
  refine ⟨fun p before member => ?_, fun other member => ?_⟩
  · by_cases isCaller : p = caller
    · subst isCaller
      simp [CreationState.giveBack, CreationPhase.before] at member
    · simp only [CreationState.giveBack, Function.update_of_ne isCaller] at member
      exact held.phases p before member
  · rcases List.mem_cons.mp member with rfl | earlier
    · exact room
    · exact held.records other earlier

theorem creationStep_roomy (held : Roomy state) {action : CreationAction}
    (room : RoomAtAcquire state action)
    (moved : (creationSystem layout).step state action = some next) : Roomy next := by
  cases action with
  | call call =>
      simp only [creationSystem, CreationState.step] at moved
      split at moved
      next =>
        cases moved
        exact held.goTo (by simp [CreationPhase.before])
      next => cases moved
  | proceed caller =>
      have rest := held.phases caller
      simp only [creationSystem, CreationState.step, CreationState.proceed] at moved
      split at moved
      next => cases moved
      next call spinning =>
        split at moved
        next => cases moved
        next =>
          cases moved
          refine held.goTo fun before member => ?_
          obtain rfl : state.tasks = before := by simpa [CreationPhase.before] using member
          exact room call spinning
      next call before i searching =>
        rw [searching] at rest
        split at moved
        next =>
          split at moved
          next => cases moved; exact held.goTo rest
          next => cases moved; exact held.goTo rest
        next => cases moved; exact held.giveBack (rest before rfl)
      next call before child found =>
        rw [found] at rest
        cases moved
        exact held.goTo rest
      next call before child worked =>
        rw [worked] at rest
        cases moved
        exact held.goTo rest
      next call before child published =>
        rw [published] at rest
        cases moved
        exact held.giveBack (rest before rfl)

theorem roomy_reached (reached : (creationSystem layout).ReachableWhen RoomAtAcquire state) : Roomy state := by
  have start : ∀ state, (creationSystem layout).initial state → Roomy state := by
    rintro state ⟨_, away, nothing⟩
    refine ⟨fun p before member => ?_, by simp [nothing]⟩
    rw [away p] at member
    cases member
  exact reached.invariant start fun _ _ _ held room => creationStep_roomy held room

/-- Every call that has returned found a PCB exactly if it has released the lock. -/
theorem Returned.Sound.freed_iff {record : Returned} (sound : record.Sound) :
    record.after.allocPcbLock = false ↔ ∃ child, FreePcb record.before child := by
  cases got : record.child with
  | none =>
      obtain ⟨after, nothing⟩ := sound.failed got
      refine ⟨fun freed => ?_, fun ⟨child, free⟩ => absurd free (nothing child)⟩
      rw [after] at freed
      cases freed
  | some child =>
      obtain ⟨free, _, freed⟩ := sound.done child got
      exact ⟨fun _ => ⟨child, free⟩, fun _ => freed⟩

/-- What creation promises of the calls that have returned: each left the lock free,
one that returned -1 changed nothing else, and no two got the same PCB. -/
structure GivesBack (state : CreationState) : Prop where
  freed : ∀ record ∈ state.returned, record.after.allocPcbLock = false
  unchanged : ∀ record ∈ state.returned, record.result = -1 → record.after = record.before.lock
  distinct : state.given.Nodup

/-- In every run a call releases the lock exactly if some PCB is free at its
`acquire`, changes nothing but the lock if it returns -1, and gets a PCB of its own;
so every run of calls that all find a PCB keeps the promise. -/
theorem creation_gives_back (layout : Layout) :
    (∀ state, (creationSystem layout).Reachable state →
        (∀ record ∈ state.returned, record.after.allocPcbLock = false ↔
            ∃ child, FreePcb record.before child) ∧
          (∀ record ∈ state.returned, record.result = -1 → record.after = record.before.lock) ∧
          state.given.Nodup) ∧
      ∀ state, (creationSystem layout).ReachableWhen RoomAtAcquire state → GivesBack state := by
  have every : ∀ state, (creationSystem layout).Reachable state →
      (∀ record ∈ state.returned, record.after.allocPcbLock = false ↔
          ∃ child, FreePcb record.before child) ∧
        (∀ record ∈ state.returned, record.result = -1 → record.after = record.before.lock) ∧
        state.given.Nodup := by
    intro state reached
    have held := creation_reached reached
    refine ⟨fun record member => (held.records record member).freed_iff, fun record member failed => ?_,
      held.distinct⟩
    have sound := held.records record member
    cases got : record.child with
    | none => exact (sound.failed got).1
    | some child =>
        have positive := (sound.done child got).2.1
        rw [failed] at positive
        exact absurd positive (by decide)
  refine ⟨every, fun state reached => ?_⟩
  obtain ⟨freed, unchanged, distinct⟩ := every state reached.reachable
  have roomy := roomy_reached reached
  exact ⟨fun record member => (freed record member).mpr (roomy.records record member), unchanged, distinct⟩

/-- Two processes create at a time: the second call waits for the first one. -/
def twoCreations : List CreationAction :=
  [.call (.fork 0 0x300000), .call (.pthread 1 0x8048000), .proceed 0, .proceed 0, .proceed 0, .proceed 0,
    .proceed 0, .proceed 1, .proceed 1, .proceed 1, .proceed 1, .proceed 1, .proceed 1]

def creationStart (tasks : Tasks) : CreationState := ⟨tasks, fun _ => .away, []⟩

/-- The last PCB of the table is free. -/
theorem room_of_last (free : (state.tasks.table 63).stat = .idle) {action : CreationAction} :
    RoomAtAcquire state action := by
  cases action with
  | call call => trivial
  | proceed caller => exact fun _ _ => ⟨63, by decide, by decide, free⟩

theorem creation_gives_back_two :
    ∃ state, (creationSystem lowLayout).run (creationStart bootTasks) twoCreations = some state ∧
      state.given = [17, 16] ∧ GivesBack state := by
  obtain ⟨state, ran, given, meets⟩ : ∃ state,
      (creationSystem lowLayout).run (creationStart bootTasks) twoCreations = some state ∧
        state.given = [17, 16] ∧
        (creationSystem lowLayout).Meets RoomAtAcquire (creationStart bootTasks) twoCreations := by
    refine ⟨_, rfl, rfl, trivial, trivial, ?_⟩
    exact ⟨room_of_last rfl, room_of_last rfl, room_of_last rfl, room_of_last rfl, room_of_last rfl,
      room_of_last rfl, room_of_last rfl, room_of_last rfl, room_of_last rfl, room_of_last rfl,
      room_of_last rfl, trivial⟩
  have start : (creationSystem lowLayout).ReachableWhen RoomAtAcquire (creationStart bootTasks) :=
    .initial ⟨rfl, fun _ => rfl, rfl⟩
  exact ⟨state, ran, given, (creation_gives_back lowLayout).2 state (start.of_run ran meets)⟩

/-- Every PCB is in use. -/
def fullTasks : Tasks := ⟨fun i => { emptyPcb i with stat := .ready }, false, 0⟩

/-- A fork that finds no PCB returns -1 and leaves the lock taken. -/
theorem full_table_keeps_lock :
    ∃ state, (creationSystem lowLayout).Reachable state ∧
      ∃ record ∈ state.returned, record.result = -1 ∧ record.after.allocPcbLock = true := by
  obtain ⟨state, ran, failed⟩ : ∃ state,
      (creationSystem lowLayout).run (creationStart fullTasks)
          (.call (.fork 0 0x300000) :: List.replicate 50 (.proceed 0)) = some state ∧
        ∃ record ∈ state.returned, record.result = -1 ∧ record.after.allocPcbLock = true :=
    ⟨_, rfl, _, List.mem_cons_self, rfl, rfl⟩
  have start : (creationSystem lowLayout).Reachable (creationStart fullTasks) :=
    .initial ⟨rfl, fun _ => rfl, rfl⟩
  exact ⟨state, start.of_run ran, failed⟩

end AempOS.Task
