import AempOS.Ipc.MsgQueueProperties

/-! Keys and ids of message queues. A key stands for one queue from its allocation to the
removal of its id, which any process may ask for; an id that was given out before that
names whatever queue has the id afterwards. -/

set_option autoImplicit false

namespace AempOS.Ipc

open Lib

/-! ## Keys of one state -/

namespace MsgState

def UniqueKeys (state : MsgState) : Prop :=
  ∀ id other key, state.Holds id key → state.Holds other key → id = other

/-- The id has no queue yet, and the one that its first call makes has no message and
nobody who waits. -/
def EmptyQueue (state : MsgState) (id : Nat) : Prop :=
  state.queues id = none ∧ ∃ opened queue, state.openQueue id = some opened ∧
    opened.queues id = some queue ∧ queue.use = none ∧ queue.wIdle = [] ∧ queue.wUse = []

end MsgState

/-- What `alloc_msg_queue` does for a key. -/
inductive Allocation (state : MsgState) (key : Int) : MsgState → Outcome → Prop where
  | known {id : Nat} : state.Holds id key → Allocation state key state (.returned id [])
  | created {id : Nat} {next : MsgState} :
      (∀ other, ¬state.Holds other key) → id < msgmni → state.allocs id = -1 →
      next = { state with
        allocs := Function.update state.allocs id 1
        keys := Function.update state.keys id key } →
      next.EmptyQueue id → Allocation state key next (.returned id [])
  | full : (∀ other, ¬state.Holds other key) → (∀ id < msgmni, state.allocs id ≠ -1) →
      Allocation state key state fault

variable {state next : MsgState} {pid : Nat} {outcome : Outcome}

/-- The first call on an allocated id without a queue makes one that is empty. -/
theorem emptyQueue_of_none {id : Nat} (inside : id < msgmni) (used : state.allocs id ≠ -1)
    (none : state.queues id = none) : state.EmptyQueue id := by
  have inRange : ¬((id : Int) < 0 ∨ (id : Int) ≥ msgmni) := by omega
  have same : (id : Int).toNat = id := Int.toNat_natCast id
  have made : state.openQueue id = some { state with
      nodes := (allocIdleQueue msgmnb ⟨state.nodes, Option.none⟩ state.fresh .head).heap
      fresh := state.fresh + msgmnb
      queues := Function.update state.queues id (some {
        idle := (allocIdleQueue msgmnb ⟨state.nodes, Option.none⟩ state.fresh .head).head
        use := Option.none
        wIdle := []
        wUse := [] }) } := by
    simp only [MsgState.openQueue, MsgState.initMsgQueue, if_neg inRange, same, if_neg used, none,
      Option.isSome_none, Bool.false_eq_true, if_false]
    rfl
  exact ⟨none, _, _, made, Function.update_self _ _ _, rfl, rfl, rfl⟩

theorem allocMsgQueue_allocation (closed : ∀ id, state.allocs id = -1 → state.queues id = none)
    (key : Int) :
    Allocation state key (state.allocMsgQueue key).1 (state.allocMsgQueue key).2 := by
  obtain ⟨id, holds, result⟩ | ⟨absent, ⟨id, inside, unused, result⟩ | ⟨all, result⟩⟩ :=
    allocMsgQueue_cases state key
  · rw [result]
    exact .known holds
  · rw [result]
    refine .created absent inside unused rfl (emptyQueue_of_none inside ?_ (closed id unused))
    simp only [Function.update_self]
    decide
  · rw [result]
    exact .full absent all

/-! ## Steps that keep the names -/

structure SameNames (before after : MsgState) : Prop where
  allocs : after.allocs = before.allocs
  keys : after.keys = before.keys

theorem SameNames.trans {later : MsgState} (first : SameNames state next)
    (second : SameNames next later) : SameNames state later :=
  ⟨second.allocs.trans first.allocs, second.keys.trans first.keys⟩

theorem SameNames.holds (same : SameNames state next) {id : Nat} {key : Int} :
    next.Holds id key ↔ state.Holds id key := by
  unfold MsgState.Holds
  rw [same.allocs, same.keys]

theorem wakeUpIdle_names (state : MsgState) (id : Nat) (queue : MsgQueue) :
    SameNames state (state.wakeUpIdleProcess id queue) := by
  unfold MsgState.wakeUpIdleProcess
  split
  next => exact ⟨rfl, rfl⟩
  next => exact ⟨rfl, rfl⟩

theorem wakeUpUse_names (state : MsgState) (id : Nat) (queue : MsgQueue) (type : Int) :
    SameNames state (state.wakeUpUseProcess id queue type) := by
  unfold MsgState.wakeUpUseProcess
  split
  next => exact ⟨rfl, rfl⟩
  next => exact ⟨rfl, rfl⟩

theorem initMsgQueue_names (state : MsgState) (msqid : Int) :
    SameNames state (state.initMsgQueue msqid).1 := by
  unfold MsgState.initMsgQueue
  split
  next => exact ⟨rfl, rfl⟩
  next =>
    split
    next => exact ⟨rfl, rfl⟩
    next => exact ⟨rfl, rfl⟩

theorem storeQueue_names (state : MsgState) (id : Nat) (queue : MsgQueue) (nodes : SHeap MsgData) :
    SameNames state (state.storeQueue id queue nodes) := ⟨rfl, rfl⟩

theorem openQueue_names {msqid : Int} (isOpen : state.openQueue msqid = some next) :
    SameNames state next := by
  have names := initMsgQueue_names state msqid
  unfold MsgState.openQueue at isOpen
  split at isOpen
  next => cases isOpen
  next =>
    split at isOpen
    next => cases isOpen
    next =>
      split at isOpen
      next =>
        cases isOpen
        exact ⟨rfl, rfl⟩
      next =>
        generalize state.initMsgQueue msqid = result at isOpen names
        obtain ⟨made, err⟩ := result
        simp only at isOpen
        split at isOpen
        next => cases isOpen
        next =>
          cases isOpen
          exact names

theorem pushOpen_names {msqid type flag : Int} {size : Nat} {buffer : Nat → UInt8}
    (done : state.pushOpen pid msqid size type flag buffer = some (next, outcome)) :
    SameNames state next := by
  simp only [MsgState.pushOpen, Option.bind_eq_bind, Option.bind_eq_some_iff] at done
  obtain ⟨mqp, _, done⟩ := done
  split at done
  next =>
    split at done
    next =>
      cases done
      exact ⟨rfl, rfl⟩
    next =>
      cases done
      exact ⟨rfl, rfl⟩
  next =>
    obtain ⟨use, _, done⟩ := Option.bind_eq_some_iff.mp done
    cases done
    exact (storeQueue_names _ _ _ _).trans (wakeUpUse_names _ _ _ _)

theorem popOpen_names {msqid type flag : Int} {size : Nat}
    (done : state.popOpen pid msqid size type flag = some (next, outcome)) : SameNames state next := by
  simp only [MsgState.popOpen, Option.bind_eq_bind, Option.bind_eq_some_iff] at done
  obtain ⟨mqp, _, found, _, done⟩ := done
  split at done
  next =>
    split at done
    next =>
      cases done
      exact ⟨rfl, rfl⟩
    next =>
      cases done
      exact ⟨rfl, rfl⟩
  next =>
    cases done
    exact (storeQueue_names _ _ _ _).trans (wakeUpIdle_names _ _ _)

theorem runSection_names {call : Call} {buffer : Nat → UInt8}
    (done : state.runSection pid buffer call = some (next, outcome)) : SameNames state next := by
  cases call with
  | push msqid size type flag =>
      simp only [MsgState.runSection] at done
      split at done
      next =>
        cases done
        exact ⟨rfl, rfl⟩
      next opened isOpen => exact (openQueue_names isOpen).trans (pushOpen_names done)
  | pop msqid size type flag =>
      simp only [MsgState.runSection] at done
      split at done
      next =>
        cases done
        exact ⟨rfl, rfl⟩
      next opened isOpen => exact (openQueue_names isOpen).trans (popOpen_names done)

/-! ## Runs -/

/-- An id that a process got for a key. -/
structure Grant where
  pid : Nat
  key : Int
  id : Nat
  deriving DecidableEq

/-- The system, with all the ids that were given out, and with those of them whose id was
not removed since. -/
structure NameRun where
  sys : MsgState
  given : List Grant
  kept : List Grant

def NameRun.record (run : NameRun) (next : MsgState) (outcome : Outcome) : MsgAction → NameRun
  | .alloc pid key =>
      match outcome with
      | .returned value _ =>
          if value = -1 then { run with sys := next }
          else
            { sys := next
              given := ⟨pid, key, value.toNat⟩ :: run.given
              kept := ⟨pid, key, value.toNat⟩ :: run.kept }
      | .blocked => { run with sys := next }
  | .free _ msqid =>
      { run with sys := next, kept := run.kept.filter fun grant => (grant.id : Int) ≠ msqid }
  | .call _ _ _ => { run with sys := next }
  | .resume _ _ => { run with sys := next }

def nameSystem : Machine NameRun MsgAction where
  initial run := run.sys.Fresh ∧ run.given = [] ∧ run.kept = []
  step run action := (run.sys.perform action).map fun result =>
    run.record result.1 result.2 action

/-- The queues are sound, a key has one slot, and the ids that were not removed since they
were given out are still those of their keys. -/
structure Named (run : NameRun) : Prop where
  sound : ∃ made contents, Matches run.sys made contents
  unique : run.sys.UniqueKeys
  kept : ∀ grant ∈ run.kept, run.sys.Holds grant.id grant.key

variable {run after : NameRun}

theorem Named.closed (named : Named run) (id : Nat) (unused : run.sys.allocs id = -1) :
    run.sys.queues id = none := by
  obtain ⟨made, contents, held⟩ := named.sound
  have absent := (held.unused id unused).2
  simpa [MsgState.heads] using absent

theorem Named.same (named : Named run) (same : SameNames run.sys next)
    (sound : ∃ made contents, Matches next made contents) : Named { run with sys := next } where
  sound := sound
  unique id other key here there := named.unique id other key (same.holds.mp here) (same.holds.mp there)
  kept grant member := same.holds.mpr (named.kept grant member)

theorem Named.alloc (named : Named run) (key : Int) (allocation : Allocation run.sys key next outcome)
    (sound : ∃ made contents, Matches next made contents) (pid : Nat) :
    Named (run.record next outcome (.alloc pid key)) := by
  cases allocation with
  | @known id holds =>
      have notMinus : (id : Int) ≠ -1 := by omega
      simp only [NameRun.record, if_neg notMinus, Int.toNat_natCast]
      refine ⟨sound, named.unique, fun grant member => ?_⟩
      rcases List.mem_cons.mp member with rfl | earlier
      · exact holds
      · exact named.kept grant earlier
  | @created id _ absent inside unused isNext _ =>
      have notMinus : (id : Int) ≠ -1 := by omega
      have here : next.Holds id key := by
        refine ⟨inside, ?_, ?_⟩
        · rw [isNext]
          simp only [Function.update_self]
          decide
        · rw [isNext]
          exact Function.update_self _ _ _
      have others {other : Nat} {otherKey : Int} (differ : other ≠ id) :
          next.Holds other otherKey ↔ run.sys.Holds other otherKey := by
        unfold MsgState.Holds
        rw [isNext]
        simp only [Function.update_of_ne differ]
      simp only [NameRun.record, if_neg notMinus, Int.toNat_natCast]
      refine ⟨sound, fun one two sameKey first second => ?_, fun grant member => ?_⟩
      · by_cases isOne : one = id
        · by_cases isTwo : two = id
          · rw [isOne, isTwo]
          · have keyOne : sameKey = key := by
              rw [isOne] at first
              exact first.2.2.symm.trans here.2.2
            exact absurd (keyOne ▸ (others isTwo).mp second) (absent two)
        · by_cases isTwo : two = id
          · have keyTwo : sameKey = key := by
              rw [isTwo] at second
              exact second.2.2.symm.trans here.2.2
            exact absurd (keyTwo ▸ (others isOne).mp first) (absent one)
          · exact named.unique one two sameKey ((others isOne).mp first) ((others isTwo).mp second)
      · rcases List.mem_cons.mp member with rfl | earlier
        · exact here
        · have held := named.kept grant earlier
          have differ : grant.id ≠ id := by
            rintro isId
            exact held.2.1 (isId ▸ unused)
          exact (others differ).mpr held
  | full absent all =>
      simp only [NameRun.record, fault, if_true]
      exact ⟨sound, named.unique, named.kept⟩

theorem Named.free (named : Named run) {id : Nat} (nodes : SHeap MsgData)
    (sound : ∃ made contents, Matches (run.sys.released id nodes) made contents) (pid : Nat) :
    Named (run.record (run.sys.released id nodes) (.returned 0 []) (.free pid id)) := by
  have others {other : Nat} {key : Int} (holds : (run.sys.released id nodes).Holds other key) :
      other ≠ id := by
    rintro rfl
    refine holds.2.1 ?_
    simp [MsgState.released, MsgState.dropQueue, MsgState.closeId]
  have same {other : Nat} {key : Int} (differ : other ≠ id) :
      (run.sys.released id nodes).Holds other key ↔ run.sys.Holds other key := by
    simp only [MsgState.Holds, MsgState.released, MsgState.dropQueue, MsgState.closeId,
      Function.update_of_ne differ]
  refine ⟨sound, fun one two key first second => ?_, fun grant member => ?_⟩
  · exact named.unique one two key ((same (others first)).mp first) ((same (others second)).mp second)
  · simp only [NameRun.record, List.mem_filter, decide_eq_true_eq] at member
    exact (same fun isId => member.2 (by rw [isId])).mpr (named.kept grant member.1)

theorem Named.step {action : MsgAction} (named : Named run)
    (done : run.sys.perform action = some (next, outcome)) : Named (run.record next outcome action) := by
  obtain ⟨made, contents, held⟩ := named.sound
  obtain ⟨_, _, _, isDone, _, nextHeld⟩ := perform_spec held (perform_enabled done)
  cases isDone.symm.trans done
  have sound : ∃ made contents, Matches next made contents := ⟨_, _, nextHeld⟩
  cases action with
  | alloc pid key =>
      simp only [MsgState.perform] at done
      split at done
      next =>
        have allocation := allocMsgQueue_allocation named.closed key
        cases done
        exact named.alloc key allocation sound pid
      next => cases done
  | free pid msqid =>
      simp only [MsgState.perform] at done
      split at done
      next =>
        obtain ⟨_, refused⟩ | ⟨range, nodes, released, _⟩ := freeMsgQueue_cases held msqid
        · cases refused.symm.trans done
          exact ⟨sound, named.unique, fun grant member => named.kept grant (List.mem_filter.mp member).1⟩
        · cases released.symm.trans done
          have isId : (msqid.toNat : Int) = msqid := Int.toNat_of_nonneg range.1
          have freed := named.free nodes sound pid
          rwa [isId] at freed
      next => cases done
  | call pid call buffer =>
      simp only [MsgState.perform] at done
      split at done
      next => exact named.same (runSection_names done) sound
      next => cases done
  | resume pid buffer =>
      simp only [MsgState.perform, Option.bind_eq_bind, Option.bind_eq_some_iff] at done
      obtain ⟨call, _, done⟩ := done
      have left : SameNames run.sys (run.sys.setCall pid none) := ⟨rfl, rfl⟩
      split at done
      next => cases done
      next =>
        split at done
        next =>
          cases done
          exact named.same left sound
        next => exact named.same (left.trans (runSection_names done)) sound

theorem MsgState.Fresh.named (fresh : run.sys.Fresh) (none : run.kept = []) : Named run where
  sound := ⟨fun _ => [], fun _ => Option.none, fresh.matches_empty⟩
  unique id _ _ holds := absurd (fresh.allocs id) holds.2.1
  kept grant member := by
    rw [none] at member
    cases member

theorem named_reached (reached : nameSystem.Reachable run) : Named run := by
  have start : ∀ run, nameSystem.initial run → Named run := fun run initial => initial.1.named initial.2.2
  refine reached.invariant start fun run action after named moved => ?_
  obtain ⟨⟨next, outcome⟩, done, rfl⟩ := Option.map_eq_some_iff.mp moved
  exact named.step done

/-- In every run a key has one slot at most, `alloc_msg_queue` finds it or allocates one with
an empty queue, and of the ids that were not removed since they were given out two are
equal just when they were given out for the same key. -/
theorem msg_queue_names (reached : nameSystem.Reachable run) :
    run.sys.UniqueKeys ∧
      (∀ key, Allocation run.sys key (run.sys.allocMsgQueue key).1 (run.sys.allocMsgQueue key).2) ∧
      (∀ grant ∈ run.kept, run.sys.Holds grant.id grant.key) ∧
      ∀ one ∈ run.kept, ∀ two ∈ run.kept, one.id = two.id ↔ one.key = two.key := by
  have named := named_reached reached
  refine ⟨named.unique, allocMsgQueue_allocation named.closed, named.kept,
    fun one memberOne two memberTwo => ?_⟩
  have first := named.kept one memberOne
  have second := named.kept two memberTwo
  constructor
  · intro sameId
    rw [sameId] at first
    exact first.2.2.symm.trans second.2.2
  · intro sameKey
    rw [sameKey] at first
    exact named.unique one.id two.id two.key first second

def bootNames : NameRun := ⟨bootMsg.sys, [], []⟩

theorem bootNames_reached : nameSystem.Reachable bootNames :=
  .initial ⟨⟨fun _ => rfl, fun _ => rfl, fun _ => rfl, fun _ => rfl⟩, rfl, rfl⟩

/-- Three processes, the key 0 among their keys. -/
theorem msg_queue_names_three :
    ∃ run, nameSystem.run bootNames [.alloc 0 0, .alloc 1 7, .alloc 2 0] = some run ∧
      run.kept = [⟨2, 0, 9⟩, ⟨1, 7, 8⟩, ⟨0, 0, 9⟩] ∧ run.sys.UniqueKeys := by
  have ran : nameSystem.run bootNames [.alloc 0 0, .alloc 1 7, .alloc 2 0] = some _ := rfl
  exact ⟨_, ran, rfl, (msg_queue_names (bootNames_reached.of_run ran)).1⟩

/-- Process 1 removes the queue of process 0 and gets its id for another key: what process 0
sends to the id that it has, process 1 receives. -/
theorem msg_queue_id_shared :
    ∃ run sent received, nameSystem.Reachable run ∧
      (⟨0, 5, 9⟩ : Grant) ∈ run.given ∧ (⟨1, 7, 9⟩ : Grant) ∈ run.given ∧
      run.sys.perform (.call 0 (.push 9 1 4 0) fun _ => 8) = some (sent, .returned 0 []) ∧
      sent.perform (.call 1 (.pop 9 1 4 0) fun _ => 0) = some (received, .returned 1 [8]) := by
  have ran : nameSystem.run bootNames [.alloc 0 5, .free 1 9, .alloc 1 7] = some _ := rfl
  exact ⟨_, _, _, bootNames_reached.of_run ran, by decide, by decide, rfl, rfl⟩

end AempOS.Ipc
