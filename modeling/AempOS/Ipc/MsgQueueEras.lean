import AempOS.Ipc.MsgQueueWakeUps

/-! The queues that have the same id one after the other. A woken call knows only
the id of its queue, and runs its section from the beginning: it may find a queue
that was made after the one that it waited for was removed. -/

set_option autoImplicit false

namespace AempOS.Ipc

open Lib

variable {run : EraRun} {state next : MsgState} {pid : Nat} {call : Call} {outcome : Outcome}

/-! ## The id that is allocated -/

/-- `alloc_msg_queue` is about to allocate the id: no id has the key, and it is the
last one that is free. -/
def Chosen (state : MsgState) (key : Int) (id : Nat) : Prop :=
  (∀ other < msgmni, state.allocs other ≠ -1 → state.keys other ≠ key) ∧
    id < msgmni ∧ state.allocs id = -1 ∧ ∀ other < msgmni, id < other → state.allocs other ≠ -1

/-- `f` and `a` in the loop of `alloc_msg_queue`, after some ids. -/
structure LastIds (state : MsgState) (key : Int) (seen : Nat) (found : Int × Int) : Prop where
  keyed : found.1 = -1 → ∀ other < seen, state.allocs other ≠ -1 → state.keys other ≠ key
  free : ∀ id : Nat, found.2 = id → ∀ other < seen, id < other → state.allocs other ≠ -1

theorem scanId_last (state : MsgState) (key : Int) (seen : Nat) :
    LastIds state key seen ((List.range seen).foldl (state.scanId key) (-1, -1)) := by
  induction seen with
  | zero => exact ⟨fun _ other below => absurd below (Nat.not_lt_zero _), fun _ _ other below => absurd below (Nat.not_lt_zero _)⟩
  | succ seen ih =>
      rw [List.range_succ, List.foldl_append, List.foldl_cons, List.foldl_nil]
      generalize (List.range seen).foldl (state.scanId key) (-1, -1) = found at ih
      refine ⟨fun notFound other below used => ?_, fun id isLast other below above => ?_⟩
      · simp only [MsgState.scanId] at notFound
        split at notFound
        next => omega
        next notHere =>
            rcases Nat.lt_succ_iff_lt_or_eq.mp below with earlier | rfl
            · exact ih.keyed notFound other earlier used
            · exact fun same => notHere ⟨used, same⟩
      · simp only [MsgState.scanId] at isLast
        split at isLast
        next => omega
        next notFree =>
            rcases Nat.lt_succ_iff_lt_or_eq.mp below with earlier | rfl
            · exact ih.free id isLast other earlier above
            · exact notFree

/-- `alloc_msg_queue` allocates the chosen id, or nothing. -/
theorem allocMsgQueue_chosen (state : MsgState) (key : Int) :
    (state.allocMsgQueue key).1 = state ∨ ∃ id, Chosen state key id ∧ (state.allocMsgQueue key).1 =
      { state with allocs := Function.update state.allocs id 1, keys := Function.update state.keys id key } := by
  have scanned := scanId_scanned state key msgmni
  have last := scanId_last state key msgmni
  unfold MsgState.allocMsgQueue
  generalize (List.range msgmni).foldl (state.scanId key) (-1, -1) = result at scanned last
  obtain ⟨f, a⟩ := result
  by_cases create : f = -1 ∧ a ≠ -1
  · obtain ⟨id, inRange, unused, rfl⟩ := scanned.free.resolve_left fun none => create.2 none.1
    refine .inr ⟨id, ⟨last.keyed create.1, inRange, unused, last.free id rfl⟩, ?_⟩
    simp [create.1]
  · exact .inl (if_neg create)

/-! ## Calls and their queues -/

/-- No call that was woken for an earlier queue is still to run when the id is
allocated again. -/
def NoStale (run : EraRun) : MsgAction → Prop
  | .alloc _ key => ∀ id, Chosen run.sys key id → ∀ pid call, run.sys.calls pid = some call → call.id = id →
      (run.sys.tasks pid).waitingToReady ≠ 1
  | _ => True

/-- Every call that waits belongs to the queue for which it began to wait, unless
that was removed and the call was told so or has no queue to find. -/
def Steady (run : EraRun) : Prop :=
  ∀ pid call, run.sys.calls pid = some call → run.eras.joined pid = run.eras.began pid ∧
    ((run.sys.tasks pid).waitingToReady = -1 ∨
      (run.eras.removed call.id = run.eras.began pid ∧ run.sys.allocs call.id ≠ -1) ∨
      ((run.sys.tasks pid).waitingToReady = 1 ∧ run.sys.allocs call.id = -1))

/-- What the section of a call leaves as it was. -/
structure SectionFrame (before after : MsgState) (pid : Nat) (call : Call) : Prop where
  allocs : after.allocs = before.allocs
  calls : ∀ other, other ≠ pid → after.calls other = before.calls other
  own : after.calls pid = none ∨ (after.calls pid = some call ∧ before.allocs call.id ≠ -1)
  sleeps : after.calls pid ≠ none → (after.tasks pid).waitingToReady = 0
  tasks : ∀ other, other ≠ pid → after.tasks other = before.tasks other ∨
    ((before.tasks other).waitingToReady = 0 ∧ (after.tasks other).waitingToReady = 1)

theorem wakeUpIdle_tasks (state : MsgState) (id other : Nat) (queue : MsgQueue) :
    (state.wakeUpIdleProcess id queue).tasks other = state.tasks other ∨
      (other ∈ queue.wIdle ∧ ((state.wakeUpIdleProcess id queue).tasks other).waitingToReady = 1) := by
  unfold MsgState.wakeUpIdleProcess
  split
  next => exact .inl rfl
  next first rest isFirst =>
      by_cases same : other = first
      · exact .inr ⟨by simp [isFirst, same], by simp [MsgState.setTask, same, Task.wake]⟩
      · exact .inl (Function.update_of_ne same _ _)

theorem wakeUpUse_tasks (state : MsgState) (id other : Nat) (queue : MsgQueue) (type : Int) :
    (state.wakeUpUseProcess id queue type).tasks other = state.tasks other ∨
      (other ∈ queue.wUse.map WaitNode.data ∧
        ((state.wakeUpUseProcess id queue type).tasks other).waitingToReady = 1) := by
  unfold MsgState.wakeUpUseProcess
  split
  next => exact .inl rfl
  next node found =>
      by_cases same : other = node.data
      · exact .inr ⟨same ▸ List.mem_map_of_mem (List.mem_of_find?_eq_some found),
          by simp [MsgState.setTask, same, Task.wake]⟩
      · exact .inl (Function.update_of_ne same _ _)

section

variable {made : Nat → List Nat} {contents : Contents} {buffer : Nat → UInt8}
  (asleep : ∀ id, ∀ waiter ∈ state.waiters id, (state.tasks waiter).waitingToReady = 0)

include asleep

theorem pushOpen_frame (held : Matches state made contents) {msqid type flag : Int} {size : Nat}
    (outside : state.calls pid = none) (used : state.allocs msqid.toNat ≠ -1) {queue : MsgQueue}
    (found : state.queues msqid.toNat = some queue)
    (done : state.pushOpen pid msqid size type flag buffer = some (next, outcome)) :
    SectionFrame state next pid (.push msqid size type flag) := by
  obtain ⟨content, _, _, result⟩ | ⟨content, stored, nodes, _, _, _, use, result, _, _⟩ :=
    pushOpen_cases held found pid size type flag buffer
  · rw [result] at done
    by_cases nowait : flag = ipcNowait
    · rw [if_pos nowait] at done
      cases done
      exact ⟨rfl, fun _ _ => rfl, .inl outside, fun waits => absurd outside waits, fun _ _ => .inl rfl⟩
    · rw [if_neg nowait] at done
      cases done
      refine ⟨rfl, fun other differ => Function.update_of_ne differ _ _, .inr ⟨Function.update_self .., used⟩,
        fun _ => ?_, fun other differ => .inl (Function.update_of_ne differ _ _)⟩
      simp [MsgState.wait, MsgState.setQueue, MsgState.setTask, MsgState.setCall, Task.sleep]
  · rw [result] at done
    cases done
    have same := wakeUpUseProcess_same type (storeQueue_found state msqid.toNat stored nodes)
    have returned : ((state.storeQueue msqid.toNat stored nodes).wakeUpUseProcess msqid.toNat stored
        type).calls pid = none := by rw [wakeUpUse_calls]; exact outside
    refine ⟨same.allocs, fun other _ => by rw [wakeUpUse_calls]; rfl, .inl returned,
      fun waits => absurd returned waits, fun other _ => ?_⟩
    refine (wakeUpUse_tasks _ _ other stored type).imp id (And.imp_left fun waits => asleep msqid.toNat other ?_)
    rw [use] at waits
    simp only [MsgState.waiters, found]
    exact List.mem_append_right _ waits

theorem popOpen_frame (held : Matches state made contents) {msqid type flag : Int} {size : Nat}
    (outside : state.calls pid = none) (used : state.allocs msqid.toNat ≠ -1) {queue : MsgQueue}
    (found : state.queues msqid.toNat = some queue)
    (done : state.popOpen pid msqid size type flag = some (next, outcome)) :
    SectionFrame state next pid (.pop msqid size type flag) := by
  obtain ⟨content, _, _, result⟩ | ⟨_, message, _, stored, nodes, _, _, _, idle, _, result, _, _⟩ :=
    popOpen_cases held found pid size type flag
  · rw [result] at done
    by_cases nowait : flag = ipcNowait
    · rw [if_pos nowait] at done
      cases done
      exact ⟨rfl, fun _ _ => rfl, .inl outside, fun waits => absurd outside waits, fun _ _ => .inl rfl⟩
    · rw [if_neg nowait] at done
      cases done
      refine ⟨rfl, fun other differ => Function.update_of_ne differ _ _, .inr ⟨Function.update_self .., used⟩,
        fun _ => ?_, fun other differ => .inl (Function.update_of_ne differ _ _)⟩
      simp [MsgState.wait, MsgState.setQueue, MsgState.setTask, MsgState.setCall, Task.sleep]
  · rw [result] at done
    cases done
    have same := wakeUpIdleProcess_same (storeQueue_found state msqid.toNat stored nodes)
    have returned : ((state.storeQueue msqid.toNat stored nodes).wakeUpIdleProcess msqid.toNat
        stored).calls pid = none := by rw [wakeUpIdle_calls]; exact outside
    refine ⟨same.allocs, fun other _ => by rw [wakeUpIdle_calls]; rfl, .inl returned,
      fun waits => absurd returned waits, fun other _ => ?_⟩
    refine (wakeUpIdle_tasks _ _ other stored).imp id (And.imp_left fun waits => asleep msqid.toNat other ?_)
    rw [idle] at waits
    simp only [MsgState.waiters, found]
    exact List.mem_append_left _ waits

end

/-- A queue is open only if its id is allocated, and opening it changes nobody. -/
theorem openQueue_frame {opened : MsgState} {msqid : Int} (isOpen : state.openQueue msqid = some opened) :
    state.allocs msqid.toNat ≠ -1 ∧ opened.allocs = state.allocs ∧ opened.calls = state.calls ∧
      opened.tasks = state.tasks ∧ opened.waiters = state.waiters := by
  unfold MsgState.openQueue at isOpen
  split at isOpen
  next => cases isOpen
  next inside =>
      split at isOpen
      next => cases isOpen
      next used =>
          split at isOpen
          next => cases isOpen; exact ⟨used, rfl, rfl, rfl, rfl⟩
          next closed =>
              have absent : state.queues msqid.toNat = none := by simpa using closed
              simp only [MsgState.initMsgQueue, if_neg inside, absent, Option.isSome_none] at isOpen
              cases isOpen
              refine ⟨used, rfl, rfl, rfl, funext fun id => ?_⟩
              by_cases same : id = msqid.toNat
              · simp [MsgState.waiters, same, absent]
              · simp [MsgState.waiters, same]

/-- The section of a call finds no queue, or keeps the frame. -/
theorem runSection_frame {made : Nat → List Nat} {contents : Contents} {buffer : Nat → UInt8}
    (held : Matches state made contents)
    (asleep : ∀ id, ∀ waiter ∈ state.waiters id, (state.tasks waiter).waitingToReady = 0)
    (outside : state.calls pid = none) (done : state.runSection pid buffer call = some (next, outcome)) :
    (next = state ∧ outcome = fault) ∨ (state.allocs call.id ≠ -1 ∧ SectionFrame state next pid call) := by
  obtain ⟨closed, _⟩ | ⟨opened, queue, isOpen, _, found, openHeld⟩ := openQueue_cases held call.msqid
  · refine .inl ?_
    cases call with
    | push msqid size type flag =>
        simp only [MsgState.runSection, show state.openQueue msqid = none from closed] at done
        cases done
        exact ⟨rfl, rfl⟩
    | pop msqid size type flag =>
        simp only [MsgState.runSection, show state.openQueue msqid = none from closed] at done
        cases done
        exact ⟨rfl, rfl⟩
  · obtain ⟨used, allocs, calls, tasks, waiters⟩ := openQueue_frame isOpen
    have openAsleep : ∀ id, ∀ waiter ∈ opened.waiters id, (opened.tasks waiter).waitingToReady = 0 := by
      rw [waiters, tasks]
      exact asleep
    have openOutside : opened.calls pid = none := by rw [calls]; exact outside
    have openUsed : opened.allocs call.id ≠ -1 := by rw [allocs]; exact used
    have frame : SectionFrame opened next pid call := by
      cases call with
      | push msqid size type flag =>
          simp only [MsgState.runSection, show state.openQueue msqid = some opened from isOpen] at done
          exact pushOpen_frame openAsleep openHeld openOutside openUsed found done
      | pop msqid size type flag =>
          simp only [MsgState.runSection, show state.openQueue msqid = some opened from isOpen] at done
          exact popOpen_frame openAsleep openHeld openOutside openUsed found done
    refine .inr ⟨used, frame.allocs.trans allocs, fun other differ => ?_, ?_, frame.sleeps, fun other differ => ?_⟩
    · rw [frame.calls other differ, calls]
    · rw [← allocs]
      exact frame.own
    · rw [← tasks]
      exact frame.tasks other differ

namespace Steady

theorem leave (steady : Steady run) (pid : Nat) : Steady ⟨run.sys.setCall pid none, run.eras⟩ := by
  intro other found isCall
  have differ : other ≠ pid := by
    rintro rfl
    simp [MsgState.setCall] at isCall
  simp only [MsgState.setCall, Function.update_of_ne differ] at isCall
  exact steady other found isCall

theorem section_step {eras after : Eras} (steady : Steady ⟨state, eras⟩) (frame : SectionFrame state next pid call)
    (removed : after.removed = eras.removed) (began : ∀ other, other ≠ pid → after.began other = eras.began other)
    (joined : ∀ other, other ≠ pid → after.joined other = eras.joined other)
    (own : next.calls pid = some call → after.joined pid = after.began pid ∧ eras.removed call.id = after.began pid) :
    Steady ⟨next, after⟩ := by
  intro other found isCall
  simp only [removed, frame.allocs]
  by_cases same : other = pid
  · subst same
    rcases frame.own with outside | ⟨isOwn, used⟩
    · exact absurd (outside.symm.trans isCall) (by simp)
    · cases isOwn.symm.trans isCall
      exact ⟨(own isOwn).1, .inr (.inl ⟨(own isOwn).2, used⟩)⟩
  · rw [frame.calls other same] at isCall
    obtain ⟨here, status⟩ := steady other found isCall
    rw [began other same, joined other same]
    refine ⟨here, ?_⟩
    rcases frame.tasks other same with unchanged | ⟨waiting, _⟩
    · simpa only [unchanged] using status
    · -- a process that waited waits for the queue that there is
      rcases status with dropped | current | ⟨told, _⟩
      · exact absurd (waiting.symm.trans dropped) (by decide)
      · exact .inr (.inl current)
      · exact absurd (waiting.symm.trans told) (by decide)

theorem alloc (steady : Steady run) (key : Int)
    (noStale : ∀ id, Chosen run.sys key id → ∀ pid call, run.sys.calls pid = some call → call.id = id →
      (run.sys.tasks pid).waitingToReady ≠ 1) : Steady ⟨(run.sys.allocMsgQueue key).1, run.eras⟩ := by
  obtain same | ⟨id, chosen, result⟩ := allocMsgQueue_chosen run.sys key
  · rw [same]
    exact steady
  · rw [result]
    intro pid call isCall
    obtain ⟨here, status⟩ := steady pid call isCall
    refine ⟨here, ?_⟩
    by_cases isId : call.id = id
    · rcases status with dropped | ⟨_, used⟩ | ⟨told, _⟩
      · exact .inl dropped
      · exact absurd (isId ▸ chosen.2.2.1) used
      · exact absurd told (noStale id chosen pid call isCall isId)
    · simpa only [Function.update_of_ne isId] using status

theorem free {nodes : SHeap MsgData} {id : Nat} {after : Eras} (steady : Steady run) (settled : Settled run.sys)
    (waits : ∀ pid call, run.sys.calls pid = some call → call.id = id → (run.sys.tasks pid).waitingToReady = 0 →
      pid ∈ run.sys.waiters id)
    (removed : after.removed = Function.update run.eras.removed id (run.eras.removed id + 1))
    (began : after.began = run.eras.began) (joined : after.joined = run.eras.joined) :
    Steady ⟨run.sys.released id nodes, after⟩ := by
  intro pid call isCall
  obtain ⟨here, status⟩ := steady pid call isCall
  simp only [removed, began, joined]
  refine ⟨here, ?_⟩
  simp only [MsgState.released, MsgState.dropQueue, MsgState.closeId]
  by_cases member : pid ∈ run.sys.waiters id
  · exact .inl (by simp [member, Task.wake])
  · simp only [if_neg member]
    by_cases isId : call.id = id
    · obtain ⟨_, ⟨_, asleep⟩ | ⟨_, told | dropped⟩⟩ := settled pid call isCall
      · exact absurd (waits pid call isCall isId asleep) member
      · exact .inr (.inr ⟨told, by simp [isId]⟩)
      · exact .inl dropped
    · simpa only [Function.update_of_ne isId] using status

end Steady

/-- What is known of the queues when a process takes a step. -/
theorem Attended.waiters_iff (attended : Attended run) :
    (∀ id, ∀ waiter ∈ run.sys.waiters id, (run.sys.tasks waiter).waitingToReady = 0) ∧
      ∀ id pid call, run.sys.calls pid = some call → call.id = id → (run.sys.tasks pid).waitingToReady = 0 →
        pid ∈ run.sys.waiters id := by
  obtain ⟨made, contents, _, sound, _⟩ := attended
  refine ⟨fun id waiter member => ?_, fun id pid call isCall isId asleep => ?_⟩
  · obtain ⟨place, _, status⟩ := (mem_waiters sound id waiter).mp member
    have status : run.status waiter = .waiting place := status
    simp only [EraRun.status] at status
    split at status
    next => cases status
    next =>
        split at status
        next asleep => exact asleep
        next =>
            split at status
            next => cases status
            next => cases status
  · exact (mem_waiters sound id pid).mpr ⟨run.place pid call, isId, by simp [EraRun.status, isCall, asleep]⟩

/-- A woken call fails and touches nothing, or its section runs on the queue for
which it began to wait. -/
theorem Steady.resume (steady : Steady run) (attended : Attended run) (isCall : run.sys.calls pid = some call)
    {buffer : Nat → UInt8} (done : run.sys.perform (.resume pid buffer) = some (next, outcome)) :
    (outcome = fault ∧ next = run.sys.setCall pid none) ∨
      (run.eras.removed call.id = run.eras.began pid ∧ run.eras.joined pid = run.eras.began pid ∧
        SectionFrame (run.sys.setCall pid none) next pid call) := by
  have awake : (run.sys.tasks pid).waitingToReady ≠ 0 := (perform_enabled done).2
  obtain ⟨asleep, _⟩ := attended.waiters_iff
  obtain ⟨made, contents, held, _, _⟩ := attended
  obtain ⟨here, status⟩ := steady pid call isCall
  simp only [MsgState.perform, isCall, Option.bind_eq_bind, Option.bind_some, if_neg awake] at done
  split at done
  next dropped =>
      cases done
      exact .inl ⟨rfl, rfl⟩
  next kept =>
      have heldCall := held.same ((SameLists.refl run.sys).setCall pid none)
      obtain ⟨rfl, rfl⟩ | ⟨used, frame⟩ :=
        runSection_frame heldCall asleep (Function.update_self ..) done
      · exact .inl ⟨rfl, rfl⟩
      · rcases status with dropped | ⟨current, _⟩ | ⟨_, unused⟩
        · exact absurd dropped kept
        · exact .inr ⟨current, here, frame⟩
        · exact absurd unused used

/-- A step that is not an allocation of an id that woken calls still know. -/
theorem Steady.step {after : EraRun} {action : MsgAction} (steady : Steady run) (attended : Attended run)
    (noStale : NoStale run action) (moved : eraSystem.step run action = some after) : Steady after := by
  obtain ⟨⟨next, outcome⟩, done, rfl⟩ := Option.map_eq_some_iff.mp moved
  have enabled := perform_enabled done
  obtain ⟨asleep, waits⟩ := attended.waiters_iff
  obtain ⟨made, contents, held, _, settled⟩ := attended
  cases action with
  | alloc pid key =>
      simp only [MsgState.perform, show run.sys.calls pid = none from enabled, Option.isNone_none, if_true,
        Option.some.injEq] at done
      have isNext : (run.sys.allocMsgQueue key).1 = next := congrArg Prod.fst done
      subst isNext
      exact steady.alloc key noStale
  | free pid msqid =>
      simp only [MsgState.perform, show run.sys.calls pid = none from enabled, Option.isNone_none, if_true] at done
      obtain ⟨_, result⟩ | ⟨_, nodes, result, _⟩ := freeMsgQueue_cases held msqid
      · cases result.symm.trans done
        exact steady
      · cases result.symm.trans done
        refine steady.free settled (waits msqid.toNat) ?_ ?_ ?_
        · simp [Eras.record]
        · simp [Eras.record]
        · simp [Eras.record]
  | call pid call buffer =>
      have outside : run.sys.calls pid = none := enabled
      simp only [MsgState.perform, outside, Option.isNone_none, if_true] at done
      obtain ⟨rfl, rfl⟩ | ⟨used, frame⟩ := runSection_frame held asleep outside done
      · intro other found isCall
        have isCall : run.sys.calls other = some found := isCall
        have differ : other ≠ pid := by
          rintro rfl
          simp [outside] at isCall
        simpa only [Eras.record, Function.update_of_ne differ] using steady other found isCall
      · refine steady.section_step frame rfl (fun other differ => Function.update_of_ne differ _ _)
          (fun other differ => Function.update_of_ne differ _ _) fun _ => ?_
        simp [Eras.record]
  | resume pid buffer =>
      obtain ⟨call, isCall⟩ := Option.ne_none_iff_exists'.mp enabled.1
      have left : Steady ⟨run.sys.setCall pid none, run.eras⟩ := steady.leave pid
      obtain ⟨_, rfl⟩ | ⟨current, _, frame⟩ :=
        steady.resume ⟨made, contents, held, ‹_›, settled⟩ isCall done
      · intro other found isOther
        have differ : other ≠ pid := by
          rintro rfl
          simp [MsgState.setCall] at isOther
        simpa only [Eras.record, isCall, Function.update_of_ne differ] using left other found isOther
      · have record : run.eras.record run.sys outcome (.resume pid buffer) =
            { run.eras with joined := Function.update run.eras.joined pid (run.eras.removed call.id) } := by
          simp [Eras.record, isCall]
        rw [record]
        refine left.section_step frame rfl (fun _ _ => rfl)
          (fun other differ => Function.update_of_ne differ _ _) fun _ => ?_
        simp [current]

theorem MsgState.Fresh.steady (fresh : run.sys.Fresh) : Steady run := by
  intro pid call isCall
  simp [fresh.calls pid] at isCall

theorem reachable_steady (reached : eraSystem.ReachableWhen NoStale run) : Steady run := by
  have start : ∀ run, eraSystem.initial run → Steady run ∧ Attended run :=
    fun _ fresh => ⟨MsgState.Fresh.steady fresh, MsgState.Fresh.attended fresh⟩
  refine (reached.invariant start fun _ _ _ held noStale moved => ?_).1
  exact ⟨held.1.step held.2 noStale moved, held.2.step moved⟩

/-- A call that waited runs again on the queue for which it waited, or fails and
touches nothing. -/
def StaysWithQueue (run : EraRun) (pid : Nat) (call : Call) (next : MsgState) (outcome : Outcome) : Prop :=
  (outcome = fault ∧ next = run.sys.setCall pid none) ∨
    (run.eras.removed call.id = run.eras.began pid ∧ run.eras.removed call.id = run.eras.joined pid)

/-- Calls stay with their queues in every run in which no id is allocated again while
a woken call for an earlier queue is still to run. -/
theorem blocked_calls_stay (reached : eraSystem.ReachableWhen NoStale run)
    (isCall : run.sys.calls pid = some call) {buffer : Nat → UInt8}
    (done : run.sys.perform (.resume pid buffer) = some (next, outcome)) :
    StaysWithQueue run pid call next outcome := by
  obtain failed | ⟨current, here, _⟩ :=
    (reachable_steady reached).resume (reachable_attended reached) isCall done
  · exact .inl failed
  · exact .inr ⟨current, current.trans here.symm⟩

/-- Process 1 waits on the queue with key 77, is woken, and runs again on it. -/
theorem blocked_calls_stay_boot :
    ∃ run next, eraSystem.run bootEra (bootMsgActions.take 4) = some run ∧
      run.sys.perform (.resume 1 fun _ => 0) = some (next, .returned 2 [0, 1]) ∧
      StaysWithQueue run 1 (.pop 9 2 5 1) next (.returned 2 [0, 1]) := by
  obtain ⟨run, next, ran, isCall, done⟩ : ∃ run next,
      eraSystem.run bootEra (bootMsgActions.take 4) = some run ∧
        run.sys.calls 1 = some (.pop 9 2 5 1) ∧
        run.sys.perform (.resume 1 fun _ => 0) = some (next, .returned 2 [0, 1]) :=
    ⟨_, _, rfl, rfl, rfl⟩
  have start : eraSystem.ReachableWhen NoStale bootEra :=
    .initial ⟨fun _ => rfl, fun _ => rfl, fun _ => rfl, fun _ => rfl⟩
  have meets : eraSystem.Meets NoStale bootEra (bootMsgActions.take 4) :=
    ⟨fun _ _ _ _ isCall => (Option.some_ne_none _ isCall.symm).elim, trivial, trivial, trivial, trivial⟩
  exact ⟨run, next, ran, done, blocked_calls_stay (start.of_run ran meets) isCall done⟩

/-- Process 1 waits on the queue with key 77 and is woken. Before it runs, the queue
is removed, the id is allocated for key 78, and a message is sent there. -/
def reusedIdActions : List MsgAction :=
  [.alloc 0 77, .call 1 (.pop 9 2 5 1) (fun _ => 0), .call 0 (.push 9 3 5 1) (fun _ => 8), .free 0 9,
    .alloc 0 78, .call 0 (.push 9 3 5 1) fun _ => 7]

/-- Process 1 takes the message that was sent to the queue with key 78. -/
theorem blocked_call_moves :
    ∃ run next, eraSystem.Reachable run ∧ run.sys.calls 1 = some (.pop 9 2 5 1) ∧ run.sys.keys 9 = 78 ∧
      run.sys.perform (.resume 1 fun _ => 0) = some (next, .returned 2 [7, 7]) ∧
      ¬StaysWithQueue run 1 (.pop 9 2 5 1) next (.returned 2 [7, 7]) := by
  obtain ⟨run, next, ran, isCall, isKey, done, began, removed⟩ : ∃ run next,
      eraSystem.run bootEra reusedIdActions = some run ∧ run.sys.calls 1 = some (.pop 9 2 5 1) ∧
        run.sys.keys 9 = 78 ∧ run.sys.perform (.resume 1 fun _ => 0) = some (next, .returned 2 [7, 7]) ∧
        run.eras.began 1 = 0 ∧ run.eras.removed 9 = 1 :=
    ⟨_, _, rfl, rfl, rfl, rfl, rfl, rfl⟩
  refine ⟨run, next, bootEra_initial.of_run ran, isCall, isKey, done, ?_⟩
  rintro (⟨failed, _⟩ | ⟨current, _⟩)
  · exact absurd failed (by decide)
  · have current : run.eras.removed 9 = run.eras.began 1 := current
    omega

end AempOS.Ipc
