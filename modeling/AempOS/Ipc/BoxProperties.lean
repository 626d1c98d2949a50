import AempOS.Ipc.BoxSimulation
import AempOS.Task.TreeProperties

/-! Runs of the mailboxes. A run takes the message queues, one for each mailbox,
through the same steps with the same results, and the messages of one sender to one
mailbox keep their order. -/

set_option autoImplicit false

namespace AempOS.Ipc

open Lib

variable {infos : Infos} {made : Nat → List Nat} {contents : Contents}

/-! ## The history of a mailbox -/

/-- A call on mailboxes that succeeded enters the log. -/
def MsgLog.box (infos : Infos) (log : MsgLog) (proc : Nat) (buffer : Nat → UInt8) : BoxCall → Outcome → MsgLog
  | .push pid size _, .returned value _ =>
      if value = 0 then
        let id := infos.mailbox pid.toNat
        { log with
          sent := Function.update log.sent id
            (log.sent id ++ [⟨proc, firstBytes buffer (min size boxmax)⟩]) }
      else log
  | .pop pid size _, .returned value bytes =>
      if value = 0 then
        let id := infos.mailbox proc
        { log with received := Function.update log.received id (log.received id ++ [⟨pid, size, bytes⟩]) }
      else log
  | _, .blocked => log

/-- The mailboxes with their history. -/
structure BoxRun where
  sys : BoxState
  log : MsgLog

def BoxRun.record (infos : Infos) (run : BoxRun) (next : BoxState) (outcome : Outcome) (action : BoxAction) : MsgLog :=
  let log := match action, run.sys.running action with
    | .call proc _ buffer, some call => run.log.box infos proc buffer call outcome
    | .resume proc buffer, some call => run.log.box infos proc buffer call outcome
    | _, _ => run.log
  { log with made := recordMade (run.sys.toMsg infos) (next.toMsg infos) run.log.made }

/-- The mailboxes from `init_box` on. The threads and processes stay as they are. -/
def boxSystem (infos : Infos) : Machine BoxRun BoxAction where
  initial run := run.sys.Fresh ∧ (∀ id, run.log.sent id = []) ∧ ∀ id, run.log.received id = []
  step run action := (run.sys.perform infos action).map fun result =>
    ⟨result.1, run.record infos result.1 result.2 action⟩

/-- As many message queues as there are PCBs. -/
def queueSystem : Machine MsgState QueueAction where
  initial state := ∀ id, state.queues id = none
  step state action := (state.performIn nrPcbs action).map Prod.fst

/-! ## Sections -/

section

variable {state : MsgState} {log : MsgLog} {msqid : Int} {queue : MsgQueue}

theorem pushOpen_ordered (held : Matches state made contents) (ordered : Ordered log contents)
    (found : state.queues msqid.toNat = some queue) (pid size : Nat) (type flag : Int) (buffer : Nat → UInt8) :
    ∃ next outcome after, state.pushOpen pid msqid size type flag buffer = some (next, outcome) ∧
      Matches next made after ∧ Ordered (log.call buffer (.push msqid size type flag) outcome) after ∧
      Stays state next := by
  obtain ⟨content, _, _, done⟩ | ⟨content, stored, nodes, stands, _, _, _, done, storedHeld, stays⟩ :=
    pushOpen_cases held found pid size type flag buffer
  · by_cases nowait : flag = ipcNowait
    · refine ⟨state, fault, contents, by rw [done, if_pos nowait], held, ?_, rfl, fun _ => rfl⟩
      rw [MsgLog.call_fault]
      exact ordered
    · have same : SameLists state (state.wait pid (.push msqid size type flag) msqid.toNat
          { queue with wIdle := queue.wIdle ++ [pid] }) := wait_same _ _ found rfl rfl
      exact ⟨_, .blocked, contents, by rw [done, if_neg nowait], held.same same, ordered, same.stays⟩
  · have same := wakeUpUseProcess_same type (storeQueue_found state msqid.toNat stored nodes)
    exact ⟨_, _, _, done, storedHeld.same same, ordered.sent stands buffer size type flag, stays.trans same.stays⟩

theorem popOpen_ordered (held : Matches state made contents) (ordered : Ordered log contents)
    (found : state.queues msqid.toNat = some queue) (pid size : Nat) (type flag : Int) (buffer : Nat → UInt8) :
    ∃ next outcome after, state.popOpen pid msqid size type flag = some (next, outcome) ∧
      Matches next made after ∧ Ordered (log.call buffer (.pop msqid size type flag) outcome) after ∧
      Stays state next := by
  obtain ⟨content, _, _, done⟩ |
      ⟨left, message, right, stored, nodes, stands, rfl, first, _, _, done, storedHeld, stays⟩ :=
    popOpen_cases held found pid size type flag
  · by_cases nowait : flag = ipcNowait
    · refine ⟨state, fault, contents, by rw [done, if_pos nowait], held, ?_, rfl, fun _ => rfl⟩
      rw [MsgLog.call_fault]
      exact ordered
    · have same : SameLists state (state.wait pid (.pop msqid size type flag) msqid.toNat
          { queue with wUse := queue.wUse ++ [⟨type, pid⟩] }) := wait_same _ _ found rfl rfl
      exact ⟨_, .blocked, contents, by rw [done, if_neg nowait], held.same same, ordered, same.stays⟩
  · have same := wakeUpIdleProcess_same (storeQueue_found state msqid.toNat stored nodes)
    exact ⟨_, _, _, done, storedHeld.same same, ordered.received stands first buffer size flag, stays.trans same.stays⟩

end

/-- The section of a call on the queues of mailboxes. -/
theorem runSectionIn_ordered {state : BoxState} {log : MsgLog} (held : Matches (state.toMsg infos) made contents)
    (ordered : Ordered log contents) (pid : Nat) (buffer : Nat → UInt8) (call : Call) :
    ∃ next outcome after, (state.toMsg infos).runSectionIn nrPcbs pid buffer call = some (next, outcome) ∧
      Matches next (recordMade (state.toMsg infos) next made) after ∧
      Ordered (log.call buffer call outcome) after := by
  have refused : Matches (state.toMsg infos) (recordMade (state.toMsg infos) (state.toMsg infos) made) contents ∧
      Ordered (log.call buffer call fault) contents := by
    rw [MsgLog.call_fault]
    exact ⟨held.record fun _ isOpen => isOpen, ordered⟩
  cases call with
  | push msqid size type flag =>
      simp only [MsgState.runSectionIn, openQueueIn_toMsg]
      by_cases closed : OutOfRange msqid ∨ state.boxes msqid.toNat = none
      · rw [if_pos closed]
        exact ⟨_, fault, contents, rfl, refused⟩
      · rw [if_neg closed]
        obtain ⟨bp, found⟩ := Option.ne_none_iff_exists'.mp (not_or.mp closed).2
        have queue : (state.toMsg infos).queues msqid.toNat = some bp.toMsg := by simp [BoxState.toMsg, found]
        obtain ⟨next, outcome, after, done, nextHeld, nextOrdered, stays⟩ :=
          pushOpen_ordered held ordered queue pid size type flag buffer
        refine ⟨next, outcome, after, done, nextHeld.record fun id isOpen => ?_, nextOrdered⟩
        rwa [stays.queues id] at isOpen
  | pop msqid size type flag =>
      simp only [MsgState.runSectionIn, openQueueIn_toMsg]
      by_cases closed : OutOfRange msqid ∨ state.boxes msqid.toNat = none
      · rw [if_pos closed]
        exact ⟨_, fault, contents, rfl, refused⟩
      · rw [if_neg closed]
        obtain ⟨bp, found⟩ := Option.ne_none_iff_exists'.mp (not_or.mp closed).2
        have queue : (state.toMsg infos).queues msqid.toNat = some bp.toMsg := by simp [BoxState.toMsg, found]
        obtain ⟨next, outcome, after, done, nextHeld, nextOrdered, stays⟩ :=
          popOpen_ordered held ordered queue pid size type flag buffer
        refine ⟨next, outcome, after, done, nextHeld.record fun id isOpen => ?_, nextOrdered⟩
        rwa [stays.queues id] at isOpen

theorem makeQueue_ordered {state : BoxState} {log : MsgLog} (held : Matches (state.toMsg infos) made contents)
    (ordered : Ordered log contents) (id : Int) :
    ∃ after, Matches ((state.toMsg infos).makeQueue nrPcbs id).1
        (recordMade (state.toMsg infos) ((state.toMsg infos).makeQueue nrPcbs id).1 made) after ∧
      Ordered log after := by
  have kept : Matches (state.toMsg infos) (recordMade (state.toMsg infos) (state.toMsg infos) made) contents :=
    held.record fun _ isOpen => isOpen
  unfold MsgState.makeQueue
  by_cases outside : id < 0 ∨ id ≥ nrPcbs
  · rw [if_pos outside]
    exact ⟨contents, kept, ordered⟩
  · rw [if_neg outside]
    by_cases taken : (state.toMsg infos).allocs id.toNat ≠ -1
    · rw [if_pos taken]
      exact ⟨contents, kept, ordered⟩
    · rw [if_neg taken]
      have unused : (state.toMsg infos).allocs id.toNat = -1 := not_not.mp taken
      have none : (state.toMsg infos).queues id.toNat = none := by
        have absent := (held.unused id.toNat unused).2
        simpa [MsgState.heads] using absent
      have allocated := held.allocate unused (state.toMsg infos).keys
      have used : Function.update (state.toMsg infos).allocs id.toNat 1 id.toNat ≠ -1 := by
        rw [Function.update_self]
        decide
      have made := allocated.initialised used none
      refine ⟨_, ?_, ordered.created (held.unused id.toNat unused).1 rfl rfl⟩
      unfold MsgState.initMsgQueueIn
      rw [if_neg outside]
      simp only [none, Option.isSome_none, Bool.false_eq_true, if_false]
      rw [recordMade_opened none rfl rfl]
      exact made

/-! ## Outcomes -/

variable {state next : BoxState} {proc size : Nat} {pid flag : Int} {buffer : Nat → UInt8} {outcome : Outcome}

/-- How a section ends, and which calls wait after it. -/
structure Ended (state : BoxState) (proc : Nat) (next : BoxState) : Prop where
  calls : ∀ other, next.calls other ≠ none → other = proc ∨ state.calls other ≠ none

theorem Ended.same (same : next.calls = state.calls) : Ended state proc next :=
  ⟨fun other waits => .inr (by rwa [same] at waits)⟩

theorem wait_ended (state : BoxState) (proc : Nat) (call : BoxCall) (id : Nat) (box : Box) :
    Ended state proc (state.wait proc call id box) := by
  refine ⟨fun other waits => ?_⟩
  by_cases same : other = proc
  · exact .inl same
  · have kept : (state.wait proc call id box).calls other = state.calls other := Function.update_of_ne same _ _
    exact .inr (by rwa [kept] at waits)

theorem wakeUpUseProcess_calls (state : BoxState) (id : Nat) (box : Box) (pid : Int) :
    (state.wakeUpUseProcess id box pid).calls = state.calls := by
  unfold BoxState.wakeUpUseProcess
  split <;> rfl

theorem wakeUpIdleProcess_calls (state : BoxState) (id : Nat) (box : Box) :
    (state.wakeUpIdleProcess id box).calls = state.calls := by
  unfold BoxState.wakeUpIdleProcess
  split <;> rfl

theorem boxPushNode_ends (done : state.boxPushNode infos proc pid size flag buffer = some (next, outcome)) :
    Ended state proc next ∧ (outcome = fault ∨ outcome = .blocked ∨ ¬OutOfRange pid ∧ outcome = .returned 0 []) := by
  unfold BoxState.boxPushNode at done
  split at done
  next =>
      cases done
      exact ⟨.same rfl, .inl rfl⟩
  next inside =>
      simp only at done
      split at done
      next =>
          cases done
          exact ⟨.same rfl, .inl rfl⟩
      next =>
          split at done
          next =>
              split at done
              next =>
                  cases done
                  exact ⟨.same rfl, .inl rfl⟩
              next =>
                  cases done
                  exact ⟨wait_ended .., .inr (.inl rfl)⟩
          next =>
              obtain ⟨use, _, stored⟩ := Option.bind_eq_some_iff.mp done
              cases stored
              exact ⟨.same (wakeUpUseProcess_calls ..), .inr (.inr ⟨inside, rfl⟩)⟩

theorem boxPopNode_ends (done : state.boxPopNode infos proc pid size flag = some (next, outcome)) :
    Ended state proc next ∧
      (outcome = fault ∨ outcome = .blocked ∨ ¬OutOfRange pid ∧ ∃ bytes, outcome = .returned 0 bytes) := by
  unfold BoxState.boxPopNode at done
  split at done
  next =>
      cases done
      exact ⟨.same rfl, .inl rfl⟩
  next inside =>
      simp only at done
      split at done
      next =>
          cases done
          exact ⟨.same rfl, .inl rfl⟩
      next =>
          obtain ⟨search, _, stored⟩ := Option.bind_eq_some_iff.mp done
          split at stored
          next =>
              split at stored
              next =>
                  cases stored
                  exact ⟨.same rfl, .inl rfl⟩
              next =>
                  cases stored
                  exact ⟨wait_ended .., .inr (.inl rfl)⟩
          next =>
              cases stored
              exact ⟨.same (wakeUpIdleProcess_calls ..), .inr (.inr ⟨inside, _, rfl⟩)⟩

theorem allocBox_calls (infos : Infos) (state : BoxState) (pid : Int) :
    (state.allocBox infos pid).1.calls = state.calls := by
  unfold BoxState.allocBox
  split
  next => rfl
  next =>
      simp only
      split <;> rfl

theorem runSection_ends {call : BoxCall} (done : state.runSection infos proc buffer call = some (next, outcome)) :
    Ended state proc next := by
  cases call with
  | push pid size flag => exact (boxPushNode_ends done).1
  | pop pid size flag => exact (boxPopNode_ends done).1

theorem log_push (log : MsgLog) (msqid : Int)
    (ended : outcome = fault ∨ outcome = .blocked ∨ ¬OutOfRange pid ∧ outcome = .returned 0 [])
    (isBox : ¬OutOfRange pid → msqid.toNat = infos.mailbox pid.toNat) :
    log.box infos proc buffer (.push pid size flag) outcome = log.call buffer (.push msqid size proc flag) outcome := by
  rcases ended with rfl | rfl | ⟨inside, rfl⟩
  · rfl
  · rfl
  · simp only [MsgLog.box, MsgLog.call, isBox inside]
    rfl

theorem log_pop (log : MsgLog)
    (ended : outcome = fault ∨ outcome = .blocked ∨ ¬OutOfRange pid ∧ ∃ bytes, outcome = .returned 0 bytes) :
    log.box infos proc buffer (.pop pid size flag) outcome =
      log.call buffer (.pop (infos.queueId pid proc) size pid flag) ((BoxCall.pop pid size flag).outcome outcome) := by
  rcases ended with rfl | rfl | ⟨inside, bytes, rfl⟩
  · rfl
  · rfl
  · have id : (infos.queueId pid proc).toNat = infos.mailbox proc := by
      unfold Infos.queueId
      rw [if_neg inside, Int.toNat_natCast]
    simp only [MsgLog.box, MsgLog.call, BoxCall.outcome, if_true, Int.natCast_nonneg, id]

theorem log_section {call : BoxCall} (log : MsgLog)
    (done : state.runSection infos proc buffer call = some (next, outcome)) :
    log.box infos proc buffer call outcome = log.call buffer (call.toMsg infos proc) (call.outcome outcome) := by
  cases call with
  | push pid size flag =>
      refine log_push log _ (boxPushNode_ends done).2 fun inside => ?_
      unfold Infos.queueId
      rw [if_neg inside, Int.toNat_natCast]
  | pop pid size flag => exact log_pop log (boxPopNode_ends done).2

theorem log_again {call : BoxCall} (log : MsgLog)
    (done : state.runSection infos proc buffer call = some (next, outcome))
    (same : ∀ pid size flag, call = .push pid size flag → infos.mailbox pid.toNat = pid.toNat) :
    log.box infos proc buffer call outcome = log.call buffer (call.waiting infos proc) (call.outcome outcome) := by
  cases call with
  | push pid size flag => exact log_push log pid (boxPushNode_ends done).2 fun _ => (same pid size flag rfl).symm
  | pop pid size flag => exact log_pop log (boxPopNode_ends done).2

/-! ## Runs -/

/-- The mailboxes stand for queues, and the calls that wait are those of PCBs. -/
structure Mailboxes (infos : Infos) (run : BoxRun) : Prop where
  small : ∀ proc, run.sys.calls proc ≠ none → proc < nrPcbs
  lists : ∃ contents, Matches (run.sys.toMsg infos) run.log.made contents ∧ Ordered run.log contents

namespace Mailboxes

variable {run : BoxRun}

theorem start (initial : (boxSystem infos).initial run) : Mailboxes infos run := by
  obtain ⟨fresh, sent, received⟩ := initial
  have empty : (run.sys.toMsg infos).Fresh := by
    refine ⟨fun id => ?_, fun _ => rfl, fun id => ?_, fun proc => ?_⟩
    · simp [BoxState.toMsg, fresh.boxes]
    · simp [BoxState.toMsg, fresh.boxes]
    · simp [BoxState.toMsg, fresh.calls]
  exact ⟨fun proc waits => absurd (fresh.calls proc) waits, _, empty.matches_empty,
    fun id => ⟨sent id, received id⟩⟩

/-- What the queues do gives what the mailboxes do. -/
theorem ran (held : Mailboxes infos run) (inTable : InTable infos) {action : BoxAction}
    (guarded : RetriesSame infos run.sys action) (done : run.sys.perform infos action = some (next, outcome)) :
    (run.sys.toMsg infos).performIn nrPcbs (action.toMsg infos) =
      some (run.sys.toResult infos action (next, outcome)) := by
  rw [perform_toMsg inTable held.small guarded, done]
  rfl

theorem call (held : Mailboxes infos run) (inTable : InTable infos) {call : BoxCall}
    (done : run.sys.perform infos (.call proc call buffer) = some (next, outcome)) :
    Mailboxes infos ⟨next, run.record infos next outcome (.call proc call buffer)⟩ := by
  have starts : RetriesSame infos run.sys (.call proc call buffer) := trivial
  have ranQueue := held.ran inTable starts done
  obtain ⟨small, contents, lists, ordered⟩ := held
  simp only [BoxState.perform] at done
  split at done
  next ready =>
      obtain ⟨stands, answer, after, isDone, nextHeld, nextOrdered⟩ :=
        runSectionIn_ordered lists ordered proc buffer (call.toMsg infos proc)
      have idle : ((run.sys.toMsg infos).calls proc).isNone := by simpa [BoxState.toMsg] using ready.2
      simp only [BoxAction.toMsg, MsgState.performIn, ready.1, idle, and_self, if_true] at ranQueue
      obtain ⟨rfl, rfl⟩ := Prod.mk.inj (Option.some.inj (isDone.symm.trans ranQueue))
      refine ⟨fun other waits => ?_, after, nextHeld, ?_⟩
      · rcases (runSection_ends done).calls other waits with rfl | before
        · exact ready.1
        · exact small other before
      · have logged : Ordered (run.log.box infos proc buffer call outcome) after := by
          rw [log_section run.log done]
          exact nextOrdered
        exact logged
  next => cases done

theorem resume (held : Mailboxes infos run) (inTable : InTable infos)
    (guarded : RetriesSame infos run.sys (.resume proc buffer))
    (done : run.sys.perform infos (.resume proc buffer) = some (next, outcome)) :
    Mailboxes infos ⟨next, run.record infos next outcome (.resume proc buffer)⟩ := by
  have ranQueue := held.ran inTable guarded done
  obtain ⟨small, contents, lists, ordered⟩ := held
  obtain ⟨call, waiting, done⟩ := Option.bind_eq_some_iff.mp done
  have isPcb : proc < nrPcbs := small proc (by rw [waiting]; exact Option.some_ne_none _)
  have waitingQueue : (run.sys.toMsg infos).calls proc = some (call.waiting infos proc) := by
    simp [BoxState.toMsg, waiting]
  have awake : ∀ other, (run.sys.setCall proc none).calls other ≠ none → run.sys.calls other ≠ none := by
    intro other waits
    by_cases same : other = proc
    · subst same
      simp [BoxState.setCall] at waits
    · simpa [BoxState.setCall, same] using waits
  have sameLists : SameLists (run.sys.toMsg infos) ((run.sys.setCall proc none).toMsg infos) := by
    rw [setCall_none]
    exact (SameLists.refl _).setCall proc none
  have held := lists.same sameLists
  have recorded : ∀ next outcome, run.record infos next outcome (.resume proc buffer) =
      { run.log.box infos proc buffer call outcome with
        made := recordMade (run.sys.toMsg infos) (next.toMsg infos) run.log.made } := fun next outcome => by
    simp only [BoxRun.record, BoxState.running, waiting]
  simp only at done
  split at done
  next => cases done
  next woken =>
      split at done
      next =>
          cases done
          refine ⟨fun other waits => small other (awake other waits), contents,
            held.record fun _ isOpen => isOpen, ?_⟩
          have logged : Ordered (run.log.box infos proc buffer call fault) contents := by
            cases call <;> exact ordered
          rw [recorded]
          exact logged
      next kept =>
          obtain ⟨stands, answer, after, isDone, nextHeld, nextOrdered⟩ :=
            runSectionIn_ordered held ordered proc buffer (call.waiting infos proc)
          have tasks : (run.sys.toMsg infos).tasks = run.sys.tasks := rfl
          have result : run.sys.toResult infos (.resume proc buffer) (next, outcome) =
              (next.toMsg infos, call.outcome outcome) := by
            simp only [BoxState.toResult, BoxState.running, waiting]
          simp only [BoxAction.toMsg, MsgState.performIn, waitingQueue, Option.bind_eq_bind, Option.bind_some, tasks,
            if_neg woken, if_neg kept, ← setCall_none, result] at ranQueue
          obtain ⟨rfl, rfl⟩ := Prod.mk.inj (Option.some.inj (isDone.symm.trans ranQueue))
          refine ⟨fun other waits => ?_, after, ?_, ?_⟩
          · rcases (runSection_ends done).calls other waits with rfl | before
            · exact isPcb
            · exact small other (awake other before)
          · rw [recorded]
            exact nextHeld
          · have logged : Ordered (run.log.box infos proc buffer call outcome) after := by
              rw [log_again run.log done fun pid size flag isPush => guarded pid size flag (isPush ▸ waiting)]
              exact nextOrdered
            rw [recorded]
            exact logged

theorem alloc (held : Mailboxes infos run) (inTable : InTable infos)
    (done : run.sys.perform infos (.alloc proc pid) = some (next, outcome)) :
    Mailboxes infos ⟨next, run.record infos next outcome (.alloc proc pid)⟩ := by
  obtain ⟨small, contents, lists, ordered⟩ := held
  simp only [BoxState.perform] at done
  split at done
  next =>
      have isNext : run.sys.allocBox infos pid = (next, outcome) := Option.some.inj done
      have made := alloc_toMsg inTable run.sys pid
      have calls := allocBox_calls infos run.sys pid
      rw [isNext] at made calls
      obtain ⟨after, nextHeld, nextOrdered⟩ := makeQueue_ordered lists ordered (infos.queueId pid pid.toNat)
      rw [made] at nextHeld
      refine ⟨fun other waits => small other ?_, after, nextHeld, nextOrdered⟩
      rw [← calls]
      exact waits
  next => cases done

theorem step (held : Mailboxes infos run) (inTable : InTable infos) {action : BoxAction}
    (guarded : RetriesSame infos run.sys action) (done : run.sys.perform infos action = some (next, outcome)) :
    Mailboxes infos ⟨next, run.record infos next outcome action⟩ := by
  cases action with
  | alloc proc pid => exact held.alloc inTable done
  | call proc call buffer => exact held.call inTable done
  | resume proc buffer => exact held.resume inTable guarded done

end Mailboxes

/-- The `task.info` of a process table. -/
def infosOf (tasks : Task.Tasks) : Infos := fun i => (tasks.table i).info

theorem inTable_of_reached {layout : Task.Layout} {tasks : Task.Tasks}
    (made : (Task.taskSystem layout).Reachable tasks) : InTable (infosOf tasks) := by
  have parented := Task.Parented.reached made
  intro i inside
  unfold Infos.mailbox
  cases type : (infosOf tasks i).type with
  | process => exact inside
  | thread =>
      obtain ⟨owner, named, created⟩ := parented.parent i inside type
      have named : (infosOf tasks i).ppid = owner := named
      simp only [named, Int.toNat_natCast]
      exact created.1

/-- A PCB can take the step: it is not in a call, or its call was woken. -/
def BoxEnabled (state : BoxState) : BoxAction → Prop
  | .alloc proc _ => state.calls proc = none
  | .call proc _ _ => proc < nrPcbs ∧ state.calls proc = none
  | .resume proc _ => state.calls proc ≠ none ∧ (state.tasks proc).waitingToReady ≠ 0

theorem Mailboxes.returns {run : BoxRun} (held : Mailboxes infos run) (inTable : InTable infos) {action : BoxAction}
    (guarded : RetriesSame infos run.sys action) (enabled : BoxEnabled run.sys action) :
    (run.sys.perform infos action).isSome := by
  have same := perform_toMsg inTable held.small guarded
  obtain ⟨_, contents, lists, ordered⟩ := held
  have queue : ((run.sys.toMsg infos).performIn nrPcbs (action.toMsg infos)).isSome → (run.sys.perform infos action).isSome := by
    rw [same, Option.isSome_map]
    exact id
  cases action with
  | alloc proc pid =>
      have ready : run.sys.calls proc = none := enabled
      simp [BoxState.perform, ready]
  | call proc call buffer =>
      refine queue ?_
      have idle : ((run.sys.toMsg infos).calls proc).isNone := by simp [BoxState.toMsg, enabled.2]
      obtain ⟨_, _, _, done, _⟩ := runSectionIn_ordered lists ordered proc buffer (call.toMsg infos proc)
      simp only [BoxAction.toMsg, MsgState.performIn, enabled.1, idle, and_self, if_true, done, Option.isSome_some]
  | resume proc buffer =>
      refine queue ?_
      obtain ⟨waits, awake⟩ := enabled
      obtain ⟨call, waiting⟩ := Option.ne_none_iff_exists'.mp waits
      have waitingQueue : (run.sys.toMsg infos).calls proc = some (call.waiting infos proc) := by
        simp [BoxState.toMsg, waiting]
      have sameLists : SameLists (run.sys.toMsg infos) ((run.sys.setCall proc none).toMsg infos) := by
        rw [setCall_none]
        exact (SameLists.refl _).setCall proc none
      obtain ⟨_, _, _, done, _⟩ :=
        runSectionIn_ordered (lists.same sameLists) ordered proc buffer (call.waiting infos proc)
      have tasks : (run.sys.toMsg infos).tasks = run.sys.tasks := rfl
      simp only [BoxAction.toMsg, MsgState.performIn, waitingQueue, Option.bind_eq_bind, Option.bind_some, tasks,
        if_neg awake, ← setCall_none, done]
      split <;> rfl

/-- In every run in which a push that waited runs again on the mailbox it waited for,
the mailboxes go through the states of message queues, one for each: every step that
can be taken ends, and has the result that the queues give it. -/
theorem mailbox_is_queue {layout : Task.Layout} {tasks : Task.Tasks} {run : BoxRun}
    (made : (Task.taskSystem layout).Reachable tasks)
    (reached : (boxSystem (infosOf tasks)).ReachableWhen
      (fun run action => RetriesSame (infosOf tasks) run.sys action) run) :
    queueSystem.Reachable (run.sys.toMsg (infosOf tasks)) ∧
      (∀ action, RetriesSame (infosOf tasks) run.sys action →
        (run.sys.toMsg (infosOf tasks)).performIn nrPcbs (action.toMsg (infosOf tasks)) =
            (run.sys.perform (infosOf tasks) action).map (run.sys.toResult (infosOf tasks) action) ∧
          (BoxEnabled run.sys action → (run.sys.perform (infosOf tasks) action).isSome)) ∧
      ∃ contents, Matches (run.sys.toMsg (infosOf tasks)) run.log.made contents ∧ Ordered run.log contents ∧
        ∀ id content, contents id = some content → content.length ≤ boxmnb := by
  have inTable := inTable_of_reached made
  have start : ∀ run, (boxSystem (infosOf tasks)).initial run →
      Mailboxes (infosOf tasks) run ∧ queueSystem.Reachable (run.sys.toMsg (infosOf tasks)) := by
    intro run initial
    refine ⟨.start initial, .initial fun id => ?_⟩
    simp [BoxState.toMsg, initial.1.boxes]
  obtain ⟨held, queues⟩ := reached.invariant start fun run action next before guarded moved => by
    obtain ⟨⟨after, outcome⟩, done, rfl⟩ := Option.map_eq_some_iff.mp moved
    have ran := before.1.ran inTable guarded done
    have moved : queueSystem.step (run.sys.toMsg (infosOf tasks)) (action.toMsg (infosOf tasks)) =
        some (after.toMsg (infosOf tasks)) := Option.map_eq_some_iff.mpr ⟨_, ran, rfl⟩
    exact ⟨before.1.step inTable guarded done, before.2.next moved⟩
  refine ⟨queues, fun action guarded => ⟨perform_toMsg inTable held.small guarded, held.returns inTable guarded⟩, ?_⟩
  obtain ⟨contents, lists, ordered⟩ := held.lists
  exact ⟨contents, lists, ordered, fun id content stands => lists.bounded stands⟩

/-! ## Threads -/

/-- The process table after the actions. -/
def tasksAfter (actions : List Task.TaskCall) : Task.Tasks :=
  ((Task.taskSystem Task.lowLayout).run Task.bootTasks actions).getD Task.bootTasks

theorem tasksAfter_run {actions : List Task.TaskCall}
    (runs : ((Task.taskSystem Task.lowLayout).run Task.bootTasks actions).isSome) :
    (Task.taskSystem Task.lowLayout).run Task.bootTasks actions = some (tasksAfter actions) := by
  obtain ⟨tasks, ran⟩ := Option.isSome_iff_exists.mp runs
  simp [tasksAfter, ran]

/-- The mailboxes as they are started, with cleared memory. -/
def bootBoxes : BoxRun where
  sys := {
    nodes := fun _ => ⟨⟨0, 0, fun _ => 0⟩, none⟩
    fresh := 0
    boxes := fun _ => none
    tasks := fun _ => ⟨.ready, 0, 0, 0⟩
    calls := fun _ => none }
  log := { sent := fun _ => [], received := fun _ => [], made := fun _ => [] }

theorem bootBoxes_initial (infos : Infos) : (boxSystem infos).initial bootBoxes :=
  ⟨⟨fun _ => rfl, fun _ => rfl⟩, fun _ => rfl, fun _ => rfl⟩

/-- A thread waits in the mailbox of its process, and is woken by a message to it. -/
def threadActions : List BoxAction :=
  [.alloc 0 16, .call 16 (.pop 1 2 1) (fun _ => 0), .call 1 (.push 16 3 1) (fun i => UInt8.ofNat i),
    .resume 16 (fun _ => 0)]

theorem mailbox_is_queue_thread :
    ∃ run, (boxSystem (infosOf (tasksAfter [.pthread 0 7]))).run bootBoxes threadActions = some run ∧
      (run.log.received 0).map Receipt.bytes = [[0, 1]] ∧
      queueSystem.Reachable (run.sys.toMsg (infosOf (tasksAfter [.pthread 0 7]))) := by
  have start : (Task.taskSystem Task.lowLayout).Reachable Task.bootTasks := .initial Task.bootTasks_booted
  have created : (Task.taskSystem Task.lowLayout).run Task.bootTasks [.pthread 0 7] = some _ := tasksAfter_run rfl
  have threads := start.of_run created
  have ran : (boxSystem (infosOf (tasksAfter [.pthread 0 7]))).run bootBoxes threadActions = some _ := rfl
  have pops : ∀ pid size flag, some (BoxCall.pop 1 2 1) ≠ some (.push pid size flag) := fun _ _ _ same => by cases same
  have meets : (boxSystem (infosOf (tasksAfter [.pthread 0 7]))).Meets
      (fun run action => RetriesSame (infosOf (tasksAfter [.pthread 0 7])) run.sys action) bootBoxes threadActions :=
    ⟨trivial, trivial, trivial, fun pid size flag waits => (pops pid size flag waits).elim, trivial⟩
  have booted := bootBoxes_initial (infosOf (tasksAfter [.pthread 0 7]))
  exact ⟨_, ran, rfl, (mailbox_is_queue threads (.of_run (.initial booted) ran meets)).1⟩

/-- A thread that was forked by a thread gets ten messages and one more, which waits. -/
theorem mailbox_changes :
    ∃ tasks actions run, (Task.taskSystem Task.lowLayout).Reachable tasks ∧
      (boxSystem (infosOf tasks)).run bootBoxes actions = some run ∧
      (run.sys.perform (infosOf tasks) (.resume 1 fun _ => 0)).map Prod.snd = some fault ∧
      ((run.sys.toMsg (infosOf tasks)).performIn nrPcbs (.resume 1 fun _ => 0)).map Prod.snd =
        some (.returned 0 []) := by
  have start : (Task.taskSystem Task.lowLayout).Reachable Task.bootTasks := .initial Task.bootTasks_booted
  have created : (Task.taskSystem Task.lowLayout).run Task.bootTasks [.pthread 0 7, .fork 16 0x400000] = some _ :=
    tasksAfter_run rfl
  have threads := start.of_run created
  have ran : (boxSystem (infosOf (tasksAfter [.pthread 0 7, .fork 16 0x400000]))).run bootBoxes
      (.alloc 17 17 :: List.replicate 10 (.call 0 (.push 17 0 1) fun _ => 0) ++
        [.call 1 (.push 17 0 1) fun _ => 0, .call 17 (.pop 0 0 1) fun _ => 0]) = some _ := rfl
  exact ⟨_, _, _, threads, ran, rfl, rfl⟩

end AempOS.Ipc
