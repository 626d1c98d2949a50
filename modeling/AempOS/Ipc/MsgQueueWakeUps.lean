import AempOS.Ipc.MsgQueueWaits

/-! No wake-up of the message queues is lost: those who wait for something that is
there are at most as many as those who were woken for it and have not run yet. -/

set_option autoImplicit false

namespace AempOS.Ipc

open Lib

/-- The two wait queues of an id: `mq_w_use_prior` if `use`, else
`mq_w_idle_prior`. -/
def MsgState.waitQueue (state : MsgState) (id : Nat) (use : Bool) : List Nat :=
  match state.queues id with
  | none => []
  | some queue => if use then queue.wUse.map WaitNode.data else queue.wIdle

namespace EraRun

/-- The processes whose calls were woken from the queue that has the id now, and
have not run again. -/
def wokenFor (run : EraRun) (id : Nat) (want : Want) : Set Nat :=
  {pid | ∃ call, run.sys.calls pid = some call ∧ call.id = id ∧ call.want = want ∧
    run.eras.joined pid = run.eras.removed id ∧ (run.sys.tasks pid).waitingToReady = 1}

/-- What is there for those who wait in a queue: the idle nodes for the senders and,
for the receivers of a type, the messages of the type. -/
structure Served (run : EraRun) (id : Nat) (queue : MsgQueue) (idle use : List Nat) : Prop where
  idleChain : Chain run.sys.nodes queue.idle idle
  useChain : Chain run.sys.nodes queue.use use
  senders : queue.wIdle ≠ [] → (idle.length : ℕ∞) ≤ (run.wokenFor id .node).encard
  receivers : ∀ node ∈ queue.wUse,
    ((use.countP fun message => (run.sys.nodes message).value.type = node.type : Nat) : ℕ∞) ≤
      (run.wokenFor id (.message node.type)).encard

/-- The processes that wait sleep, and wait once; nothing is there that nobody was
woken for; and a call for an id without a queue does not sleep. -/
structure NoLostWakeUp (run : EraRun) : Prop where
  once : ∀ id use, (run.sys.waitQueue id use).Nodup
  one : ∀ id use other otherUse pid, pid ∈ run.sys.waitQueue id use →
    pid ∈ run.sys.waitQueue other otherUse → id = other ∧ use = otherUse
  asleep : ∀ id use, ∀ pid ∈ run.sys.waitQueue id use,
    (run.sys.tasks pid).stat = .waiting ∧ (run.sys.tasks pid).waitingToReady = 0
  served : ∀ id queue, run.sys.queues id = some queue → ∃ idle use, run.Served id queue idle use
  closed : ∀ id, run.sys.queues id = none → ∀ pid call, run.sys.calls pid = some call → call.id = id →
    (run.sys.tasks pid).waitingToReady ≠ 0

end EraRun

variable {run : EraRun} {state : MsgState} {made : Nat → List Nat} {contents : Contents}

theorem nodup_of_types {queue : List WaitNode}
    (once : ∀ type, ((queue.filter fun node => node.type = type).map WaitNode.data).Nodup)
    (one : ∀ first ∈ queue, ∀ second ∈ queue, first.data = second.data → first.type = second.type) :
    (queue.map WaitNode.data).Nodup := by
  induction queue with
  | nil => exact .nil
  | cons head rest ih =>
      refine List.nodup_cons.mpr ⟨fun member => ?_, ih (fun type => ?_) fun first inFirst second inSecond => ?_⟩
      · obtain ⟨node, inRest, isData⟩ := List.mem_map.mp member
        have sameType := one node (List.mem_cons_of_mem _ inRest) head (by simp) isData
        have distinct := once head.type
        simp only [List.filter_cons, decide_true, if_true, List.map_cons, List.nodup_cons] at distinct
        exact distinct.1 (List.mem_map.mpr ⟨node, List.mem_filter.mpr ⟨inRest, by simp [sameType]⟩, isData⟩)
      · refine List.Nodup.sublist (List.Sublist.map _ (List.Sublist.filter _ ?_)) (once type)
        exact List.sublist_cons_self head rest
      · exact one first (List.mem_cons_of_mem _ inFirst) second (List.mem_cons_of_mem _ inSecond)

theorem waitQueue_status (sound : (run.view contents).Sound) {id pid : Nat} {use : Bool}
    (member : pid ∈ run.sys.waitQueue id use) :
    ∃ want, (use = false ↔ want = .node) ∧ run.status pid = .waiting ⟨id, run.eras.removed id, want⟩ ∧
      pid ∈ run.sys.queued id want := by
  have waits : ∀ want, pid ∈ run.sys.queued id want →
      run.status pid = .waiting ⟨id, run.eras.removed id, want⟩ := by
    intro want inQueue
    exact (sound.waits ⟨id, run.eras.removed id, want⟩ pid).mp (by simpa [EraRun.view] using inQueue)
  cases found : run.sys.queues id with
  | none => simp [MsgState.waitQueue, found] at member
  | some queue =>
      cases use with
      | false =>
          have inQueue : pid ∈ run.sys.queued id .node := by
            simpa [MsgState.waitQueue, found, MsgState.queued, MsgQueue.queued] using member
          exact ⟨.node, by simp, waits _ inQueue, inQueue⟩
      | true =>
          simp only [MsgState.waitQueue, found, if_true] at member
          obtain ⟨node, inUse, isData⟩ := List.mem_map.mp member
          have inQueue : pid ∈ run.sys.queued id (.message node.type) := by
            simp only [MsgState.queued, found, MsgQueue.queued]
            exact List.mem_map.mpr ⟨node, List.mem_filter.mpr ⟨inUse, by simp⟩, isData⟩
          exact ⟨.message node.type, by simp, waits _ inQueue, inQueue⟩

theorem woken_wokenFor (contents : Contents) (settled : Settled run.sys) (id : Nat) (want : Want) :
    (run.view contents).woken ⟨id, run.eras.removed id, want⟩ ⊆ run.wokenFor id want := by
  intro pid isWoken
  have isWoken : run.status pid = .woken ⟨id, run.eras.removed id, want⟩ := isWoken
  simp only [EraRun.status, EraRun.place] at isWoken
  split at isWoken
  next => cases isWoken
  next call isCall =>
      split at isWoken
      next => cases isWoken
      next awake =>
          split at isWoken
          next => cases isWoken
          next kept =>
              obtain ⟨_, ⟨_, sleeps⟩ | ⟨_, told | dropped⟩⟩ := settled pid call isCall
              · exact absurd sleeps awake
              · simp only [WaitStatus.woken.injEq, Place.mk.injEq] at isWoken
                obtain ⟨isId, isEra, isWant⟩ := isWoken
                exact ⟨call, isCall, isId, isWant, isEra, told⟩
              · exact absurd dropped kept

theorem Attended.noLostWakeUp (attended : Attended run) : run.NoLostWakeUp := by
  obtain ⟨made, contents, held, sound, settled⟩ := attended
  refine ⟨fun id use => ?_, fun id use other otherUse pid first second => ?_, fun id use pid member => ?_,
    fun id queue found => ?_, fun id absent pid call isCall isId asleep => ?_⟩
  · have once : ∀ want, (run.sys.queued id want).Nodup := by
      intro want
      simpa [EraRun.view] using sound.once ⟨id, run.eras.removed id, want⟩
    cases found : run.sys.queues id with
    | none => simp [MsgState.waitQueue, found]
    | some queue =>
        cases use with
        | false => simpa [MsgState.waitQueue, MsgState.queued, found, MsgQueue.queued] using once .node
        | true =>
            simp only [MsgState.waitQueue, found, if_true]
            refine nodup_of_types (fun type => ?_) fun first inFirst second inSecond sameData => ?_
            · simpa [MsgState.queued, found, MsgQueue.queued] using once (.message type)
            · have queued : ∀ node ∈ queue.wUse,
                  node.data ∈ (run.view contents).queued ⟨id, run.eras.removed id, .message node.type⟩ := by
                intro node inUse
                simp only [EraRun.view, if_true, MsgState.queued, found, MsgQueue.queued]
                exact List.mem_map_of_mem (List.mem_filter.mpr ⟨inUse, by simp⟩)
              have samePlace := sound.one_queue (queued first inFirst) (sameData ▸ queued second inSecond)
              simpa using samePlace
  · obtain ⟨want, isUse, atFirst, _⟩ := waitQueue_status sound first
    obtain ⟨otherWant, isOtherUse, atSecond, _⟩ := waitQueue_status sound second
    rw [atFirst] at atSecond
    simp only [WaitStatus.waiting.injEq, Place.mk.injEq] at atSecond
    obtain ⟨sameId, _, rfl⟩ := atSecond
    have sameUse := isUse.trans isOtherUse.symm
    refine ⟨sameId, ?_⟩
    cases use <;> cases otherUse <;> simp at sameUse ⊢
  · obtain ⟨want, _, status, _⟩ := waitQueue_status sound member
    simp only [EraRun.status] at status
    split at status
    next => cases status
    next call isCall =>
        split at status
        next sleeps =>
            obtain ⟨_, settledTask | ⟨_, awake⟩⟩ := settled pid call isCall
            · exact settledTask
            · omega
        next =>
            split at status
            next => cases status
            next => cases status
  · have heads : run.sys.heads id = some ⟨queue.idle, queue.use⟩ := by simp [MsgState.heads, found]
    obtain ⟨idle, use, content, stands, lists⟩ := held.lists id _ heads
    obtain ⟨_, length, _⟩ := held.complete id (by simp [heads])
    have lengths := lists.length
    have enough : ∀ want, run.sys.queued id want ≠ [] →
        (stock (some content) want : ℕ∞) ≤ (run.wokenFor id want).encard := by
      intro want waiting
      have units := sound.enough ⟨id, run.eras.removed id, want⟩ (by simpa [EraRun.view] using waiting)
      refine le_trans ?_ (Set.encard_le_encard (woken_wokenFor contents settled id want))
      simpa [EraRun.view, stands] using units
    refine ⟨idle, use, lists.idleChain, lists.useChain, fun waiting => ?_, fun node member => ?_⟩
    · have idleNodes : idle.length = stock (some content) .node := by
        simp only [stock]
        omega
      rw [idleNodes]
      exact enough .node (by simpa [MsgState.queued, found, MsgQueue.queued] using waiting)
    · have messages : (use.countP fun message => (run.sys.nodes message).value.type = node.type) =
          stock (some content) (.message node.type) := by
        simp only [stock, lists.stands, List.countP_map]
        rfl
      rw [messages]
      refine enough (.message node.type) fun nobody => ?_
      have inQueue : node.data ∈ run.sys.queued id (.message node.type) := by
        simp only [MsgState.queued, found, MsgQueue.queued]
        exact List.mem_map_of_mem (List.mem_filter.mpr ⟨member, by simp⟩)
      simp [nobody] at inQueue
  · have status : run.status pid = .waiting (run.place pid call) := by simp [EraRun.status, isCall, asleep]
    have inQueue := (sound.waits _ _).mpr status
    simp [EraRun.view, EraRun.place, MsgState.queued, isId, absent] at inQueue

theorem waitQueue_waiters {id pid : Nat} {use : Bool} (member : pid ∈ state.waitQueue id use) :
    pid ∈ state.waiters id := by
  cases found : state.queues id with
  | none => simp [MsgState.waitQueue, found] at member
  | some queue =>
      simp only [MsgState.waitQueue, found] at member
      simp only [MsgState.waiters, found]
      cases use with
      | false => exact List.mem_append_left _ member
      | true => exact List.mem_append_right _ member

/-- In every run no wake-up is lost, and `free_msg_queue` leaves nobody waiting. -/
theorem wake_ups_kept (reached : eraSystem.Reachable run) :
    run.NoLostWakeUp ∧ ∀ pid msqid, run.sys.calls pid = none → InRange msqid →
      ∃ after, eraSystem.step run (.free pid msqid) = some after ∧
        (∀ use, after.sys.waitQueue msqid.toNat use = []) ∧
        ∀ use, ∀ waiter ∈ run.sys.waitQueue msqid.toNat use,
          (after.sys.tasks waiter).stat = .ready ∧ (after.sys.tasks waiter).waitingToReady = -1 := by
  have attended := reachable_attended reached
  refine ⟨attended.noLostWakeUp, fun pid msqid outside range => ?_⟩
  obtain ⟨made, contents, held, _, _⟩ := attended
  obtain ⟨out, _⟩ | ⟨_, nodes, done, _⟩ := freeMsgQueue_cases held msqid
  · exact absurd range out
  refine ⟨⟨run.sys.released msqid.toNat nodes, run.eras.record run.sys (.returned 0 []) (.free pid msqid)⟩,
    ?_, fun use => ?_, fun use waiter member => ?_⟩
  · simp [eraSystem, MsgState.perform, outside, done]
  · simp [MsgState.waitQueue, MsgState.released, MsgState.dropQueue]
  · simp [MsgState.released, waitQueue_waiters member, Task.wake]

/-- The system as it is started. -/
def bootEra : EraRun := ⟨bootMsg.sys, ⟨fun _ => 0, fun _ => 0, fun _ => 0⟩⟩

theorem bootEra_initial : eraSystem.Reachable bootEra :=
  .initial ⟨fun _ => rfl, fun _ => rfl, fun _ => rfl, fun _ => rfl⟩

/-- The queue is full when two more processes send; then a message is taken. -/
def fullQueueActions : List MsgAction :=
  .alloc 0 77 :: List.replicate msgmnb (.call 0 (.push 9 1 5 1) fun _ => 7) ++
    [.call 1 (.push 9 1 5 1) fun _ => 8, .call 2 (.push 9 1 5 1) fun _ => 9, .call 0 (.pop 9 1 5 1) fun _ => 0]

theorem wake_ups_kept_full :
    ∃ run, eraSystem.run bootEra fullQueueActions = some run ∧ run.sys.waitQueue 9 false = [2] ∧
      run.NoLostWakeUp ∧ ∀ pid msqid, run.sys.calls pid = none → InRange msqid →
        ∃ after, eraSystem.step run (.free pid msqid) = some after ∧
          (∀ use, after.sys.waitQueue msqid.toNat use = []) ∧
          ∀ use, ∀ waiter ∈ run.sys.waitQueue msqid.toNat use,
            (after.sys.tasks waiter).stat = .ready ∧ (after.sys.tasks waiter).waitingToReady = -1 := by
  have ran : eraSystem.run bootEra fullQueueActions = some _ := rfl
  have reached := bootEra_initial.of_run ran
  exact ⟨_, ran, rfl, wake_ups_kept reached⟩

end AempOS.Ipc
