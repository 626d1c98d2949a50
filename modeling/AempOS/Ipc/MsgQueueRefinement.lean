import AempOS.Ipc.MsgQueueEras

/-! The message queues refine lists of messages. A call that waited fails without a look at
the lists only if its queue was freed while it did. -/

set_option autoImplicit false

namespace AempOS.Ipc

open Lib

variable {run after : MsgRun} {state next : MsgState} {pid : Nat} {call : Call} {outcome : Outcome}

/-- The calls that were told that there is no queue any more are those whose queue was
freed. -/
def Told (state : MsgState) (freed : Nat → Bool) : Prop :=
  ∀ pid, state.calls pid ≠ none → (freed pid = true ↔ state.Dropped pid)

namespace Told

variable {freed : Nat → Bool}

theorem leave (told : Told state freed) (pid : Nat) :
    Told (state.setCall pid none) (Function.update freed pid false) := by
  intro other waits
  have differ : other ≠ pid := by
    rintro rfl
    simp [MsgState.setCall] at waits
  simp only [MsgState.setCall, Function.update_of_ne differ] at waits ⊢
  exact told other waits

/-- The section of a call wakes others, but tells nobody that a queue is gone. -/
theorem section_step (told : Told state freed) (frame : SectionFrame state next pid call) :
    Told next (Function.update freed pid false) := by
  intro other waits
  by_cases same : other = pid
  · subst same
    have asleep := frame.sleeps waits
    simp [MsgState.Dropped, asleep]
  · rw [frame.calls other same] at waits
    have before := told other waits
    rw [Function.update_of_ne same, before]
    unfold MsgState.Dropped
    rcases frame.tasks other same with unchanged | ⟨waiting, woken⟩
    · rw [unchanged]
    · rw [waiting, woken]
      decide

theorem free (told : Told state freed) (id : Nat) (nodes : SHeap MsgData) :
    Told (state.released id nodes) fun pid => freed pid || (state.waiters id).contains pid := by
  intro pid waits
  have before := told pid waits
  by_cases member : pid ∈ state.waiters id
  · simp [MsgState.Dropped, MsgState.released, member, Task.wake]
  · simpa [MsgState.Dropped, MsgState.released, member] using before

end Told

/-- A step tells those who wait that their queue is gone just when it frees it. -/
theorem Told.step {eras : Eras} {action : MsgAction} (told : Told run.sys run.freed)
    (attended : Attended ⟨run.sys, eras⟩) (done : run.sys.perform action = some (next, outcome)) :
    Told next (run.recordFreed outcome action) := by
  obtain ⟨asleep, _⟩ := attended.waiters_iff
  obtain ⟨made, contents, held, _, _⟩ := attended
  have enabled := perform_enabled done
  cases action with
  | alloc pid key =>
      simp only [MsgState.perform, show run.sys.calls pid = none from enabled, Option.isNone_none, if_true,
        Option.some.injEq] at done
      obtain ⟨_, _, result⟩ | ⟨_, ⟨_, _, _, result⟩ | ⟨_, result⟩⟩ := allocMsgQueue_cases run.sys key
      all_goals
        cases result.symm.trans done
        exact told
  | free pid msqid =>
      simp only [MsgState.perform, show run.sys.calls pid = none from enabled, Option.isNone_none, if_true] at done
      obtain ⟨_, result⟩ | ⟨_, nodes, result, _⟩ := freeMsgQueue_cases held msqid
      · cases result.symm.trans done
        exact told
      · cases result.symm.trans done
        simp only [MsgRun.recordFreed, if_true]
        exact told.free msqid.toNat nodes
  | call pid call buffer =>
      have outside : run.sys.calls pid = none := enabled
      simp only [MsgState.perform, outside, Option.isNone_none, if_true] at done
      obtain ⟨rfl, rfl⟩ | ⟨_, frame⟩ := runSection_frame held asleep outside done
      · have unchanged : run.sys.setCall pid none = run.sys := by
          rw [MsgState.setCall, ← outside, Function.update_eq_self]
        have left := told.leave pid
        rwa [unchanged] at left
      · exact told.section_step frame
  | resume pid buffer =>
      obtain ⟨call, isCall⟩ := Option.ne_none_iff_exists'.mp enabled.1
      have left := told.leave pid
      simp only [MsgState.perform, isCall, Option.bind_eq_bind, Option.bind_some, if_neg enabled.2] at done
      split at done
      next =>
        cases done
        exact left
      next =>
        have heldCall := held.same ((SameLists.refl run.sys).setCall pid none)
        obtain ⟨rfl, rfl⟩ | ⟨_, frame⟩ := runSection_frame heldCall asleep (Function.update_self ..) done
        · exact left
        · have ended := left.section_step frame
          rwa [Function.update_idem] at ended

/-- Only for calls that wait it matters whether their queue was freed. -/
theorem QueueStep.congr {keys : Nat → Int} {calls : Nat → Option Call} {freed dropped : Nat → Prop}
    {contents later : Contents} {action : MsgAction}
    (step : QueueStep keys calls freed contents action outcome later)
    (same : ∀ pid, calls pid ≠ none → (dropped pid ↔ freed pid)) :
    QueueStep keys calls dropped contents action outcome later := by
  cases step with
  | known inside stands => exact .known inside stands
  | created absent inside unused => exact .created absent inside unused
  | noId full => exact .noId full
  | freed range => exact .freed range
  | freeUnknown outside => exact .freeUnknown outside
  | called step => exact .called step
  | resumed isCall kept step =>
      exact .resumed isCall (fun gone => kept ((same _ (by simp [isCall])).mp gone)) step
  | dropped isCall gone => exact .dropped isCall ((same _ (by simp [isCall])).mpr gone)

/-- The queues stand for lists that their history explains, no wake-up is missing, and those
who were told that there is no queue any more are known. -/
structure Refines (run : MsgRun) (contents : Contents) : Prop where
  held : Matches run.sys run.log.made contents
  ordered : Ordered run.log contents
  attended : ∃ eras, Attended ⟨run.sys, eras⟩
  told : Told run.sys run.freed

theorem Refines.step {contents : Contents} {action : MsgAction} (refines : Refines run contents)
    (moved : msgSystem.step run action = some after) : ∃ later, Refines after later := by
  obtain ⟨⟨next, outcome⟩, done, rfl⟩ := Option.map_eq_some_iff.mp moved
  obtain ⟨eras, attended⟩ := refines.attended
  obtain ⟨_, _, later, isDone, step, nextHeld⟩ := perform_spec refines.held (perform_enabled done)
  cases isDone.symm.trans done
  have eraMoved : eraSystem.step ⟨run.sys, eras⟩ action =
      some ⟨next, eras.record run.sys outcome action⟩ := by
    simp only [eraSystem, done, Option.map_some]
  refine ⟨later, ?_, step.ordered refines.ordered, ⟨_, attended.step eraMoved⟩,
    refines.told.step attended done⟩
  rw [MsgLog.record_made]
  exact nextHeld

theorem reachable_refines (reached : msgSystem.Reachable run) : ∃ contents, Refines run contents := by
  have start : ∀ run, msgSystem.initial run → ∃ contents, Refines run contents := by
    rintro run ⟨fresh, sent, received⟩
    refine ⟨fun _ => none, fresh.matches_empty, fun id => ⟨sent id, received id⟩,
      ⟨⟨fun _ => 0, fun _ => 0, fun _ => 0⟩, MsgState.Fresh.attended fresh⟩, fun pid waits => ?_⟩
    exact absurd (fresh.calls pid) waits
  refine reached.invariant start fun run action after refines moved => ?_
  obtain ⟨contents, refines⟩ := refines
  exact refines.step moved

/-- In every run the queues stand for lists of at most `MSGMNB` messages, held by
exactly the nodes that were made for them; every step does to the lists what the
abstract queues do, and the messages of one type keep their order. -/
theorem msg_queue_refines (reached : msgSystem.Reachable run) :
    ∃ contents, Matches run.sys run.log.made contents ∧ Ordered run.log contents ∧
      (∀ id content, contents id = some content → content.length ≤ msgmnb) ∧
      ∀ action, Enabled run.sys action → ∃ next outcome after,
        run.sys.perform action = some (next, outcome) ∧
        QueueStep run.sys.keys run.sys.calls (fun pid => run.freed pid = true) contents action outcome after ∧
        Matches next (recordMade run.sys next run.log.made) after := by
  obtain ⟨contents, refines⟩ := reachable_refines reached
  refine ⟨contents, refines.held, refines.ordered, fun id content stands => refines.held.bounded stands,
    fun action enabled => ?_⟩
  obtain ⟨next, outcome, after, done, step, nextHeld⟩ := perform_spec refines.held enabled
  exact ⟨next, outcome, after, done, step.congr refines.told, nextHeld⟩

/-- Process 1 receives what process 0 sent, and waits again until process 0 frees the queue. -/
theorem msg_queue_refines_boot :
    ∃ run, msgSystem.run bootMsg (bootMsgActions ++ [.call 1 (.pop 9 2 5 1) (fun _ => 0), .free 0 9]) =
        some run ∧
      run.freed 1 = true ∧
      ∃ contents, Matches run.sys run.log.made contents ∧ Ordered run.log contents ∧
        (∀ id content, contents id = some content → content.length ≤ msgmnb) ∧
        ∀ action, Enabled run.sys action → ∃ next outcome after,
          run.sys.perform action = some (next, outcome) ∧
          QueueStep run.sys.keys run.sys.calls (fun pid => run.freed pid = true) contents action outcome
            after ∧
          Matches next (recordMade run.sys next run.log.made) after := by
  have ran : msgSystem.run bootMsg
    (bootMsgActions ++ [.call 1 (.pop 9 2 5 1) (fun _ => 0), .free 0 9]) = some _ := rfl
  have start : msgSystem.Reachable bootMsg :=
    .initial ⟨⟨fun _ => rfl, fun _ => rfl, fun _ => rfl, fun _ => rfl⟩, fun _ => rfl, fun _ => rfl⟩
  exact ⟨_, ran, rfl, msg_queue_refines (start.of_run ran)⟩

end AempOS.Ipc
