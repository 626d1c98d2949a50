import AempOS.Lib.Waiting
import AempOS.Ipc.MsgQueueProperties

/-! Who waits where. A process waits for an idle node of a queue, or for a message
of one type. An id may be given back and allocated again; the queues that had it
are told apart by the number of times that it was given back. Each step of the
calls does to the waiting processes what the operations on wait places say. -/

set_option autoImplicit false

namespace AempOS.Ipc

open Lib

inductive Want where
  | node
  | message (type : Int)
  deriving DecidableEq

structure Place where
  id : Nat
  era : Nat
  want : Want
  deriving DecidableEq

def Call.msqid : Call → Int
  | .push msqid _ _ _ => msqid
  | .pop msqid _ _ _ => msqid

def Call.id (call : Call) : Nat := call.msqid.toNat

def Call.want : Call → Want
  | .push _ _ _ _ => .node
  | .pop _ _ type _ => .message type

/-- How often each id was given back, and how often the id of a call had been when
the call began and when its process last ran. -/
structure Eras where
  removed : Nat → Nat
  began : Nat → Nat
  joined : Nat → Nat

def Eras.record (eras : Eras) (before : MsgState) (outcome : Outcome) : MsgAction → Eras
  | .alloc _ _ => eras
  | .free _ msqid =>
      if outcome = .returned 0 [] then
        { eras with removed := Function.update eras.removed msqid.toNat (eras.removed msqid.toNat + 1) }
      else eras
  | .call pid call _ =>
      { eras with
        began := Function.update eras.began pid (eras.removed call.id)
        joined := Function.update eras.joined pid (eras.removed call.id) }
  | .resume pid _ =>
      match before.calls pid with
      | none => eras
      | some call => { eras with joined := Function.update eras.joined pid (eras.removed call.id) }

/-- The system, with the eras of its ids. -/
structure EraRun where
  sys : MsgState
  eras : Eras

def eraSystem : Machine EraRun MsgAction where
  initial run := run.sys.Fresh
  step run action := (run.sys.perform action).map fun result =>
    ⟨result.1, run.eras.record run.sys result.2 action⟩

/-- The processes that wait in one of the wait queues. -/
def MsgQueue.queued (queue : MsgQueue) : Want → List Nat
  | .node => queue.wIdle
  | .message type => (queue.wUse.filter fun node => node.type = type).map WaitNode.data

def MsgState.queued (state : MsgState) (id : Nat) (want : Want) : List Nat :=
  match state.queues id with
  | none => []
  | some queue => queue.queued want

/-- What is there to take: idle nodes, or messages of a type. -/
def stock : Option (List Message) → Want → Nat
  | none, _ => 0
  | some content, .node => msgmnb - content.length
  | some content, .message type => content.countP fun message => message.type = type

namespace EraRun

/-- Where the call of a process waits. -/
def place (run : EraRun) (pid : Nat) (call : Call) : Place := ⟨call.id, run.eras.joined pid, call.want⟩

def status (run : EraRun) (pid : Nat) : WaitStatus Place :=
  match run.sys.calls pid with
  | none => .running
  | some call =>
      if (run.sys.tasks pid).waitingToReady = 0 then .waiting (run.place pid call)
      else if (run.sys.tasks pid).waitingToReady = -1 then .dropped
      else .woken (run.place pid call)

/-- The places of the queues that there are now. -/
def view (run : EraRun) (contents : Contents) : WaitView Nat Place where
  queued place := if place.era = run.eras.removed place.id then run.sys.queued place.id place.want else []
  status := run.status
  units place := if place.era = run.eras.removed place.id then stock (contents place.id) place.want else 0

end EraRun

/-- A call that waits has a known id, and its process sleeps or was woken. -/
def Settled (state : MsgState) : Prop :=
  ∀ pid call, state.calls pid = some call → InRange call.msqid ∧
    (((state.tasks pid).stat = .waiting ∧ (state.tasks pid).waitingToReady = 0) ∨
      ((state.tasks pid).stat = .ready ∧
        ((state.tasks pid).waitingToReady = 1 ∨ (state.tasks pid).waitingToReady = -1)))

variable {run : EraRun} {state next : MsgState} {made : Nat → List Nat} {contents : Contents} {eras : Eras}

/-! ## What the steps do to the places -/

theorem view_leave (state : MsgState) (eras : Eras) (contents : Contents) (pid : Nat) :
    (EraRun.mk (state.setCall pid none) eras).view contents =
      ((EraRun.mk state eras).view contents).leave pid := by
  ext1
  · rfl
  · funext other
    by_cases same : other = pid
    · simp [EraRun.view, EraRun.status, MsgState.setCall, WaitView.leave, same]
    · simp [EraRun.view, EraRun.status, MsgState.setCall, WaitView.leave, Function.update_of_ne same,
        EraRun.place]
  · rfl

theorem view_wait {pid : Nat} {call : Call} {queue waiting : MsgQueue} (after : Eras)
    (found : state.queues call.id = some queue)
    (joined : waiting.queued call.want = queue.queued call.want ++ [pid])
    (others : ∀ want, want ≠ call.want → waiting.queued want = queue.queued want)
    (removed : after.removed = eras.removed)
    (now : after.joined = Function.update eras.joined pid (eras.removed call.id)) :
    (EraRun.mk (state.wait pid call call.id waiting) after).view contents =
      ((EraRun.mk state eras).view contents).join pid ⟨call.id, eras.removed call.id, call.want⟩ := by
  ext1
  · funext place
    obtain ⟨id, era, want⟩ := place
    by_cases sameId : id = call.id
    · subst sameId
      by_cases sameWant : want = call.want
      · subst sameWant
        by_cases current : era = eras.removed call.id
        · simp [EraRun.view, MsgState.queued, MsgState.wait, MsgState.setQueue, MsgState.setTask,
            MsgState.setCall, WaitView.join, removed, current, found, joined]
        · simp [EraRun.view, WaitView.join, removed, current]
      · simp [EraRun.view, MsgState.queued, MsgState.wait, MsgState.setQueue, MsgState.setTask,
          MsgState.setCall, WaitView.join, removed, found, sameWant, others want sameWant]
    · simp [EraRun.view, MsgState.queued, MsgState.wait, MsgState.setQueue, MsgState.setTask,
        MsgState.setCall, WaitView.join, removed, sameId]
  · funext other
    by_cases same : other = pid
    · simp [EraRun.view, EraRun.status, EraRun.place, MsgState.wait, MsgState.setQueue, MsgState.setTask,
        MsgState.setCall, WaitView.join, same, Task.sleep, now]
    · simp [EraRun.view, EraRun.status, EraRun.place, MsgState.wait, MsgState.setQueue, MsgState.setTask,
        MsgState.setCall, WaitView.join, same, now]
  · funext place
    simp [EraRun.view, WaitView.join, removed]

/-- New lists are stored, with the wait queues as they were. -/
theorem view_store {id : Nat} {queue stored : MsgQueue} (contents : Contents) (nodes : SHeap MsgData)
    (after : Contents)
    (found : state.queues id = some queue) (same : stored.queued = queue.queued) :
    (EraRun.mk (state.storeQueue id stored nodes) eras).view after =
      { (EraRun.mk state eras).view contents with units := ((EraRun.mk state eras).view after).units } := by
  ext1
  · funext place
    by_cases sameId : place.id = id
    · simp [EraRun.view, MsgState.queued, MsgState.storeQueue, sameId, found, same]
    · simp [EraRun.view, MsgState.queued, MsgState.storeQueue, sameId]
  · rfl
  · rfl

/-- The first process that waits at a place is woken. -/
theorem view_wake {id pid : Nat} {want : Want} {rest : List Nat} {queue waiting : MsgQueue}
    (asleep : ∀ place p, p ∈ ((EraRun.mk state eras).view contents).queued place →
      (EraRun.mk state eras).status p = .waiting place) (found : state.queues id = some queue)
    (first : queue.queued want = pid :: rest) (left : waiting.queued want = rest)
    (others : ∀ other, other ≠ want → waiting.queued other = queue.queued other) :
    (EraRun.mk ((state.setQueue id (some waiting)).setTask pid ((state.tasks pid).wake 1)) eras).view contents =
      ((EraRun.mk state eras).view contents).wake ⟨id, eras.removed id, want⟩ := by
  have atPlace : ((EraRun.mk state eras).view contents).queued ⟨id, eras.removed id, want⟩ = pid :: rest := by
    simp [EraRun.view, MsgState.queued, found, first]
  have waits : (EraRun.mk state eras).status pid = .waiting ⟨id, eras.removed id, want⟩ :=
    asleep ⟨id, eras.removed id, want⟩ pid (by simp [atPlace])
  unfold WaitView.wake
  rw [atPlace]
  ext1
  · funext place
    obtain ⟨otherId, era, other⟩ := place
    by_cases sameId : otherId = id
    · subst sameId
      by_cases sameWant : other = want
      · subst sameWant
        by_cases current : era = eras.removed otherId
        · simp [EraRun.view, MsgState.queued, MsgState.setQueue, MsgState.setTask, current, left]
        · simp [EraRun.view, current]
      · simp [EraRun.view, MsgState.queued, MsgState.setQueue, MsgState.setTask, found, sameWant,
          others other sameWant]
    · simp [EraRun.view, MsgState.queued, MsgState.setQueue, MsgState.setTask, sameId]
  · funext other
    by_cases same : other = pid
    · subst same
      simp only [EraRun.status, EraRun.place] at waits
      simp only [EraRun.view, EraRun.status, EraRun.place, MsgState.setQueue, MsgState.setTask,
        Function.update_self, Task.wake]
      cases isCall : state.calls other with
      | none => simp [isCall] at waits
      | some call =>
          simp only [isCall] at waits
          split at waits
          next => simpa using waits
          next =>
              split at waits
              next => cases waits
              next => cases waits
    · simp [EraRun.view, EraRun.status, EraRun.place, MsgState.setQueue, MsgState.setTask, same]
  · rfl

theorem filter_first {queue : List WaitNode} {node : WaitNode} {type : Int}
    (first : (queue.find? fun other => other.type = type) = some node) :
    (queue.filter fun other => other.type = type) =
      node :: (queue.eraseP fun other => other.type = type).filter fun other => other.type = type := by
  induction queue with
  | nil => simp at first
  | cons head rest ih =>
      by_cases same : head.type = type
      · simpa [same] using first
      · simp only [List.find?_cons, same, decide_false] at first
        simpa [same] using ih first

theorem filter_others {type other : Int} (differ : other ≠ type) (queue : List WaitNode) :
    ((queue.eraseP fun node => node.type = type).filter fun node => node.type = other) =
      queue.filter fun node => node.type = other := by
  induction queue with
  | nil => rfl
  | cons head rest ih =>
      by_cases same : head.type = type
      · simp [same, Ne.symm differ]
      · simp [same, List.filter_cons, ih]

theorem view_wakeUpIdle {id : Nat} {queue : MsgQueue}
    (asleep : ∀ place p, p ∈ ((EraRun.mk state eras).view contents).queued place →
      (EraRun.mk state eras).status p = .waiting place) (found : state.queues id = some queue) :
    (EraRun.mk (state.wakeUpIdleProcess id queue) eras).view contents =
      ((EraRun.mk state eras).view contents).wake ⟨id, eras.removed id, .node⟩ := by
  cases waiting : queue.wIdle with
  | nil =>
      have empty : ((EraRun.mk state eras).view contents).queued ⟨id, eras.removed id, .node⟩ = [] := by
        simp [EraRun.view, MsgState.queued, found, MsgQueue.queued, waiting]
      simp only [MsgState.wakeUpIdleProcess, waiting, WaitView.wake, empty]
  | cons pid rest =>
      simp only [MsgState.wakeUpIdleProcess, waiting]
      refine view_wake asleep found waiting rfl fun other differ => ?_
      cases other with
      | node => exact absurd rfl differ
      | message type => rfl

theorem view_wakeUpUse {id : Nat} {queue : MsgQueue} (type : Int)
    (asleep : ∀ place p, p ∈ ((EraRun.mk state eras).view contents).queued place →
      (EraRun.mk state eras).status p = .waiting place) (found : state.queues id = some queue) :
    (EraRun.mk (state.wakeUpUseProcess id queue type) eras).view contents =
      ((EraRun.mk state eras).view contents).wake ⟨id, eras.removed id, .message type⟩ := by
  cases search : queue.wUse.find? fun node => node.type = type with
  | none =>
      have nobody : (queue.wUse.filter fun node => node.type = type) = [] :=
        List.filter_eq_nil_iff.mpr (List.find?_eq_none.mp search)
      have empty : ((EraRun.mk state eras).view contents).queued ⟨id, eras.removed id, .message type⟩ = [] := by
        simp [EraRun.view, MsgState.queued, found, MsgQueue.queued, nobody]
      simp only [MsgState.wakeUpUseProcess, search, WaitView.wake, empty]
  | some node =>
      simp only [MsgState.wakeUpUseProcess, search]
      refine view_wake asleep found ?_ rfl fun other differ => ?_
      · simp [MsgQueue.queued, filter_first search]
      · cases other with
        | node => rfl
        | message otherType =>
            have apart : otherType ≠ type := fun same => differ (same ▸ rfl)
            simp only [MsgQueue.queued, filter_others apart]

theorem view_eras {after : Eras} (removed : after.removed = eras.removed)
    (joined : ∀ pid, state.calls pid ≠ none → after.joined pid = eras.joined pid) :
    (EraRun.mk state after).view contents = (EraRun.mk state eras).view contents := by
  ext1
  · simp [EraRun.view, removed]
  · funext pid
    cases isCall : state.calls pid with
    | none => simp [EraRun.view, EraRun.status, isCall]
    | some call => simp [EraRun.view, EraRun.status, EraRun.place, isCall, joined pid (by simp [isCall])]
  · simp [EraRun.view, removed]

theorem view_open {opened : MsgState} {msqid : Int} (contents : Contents) (eras : Eras)
    (isOpen : state.openQueue msqid = some opened) :
    (EraRun.mk opened eras).view contents = (EraRun.mk state eras).view contents ∧
      opened.calls = state.calls ∧ opened.tasks = state.tasks := by
  unfold MsgState.openQueue at isOpen
  split at isOpen
  next => cases isOpen
  next inside =>
      split at isOpen
      next => cases isOpen
      next =>
          split at isOpen
          next => cases isOpen; exact ⟨rfl, rfl, rfl⟩
          next closed =>
              have absent : state.queues msqid.toNat = none := by simpa using closed
              simp only [MsgState.initMsgQueue, if_neg inside, absent, Option.isSome_none] at isOpen
              cases isOpen
              refine ⟨?_, rfl, rfl⟩
              ext1
              · funext place
                by_cases same : place.id = msqid.toNat
                · cases isWant : place.want with
                  | node => simp [EraRun.view, MsgState.queued, same, absent, isWant, MsgQueue.queued]
                  | message type =>
                      simp [EraRun.view, MsgState.queued, same, absent, isWant, MsgQueue.queued]
                · simp [EraRun.view, MsgState.queued, same]
              · rfl
              · rfl

theorem stock_send {id : Nat} {content : List Message} (message : Message) (stands : contents id = some content) :
    ((EraRun.mk state eras).view (Function.update contents id (some (content ++ [message])))).units =
      ((((EraRun.mk state eras).view contents).take ⟨id, eras.removed id, .node⟩).put
        ⟨id, eras.removed id, .message message.type⟩).units := by
  funext place
  obtain ⟨other, era, want⟩ := place
  by_cases sameId : other = id
  · subst sameId
    by_cases current : era = eras.removed other
    · subst current
      cases want with
      | node =>
          simp only [EraRun.view, WaitView.take, WaitView.put, if_true, Function.update_self, stock, stands]
          simp
          omega
      | message type =>
          by_cases sameType : type = message.type
          · subst sameType
            simp [EraRun.view, WaitView.take, WaitView.put, stock, stands]
          · simp [EraRun.view, WaitView.take, WaitView.put, stock, stands, sameType, Ne.symm sameType]
    · simp [EraRun.view, WaitView.take, WaitView.put, current]
  · simp [EraRun.view, WaitView.take, WaitView.put, sameId]

theorem stock_receive {id : Nat} {left right : List Message} {message : Message}
    (stands : contents id = some (left ++ message :: right))
    (few : (left ++ message :: right).length ≤ msgmnb) :
    ((EraRun.mk state eras).view (Function.update contents id (some (left ++ right)))).units =
      ((((EraRun.mk state eras).view contents).take ⟨id, eras.removed id, .message message.type⟩).put
        ⟨id, eras.removed id, .node⟩).units := by
  funext place
  obtain ⟨other, era, want⟩ := place
  by_cases sameId : other = id
  · subst sameId
    by_cases current : era = eras.removed other
    · subst current
      cases want with
      | node =>
          simp only [List.length_append, List.length_cons] at few
          simp [EraRun.view, WaitView.take, WaitView.put, stock, stands]
          omega
      | message type =>
          by_cases sameType : type = message.type
          · subst sameType
            simp [EraRun.view, WaitView.take, WaitView.put, stock, stands]
          · simp [EraRun.view, WaitView.take, WaitView.put, stock, stands, sameType, Ne.symm sameType]
    · simp [EraRun.view, WaitView.take, WaitView.put, current]
  · simp [EraRun.view, WaitView.take, WaitView.put, sameId]

/-! ## One step -/

/-- The queues stand for lists, and no wake-up is missing. -/
def Attended (run : EraRun) : Prop :=
  ∃ made contents, Matches run.sys made contents ∧ (run.view contents).Sound ∧ Settled run.sys

/-- A process runs the section of its call. `before` is the view before it did. -/
structure Trying (before : WaitView Nat Place) (state : MsgState) (eras : Eras) (made : Nat → List Nat)
    (contents : Contents) (pid : Nat) (call : Call) : Prop where
  sound : before.Sound
  held : Matches state made contents
  settled : Settled state
  outside : state.calls pid = none
  left : (EraRun.mk state eras).view contents = before.leave pid
  may : before.MayTry pid ⟨call.id, eras.removed call.id, call.want⟩

/-- The eras after the section. -/
structure Joined (eras after : Eras) (pid : Nat) (call : Call) : Prop where
  removed : after.removed = eras.removed
  joined : after.joined = Function.update eras.joined pid (eras.removed call.id)

namespace Settled

theorem congr (held : Settled state) (calls : next.calls = state.calls) (tasks : next.tasks = state.tasks) :
    Settled next := by
  unfold Settled
  rw [calls, tasks]
  exact held

theorem leave (held : Settled state) (pid : Nat) : Settled (state.setCall pid none) := by
  intro other call isCall
  have differ : other ≠ pid := by
    rintro rfl
    simp [MsgState.setCall] at isCall
  simp only [MsgState.setCall, Function.update_of_ne differ] at isCall
  exact held other call isCall

theorem wake (held : Settled state) (pid : Nat) {waitingToReady : Int}
    (told : waitingToReady = 1 ∨ waitingToReady = -1) :
    Settled (state.setTask pid ((state.tasks pid).wake waitingToReady)) := by
  intro other call isCall
  obtain ⟨range, settled⟩ := held other call isCall
  by_cases same : other = pid
  · subst same
    refine ⟨range, .inr ?_⟩
    simpa [MsgState.setTask, Task.wake] using told
  · refine ⟨range, ?_⟩
    simpa [MsgState.setTask, Function.update_of_ne same] using settled

theorem wait (held : Settled state) {call : Call} (range : InRange call.msqid) (pid id : Nat) (queue : MsgQueue) :
    Settled (state.wait pid call id queue) := by
  intro other found isCall
  by_cases same : other = pid
  · subst same
    simp only [MsgState.wait, MsgState.setCall, Function.update_self, Option.some.injEq] at isCall
    subst isCall
    exact ⟨range, .inl (by simp [MsgState.wait, MsgState.setCall, MsgState.setTask, Task.sleep])⟩
  · simp only [MsgState.wait, MsgState.setCall, MsgState.setTask, MsgState.setQueue,
      Function.update_of_ne same] at isCall ⊢
    exact held other found isCall

theorem wakeUpIdle (held : Settled state) (id : Nat) (queue : MsgQueue) :
    Settled (state.wakeUpIdleProcess id queue) := by
  unfold MsgState.wakeUpIdleProcess
  split
  next => exact held
  next pid rest _ => exact (held.congr rfl rfl : Settled (state.setQueue id _)).wake pid (.inl rfl)

theorem wakeUpUse (held : Settled state) (id : Nat) (queue : MsgQueue) (type : Int) :
    Settled (state.wakeUpUseProcess id queue type) := by
  unfold MsgState.wakeUpUseProcess
  split
  next => exact held
  next node _ => exact (held.congr rfl rfl : Settled (state.setQueue id _)).wake node.data (.inl rfl)

end Settled

theorem wakeUpIdle_calls (state : MsgState) (id : Nat) (queue : MsgQueue) :
    (state.wakeUpIdleProcess id queue).calls = state.calls := by
  unfold MsgState.wakeUpIdleProcess
  split <;> rfl

theorem wakeUpUse_calls (state : MsgState) (id : Nat) (queue : MsgQueue) (type : Int) :
    (state.wakeUpUseProcess id queue type).calls = state.calls := by
  unfold MsgState.wakeUpUseProcess
  split <;> rfl

namespace Trying

variable {before : WaitView Nat Place} {pid : Nat} {call : Call} {after : Eras}

theorem units (trying : Trying before state eras made contents pid call) (place : Place) :
    before.units place = ((EraRun.mk state eras).view contents).units place := by
  rw [trying.left]
  rfl

theorem queued (trying : Trying before state eras made contents pid call) (place : Place) :
    before.queued place = ((EraRun.mk state eras).view contents).queued place := by
  rw [trying.left]
  rfl

/-- The eras of a process that does not wait do not matter. -/
theorem rejoin (joined : Joined eras after pid call) (outside : next.calls pid = none) :
    (EraRun.mk next after).view contents = (EraRun.mk next eras).view contents := by
  refine view_eras joined.removed fun other isCall => ?_
  have differ : other ≠ pid := by
    rintro rfl
    exact isCall outside
  rw [joined.joined, Function.update_of_ne differ]

/-- The call fails, where there is nothing for those who wait. -/
theorem fails (trying : Trying before state eras made contents pid call)
    (spare : before.status pid = .running ∨
      (before.queued ⟨call.id, eras.removed call.id, call.want⟩ ≠ [] →
        before.units ⟨call.id, eras.removed call.id, call.want⟩ = 0)) (joined : Joined eras after pid call) :
    Attended ⟨state, after⟩ := by
  refine ⟨made, contents, trying.held, ?_, trying.settled⟩
  rw [rejoin joined trying.outside, trying.left]
  refine trying.sound.leaves trying.may.not_waiting fun place woken waiting => ?_
  rcases trying.may with running | dropped | ⟨other, isWoken, same | empty⟩
  · simp [running] at woken
  · simp [dropped] at woken
  · rw [isWoken] at woken
    cases woken
    subst same
    exact spare.resolve_left (by simp [isWoken]) waiting
  · rw [isWoken] at woken
    cases woken
    exact absurd empty waiting

/-- The call finds nothing, and the process waits. -/
theorem waits (trying : Trying before state eras made contents pid call) (range : InRange call.msqid)
    {queue waiting : MsgQueue} (found : state.queues call.id = some queue)
    (idle : waiting.idle = queue.idle) (use : waiting.use = queue.use)
    (joins : waiting.queued call.want = queue.queued call.want ++ [pid])
    (others : ∀ want, want ≠ call.want → waiting.queued want = queue.queued want)
    (nothing : stock (contents call.id) call.want = 0) (joined : Joined eras after pid call) :
    Attended ⟨state.wait pid call call.id waiting, after⟩ := by
  refine ⟨made, contents, trying.held.same (wait_same pid call found idle use), ?_,
    trying.settled.wait range pid call.id waiting⟩
  rw [view_wait after found joins others joined.removed joined.joined, trying.left]
  refine trying.sound.joins trying.may ?_
  rw [trying.units]
  simpa [EraRun.view] using nothing

/-- Those who wait are the same while lists are stored. -/
theorem asleep (trying : Trying before state eras made contents pid call) (place : Place) (p : Nat)
    (member : p ∈ ((EraRun.mk state eras).view contents).queued place) :
    (EraRun.mk state eras).status p = .waiting place := by
  rw [← trying.queued, trying.sound.waits] at member
  have differ : p ≠ pid := by
    rintro rfl
    exact trying.may.not_waiting place member
  have status : (EraRun.mk state eras).status p = (before.leave pid).status p := by
    rw [← trying.left]
    rfl
  rw [status]
  exact (Function.update_of_ne differ _ _).trans member

/-- What is stored takes a unit at one place and puts one at another. -/
theorem stored (trying : Trying before state eras made contents pid call) {queue stored : MsgQueue}
    {content : Option (List Message)} {given : Want} (nodes : SHeap MsgData)
    (found : state.queues call.id = some queue) (same : stored.queued = queue.queued)
    (units : ((EraRun.mk state eras).view (Function.update contents call.id content)).units =
      ((((EraRun.mk state eras).view contents).take ⟨call.id, eras.removed call.id, call.want⟩).put
        ⟨call.id, eras.removed call.id, given⟩).units) :
    (EraRun.mk (state.storeQueue call.id stored nodes) eras).view (Function.update contents call.id content) =
      ((before.leave pid).take ⟨call.id, eras.removed call.id, call.want⟩).put
        ⟨call.id, eras.removed call.id, given⟩ := by
  rw [view_store contents nodes _ found same, units, trying.left]
  rfl

end Trying

theorem mem_waiters (sound : ((EraRun.mk state eras).view contents).Sound) (id p : Nat) :
    p ∈ state.waiters id ↔ ∃ place : Place, place.id = id ∧ (EraRun.mk state eras).status p = .waiting place := by
  have queued : ∀ want, p ∈ state.queued id want →
      ∃ place : Place, place.id = id ∧ (EraRun.mk state eras).status p = .waiting place := by
    intro want member
    refine ⟨⟨id, eras.removed id, want⟩, rfl, (sound.waits _ p).mp ?_⟩
    simpa [EraRun.view] using member
  constructor
  · intro member
    cases found : state.queues id with
    | none => simp [MsgState.waiters, found] at member
    | some queue =>
        simp only [MsgState.waiters, found, List.mem_append, List.mem_map] at member
        rcases member with inIdle | ⟨node, inUse, rfl⟩
        · exact queued .node (by simpa [MsgState.queued, found, MsgQueue.queued] using inIdle)
        · refine queued (.message node.type) ?_
          simp only [MsgState.queued, found, MsgQueue.queued]
          exact List.mem_map_of_mem (List.mem_filter.mpr ⟨inUse, by simp⟩)
  · rintro ⟨place, rfl, waits⟩
    have member := (sound.waits place p).mpr waits
    simp only [EraRun.view] at member
    split at member
    next =>
        cases found : state.queues place.id with
        | none => simp [MsgState.queued, found] at member
        | some queue =>
            simp only [MsgState.queued, found] at member
            simp only [MsgState.waiters, found, List.mem_append]
            cases isWant : place.want with
            | node => exact .inl (by simpa [MsgQueue.queued, isWant] using member)
            | message type =>
                simp only [MsgQueue.queued, isWant, List.mem_map, List.mem_filter] at member
                obtain ⟨node, ⟨inUse, _⟩, isData⟩ := member
                exact .inr (List.mem_map.mpr ⟨node, inUse, isData⟩)
    next => cases member

theorem view_released (sound : ((EraRun.mk state eras).view contents).Sound) (id : Nat) (nodes : SHeap MsgData)
    {after : Eras} (removed : after.removed = Function.update eras.removed id (eras.removed id + 1))
    (joined : after.joined = eras.joined) :
    (EraRun.mk (state.released id nodes) after).view (Function.update contents id none) =
      { ((EraRun.mk state eras).view contents).close fun place => place.id = id with
        units := ((EraRun.mk (state.released id nodes) after).view (Function.update contents id none)).units } := by
  ext1
  · funext place
    by_cases same : place.id = id
    · simp [EraRun.view, MsgState.queued, MsgState.released, MsgState.dropQueue, WaitView.close, same]
    · simp [EraRun.view, MsgState.queued, MsgState.released, MsgState.dropQueue, MsgState.closeId, WaitView.close,
        same, removed]
  · funext p
    have isWaiter := mem_waiters sound id p
    simp only [EraRun.view, WaitView.close]
    simp only [EraRun.status, EraRun.place] at isWaiter ⊢
    simp only [MsgState.released, MsgState.dropQueue, MsgState.closeId, joined]
    cases isCall : state.calls p with
    | none => simp
    | some call =>
        simp only [isCall] at isWaiter ⊢
        by_cases asleep : (state.tasks p).waitingToReady = 0
        · by_cases same : call.id = id
          · simp [isWaiter, asleep, same, Task.wake]
          · simp [isWaiter, asleep, same]
        · by_cases dropped : (state.tasks p).waitingToReady = -1
          · simp [isWaiter, dropped]
          · simp [isWaiter, asleep, dropped]
  · rfl

theorem Trying.push {before : WaitView Nat Place} {pid size : Nat} {msqid type flag : Int} {after : Eras}
    {queue : MsgQueue} {buffer : Nat → UInt8} {outcome : Outcome}
    (trying : Trying before state eras made contents pid (.push msqid size type flag))
    (range : InRange msqid) (found : state.queues msqid.toNat = some queue)
    (done : state.pushOpen pid msqid size type flag buffer = some (next, outcome))
    (joined : Joined eras after pid (.push msqid size type flag)) : Attended ⟨next, after⟩ := by
  obtain ⟨content, stands, full, result⟩ | ⟨content, stored, nodes, stands, room, idle, use, result, held, _⟩ :=
    pushOpen_cases trying.held found pid size type flag buffer
  · have nothing : stock (contents msqid.toNat) .node = 0 := by simp [stock, stands, full]
    rw [result] at done
    by_cases nowait : flag = ipcNowait
    · rw [if_pos nowait] at done
      cases done
      refine trying.fails (.inr fun _ => ?_) joined
      rw [trying.units]
      exact (if_pos rfl).trans nothing
    · rw [if_neg nowait] at done
      cases done
      refine trying.waits range found rfl rfl rfl (fun want differ => ?_) nothing joined
      cases want with
      | node => exact absurd rfl differ
      | message => rfl
  · rw [result] at done
    cases done
    have same : stored.queued = queue.queued := by
      funext want
      cases want with
      | node => exact idle
      | message other => simp only [MsgQueue.queued, use]
    have settled : Settled (state.storeQueue msqid.toNat stored nodes) := trying.settled.congr rfl rfl
    have outside : ((state.storeQueue msqid.toNat stored nodes).wakeUpUseProcess msqid.toNat stored type).calls
        pid = none := by
      rw [wakeUpUse_calls]
      exact trying.outside
    have view := trying.stored nodes found same
      (stock_send ⟨type, firstBytes buffer (min size msgmax)⟩ stands)
    simp only [Call.id, Call.msqid, Call.want] at view
    refine ⟨made, _, held.same (wakeUpUseProcess_same type (storeQueue_found _ _ _ _)), ?_,
      settled.wakeUpUse _ _ type⟩
    rw [rejoin joined outside, view_wakeUpUse type ?_ (storeQueue_found _ _ _ _)]
    · rw [view]
      exact (trying.sound.takes trying.may).gives _
    · intro place p member
      rw [view] at member
      exact trying.asleep place p ((trying.queued place) ▸ member)

theorem Trying.pop {before : WaitView Nat Place} {pid size : Nat} {msqid type flag : Int} {after : Eras}
    {queue : MsgQueue} {outcome : Outcome}
    (trying : Trying before state eras made contents pid (.pop msqid size type flag))
    (range : InRange msqid) (found : state.queues msqid.toNat = some queue)
    (done : state.popOpen pid msqid size type flag = some (next, outcome))
    (joined : Joined eras after pid (.pop msqid size type flag)) : Attended ⟨next, after⟩ := by
  obtain ⟨content, stands, absent, result⟩ |
      ⟨left, message, right, stored, nodes, stands, rfl, _, idle, use, result, held, _⟩ :=
    popOpen_cases trying.held found pid size type flag
  · have nothing : stock (contents msqid.toNat) (.message type) = 0 := by
      simpa [stock, stands, List.countP_eq_zero] using absent
    rw [result] at done
    by_cases nowait : flag = ipcNowait
    · rw [if_pos nowait] at done
      cases done
      refine trying.fails (.inr fun _ => ?_) joined
      rw [trying.units]
      exact (if_pos rfl).trans nothing
    · rw [if_neg nowait] at done
      cases done
      refine trying.waits range found rfl rfl ?_ (fun want differ => ?_) nothing joined
      · simp [Call.want, MsgQueue.queued, List.filter_append]
      · cases want with
        | node => rfl
        | message other =>
            have apart : type ≠ other := fun same => differ (same ▸ rfl)
            simp [MsgQueue.queued, List.filter_append, apart]
  · rw [result] at done
    cases done
    have same : stored.queued = queue.queued := by
      funext want
      cases want with
      | node => exact idle
      | message other => simp only [MsgQueue.queued, use]
    have settled : Settled (state.storeQueue msqid.toNat stored nodes) := trying.settled.congr rfl rfl
    have outside : ((state.storeQueue msqid.toNat stored nodes).wakeUpIdleProcess msqid.toNat stored).calls
        pid = none := by
      rw [wakeUpIdle_calls]
      exact trying.outside
    have view := trying.stored nodes found same (stock_receive stands (trying.held.bounded stands))
    simp only [Call.id, Call.msqid, Call.want] at view
    refine ⟨made, _, held.same (wakeUpIdleProcess_same (storeQueue_found _ _ _ _)), ?_,
      settled.wakeUpIdle _ _⟩
    rw [rejoin joined outside, view_wakeUpIdle ?_ (storeQueue_found _ _ _ _)]
    · rw [view]
      exact (trying.sound.takes trying.may).gives _
    · intro place p member
      rw [view] at member
      exact trying.asleep place p ((trying.queued place) ▸ member)

/-- The section of a call, for a known id or by a process that was not waiting. -/
theorem Trying.runs {before : WaitView Nat Place} {pid : Nat} {call : Call} {after : Eras}
    {buffer : Nat → UInt8} {outcome : Outcome} (trying : Trying before state eras made contents pid call)
    (known : InRange call.msqid ∨ before.status pid = .running)
    (done : state.runSection pid buffer call = some (next, outcome)) (joined : Joined eras after pid call) :
    Attended ⟨next, after⟩ := by
  obtain ⟨closed, unknown⟩ | ⟨opened, queue, isOpen, range, found, openHeld⟩ :=
    openQueue_cases trying.held call.msqid
  · -- nobody waits for a queue that there is not
    have refused : next = state := by
      cases call with
      | push msqid size type flag =>
          rw [MsgState.runSection, show state.openQueue msqid = none from closed] at done
          cases done
          rfl
      | pop msqid size type flag =>
          rw [MsgState.runSection, show state.openQueue msqid = none from closed] at done
          cases done
          rfl
    subst refused
    rcases unknown with outside | absent
    · exact trying.fails (.inl (known.resolve_left outside)) joined
    · have noQueue : next.queues call.id = none := by
        cases found : next.queues call.id with
        | none => rfl
        | some queue =>
            have heads : next.heads call.id = some ⟨queue.idle, queue.use⟩ := by simp [MsgState.heads, found]
            obtain ⟨_, _, content, stands, _⟩ := trying.held.lists _ _ heads
            exact absurd (absent.symm.trans stands) (by simp)
      refine trying.fails (.inr fun waiting => ?_) joined
      rw [trying.queued] at waiting
      simp [EraRun.view, MsgState.queued, noQueue] at waiting
  · obtain ⟨view, calls, tasks⟩ := view_open contents eras isOpen
    have openTrying : Trying before opened eras (recordMade state opened made) contents pid call :=
      ⟨trying.sound, openHeld, trying.settled.congr calls tasks, by rw [calls]; exact trying.outside,
        view.trans trying.left, trying.may⟩
    cases call with
    | push msqid size type flag =>
        simp only [MsgState.runSection, show state.openQueue msqid = some opened from isOpen] at done
        exact openTrying.push range found done joined
    | pop msqid size type flag =>
        simp only [MsgState.runSection, show state.openQueue msqid = some opened from isOpen] at done
        exact openTrying.pop range found done joined

theorem Attended.alloc (run : EraRun) (key : Int) (attended : Attended run) :
    Attended ⟨(run.sys.allocMsgQueue key).1, run.eras⟩ := by
  obtain ⟨made, contents, held, sound, settled⟩ := attended
  obtain ⟨_, _, result⟩ | ⟨_, ⟨id, _, unused, result⟩ | ⟨_, result⟩⟩ := allocMsgQueue_cases run.sys key
  · rw [result]
    exact ⟨made, contents, held, sound, settled⟩
  · rw [result]
    refine ⟨made, _, held.allocate unused _, ?_, settled.congr rfl rfl⟩
    have noQueue : run.sys.queues id = none := by simpa [MsgState.heads] using (held.unused id unused).2
    refine sound.refills fun place waiting => ?_
    have apart : place.id ≠ id := by
      rintro rfl
      simp [EraRun.view, MsgState.queued, noQueue] at waiting
    simp [EraRun.view, apart]
  · rw [result]
    exact ⟨made, contents, held, sound, settled⟩

theorem Attended.free {msqid : Int} {outcome : Outcome} (pid : Nat) (attended : Attended run)
    (done : run.sys.freeMsgQueue msqid = some (next, outcome)) :
    Attended ⟨next, run.eras.record run.sys outcome (.free pid msqid)⟩ := by
  obtain ⟨made, contents, held, sound, settled⟩ := attended
  obtain ⟨_, result⟩ | ⟨_, nodes, result, nextHeld⟩ := freeMsgQueue_cases held msqid
  · cases result.symm.trans done
    exact ⟨made, contents, held, sound, settled⟩
  · cases result.symm.trans done
    have removed : (run.eras.record run.sys (.returned 0 []) (.free pid msqid)).removed =
        Function.update run.eras.removed msqid.toNat (run.eras.removed msqid.toNat + 1) := by
      simp [Eras.record]
    have joined : (run.eras.record run.sys (.returned 0 []) (.free pid msqid)).joined = run.eras.joined := by
      simp [Eras.record]
    refine ⟨made, _, nextHeld, ?_, fun p call isCall => ?_⟩
    · rw [view_released sound msqid.toNat nodes removed joined]
      refine (sound.closes _).refills fun place waiting => ?_
      have apart : place.id ≠ msqid.toNat := by
        intro same
        simp [WaitView.close, same] at waiting
      simp [EraRun.view, WaitView.close, removed, apart]
    · obtain ⟨range, task⟩ := settled p call isCall
      refine ⟨range, ?_⟩
      simp only [MsgState.released]
      split
      next => exact .inr ⟨rfl, .inr rfl⟩
      next => exact task

theorem Attended.call {pid : Nat} {call : Call} {buffer : Nat → UInt8} {outcome : Outcome} {after : Eras}
    (attended : Attended run) (outside : run.sys.calls pid = none)
    (done : run.sys.runSection pid buffer call = some (next, outcome)) (joined : Joined run.eras after pid call) :
    Attended ⟨next, after⟩ := by
  obtain ⟨made, contents, held, sound, settled⟩ := attended
  have running : (run.view contents).status pid = .running := by simp [EraRun.view, EraRun.status, outside]
  have left : run.view contents = (run.view contents).leave pid := by
    ext1
    · rfl
    · exact (Function.update_eq_self_iff.mpr running.symm).symm
    · rfl
  have trying : Trying (run.view contents) run.sys run.eras made contents pid call :=
    ⟨sound, held, settled, outside, left, .inl running⟩
  exact trying.runs (.inr running) done joined

/-- A process whose call was woken runs its section, or returns. -/
theorem Attended.resume {pid : Nat} {call : Call} {buffer : Nat → UInt8} {outcome : Outcome} {after : Eras}
    (attended : Attended run) (isCall : run.sys.calls pid = some call)
    (done : run.sys.perform (.resume pid buffer) = some (next, outcome)) (joined : Joined run.eras after pid call) :
    Attended ⟨next, after⟩ := by
  obtain ⟨made, contents, held, sound, settled⟩ := attended
  have awake : (run.sys.tasks pid).waitingToReady ≠ 0 := (perform_enabled done).2
  obtain ⟨range, _⟩ := settled pid call isCall
  have may : (run.view contents).MayTry pid ⟨call.id, run.eras.removed call.id, call.want⟩ := by
    by_cases dropped : (run.sys.tasks pid).waitingToReady = -1
    · exact .inr (.inl (by simp [EraRun.view, EraRun.status, isCall, dropped]))
    · refine .inr (.inr ⟨run.place pid call, by simp [EraRun.view, EraRun.status, isCall, awake, dropped], ?_⟩)
      by_cases current : run.eras.joined pid = run.eras.removed call.id
      · exact .inl (by simp [EraRun.place, current])
      · exact .inr (if_neg current)
  have trying : Trying (run.view contents) (run.sys.setCall pid none) run.eras made contents pid call :=
    ⟨sound, held.same ((SameLists.refl _).setCall pid none), settled.leave pid, Function.update_self ..,
      view_leave .., may⟩
  simp only [MsgState.perform, isCall, Option.bind_eq_bind, Option.bind_some, if_neg awake] at done
  split at done
  next dropped =>
      cases done
      have told : (run.view contents).status pid = .dropped := by
        simp [EraRun.view, EraRun.status, isCall, dropped]
      refine ⟨made, contents, trying.held, ?_, trying.settled⟩
      rw [Trying.rejoin joined trying.outside, trying.left]
      exact sound.leaves may.not_waiting fun place woken => by simp [told] at woken
  next => exact trying.runs (.inl range) done joined

theorem Attended.step {run after : EraRun} {action : MsgAction} (attended : Attended run)
    (moved : eraSystem.step run action = some after) : Attended after := by
  obtain ⟨⟨next, outcome⟩, done, rfl⟩ := Option.map_eq_some_iff.mp moved
  have enabled := perform_enabled done
  cases action with
  | alloc pid key =>
      simp only [MsgState.perform, show run.sys.calls pid = none from enabled, Option.isNone_none, if_true,
        Option.some.injEq] at done
      have isNext : (run.sys.allocMsgQueue key).1 = next := congrArg Prod.fst done
      subst isNext
      exact attended.alloc run key
  | free pid msqid =>
      simp only [MsgState.perform, show run.sys.calls pid = none from enabled, Option.isNone_none, if_true] at done
      exact attended.free pid done
  | call pid call buffer =>
      have outside : run.sys.calls pid = none := enabled
      simp only [MsgState.perform, outside, Option.isNone_none, if_true] at done
      exact attended.call outside done ⟨rfl, rfl⟩
  | resume pid buffer =>
      obtain ⟨call, isCall⟩ := Option.ne_none_iff_exists'.mp enabled.1
      refine attended.resume isCall done ⟨?_, ?_⟩
      · simp [Eras.record, isCall]
      · simp [Eras.record, isCall]

theorem MsgState.Fresh.attended (fresh : run.sys.Fresh) : Attended run := by
  refine ⟨fun _ => [], fun _ => none, fresh.matches_empty, ⟨fun place p => ?_, fun place => ?_, fun place waiting => ?_⟩,
    fun pid call isCall => ?_⟩
  · simp [EraRun.view, MsgState.queued, fresh.queues, EraRun.status, fresh.calls]
  · simp [EraRun.view, MsgState.queued, fresh.queues]
  · simp [EraRun.view, MsgState.queued, fresh.queues] at waiting
  · simp [fresh.calls pid] at isCall

theorem reachable_attended {guard : EraRun → MsgAction → Prop}
    (reached : eraSystem.ReachableWhen guard run) : Attended run := by
  have start : ∀ run, eraSystem.initial run → Attended run := fun _ fresh => MsgState.Fresh.attended fresh
  exact reached.invariant start fun _ _ _ attended _ moved => attended.step moved

end AempOS.Ipc
