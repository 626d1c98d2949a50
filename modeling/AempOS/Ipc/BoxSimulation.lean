import AempOS.Ipc.Box
import AempOS.Ipc.MsgQueueProperties

/-! Mailboxes as message queues. A mailbox is a queue with its number, and the sender
is the type of a message; with room for as many queues as there are PCBs the functions
of `kernel/msgqueue.c` do to it what those of `kernel/box.c` do. -/

set_option autoImplicit false

namespace AempOS.Ipc

open Lib

/-! ## More queues -/

namespace MsgState

/-- `init_msg_queue` with room for `room` queues. -/
def initMsgQueueIn (room : Nat) (state : MsgState) (msqid : Int) : MsgState × Int :=
  if msqid < 0 ∨ msqid ≥ room then (state, -1)
  else if (state.queues msqid.toNat).isSome then (state, -1)
  else
    let list := allocIdleQueue msgmnb ⟨state.nodes, none⟩ state.fresh .head
    ({ state with
        nodes := list.heap
        fresh := state.fresh + msgmnb
        queues := Function.update state.queues msqid.toNat
          (some { idle := list.head, use := none, wIdle := [], wUse := [] }) }, 0)

/-- The checks with which both calls begin. -/
def openQueueIn (room : Nat) (state : MsgState) (msqid : Int) : Option MsgState :=
  if msqid < 0 ∨ msqid ≥ room then none
  else if state.allocs msqid.toNat = -1 then none
  else if (state.queues msqid.toNat).isSome then some state
  else
    let (next, err) := state.initMsgQueueIn room msqid
    if err < 0 then none else some next

/-- `runSection` with room for `room` queues. -/
def runSectionIn (room : Nat) (state : MsgState) (pid : Nat) (buffer : Nat → UInt8) :
    Call → Option (MsgState × Outcome)
  | .push msqid size type flag =>
      match state.openQueueIn room msqid with
      | none => some (state, fault)
      | some opened => opened.pushOpen pid msqid size type flag buffer
  | .pop msqid size type flag =>
      match state.openQueueIn room msqid with
      | none => some (state, fault)
      | some opened => opened.popOpen pid msqid size type flag

theorem runSectionIn_msgmni (state : MsgState) (pid : Nat) (buffer : Nat → UInt8) (call : Call) :
    state.runSectionIn msgmni pid buffer call = state.runSection pid buffer call := by
  cases call <;> rfl

/-- A queue is allocated and initialised at once. -/
def makeQueue (room : Nat) (state : MsgState) (id : Int) : MsgState × Outcome :=
  if id < 0 ∨ id ≥ room then (state, fault)
  else if state.allocs id.toNat ≠ -1 then (state, fault)
  else
    ((initMsgQueueIn room { state with allocs := Function.update state.allocs id.toNat 1 } id).1, .returned 0 [])

end MsgState

/-- What is done to the queues. -/
inductive QueueAction where
  | make (pid : Nat) (id : Int)
  | call (pid : Nat) (call : Call) (buffer : Nat → UInt8)
  | resume (pid : Nat) (buffer : Nat → UInt8)

def MsgState.performIn (room : Nat) (state : MsgState) : QueueAction → Option (MsgState × Outcome)
  | .make pid id => if (state.calls pid).isNone then some (state.makeQueue room id) else none
  | .call pid call buffer =>
      if pid < nrPcbs ∧ (state.calls pid).isNone then state.runSectionIn room pid buffer call else none
  | .resume pid buffer => do
      let call ← state.calls pid
      let woken := state.setCall pid none
      if (state.tasks pid).waitingToReady = 0 then none
      else if (state.tasks pid).waitingToReady = -1 then pure (woken, fault)
      else woken.runSectionIn room pid buffer call

/-! ## The translation -/

def BoxData.toMsg (data : BoxData) : MsgData := ⟨data.pid, data.size, data.buffer⟩

def BoxWait.toMsg (node : BoxWait) : WaitNode := ⟨node.pid, node.data⟩

def Box.toMsg (box : Box) : MsgQueue := ⟨box.idle, box.use, box.wIdle, box.wUse.map BoxWait.toMsg⟩

variable {infos : Infos}

/-- The number of the queue for a `pid`. -/
def Infos.queueId (infos : Infos) (pid : Int) (proc : Nat) : Int :=
  if OutOfRange pid then -1 else infos.mailbox proc

/-- A call that begins. -/
def BoxCall.toMsg (infos : Infos) (proc : Nat) : BoxCall → Call
  | .push pid size flag => .push (infos.queueId pid pid.toNat) size proc flag
  | .pop pid size flag => .pop (infos.queueId pid proc) size pid flag

/-- A call that waits: a push has the mailbox for its `pid` by then. -/
def BoxCall.waiting (infos : Infos) (proc : Nat) : BoxCall → Call
  | .push pid size flag => .push pid size proc flag
  | .pop pid size flag => .pop (infos.queueId pid proc) size pid flag

/-- `box_pop_node` returns 0 for the number of bytes. -/
def BoxCall.outcome : BoxCall → Outcome → Outcome
  | .push _ _ _, outcome => outcome
  | .pop _ _ _, .blocked => .blocked
  | .pop _ _ _, .returned value bytes => if value = 0 then .returned bytes.length bytes else .returned value bytes

def BoxAction.toMsg (infos : Infos) : BoxAction → QueueAction
  | .alloc proc pid => .make proc (infos.queueId pid pid.toNat)
  | .call proc request buffer => .call proc (request.toMsg infos proc) buffer
  | .resume proc buffer => .resume proc buffer

/-- The mailboxes as queues. -/
def BoxState.toMsg (infos : Infos) (state : BoxState) : MsgState where
  nodes := mapHeap BoxData.toMsg state.nodes
  fresh := state.fresh
  allocs id := if (state.boxes id).isSome then 1 else -1
  keys _ := 0
  queues id := (state.boxes id).map Box.toMsg
  tasks := state.tasks
  calls proc := (state.calls proc).map (BoxCall.waiting infos proc)

/-- The call whose section an action runs. -/
def BoxState.running (state : BoxState) : BoxAction → Option BoxCall
  | .alloc _ _ => none
  | .call _ call _ => some call
  | .resume proc _ => state.calls proc

/-- A result, as the message queues give it. -/
def BoxState.toResult (infos : Infos) (state : BoxState) (action : BoxAction) (result : BoxState × Outcome) :
    MsgState × Outcome :=
  (result.1.toMsg infos, match state.running action with
    | none => result.2
    | some call => call.outcome result.2)

/-- A push that runs again does so on the mailbox that it waited for. -/
def RetriesSame (infos : Infos) (state : BoxState) : BoxAction → Prop
  | .resume proc _ => ∀ pid size flag, state.calls proc = some (.push pid size flag) →
      infos.mailbox pid.toNat = pid.toNat
  | _ => True

/-- The `ppid` of a thread is the number of a PCB. -/
def InTable (infos : Infos) : Prop := ∀ i < nrPcbs, infos.mailbox i < nrPcbs

variable {state : BoxState}

/-! ## Nodes -/

theorem allocIdleBox_toMsg (count fresh : Nat) (list : SList BoxData) (slot : Slot) :
    (Box.allocIdleBox count list fresh slot).map BoxData.toMsg =
      allocIdleQueue count (list.map BoxData.toMsg) fresh slot := by
  induction count generalizing list fresh slot with
  | zero => rfl
  | succ count ih =>
      have round : (Box.allocIdleNode list fresh slot).map BoxData.toMsg =
          allocIdleNode (list.map BoxData.toMsg) fresh slot := by
        unfold Box.allocIdleNode allocIdleNode
        rw [← SList.map_store]
        simp only [SList.map, mapHeap_update]
        rfl
      unfold Box.allocIdleBox allocIdleQueue
      rw [ih, round]

theorem fillNode_toMsg (heap : SHeap BoxData) (node size : Nat) (pid : Int) (buffer : Nat → UInt8) :
    mapHeap BoxData.toMsg (Box.fillNode heap node size pid buffer) =
      fillNode (mapHeap BoxData.toMsg heap) node size pid buffer := by
  unfold Box.fillNode
  rw [mapHeap_update]
  rfl

theorem popNode_toMsg (heap : SHeap BoxData) (head : Option Nat) :
    popNode ⟨mapHeap BoxData.toMsg heap, head⟩ =
      (Box.popNode ⟨heap, head⟩).map fun (node, rest) => (node, rest.map BoxData.toMsg) :=
  SList.map_popFront BoxData.toMsg ⟨heap, head⟩

theorem pushUseNode_toMsg (heap : SHeap BoxData) (head : Option Nat) (fuel node : Nat) :
    pushUseNode ⟨mapHeap BoxData.toMsg heap, head⟩ fuel node =
      (Box.pushUseNode ⟨heap, head⟩ fuel node).map (SList.map BoxData.toMsg) :=
  SList.map_pushRear BoxData.toMsg ⟨heap, head⟩ fuel node

theorem popUseNode_toMsg (heap : SHeap BoxData) (head : Option Nat) (fuel : Nat) (pid : Int) :
    popUseNode ⟨mapHeap BoxData.toMsg heap, head⟩ fuel pid =
      (Box.popUseNode ⟨heap, head⟩ fuel pid).map (Option.map fun (node, rest) => (node, rest.map BoxData.toMsg)) :=
  SList.map_removeFirst BoxData.toMsg ⟨heap, head⟩ fuel fun data => data.type = pid

theorem pushNode_toMsg (heap : SHeap BoxData) (head : Option Nat) (node : Nat) :
    pushNode ⟨mapHeap BoxData.toMsg heap, head⟩ node = (Box.pushNode ⟨heap, head⟩ node).map BoxData.toMsg := by
  unfold Box.pushNode
  rw [SList.map_pushFront]
  unfold pushNode
  simp only [SList.map, mapHeap_update]
  rfl

/-! ## Processes -/

section

variable {id : Nat} {bp : Box}

theorem allocs_update (infos : Infos) (found : state.boxes id = some bp) (box : Box) :
    (fun i => if (Function.update state.boxes id (some box) i).isSome then (1 : Int) else -1) =
      (state.toMsg infos).allocs := by
  funext i
  by_cases same : i = id
  · subst same
    simp [BoxState.toMsg, found]
  · simp [BoxState.toMsg, same]

theorem boxes_update (infos : Infos) (state : BoxState) (id : Nat) (box : Box) :
    (fun i => (Function.update state.boxes id (some box) i).map Box.toMsg) =
      Function.update (state.toMsg infos).queues id (some box.toMsg) := by
  funext i
  by_cases same : i = id
  · subst same
    simp
  · simp [BoxState.toMsg, same]

theorem setBox_toMsg (found : state.boxes id = some bp) (box : Box) :
    (state.setBox id box).toMsg infos = (state.toMsg infos).setQueue id (some box.toMsg) := by
  have allocs := allocs_update infos found box
  have queues := boxes_update infos state id box
  unfold BoxState.setBox MsgState.setQueue
  rw [← queues]
  unfold BoxState.toMsg at allocs ⊢
  simp only at allocs ⊢
  rw [allocs]

theorem storeBox_toMsg (found : state.boxes id = some bp) (box : Box) (nodes : SHeap BoxData) :
    (state.storeBox id box nodes).toMsg infos =
      (state.toMsg infos).storeQueue id box.toMsg (mapHeap BoxData.toMsg nodes) := by
  have allocs := allocs_update infos found box
  have queues := boxes_update infos state id box
  unfold BoxState.storeBox MsgState.storeQueue
  rw [← queues]
  unfold BoxState.toMsg at allocs ⊢
  simp only at allocs ⊢
  rw [allocs]

theorem setTask_toMsg (state : BoxState) (proc : Nat) (task : Task) :
    (state.setTask proc task).toMsg infos = (state.toMsg infos).setTask proc task := rfl

theorem setCall_toMsg (state : BoxState) (proc : Nat) (call : Option BoxCall) :
    (state.setCall proc call).toMsg infos =
      (state.toMsg infos).setCall proc (call.map (BoxCall.waiting infos proc)) := by
  have calls : (fun i => (Function.update state.calls proc call i).map (BoxCall.waiting infos i)) =
      Function.update (state.toMsg infos).calls proc (call.map (BoxCall.waiting infos proc)) := by
    funext i
    by_cases same : i = proc
    · subst same
      simp
    · simp [BoxState.toMsg, same]
  unfold BoxState.setCall MsgState.setCall
  rw [← calls]
  rfl

theorem wait_toMsg (found : state.boxes id = some bp) (proc : Nat) (call : BoxCall) (box : Box) :
    (state.wait proc call id box).toMsg infos =
      (state.toMsg infos).wait proc (call.waiting infos proc) id box.toMsg := by
  unfold BoxState.wait MsgState.wait
  rw [setCall_toMsg, setTask_toMsg, setBox_toMsg found]
  rfl

theorem wakeUpIdleProcess_toMsg (found : state.boxes id = some bp) :
    (state.wakeUpIdleProcess id bp).toMsg infos = (state.toMsg infos).wakeUpIdleProcess id bp.toMsg := by
  unfold BoxState.wakeUpIdleProcess MsgState.wakeUpIdleProcess
  obtain ⟨idle, use, wIdle, wUse⟩ := bp
  cases wIdle with
  | nil => rfl
  | cons proc rest =>
      simp only [Box.toMsg]
      rw [setTask_toMsg, setBox_toMsg found]
      rfl

theorem find_toMsg (nodes : List BoxWait) (pid : Int) :
    ((nodes.map BoxWait.toMsg).find? fun node => node.type = pid) =
      (nodes.find? fun node => node.pid = pid).map BoxWait.toMsg := by
  induction nodes with
  | nil => rfl
  | cons node rest ih =>
      by_cases same : node.pid = pid
      · simp [BoxWait.toMsg, same]
      · have differ : ¬(BoxWait.toMsg node).type = pid := same
        simp only [List.map_cons, List.find?_cons, decide_eq_false differ, decide_eq_false same, ih]

theorem eraseP_toMsg (nodes : List BoxWait) (pid : Int) :
    ((nodes.map BoxWait.toMsg).eraseP fun node => node.type = pid) =
      (nodes.eraseP fun node => node.pid = pid).map BoxWait.toMsg := by
  rw [List.eraseP_map]
  rfl

theorem wakeUpUseProcess_toMsg (found : state.boxes id = some bp) (pid : Int) :
    (state.wakeUpUseProcess id bp pid).toMsg infos = (state.toMsg infos).wakeUpUseProcess id bp.toMsg pid := by
  unfold BoxState.wakeUpUseProcess MsgState.wakeUpUseProcess
  have search : (bp.toMsg.wUse.find? fun node => node.type = pid) =
      (bp.wUse.find? fun node => node.pid = pid).map BoxWait.toMsg := find_toMsg bp.wUse pid
  have rest : (bp.toMsg.wUse.eraseP fun node => node.type = pid) =
      (bp.wUse.eraseP fun node => node.pid = pid).map BoxWait.toMsg := eraseP_toMsg bp.wUse pid
  rw [search]
  cases bp.wUse.find? fun node => node.pid = pid with
  | none => rfl
  | some node =>
      simp only [Option.map_some, rest]
      rw [setTask_toMsg, setBox_toMsg found]
      rfl

end

/-! ## Sections -/

/-- The queue of a mailbox is open as soon as it is allocated. -/
theorem openQueueIn_toMsg (state : BoxState) (msqid : Int) :
    (state.toMsg infos).openQueueIn nrPcbs msqid =
      if OutOfRange msqid ∨ state.boxes msqid.toNat = none then none else some (state.toMsg infos) := by
  unfold MsgState.openQueueIn OutOfRange
  by_cases outside : msqid < 0 ∨ msqid ≥ nrPcbs
  · rw [if_pos outside, if_pos (.inl outside)]
  · rw [if_neg outside]
    cases found : state.boxes msqid.toNat with
    | none =>
        have closed : (state.toMsg infos).allocs msqid.toNat = -1 := by simp [BoxState.toMsg, found]
        rw [if_pos closed, if_pos (.inr rfl)]
    | some bp =>
        have isOpen : (state.toMsg infos).allocs msqid.toNat = 1 := by simp [BoxState.toMsg, found]
        have queue : ((state.toMsg infos).queues msqid.toNat).isSome := by simp [BoxState.toMsg, found]
        rw [isOpen, if_neg (by decide), if_pos queue, if_neg (by simp [outside])]

section

variable {proc id : Nat} {pid : Int} {bp : Box}

theorem pushOpen_toMsg (inside : ¬OutOfRange pid) (isBox : infos.mailbox pid.toNat = id)
    (found : state.boxes id = some bp) (size : Nat) (flag : Int) (buffer : Nat → UInt8) :
    (state.toMsg infos).pushOpen proc id size proc flag buffer =
      (state.boxPushNode infos proc pid size flag buffer).map fun (next, outcome) => (next.toMsg infos, outcome) := by
  unfold BoxState.boxPushNode MsgState.pushOpen
  have queue : (state.toMsg infos).queues id = some bp.toMsg := by simp [BoxState.toMsg, found]
  simp only [if_neg inside, isBox, found, Int.toNat_natCast, queue, Option.bind_eq_bind, Option.bind_some]
  have popped : popNode ⟨(state.toMsg infos).nodes, bp.toMsg.idle⟩ = _ := popNode_toMsg state.nodes bp.idle
  rw [popped]
  cases Box.popNode ⟨state.nodes, bp.idle⟩ with
  | none =>
      simp only [Option.map_none]
      split
      next => rfl
      next =>
          simp only [Option.map_some, wait_toMsg found]
          rfl
  | some pair =>
      obtain ⟨ptr, idle⟩ := pair
      simp only [Option.map_some]
      have filled : fillNode (idle.map BoxData.toMsg).heap ptr size proc buffer =
          mapHeap BoxData.toMsg (Box.fillNode idle.heap ptr size proc buffer) :=
        (fillNode_toMsg idle.heap ptr size proc buffer).symm
      have pushed : pushUseNode ⟨fillNode (idle.map BoxData.toMsg).heap ptr size proc buffer, bp.toMsg.use⟩
          ((state.toMsg infos).fresh + 1) ptr =
          (Box.pushUseNode ⟨Box.fillNode idle.heap ptr size proc buffer, bp.use⟩ (state.fresh + 1) ptr).map
            (SList.map BoxData.toMsg) := by
        rw [filled]
        exact pushUseNode_toMsg _ bp.use _ ptr
      rw [pushed]
      cases Box.pushUseNode ⟨Box.fillNode idle.heap ptr size proc buffer, bp.use⟩ (state.fresh + 1) ptr with
      | none => rfl
      | some use =>
          have stored : (state.storeBox id { bp with idle := idle.head, use := use.head } use.heap).boxes id =
              some { bp with idle := idle.head, use := use.head } := Function.update_self ..
          simp only [Option.map_some, Option.bind_some, pure]
          rw [wakeUpUseProcess_toMsg stored, storeBox_toMsg found]
          rfl

theorem popOpen_toMsg (inside : ¬OutOfRange pid) (isBox : infos.mailbox proc = id)
    (found : state.boxes id = some bp) (size : Nat) (flag : Int) :
    (state.toMsg infos).popOpen proc id size pid flag =
      (state.boxPopNode infos proc pid size flag).map fun (next, outcome) =>
        (next.toMsg infos, (BoxCall.pop pid size flag).outcome outcome) := by
  unfold BoxState.boxPopNode MsgState.popOpen
  have queue : (state.toMsg infos).queues id = some bp.toMsg := by simp [BoxState.toMsg, found]
  simp only [if_neg inside, isBox, found, Int.toNat_natCast, queue, Option.bind_eq_bind, Option.bind_some]
  have popped : popUseNode ⟨(state.toMsg infos).nodes, bp.toMsg.use⟩ ((state.toMsg infos).fresh + 1) pid = _ :=
    popUseNode_toMsg state.nodes bp.use (state.fresh + 1) pid
  rw [popped]
  cases Box.popUseNode ⟨state.nodes, bp.use⟩ (state.fresh + 1) pid with
  | none => rfl
  | some search =>
      cases search with
      | none =>
          simp only [Option.map_some, Option.map_none, Option.bind_some]
          split
          next => rfl
          next =>
              have same : (BoxCall.pop pid size flag).waiting infos proc = .pop id size pid flag := by
                simp only [BoxCall.waiting, Infos.queueId, if_neg inside, isBox]
              simp only [pure, Option.map_some, wait_toMsg found, same]
              have waiters : (bp.wUse ++ [(⟨pid, proc⟩ : BoxWait)]).map BoxWait.toMsg = bp.toMsg.wUse ++ [⟨pid, proc⟩] :=
                List.map_append
              simp only [Box.toMsg] at waiters ⊢
              rw [waiters]
              rfl
      | some pair =>
          obtain ⟨ptr, use⟩ := pair
          simp only [Option.map_some, Option.bind_some, pure]
          have pushed : pushNode ⟨(use.map BoxData.toMsg).heap, bp.toMsg.idle⟩ ptr =
              (Box.pushNode ⟨use.heap, bp.idle⟩ ptr).map BoxData.toMsg := pushNode_toMsg use.heap bp.idle ptr
          rw [pushed]
          have stored : (state.storeBox id
              { bp with idle := (Box.pushNode ⟨use.heap, bp.idle⟩ ptr).head, use := use.head }
              (Box.pushNode ⟨use.heap, bp.idle⟩ ptr).heap).boxes id =
                some { bp with idle := (Box.pushNode ⟨use.heap, bp.idle⟩ ptr).head, use := use.head } :=
            Function.update_self ..
          rw [wakeUpIdleProcess_toMsg stored, storeBox_toMsg found]
          have amount : ((use.map BoxData.toMsg).heap ptr).value.messageSize size =
              ((use.heap ptr).value.deliver size).length := by
            unfold BoxData.deliver
            rw [List.length_map, List.length_range]
            rfl
          rw [amount]
          rfl

end

/-- A section of a call, when its queue has the number `msqid`. -/
theorem push_toMsg {proc : Nat} (pid msqid : Int) (size : Nat) (flag : Int) (buffer : Nat → UInt8)
    (isBox : ¬OutOfRange pid → msqid = infos.mailbox pid.toNat) (inside : ¬OutOfRange pid → ¬OutOfRange msqid)
    (outside : OutOfRange pid → OutOfRange msqid) :
    (state.toMsg infos).runSectionIn nrPcbs proc buffer (.push msqid size proc flag) =
      (state.boxPushNode infos proc pid size flag buffer).map fun (next, outcome) => (next.toMsg infos, outcome) := by
  unfold MsgState.runSectionIn
  simp only [openQueueIn_toMsg]
  by_cases refused : OutOfRange pid
  · rw [if_pos (.inl (outside refused))]
    unfold BoxState.boxPushNode
    rw [if_pos refused]
    rfl
  · have isBox := isBox refused
    have inside := inside refused
    cases found : state.boxes (infos.mailbox pid.toNat) with
    | none =>
        rw [if_pos (.inr (by rw [isBox]; exact found))]
        unfold BoxState.boxPushNode
        simp only [if_neg refused, found]
        rfl
    | some bp =>
        have isOpen : ¬(OutOfRange msqid ∨ state.boxes msqid.toNat = none) := by
          rw [isBox, Int.toNat_natCast, found] at *
          simp [inside]
        rw [if_neg isOpen, isBox]
        exact pushOpen_toMsg refused rfl found size flag buffer

theorem pop_toMsg (inTable : InTable infos) {proc : Nat} (isProc : proc < nrPcbs) (pid : Int) (size : Nat)
    (flag : Int) (buffer : Nat → UInt8) :
    (state.toMsg infos).runSectionIn nrPcbs proc buffer (.pop (infos.queueId pid proc) size pid flag) =
      (state.boxPopNode infos proc pid size flag).map fun (next, outcome) =>
        (next.toMsg infos, (BoxCall.pop pid size flag).outcome outcome) := by
  unfold MsgState.runSectionIn Infos.queueId
  simp only [openQueueIn_toMsg]
  by_cases refused : OutOfRange pid
  · have outside : OutOfRange (-1) := .inl (by decide)
    rw [if_pos refused, if_pos (.inl outside)]
    unfold BoxState.boxPopNode
    rw [if_pos refused]
    rfl
  · have inside : ¬OutOfRange (infos.mailbox proc : Int) := by
      have low := inTable proc isProc
      unfold OutOfRange
      omega
    rw [if_neg refused]
    cases found : state.boxes (infos.mailbox proc) with
    | none =>
        rw [if_pos (.inr (by rw [Int.toNat_natCast]; exact found))]
        unfold BoxState.boxPopNode
        simp only [if_neg refused, found]
        rfl
    | some bp =>
        have isOpen : ¬(OutOfRange (infos.mailbox proc : Int) ∨ state.boxes (infos.mailbox proc : Int).toNat = none) := by
          rw [Int.toNat_natCast, found]
          simp [inside]
        rw [if_neg isOpen]
        exact popOpen_toMsg refused rfl found size flag

theorem alloc_toMsg (inTable : InTable infos) (state : BoxState) (pid : Int) :
    (state.toMsg infos).makeQueue nrPcbs (infos.queueId pid pid.toNat) =
      ((state.allocBox infos pid).1.toMsg infos, (state.allocBox infos pid).2) := by
  unfold BoxState.allocBox MsgState.makeQueue Infos.queueId
  by_cases refused : OutOfRange pid
  · rw [if_pos refused, if_pos refused, if_pos (.inl (by decide))]
  · have inside : ¬((infos.mailbox pid.toNat : Int) < 0 ∨ (infos.mailbox pid.toNat : Int) ≥ nrPcbs) := by
      have isPcb : pid.toNat < nrPcbs := by
        unfold OutOfRange at refused
        omega
      have low := inTable pid.toNat isPcb
      omega
    rw [if_neg refused, if_neg refused, if_neg inside, Int.toNat_natCast]
    simp only
    cases found : state.boxes (infos.mailbox pid.toNat) with
    | some bp =>
        have taken : (state.toMsg infos).allocs (infos.mailbox pid.toNat) ≠ -1 := by simp [BoxState.toMsg, found]
        rw [if_pos taken]
        rfl
    | none =>
        have free : ¬(state.toMsg infos).allocs (infos.mailbox pid.toNat) ≠ -1 := by simp [BoxState.toMsg, found]
        have empty : ¬((state.toMsg infos).queues (infos.mailbox pid.toNat)).isSome := by simp [BoxState.toMsg, found]
        rw [if_neg free]
        unfold MsgState.initMsgQueueIn
        rw [if_neg inside, Int.toNat_natCast]
        have list : allocIdleQueue msgmnb ⟨(state.toMsg infos).nodes, none⟩ state.fresh .head =
            (Box.allocIdleBox boxmnb ⟨state.nodes, none⟩ state.fresh .head).map BoxData.toMsg :=
          (allocIdleBox_toMsg boxmnb state.fresh ⟨state.nodes, none⟩ .head).symm
        have queues := boxes_update infos state (infos.mailbox pid.toNat)
          { idle := (Box.allocIdleBox boxmnb ⟨state.nodes, none⟩ state.fresh .head).head
            use := none
            wIdle := []
            wUse := [] }
        have allocs : Function.update (state.toMsg infos).allocs (infos.mailbox pid.toNat) 1 =
            fun i => if (Function.update state.boxes (infos.mailbox pid.toNat)
              (some
                { idle := (Box.allocIdleBox boxmnb ⟨state.nodes, none⟩ state.fresh .head).head
                  use := none
                  wIdle := []
                  wUse := [] }) i).isSome then (1 : Int) else -1 := by
          funext i
          by_cases same : i = infos.mailbox pid.toNat
          · subst same
            simp
          · simp [BoxState.toMsg, same]
        have fresh : (state.toMsg infos).fresh = state.fresh := rfl
        simp only [Bool.not_eq_true] at empty
        simp only [empty, Bool.false_eq_true, if_false, Option.isSome_none]
        rw [fresh, list, allocs]
        have queuesSame : Function.update (state.toMsg infos).queues (infos.mailbox pid.toNat) _ = _ := queues.symm
        simp only [Box.toMsg, List.map_nil] at queuesSame
        simp only [SList.map]
        rw [queuesSame]
        rfl

/-! ## Steps -/

theorem setCall_none (state : BoxState) (proc : Nat) :
    (state.setCall proc none).toMsg infos = (state.toMsg infos).setCall proc none :=
  setCall_toMsg state proc none

theorem call_toMsg (inTable : InTable infos) {proc : Nat} (isProc : proc < nrPcbs) (call : BoxCall)
    (buffer : Nat → UInt8) :
    (state.toMsg infos).runSectionIn nrPcbs proc buffer (call.toMsg infos proc) =
      (state.runSection infos proc buffer call).map fun (next, outcome) =>
        (next.toMsg infos, call.outcome outcome) := by
  cases call with
  | push pid size flag =>
      refine push_toMsg pid (infos.queueId pid pid.toNat) size flag buffer (fun inside => ?_)
        (fun inside => ?_) fun outside => ?_
      · unfold Infos.queueId
        rw [if_neg inside]
      · unfold Infos.queueId
        rw [if_neg inside]
        have isPcb : pid.toNat < nrPcbs := by
          unfold OutOfRange at inside
          omega
        have low := inTable pid.toNat isPcb
        unfold OutOfRange
        omega
      · unfold Infos.queueId
        rw [if_pos outside]
        exact .inl (by decide)
  | pop pid size flag => exact pop_toMsg inTable isProc pid size flag buffer

theorem waiting_toMsg (inTable : InTable infos) {proc : Nat} (isProc : proc < nrPcbs) (call : BoxCall)
    (buffer : Nat → UInt8)
    (same : ∀ pid size flag, call = .push pid size flag → infos.mailbox pid.toNat = pid.toNat) :
    (state.toMsg infos).runSectionIn nrPcbs proc buffer (call.waiting infos proc) =
      (state.runSection infos proc buffer call).map fun (next, outcome) =>
        (next.toMsg infos, call.outcome outcome) := by
  cases call with
  | push pid size flag =>
      refine push_toMsg pid pid size flag buffer (fun inside => ?_) id id
      rw [same pid size flag rfl]
      unfold OutOfRange at inside
      omega
  | pop pid size flag => exact pop_toMsg inTable isProc pid size flag buffer

/-- Every action does to the mailboxes what it does to the queues. -/
theorem perform_toMsg (inTable : InTable infos) (small : ∀ proc, state.calls proc ≠ none → proc < nrPcbs)
    {action : BoxAction} (guarded : RetriesSame infos state action) :
    (state.toMsg infos).performIn nrPcbs (action.toMsg infos) =
      (state.perform infos action).map (state.toResult infos action) := by
  have idle : ∀ proc, ((state.toMsg infos).calls proc).isNone = (state.calls proc).isNone := fun proc => by
    simp [BoxState.toMsg]
  cases action with
  | alloc proc pid =>
      simp only [BoxAction.toMsg, MsgState.performIn, BoxState.perform, idle]
      split
      next =>
          rw [alloc_toMsg inTable]
          rfl
      next => rfl
  | call proc call buffer =>
      simp only [BoxAction.toMsg, MsgState.performIn, BoxState.perform, idle]
      split
      next ready =>
          rw [call_toMsg inTable ready.1]
          rfl
      next => rfl
  | resume proc buffer =>
      simp only [BoxAction.toMsg, MsgState.performIn, BoxState.perform, Option.bind_eq_bind]
      cases waiting : state.calls proc with
      | none =>
          have none : (state.toMsg infos).calls proc = none := by simp [BoxState.toMsg, waiting]
          rw [none]
          rfl
      | some call =>
          have some : (state.toMsg infos).calls proc = some (call.waiting infos proc) := by
            simp [BoxState.toMsg, waiting]
          have tasks : (state.toMsg infos).tasks = state.tasks := rfl
          rw [some]
          simp only [Option.bind_some, tasks, ← setCall_none]
          split
          next => rfl
          next =>
              split
              next =>
                  have result : state.toResult infos (.resume proc buffer) (state.setCall proc none, fault) =
                      ((state.setCall proc none).toMsg infos, fault) := by
                    simp only [BoxState.toResult, BoxState.running, waiting]
                    cases call <;> rfl
                  simp only [pure, Option.map_some, result]
              next =>
                  have results : ∀ result : BoxState × Outcome, state.toResult infos (.resume proc buffer) result =
                      (result.1.toMsg infos, call.outcome result.2) := fun result => by
                    simp only [BoxState.toResult, BoxState.running, waiting]
                  have isProc : proc < nrPcbs := small proc (by rw [waiting]; exact Option.some_ne_none _)
                  have same : ∀ pid size flag, call = .push pid size flag →
                      infos.mailbox pid.toNat = pid.toNat :=
                    fun pid size flag isPush => guarded pid size flag (by rw [waiting, isPush])
                  rw [waiting_toMsg inTable isProc call buffer same]
                  congr 1
                  funext result
                  exact (results result).symm

end AempOS.Ipc
