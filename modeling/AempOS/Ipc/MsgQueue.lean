import AempOS.Lib.SinglyLinked
import AempOS.Lib.Transition
import AempOS.Proc

/-! The message queues of `kernel/msgqueue.c`. Message nodes live in a heap and are
moved between the idle and the use list of their queue through pointers to
pointers. A section between `Begin_Int_Atomic` and `End_Int_Atomic` is one step; a
call that found nothing to do waits, and runs its section again once it is woken.
`do_kmalloc` always gives new nodes, and `sys_free` has no effect. -/

set_option autoImplicit false

namespace AempOS.Ipc

open Lib

def ipcNowait : Int := 0

def msgmnb : Nat := 10

def msgmax : Nat := 128

def msgmni : Nat := 10

/-- `MSG_QUEUE_NODE` without its link. -/
structure MsgData where
  type : Int
  size : Nat
  buffer : Nat → UInt8

/-- `P_QUEUE_NODE`: a process that waits for a message of a type. -/
structure WaitNode where
  type : Int
  data : Nat
  deriving DecidableEq

/-- `MSG_QUEUE`. -/
structure MsgQueue where
  idle : Option Nat
  use : Option Nat
  wIdle : List Nat
  wUse : List WaitNode

structure Task where
  stat : ProcStat
  ticks : Int
  priority : Int
  waitingToReady : Int

/-- The arguments of `msg_queue_push_node` and `msg_queue_pop_node`, but for the
buffer. -/
inductive Call where
  | push (msqid : Int) (size : Nat) (type flag : Int)
  | pop (msqid : Int) (size : Nat) (type flag : Int)
  deriving DecidableEq

/-- `mqm_ptr`, the nodes, of which those from `fresh` on are not in use yet, the
processes, and the calls that wait. -/
structure MsgState where
  nodes : SHeap MsgData
  fresh : Nat
  allocs : Nat → Int
  keys : Nat → Int
  queues : Nat → Option MsgQueue
  tasks : Nat → Task
  calls : Nat → Option Call

/-- How a section ends: the call returns a value and delivers bytes, or it waits. -/
inductive Outcome where
  | returned (value : Int) (bytes : List UInt8)
  | blocked
  deriving DecidableEq

def fault : Outcome := .returned (-1) []

/-! ## Nodes -/

/-- One round of `alloc_idle_queue`: the node is linked and cleared. -/
def allocIdleNode (list : SList MsgData) (node : Nat) (slot : Slot) : SList MsgData :=
  let linked := list.store slot (some node)
  let data := { (linked.heap node).value with type := 0, size := 0 }
  { linked with heap := Function.update linked.heap node ⟨data, none⟩ }

/-- `alloc_idle_queue`, with the next node and the slot it goes to. -/
def allocIdleQueue : Nat → SList MsgData → Nat → Slot → SList MsgData
  | 0, list, _, _ => list
  | count + 1, list, fresh, slot =>
      allocIdleQueue count (allocIdleNode list fresh slot) (fresh + 1) (.next fresh)

/-- `pop_node`. -/
def popNode (list : SList MsgData) : Option (Nat × SList MsgData) := list.popFront

/-- `push_node`. -/
def pushNode (list : SList MsgData) (node : Nat) : SList MsgData :=
  let cleared := { list.heap node with value := { (list.heap node).value with size := 0, type := 0 } }
  SList.pushFront { list with heap := Function.update list.heap node cleared } node

/-- `push_use_node`. -/
def pushUseNode (list : SList MsgData) (fuel node : Nat) : Option (SList MsgData) :=
  list.pushRear fuel node

/-- `pop_use_node`. -/
def popUseNode (list : SList MsgData) (fuel : Nat) (type : Int) : Option (Option (Nat × SList MsgData)) :=
  list.removeFirst fuel fun data => data.type = type

/-- `free_queue`. -/
def freeQueue : Nat → SList MsgData → Option (SList MsgData)
  | 0, _ => none
  | fuel + 1, list =>
      match popNode list with
      | none => some list
      | some (_, rest) => freeQueue fuel rest

/-- The copy of a message into a node. -/
def fillNode (heap : SHeap MsgData) (node size : Nat) (type : Int) (buffer : Nat → UInt8) :
    SHeap MsgData :=
  Function.update heap node {
    value := {
      type
      size := if size > msgmax then msgmax else size
      buffer := fun i => if i < size ∧ i < msgmax then buffer i else (heap node).value.buffer i }
    next := none }

/-- `message_size`. -/
def MsgData.messageSize (data : MsgData) (size : Nat) : Nat :=
  if size > data.size then data.size else size

/-- The bytes that a node delivers. -/
def MsgData.deliver (data : MsgData) (size : Nat) : List UInt8 :=
  (List.range (data.messageSize size)).map data.buffer

/-! ## Processes -/

def Task.sleep (task : Task) : Task :=
  { task with stat := .waiting, ticks := 0, waitingToReady := 0 }

def Task.wake (task : Task) (waitingToReady : Int) : Task :=
  { task with stat := .ready, ticks := task.priority, waitingToReady }

namespace MsgState

def setTask (state : MsgState) (pid : Nat) (task : Task) : MsgState :=
  { state with tasks := Function.update state.tasks pid task }

def setQueue (state : MsgState) (id : Nat) (queue : Option MsgQueue) : MsgState :=
  { state with queues := Function.update state.queues id queue }

/-- A queue and the nodes after an operation on its lists. -/
def storeQueue (state : MsgState) (id : Nat) (queue : MsgQueue) (nodes : SHeap MsgData) : MsgState :=
  { state with queues := Function.update state.queues id (some queue), nodes }

def setCall (state : MsgState) (pid : Nat) (call : Option Call) : MsgState :=
  { state with calls := Function.update state.calls pid call }

/-- `wake_up_idle_process`. -/
def wakeUpIdleProcess (state : MsgState) (id : Nat) (queue : MsgQueue) : MsgState :=
  match queue.wIdle with
  | [] => state
  | pid :: rest =>
      (state.setQueue id (some { queue with wIdle := rest })).setTask pid ((state.tasks pid).wake 1)

/-- `wake_up_use_process`. -/
def wakeUpUseProcess (state : MsgState) (id : Nat) (queue : MsgQueue) (type : Int) : MsgState :=
  match queue.wUse.find? fun node => node.type = type with
  | none => state
  | some node =>
      let rest := queue.wUse.eraseP fun node => node.type = type
      (state.setQueue id (some { queue with wUse := rest })).setTask node.data
        ((state.tasks node.data).wake 1)

/-- `free_process_queue`. -/
def freeProcessQueue (state : MsgState) : List Nat → MsgState
  | [] => state
  | pid :: rest => freeProcessQueue (state.setTask pid ((state.tasks pid).wake (-1))) rest

/-! ## The system calls -/

/-- One round of the loop of `alloc_msg_queue`, on `f` and `a`. -/
def scanId (state : MsgState) (key : Int) (found : Int × Int) (i : Nat) : Int × Int :=
  (if state.allocs i ≠ -1 ∧ state.keys i = key then (i : Int) else found.1,
    if state.allocs i = -1 then (i : Int) else found.2)

/-- `alloc_msg_queue`. -/
def allocMsgQueue (state : MsgState) (key : Int) : MsgState × Outcome :=
  let (f, a) := (List.range msgmni).foldl (state.scanId key) (-1, -1)
  let next :=
    if f = -1 ∧ a ≠ -1 then
      { state with
        allocs := Function.update state.allocs a.toNat 1
        keys := Function.update state.keys a.toNat key }
    else state
  (next, .returned (if f ≠ -1 then f else a) [])

/-- `init_msg_queue`. -/
def initMsgQueue (state : MsgState) (msqid : Int) : MsgState × Int :=
  if msqid < 0 ∨ msqid ≥ msgmni then (state, -1)
  else if (state.queues msqid.toNat).isSome then (state, -1)
  else
    let list := allocIdleQueue msgmnb ⟨state.nodes, none⟩ state.fresh .head
    ({ state with
        nodes := list.heap
        fresh := state.fresh + msgmnb
        queues := Function.update state.queues msqid.toNat
          (some { idle := list.head, use := none, wIdle := [], wUse := [] }) }, 0)

/-- The checks with which both calls begin. -/
def openQueue (state : MsgState) (msqid : Int) : Option MsgState :=
  if msqid < 0 ∨ msqid ≥ msgmni then none
  else if state.allocs msqid.toNat = -1 then none
  else if (state.queues msqid.toNat).isSome then some state
  else
    let (next, err) := state.initMsgQueue msqid
    if err < 0 then none else some next

/-- Put the caller into a wait queue. -/
def wait (state : MsgState) (pid : Nat) (call : Call) (id : Nat) (queue : MsgQueue) : MsgState :=
  ((state.setQueue id (some queue)).setTask pid (state.tasks pid).sleep).setCall pid (some call)

/-- The section of `msg_queue_push_node` on an open queue. -/
def pushOpen (state : MsgState) (pid : Nat) (msqid : Int) (size : Nat) (type flag : Int)
    (buffer : Nat → UInt8) : Option (MsgState × Outcome) := do
  let id := msqid.toNat
  let mqp ← state.queues id
  match popNode ⟨state.nodes, mqp.idle⟩ with
  | none =>
      if flag = ipcNowait then pure (state, fault)
      else
        pure (state.wait pid (.push msqid size type flag) id { mqp with wIdle := mqp.wIdle ++ [pid] },
          .blocked)
  | some (ptr, idle) =>
      let use ← pushUseNode ⟨fillNode idle.heap ptr size type buffer, mqp.use⟩ (state.fresh + 1) ptr
      let queue := { mqp with idle := idle.head, use := use.head }
      pure ((state.storeQueue id queue use.heap).wakeUpUseProcess id queue type, .returned 0 [])

/-- The section of `msg_queue_pop_node` on an open queue. -/
def popOpen (state : MsgState) (pid : Nat) (msqid : Int) (size : Nat) (type flag : Int) :
    Option (MsgState × Outcome) := do
  let id := msqid.toNat
  let mqp ← state.queues id
  match ← popUseNode ⟨state.nodes, mqp.use⟩ (state.fresh + 1) type with
  | none =>
      if flag = ipcNowait then pure (state, fault)
      else
        pure (state.wait pid (.pop msqid size type flag) id
          { mqp with wUse := mqp.wUse ++ [⟨type, pid⟩] }, .blocked)
  | some (ptr, use) =>
      let data := (use.heap ptr).value
      let idle := pushNode ⟨use.heap, mqp.idle⟩ ptr
      let queue := { mqp with idle := idle.head, use := use.head }
      pure ((state.storeQueue id queue idle.heap).wakeUpIdleProcess id queue,
        .returned (data.messageSize size) (data.deliver size))

/-- The section of a call, from the beginning. -/
def runSection (state : MsgState) (pid : Nat) (buffer : Nat → UInt8) : Call → Option (MsgState × Outcome)
  | .push msqid size type flag =>
      match state.openQueue msqid with
      | none => some (state, fault)
      | some opened => opened.pushOpen pid msqid size type flag buffer
  | .pop msqid size type flag =>
      match state.openQueue msqid with
      | none => some (state, fault)
      | some opened => opened.popOpen pid msqid size type flag

/-- The entry of an id that is not allocated. -/
def closeId (state : MsgState) (id : Nat) : MsgState :=
  { state with
    allocs := Function.update state.allocs id (-1)
    keys := Function.update state.keys id 0 }

/-- The release of a queue, with the nodes as they are left. -/
def dropQueue (state : MsgState) (id : Nat) (nodes : SHeap MsgData) : MsgState :=
  { state with queues := Function.update state.queues id none, nodes }

/-- `free_msg_queue`. -/
def freeMsgQueue (state : MsgState) (msqid : Int) : Option (MsgState × Outcome) :=
  if msqid < 0 ∨ msqid ≥ msgmni then some (state, fault)
  else
    let id := msqid.toNat
    match state.queues id with
    | none => some (state.closeId id, .returned 0 [])
    | some mqp => do
        let idle ← freeQueue (state.fresh + 1) ⟨state.nodes, mqp.idle⟩
        let use ← freeQueue (state.fresh + 1) ⟨idle.heap, mqp.use⟩
        let emptied := (state.closeId id).dropQueue id use.heap
        pure ((emptied.freeProcessQueue mqp.wIdle).freeProcessQueue (mqp.wUse.map WaitNode.data),
          .returned 0 [])

end MsgState

inductive MsgAction where
  | alloc (pid : Nat) (key : Int)
  | free (pid : Nat) (msqid : Int)
  /-- A new call, with what the buffer holds. -/
  | call (pid : Nat) (call : Call) (buffer : Nat → UInt8)
  /-- A call that was woken returns, or runs its section again. -/
  | resume (pid : Nat) (buffer : Nat → UInt8)

namespace MsgState

def perform (state : MsgState) : MsgAction → Option (MsgState × Outcome)
  | .alloc pid key =>
      if (state.calls pid).isNone then some (state.allocMsgQueue key) else none
  | .free pid msqid => if (state.calls pid).isNone then state.freeMsgQueue msqid else none
  | .call pid call buffer =>
      if (state.calls pid).isNone then state.runSection pid buffer call else none
  | .resume pid buffer => do
      let call ← state.calls pid
      let woken := state.setCall pid none
      if (state.tasks pid).waitingToReady = 0 then none
      else if (state.tasks pid).waitingToReady = -1 then pure (woken, fault)
      else woken.runSection pid buffer call

/-- What `init_msg_queue_manage` leaves. -/
structure Fresh (state : MsgState) : Prop where
  allocs : ∀ id, state.allocs id = -1
  keys : ∀ id, state.keys id = 0
  queues : ∀ id, state.queues id = none
  calls : ∀ pid, state.calls pid = none

end MsgState

end AempOS.Ipc
