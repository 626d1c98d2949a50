import AempOS.Ipc.BoxSimulation
import AempOS.Ipc.MsgQueueWaits
import AempOS.Lib.Bytes
import AempOS.Memory.Memman
import AempOS.Task.ProcTable

/-! The memory of the message queues and the mailboxes. `do_kmalloc` gives the blocks
for their records, and `sys_free` takes the address of a record, reads an address and
a size from its first two words and passes them to `memman_free`. The two modules
work on records of one layout, so that their functions are written once, with the
module that owns the records. A step ends in no state when `do_kmalloc` finds no
block. -/

set_option autoImplicit false

namespace AempOS.Ipc

open Lib Memory

inductive Owner where
  | msgqueue | box
  deriving DecidableEq

/-- `MSGMAX` and `BOXMAX`. -/
def Owner.bound : Owner → Nat
  | .msgqueue => msgmax
  | .box => boxmax

/-- What `do_kmalloc` is called for: a `MSG_QUEUE`, a `MSG_QUEUE_NODE` and its buffer,
a `P_QUEUE_NODE` for a process, and the same for a `BOX`. -/
inductive Record where
  | head (owner : Owner) (id : Nat)
  | node (owner : Owner) (node : Nat)
  | buffer (owner : Owner) (node : Nat)
  | waiter (owner : Owner) (proc : Nat)
  deriving DecidableEq

/-- The `sizeof` with which a record is allocated. -/
def Record.size : Record → Nat
  | .head _ _ => 16
  | .node _ _ => 16
  | .buffer owner _ => owner.bound
  | .waiter _ _ => 12

/-- A call of `sys_free`: the record, its block unless that was released before, and
the region that is passed to `memman_free`. -/
structure Freed where
  record : Record
  block : Option FreeInfo
  region : FreeInfo

/-- The region is the block that `do_kmalloc` returned for the record. -/
def Freed.GaveBack (entry : Freed) : Prop := entry.block = some entry.region

/-- The allocator, the blocks of the records, the `size` words of the message nodes,
the first words of the `P_QUEUE_NODE`s where they are not written, and the calls of
`sys_free` so far. -/
structure IpcMemory where
  man : Memman
  blocks : Record → Option FreeInfo
  sizes : Owner → Nat → Int
  stale : Owner → Nat → Nat
  freed : List Freed

/-- An `int` as a word. -/
def intWord (value : Int) : Nat := (value % 4294967296).toNat

/-- `&proc_table[proc]`. -/
def procAddr (layout : Task.Layout) (proc : Nat) : Nat := layout.procTable + 4096 * proc

/-- The word at an offset of a message buffer. -/
def bufferWord (data : MsgData) (off : Nat) : Nat := word32 (fun i => (data.buffer i).toBitVec) off

namespace IpcMemory

/-- `do_kmalloc`. -/
def kmalloc (mem : IpcMemory) (record : Record) : Option IpcMemory :=
  let (man, addr) := memmanKalloc mem.man record.size
  if addr = failed then none
  else some { mem with man, blocks := Function.update mem.blocks record (some ⟨addr, record.size⟩) }

/-- `sys_free` of a record whose first two words are `addr` and `size`. -/
def sysFree (mem : IpcMemory) (record : Record) (addr size : Nat) : IpcMemory :=
  { mem with
    man := (memmanFree mem.man addr size).1
    blocks := Function.update mem.blocks record none
    freed := mem.freed ++ [⟨record, mem.blocks record, ⟨addr, size⟩⟩] }

/-- A pointer to a message node. -/
def nodePointer (mem : IpcMemory) (owner : Owner) : Option Nat → Nat
  | none => 0
  | some node =>
      match mem.blocks (.node owner node) with
      | none => 0
      | some block => block.addr + kernelLinBase

def setSize (mem : IpcMemory) (owner : Owner) (node : Nat) (size : Int) : IpcMemory :=
  { mem with sizes := Function.update mem.sizes owner (Function.update (mem.sizes owner) node size) }

def setStale (mem : IpcMemory) (owner : Owner) (proc word : Nat) : IpcMemory :=
  { mem with stale := Function.update mem.stale owner (Function.update (mem.stale owner) proc word) }

/-- `alloc_idle_queue` and `alloc_idle_box`. -/
def allocIdle (owner : Owner) : Nat → Nat → IpcMemory → Option IpcMemory
  | 0, _, mem => some mem
  | count + 1, node, mem => do
      let mem ← mem.kmalloc (.node owner node)
      let mem ← (mem.setSize owner node 0).kmalloc (.buffer owner node)
      allocIdle owner count (node + 1) mem

/-- `init_msg_queue` and the end of `alloc_box`. -/
def init (owner : Owner) (count id fresh : Nat) (mem : IpcMemory) : Option IpcMemory := do
  let mem ← mem.kmalloc (.head owner id)
  mem.allocIdle owner count fresh

/-- `free_queue`. -/
def freeQueue (owner : Owner) : Nat → IpcMemory → SList MsgData → Option (IpcMemory × SList MsgData)
  | 0, _, _ => none
  | fuel + 1, mem, list =>
      match popNode list with
      | none => some (mem, list)
      | some (node, rest) =>
          let data := (rest.heap node).value
          let mem := mem.sysFree (.buffer owner node) (bufferWord data 0) (bufferWord data 4)
          let mem := mem.sysFree (.node owner node) (intWord data.type) (intWord (mem.sizes owner node))
          freeQueue owner fuel mem rest

variable (layout : Task.Layout)

/-- `sys_free(ptr)` for a `P_QUEUE_NODE`. -/
def freeWaiter (owner : Owner) (mem : IpcMemory) (word proc : Nat) : IpcMemory :=
  mem.sysFree (.waiter owner proc) word (procAddr layout proc)

/-- `free_process_queue` on the senders that wait. -/
def freeSenders (owner : Owner) (mem : IpcMemory) : List Nat → IpcMemory
  | [] => mem
  | proc :: rest => freeSenders owner (mem.freeWaiter layout owner (mem.stale owner proc) proc) rest

/-- `free_process_queue` on the receivers that wait. -/
def freeReceivers (owner : Owner) (mem : IpcMemory) : List WaitNode → IpcMemory
  | [] => mem
  | node :: rest => freeReceivers owner (mem.freeWaiter layout owner (intWord node.type) node.data) rest

/-- The release of a queue by `free_msg_queue`, or of a mailbox by `free_box`. -/
def release (owner : Owner) (id : Nat) (nodes : SHeap MsgData) (fresh : Nat) (queue : MsgQueue)
    (mem : IpcMemory) : Option IpcMemory := do
  let (mem, idle) ← mem.freeQueue owner (fresh + 1) ⟨nodes, queue.idle⟩
  let (mem, use) ← mem.freeQueue owner (fresh + 1) ⟨idle.heap, queue.use⟩
  let mem := (mem.freeSenders layout owner queue.wIdle).freeReceivers layout owner queue.wUse
  pure (mem.sysFree (.head owner id) (mem.nodePointer owner idle.head) (mem.nodePointer owner use.head))

/-- `wake_up_idle_process`. -/
def wakeUpIdle (owner : Owner) (queue : MsgQueue) (mem : IpcMemory) : IpcMemory :=
  match queue.wIdle with
  | [] => mem
  | proc :: _ => mem.freeWaiter layout owner (mem.stale owner proc) proc

/-- `wake_up_use_process`. -/
def wakeUpUse (owner : Owner) (queue : MsgQueue) (type : Int) (mem : IpcMemory) : IpcMemory :=
  match queue.wUse.find? fun node => node.type = type with
  | none => mem
  | some node => mem.freeWaiter layout owner (intWord node.type) node.data

/-- `push_w_idle_process` and `push_w_use_process`, with what the first word of the
new block holds. -/
def pushWaiter (owner : Owner) (proc word : Nat) (mem : IpcMemory) : Option IpcMemory := do
  let mem ← mem.kmalloc (.waiter owner proc)
  pure (mem.setStale owner proc word)

/-- `msg_queue_push_node` and `box_push_node` on a queue that is open. -/
def push (owner : Owner) (proc : Nat) (queue : MsgQueue) (size type flag : Int) (word : Nat)
    (mem : IpcMemory) : Option IpcMemory :=
  match queue.idle with
  | none => if flag = ipcNowait then some mem else mem.pushWaiter owner proc word
  | some node => some ((mem.setSize owner node (min size owner.bound)).wakeUpUse layout owner queue type)

/-- `msg_queue_pop_node` and `box_pop_node` on a queue that is open. -/
def pop (owner : Owner) (proc : Nat) (nodes : SHeap MsgData) (fresh : Nat) (queue : MsgQueue) (type flag : Int)
    (word : Nat) (mem : IpcMemory) : Option IpcMemory := do
  match ← popUseNode ⟨nodes, queue.use⟩ (fresh + 1) type with
  | none => if flag = ipcNowait then pure mem else mem.pushWaiter owner proc word
  | some (node, _) => pure ((mem.setSize owner node 0).wakeUpIdle layout owner queue)

/-- The queue that a call opens is made unless there is one. -/
def openQueue (queues : MsgState) (id : Nat) (mem : IpcMemory) : Option IpcMemory :=
  if (queues.queues id).isSome then some mem else mem.init .msgqueue msgmnb id queues.fresh

/-- The section of a call on the message queues. -/
def queueCall (queues : MsgState) (proc : Nat) (call : Call) (size : Int) (word : Nat) (mem : IpcMemory) :
    Option IpcMemory :=
  match queues.openQueue call.msqid with
  | none => some mem
  | some opened => do
      let mem ← mem.openQueue queues call.id
      let mqp ← opened.queues call.id
      match call with
      | .push _ _ type flag => mem.push layout .msgqueue proc mqp size type flag word
      | .pop _ _ type flag => mem.pop layout .msgqueue proc opened.nodes opened.fresh mqp type flag word

/-- The section of a call on the mailboxes. -/
def boxCall (infos : Infos) (boxes : BoxState) (proc : Nat) (call : BoxCall) (size : Int) (word : Nat)
    (mem : IpcMemory) : Option IpcMemory :=
  match call with
  | .push pid _ flag =>
      if OutOfRange pid then some mem
      else
        match boxes.boxes (infos.mailbox pid.toNat) with
        | none => some mem
        | some bp => mem.push layout .box proc bp.toMsg size proc flag word
  | .pop pid _ flag =>
      if OutOfRange pid then some mem
      else
        match boxes.boxes (infos.mailbox proc) with
        | none => some mem
        | some bp => mem.pop layout .box proc (mapHeap BoxData.toMsg boxes.nodes) boxes.fresh bp.toMsg pid flag word

end IpcMemory

/-! ## The system -/

/-- The two modules, which share the processes, their memory, and the `size` argument
of the call in which a process waits. -/
structure IpcState where
  queues : MsgState
  boxes : BoxState
  mem : IpcMemory
  asked : Nat → Int

/-- A step, with what the block of a new `P_QUEUE_NODE` holds. -/
inductive IpcAction where
  | allocMsgQueue (proc : Nat) (key : Int)
  | freeMsgQueue (proc : Nat) (msqid : Int)
  | msgQueuePushNode (proc : Nat) (msqid size type flag : Int) (buffer : Nat → UInt8) (word : Nat)
  | msgQueuePopNode (proc : Nat) (msqid size type flag : Int) (buffer : Nat → UInt8) (word : Nat)
  | resumeMsgQueue (proc : Nat) (buffer : Nat → UInt8) (word : Nat)
  | allocBox (proc : Nat) (pid : Int)
  | freeBox (proc : Nat) (pid : Int)
  | boxPushNode (proc : Nat) (pid size flag : Int) (buffer : Nat → UInt8) (word : Nat)
  | boxPopNode (proc : Nat) (pid size flag : Int) (buffer : Nat → UInt8) (word : Nat)
  | resumeBox (proc : Nat) (buffer : Nat → UInt8) (word : Nat)

namespace IpcState

/-- The process is one of the table, and in no call. -/
def Ready (state : IpcState) (proc : Nat) : Prop :=
  proc < nrPcbs ∧ (state.queues.calls proc).isNone ∧ (state.boxes.calls proc).isNone

instance (state : IpcState) (proc : Nat) : Decidable (state.Ready proc) := inferInstanceAs (Decidable (_ ∧ _))

def withQueues (state : IpcState) (queues : MsgState) (mem : IpcMemory) : IpcState :=
  { state with queues, boxes := { state.boxes with tasks := queues.tasks }, mem }

def withBoxes (state : IpcState) (boxes : BoxState) (mem : IpcMemory) : IpcState :=
  { state with boxes, queues := { state.queues with tasks := boxes.tasks }, mem }

def ask (state : IpcState) (proc : Nat) (size : Int) : IpcState :=
  { state with asked := Function.update state.asked proc size }

variable (layout : Task.Layout) (infos : Infos)

/-- The section of a call on the message queues. A negative size copies no bytes, as
the size 0 does. -/
def queueSection (state : IpcState) (proc : Nat) (call : Call) (size : Int) (buffer : Nat → UInt8) (word : Nat) :
    Option IpcState := do
  let (queues, _) ← state.queues.runSection proc buffer call
  let mem ← state.mem.queueCall layout state.queues proc call size word
  pure ((state.withQueues queues mem).ask proc size)

/-- The section of a call on the mailboxes. -/
def boxSection (state : IpcState) (proc : Nat) (call : BoxCall) (size : Int) (buffer : Nat → UInt8) (word : Nat) :
    Option IpcState := do
  let (boxes, _) ← state.boxes.runSection infos proc buffer call
  let mem ← state.mem.boxCall layout infos state.boxes proc call size word
  pure ((state.withBoxes boxes mem).ask proc size)

def freeMsgQueue (state : IpcState) (msqid : Int) : Option IpcState := do
  let (queues, _) ← state.queues.freeMsgQueue msqid
  if msqid < 0 ∨ msqid ≥ msgmni then pure (state.withQueues queues state.mem)
  else
    match state.queues.queues msqid.toNat with
    | none => pure (state.withQueues queues state.mem)
    | some mqp => do
        let mem ← state.mem.release layout .msgqueue msqid.toNat state.queues.nodes state.queues.fresh mqp
        pure (state.withQueues queues mem)

def allocBox (state : IpcState) (pid : Int) : Option IpcState :=
  let (boxes, _) := state.boxes.allocBox infos pid
  if OutOfRange pid ∨ (state.boxes.boxes (infos.mailbox pid.toNat)).isSome then
    some (state.withBoxes boxes state.mem)
  else do
    let mem ← state.mem.init .box boxmnb (infos.mailbox pid.toNat) state.boxes.fresh
    pure (state.withBoxes boxes mem)

def freeBox (state : IpcState) (pid : Int) : Option IpcState := do
  let (boxes, _) ← state.boxes.freeBox infos pid
  if OutOfRange pid then pure (state.withBoxes boxes state.mem)
  else
    match state.boxes.boxes (infos.mailbox pid.toNat) with
    | none => pure (state.withBoxes boxes state.mem)
    | some bp => do
        let mem ← state.mem.release layout .box (infos.mailbox pid.toNat) (mapHeap BoxData.toMsg state.boxes.nodes)
          state.boxes.fresh bp.toMsg
        pure (state.withBoxes boxes mem)

def perform (state : IpcState) : IpcAction → Option IpcState
  | .allocMsgQueue proc key =>
      if state.Ready proc then some (state.withQueues (state.queues.allocMsgQueue key).1 state.mem) else none
  | .freeMsgQueue proc msqid => if state.Ready proc then state.freeMsgQueue layout msqid else none
  | .msgQueuePushNode proc msqid size type flag buffer word =>
      if state.Ready proc then state.queueSection layout proc (.push msqid size.toNat type flag) size buffer word
      else none
  | .msgQueuePopNode proc msqid size type flag buffer word =>
      if state.Ready proc then state.queueSection layout proc (.pop msqid size.toNat type flag) size buffer word
      else none
  | .resumeMsgQueue proc buffer word => do
      let call ← state.queues.calls proc
      let woken := state.withQueues (state.queues.setCall proc none) state.mem
      if (state.queues.tasks proc).waitingToReady = 0 then none
      else if (state.queues.tasks proc).waitingToReady = -1 then pure woken
      else woken.queueSection layout proc call (state.asked proc) buffer word
  | .allocBox proc pid => if state.Ready proc then state.allocBox infos pid else none
  | .freeBox proc pid => if state.Ready proc then state.freeBox layout infos pid else none
  | .boxPushNode proc pid size flag buffer word =>
      if state.Ready proc then state.boxSection layout infos proc (.push pid size.toNat flag) size buffer word
      else none
  | .boxPopNode proc pid size flag buffer word =>
      if state.Ready proc then state.boxSection layout infos proc (.pop pid size.toNat flag) size buffer word
      else none
  | .resumeBox proc buffer word => do
      let call ← state.boxes.calls proc
      let woken := state.withBoxes (state.boxes.setCall proc none) state.mem
      if (state.boxes.tasks proc).waitingToReady = 0 then none
      else if (state.boxes.tasks proc).waitingToReady = -1 then pure woken
      else woken.boxSection layout infos proc call (state.asked proc) buffer word

end IpcState

/-- The modules as `init_msg_queue_manage` and `init_box` leave them, with an allocator
that nothing was given back to. -/
structure IpcState.Started (state : IpcState) : Prop where
  queues : state.queues.Fresh
  boxes : state.boxes.Fresh
  tasks : state.boxes.tasks = state.queues.tasks
  blocks : ∀ record, state.mem.blocks record = none
  freed : state.mem.freed = []

def ipcSystem (layout : Task.Layout) (infos : Infos) : Machine IpcState IpcAction where
  initial := IpcState.Started
  step := IpcState.perform layout infos

end AempOS.Ipc
