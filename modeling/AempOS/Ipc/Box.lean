import AempOS.Ipc.MsgQueue
import AempOS.Task.ProcTable

/-! The mailboxes of `kernel/box.c`, one for each PCB. A thread uses the mailbox of
the PCB in its `ppid`. As in the message queues a section between `Begin_Int_Atomic`
and `End_Int_Atomic` is one step, `do_kmalloc` always gives new nodes and `sys_free`
has no effect. -/

set_option autoImplicit false

namespace AempOS.Ipc

open Lib

def boxmnb : Nat := 10

def boxmax : Nat := 128

def nrPcbs : Nat := AempOS.Task.nrPcbs

/-- `BOX_NODE` without its link. -/
structure BoxData where
  pid : Int
  size : Nat
  buffer : Nat → UInt8

/-- `P_QUEUE_NODE`: a process that waits for a message of a sender. -/
structure BoxWait where
  pid : Int
  data : Nat

/-- `BOX`. -/
structure Box where
  idle : Option Nat
  use : Option Nat
  wIdle : List Nat
  wUse : List BoxWait

/-- The arguments of `box_push_node` and `box_pop_node`, but for the buffer. -/
inductive BoxCall where
  | push (pid : Int) (size : Nat) (flag : Int)
  | pop (pid : Int) (size : Nat) (flag : Int)

/-- `bm_ptr`, the nodes, of which those from `fresh` on are not in use yet, the
processes, and the calls that wait. -/
structure BoxState where
  nodes : SHeap BoxData
  fresh : Nat
  boxes : Nat → Option Box
  tasks : Nat → Task
  calls : Nat → Option BoxCall

/-- `task.info` of the PCBs. -/
abbrev Infos := Nat → AempOS.Task.TreeInfo

/-- `if(type == TYPE_THREAD) pid = ppid`. -/
def Infos.mailbox (infos : Infos) (pid : Nat) : Nat :=
  match (infos pid).type with
  | .thread => (infos pid).ppid.toNat
  | .process => pid

/-- `pid < 0 || pid >= NR_PCBS`. -/
def OutOfRange (pid : Int) : Prop := pid < 0 ∨ pid ≥ nrPcbs

instance (pid : Int) : Decidable (OutOfRange pid) := inferInstanceAs (Decidable (_ ∨ _))

namespace Box

/-! ## Nodes -/

/-- One round of `alloc_idle_box`. -/
def allocIdleNode (list : SList BoxData) (node : Nat) (slot : Slot) : SList BoxData :=
  let linked := list.store slot (some node)
  let data := { (linked.heap node).value with pid := 0, size := 0 }
  { linked with heap := Function.update linked.heap node ⟨data, none⟩ }

/-- `alloc_idle_box`, with the next node and the slot it goes to. -/
def allocIdleBox : Nat → SList BoxData → Nat → Slot → SList BoxData
  | 0, list, _, _ => list
  | count + 1, list, fresh, slot => allocIdleBox count (allocIdleNode list fresh slot) (fresh + 1) (.next fresh)

/-- `pop_node`. -/
def popNode (list : SList BoxData) : Option (Nat × SList BoxData) := list.popFront

/-- `push_node`. -/
def pushNode (list : SList BoxData) (node : Nat) : SList BoxData :=
  let cleared := { list.heap node with value := { (list.heap node).value with size := 0, pid := 0 } }
  SList.pushFront { list with heap := Function.update list.heap node cleared } node

/-- `push_use_node`. -/
def pushUseNode (list : SList BoxData) (fuel node : Nat) : Option (SList BoxData) := list.pushRear fuel node

/-- `pop_use_node`. -/
def popUseNode (list : SList BoxData) (fuel : Nat) (pid : Int) : Option (Option (Nat × SList BoxData)) :=
  list.removeFirst fuel fun data => data.pid = pid

/-- `free_queue`. -/
def freeQueue : Nat → SList BoxData → Option (SList BoxData)
  | 0, _ => none
  | fuel + 1, list =>
      match popNode list with
      | none => some list
      | some (_, rest) => freeQueue fuel rest

/-- The copy of a message into a node. -/
def fillNode (heap : SHeap BoxData) (node size : Nat) (pid : Int) (buffer : Nat → UInt8) : SHeap BoxData :=
  Function.update heap node {
    value := {
      pid
      size := if size > boxmax then boxmax else size
      buffer := fun i => if i < size ∧ i < boxmax then buffer i else (heap node).value.buffer i }
    next := none }

end Box

/-- `message_size`. -/
def BoxData.messageSize (data : BoxData) (size : Nat) : Nat :=
  if size > data.size then data.size else size

/-- The bytes that a node delivers. -/
def BoxData.deliver (data : BoxData) (size : Nat) : List UInt8 :=
  (List.range (data.messageSize size)).map data.buffer

namespace BoxState

def setTask (state : BoxState) (proc : Nat) (task : Task) : BoxState :=
  { state with tasks := Function.update state.tasks proc task }

def setBox (state : BoxState) (id : Nat) (box : Box) : BoxState :=
  { state with boxes := Function.update state.boxes id (some box) }

def setCall (state : BoxState) (proc : Nat) (call : Option BoxCall) : BoxState :=
  { state with calls := Function.update state.calls proc call }

/-- A mailbox and the nodes after an operation on its lists. -/
def storeBox (state : BoxState) (id : Nat) (box : Box) (nodes : SHeap BoxData) : BoxState :=
  { state with boxes := Function.update state.boxes id (some box), nodes }

/-- `wake_up_idle_process`. -/
def wakeUpIdleProcess (state : BoxState) (id : Nat) (box : Box) : BoxState :=
  match box.wIdle with
  | [] => state
  | proc :: rest => (state.setBox id { box with wIdle := rest }).setTask proc ((state.tasks proc).wake 1)

/-- `wake_up_use_process`. -/
def wakeUpUseProcess (state : BoxState) (id : Nat) (box : Box) (pid : Int) : BoxState :=
  match box.wUse.find? fun node => node.pid = pid with
  | none => state
  | some node =>
      let rest := box.wUse.eraseP fun node => node.pid = pid
      (state.setBox id { box with wUse := rest }).setTask node.data ((state.tasks node.data).wake 1)

/-- `free_process_queue`. -/
def freeProcessQueue (state : BoxState) : List Nat → BoxState
  | [] => state
  | proc :: rest => freeProcessQueue (state.setTask proc ((state.tasks proc).wake (-1))) rest

/-- Put the caller into a wait queue. -/
def wait (state : BoxState) (proc : Nat) (call : BoxCall) (id : Nat) (box : Box) : BoxState :=
  ((state.setBox id box).setTask proc (state.tasks proc).sleep).setCall proc (some call)

/-! ## The system calls -/

/-- `alloc_box`. -/
def allocBox (infos : Infos) (state : BoxState) (pid : Int) : BoxState × Outcome :=
  if OutOfRange pid then (state, fault)
  else
    let pid := infos.mailbox pid.toNat
    if (state.boxes pid).isSome then (state, fault)
    else
      let list := Box.allocIdleBox boxmnb ⟨state.nodes, none⟩ state.fresh .head
      ({ state with
          nodes := list.heap
          fresh := state.fresh + boxmnb
          boxes := Function.update state.boxes pid
            (some { idle := list.head, use := none, wIdle := [], wUse := [] }) }, .returned 0 [])

/-- `free_box`. -/
def freeBox (infos : Infos) (state : BoxState) (pid : Int) : Option (BoxState × Outcome) :=
  if OutOfRange pid then some (state, fault)
  else
    let pid := infos.mailbox pid.toNat
    match state.boxes pid with
    | none => some (state, .returned 0 [])
    | some bp => do
        let idle ← Box.freeQueue (state.fresh + 1) ⟨state.nodes, bp.idle⟩
        let use ← Box.freeQueue (state.fresh + 1) ⟨idle.heap, bp.use⟩
        let emptied := { state with boxes := Function.update state.boxes pid none, nodes := use.heap }
        pure ((emptied.freeProcessQueue bp.wIdle).freeProcessQueue (bp.wUse.map BoxWait.data), .returned 0 [])

/-- The section of `box_push_node` by `proc`. A call that waits goes on with the `pid`
that it has by then. -/
def boxPushNode (infos : Infos) (state : BoxState) (proc : Nat) (pid : Int) (size : Nat) (flag : Int)
    (buffer : Nat → UInt8) : Option (BoxState × Outcome) :=
  if OutOfRange pid then some (state, fault)
  else
    let pid := infos.mailbox pid.toNat
    match state.boxes pid with
    | none => some (state, fault)
    | some bp =>
        match Box.popNode ⟨state.nodes, bp.idle⟩ with
        | none =>
            if flag = ipcNowait then some (state, fault)
            else some (state.wait proc (.push pid size flag) pid { bp with wIdle := bp.wIdle ++ [proc] }, .blocked)
        | some (ptr, idle) => do
            let use ← Box.pushUseNode ⟨Box.fillNode idle.heap ptr size proc buffer, bp.use⟩ (state.fresh + 1) ptr
            let box := { bp with idle := idle.head, use := use.head }
            pure ((state.storeBox pid box use.heap).wakeUpUseProcess pid box proc, .returned 0 [])

/-- The section of `box_pop_node` by `proc`. -/
def boxPopNode (infos : Infos) (state : BoxState) (proc : Nat) (pid : Int) (size : Nat) (flag : Int) :
    Option (BoxState × Outcome) :=
  if OutOfRange pid then some (state, fault)
  else
    let id := infos.mailbox proc
    match state.boxes id with
    | none => some (state, fault)
    | some bp => do
        match ← Box.popUseNode ⟨state.nodes, bp.use⟩ (state.fresh + 1) pid with
        | none =>
            if flag = ipcNowait then pure (state, fault)
            else
              pure (state.wait proc (.pop pid size flag) id { bp with wUse := bp.wUse ++ [⟨pid, proc⟩] }, .blocked)
        | some (ptr, use) =>
            let data := (use.heap ptr).value
            let idle := Box.pushNode ⟨use.heap, bp.idle⟩ ptr
            let box := { bp with idle := idle.head, use := use.head }
            pure ((state.storeBox id box idle.heap).wakeUpIdleProcess id box, .returned 0 (data.deliver size))

def runSection (infos : Infos) (state : BoxState) (proc : Nat) (buffer : Nat → UInt8) :
    BoxCall → Option (BoxState × Outcome)
  | .push pid size flag => state.boxPushNode infos proc pid size flag buffer
  | .pop pid size flag => state.boxPopNode infos proc pid size flag

end BoxState

inductive BoxAction where
  | alloc (proc : Nat) (pid : Int)
  /-- A new call, with what the buffer holds. -/
  | call (proc : Nat) (call : BoxCall) (buffer : Nat → UInt8)
  /-- A call that was woken returns, or runs its section again. -/
  | resume (proc : Nat) (buffer : Nat → UInt8)

namespace BoxState

def perform (infos : Infos) (state : BoxState) : BoxAction → Option (BoxState × Outcome)
  | .alloc proc pid => if (state.calls proc).isNone then some (state.allocBox infos pid) else none
  | .call proc call buffer =>
      if proc < nrPcbs ∧ (state.calls proc).isNone then state.runSection infos proc buffer call else none
  | .resume proc buffer => do
      let call ← state.calls proc
      let woken := state.setCall proc none
      if (state.tasks proc).waitingToReady = 0 then none
      else if (state.tasks proc).waitingToReady = -1 then pure (woken, fault)
      else woken.runSection infos proc buffer call

/-- What `init_box` leaves. -/
structure Fresh (state : BoxState) : Prop where
  boxes : ∀ id, state.boxes id = none
  calls : ∀ proc, state.calls proc = none

end BoxState

end AempOS.Ipc
