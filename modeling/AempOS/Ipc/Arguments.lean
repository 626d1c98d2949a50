import AempOS.Ipc.Box
import AempOS.Lib.FlatMemory
import AempOS.Lib.Traced
import AempOS.Memory.PageTable

/-! The system calls of `kernel/ipc.c` that pass a buffer, with the helpers of
`kernel/argget.c` that fetch their arguments from the stack of the caller. A call
keeps a trace of the addresses at which it reads an argument or a message or writes
received data, as far as they come from the caller; every page is taken to be there.
A negative size copies as much as the size zero. -/

set_option autoImplicit false

namespace AempOS.Ipc

open Lib
open Memory (kernelLinBase)

/-- A linear address. -/
abbrev Linear := BitVec 32

/-- What a call starts from: `proc_esp`, `task.memmap.stack_lin_limit`, the memory
and `proc - proc_table`. -/
structure Caller where
  esp : Linear
  stackLinLimit : Linear
  memory : FlatMemory 32
  proc : Nat

/-- What the section of a call finds, each time it runs. -/
structure Visit where
  msgs : MsgState
  boxes : BoxState
  infos : Infos

/-! ## Arguments -/

/-- `fetchint`. -/
def fetchint (caller : Caller) (addr : Linear) : Traced Linear (BitVec 32) :=
  if addr < caller.stackLinLimit then .fail else .emit (addressRun addr 4) (caller.memory.word addr)

/-- `argint`. -/
def argint (caller : Caller) (n : Nat) : Traced Linear (BitVec 32) :=
  fetchint caller (caller.esp + 4 * BitVec.ofNat 32 n + 4)

/-- `argptr`. -/
def argptr (caller : Caller) (n : Nat) : Traced Linear Linear := do
  let ptrAddr ← argint caller n
  if ptrAddr.toNat ≥ kernelLinBase then .fail else pure ptrAddr

/-- `*ptr`. -/
def load (caller : Caller) (ptr : Linear) : Traced Linear (BitVec 32) :=
  .emit (addressRun ptr 4) (caller.memory.word ptr)

/-- A size as the bound of a loop from zero. -/
def loopBound (size : BitVec 32) : Nat := size.toInt.toNat

/-! ## Copies -/

/-- The rounds of `for(i=0;(i<size && i<MSGMAX); i++)` in a section of
`msg_queue_push_node`. -/
def MsgState.pushCopies (state : MsgState) (msqid : Int) (size : Nat) : Nat :=
  match state.openQueue msqid with
  | none => 0
  | some opened =>
      match opened.queues msqid.toNat with
      | none => 0
      | some mqp =>
          match popNode ⟨opened.nodes, mqp.idle⟩ with
          | none => 0
          | some _ => min size msgmax

/-- The rounds of `for(i=0; i<message_size; i++)` in a section of
`msg_queue_pop_node`. -/
def MsgState.popCopies (state : MsgState) (msqid : Int) (size : Nat) (type : Int) : Nat :=
  match state.openQueue msqid with
  | none => 0
  | some opened =>
      match opened.queues msqid.toNat with
      | none => 0
      | some mqp =>
          match popUseNode ⟨opened.nodes, mqp.use⟩ (opened.fresh + 1) type with
          | some (some (ptr, use)) => (use.heap ptr).value.messageSize size
          | _ => 0

/-- The rounds of the copy loop in a section of `box_push_node`. -/
def BoxState.pushCopies (infos : Infos) (state : BoxState) (pid : Int) (size : Nat) : Nat :=
  if OutOfRange pid then 0
  else
    match state.boxes (infos.mailbox pid.toNat) with
    | none => 0
    | some bp =>
        match Box.popNode ⟨state.nodes, bp.idle⟩ with
        | none => 0
        | some _ => min size boxmax

/-- The rounds of the copy loop in a section of `box_pop_node` by `proc`. -/
def BoxState.popCopies (infos : Infos) (state : BoxState) (proc : Nat) (pid : Int) (size : Nat) : Nat :=
  if OutOfRange pid then 0
  else
    match state.boxes (infos.mailbox proc) with
    | none => 0
    | some bp =>
        match Box.popUseNode ⟨state.nodes, bp.use⟩ (state.fresh + 1) pid with
        | some (some (ptr, use)) => (use.heap ptr).value.messageSize size
        | _ => 0

/-- The `pid` of `box_push_node` in each section: a thread's `pid` gives way to its
`ppid`, also for the sections that follow. -/
def pushPids (pid : Int) : List Visit → List (Int × Visit)
  | [] => []
  | visit :: rest =>
      (pid, visit) :: pushPids (if OutOfRange pid then pid else visit.infos.mailbox pid.toNat) rest

/-! ## The system calls -/

/-- `sys_msgsnd`. -/
def sysMsgsnd (caller : Caller) (visits : List Visit) : Traced Linear Unit := do
  let msqid ← argint caller 0
  let ptr ← argptr caller 1
  let size ← argint caller 2
  let _flag ← argint caller 3
  let _type ← load caller ptr
  let buffer ← load caller (ptr + 4)
  .emit (visits.flatMap fun visit =>
    addressRun buffer (visit.msgs.pushCopies msqid.toInt (loopBound size))) ()

/-- `sys_msgrcv`. -/
def sysMsgrcv (caller : Caller) (visits : List Visit) : Traced Linear Unit := do
  let msqid ← argint caller 0
  let ptr ← argptr caller 1
  let size ← argint caller 2
  let type ← argint caller 3
  let _flag ← argint caller 4
  let buffer ← load caller (ptr + 4)
  .emit (visits.flatMap fun visit =>
    addressRun buffer (visit.msgs.popCopies msqid.toInt (loopBound size) type.toInt)) ()

/-- `sys_boxsnd`. -/
def sysBoxsnd (caller : Caller) (visits : List Visit) : Traced Linear Unit := do
  let pid ← argint caller 0
  let buffer ← argptr caller 1
  let size ← argint caller 2
  let _flag ← argint caller 3
  .emit ((pushPids pid.toInt visits).flatMap fun (pid, visit) =>
    addressRun buffer (visit.boxes.pushCopies visit.infos pid (loopBound size))) ()

/-- `sys_boxrcv`. -/
def sysBoxrcv (caller : Caller) (visits : List Visit) : Traced Linear Unit := do
  let pid ← argint caller 0
  let buffer ← argptr caller 1
  let size ← argint caller 2
  let _flag ← argint caller 3
  .emit (visits.flatMap fun visit =>
    addressRun buffer (visit.boxes.popCopies visit.infos caller.proc pid.toInt (loopBound size))) ()

inductive BufferCall where
  | msgsnd
  | msgrcv
  | boxsnd
  | boxrcv

def BufferCall.run (caller : Caller) (visits : List Visit) : BufferCall → Traced Linear Unit
  | .msgsnd => sysMsgsnd caller visits
  | .msgrcv => sysMsgrcv caller visits
  | .boxsnd => sysBoxsnd caller visits
  | .boxrcv => sysBoxrcv caller visits

end AempOS.Ipc
