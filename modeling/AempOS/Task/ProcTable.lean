import AempOS.Proc
import AempOS.Memory.Fork

/-! The process table, and what `sys_fork` of `kernel/fork.c` and `sys_pthread` of
`kernel/pthread.c` do to it. `alloc_PCB` takes `allocPCBlock` and the calls release
it at their end, so one call runs at a time; when there is no free PCB the lock is
never released. The page directory that `init_page_pte` leaves in `cr3` is an
argument here. -/

set_option autoImplicit false

namespace AempOS.Task

open Lib Memory

def nrPcbs : Nat := 64

def nrTasks : Nat := 12

def nrInitials : Nat := 4

/-- `TYPE_PROCESS` and `TYPE_THREAD`. -/
inductive ProcType where
  | process | thread
  deriving DecidableEq, Repr

/-- `TREE_INFO`. -/
structure TreeInfo where
  type : ProcType
  realPpid : Int
  ppid : Int
  childPNum : Nat
  childProcess : Nat → Nat
  childTNum : Nat
  childThread : Nat → Nat
  textHold : Bool
  dataHold : Bool

/-- The whole `LIN_MEMMAP`. -/
structure Memmap extends LinMemmap where
  heapLinLimit : Nat
  kernelLinBase : Nat
  kernelLinLimit : Nat
  stackChildLimit : Nat

/-- The memory map after `sys_exec`: `exec_load` enters the text and the data, and
`exec_pcb_init` the rest. -/
def execMemmap (textBase textLimit dataBase dataLimit : Nat) : Memmap where
  textLinBase := textBase
  textLinLimit := textLimit
  dataLinBase := dataBase
  dataLinLimit := dataLimit
  vpageLinBase := 0x40000000
  vpageLinLimit := 0x40000000
  heapLinBase := Memory.heapLinBase
  heapLinLimit := Memory.heapLinBase
  stackChildLimit := heapLinLimitMax
  stackLinBase := 0xBFFFEFFC
  stackLinLimit := 0xBFFFAFFC
  argLinBase := 0xBFFFF000
  argLinLimit := 0xBFFFF000
  kernelLinBase := Memory.kernelLinBase
  kernelLinLimit := Memory.kernelLinBase + kernelSize

/-- The words of a `STACK_FRAME` by which the calls patch a copy. -/
def eaxReg : Nat := 11

def eipReg : Nat := 13

def eflagsReg : Nat := 15

def espReg : Nat := 16

/-- `PROCESS`. `stackTop` is the frame at the top of its kernel stack. -/
structure Pcb where
  regs : Nat → Nat
  stackTop : Nat → Nat
  ldtSel : Nat
  espSaveInt : Nat
  espSaveContext : Nat
  memmap : Memmap
  info : TreeInfo
  pid : Nat
  pName : String
  stat : ProcStat
  cr3 : Nat
  filp : Nat → Option Nat

/-- Where the linker puts `proc_table`, in words of the kernel's window. -/
structure Layout where
  procTable : Nat
  aligned : procTable % 4 = 0
  low : Memory.kernelLinBase ≤ procTable
  high : procTable + nrPcbs * 4096 ≤ Memory.kernelLinBase + kernelSize

/-- `&proc_table[i].task.memmap.heap_lin_base`. -/
def Layout.heapBaseField (layout : Layout) (i : Nat) : Nat := layout.procTable + 4096 * i + 132

/-- `&proc_table[i].task.memmap.heap_lin_limit`. -/
def Layout.heapLimitField (layout : Layout) (i : Nat) : Nat := layout.procTable + 4096 * i + 136

structure Tasks where
  table : Nat → Pcb
  allocPcbLock : Bool
  uProcSum : Nat

def Tasks.modify (tasks : Tasks) (i : Nat) (change : Pcb → Pcb) : Tasks :=
  { tasks with table := Function.update tasks.table i (change (tasks.table i)) }

/-- `alloc_PCB`, with `none` while another call holds the lock. -/
def Tasks.allocPcb (tasks : Tasks) : Option (Tasks × Option Nat) :=
  if tasks.allocPcbLock then none
  else
    some ({ tasks with allocPcbLock := true },
      (List.range' (nrTasks + nrInitials) (nrPcbs - (nrTasks + nrInitials))).find? fun i =>
        (tasks.table i).stat = .idle)

/-- The copy of a PCB that keeps what identifies the child. -/
def pcbCpy (child parent : Pcb) (cr3 : Nat) : Pcb :=
  { parent with
    stat := .idle
    espSaveInt := child.espSaveInt
    espSaveContext := child.espSaveContext
    stackTop := Function.update parent.stackTop eflagsReg (child.stackTop eflagsReg)
    pid := child.pid
    ldtSel := child.ldtSel
    cr3 := cr3 }

/-- `fork_pcb_cpy`. -/
def forkPcbCpy (child parent : Pcb) : Pcb := pcbCpy child parent child.cr3

/-- `pthread_pcb_cpy`. -/
def pthreadPcbCpy (child parent : Pcb) : Pcb := pcbCpy child parent parent.cr3

def addChildProcess (pid : Nat) (pcb : Pcb) : Pcb :=
  { pcb with info := { pcb.info with
      childPNum := pcb.info.childPNum + 1
      childProcess := Function.update pcb.info.childProcess pcb.info.childPNum pid } }

def addChildThread (pid : Nat) (pcb : Pcb) : Pcb :=
  { pcb with info := { pcb.info with
      childTNum := pcb.info.childTNum + 1
      childThread := Function.update pcb.info.childThread pcb.info.childTNum pid } }

/-- What both `update_info` functions enter in the child. -/
def childInfo (type : ProcType) (realPpid ppid : Nat) (dataHold : Bool) (pcb : Pcb) : Pcb :=
  { pcb with info := { pcb.info with
      type := type
      realPpid := realPpid
      ppid := ppid
      childPNum := 0
      childTNum := 0
      textHold := false
      dataHold := dataHold } }

namespace Tasks

def typeOf (tasks : Tasks) (i : Nat) : ProcType := (tasks.table i).info.type

/-- `fork_update_info`. The child has the type of its parent. -/
def forkUpdateInfo (tasks : Tasks) (proc child : Nat) : Tasks :=
  let counted := tasks.modify proc (addChildProcess (tasks.table child).pid)
  counted.modify child
    (childInfo (counted.typeOf proc) (counted.table proc).pid (counted.table proc).pid true)

/-- `pthread_update_info`. -/
def pthreadUpdateInfo (tasks : Tasks) (proc child parent : Nat) : Tasks :=
  let pid := (tasks.table child).pid
  let told := if parent ≠ proc then tasks.modify parent (addChildThread pid) else tasks
  let counted := told.modify proc (addChildThread pid)
  counted.modify child (childInfo .thread (counted.table proc).pid (counted.table parent).pid false)

/-- The addresses of `pthread_stack_init`, which cuts 16 KB off the parent. -/
def pthreadStackInit (tasks : Tasks) (child parent : Nat) : Tasks :=
  let limit := (tasks.table parent).memmap.stackChildLimit
  let limited := tasks.modify child fun pcb =>
    { pcb with memmap := { pcb.memmap with stackLinLimit := limit } }
  let cut := limited.modify parent fun pcb =>
    { pcb with memmap := { pcb.memmap with stackChildLimit := add32 pcb.memmap.stackChildLimit 0x4000 } }
  let base := sub32 (cut.table parent).memmap.stackChildLimit 4
  cut.modify child fun pcb =>
    { pcb with
      memmap := { pcb.memmap with stackLinBase := base }
      regs := Function.update pcb.regs espReg base
      stackTop := Function.update pcb.stackTop espReg base }

/-- `pthread_heap_init`: the two fields of the child are pointers now. -/
def pthreadHeapInit (layout : Layout) (tasks : Tasks) (child parent : Nat) : Tasks :=
  tasks.modify child fun pcb =>
    { pcb with memmap := { pcb.memmap with
        heapLinBase := layout.heapBaseField parent
        heapLinLimit := layout.heapLimitField parent } }

def setEip (tasks : Tasks) (child entry : Nat) : Tasks :=
  tasks.modify child fun pcb =>
    { pcb with
      regs := Function.update pcb.regs eipReg entry
      stackTop := Function.update pcb.stackTop eipReg entry }

/-- The end of both calls: the name and the result of the child, its state, and the
release of the lock. -/
def launch (tasks : Tasks) (child : Nat) (name : String) : Tasks :=
  let named := tasks.modify child fun pcb =>
    { pcb with
      pName := name
      regs := Function.update pcb.regs eaxReg 0
      stackTop := Function.update pcb.stackTop eaxReg 0
      stat := .ready }
  { named with uProcSum := named.uProcSum + 1, allocPcbLock := false }

/-- `sys_fork` by `proc`, where `dir` is the page directory that `init_page_pte`
leaves in the child. -/
def sysFork (tasks : Tasks) (proc dir : Nat) : Option (Tasks × Int) :=
  tasks.allocPcb.map fun (locked, found) =>
    match found with
    | none => (locked, -1)
    | some child =>
        let made := locked.modify child fun pcb => { pcb with cr3 := dir }
        let copied := made.modify child fun pcb => forkPcbCpy pcb (made.table proc)
        let launched := (copied.forkUpdateInfo proc child).launch child "fork"
        (launched, (launched.table child).pid)

/-- The process that owns the stacks and the heap of the caller. -/
def parentOf (tasks : Tasks) (proc : Nat) : Nat :=
  match tasks.typeOf proc with
  | .thread => (tasks.table proc).info.ppid.toNat
  | .process => proc

/-- `sys_pthread` by `proc`. -/
def sysPthread (layout : Layout) (tasks : Tasks) (proc entry : Nat) : Option (Tasks × Int) :=
  tasks.allocPcb.map fun (locked, found) =>
    match found with
    | none => (locked, -1)
    | some child =>
        let parent := locked.parentOf proc
        let copied := locked.modify child fun pcb => pthreadPcbCpy pcb (locked.table parent)
        let stacked := copied.pthreadStackInit child parent
        let started := (stacked.pthreadHeapInit layout child parent).setEip child entry
        let launched := (started.pthreadUpdateInfo proc child parent).launch child "pthread"
        (launched, (launched.table child).pid)

end Tasks

inductive TaskCall where
  | fork (proc dir : Nat)
  | pthread (proc entry : Nat)

/-- The process or thread that calls. -/
def TaskCall.caller : TaskCall → Nat
  | .fork proc _ => proc
  | .pthread proc _ => proc

/-- A PCB that is in use. -/
def Tasks.Created (tasks : Tasks) (i : Nat) : Prop := i < nrPcbs ∧ (tasks.table i).stat ≠ .idle

instance (tasks : Tasks) (i : Nat) : Decidable (tasks.Created i) := inferInstanceAs (Decidable (_ ∧ _))

def Tasks.perform (layout : Layout) (tasks : Tasks) (call : TaskCall) : Option (Tasks × Int) :=
  if tasks.Created call.caller then
    match call with
    | .fork proc dir => tasks.sysFork proc dir
    | .pthread proc entry => tasks.sysPthread layout proc entry
  else none

/-- The table that `initialize_processes` leaves: only PCBs below the first that
`alloc_PCB` gives out are in use, all of them processes. -/
structure Tasks.Booted (tasks : Tasks) : Prop where
  pid : ∀ i < nrPcbs, (tasks.table i).pid = i
  type : ∀ i < nrPcbs, tasks.typeOf i = .process
  free : ∀ i < nrPcbs, nrTasks + nrInitials ≤ i → (tasks.table i).stat = .idle
  unlocked : tasks.allocPcbLock = false

/-- Runs of `sys_fork` and `sys_pthread`. -/
def taskSystem (layout : Layout) : Machine Tasks TaskCall where
  initial := Tasks.Booted
  step tasks call := (tasks.perform layout call).map Prod.fst

end AempOS.Task
