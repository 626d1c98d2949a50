import AempOS.Task.ProcTable
import AempOS.Lib.Transition

/-! `sys_fork` and `sys_pthread` by several callers at a time. `allocPCBlock` is
taken in `alloc_PCB`, and each look at a PCB, the work on the child, its `READY` and
the release are steps of their own: between any two of them the other callers go
on. A call remembers the tasks as they were when it took the lock. -/

set_option autoImplicit false

namespace AempOS.Task

open Lib

namespace Tasks

/-- What `sys_fork` does with the child up to its `READY`. -/
def forkChild (tasks : Tasks) (proc child dir : Nat) : Tasks :=
  let made := tasks.modify child fun pcb => { pcb with cr3 := dir }
  let copied := made.modify child fun pcb => forkPcbCpy pcb (made.table proc)
  copied.forkUpdateInfo proc child

/-- What `sys_pthread` does with the child up to its `READY`. -/
def pthreadChild (layout : Layout) (tasks : Tasks) (proc child entry : Nat) : Tasks :=
  let parent := tasks.parentOf proc
  let copied := tasks.modify child fun pcb => pthreadPcbCpy pcb (tasks.table parent)
  let stacked := copied.pthreadStackInit child parent
  let started := (stacked.pthreadHeapInit layout child parent).setEip child entry
  started.pthreadUpdateInfo proc child parent

/-- `launch` before it releases the lock. -/
def publish (tasks : Tasks) (child : Nat) (name : String) : Tasks :=
  { tasks.launch child name with allocPcbLock := tasks.allocPcbLock }

/-- `release(&allocPCBlock)` -/
def unlock (tasks : Tasks) : Tasks := { tasks with allocPcbLock := false }

/-- `acquire(&allocPCBlock)`, once it gets through. -/
def lock (tasks : Tasks) : Tasks := { tasks with allocPcbLock := true }

end Tasks

def TaskCall.work (layout : Layout) (call : TaskCall) (tasks : Tasks) (child : Nat) : Tasks :=
  match call with
  | .fork proc dir => tasks.forkChild proc child dir
  | .pthread proc entry => tasks.pthreadChild layout proc child entry

def TaskCall.childName : TaskCall → String
  | .fork _ _ => "fork"
  | .pthread _ _ => "pthread"

/-- Where a caller is. `before` has the tasks at its `acquire`. -/
inductive CreationPhase where
  /-- In no call. -/
  | away
  /-- In `acquire`. -/
  | spinning (call : TaskCall)
  /-- At the head of the loop of `alloc_PCB`. -/
  | searching (call : TaskCall) (before : Tasks) (i : Nat)
  /-- Back from `alloc_PCB` with a PCB. -/
  | found (call : TaskCall) (before : Tasks) (child : Nat)
  /-- Before the child is made `READY`. -/
  | worked (call : TaskCall) (before : Tasks) (child : Nat)
  /-- Before the release. -/
  | published (call : TaskCall) (before : Tasks) (child : Nat)

/-- A call that has returned: the tasks at its `acquire` and at its end, the PCB that
it got and its result. -/
structure Returned where
  call : TaskCall
  before : Tasks
  child : Option Nat
  result : Int
  after : Tasks

structure CreationState where
  tasks : Tasks
  phase : Nat → CreationPhase
  returned : List Returned

/-- A caller moves on, with the tasks as they are now. -/
def CreationState.goTo (state : CreationState) (caller : Nat) (tasks : Tasks) (phase : CreationPhase) :
    CreationState :=
  { state with tasks, phase := Function.update state.phase caller phase }

/-- A call returns. -/
def CreationState.giveBack (state : CreationState) (caller : Nat) (record : Returned) : CreationState :=
  { tasks := record.after
    phase := Function.update state.phase caller .away
    returned := record :: state.returned }

/-- The next step of the call that a caller is in. -/
def CreationState.proceed (layout : Layout) (state : CreationState) (caller : Nat) : Option CreationState :=
  match state.phase caller with
  | .away => none
  | .spinning call =>
      if state.tasks.allocPcbLock then none
      else some (state.goTo caller state.tasks.lock (.searching call state.tasks (nrTasks + nrInitials)))
  | .searching call before i =>
      if i < nrPcbs then
        if (state.tasks.table i).stat = .idle then some (state.goTo caller state.tasks (.found call before i))
        else some (state.goTo caller state.tasks (.searching call before (i + 1)))
      else
        some (state.giveBack caller { call, before, child := none, result := -1, after := state.tasks })
  | .found call before child =>
      some (state.goTo caller (call.work layout state.tasks child) (.worked call before child))
  | .worked call before child =>
      some (state.goTo caller (state.tasks.publish child call.childName) (.published call before child))
  | .published call before child =>
      let after := state.tasks.unlock
      some (state.giveBack caller
        { call, before, child := some child, result := (after.table child).pid, after })

inductive CreationAction where
  | call (call : TaskCall)
  | proceed (caller : Nat)

def CreationState.step (layout : Layout) (state : CreationState) : CreationAction → Option CreationState
  | .call call =>
      match state.phase call.caller with
      | .away => some (state.goTo call.caller state.tasks (.spinning call))
      | _ => none
  | .proceed caller => state.proceed layout caller

/-- Any table, the lock as `initlock` leaves it, and nobody in a call. -/
def creationSystem (layout : Layout) : Machine CreationState CreationAction where
  initial state := state.tasks.allocPcbLock = false ∧ (∀ caller, state.phase caller = .away) ∧
    state.returned = []
  step := CreationState.step layout

end AempOS.Task
