import AempOS.Proc
import AempOS.Sched.QueueLists

/-! The scheduler of `kernel/proc.c` on the four CPUs, with the steps that write
`task.stat` of a running process: `schedule`, `sys_fork` and `sys_exec`. The
ready queues are their lists of PCBs; `ScheduleProperties` ties them to the
pointers. A call of `schedule` that never ends is a step that fails. -/

set_option autoImplicit false

namespace AempOS.Sched

open Lib

/-- `NR_PCBS` and `NR_TASKS`. -/
def nrPcbs : Nat := 64

def nrTasks : Nat := 12

/-- The fields of a PCB that the scheduler reads. -/
structure Task where
  stat : ProcStat
  ticks : Int
  baseTicks : Int
  deriving DecidableEq

abbrev Tasks := Pcb → Task

/-- The ready queues, the process table and the current process of each CPU. -/
structure SchedState where
  queue : Lists Pcb
  task : Tasks
  proc : CpuId → Pcb

def Tasks.setStat (task : Tasks) (p : Pcb) (stat : ProcStat) : Tasks :=
  Function.update task p { task p with stat }

/-- The scan of `cpu_schedule` for the `READY` process of the most ticks. -/
def scanReady (queue : List Pcb) (task : Tasks) : Option Pcb :=
  (scanGreatest (fun p => decide ((task p).stat = .ready)) (fun p => (task p).ticks) (0, none)
    queue).2

/-- Every queued process gets its `base_ticks` again. -/
def refill (queue : List Pcb) (task : Tasks) : Tasks :=
  fun p => if p ∈ queue then { task p with ticks := (task p).baseTicks } else task p

/-- The outer loop of `cpu_schedule`, for a number of passes. -/
def scheduleLoop (queue : List Pcb) : Nat → Tasks → Option (Tasks × Pcb)
  | 0, _ => none
  | passes + 1, task =>
      match scanReady queue task with
      | some p => some (task, p)
      | none => scheduleLoop queue passes (refill queue task)

/-- `cpu_schedule`. Two passes decide: a further pass finds what the second one
found, see `scheduleLoop_stable`. -/
def cpuSchedule (queue : List Pcb) (task : Tasks) (proc : Pcb) : Option (Tasks × Pcb) :=
  if (task proc).stat = .ready ∧ (task proc).ticks > 0 then some (task, proc)
  else scheduleLoop queue 2 task

/-- The writes of `schedule` to the two processes. -/
def switchStat (task : Tasks) (proc next : Pcb) : Tasks :=
  let task := task.setStat next .running
  if (task proc).stat = .running then task.setStat proc .ready else task

/-- `schedule` on `c`. -/
def SchedState.schedule (state : SchedState) (c : CpuId) : Option SchedState := do
  let (task, next) ← cpuSchedule (state.queue c) state.task (state.proc c)
  pure { state with
    task := switchStat task (state.proc c) next
    proc := Function.update state.proc c next }

/-- `alloc_PCB`: the first `IDLE` one past the kernel's own. -/
def allocPcb (task : Tasks) : Option Pcb :=
  (List.range' (nrTasks + nrInitials) (nrPcbs - (nrTasks + nrInitials))).find? fun p =>
    decide ((task p).stat = .idle)

/-- `sys_fork` by the current process of `c`. The child copies the fields of its
parent and is made `READY`; without a free PCB the call fails and changes
nothing. -/
def SchedState.fork (state : SchedState) (c : CpuId) : SchedState :=
  match allocPcb state.task with
  | none => state
  | some child =>
      { state with
        queue := state.queue.append c child
        task := Function.update state.task child
          { state.task (state.proc c) with stat := .ready } }

/-- The write of `exec_pcb_init` to the current process of `c`. -/
def SchedState.exec (state : SchedState) (c : CpuId) : SchedState :=
  { state with task := state.task.setStat (state.proc c) .ready }

/-- `load_balance` by the migration thread of `c`. -/
def SchedState.loadBalance (state : SchedState) (c : CpuId) : SchedState :=
  { state with queue := state.queue.balance c }

/-- `clock_handler` on `c`. -/
def SchedState.clock (state : SchedState) (c : CpuId) : SchedState :=
  let proc := state.proc c
  { state with
    task := Function.update state.task proc
      { state.task proc with ticks := (state.task proc).ticks - 1 } }

inductive SchedAction where
  | schedule (cpu : CpuId)
  | loadBalance (cpu : CpuId)
  | fork (cpu : CpuId)
  | exec (cpu : CpuId)
  | clock (cpu : CpuId)
  deriving DecidableEq

def SchedState.step (state : SchedState) : SchedAction → Option SchedState
  | .schedule c => state.schedule c
  | .loadBalance c => some (state.loadBalance c)
  | .fork c => some (state.fork c)
  | .exec c => some (state.exec c)
  | .clock c => some (state.clock c)

/-- The queues that `balance_ready_proc` builds. -/
def bootLists : Lists Pcb := fun c =>
  ((balanceReadyProc id).filter fun append => append.cpu = c).map Append.proc

/-- The process table that `initialize_processes` leaves. The migration threads
are `IDLE` until `wakeup_migration` makes them `READY`. -/
structure BootTasks (task : Tasks) : Prop where
  initials : ∀ p < nrInitials, (task p).stat = .ready
  migrations : ∀ p, nrInitials ≤ p → p < nrInitials + nrMigrations →
    (task p).stat = .idle ∨ (task p).stat = .ready
  tasks : ∀ p, nrInitials + nrMigrations ≤ p → p < nrInitials + nrTasks → (task p).stat = .ready
  free : ∀ p, nrInitials + nrTasks ≤ p → (task p).stat = .idle
  ticks : ∀ p < nrInitials + nrTasks, (task p).ticks = if p = 0 then 2 else 1
  base : ∀ p < nrInitials + nrTasks, (task p).baseTicks = 1

/-- The state after `balance_ready_proc`: CPU `c` runs `proc_table + c`. -/
def balancedState (task : Tasks) : SchedState where
  queue := bootLists
  task
  proc c := c

/-- One fork on each CPU, in some order. -/
def forkAll (state : SchedState) : List CpuId → SchedState
  | [] => state
  | c :: rest => forkAll (state.fork c) rest

def schedSystem : Machine SchedState SchedAction where
  initial state := ∃ task order, BootTasks task ∧ order.Perm (List.finRange numCpus) ∧
    state = forkAll (balancedState task) order
  step := SchedState.step

end AempOS.Sched
