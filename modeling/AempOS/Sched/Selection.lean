import AempOS.Sched.Schedule

/-! `cpu_schedule` and `schedule` of `kernel/proc.c` on the nodes of the ready
queue, as the code walks them. Both loops are bounded here: `steps` bounds a walk
along the nodes, `passes` the rounds of the outer loop. `Schedule` has the same
functions on the lists of the queues. -/

set_option autoImplicit false

namespace AempOS.Sched

open Lib

/-- The body of the first loop: `greatest_ticks` with the `p_return` that goes
with it. -/
def considerNode (task : Tasks) (best : Int × Option Pcb) (p : Pcb) : Int × Option Pcb :=
  if (task p).stat = .ready ∧ (task p).ticks > best.1 then ((task p).ticks, some p) else best

/-- The body of the second loop, `p->task.ticks = p->task.base_ticks`. -/
def refillNode (task : Tasks) (p : Pcb) : Tasks :=
  Function.update task p { task p with ticks := (task p).baseTicks }

/-- The outer loop of `cpu_schedule`. A `p_return` of `none` is a pointer that
was never set. -/
def selectLoop (heap : Heap) (front : Option Addr) (steps : Nat) :
    Nat → Tasks → Option (Tasks × Option Pcb)
  | 0, _ => none
  | passes + 1, task => do
      let (greatestTicks, pReturn) ← heap.traverse (considerNode task) steps front (0, none)
      if greatestTicks = 0 then
        let task ← heap.traverse refillNode steps front task
        selectLoop heap front steps passes task
      else pure (task, pReturn)

/-- `cpu_schedule` on `c`, whose current process is `proc`. -/
def cpuScheduleNodes (queues : Queues) (c : CpuId) (steps passes : Nat) (task : Tasks) (proc : Pcb) :
    Option (Tasks × Option Pcb) :=
  if (task proc).stat = .ready ∧ (task proc).ticks > 0 then some (task, some proc)
  else selectLoop queues.heap (queues.cpu c).ready.front steps passes task

/-- `schedule` on `c`: the process table it leaves and the new current process. -/
def scheduleNodes (queues : Queues) (c : CpuId) (steps passes : Nat) (task : Tasks) (proc : Pcb) :
    Option (Tasks × Pcb) := do
  let (task, pProcNext) ← cpuScheduleNodes queues c steps passes task proc
  let next ← pProcNext
  pure (switchStat task proc next, next)

end AempOS.Sched
