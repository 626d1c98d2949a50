import AempOS.Lib.DoublyLinked
import AempOS.Lib.Scan
import AempOS.Lib.Transition
import Mathlib.Algebra.GroupWithZero.Nat
import Mathlib.Data.List.FinRange

/-! The ready queues of the four CPUs, `struct ready_queue` of `include/cpu.h`,
with the code of `kernel/proc.c` and `kernel/ktest.c` that links their nodes.
Every operation runs on the pointers; it gives `none` when it reads or writes
through a null or dangling link. -/

set_option autoImplicit false

namespace AempOS.Sched

open Lib

/-- `NCPU`. -/
abbrev numCpus : Nat := 4

/-- `NR_STABLE_PROC`, the nodes at the front of a queue that do not migrate. -/
def nrStableProc : Nat := 3

/-- `NR_INITIALS` and `NR_MIGRATIONS`, both defined as `NCPU`. -/
def nrInitials : Nat := numCpus

def nrMigrations : Nat := numCpus

theorem numCpus_ne_zero : numCpus ≠ 0 := by decide

instance : NeZero numCpus := ⟨numCpus_ne_zero⟩

abbrev CpuId := Fin numCpus

/-- A PCB, named by its index in `proc_table`. -/
abbrev Pcb := Nat

/-- Addresses of the blocks that `do_kmalloc` gives out. -/
abbrev Addr := Nat

abbrev Heap := DHeap Addr Pcb

/-- `struct ready_queue`. -/
structure ReadyQueue where
  front : Option Addr
  rear : Option Addr
  deriving DecidableEq

/-- The part of `struct cpu` that the queue code uses. -/
structure CpuQueue where
  ready : ReadyQueue
  nrReadyProc : Int
  deriving DecidableEq

/-- The node heap, the queues, and the PCBs that were ever added to one. -/
structure Queues where
  heap : Heap
  cpu : CpuId → CpuQueue
  added : List Pcb

/-- `init_ready_queue` on every CPU. -/
def emptyQueues : Queues where
  heap _ := none
  cpu _ := { ready := { front := none, rear := none }, nrReadyProc := 0 }
  added := []

/-- `add_ready_queue`, where `p` is the block that `do_kmalloc` returned. -/
def addReadyQueue (heap : Heap) (rq : ReadyQueue) (p : Addr) (proc : Pcb) :
    Option (Heap × ReadyQueue) :=
  let heap := heap.store p { value := proc, prev := none, next := none }
  match rq.rear with
  | none => some (heap, { front := some p, rear := some p })
  | some rear => do
      let heap ← heap.setPrev (some p) (some rear)
      let heap ← heap.setNext (some rear) (some p)
      pure (heap, { rq with rear := some p })

/-- `add_ready_queue(&c->ready, p); c->nr_ready_proc++;` -/
def Queues.add (queues : Queues) (c : CpuId) (p : Addr) (proc : Pcb) : Option Queues := do
  let (heap, ready) ← addReadyQueue queues.heap (queues.cpu c).ready p proc
  pure {
    heap
    cpu := Function.update queues.cpu c
      { ready, nrReadyProc := (queues.cpu c).nrReadyProc + 1 }
    added := proc :: queues.added }

/-- `find_busiest_cpu`. `busiest_c` stays unset when no load is above zero. -/
def findBusiestCpu (load : CpuId → Int) : Option CpuId :=
  (scanGreatest (fun _ => true) load (0, none) (List.finRange numCpus)).2

/-- `move_proc_num`, with the truncating division of C. -/
def moveProcNum (des src : CpuQueue) : Int :=
  (src.nrReadyProc - des.nrReadyProc).tdiv 2

/-- Follow `next` links from a pointer. -/
def walk (heap : Heap) : Nat → Option Addr → Option (Option Addr)
  | 0, p => some p
  | steps + 1, p => (heap.read p).bind fun cell => walk heap steps cell.next

/-- `move_ready_proc`. -/
def moveReadyProc (queues : Queues) (des src : CpuId) : Option Queues := do
  let p ← walk queues.heap nrStableProc (queues.cpu src).ready.front
  let cell ← queues.heap.read p
  let heap ← queues.heap.setNext cell.prev cell.next
  let cell ← heap.read p
  let heap ← heap.setPrev cell.next cell.prev
  let cpu := Function.update queues.cpu src
    { queues.cpu src with nrReadyProc := (queues.cpu src).nrReadyProc - 1 }
  let heap ← heap.setPrev p (cpu des).ready.rear
  let heap ← heap.setNext p none
  let heap ← heap.setNext (cpu des).ready.rear p
  pure {
    queues with
    heap
    cpu := Function.update cpu des {
      ready := { (cpu des).ready with rear := p }
      nrReadyProc := (cpu des).nrReadyProc + 1 } }

/-- The loop of `load_balance`. -/
def moveReadyProcs (des src : CpuId) : Nat → Queues → Option Queues
  | 0, queues => some queues
  | count + 1, queues => (moveReadyProc queues des src).bind (moveReadyProcs des src count)

/-- `load_balance`, run on `cpu`. -/
def loadBalance (queues : Queues) (cpu : CpuId) : Option Queues := do
  let busiest ← findBusiestCpu fun c => (queues.cpu c).nrReadyProc
  if busiest = cpu then pure queues
  else moveReadyProcs cpu busiest (moveProcNum (queues.cpu cpu) (queues.cpu busiest)).toNat queues

/-- `resort_ready_proc`, run on `cpu`. -/
def resortReadyProc (queues : Queues) (cpu : CpuId) : Option Queues := do
  let ready := (queues.cpu cpu).ready
  let front ← queues.heap.read ready.front
  let pMov := front.next
  let pInit := ready.rear
  let init ← queues.heap.read pInit
  let rear := init.prev
  let mov ← queues.heap.read pMov
  let heap ← queues.heap.setNext pInit mov.next
  let heap ← heap.setPrev pInit pMov
  let mov ← heap.read pMov
  let heap ← heap.setPrev mov.next pInit
  let heap ← heap.setNext pMov pInit
  let heap ← heap.setNext rear none
  pure {
    queues with
    heap
    cpu := Function.update queues.cpu cpu
      { queues.cpu cpu with ready := { ready with rear } } }

/-- One append of a fork, a `pthread` or the boot code. -/
structure Append where
  cpu : CpuId
  block : Addr
  proc : Pcb
  deriving DecidableEq

def Queues.addAll : List Append → Queues → Option Queues
  | [], queues => some queues
  | append :: rest, queues =>
      (queues.add append.cpu append.block append.proc).bind (Queues.addAll rest)

/-- The appends of the three loops of `balance_ready_proc`, where `block p` is
the node made for `proc_table + p`: the initial processes and the migration
threads go to one CPU each, and the four kernel threads after them to CPU 0. -/
def balanceReadyProc (block : Pcb → Addr) : List Append :=
  let loop (c : CpuId) (p : Pcb) : Append := { cpu := c, block := block p, proc := p }
  (List.finRange numCpus).map (fun c => loop c c) ++
  (List.finRange numCpus).map (fun c => loop c (nrInitials + c)) ++
  (List.range 4).map fun i => loop 0 (nrInitials + nrMigrations + i)

/-- The boot sequence: `balance_ready_proc`, then one fork on each CPU, in any
order. Blocks are distinct, and so are the PCBs. -/
def Booted (queues : Queues) : Prop :=
  ∃ (block : Pcb → Addr) (forks : List Append),
    (forks.map Append.cpu).Perm (List.finRange numCpus) ∧
      ((balanceReadyProc block ++ forks).map Append.block).Nodup ∧
      ((balanceReadyProc block ++ forks).map Append.proc).Nodup ∧
      emptyQueues.addAll (balanceReadyProc block ++ forks) = some queues

inductive Action where
  /-- A fork or a `pthread`. -/
  | add (append : Append)
  | loadBalance (cpu : CpuId)
  /-- The endless loop of `initial`, on CPU 0. -/
  | resort
  deriving DecidableEq

def step (queues : Queues) : Action → Option Queues
  | .add append => queues.add append.cpu append.block append.proc
  | .loadBalance cpu => loadBalance queues cpu
  | .resort => resortReadyProc queues 0

/-- What `do_kmalloc` and `alloc_PCB` promise to an append: the block is not in
use and the PCB is in no queue yet. -/
def FreshAppend (queues : Queues) : Action → Prop
  | .add append => queues.heap append.block = none ∧ append.proc ∉ queues.added
  | _ => True

/-- The ready queues after boot. A step fails only on a null or dangling link. -/
def queueSystem : Machine Queues Action where
  initial := Booted
  step := step

end AempOS.Sched
