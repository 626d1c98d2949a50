import AempOS.Task.TreeProperties
import AempOS.Memory.KernelHalf

/-! The calls of processes and threads on their address spaces: `sys_fork`,
`sys_pthread` and `sys_malloc` with the page tables. The page directory and the end
of the heap of a process are fields of its PCB. A call for which there is no frame
has no result here. -/

set_option autoImplicit false

namespace AempOS.Task

open Lib Memory

/-- The process table and what `PageState` has besides. -/
structure Kernel where
  tasks : Tasks
  man : Memman
  mem : Nat → Nat
  cr2Save : Nat
  cr2Count : Nat

namespace Kernel

def memmap (kernel : Kernel) (i : Nat) : Memmap := (kernel.tasks.table i).memmap

/-- The page tables, with the fields of the PCBs that lead to them. -/
def pages (kernel : Kernel) : PageState where
  man := kernel.man
  mem := kernel.mem
  cr3 i := (kernel.tasks.table i).cr3
  heapLimit i := (kernel.memmap i).heapLinLimit
  cr2Save := kernel.cr2Save
  cr2Count := kernel.cr2Count

/-- Memory after a call, with the table that the call leaves. -/
def settle (tasks : Tasks) (pages : PageState) : Kernel where
  tasks := tasks
  man := pages.man
  mem := pages.mem
  cr2Save := pages.cr2Save
  cr2Count := pages.cr2Count

/-- `sys_fork` by `proc`: `init_page_pte` and `fork_mem_cpy` with the child that
`alloc_PCB` finds, and what the call does to the table. -/
def sysFork (kernel : Kernel) (proc : Nat) : Option (Kernel × Int) := do
  let (locked, found) ← kernel.tasks.allocPcb
  match found with
  | none => pure ({ kernel with tasks := locked }, -1)
  | some child =>
      let pages ← kernel.pages.sysFork (kernel.memmap proc).toLinMemmap proc child
      let (tasks, result) ← kernel.tasks.sysFork proc (pages.cr3 child)
      pure (settle tasks pages, result)

/-- The loop of `pthread_stack_init`. -/
def mapStack (pages : PageState) (proc child : Nat) (map : Memmap) : Option PageState :=
  pages.overArea
    (fun state lin => state.mapOk proc lin failed child (pgP + pgUsu + pgRww) (pgP + pgUsu + pgRww))
    (descending map.stackLinLimit loopFuel map.stackLinBase)

/-- `sys_pthread` by `proc`: what the call does to the table, and the stack of the
child. -/
def sysPthread (layout : Layout) (kernel : Kernel) (proc entry : Nat) : Option (Kernel × Int) := do
  let (locked, found) ← kernel.tasks.allocPcb
  match found with
  | none => pure ({ kernel with tasks := locked }, -1)
  | some child =>
      let (tasks, result) ← kernel.tasks.sysPthread layout proc entry
      let threaded := { kernel with tasks := tasks }
      let pages ← mapStack threaded.pages proc child (threaded.memmap child)
      pure (settle tasks pages, result)

/-- The PCB whose end of the heap a pointer leads to. -/
def heapOwner (layout : Layout) (kernel : Kernel) (proc : Nat) : Option Nat :=
  match kernel.tasks.typeOf proc with
  | .process => some proc
  | .thread => (List.range nrPcbs).find? fun i => layout.heapLimitField i = (kernel.memmap proc).heapLinLimit

/-- `vmalloc`, with `none` for a pointer that leads out of the table. -/
def vmalloc (layout : Layout) (kernel : Kernel) (proc size : Nat) : Option (Kernel × Nat) :=
  (kernel.heapOwner layout proc).map fun owner =>
    ({ kernel with tasks := kernel.tasks.modify owner fun pcb =>
        { pcb with memmap := { pcb.memmap with heapLinLimit := add32 pcb.memmap.heapLinLimit size } } },
      (kernel.memmap owner).heapLinLimit)

/-- The addresses that `for (int addr = base; addr < limit; addr += num_4B)` visits,
as `u32` values. -/
def wordsBelow (limit : Nat) : Nat → Nat → Option (List Nat)
  | 0, _ => none
  | fuel + 1, addr =>
      if PageState.asInt addr < PageState.asInt limit then
        (wordsBelow limit fuel (add32 addr 4)).map (addr :: ·)
      else some []

/-- There are no more words than these. -/
def wordFuel : Nat := 1073741825

/-- `sys_malloc` by `proc`, and the address that it returns. `size` is the `int` as a
`u32` value. -/
def sysMalloc (layout : Layout) (kernel : Kernel) (proc size : Nat) : Option (Kernel × Nat) := do
  let (reserved, addr) ← kernel.vmalloc layout proc size
  let pages ← reserved.pages.overArea
    (fun state lin => state.mapOk proc lin failed proc (pgP + pgUsu + pgRww) (pgP + pgUsu + pgRww))
    (wordsBelow (add32 addr size) wordFuel addr)
  pure (settle reserved.tasks pages, addr)

/-- `sys_malloc` also where there is no frame: the loop does not look at what
`lin_mapping_phy` returns. -/
def sysMallocAnyway (layout : Layout) (kernel : Kernel) (proc size : Nat) : Option (Kernel × Nat) := do
  let (reserved, addr) ← kernel.vmalloc layout proc size
  let pages ← reserved.pages.overArea
    (fun state lin =>
      (state.linMappingPhy proc lin failed proc (pgP + pgUsu + pgRww) (pgP + pgUsu + pgRww)).map Prod.fst)
    (wordsBelow (add32 addr size) wordFuel addr)
  pure (settle reserved.tasks pages, addr)

end Kernel

inductive SpaceCall where
  | fork (proc : Nat)
  | pthread (proc entry : Nat)
  | malloc (proc size : Nat)

def SpaceCall.caller : SpaceCall → Nat
  | .fork proc => proc
  | .pthread proc _ => proc
  | .malloc proc _ => proc

/-- A call and its result, an address for `sys_malloc` and a pid else. -/
def Kernel.perform (layout : Layout) (kernel : Kernel) (call : SpaceCall) : Option (Kernel × Int) :=
  if kernel.tasks.Created call.caller then
    match call with
    | .fork proc => kernel.sysFork proc
    | .pthread proc entry => kernel.sysPthread layout proc entry
    | .malloc proc size => (kernel.sysMalloc layout proc size).map fun result => (result.1, (result.2 : Int))
  else none

/-- The page of the kernel is mapped as `init_page_pte` maps it. -/
def Kernel.KernelKept (kernel : Kernel) (i : Nat) : Prop :=
  ∀ page, KernelPage page → kernel.pages.entry (kernel.pages.cr3 i) page = kernelEntry page

/-- The numbers of a memory map are `u32` values. -/
structure Memmap.Words (map : Memmap) : Prop where
  fits : map.toLinMemmap.Fits
  heapLinLimit : map.heapLinLimit < 4294967296
  stackChildLimit : map.stackChildLimit < 4294967296

/-- The address space of a PCB is known, and the heap of a thread is a pair of
pointers. -/
structure Lodged (layout : Layout) (dirs : List Nat) (face : Face) : Prop where
  cr3 : face.cr3 ∈ dirs
  words : face.memmap.Words
  heap : face.type = .thread → ∃ owner < nrPcbs, face.ppid = owner ∧
    face.memmap.heapLinBase = layout.heapBaseField owner ∧ face.memmap.heapLinLimit = layout.heapLimitField owner

/-- Every PCB in use has an address space of its own or that of its process, and the pages
of the kernel are mapped as `init_page_pte` maps them. The calls keep this. -/
structure Housed (layout : Layout) (dirs : List Nat) (kernel : Kernel) : Prop where
  spaces : Spaces dirs kernel.pages
  trusted : Trusted kernel.man
  pinned : ∀ dir ∈ dirs, ∀ page, KernelPage page →
    Pinned kernel.pages dir page (4096 * (page - kernelPage), pgP + pgRww)
  tree : TreeSound kernel.tasks
  lodged : ∀ i, kernel.tasks.Created i → Lodged layout dirs (kernel.tasks.faces i)

/-- The PCB is a process that `sys_exec` set up, whatever else is in use. -/
structure Kernel.Execed (layout : Layout) (dirs : List Nat) (owner : Nat) (kernel : Kernel) : Prop where
  housed : Housed layout dirs kernel
  created : kernel.tasks.Created owner
  isProcess : kernel.tasks.typeOf owner = .process
  execed : ∃ textBase textLimit dataBase dataLimit,
    kernel.memmap owner = execMemmap textBase textLimit dataBase dataLimit

/-- Runs of any processes and threads, an exec'ed process among them. -/
def spaceSystem (layout : Layout) : Machine Kernel SpaceCall where
  initial kernel := ∃ dirs owner, kernel.Execed layout dirs owner
  step kernel call := (kernel.perform layout call).map Prod.fst

end AempOS.Task
