import AempOS.Lib.Stack

/-! The processor as `kernel/kernel.asm` drives it: the registers, `STACK_FRAME` of
`include/proc.h`, the addresses that linking gives to the code, and the stack
instructions. Stacks are words at multiples of four. The arithmetic flags are not
modelled, and a gate clears the flags that the processor documents. -/

set_option autoImplicit false

namespace AempOS.Kernel

open Lib

structure Registers where
  gs : Nat
  fs : Nat
  es : Nat
  ds : Nat
  edi : Nat
  esi : Nat
  ebp : Nat
  ebx : Nat
  edx : Nat
  ecx : Nat
  eax : Nat
  eip : Nat
  cs : Nat
  eflags : Nat
  esp : Nat
  ss : Nat
  deriving DecidableEq, Repr

/-- Code outside ring 0; the requested privilege level of `cs` tells. -/
def Registers.user (regs : Registers) : Prop := regs.cs % 4 ≠ 0

instance (regs : Registers) : Decidable regs.user :=
  inferInstanceAs (Decidable (regs.cs % 4 ≠ 0))

/-- `STACK_FRAME`. -/
structure StackFrame where
  gs : Nat
  fs : Nat
  es : Nat
  ds : Nat
  edi : Nat
  esi : Nat
  ebp : Nat
  kernelEsp : Nat
  ebx : Nat
  edx : Nat
  ecx : Nat
  eax : Nat
  retaddr : Nat
  eip : Nat
  cs : Nat
  eflags : Nat
  esp : Nat
  ss : Nat
  deriving DecidableEq, Repr

def StackFrame.words (frame : StackFrame) : List Nat :=
  [frame.gs, frame.fs, frame.es, frame.ds, frame.edi, frame.esi, frame.ebp, frame.kernelEsp,
    frame.ebx, frame.edx, frame.ecx, frame.eax, frame.retaddr, frame.eip, frame.cs,
    frame.eflags, frame.esp, frame.ss]

def StackFrame.registers (frame : StackFrame) : Registers where
  gs := frame.gs
  fs := frame.fs
  es := frame.es
  ds := frame.ds
  edi := frame.edi
  esi := frame.esi
  ebp := frame.ebp
  ebx := frame.ebx
  edx := frame.edx
  ecx := frame.ecx
  eax := frame.eax
  eip := frame.eip
  cs := frame.cs
  eflags := frame.eflags
  esp := frame.esp
  ss := frame.ss

@[simp] theorem StackFrame.words_length (frame : StackFrame) : frame.words.length = 18 := rfl

/-- `P_STACKTOP`, and the places of some registers in the frame. -/
def pStackTop : Nat := 72
def eaxReg : Nat := 44
def retAdr : Nat := 48
def eipReg : Nat := 52
def eflagsReg : Nat := 60
def espReg : Nat := 64

def selectorKernelCs : Nat := 0x08
def selectorKernelDs : Nat := 0x10
def selectorVideo : Nat := 0x1b

/-- The instructions that take a frame off the stack, in order. -/
inductive Restore where
  | gs | fs | es | ds | popad | skip | iretd
  deriving DecidableEq, Repr

/-- Code of `kernel.asm` that is entered through an address found on a stack, and the
instructions where an interrupt may find the processor on the way back. -/
inductive Label where
  | restartInt
  | restartIntDone
  | restartSyscall
  | restartSyscallDone
  | restartException
  | restore (instruction : Restore)
  | restoreException (instruction : Restore)
  | schedPopfd
  | schedRet
  deriving DecidableEq, Repr

/-- The three ways into the kernel. -/
inductive Gate where
  | irq (line : Nat)
  | sysCall
  | vector (number : Nat)
  deriving DecidableEq, Repr

/-- `NR_PCBS`, and `INIT_STACK_SIZE` and `sizeof(PROCESS_0)` in bytes. -/
def nrPcbs : Nat := 64
def initStackSize : Nat := 4096
def process0Size : Nat := 904

/-- `StackSpace resb 2 * 1024`. -/
def irqStackSize : Nat := 2048

/-- The addresses of the linked kernel. `returned` is the address that `call save_*`
pushes and `body` the one behind the `sti` that follows. -/
structure Link where
  entry : Label → Nat
  decode : Nat → Option Label
  decode_entry : ∀ label, decode (entry label) = some label
  returned : Gate → Nat
  body : Gate → Nat
  body_open : ∀ gate, decode (body gate) = none
  stackTop : Nat
  procTable : Nat
  stack_room : irqStackSize ≤ stackTop
  stack_apart : stackTop ≤ procTable ∨
    procTable + initStackSize * nrPcbs + irqStackSize ≤ stackTop

attribute [simp] Link.decode_entry Link.body_open

/-- `proc_table + pid`. -/
def Link.pcb (link : Link) (pid : Nat) : Nat := link.procTable + initStackSize * pid

/-- `(char*)(p_proc + 1)`, where the kernel stack of a process starts. -/
def Link.top (link : Link) (pid : Nat) : Nat := link.procTable + initStackSize * pid + initStackSize

/-- The first byte behind the `PROCESS_0` that shares its union with the stack. -/
def Link.floor (link : Link) (pid : Nat) : Nat := link.procTable + initStackSize * pid + process0Size

/-- The fields of a PCB that the entry code and the calls that build a PCB use. -/
structure Task where
  regs : StackFrame
  ldtSel : Nat
  espSaveInt : Nat
  espSaveSyscall : Nat
  espSaveContext : Nat
  cr3 : Nat

/-- What a gate, `cli` and `sti` make of the flags: the gate clears the trap, the interrupt,
the nested-task, the resume and the virtual-8086 flag. -/
def gateFlags (eflags : Nat) : Nat := eflags &&& 0xFFFCBCFF
def clearIf (eflags : Nat) : Nat := eflags &&& 0xFFFFFDFF
def setIf (eflags : Nat) : Nat := eflags ||| 0x200

/-- One processor, with `proc` and `tss.esp0` of its `struct cpu`. -/
structure State where
  regs : Registers
  memory : Nat → Nat
  task : Nat → Task
  proc : Nat
  kReenter : Nat
  kernelInitial : Nat
  cr3 : Nat
  ldtr : Nat
  esp0 : Nat

namespace State

def setTask (state : State) (pid : Nat) (task : Task) : State :=
  { state with task := Function.update state.task pid task }

def pushAll (state : State) (words : List Nat) : State :=
  { state with
    memory := pushed state.memory state.regs.esp words
    regs := { state.regs with esp := state.regs.esp - 4 * words.length } }

def push (state : State) (word : Nat) : State := state.pushAll [word]

def jump (state : State) (address : Nat) : State :=
  { state with regs := { state.regs with eip := address } }

def ret (state : State) : State :=
  { state with
    regs := { state.regs with
      eip := state.memory state.regs.esp
      esp := state.regs.esp + 4 } }

def cli (state : State) : State :=
  { state with regs := { state.regs with eflags := clearIf state.regs.eflags } }

def sti (state : State) : State :=
  { state with regs := { state.regs with eflags := setIf state.regs.eflags } }

/-- `pushad` pushes the stack pointer it found. -/
def pushad (state : State) : State :=
  state.pushAll [state.regs.eax, state.regs.ecx, state.regs.edx, state.regs.ebx,
    state.regs.esp, state.regs.ebp, state.regs.esi, state.regs.edi]

/-- A gate without privilege change stays on the stack; from an outer ring the
processor takes `ss0:esp0` of the TSS. -/
def gate (state : State) : State :=
  let regs := state.regs
  let entered :=
    if regs.user then
      { state with regs := { regs with ss := selectorKernelDs, esp := state.esp0 } }.pushAll
        [regs.ss, regs.esp, regs.eflags, regs.cs, regs.eip]
    else state.pushAll [regs.eflags, regs.cs, regs.eip]
  { entered with
    regs := { entered.regs with
      cs := selectorKernelCs
      eflags := gateFlags regs.eflags } }

end State

/-- `popad` reads seven registers and passes over the stack pointer. -/
def Registers.popad (regs : Registers) (memory : Nat → Nat) : Registers :=
  { regs with
    edi := memory regs.esp
    esi := memory (regs.esp + 4)
    ebp := memory (regs.esp + 8)
    ebx := memory (regs.esp + 16)
    edx := memory (regs.esp + 20)
    ecx := memory (regs.esp + 24)
    eax := memory (regs.esp + 28)
    esp := regs.esp + 32 }

/-- `iretd` in ring 0. -/
def Registers.iretd (regs : Registers) (memory : Nat → Nat) : Registers :=
  let back := { regs with
    eip := memory regs.esp
    cs := memory (regs.esp + 4)
    eflags := memory (regs.esp + 8) }
  if memory (regs.esp + 4) % 4 ≠ 0 then
    { back with esp := memory (regs.esp + 12), ss := memory (regs.esp + 16) }
  else { back with esp := regs.esp + 12 }

/-- One of the instructions that take a frame off the stack; `next` is the address of
the following one and `gap` the bytes that `add esp` passes over. -/
def Restore.execute (instruction : Restore) (next gap : Nat) (memory : Nat → Nat)
    (regs : Registers) : Registers :=
  match instruction with
  | .gs => { regs with gs := memory regs.esp, esp := regs.esp + 4, eip := next }
  | .fs => { regs with fs := memory regs.esp, esp := regs.esp + 4, eip := next }
  | .es => { regs with es := memory regs.esp, esp := regs.esp + 4, eip := next }
  | .ds => { regs with ds := memory regs.esp, esp := regs.esp + 4, eip := next }
  | .popad => { regs.popad memory with eip := next }
  | .skip => { regs with esp := regs.esp + gap, eip := next }
  | .iretd => regs.iretd memory

def Restore.following : Restore → Restore
  | .gs => .fs
  | .fs => .es
  | .es => .ds
  | .ds => .popad
  | .popad => .skip
  | .skip => .iretd
  | .iretd => .iretd

end AempOS.Kernel
