import AempOS.Kernel.Cpu

/-! `kernel/kernel.asm` on one processor: `save_int`, `save_syscall` and `save_exception`,
the hardware interrupts, the exceptions and `sys_call`, `sched` and `renew_env`, and the
`restart_*` code, with `schedule`, `switch_pde` and `renew_tss` as far as they are used
there. Code with interrupts disabled runs in one step; with interrupts enabled the way
back goes instruction by instruction. The C code between `sti` and `cli`, with the
`push` and `pop` of its argument, runs as any other code does. The ports of the 8259 and
the words that called C functions leave below the stack pointer are left out. -/

set_option autoImplicit false

namespace AempOS.Kernel

open Lib

/-- `mov dx, value`. -/
def lowWord (register value : Nat) : Nat := register / 65536 * 65536 + value % 65536

/-- `ds` and `es` from `ss`, and `SELECTOR_VIDEO - 2` in `gs`, by way of `dx`. -/
def kernelSegments (regs : Registers) : Registers :=
  { regs with
    ds := regs.ss, es := regs.ss
    gs := selectorVideo - 2
    edx := lowWord regs.edx (selectorVideo - 2) }

namespace State

variable (link : Link)

/-- `pushad` and the segment registers. -/
def saveRegisters (state : State) : State :=
  state.pushad.pushAll [state.regs.ds, state.regs.es, state.regs.fs, state.regs.gs]

/-- `mov ebx, 0x4; mov edx, [fs:ebx]`. -/
def currentInEdx (state : State) : State :=
  { state with regs := { state.regs with ebx := 4, edx := link.pcb state.proc } }

/-- `mov ebx, 0x4; mov eax, [fs:ebx]`. -/
def currentInEax (state : State) : State :=
  { state with regs := { state.regs with ebx := 4, eax := link.pcb state.proc } }

def saveInt (state : State) : State :=
  let state := state.saveRegisters
  if state.kReenter = 0 then
    let state := state.currentInEdx link
    let state := state.setTask state.proc
      { state.task state.proc with espSaveInt := state.regs.esp }
    let state := { state with regs := kernelSegments state.regs }
    let state := { state with
      regs := { state.regs with esi := state.regs.esp, esp := link.stackTop } }
    let state := state.push (link.entry .restartInt)
    state.jump (state.memory (state.regs.esi + retAdr))
  else
    let state := state.push (link.entry (.restore .gs))
    state.jump (state.memory (state.regs.esp + 4 + retAdr))

def saveSyscall (state : State) : State :=
  let state := state.saveRegisters
  let ebx := state.regs.ebx
  let state := state.currentInEdx link
  let state := { state with regs := { state.regs with ebx := ebx } }
  let state := state.setTask state.proc
    { state.task state.proc with espSaveSyscall := state.regs.esp }
  let state := { state with regs := kernelSegments state.regs }
  let state := { state with regs := { state.regs with esi := state.regs.esp } }
  let state := state.push (link.entry .restartSyscall)
  state.jump (state.memory (state.regs.esi + retAdr))

def saveException (state : State) : State :=
  let state := state.saveRegisters
  let state := { state with regs := kernelSegments state.regs }
  let state := { state with regs := { state.regs with esi := state.regs.esp } }
  let state := state.push (link.entry .restartException)
  state.jump (state.memory (state.regs.esi + retAdr))

/-- Go on behind the `sti` of a gate's code, having come back from `save_*`. -/
def opened (gate : Gate) (state : State) : Option State :=
  if state.regs.eip = link.returned gate then
    some (state.sti.jump (link.body gate))
  else none

/-- `hwint_master` and `hwint_slave` up to the handler. -/
def hwint (irq : Nat) (state : State) : Option State :=
  let state := (state.gate.push (link.returned (.irq irq))).saveInt link
  let state := { state with
    kReenter := state.kReenter + 1
    cr3 := 0x200000
    regs := { state.regs with ebx := 0xFEE000B0, eax := 0 } }
  state.opened link (.irq irq)

/-- `sys_call` up to the call of the function. -/
def sysCall (state : State) : Option State :=
  ((state.gate.push (link.returned .sysCall)).saveSyscall link).opened link .sysCall

/-- The vectors for which the processor pushes an error code itself. -/
def hasErrCode (vector : Nat) : Bool := vector = 8 ∨ (10 ≤ vector ∧ vector ≤ 14)

/-- `exception_no_errcode` and `exception_errcode` up to the handler, with the five
arguments of the handler on the stack. -/
def exception (vector errCode : Nat) (state : State) : Option State :=
  let code := if hasErrCode vector then errCode else 0xFFFFFFFF
  let state := ((state.gate.push code).push (link.returned (.vector vector))).saveException link
  let esi := state.regs.esp + 4 * 17
  let state := { state with regs := { state.regs with esi := esi } }
  let words := [state.memory esi, state.memory (esi - 4), state.memory (esi - 4 * 2),
    state.memory (esi - 4 * 3)]
  let state := { state with regs := { state.regs with eax := state.memory (esi - 4 * 3) } }
  (state.pushAll (words ++ [vector])).opened link (.vector vector)

/-- `switch_pde`, `lldt` and `renew_tss` for the current process. -/
def renewEnv (state : State) : State :=
  let state := { state with cr3 := (state.task state.proc).cr3 }
  let state := state.currentInEax link
  { state with ldtr := (state.task state.proc).ldtSel, esp0 := link.pcb (state.proc + 1) }

/-- `call sched` with the address it returns to; `schedule` chooses `next`. The result
is at the `popfd`, the first instruction at which an interrupt can be taken. -/
def sched (back next : Nat) (state : State) : State :=
  let state := ((state.push back).push state.regs.eflags).pushad.cli
  let state := state.currentInEax link
  let state := state.setTask state.proc
    { state.task state.proc with espSaveContext := state.regs.esp }
  let state := { state with proc := next }
  let state := (state.renewEnv link).currentInEax link
  let state := { state with
    regs := { state.regs with esp := (state.task state.proc).espSaveContext } }
  let state := state.sti
  { state with regs := { state.regs.popad state.memory with eip := link.entry .schedPopfd } }

/-- `restart_restore`. -/
def restartRestore (state : State) : State :=
  { state with
    regs := [Restore.gs, .fs, .es, .ds, .popad, .skip, .iretd].foldl
      (fun regs instruction => instruction.execute
        (link.entry (.restore instruction.following)) 4 state.memory regs) state.regs }

def restartInt (next : Nat) (state : State) : State :=
  let state := state.currentInEax link
  let state := { state with
    regs := { state.regs with esp := (state.task state.proc).espSaveInt } }
  if state.kernelInitial ≠ 0 then state.restartRestore link
  else state.sched link (link.entry .restartIntDone) next

def restartSyscall (next : Nat) (state : State) : State :=
  let state := state.currentInEax link
  let state := { state with
    regs := { state.regs with esp := (state.task state.proc).espSaveSyscall } }
  state.sched link (link.entry .restartSyscallDone) next

def restartException (next : Nat) (state : State) : State :=
  state.sched link (link.entry (.restoreException .gs)) next

/-- The code that the final `ret` of a gate's code finds on the stack. -/
def restart (next : Nat) (state : State) : Option State :=
  match link.decode state.regs.eip with
  | some .restartInt => some (state.restartInt link next)
  | some .restartSyscall => some (state.restartSyscall link next)
  | some .restartException => some (state.restartException link next)
  | some (.restore .gs) => some (state.restartRestore link)
  | _ => none

/-- The end of a hardware interrupt, from its `cli`. -/
def hwintEnd (next : Nat) (state : State) : Option State :=
  { state.cli with kReenter := state.kReenter - 1 }.ret.restart link next

/-- The end of `sys_call`, from its `cli`. -/
def sysCallEnd (next : Nat) (state : State) : Option State :=
  let state := state.cli.currentInEdx link
  let esi := (state.task state.proc).espSaveSyscall
  let state := { state with
    regs := { state.regs with esi := esi }
    memory := Function.update state.memory (esi + eaxReg) state.regs.eax }
  state.ret.restart link next

/-- The end of an exception, from its `cli`. -/
def exceptionEnd (next : Nat) (state : State) : Option State :=
  let state := state.cli
  let state := { state with regs := { state.regs with esp := state.regs.esp + 4 * 5 } }
  state.ret.restart link next

end State

/-- The code that runs is none of the instructions of the way back. -/
def Link.Open (link : Link) (regs : Registers) : Prop :=
  regs.user ∨ link.decode regs.eip = none

instance (link : Link) (regs : Registers) : Decidable (link.Open regs) :=
  inferInstanceAs (Decidable (_ ∨ _))

/-- The next instruction of the way back. -/
def Link.resume (link : Link) (memory : Nat → Nat) (regs : Registers) : Option Registers :=
  if regs.user then none
  else match link.decode regs.eip with
    | some .schedPopfd => some { regs with
        eflags := memory regs.esp
        esp := regs.esp + 4
        eip := link.entry .schedRet }
    | some .schedRet => some { regs with eip := memory regs.esp, esp := regs.esp + 4 }
    | some .restartIntDone => some { regs with eip := link.entry (.restore .gs) }
    | some .restartSyscallDone => some { regs with eip := link.entry (.restore .gs) }
    | some (.restore instruction) => some
        (instruction.execute (link.entry (.restore instruction.following)) 4 memory regs)
    | some (.restoreException instruction) => some
        (instruction.execute (link.entry (.restoreException instruction.following)) 8 memory regs)
    | _ => none

namespace State

variable (link : Link)

/-- The frame at the start of a kernel stack. -/
def frameAddress (pid : Nat) : Nat := link.top pid - pStackTop

/-- `fork_pcb_cpy` and the `eax` of the child. The PCB of the child keeps its own
`esp_save_int`, `esp_save_context`, `ldt_sel` and `cr3`, and the flags of its frame. -/
def fork (child : Nat) (state : State) : State :=
  let own := state.task child
  let place := frameAddress link child
  let eflags := state.memory (place + eflagsReg)
  let state := state.setTask child { state.task state.proc with
    espSaveInt := own.espSaveInt, espSaveContext := own.espSaveContext }
  let words := fetched state.memory (frameAddress link state.proc) 18
  let state := { state with memory := written state.memory place words }
  let state := { state with memory := Function.update state.memory (place + eflagsReg) eflags }
  let task := state.task child
  let state := state.setTask child { task with
    ldtSel := own.ldtSel, cr3 := own.cr3, regs := { task.regs with eax := 0 } }
  { state with memory := Function.update state.memory (place + eaxReg) 0 }

/-- `pthread_pcb_cpy`, `pthread_stack_init` and the entry and the `eax` of the thread.
The page directory is that of the parent. -/
def pthread (child parent entry stackBase : Nat) (state : State) : State :=
  let own := state.task child
  let place := frameAddress link child
  let eflags := state.memory (place + eflagsReg)
  let state := state.setTask child { state.task parent with
    espSaveInt := own.espSaveInt, espSaveContext := own.espSaveContext }
  let words := fetched state.memory (frameAddress link parent) 18
  let state := { state with memory := written state.memory place words }
  let state := { state with memory := Function.update state.memory (place + eflagsReg) eflags }
  let task := state.task child
  let state := state.setTask child { task with
    ldtSel := own.ldtSel, regs := { task.regs with esp := stackBase, eip := entry, eax := 0 } }
  let state := { state with memory := Function.update state.memory (place + espReg) stackBase }
  let state := { state with memory := Function.update state.memory (place + eipReg) entry }
  { state with memory := Function.update state.memory (place + eaxReg) 0 }

/-- The selectors `exec_pcb_init` writes: the two local descriptors, `SELECTOR_CPU` and the
video segment, all for ring 3. -/
def execRegs (selectorCpu : Nat) (regs : StackFrame) : StackFrame :=
  { regs with
    cs := 0x7, ds := 0xF, es := 0xF, fs := selectorCpu / 4 * 4 + 3, ss := 0xF, gs := 0x1B
    eflags := 0x202 }

/-- `exec_pcb_init`, and the entry and the stack that `sys_exec` sets. -/
def exec (selectorCpu entry stackBase : Nat) (state : State) : State :=
  let place := frameAddress link state.proc
  let task := state.task state.proc
  let regs := execRegs selectorCpu task.regs
  let state := state.setTask state.proc { task with regs := regs }
  let state := { state with memory := written state.memory place regs.words }
  let state := state.setTask state.proc { task with
    regs := { regs with eip := entry, esp := stackBase } }
  let state := { state with memory := Function.update state.memory (place + eipReg) entry }
  { state with memory := Function.update state.memory (place + espReg) stackBase }

end State

/-- What happens at one processor. `instruct` is an instruction of a program or of C code
of the kernel, which may also give PCBs their page directories, as `init_page_pte` does. The
numbers are the choices of `schedule` and of the callers. -/
inductive Event where
  | instruct (regs : Registers) (memory cr3 : Nat → Nat)
  | interrupt (irq : Nat)
  | finish (next : Nat)
  | sysCall
  | exception (vector errCode : Nat)
  | sysCallEnd (next : Nat)
  | exceptionEnd (next : Nat)
  | sched (back next : Nat)
  | resume
  | fork (child : Nat)
  | pthread (child parent entry stackBase : Nat)
  | exec (selectorCpu entry stackBase : Nat)

/-- Interrupts are taken between any two instructions while they are enabled; everything
else needs code to run that is not on the way back. -/
def State.step (link : Link) (state : State) (event : Event) : Option State :=
  match event with
  | .interrupt irq => if state.regs.eflags.testBit 9 then state.hwint link irq else none
  | .resume => (link.resume state.memory state.regs).map fun regs => { state with regs := regs }
  | event =>
    if ¬ link.Open state.regs then none
    else match event with
      | .instruct regs memory cr3 => some { state with
          regs := regs
          memory := memory
          task := fun pid => { state.task pid with cr3 := cr3 pid } }
      | .finish next => state.hwintEnd link next
      | .sysCall => state.sysCall link
      | .exception vector errCode => state.exception link vector errCode
      | .sysCallEnd next => state.sysCallEnd link next
      | .exceptionEnd next => state.exceptionEnd link next
      | .sched back next => some (state.sched link back next)
      | .fork child => some (state.fork link child)
      | .pthread child parent entry stackBase =>
          some (state.pthread link child parent entry stackBase)
      | .exec selectorCpu entry stackBase => some (state.exec link selectorCpu entry stackBase)
      | _ => none

/-- What `initialize_processes` leaves of a PCB: the frame of the process at the start of
its stack and below it the context that `sched` finds. -/
structure Initialised (link : Link) (state : State) (pid : Nat) (regs : StackFrame) : Prop where
  frame : Stored state.memory (link.top pid - pStackTop) regs.words
  eip : state.memory (link.top pid - pStackTop - 4) = link.entry (.restore .gs)
  eflags : state.memory (link.top pid - pStackTop - 8) = 0x1202
  saveInt : (state.task pid).espSaveInt = link.top pid - pStackTop
  saveContext : (state.task pid).espSaveContext = link.top pid - pStackTop - 10 * 4
  outer : regs.registers.user

/-- `restart_initial`, up to the first instruction of `restart_restore`. -/
def State.restartInitial (link : Link) (state : State) : State :=
  let state := (state.renewEnv link).currentInEax link
  let state := { state with
    regs := { state.regs with esp := (state.task state.proc).espSaveInt } }
  state.jump (link.entry (.restore .gs))

/-- `kernel_main` disables interrupts, takes the first PCB as the current process, clears
`kernel_initial` and goes to `restart_initial`. -/
def Started (link : Link) (regs : Nat → StackFrame) (state : State) : Prop :=
  ∃ before : State,
    (∀ pid < nrPcbs, Initialised link before pid (regs pid)) ∧
      before.proc = 0 ∧ before.kernelInitial = 0 ∧ before.kReenter = 0 ∧
      before.regs.cs = selectorKernelCs ∧ before.regs.ss = selectorKernelDs ∧
      before.regs.eflags.testBit 9 = false ∧ state = before.restartInitial link

end AempOS.Kernel
