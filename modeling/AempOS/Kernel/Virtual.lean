import AempOS.Kernel.Entry
import AempOS.Lib.Transition

/-! The machine that the entry code stands for: every process has registers of its own,
an interrupt puts a handler on top and touches no process, and a call into the kernel
suspends the caller until the call is over. -/

set_option autoImplicit false

namespace AempOS.Kernel

open Lib

/-- What of the registers belongs to the code that runs: `sched` does not keep `fs`, which
the kernel uses to find its processor only and which differs in its privilege level. -/
def Registers.view (regs : Registers) : Registers :=
  if regs.user then regs else { regs with fs := 0 }

inductive CallKind where
  | sysCall | exception
  deriving DecidableEq, Repr

/-- A call into the kernel: the registers of the caller, and the address of the stack cell
with the return address of the code that serves it. -/
structure Call where
  kind : CallKind
  base : Nat
  context : Registers
  deriving DecidableEq

/-- A running interrupt handler, with the stack cell it returns through. -/
structure Handler where
  base : Nat
  context : Registers
  deriving DecidableEq

/-- `fresh` marks the PCBs that never ran. -/
structure Virtual where
  proc : Nat
  handlers : List Handler
  context : Nat → Registers
  calls : Nat → List Call
  fresh : Nat → Bool

inductive Move where
  | run (context : Registers)
  | interrupt (handler : Handler)
  | finish (next : Nat)
  | call (kind : CallKind) (base : Nat) (context : Registers)
  | leave (next : Nat)
  | sched (context : Registers) (next : Nat)
  | idle
  | fork (child : Nat)
  | pthread (child parent entry stackBase : Nat)
  | exec (context : Registers)

/-- The caller's registers when the call is over. -/
def CallKind.result (kind : CallKind) (context : Registers) (eax : Nat) : Registers :=
  match kind with
  | .sysCall => { context with eax := eax }
  | .exception => context

namespace Virtual

/-- The registers of the code that runs. -/
def running (virtual : Virtual) : Registers :=
  match virtual.handlers with
  | [] => virtual.context virtual.proc
  | handler :: _ => handler.context

def setContext (virtual : Virtual) (pid : Nat) (context : Registers) : Virtual :=
  { virtual with context := Function.update virtual.context pid context }

def setCalls (virtual : Virtual) (pid : Nat) (calls : List Call) : Virtual :=
  { virtual with calls := Function.update virtual.calls pid calls }

def switch (virtual : Virtual) (next : Nat) : Virtual :=
  { virtual with proc := next, fresh := Function.update virtual.fresh next false }

def setRunning (virtual : Virtual) (context : Registers) : Virtual :=
  match virtual.handlers with
  | [] => virtual.setContext virtual.proc context
  | handler :: rest => { virtual with handlers := { handler with context := context } :: rest }

def step (virtual : Virtual) (move : Move) : Option Virtual :=
  match move with
  | .run context => some (virtual.setRunning context)
  | .interrupt handler => some { virtual with handlers := handler :: virtual.handlers }
  | .finish next =>
      match virtual.handlers with
      | [] => none
      | [_] => some ({ virtual with handlers := [] }.switch next)
      | _ :: rest => some { virtual with handlers := rest }
  | .idle => some virtual
  | move =>
    if virtual.handlers ≠ [] then none
    else match move, virtual.calls virtual.proc with
      | .call kind base context, calls => some
          ((virtual.setCalls virtual.proc
            (⟨kind, base, virtual.context virtual.proc⟩ :: calls)).setContext virtual.proc context)
      | .leave next, call :: calls => some
          (((virtual.setCalls virtual.proc calls).setContext virtual.proc
            (call.kind.result call.context (virtual.context virtual.proc).eax)).switch next)
      | .sched context next, _ => some ((virtual.setContext virtual.proc context).switch next)
      | .fork child, [⟨.sysCall, _, caller⟩] => some (virtual.setContext child
          { caller with eax := 0, eflags := (virtual.context child).eflags })
      | .pthread child parent entry stackBase, _ =>
          match virtual.calls parent with
          | [⟨.sysCall, _, caller⟩] => some (virtual.setContext child
              { caller with
                eax := 0, eip := entry, esp := stackBase
                eflags := (virtual.context child).eflags })
          | _ => none
      | .exec context, [⟨.sysCall, base, _⟩] => some
          (virtual.setCalls virtual.proc [⟨.sysCall, base, context⟩])
      | _, _ => none

end Virtual

/-- The move that a step of the processor stands for. -/
def observe (state after : State) : Event → Move
  | .instruct regs _ _ => .run regs.view
  | .interrupt _ => .interrupt ⟨after.regs.esp, after.regs.view⟩
  | .finish next => .finish next
  | .sysCall => .call .sysCall after.regs.esp after.regs.view
  | .exception _ _ => .call .exception (after.regs.esp + 4 * 5) after.regs.view
  | .sysCallEnd next => .leave next
  | .exceptionEnd next => .leave next
  | .sched back next => .sched { state.regs with eip := back }.view next
  | .resume => .idle
  | .fork child => .fork child
  | .pthread child parent entry stackBase => .pthread child parent entry stackBase
  | .exec selectorCpu entry stackBase => .exec
      { State.execRegs selectorCpu (state.task state.proc).regs with
        eip := entry, esp := stackBase }.registers

/-- The processor beside the machine it stands for. -/
def pairMachine (link : Link) : Machine (State × Virtual) Event where
  initial pair :=
    ∃ regs : Nat → StackFrame, Started link regs pair.1 ∧
      pair.2 = {
        proc := 0
        handlers := []
        context := fun pid => (regs pid).registers
        calls := fun _ => []
        fresh := fun pid => pid ≠ 0 }
  step pair event :=
    (pair.1.step link event).bind fun after =>
      (pair.2.step (observe pair.1 after event)).map fun moved => (after, moved)

/-- Registers of compiled kernel code: ring 0, the flat segments and the video segment. -/
def KernelMode (regs : Registers) : Prop :=
  regs.cs = selectorKernelCs ∧ regs.ss = selectorKernelDs ∧ regs.ds = selectorKernelDs ∧
    regs.es = selectorKernelDs ∧ regs.gs = selectorVideo - 2

/-- The end of what the way back to `context` reads on the stack of a process. -/
def limit (link : Link) (pid : Nat) (context : Registers) : Nat :=
  if context.user then link.top pid else context.esp

/-- The bytes of a frame with `gap` words between the saved registers and those of the
gate, by whether it was pushed from an outer ring. -/
def frameSize (gap : Nat) (regs : Registers) : Nat :=
  4 * (15 + gap + if regs.user then 2 else 0)

def CallKind.gap : CallKind → Nat
  | .sysCall => 1
  | .exception => 2

/-- The cell with the return address of a call and the frame of its caller. -/
def Call.Spans (call : Call) (address : Nat) : Prop :=
  call.base ≤ address ∧ address < call.base + 4 + frameSize call.kind.gap call.context

/-- The cell a handler returns through and, of one that interrupted another, the frame of
sixteen words above it. -/
def Handler.Spans (link : Link) (handler : Handler) (address : Nat) : Prop :=
  handler.base ≤ address ∧ address < handler.base + 4 + 64 ∧ address < link.stackTop

/-- The stack words that the entry code has still to read: the calls of all processes, what
lies between `esp_save_context` and the code that waits behind it, below an interrupt the
same from `esp_save_int` on, and what the handlers return through. The variables of C
functions are not among them. -/
inductive Live (link : Link) (state : State) (virtual : Virtual) (address : Nat) : Prop where
  | call {pid : Nat} {call : Call} : pid < nrPcbs → call ∈ virtual.calls pid →
      call.Spans address → Live link state virtual address
  | waiting {pid : Nat} : pid < nrPcbs → pid ≠ virtual.proc →
      (state.task pid).espSaveContext ≤ address →
      address < limit link pid (virtual.context pid) → Live link state virtual address
  | interrupted : virtual.handlers ≠ [] → (state.task virtual.proc).espSaveInt ≤ address →
      address < limit link virtual.proc (virtual.context virtual.proc) →
      Live link state virtual address
  | handler {handler : Handler} : handler ∈ virtual.handlers → handler.Spans link address →
      Live link state virtual address

/-- The stack that the running code may use: its lowest byte, and the cell behind it. -/
def stackBounds (link : Link) (virtual : Virtual) : Nat × Nat :=
  match virtual.handlers, virtual.calls virtual.proc with
  | handler :: _, _ => (link.stackTop - irqStackSize, handler.base)
  | [], call :: _ => (link.floor virtual.proc, call.base)
  | [], [] => (link.floor virtual.proc, link.top virtual.proc)

/-- There is room for `bytes` more on the stack of the running code. -/
def Room (link : Link) (state : State) (virtual : Virtual) (bytes : Nat) : Prop :=
  (stackBounds link virtual).1 + bytes ≤ state.regs.esp

/-- What programs and compiled code keep to, and what the hardware and `schedule` do. Nobody
stores into the live words of the stacks or changes the segment that leads to `proc` or the
page directory of the current process. A program stays in its ring. Kernel code keeps its
segment registers, stays on its part of the stack, jumps into no code of the way back, and
comes to the end of a gate's code with the stack pointer it found there; handlers neither
call `sched` nor raise exceptions. Processes are created in PCBs that never ran. No stack
overflows. -/
def Disciplined (link : Link) (pair : State × Virtual) (event : Event) : Prop :=
  let state := pair.1
  let virtual := pair.2
  let bounds := stackBounds link virtual
  match event with
  | .instruct regs memory cr3 =>
      (∀ address, Live link state virtual address → memory address = state.memory address) ∧
        regs.fs = state.regs.fs ∧ cr3 virtual.proc = (state.task virtual.proc).cr3 ∧
        if state.regs.user then regs.user
        else KernelMode regs ∧ link.decode regs.eip = none ∧
          bounds.1 ≤ regs.esp ∧ regs.esp ≤ bounds.2
  | .interrupt _ => state.regs.user ∨ Room link state virtual 200
  | .finish next =>
      next < nrPcbs ∧ (∃ handler rest, virtual.handlers = handler :: rest ∧
        state.regs.esp = handler.base) ∧
        link.floor virtual.proc + 200 ≤ (state.task virtual.proc).espSaveInt
  | .sysCall => state.regs.user
  | .exception _ _ =>
      virtual.handlers = [] ∧ (state.regs.user ∨ Room link state virtual 200)
  | .sysCallEnd next =>
      next < nrPcbs ∧ virtual.handlers = [] ∧ ∃ call rest,
        virtual.calls virtual.proc = call :: rest ∧ call.kind = .sysCall ∧
        state.regs.esp = call.base ∧ Room link state virtual 200
  | .exceptionEnd next =>
      next < nrPcbs ∧ virtual.handlers = [] ∧ ∃ call rest,
        virtual.calls virtual.proc = call :: rest ∧ call.kind = .exception ∧
        state.regs.esp + 4 * 5 = call.base ∧ Room link state virtual 200
  | .sched back next =>
      next < nrPcbs ∧ virtual.handlers = [] ∧ ¬ state.regs.user ∧
        link.decode back = none ∧ Room link state virtual 200
  | .resume => True
  | .fork child =>
      virtual.handlers = [] ∧ ¬ state.regs.user ∧ child < nrPcbs ∧ child ≠ virtual.proc ∧
        virtual.fresh child ∧
        ∃ call, virtual.calls virtual.proc = [call] ∧ call.kind = .sysCall
  | .pthread child parent _ _ =>
      virtual.handlers = [] ∧ ¬ state.regs.user ∧ child < nrPcbs ∧ parent < nrPcbs ∧
        child ≠ virtual.proc ∧ virtual.fresh child ∧
        ∃ call, virtual.calls parent = [call] ∧ call.kind = .sysCall
  | .exec _ _ _ =>
      virtual.handlers = [] ∧ ¬ state.regs.user ∧
        ∃ call, virtual.calls virtual.proc = [call] ∧ call.kind = .sysCall

end AempOS.Kernel
