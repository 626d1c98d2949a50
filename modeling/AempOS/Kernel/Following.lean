import AempOS.Kernel.EntryProperties

/-! When the processor and the stacks of all processes stand for a state of the virtual
machine. -/

set_option autoImplicit false

namespace AempOS.Kernel

open Lib

/-- From `address` on its kernel stack `restart_restore` takes a process to its context. -/
def Parked (link : Link) (memory : Nat → Nat) (pid address : Nat) (context : Registers) : Prop :=
  link.floor pid ≤ address ∧ address ≤ limit link pid context ∧
    ∀ start : Registers, start.eip = link.entry (.restore .gs) → start.esp = address →
      start.cs = selectorKernelCs → start.ss = selectorKernelDs →
      ∃ final, Leads link memory (limit link pid context) start final ∧ final.view = context

/-- From `esp_save_context` the end of `sched` takes a process to its context. -/
def Ready (link : Link) (memory : Nat → Nat) (task : Task) (pid : Nat) (context : Registers) : Prop :=
  link.floor pid ≤ task.espSaveContext ∧ task.espSaveContext + 40 ≤ limit link pid context ∧
    ∀ regs, KernelMode regs → ∃ final,
      Leads link memory (limit link pid context)
        (popContext link memory task.espSaveContext regs) final ∧ final.view = context

/-- A PCB that never ran: its stack is as `initialize_processes` left it, but for the
registers in the frame. -/
def Fresh (link : Link) (memory : Nat → Nat) (task : Task) (pid : Nat) (context : Registers) : Prop :=
  task.espSaveContext = link.top pid - pStackTop - 10 * 4 ∧
    memory (link.top pid - pStackTop - 4) = link.entry (.restore .gs) ∧
    context.user ∧ ∃ frame : StackFrame,
      Stored memory (link.top pid - pStackTop) frame.words ∧ frame.registers = context

/-- A call on a kernel stack, with the calls below it: the cell of its return address and
the frame of the caller. -/
def Served (link : Link) (memory : Nat → Nat) (task : Task) (top : Nat) (call : Call)
    (rest : List Call) : Prop :=
  match call.kind with
  | .sysCall =>
      rest = [] ∧ call.context.user ∧ memory call.base = link.entry .restartSyscall ∧
        task.espSaveSyscall = call.base + 4 ∧ call.base + 4 + pStackTop = top ∧
        ∃ frame : StackFrame, Stored memory (call.base + 4) frame.words ∧
          frame.registers = call.context
  | .exception =>
      memory call.base = link.entry .restartException ∧
        ∃ regs, Framed memory (call.base + 4) 2 regs ∧ regs.view = call.context ∧
          link.Open regs ∧
          ((regs.user ∧ rest = [] ∧ call.base + 4 + frameSize 2 regs = top) ∨
            (KernelMode regs ∧ regs.esp = call.base + 4 + frameSize 2 regs ∧
              ∃ outer more, rest = outer :: more ∧ regs.esp ≤ outer.base))

def CallStack (link : Link) (memory : Nat → Nat) (task : Task) (top : Nat) : List Call → Prop
  | [] => True
  | call :: rest => Served link memory task top call rest ∧ CallStack link memory task top rest

/-- A program runs without open calls, kernel code below the innermost one. -/
def Under (context : Registers) : List Call → Prop
  | [] => context.user
  | call :: _ => ¬ context.user ∧ context.esp ≤ call.base

/-- The handlers on the interrupt stack. The outermost returns to `restart_int`, every
other to `restart_restore` and the frame of the handler it interrupted. -/
def Nested (link : Link) (memory : Nat → Nat) : List Handler → Prop
  | [] => True
  | [handler] => handler.base + 4 = link.stackTop ∧ memory handler.base = link.entry .restartInt
  | handler :: outer :: rest =>
      memory handler.base = link.entry (.restore .gs) ∧
        (∃ regs, Framed memory (handler.base + 4) 1 regs ∧ KernelMode regs ∧
          link.decode regs.eip = none ∧ regs.esp = handler.base + 4 + frameSize 1 regs ∧
          regs.esp ≤ outer.base ∧ regs.view = outer.context) ∧
        Nested link memory (outer :: rest)

/-- The stack of one process. -/
structure Process (link : Link) (memory : Nat → Nat) (task : Task) (virtual : Virtual) (pid : Nat) :
    Prop where
  under : Under (virtual.context pid) (virtual.calls pid)
  calls : CallStack link memory task (link.top pid) (virtual.calls pid)
  ready : pid ≠ virtual.proc → Ready link memory task pid (virtual.context pid)
  fresh : virtual.fresh pid = true → pid ≠ virtual.proc ∧ virtual.calls pid = [] ∧
    Fresh link memory task pid (virtual.context pid)

/-- What the code that runs outside any handler leads to. -/
def Executing (link : Link) (memory : Nat → Nat) (regs : Registers) (virtual : Virtual) : Prop :=
  (regs.user ∨ link.floor virtual.proc ≤ regs.esp) ∧ ∃ final,
    Leads link memory (limit link virtual.proc (virtual.context virtual.proc)) regs final ∧
      final.view = virtual.context virtual.proc

/-- What a running handler is, and what it interrupted. -/
def Handling (link : Link) (state : State) (virtual : Virtual) : List Handler → Prop
  | [] => False
  | handler :: _ =>
      KernelMode state.regs ∧ link.decode state.regs.eip = none ∧
        link.stackTop - irqStackSize ≤ state.regs.esp ∧ state.regs.esp ≤ handler.base ∧
        state.regs.view = handler.context ∧
        Parked link state.memory virtual.proc (state.task virtual.proc).espSaveInt
          (virtual.context virtual.proc)

structure Follows (link : Link) (state : State) (virtual : Virtual) : Prop where
  proc : state.proc = virtual.proc
  inside : virtual.proc < nrPcbs
  started : state.kernelInitial = 0
  depth : state.kReenter = virtual.handlers.length
  esp0 : state.esp0 = link.top virtual.proc
  ldtr : state.ldtr = (state.task virtual.proc).ldtSel
  cr3 : state.cr3 =
    if virtual.handlers = [] then (state.task virtual.proc).cr3 else 0x200000
  processes : ∀ pid < nrPcbs, Process link state.memory (state.task pid) virtual pid
  nested : Nested link state.memory virtual.handlers
  running : (virtual.handlers = [] ∧ Executing link state.memory state.regs virtual) ∨
    Handling link state virtual virtual.handlers

variable {link : Link} {memory other : Nat → Nat} {task changed : Task} {pid address top : Nat}
  {context regs final : Registers} {calls : List Call}

/-! The stacks lie apart. -/

theorem stacks_apart (link : Link) {pid other : Nat} (different : pid ≠ other) :
    link.top pid ≤ link.floor other ∨ link.top other ≤ link.floor pid := by
  simp only [Link.floor, Link.top, initStackSize, process0Size]
  omega

theorem irq_stack_apart (link : Link) (inside : pid < nrPcbs) :
    link.stackTop ≤ link.floor pid ∨ link.top pid ≤ link.stackTop - irqStackSize := by
  have apart := link.stack_apart
  have room := link.stack_room
  simp only [Link.floor, Link.top, initStackSize, process0Size, irqStackSize, nrPcbs] at *
  omega

/-- The part of a kernel stack that holds the open calls. -/
def callsFrom (top : Nat) : List Call → Nat
  | [] => top
  | call :: _ => call.base

theorem CallStack.base_lt {call : Call} {rest : List Call}
    (stack : CallStack link memory task top (call :: rest)) : call.base + 4 ≤ top := by
  induction rest generalizing call with
  | nil =>
      obtain ⟨served, _⟩ := stack
      unfold Served at served
      cases kind : call.kind with
      | sysCall =>
          simp only [kind] at served
          omega
      | exception =>
          simp only [kind] at served
          obtain ⟨_, regs, _, _, _, outer⟩ := served
          cases outer with
          | inl outer => omega
          | inr inner => exact absurd inner.2.2 (by simp)
  | cons outer more ih =>
      obtain ⟨served, stack⟩ := stack
      have below := ih stack
      unfold Served at served
      cases kind : call.kind with
      | sysCall => simp [kind] at served
      | exception =>
          simp only [kind] at served
          obtain ⟨_, regs, _, _, _, inner⟩ := served
          cases inner with
          | inl bottom => exact absurd bottom.2.1 (by simp)
          | inr inner =>
              obtain ⟨_, esp, next, _, same, below'⟩ := inner
              cases same
              omega

/-- Above the frame of a caller lie the calls before it. -/
theorem Served.frame_le {call : Call} {rest : List Call}
    (served : Served link memory task top call rest) :
    call.base + 4 + frameSize call.kind.gap call.context ≤ callsFrom top rest := by
  unfold Served at served
  cases kind : call.kind with
  | sysCall =>
      simp only [kind] at served
      obtain ⟨rfl, user, _, _, place, _⟩ := served
      simp only [CallKind.gap, frameSize, if_pos user, callsFrom]
      exact Nat.le_of_eq place
  | exception =>
      simp only [kind] at served
      obtain ⟨_, regs, _, view, _, place⟩ := served
      rw [CallKind.gap, ← view, frameSize_view]
      cases place with
      | inl bottom =>
          obtain ⟨_, rfl, place⟩ := bottom
          exact Nat.le_of_eq place
      | inr inner =>
          obtain ⟨_, esp, outer, more, rfl, under⟩ := inner
          exact esp ▸ under

theorem limit_le (under : Under context calls)
    (stack : CallStack link memory task (link.top pid) calls) :
    limit link pid context ≤ callsFrom (link.top pid) calls := by
  cases calls with
  | nil => exact Nat.le_of_eq (if_pos under)
  | cons call rest =>
      rw [limit, if_neg under.1]
      exact under.2

theorem callsFrom_le (stack : CallStack link memory task top calls) : callsFrom top calls ≤ top := by
  cases calls with
  | nil => exact Nat.le_refl _
  | cons call rest => exact Nat.le_of_add_right_le stack.base_lt

/-! What lies on a stack stays there as long as the words from its stack pointer up are
left alone. -/

theorem popContext_agree (agree : AgreeOn memory other address (address + 40)) :
    popContext link other address regs = popContext link memory address regs := by
  have word : ∀ offset, offset < 40 → other (address + offset) = memory (address + offset) :=
    fun offset inside => agree _ (Nat.le_add_right ..) (by omega)
  have first := word 0 (by omega)
  simp only [Nat.add_zero] at first
  simp [popContext, Registers.popad, first, word]

theorem Parked.agree (parked : Parked link memory pid address context)
    (agree : AgreeOn memory other address (limit link pid context)) :
    Parked link other pid address context := by
  obtain ⟨above, below, leads⟩ := parked
  refine ⟨above, below, fun start eip esp cs ss => ?_⟩
  obtain ⟨final, leads, view⟩ := leads start eip esp cs ss
  exact ⟨final, leads.agree (esp ▸ agree), view⟩

theorem Ready.agree (ready : Ready link memory task pid context)
    (agree : AgreeOn memory other task.espSaveContext (limit link pid context))
    (same : changed.espSaveContext = task.espSaveContext) :
    Ready link other changed pid context := by
  obtain ⟨above, below, leads⟩ := ready
  rw [Ready, same]
  refine ⟨above, below, fun regs mode => ?_⟩
  obtain ⟨final, leads, view⟩ := leads regs mode
  rw [popContext_agree (agree.within (Nat.le_refl _) below)]
  exact ⟨final, leads.agree (agree.within (Nat.le_add_right ..) (Nat.le_refl _)), view⟩

theorem Fresh.agree (fresh : Fresh link memory task pid context)
    (agree : AgreeOn memory other task.espSaveContext (link.top pid))
    (same : changed.espSaveContext = task.espSaveContext) :
    Fresh link other changed pid context := by
  obtain ⟨place, eip, outer, frame, stored, registers⟩ := fresh
  have large : 4096 ≤ link.top pid := by
    simp only [Link.top, initStackSize]
    omega
  simp only [pStackTop] at place
  refine ⟨same.trans place, ?_, outer, frame, stored.agree ?_, registers⟩
  · exact (agree _ (by simp only [pStackTop]; omega) (by simp only [pStackTop]; omega)).trans eip
  · apply agree.within
    · simp only [pStackTop]
      omega
    · simp only [pStackTop, StackFrame.words_length]
      omega

theorem Served.keeps {call : Call} {rest : List Call}
    (served : Served link memory task top call rest)
    (spares : ∀ address, call.Spans address → other address = memory address)
    (same : changed.espSaveSyscall = task.espSaveSyscall) :
    Served link other changed top call rest := by
  have cell : other call.base = memory call.base := spares _ ⟨Nat.le_refl _, by omega⟩
  have frame : AgreeOn memory other (call.base + 4)
      (call.base + 4 + frameSize call.kind.gap call.context) :=
    fun address above below => spares address ⟨Nat.le_of_add_right_le above, below⟩
  unfold Served at served ⊢
  cases kind : call.kind with
  | sysCall =>
      simp only [kind] at served frame ⊢
      obtain ⟨none, user, back, saved, place, built, stored, registers⟩ := served
      refine ⟨none, user, cell.trans back, same.trans saved, place, built, stored.agree ?_,
        registers⟩
      simpa [CallKind.gap, frameSize, if_pos user] using frame
  | exception =>
      simp only [kind] at served frame ⊢
      obtain ⟨back, regs, framed, view, open_, place⟩ := served
      rw [CallKind.gap, ← view, frameSize_view] at frame
      exact ⟨cell.trans back, regs, framed.agree frame, view, open_, place⟩

theorem CallStack.keeps (stack : CallStack link memory task top calls)
    (spares : ∀ call ∈ calls, ∀ address, call.Spans address → other address = memory address)
    (same : changed.espSaveSyscall = task.espSaveSyscall) :
    CallStack link other changed top calls := by
  induction calls with
  | nil => trivial
  | cons call rest ih =>
      obtain ⟨served, stack⟩ := stack
      exact ⟨served.keeps (spares call List.mem_cons_self) same,
        ih stack fun call member => spares call (List.mem_cons_of_mem _ member)⟩

/-- The calls and the frames of their callers fill the stack from the innermost call on. -/
theorem CallStack.spans {call : Call} {address : Nat} (stack : CallStack link memory task top calls)
    (member : call ∈ calls) (spans : call.Spans address) :
    callsFrom top calls ≤ address ∧ address < top := by
  induction calls with
  | nil => cases member
  | cons first rest ih =>
      obtain ⟨served, stack⟩ := stack
      have above := served.frame_le
      rcases List.mem_cons.mp member with rfl | later
      · obtain ⟨low, high⟩ := spans
        have below := callsFrom_le stack
        exact ⟨low, by omega⟩
      · obtain ⟨low, high⟩ := ih stack later
        rw [callsFrom]
        exact ⟨by omega, high⟩

theorem CallStack.agree (stack : CallStack link memory task top calls)
    (agree : AgreeOn memory other (callsFrom top calls) top)
    (same : changed.espSaveSyscall = task.espSaveSyscall) :
    CallStack link other changed top calls := by
  refine stack.keeps (fun call member address spans => ?_) same
  obtain ⟨above, below⟩ := stack.spans member spans
  exact agree address above below

theorem Nested.base_lt {handler : Handler} {rest : List Handler}
    (nested : Nested link memory (handler :: rest)) : handler.base + 4 ≤ link.stackTop := by
  induction rest generalizing handler with
  | nil => exact Nat.le_of_eq nested.1
  | cons outer more ih =>
      obtain ⟨_, ⟨regs, _, _, _, esp, under, _⟩, nested⟩ := nested
      have below := ih nested
      omega

theorem Nested.keeps {handlers : List Handler} (nested : Nested link memory handlers)
    (spares : ∀ handler ∈ handlers, ∀ address, handler.Spans link address →
      other address = memory address) : Nested link other handlers := by
  induction handlers with
  | nil => trivial
  | cons handler rest ih =>
      have below := nested.base_lt
      have own := spares handler List.mem_cons_self
      have cell : other handler.base = memory handler.base :=
        own _ ⟨Nat.le_refl _, by omega, by omega⟩
      cases rest with
      | nil => exact ⟨nested.1, cell.trans nested.2⟩
      | cons outer more =>
          obtain ⟨back, ⟨regs, framed, mode, code, esp, under, view⟩, nested⟩ := nested
          have outside := nested.base_lt
          have size : frameSize 1 regs = 64 := by simp [frameSize, mode.ring0]
          refine ⟨cell.trans back, ⟨regs, framed.agree fun address above inside => ?_, mode, code,
            esp, under, view⟩, ih nested fun other member => spares other (List.mem_cons_of_mem _ member)⟩
          rw [size] at esp inside
          exact own _ ⟨by omega, inside, by omega⟩

theorem Nested.base_le {handler inner : Handler} {rest : List Handler}
    (nested : Nested link memory (inner :: rest)) (member : handler ∈ inner :: rest) :
    inner.base ≤ handler.base := by
  induction rest generalizing inner with
  | nil => exact Nat.le_of_eq (congrArg Handler.base (List.mem_singleton.mp member).symm)
  | cons outer more ih =>
      obtain ⟨_, ⟨regs, _, _, _, esp, under, _⟩, nested⟩ := nested
      rcases List.mem_cons.mp member with rfl | later
      · exact Nat.le_refl _
      · have above := ih nested later
        omega

theorem Nested.agree {handler : Handler} {rest : List Handler}
    (nested : Nested link memory (handler :: rest))
    (agree : AgreeOn memory other handler.base link.stackTop) :
    Nested link other (handler :: rest) :=
  nested.keeps fun _ member address spans =>
    agree address (Nat.le_trans (nested.base_le member) spans.1) spans.2.2

/-- The frame of a program is a `STACK_FRAME`. -/
theorem StackFrame.framed {frame : StackFrame} (stored : Stored memory address frame.words)
    (outer : frame.registers.user) : Framed memory address 1 frame.registers := by
  refine ⟨frame.kernelEsp, [frame.retaddr], rfl, ?_⟩
  have same : savedWords frame.registers frame.kernelEsp ++ [frame.retaddr] ++
      gateWords frame.registers = frame.words := by
    rw [gateWords, if_pos outer]
    rfl
  rw [same]
  exact stored

theorem Framed.frame (framed : Framed memory address 1 regs) (outer : regs.user) :
    ∃ frame : StackFrame, Stored memory address frame.words ∧ frame.registers = regs := by
  obtain ⟨kernelEsp, skipped, length, stored⟩ := framed
  obtain ⟨retaddr, rfl⟩ := List.length_eq_one_iff.mp length
  rw [gateWords, if_pos outer] at stored
  exact ⟨{ regs with kernelEsp := kernelEsp, retaddr := retaddr }, stored, rfl⟩

/-- A PCB that never ran is ready: its context returns to `restart_restore` and the frame. -/
theorem Fresh.ready (fresh : Fresh link memory task pid context) :
    Ready link memory task pid context := by
  obtain ⟨place, eip, user, frame, stored, registers⟩ := fresh
  have end_ : limit link pid context = link.top pid := if_pos user
  have large : link.floor pid + 200 ≤ link.top pid := by
    simp only [Link.floor, Link.top, initStackSize, process0Size]
    omega
  simp only [pStackTop] at place eip stored
  refine ⟨by omega, by rw [end_]; omega, fun regs mode => ⟨context, ?_, view_of_user user⟩⟩
  rw [end_, place]
  have high : 112 ≤ link.top pid := by omega
  let words := ({ regs with
      edi := memory (link.top pid - 72 - 10 * 4)
      esi := memory (link.top pid - 72 - 10 * 4 + 4)
      ebp := memory (link.top pid - 72 - 10 * 4 + 8)
      ebx := memory (link.top pid - 72 - 10 * 4 + 16)
      edx := memory (link.top pid - 72 - 10 * 4 + 20)
      ecx := memory (link.top pid - 72 - 10 * 4 + 24)
      eax := memory (link.top pid - 72 - 10 * 4 + 28)
      eflags := memory (link.top pid - 72 - 10 * 4 + 32) } : Registers)
  have stack : Stored memory (link.top pid - 72 - 10 * 4) (contextWords words
      (memory (link.top pid - 72 - 10 * 4 + 12)) (link.entry (.restore .gs))) := by
    simp only [contextWords, stored_cons, stored_nil, and_true, Nat.add_assoc, Nat.reduceAdd,
      true_and]
    refine ⟨rfl, rfl, rfl, rfl, rfl, rfl, rfl, rfl, eip ▸ congrArg memory ?_⟩
    omega
  refine context_leads words stack mode (by omega) ?_
  have framed : Framed memory (link.top pid - 72) 1 context :=
    registers ▸ StackFrame.framed stored (registers ▸ user)
  have size : frameSize 1 context = 72 := by simp [frameSize, user]
  refine framed.restore rfl ?_ mode.1 mode.2.1 (by rw [size]; omega) (.inl user)
    (.arrived (.inl user) (.inl user))
  simp only
  omega

variable {virtual moved : Virtual}

theorem Process.limit_le (process : Process link memory task virtual pid) :
    limit link pid (virtual.context pid) ≤ callsFrom (link.top pid) (virtual.calls pid) :=
  Kernel.limit_le process.under process.calls

theorem Process.limit_le_top (process : Process link memory task virtual pid) :
    limit link pid (virtual.context pid) ≤ link.top pid :=
  Nat.le_trans process.limit_le (callsFrom_le process.calls)

/-- The stack of a process that does not run keeps its meaning as long as its calls and the
words from `esp_save_context` up to the code that waits are left alone. -/
theorem Process.keeps (process : Process link memory task virtual pid)
    (waiting : pid ≠ virtual.proc)
    (spares : ∀ call ∈ virtual.calls pid, ∀ address, call.Spans address →
      other address = memory address)
    (agree : AgreeOn memory other task.espSaveContext (limit link pid (virtual.context pid)))
    (saveContext : changed.espSaveContext = task.espSaveContext)
    (saveSyscall : changed.espSaveSyscall = task.espSaveSyscall)
    (proc : moved.proc = virtual.proc)
    (context : moved.context pid = virtual.context pid)
    (calls : moved.calls pid = virtual.calls pid)
    (fresh : moved.fresh pid = virtual.fresh pid) :
    Process link other changed moved pid := by
  have ready := process.ready waiting
  constructor
  · rw [context, calls]
    exact process.under
  · rw [calls]
    exact process.calls.keeps spares saveSyscall
  · intro _
    rw [context]
    exact ready.agree agree saveContext
  · intro new
    obtain ⟨_, none, start⟩ := process.fresh (fresh ▸ new)
    rw [limit, if_pos start.2.2.1] at agree
    rw [proc, calls, context]
    exact ⟨waiting, none, start.agree agree saveContext⟩

theorem Process.agree (process : Process link memory task virtual pid)
    (waiting : pid ≠ virtual.proc)
    (agree : AgreeOn memory other task.espSaveContext (link.top pid))
    (saveContext : changed.espSaveContext = task.espSaveContext)
    (saveSyscall : changed.espSaveSyscall = task.espSaveSyscall)
    (proc : moved.proc = virtual.proc)
    (context : moved.context pid = virtual.context pid)
    (calls : moved.calls pid = virtual.calls pid)
    (fresh : moved.fresh pid = virtual.fresh pid) :
    Process link other changed moved pid := by
  have first := (process.ready waiting).2.1
  have below := process.limit_le
  refine process.keeps waiting (fun call member address spans => ?_)
    (agree.within (Nat.le_refl _) process.limit_le_top) saveContext saveSyscall proc context calls
    fresh
  obtain ⟨low, high⟩ := process.calls.spans member spans
  exact agree address (by omega) high

/-- The stack of the running process when its context and its calls are replaced. -/
theorem Process.current (under : Under (moved.context pid) (moved.calls pid))
    (calls : CallStack link memory task (link.top pid) (moved.calls pid))
    (running : moved.proc = pid) (used : moved.fresh pid = false) :
    Process link memory task moved pid := by
  refine ⟨under, calls, fun waiting => absurd running.symm waiting, fun new => ?_⟩
  rw [used] at new
  cases new

theorem Process.used (process : Process link memory task virtual virtual.proc) :
    virtual.fresh virtual.proc = false := by
  cases fresh : virtual.fresh virtual.proc with
  | false => rfl
  | true => exact absurd rfl (process.fresh fresh).1

/-- When another process is chosen, the one that ran has to be ready. -/
theorem Process.switch {next : Nat} (process : Process link memory task virtual pid)
    (ready : pid = virtual.proc → Ready link memory task pid (virtual.context pid)) :
    Process link memory task (virtual.switch next) pid := by
  refine ⟨process.under, process.calls, fun _ => ?_, fun new => ?_⟩
  · by_cases running : pid = virtual.proc
    · exact ready running
    · exact process.ready running
  · by_cases chosen : pid = next
    · simp [Virtual.switch, chosen] at new
    · simp only [Virtual.switch, Function.update_of_ne chosen] at new
      exact ⟨chosen, (process.fresh new).2⟩

end AempOS.Kernel
