import AempOS.Kernel.Returning

/-! What each piece of the entry code does to the processor as a whole. -/

set_option autoImplicit false

namespace AempOS.Kernel

open Lib

variable {link : Link} {state : State}

/-- Where the gate starts to push. -/
def State.start (state : State) : Nat :=
  if state.regs.user then state.esp0 else state.regs.esp

/-- What the gate, `skipped`, `pushad` and the segment registers push, in order. -/
def entryWords (regs : Registers) (kernelEsp : Nat) (skipped : List Nat) : List Nat :=
  (gateWords regs).reverse ++ skipped ++ (savedWords regs kernelEsp).reverse

theorem entryWords_length (regs : Registers) (kernelEsp : Nat) (skipped : List Nat) :
    4 * (entryWords regs kernelEsp skipped).length = frameSize skipped.length regs := by
  unfold entryWords frameSize gateWords savedWords
  split <;> simp <;> omega

namespace State

@[simp] theorem pushAll_pushAll (state : State) (first rest : List Nat) :
    (state.pushAll first).pushAll rest = state.pushAll (first ++ rest) := by
  simp only [pushAll, pushed_append, List.length_append, Nat.mul_add, Nat.sub_sub]

theorem gate_eq (ss : state.regs.user ∨ state.regs.ss = selectorKernelDs) :
    state.gate = { state with
      memory := pushed state.memory state.start (gateWords state.regs).reverse
      regs := { state.regs with
        cs := selectorKernelCs
        ss := selectorKernelDs
        eflags := gateFlags state.regs.eflags
        esp := state.start - 4 * (gateWords state.regs).length } } := by
  by_cases user : state.regs.user
  · simp [gate, user, pushAll, start, gateWords]
  · simp [gate, user, pushAll, start, gateWords, ss.resolve_left user]

theorem saveRegisters_eq (state : State) :
    state.saveRegisters = state.pushAll (savedWords state.regs state.regs.esp).reverse := by
  rw [saveRegisters, pushad, pushAll_pushAll]
  rfl

/-- Entering through a gate and saving the registers is one row of pushes. -/
theorem saveRegisters_gate (skipped : List Nat)
    (ss : state.regs.user ∨ state.regs.ss = selectorKernelDs) :
    ∃ kernelEsp, (state.gate.pushAll skipped).saveRegisters = { state with
      memory := pushed state.memory state.start (entryWords state.regs kernelEsp skipped)
      regs := { state.regs with
        cs := selectorKernelCs
        ss := selectorKernelDs
        eflags := gateFlags state.regs.eflags
        esp := state.start - frameSize skipped.length state.regs } } := by
  refine ⟨(state.gate.pushAll skipped).regs.esp, ?_⟩
  rw [saveRegisters_eq, gate_eq ss, ← entryWords_length _ (state.gate.pushAll skipped).regs.esp]
  simp only [pushAll, entryWords, pushed_append, List.length_append, List.length_reverse,
    Nat.mul_add, Nat.sub_sub]
  rfl

end State

section Frames

variable (memory : Nat → Nat) {start : Nat} (regs : Registers) (kernelEsp : Nat)
  (skipped : List Nat)

theorem entryWords_framed (room : frameSize skipped.length regs ≤ start) :
    Framed (pushed memory start (entryWords regs kernelEsp skipped))
      (start - frameSize skipped.length regs) skipped.length regs := by
  rw [← entryWords_length regs kernelEsp] at room ⊢
  refine ⟨kernelEsp, skipped.reverse, List.length_reverse, ?_⟩
  have stored := pushed_stored memory (entryWords regs kernelEsp skipped) room
  simpa [entryWords] using stored

/-- The word that `jmp [esi + RETADR]` reads is the last one pushed before the registers. -/
theorem entryWords_returned (back : Nat)
    (room : frameSize (skipped ++ [back]).length regs ≤ start) :
    pushed memory start (entryWords regs kernelEsp (skipped ++ [back]))
      (start - frameSize (skipped ++ [back]).length regs + retAdr) = back := by
  rw [← entryWords_length regs kernelEsp] at room ⊢
  have stored := pushed_stored memory (entryWords regs kernelEsp (skipped ++ [back])) room
  simp only [entryWords, List.reverse_append, List.reverse_reverse, List.reverse_cons,
    List.reverse_nil, List.nil_append] at stored
  rw [stored_append, stored_append, stored_append] at stored
  exact stored.2.1.1.1

/-- The frame below which a return address and more were pushed. -/
theorem entryWords_below (back : Nat) (more : List Nat)
    (room : frameSize skipped.length regs + 4 * (more.length + 1) ≤ start) :
    Framed (pushed memory start (entryWords regs kernelEsp skipped ++ back :: more))
        (start - frameSize skipped.length regs) skipped.length regs ∧
      pushed memory start (entryWords regs kernelEsp skipped ++ back :: more)
        (start - frameSize skipped.length regs - 4) = back ∧
      ∀ low high, start ≤ low ∨
          high + frameSize skipped.length regs + 4 * (more.length + 1) ≤ start →
        AgreeOn memory (pushed memory start (entryWords regs kernelEsp skipped ++ back :: more))
          low high := by
  have length := entryWords_length regs kernelEsp skipped
  rw [pushed_append, length]
  have fits : frameSize skipped.length regs ≤ start := by omega
  have framed := entryWords_framed memory regs kernelEsp skipped fits
  refine ⟨framed.agree ?_, ?_, fun low high outside => ?_⟩
  · apply pushed_agree
    · exact .inl (Nat.le_refl _)
    · simp only [List.length_cons]
      omega
  · rw [pushed, pushed_above _ _ (Nat.le_refl _) (by omega), Function.update_self]
  · rw [← length, ← pushed_append]
    apply pushed_agree
    · simp only [List.length_append, List.length_cons]
      omega
    · simp only [List.length_append, List.length_cons]
      omega

variable {regs} in
theorem kernelSegments_mode (cs : regs.cs = selectorKernelCs) (ss : regs.ss = selectorKernelDs) :
    KernelMode (kernelSegments regs) :=
  ⟨cs, ss, ss, ss, rfl⟩

end Frames

@[simp] theorem kernelSegments_esp (regs : Registers) : (kernelSegments regs).esp = regs.esp := rfl
@[simp] theorem kernelSegments_eip (regs : Registers) : (kernelSegments regs).eip = regs.eip := rfl
@[simp] theorem kernelSegments_fs (regs : Registers) : (kernelSegments regs).fs = regs.fs := rfl

namespace State

/-- An interrupt that finds the processor outside any handler leaves the frame of what it
interrupts at `esp_save_int` and goes over to the interrupt stack. -/
theorem hwint_first (link : Link) (irq : Nat) (ss : state.regs.user ∨ state.regs.ss = selectorKernelDs)
    (depth : state.kReenter = 0) (room : frameSize 1 state.regs ≤ state.start)
    (apart : link.stackTop ≤ state.start - frameSize 1 state.regs ∨
      state.start + 4 ≤ link.stackTop) :
    ∃ other regs, state.hwint link irq = some { state with
        memory := other
        regs := regs
        task := Function.update state.task state.proc { state.task state.proc with
          espSaveInt := state.start - frameSize 1 state.regs }
        kReenter := 1
        cr3 := 0x200000 } ∧
      KernelMode regs ∧ regs.esp = link.stackTop - 4 ∧ regs.eip = link.body (.irq irq) ∧
      Framed other (state.start - frameSize 1 state.regs) 1 state.regs ∧
      other (link.stackTop - 4) = link.entry .restartInt ∧
      ∀ low high, state.start ≤ low ∨ high ≤ state.start - frameSize 1 state.regs →
        link.stackTop ≤ low ∨ high + 4 ≤ link.stackTop → AgreeOn state.memory other low high := by
  obtain ⟨kernelEsp, saved⟩ := state.saveRegisters_gate [link.returned (.irq irq)] ss
  have back := entryWords_returned state.memory state.regs kernelEsp []
    (link.returned (.irq irq)) room
  have large := link.stack_room
  simp only [irqStackSize] at large
  simp only [List.nil_append, List.length_singleton] at back saved
  have size : 64 ≤ frameSize 1 state.regs := by
    unfold frameSize
    omega
  have read : pushed (pushed state.memory state.start
      (entryWords state.regs kernelEsp [link.returned (.irq irq)])) link.stackTop
        [link.entry .restartInt] (state.start - frameSize 1 state.regs + retAdr) =
      link.returned (.irq irq) := by
    refine (pushed_outside _ _ ?_ ?_).trans back
    · simp only [retAdr, List.length_singleton]
      omega
    · simp only [List.length_singleton]
      omega
  have length := entryWords_length state.regs kernelEsp [link.returned (.irq irq)]
  have framed := entryWords_framed state.memory state.regs kernelEsp
    [link.returned (.irq irq)] room
  simp only [List.length_singleton] at length framed
  simp only [hwint, saveInt, push, saved, depth, if_true]
  simp only [currentInEdx, setTask, pushAll, jump, opened, sti, kernelSegments_esp, read, if_true,
    Option.some.injEq, Nat.zero_add, List.length_singleton, Nat.mul_one]
  obtain ⟨cs, ss, ds, es, gs⟩ := @kernelSegments_mode { state.regs with
    ebx := 4
    edx := link.pcb state.proc
    cs := selectorKernelCs
    eflags := gateFlags state.regs.eflags
    esp := state.start - frameSize 1 state.regs
    ss := selectorKernelDs } rfl rfl
  refine ⟨_, _, rfl, ⟨cs, ss, ds, es, gs⟩, rfl, rfl, framed.agree ?_, Function.update_self .., ?_⟩
  · apply pushed_agree
    · simp only [List.length_singleton]
      omega
    · simp only [List.length_singleton]
      omega
  · intro low high first second
    refine (pushed_agree _ _ (by omega) (by omega)).trans (pushed_agree _ _ ?_ ?_)
    · simpa using second
    · simp only [List.length_singleton]
      omega

/-- An interrupt inside a handler stays on the interrupt stack. -/
theorem hwint_nested (link : Link) (irq : Nat) (mode : KernelMode state.regs) (depth : state.kReenter ≠ 0)
    (room : frameSize 1 state.regs + 4 ≤ state.regs.esp) :
    ∃ other regs, state.hwint link irq = some { state with
        memory := other
        regs := regs
        kReenter := state.kReenter + 1
        cr3 := 0x200000 } ∧
      KernelMode regs ∧ regs.esp = state.regs.esp - frameSize 1 state.regs - 4 ∧
      regs.eip = link.body (.irq irq) ∧
      Framed other (state.regs.esp - frameSize 1 state.regs) 1 state.regs ∧
      other (state.regs.esp - frameSize 1 state.regs - 4) = link.entry (.restore .gs) ∧
      ∀ low high, state.regs.esp ≤ low ∨ high + frameSize 1 state.regs + 4 ≤ state.regs.esp →
        AgreeOn state.memory other low high := by
  obtain ⟨kernelEsp, saved⟩ := state.saveRegisters_gate [link.returned (.irq irq)] (.inr mode.2.1)
  have start : state.start = state.regs.esp := if_neg mode.ring0
  rw [start] at saved
  have fits : frameSize 1 state.regs ≤ state.regs.esp := by omega
  have back := entryWords_returned state.memory state.regs kernelEsp []
    (link.returned (.irq irq)) fits
  have length := entryWords_length state.regs kernelEsp [link.returned (.irq irq)]
  have below := entryWords_below state.memory state.regs kernelEsp [link.returned (.irq irq)]
    (link.entry (.restore .gs)) [] room
  simp only [List.nil_append, List.length_singleton] at back saved length
  have read : pushed state.memory state.regs.esp
      (entryWords state.regs kernelEsp [link.returned (.irq irq)] ++ [link.entry (.restore .gs)])
      (state.regs.esp - frameSize 1 state.regs - 4 + 4 + retAdr) = link.returned (.irq irq) := by
    rw [pushed_append, length, Nat.sub_add_cancel (by omega)]
    refine (pushed_outside _ _ (.inl (Nat.le_add_right ..)) ?_).trans back
    simp only [List.length_singleton]
    omega
  simp only [hwint, saveInt, push, saved, depth, if_false]
  simp only [pushAll, jump, opened, sti, List.length_singleton, Nat.mul_one]
  simp only [← length, ← pushed_append] at read ⊢
  simp only [read, if_true, Option.some.injEq]
  obtain ⟨_, _, ds, es, gs⟩ := mode
  refine ⟨_, _, rfl, ⟨rfl, rfl, ds, es, gs⟩, rfl, rfl, ?_⟩
  rw [length]
  simpa using below

/-- A system call leaves the frame of the program at the start of the kernel stack. -/
theorem sysCall_eq (link : Link) (user : state.regs.user) (room : frameSize 1 state.regs + 4 ≤ state.esp0) :
    ∃ other regs, state.sysCall link = some { state with
        memory := other
        regs := regs
        task := Function.update state.task state.proc { state.task state.proc with
          espSaveSyscall := state.esp0 - frameSize 1 state.regs } } ∧
      KernelMode regs ∧ regs.esp = state.esp0 - frameSize 1 state.regs - 4 ∧
      regs.eip = link.body .sysCall ∧
      Framed other (state.esp0 - frameSize 1 state.regs) 1 state.regs ∧
      other (state.esp0 - frameSize 1 state.regs - 4) = link.entry .restartSyscall ∧
      ∀ low high, state.esp0 ≤ low ∨ high + frameSize 1 state.regs + 4 ≤ state.esp0 →
        AgreeOn state.memory other low high := by
  obtain ⟨kernelEsp, saved⟩ := state.saveRegisters_gate [link.returned .sysCall] (.inl user)
  have start : state.start = state.esp0 := if_pos user
  rw [start] at saved
  have fits : frameSize 1 state.regs ≤ state.esp0 := by omega
  have back := entryWords_returned state.memory state.regs kernelEsp []
    (link.returned .sysCall) fits
  have length := entryWords_length state.regs kernelEsp [link.returned .sysCall]
  have below := entryWords_below state.memory state.regs kernelEsp [link.returned .sysCall]
    (link.entry .restartSyscall) [] room
  simp only [List.nil_append, List.length_singleton] at back saved length
  have read : pushed state.memory state.esp0
      (entryWords state.regs kernelEsp [link.returned .sysCall] ++ [link.entry .restartSyscall])
      (state.esp0 - frameSize 1 state.regs + retAdr) = link.returned .sysCall := by
    rw [pushed_append, length]
    refine (pushed_outside _ _ (.inl (Nat.le_add_right ..)) ?_).trans back
    simp only [List.length_singleton]
    omega
  simp only [sysCall, saveSyscall, push, saved]
  simp only [currentInEdx, setTask, pushAll, jump, opened, sti, kernelSegments_esp,
    List.length_singleton, Nat.mul_one]
  simp only [← length, ← pushed_append] at read ⊢
  simp only [read, if_true, Option.some.injEq]
  obtain ⟨cs, ss, ds, es, gs⟩ := @kernelSegments_mode { state.regs with
    edx := link.pcb state.proc
    cs := selectorKernelCs
    eflags := gateFlags state.regs.eflags
    esp := state.esp0 - 4 * (entryWords state.regs kernelEsp [link.returned .sysCall]).length
    ss := selectorKernelDs } rfl rfl
  refine ⟨_, _, rfl, ⟨cs, ss, ds, es, gs⟩, rfl, rfl, ?_⟩
  rw [length]
  simpa using below

/-- An exception leaves the frame of what it interrupts, with the error code, on the
kernel stack, and the five arguments of the handler below the return address. -/
theorem exception_eq (link : Link) (vector errCode : Nat)
    (ss : state.regs.user ∨ state.regs.ss = selectorKernelDs)
    (room : frameSize 2 state.regs + 24 ≤ state.start) :
    ∃ other regs, state.exception link vector errCode = some { state with
        memory := other
        regs := regs } ∧
      KernelMode regs ∧ regs.esp + 24 = state.start - frameSize 2 state.regs ∧
      regs.eip = link.body (.vector vector) ∧
      Framed other (state.start - frameSize 2 state.regs) 2 state.regs ∧
      other (state.start - frameSize 2 state.regs - 4) = link.entry .restartException ∧
      ∀ low high, state.start ≤ low ∨ high + frameSize 2 state.regs + 24 ≤ state.start →
        AgreeOn state.memory other low high := by
  obtain ⟨kernelEsp, saved⟩ := state.saveRegisters_gate
    [if hasErrCode vector then errCode else 0xFFFFFFFF, link.returned (.vector vector)] ss
  simp only [exception, saveException, push, pushAll_pushAll, List.cons_append, List.nil_append]
  generalize (if hasErrCode vector then errCode else 0xFFFFFFFF) = code at saved ⊢
  have two : ([code] ++ [link.returned (.vector vector)]).length = 2 := rfl
  have fits : frameSize 2 state.regs ≤ state.start := by omega
  have back := entryWords_returned state.memory state.regs kernelEsp [code]
    (link.returned (.vector vector)) fits
  have length := entryWords_length state.regs kernelEsp [code, link.returned (.vector vector)]
  rw [two] at back
  simp only [List.cons_append, List.nil_append] at back
  have read : pushed (pushed state.memory state.start
      (entryWords state.regs kernelEsp [code, link.returned (.vector vector)]))
        (state.start - frameSize 2 state.regs) [link.entry .restartException]
        (state.start - frameSize 2 state.regs + retAdr) = link.returned (.vector vector) := by
    refine (pushed_outside _ _ (.inl (Nat.le_add_right ..)) ?_).trans back
    simp only [List.length_singleton]
    omega
  simp only [saved, List.length_cons, List.length_nil, Nat.zero_add, Nat.reduceAdd]
  simp only [pushAll, jump, opened, sti, kernelSegments_esp, List.length_cons,
    List.length_nil, Nat.zero_add, Nat.reduceAdd, Nat.reduceMul, read, if_true,
    Option.some.injEq]
  obtain ⟨cs, ss, ds, es, gs⟩ := @kernelSegments_mode { state.regs with
    cs := selectorKernelCs
    eflags := gateFlags state.regs.eflags
    esp := state.start - frameSize 2 state.regs
    ss := selectorKernelDs } rfl rfl
  have stack : ∀ arguments,
      pushed (pushed (pushed state.memory state.start
          (entryWords state.regs kernelEsp [code, link.returned (.vector vector)]))
        (state.start - frameSize 2 state.regs) [link.entry .restartException])
        (state.start - frameSize 2 state.regs - 4) arguments =
      pushed state.memory state.start
        (entryWords state.regs kernelEsp [code, link.returned (.vector vector)] ++
          link.entry .restartException :: arguments) := by
    intro arguments
    rw [pushed_append, length]
    rfl
  simp only [stack]
  refine ⟨_, _, rfl, ⟨cs, ss, ds, es, gs⟩, ?_, rfl, ?_⟩
  · simp only
    omega
  · exact entryWords_below _ _ _ [code, link.returned (.vector vector)] _ _ room

theorem pcb_succ (link : Link) (pid : Nat) : link.pcb (pid + 1) = link.top pid := by
  simp only [Link.pcb, Link.top, initStackSize]
  omega

/-- `sched` pushes the context of the current process, notes where it lies and goes on at
the context of the process that was chosen. -/
theorem sched_eq (link : Link) (state : State) (back next : Nat) (room : 40 ≤ state.regs.esp) :
    ∃ kernelEsp regs other task,
      Stored other (state.regs.esp - 40) (contextWords state.regs kernelEsp back) ∧
      (∀ low high, state.regs.esp ≤ low ∨ high + 40 ≤ state.regs.esp →
        AgreeOn state.memory other low high) ∧
      task = Function.update state.task state.proc { state.task state.proc with
        espSaveContext := state.regs.esp - 40 } ∧
      state.sched link back next = { state with
        memory := other
        task := task
        proc := next
        cr3 := (task next).cr3
        ldtr := (task next).ldtSel
        esp0 := link.top next
        regs := popContext link other (task next).espSaveContext regs } ∧
      (KernelMode state.regs → KernelMode regs) := by
  have words : ((state.push back).push state.regs.eflags).pushad = state.pushAll
      (contextWords state.regs (state.regs.esp - 8) back).reverse := by
    rw [pushad, push, push, pushAll_pushAll, pushAll_pushAll]
    simp [pushAll, contextWords, Nat.sub_sub]
  refine ⟨state.regs.esp - 8, { state.regs with
    ebx := 4
    eax := link.pcb next
    eflags := setIf (clearIf state.regs.eflags) }, pushed state.memory state.regs.esp
      (contextWords state.regs (state.regs.esp - 8) back).reverse, _, ?_, ?_, rfl, ?_, ?_⟩
  · have stored := pushed_stored state.memory
      (contextWords state.regs (state.regs.esp - 8) back).reverse room
    rwa [List.reverse_reverse] at stored
  · intro low high outside
    exact pushed_agree _ _ outside room
  · simp only [sched, words, cli, sti, currentInEax, setTask, renewEnv, pcb_succ, pushAll,
      List.length_reverse, contextWords, List.length_cons, List.length_nil, Nat.zero_add,
      Nat.reduceAdd, Nat.reduceMul]
    rfl
  · intro mode
    exact ⟨mode.1, mode.2.1, mode.2.2.1, mode.2.2.2.1, mode.2.2.2.2⟩

end State

end AempOS.Kernel
