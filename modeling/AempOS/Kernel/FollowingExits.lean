import AempOS.Kernel.FollowingEntries

/-! Every way out of the kernel is a move of the virtual machine. They all end in `sched`,
but for the end of a handler that interrupted another. -/

set_option autoImplicit false

namespace AempOS.Kernel

open Lib

variable {link : Link} {state after : State} {virtual moved : Virtual}

/-- The processor at a `call sched`: when it comes back to `back` the current process is
on its way to its context. -/
structure Switching (link : Link) (state : State) (virtual : Virtual) (back : Nat) : Prop where
  proc : state.proc = virtual.proc
  inside : virtual.proc < nrPcbs
  started : state.kernelInitial = 0
  outside : virtual.handlers = []
  depth : state.kReenter = 0
  processes : ∀ pid < nrPcbs, Process link state.memory (state.task pid) virtual pid
  mode : KernelMode state.regs
  room : link.floor virtual.proc + 40 ≤ state.regs.esp
  below : state.regs.esp ≤ limit link virtual.proc (virtual.context virtual.proc)
  back : ∀ fs, ∃ final, Leads link state.memory
    (limit link virtual.proc (virtual.context virtual.proc))
    { state.regs with eip := back, fs := fs } final ∧
      final.view = virtual.context virtual.proc

/-- `sched` leaves the current process ready and takes the processor to the way back of
the one chosen. -/
theorem Switching.sched {back next : Nat} (switching : Switching link state virtual back)
    (chosen : next < nrPcbs) :
    Follows link (state.sched link back next) (virtual.switch next) := by
  have process := switching.processes _ switching.inside
  have room := switching.room
  have below := switching.below
  obtain ⟨kernelEsp, regs, other, task, stored, agree, task_eq, entered, mode⟩ :=
    state.sched_eq link back next (by omega)
  have mode := mode switching.mode
  rw [switching.proc] at task_eq
  -- the process that called `sched`
  have ready : Ready link other (task virtual.proc) virtual.proc (virtual.context virtual.proc) := by
    rw [task_eq, Function.update_self]
    have within : state.regs.esp - 40 + 40 ≤
        limit link virtual.proc (virtual.context virtual.proc) := by omega
    refine ⟨Nat.le_sub_of_add_le room, within, fun regs mode => ?_⟩
    obtain ⟨final, leads, view⟩ := switching.back regs.fs
    refine ⟨final, context_leads _ stored mode within ?_, view⟩
    have same : { state.regs with
        gs := regs.gs, fs := regs.fs, es := regs.es, ds := regs.ds, cs := regs.cs
        ss := regs.ss, eip := back, esp := state.regs.esp - 40 + 40 } =
        ({ state.regs with eip := back, fs := regs.fs } : Registers) := by
      obtain ⟨cs, ss, ds, es, gs⟩ := mode
      obtain ⟨cs', ss', ds', es', gs'⟩ := switching.mode
      rw [cs.trans cs'.symm, ss.trans ss'.symm, ds.trans ds'.symm, es.trans es'.symm,
        gs.trans gs'.symm, Nat.sub_add_cancel (by omega)]
    rw [same]
    exact leads.agree (agree _ _ (.inl (Nat.le_refl _)))
  have processes : ∀ pid < nrPcbs, Process link other (task pid) virtual pid := by
    intro pid inside
    have process := switching.processes pid inside
    by_cases current : pid = virtual.proc
    · subst current
      refine .current process.under ?_ rfl process.used
      refine process.calls.agree (agree _ _ (.inl (by have := process.limit_le; omega))) ?_
      rw [task_eq, Function.update_self]
    · rw [task_eq, Function.update_of_ne current]
      refine process.agree current (agree _ _ ?_) rfl rfl rfl rfl rfl rfl
      have := (process.ready current).1
      have := stacks_apart link current
      have := (switching.processes _ switching.inside).limit_le_top
      omega
  rw [entered]
  have readyNext : Ready link other (task next) next (virtual.context next) := by
    by_cases current : next = virtual.proc
    · exact current ▸ ready
    · exact (processes next chosen).ready current
  refine {
    proc := rfl
    inside := chosen
    started := switching.started
    depth := by
      simp only [Virtual.switch, switching.outside]
      exact switching.depth
    esp0 := rfl
    ldtr := rfl
    cr3 := by simp [Virtual.switch, switching.outside]
    processes := fun pid inside => (processes pid inside).switch fun current => current ▸ ready
    nested := nested_of_nil switching.outside
    running := .inl ⟨switching.outside, .inr ?_, readyNext.2.2 regs mode⟩ }
  exact Nat.le_trans readyNext.1 (Nat.le_add_right ..)

theorem Process.outside {memory : Nat → Nat} {task : Task} {pid : Nat}
    (process : Process link memory task virtual pid) (handlers : List Handler) :
    Process link memory task { virtual with handlers := handlers } pid :=
  ⟨process.under, process.calls, process.ready, process.fresh⟩

/-- The end of an interrupt that found a process running. -/
theorem Follows.finish_last {next : Nat} {handler : Handler}
    (follows : Follows link state virtual) (inside : virtual.handlers = [handler])
    (esp : state.regs.esp = handler.base) (chosen : next < nrPcbs)
    (room : link.floor virtual.proc + 200 ≤ (state.task virtual.proc).espSaveInt) :
    Steps link state virtual (.finish next) := by
  obtain ⟨mode, code, _, _, _, parked⟩ := follows.handling inside
  have nested := follows.nested
  rw [inside] at nested
  obtain ⟨_, back⟩ := nested
  have depth : state.kReenter = 1 := by
    rw [follows.depth, inside]
    rfl
  -- `restart_int`, back on the kernel stack of the process
  have switching : Switching link { state with
      kReenter := 0
      regs := { state.regs with
        eflags := clearIf state.regs.eflags
        ebx := 4
        eax := link.pcb state.proc
        eip := link.entry .restartInt
        esp := (state.task state.proc).espSaveInt } } { virtual with handlers := [] }
      (link.entry .restartIntDone) := by
    rw [follows.proc]
    refine {
      proc := rfl
      inside := follows.inside
      started := follows.started
      outside := rfl
      depth := rfl
      processes := fun pid within => (follows.processes pid within).outside []
      mode := ⟨mode.1, mode.2.1, mode.2.2.1, mode.2.2.2.1, mode.2.2.2.2⟩
      room := by dsimp only; omega
      below := parked.2.1
      back := fun fs => ?_ }
    obtain ⟨final, leads, view⟩ := parked.2.2
      { state.regs with
        eflags := clearIf state.regs.eflags
        ebx := 4
        eax := link.pcb virtual.proc
        eip := link.entry (.restore .gs)
        esp := (state.task virtual.proc).espSaveInt
        fs := fs } rfl rfl mode.1 mode.2.1
    exact ⟨final, .jump (.inl rfl) mode.1 mode.2.1 parked.2.1 leads, view⟩
  have stepped : state.step link (.finish next) = state.hwintEnd link next := by
    simp [State.step, show link.Open state.regs from .inr code]
  have ended : state.hwintEnd link next = some (State.sched link (link.entry .restartIntDone) next
      { state with
        kReenter := 0
        regs := { state.regs with
          eflags := clearIf state.regs.eflags
          ebx := 4
          eax := link.pcb state.proc
          eip := link.entry .restartInt
          esp := (state.task state.proc).espSaveInt } }) := by
    simp [State.hwintEnd, State.cli, State.ret, State.restart, State.restartInt,
      State.currentInEax, esp, back, depth, follows.started]
  refine .of _ (stepped.trans ended) ?_ (switching.sched chosen)
  simp [observe, Virtual.step, inside]

/-- The end of an interrupt that found a handler running. -/
theorem Follows.finish_nested {next : Nat} {handler outer : Handler} {rest : List Handler}
    (follows : Follows link state virtual) (inside : virtual.handlers = handler :: outer :: rest)
    (esp : state.regs.esp = handler.base) : Steps link state virtual (.finish next) := by
  obtain ⟨mode, code, low, _, _, parked⟩ := follows.handling inside
  have nested := follows.nested
  rw [inside] at nested
  obtain ⟨back, ⟨regs, framed, mode', code', esp', below, view⟩, nested⟩ := nested
  have stepped : state.step link (.finish next) = state.hwintEnd link next := by
    simp [State.step, show link.Open state.regs from .inr code]
  have restored := Framed.restartRestore link { state with
      kReenter := state.kReenter - 1
      regs := { state.regs with
        eflags := clearIf state.regs.eflags
        eip := link.entry (.restore .gs)
        esp := handler.base + 4 } } framed
    rfl mode'.ring0 (mode.2.1.trans mode'.2.1.symm) esp'
  have ended : state.hwintEnd link next = some { state with
      kReenter := state.kReenter - 1
      regs := regs } := by
    simp only [State.hwintEnd, State.cli, State.ret, State.restart, esp, back, link.decode_entry,
      Option.some.injEq]
    exact restored
  refine .of { virtual with handlers := outer :: rest } (stepped.trans ended) ?_ ?_
  · simp [observe, Virtual.step, inside]
  refine {
    proc := follows.proc
    inside := follows.inside
    started := follows.started
    depth := ?_
    esp0 := follows.esp0
    ldtr := follows.ldtr
    cr3 := ?_
    processes := fun pid within => (follows.processes pid within).outside _
    nested := nested
    running := .inr ⟨mode', code', ?_, below, view, parked⟩ }
  · have depth := follows.depth
    rw [inside] at depth
    dsimp only
    simp only [List.length_cons] at depth ⊢
    omega
  · have cr3 := follows.cr3
    rw [inside] at cr3
    exact cr3
  · dsimp only
    omega

/-- Room below the calls of the running process. -/
theorem Room.floor {bytes : Nat} (room : Room link state virtual bytes)
    (outside : virtual.handlers = []) : link.floor virtual.proc + bytes ≤ state.regs.esp := by
  have low : (stackBounds link virtual).1 = link.floor virtual.proc := by
    unfold stackBounds
    rw [outside]
    split <;> simp_all
  rwa [Room, low] at room

/-- C code of the kernel gives up the processor. -/
theorem Follows.sched {back next : Nat} (follows : Follows link state virtual)
    (outside : virtual.handlers = []) (open_ : link.Open state.regs) (ring0 : ¬ state.regs.user)
    (code : link.decode back = none) (chosen : next < nrPcbs) (room : Room link state virtual 200) :
    Steps link state virtual (.sched back next) := by
  obtain ⟨view, mode⟩ := follows.open_ outside open_
  have mode := mode.resolve_left ring0
  have room := room.floor outside
  have process := follows.process
  have stepped : state.step link (.sched back next) = some (state.sched link back next) := by
    simp [State.step, open_]
  let context := ({ state.regs with eip := back } : Registers)
  have inside : ¬ context.view.user :=
    fun outer => ring0 ((@view_user context).mp outer)
  have bound : limit link virtual.proc context.view = state.regs.esp := by
    rw [limit, if_neg inside]
    exact view_esp
  have under : Under context.view (virtual.calls virtual.proc) := by
    have under := process.under
    rw [← view] at under
    cases calls : virtual.calls virtual.proc with
    | nil =>
        rw [calls] at under
        exact absurd (view_user.mp under) ring0
    | cons call rest =>
        rw [calls] at under
        refine ⟨inside, ?_⟩
        have below := under.2
        rw [view_esp] at below
        rw [view_esp]
        exact below
  have switching : Switching link state (virtual.setContext virtual.proc context.view) back := by
    have processes := replaced_processes (state.task virtual.proc) (virtual.calls virtual.proc)
      context.view (virtual.setContext virtual.proc context.view) follows.processes
      (fun _ _ _ _ _ _ => rfl) under process.calls rfl rfl rfl (Function.update_eq_self ..).symm
    refine {
      proc := follows.proc
      inside := follows.inside
      started := follows.started
      outside := outside
      depth := by rw [follows.depth, outside]; rfl
      processes := by simpa using processes
      mode := mode
      room := Nat.le_trans (Nat.add_le_add_left (by decide) _) room
      below := ?_
      back := fun fs => ?_ }
    · simp only [Virtual.setContext, Function.update_self]
      exact Nat.le_of_eq bound.symm
    · simp only [Virtual.setContext, Function.update_self]
      refine ⟨{ context with fs := fs }, .arrived (.inr code) (.inr mode), ?_⟩
      exact (@view_of_ring0 { context with fs := fs } ring0).trans
        (@view_of_ring0 context ring0).symm
  refine .of _ stepped ?_ (switching.sched chosen)
  simp [observe, Virtual.step, outside, context]

/-- The end of a system call: the frame gets the result in `eax`. -/
theorem Follows.sysCallEnd {next : Nat} {call : Call} {rest : List Call}
    (follows : Follows link state virtual) (outside : virtual.handlers = [])
    (open_ : link.Open state.regs) (calls : virtual.calls virtual.proc = call :: rest)
    (kind : call.kind = .sysCall) (esp : state.regs.esp = call.base) (chosen : next < nrPcbs)
    (room : Room link state virtual 200) : Steps link state virtual (.sysCallEnd next) := by
  obtain ⟨view, mode⟩ := follows.open_ outside open_
  have room := room.floor outside
  have process := follows.process
  have under := process.under
  rw [calls] at under
  have ring0 : ¬ state.regs.user := fun outer => under.1 (view ▸ view_user.mpr outer)
  have mode := mode.resolve_left ring0
  have stack := process.calls
  rw [calls] at stack
  obtain ⟨served, _⟩ := stack
  unfold Served at served
  simp only [kind] at served
  obtain ⟨rfl, user, back, saved, place, frame, stored, registers⟩ := served
  simp only [pStackTop] at place
  let memory := Function.update state.memory (call.base + 4 + eaxReg) state.regs.eax
  let context := ({ call.context with eax := state.regs.eax } : Registers)
  have outer : context.user := user
  have bound : limit link virtual.proc context = link.top virtual.proc := if_pos outer
  have stored' : Stored memory (call.base + 4) ({ frame with eax := state.regs.eax } : StackFrame).words :=
    stored.update 11 state.regs.eax
  have framed : Framed memory (call.base + 4) 1 context := by
    have same : ({ frame with eax := state.regs.eax } : StackFrame).registers = context := by
      simp only [context, ← registers]
      rfl
    exact same ▸ StackFrame.framed stored' (same ▸ outer)
  have size : frameSize 1 context = 72 := by simp [frameSize, outer]
  let entered : State := { state with
    memory := memory
    regs := { state.regs with
      eflags := clearIf state.regs.eflags
      ebx := 4
      edx := link.pcb state.proc
      esi := call.base + 4
      eax := link.pcb state.proc
      eip := link.entry .restartSyscall
      esp := call.base + 4 } }
  have switching : Switching link entered ((virtual.setCalls virtual.proc []).setContext
      virtual.proc context) (link.entry .restartSyscallDone) := by
    have processes := @replaced_processes _ _ _ memory _ (state.task virtual.proc) [] context
      ((virtual.setCalls virtual.proc []).setContext virtual.proc context) follows.processes ?_
      outer trivial rfl rfl rfl rfl
    · refine {
        proc := follows.proc
        inside := follows.inside
        started := follows.started
        outside := outside
        depth := by
          simp only [entered]
          rw [follows.depth, outside]
          rfl
        processes := by simpa using processes
        mode := ⟨mode.1, mode.2.1, mode.2.2.1, mode.2.2.2.1, mode.2.2.2.2⟩
        room := ?_
        below := ?_
        back := fun fs => ?_ }
      · show link.floor virtual.proc + 40 ≤ call.base + 4
        omega
      · simp only [Virtual.setContext, Virtual.setCalls, Function.update_self]
        rw [bound]
        show call.base + 4 ≤ _
        omega
      · simp only [Virtual.setContext, Virtual.setCalls, Function.update_self]
        rw [bound]
        refine ⟨context, .jump (.inr rfl) mode.1 mode.2.1 ?_ ?_, view_of_user outer⟩
        · show call.base + 4 ≤ _
          omega
        · exact framed.restore rfl rfl mode.1 mode.2.1 (by omega) (.inl outer)
            (.arrived (.inl outer) (.inl outer))
    · intro from_ to_ apart address above below
      refine Function.update_of_ne ?_ ..
      simp only [eaxReg]
      omega
  have stepped : state.step link (.sysCallEnd next) = state.sysCallEnd link next := by
    simp [State.step, open_]
  have ended : state.sysCallEnd link next =
      some (entered.sched link (link.entry .restartSyscallDone) next) := by
    have read : Function.update state.memory (call.base + 4 + eaxReg) state.regs.eax call.base =
        link.entry .restartSyscall := by
      rw [Function.update_of_ne (by simp only [eaxReg]; omega), back]
    simp only [State.sysCallEnd, State.cli, State.currentInEdx, State.ret, State.restart,
      State.restartSyscall, State.currentInEax, follows.proc, saved, esp, read, link.decode_entry]
    simp only [entered, memory, follows.proc]
  refine .of _ (stepped.trans ended) ?_ (switching.sched chosen)
  simp [observe, Virtual.step, outside, calls, kind, CallKind.result, ← view, context]

/-- The end of an exception. -/
theorem Follows.exceptionEnd {next : Nat} {call : Call} {rest : List Call}
    (follows : Follows link state virtual) (outside : virtual.handlers = [])
    (open_ : link.Open state.regs) (calls : virtual.calls virtual.proc = call :: rest)
    (kind : call.kind = .exception) (esp : state.regs.esp + 4 * 5 = call.base)
    (chosen : next < nrPcbs) (room : Room link state virtual 200) :
    Steps link state virtual (.exceptionEnd next) := by
  obtain ⟨view, mode⟩ := follows.open_ outside open_
  have room := room.floor outside
  have process := follows.process
  have under := process.under
  rw [calls] at under
  have ring0 : ¬ state.regs.user := fun outer => under.1 (view ▸ view_user.mpr outer)
  have mode := mode.resolve_left ring0
  have stack := process.calls
  rw [calls] at stack
  obtain ⟨served, stack⟩ := stack
  unfold Served at served
  simp only [kind] at served
  obtain ⟨back, regs, framed, same, code, place⟩ := served
  have bound : limit link virtual.proc call.context = call.base + 4 + frameSize 2 regs := by
    rw [← same]
    cases place with
    | inl outer => rw [limit, if_pos (view_user.mpr outer.1), outer.2.2]
    | inr inner =>
        rw [limit, if_neg (fun user => inner.1.ring0 (view_user.mp user)), view_esp, inner.2.1]
  have lower : Under call.context rest := by
    rw [← same]
    cases place with
    | inl outer =>
        obtain ⟨user, rfl, _⟩ := outer
        exact view_user.mpr user
    | inr inner =>
        obtain ⟨mode', esp', outer, more, rfl, below⟩ := inner
        exact ⟨fun user => mode'.ring0 (view_user.mp user), by rw [view_esp]; exact below⟩
  let entered : State := { state with
    regs := { state.regs with
      eflags := clearIf state.regs.eflags
      eip := link.entry .restartException
      esp := call.base + 4 } }
  have switching : Switching link entered ((virtual.setCalls virtual.proc rest).setContext
      virtual.proc call.context) (link.entry (.restoreException .gs)) := by
    have processes := replaced_processes (state.task virtual.proc) rest call.context
      ((virtual.setCalls virtual.proc rest).setContext virtual.proc call.context)
      follows.processes (fun _ _ _ _ _ _ => rfl) lower stack rfl rfl rfl rfl
    refine {
      proc := follows.proc
      inside := follows.inside
      started := follows.started
      outside := outside
      depth := by
        simp only [entered]
        rw [follows.depth, outside]
        rfl
      processes := by simpa using processes
      mode := ⟨mode.1, mode.2.1, mode.2.2.1, mode.2.2.2.1, mode.2.2.2.2⟩
      room := ?_
      below := ?_
      back := fun fs => ?_ }
    · show link.floor virtual.proc + 40 ≤ call.base + 4
      omega
    · simp only [Virtual.setContext, Virtual.setCalls, Function.update_self]
      rw [bound]
      exact Nat.le_add_right ..
    · simp only [Virtual.setContext, Virtual.setCalls, Function.update_self]
      refine ⟨regs, ?_, same⟩
      refine framed.restoreException rfl rfl mode.1 mode.2.1 (by omega) ?_ (.arrived code ?_)
      · exact place.imp And.left fun inner => ⟨inner.1.1, inner.1.2.1, inner.2.1⟩
      · exact place.imp And.left And.left
  have stepped : state.step link (.exceptionEnd next) = state.exceptionEnd link next := by
    simp [State.step, open_]
  have ended : state.exceptionEnd link next =
      some (entered.sched link (link.entry (.restoreException .gs)) next) := by
    simp only [State.exceptionEnd, State.cli, State.ret, State.restart, State.restartException,
      esp, back, link.decode_entry]
    simp only [entered]
  refine .of _ (stepped.trans ended) ?_ (switching.sched chosen)
  simp [observe, Virtual.step, outside, calls, kind, CallKind.result]

end AempOS.Kernel
