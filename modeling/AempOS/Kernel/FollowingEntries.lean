import AempOS.Kernel.Following

/-! Every way into the kernel is a move of the virtual machine. -/

set_option autoImplicit false

namespace AempOS.Kernel

open Lib

variable {link : Link} {state after : State} {virtual moved : Virtual}

/-- A step of the processor and the move it stands for, with the states they lead to. -/
def Steps (link : Link) (state : State) (virtual : Virtual) (event : Event) : Prop :=
  ∃ after moved, state.step link event = some after ∧
    virtual.step (observe state after event) = some moved ∧ Follows link after moved

theorem Steps.of {event : Event} (moved : Virtual) (stepped : state.step link event = some after)
    (move : virtual.step (observe state after event) = some moved)
    (follows : Follows link after moved) : Steps link state virtual event :=
  ⟨after, moved, stepped, move, follows⟩

theorem Follows.process (follows : Follows link state virtual) :
    Process link state.memory (state.task virtual.proc) virtual virtual.proc :=
  follows.processes _ follows.inside

theorem Follows.executing (follows : Follows link state virtual) (outside : virtual.handlers = []) :
    Executing link state.memory state.regs virtual := by
  cases follows.running with
  | inl running => exact running.2
  | inr handling => simp [outside, Handling] at handling

theorem Follows.handling (follows : Follows link state virtual) {handler : Handler}
    {rest : List Handler} (inside : virtual.handlers = handler :: rest) :
    Handling link state virtual (handler :: rest) := by
  cases follows.running with
  | inl running => simp [inside] at running
  | inr handling => exact inside ▸ handling

/-- In user mode the processor has the registers of the current process, which has no open
calls. -/
theorem Follows.user (follows : Follows link state virtual) (user : state.regs.user) :
    virtual.handlers = [] ∧ state.regs = virtual.context virtual.proc ∧
      virtual.calls virtual.proc = [] := by
  have outside : virtual.handlers = [] := by
    cases inside : virtual.handlers with
    | nil => rfl
    | cons handler rest => exact absurd user (follows.handling inside).1.ring0
  obtain ⟨_, final, leads, view⟩ := follows.executing outside
  have same := leads.of_open (.inl user)
  subst same
  rw [view_of_user user] at view
  refine ⟨outside, view, ?_⟩
  have under := follows.process.under
  cases calls : virtual.calls virtual.proc with
  | nil => rfl
  | cons call rest =>
      rw [calls] at under
      exact absurd user (view ▸ under.1)

/-- Kernel code that is not on the way back runs with the context of the current process. -/
theorem Follows.open_ (follows : Follows link state virtual) (outside : virtual.handlers = [])
    (open_ : link.Open state.regs) :
    state.regs.view = virtual.context virtual.proc ∧
      (state.regs.user ∨ KernelMode state.regs) := by
  obtain ⟨_, final, leads, view⟩ := follows.executing outside
  have same := leads.of_open open_
  subst same
  exact ⟨view, leads.ends.2⟩

/-- Kernel code stays below the end of the way back. -/
theorem Follows.esp_le_limit (follows : Follows link state virtual) (outside : virtual.handlers = [])
    (ring0 : ¬ state.regs.user) :
    state.regs.esp ≤ limit link virtual.proc (virtual.context virtual.proc) := by
  by_cases open_ : link.Open state.regs
  · have inside : ¬ state.regs.view.user := fun outer => ring0 (view_user.mp outer)
    rw [← (follows.open_ outside open_).1, limit, if_neg inside]
    exact Nat.le_of_eq view_esp.symm
  · obtain ⟨_, final, leads, _⟩ := follows.executing outside
    exact leads.esp_le open_

/-- What the gate needs to know of code that runs outside any handler: where it starts to
push, and that nothing above that place is below the end of the way back. -/
theorem Follows.start (follows : Follows link state virtual) (outside : virtual.handlers = [])
    (room : state.regs.user ∨ Room link state virtual 200) :
    (state.regs.user ∨ state.regs.ss = selectorKernelDs) ∧
      link.floor virtual.proc + 200 ≤ state.start ∧
      state.start ≤ limit link virtual.proc (virtual.context virtual.proc) := by
  obtain ⟨_, final, leads, view⟩ := follows.executing outside
  refine ⟨leads.mode.imp_right And.right, ?_⟩
  by_cases user : state.regs.user
  · obtain ⟨_, same, _⟩ := follows.user user
    have place : state.start = link.top virtual.proc := (if_pos user).trans follows.esp0
    have high : link.floor virtual.proc + 200 ≤ link.top virtual.proc := by
      simp only [Link.floor, Link.top, initStackSize, process0Size]
      omega
    rw [place, ← same, limit, if_pos user]
    exact ⟨high, Nat.le_refl _⟩
  · have place : state.start = state.regs.esp := if_neg user
    have room := room.resolve_left user
    have low : (stackBounds link virtual).1 = link.floor virtual.proc := by
      unfold stackBounds
      rw [outside]
      split <;> simp_all
    rw [Room, low] at room
    rw [place]
    exact ⟨room, follows.esp_le_limit outside user⟩

/-- The code that runs outside any handler, once its frame lies on its stack. -/
theorem Follows.park {other : Nat → Nat} (follows : Follows link state virtual)
    (outside : virtual.handlers = []) (room : state.regs.user ∨ Room link state virtual 200)
    (framed : Framed other (state.start - frameSize 1 state.regs) 1 state.regs)
    (agree : AgreeOn state.memory other state.start (link.top virtual.proc)) :
    Parked link other virtual.proc (state.start - frameSize 1 state.regs)
      (virtual.context virtual.proc) := by
  obtain ⟨_, low, high⟩ := follows.start outside room
  obtain ⟨_, final, leads, view⟩ := follows.executing outside
  have size : frameSize 1 state.regs ≤ 72 := by
    unfold frameSize
    split <;> omega
  refine ⟨by omega, by omega, fun start eip esp cs ss => ⟨final, ?_, view⟩⟩
  have after : Leads link other (limit link virtual.proc (virtual.context virtual.proc))
      state.regs final := by
    by_cases user : state.regs.user
    · have same := leads.of_open (.inl user)
      subst same
      exact .arrived (.inl user) (.inl user)
    · have place : state.start = state.regs.esp := if_neg user
      exact leads.agree (place ▸ agree.within (Nat.le_refl _) follows.process.limit_le_top)
  refine framed.restore eip esp cs ss (by omega) ?_ after
  refine leads.mode.imp_right fun mode => ⟨mode.1, mode.2, ?_⟩
  have place : state.start = state.regs.esp := if_neg (not_user_of_cs mode.1)
  omega

/-- The stacks after something was pushed on the stack of the running process, from `start`
down to `low`, and perhaps on the interrupt stack. -/
theorem Follows.pushed_processes {other : Nat → Nat} (task : Task) (moved : Virtual)
    (follows : Follows link state virtual) (start low : Nat)
    (floor : link.floor virtual.proc ≤ low) (down : low ≤ start)
    (below : start ≤ callsFrom (link.top virtual.proc) (virtual.calls virtual.proc))
    (agree : ∀ from_ to_, start ≤ from_ ∨ to_ ≤ low →
      link.stackTop ≤ from_ ∨ to_ + irqStackSize ≤ link.stackTop →
      AgreeOn state.memory other from_ to_)
    (same : task.espSaveSyscall = (state.task virtual.proc).espSaveSyscall)
    (proc : moved.proc = virtual.proc) (context : moved.context = virtual.context)
    (calls : moved.calls = virtual.calls) (fresh : moved.fresh = virtual.fresh) :
    ∀ pid < nrPcbs, Process link other (Function.update state.task virtual.proc task pid) moved pid := by
  intro pid inside
  have process := follows.processes pid inside
  have large := link.stack_room
  have top := callsFrom_le follows.process.calls
  by_cases current : pid = virtual.proc
  · subst current
    rw [Function.update_self]
    refine .current ?_ ?_ proc ?_
    · rw [context, calls]
      exact process.under
    · rw [calls]
      refine process.calls.agree (agree _ _ (.inl below) ?_) same
      have apart := irq_stack_apart link follows.inside
      omega
    · rw [fresh]
      exact process.used
  · rw [Function.update_of_ne current]
    refine process.agree current ?_ rfl rfl proc (by rw [context]) (by rw [calls]) (by rw [fresh])
    have ready := process.ready current
    have apart := irq_stack_apart link inside
    have spaced := stacks_apart link current
    have low := ready.1
    apply agree
    · omega
    · omega

theorem nested_of_nil {memory : Nat → Nat} {handlers : List Handler} (none : handlers = []) :
    Nested link memory handlers :=
  none ▸ trivial

/-- Kernel code that is not on the way back leads to itself. -/
theorem executing_of_open {memory : Nat → Nat} {regs : Registers} (mode : KernelMode regs)
    (code : link.decode regs.eip = none) (floor : link.floor virtual.proc ≤ regs.esp)
    (context : virtual.context virtual.proc = regs.view) : Executing link memory regs virtual :=
  ⟨.inr floor, regs, .arrived (.inr code) (.inr mode), context.symm⟩

/-! Interrupts. -/

theorem frameSize_le (gap : Nat) (regs : Registers) : frameSize gap regs ≤ 68 + 4 * gap := by
  unfold frameSize
  split <;> omega

theorem Follows.interrupt_first {irq : Nat} (follows : Follows link state virtual)
    (outside : virtual.handlers = []) (enabled : state.regs.eflags.testBit 9 = true)
    (room : state.regs.user ∨ Room link state virtual 200) :
    Steps link state virtual (.interrupt irq) := by
  obtain ⟨ss, low, high⟩ := follows.start outside room
  have size := frameSize_le 1 state.regs
  have depth : state.kReenter = 0 := by
    rw [follows.depth, outside]
    rfl
  have below := follows.process.limit_le
  have top := callsFrom_le follows.process.calls
  have large := link.stack_room
  have apart := irq_stack_apart link follows.inside
  have irqSize : irqStackSize = 2048 := rfl
  obtain ⟨other, regs, entered, mode, esp, eip, framed, back, agree⟩ :=
    State.hwint_first link irq ss depth (by omega) (by omega)
  have stepped : state.step link (.interrupt irq) = state.hwint link irq := by
    simp [State.step, enabled]
  refine .of _ (stepped.trans entered) rfl ?_
  rw [follows.proc]
  refine {
    proc := rfl
    inside := follows.inside
    started := follows.started
    depth := by rw [outside]; rfl
    esp0 := follows.esp0
    ldtr := by simp only [Function.update_self]; exact follows.ldtr
    cr3 := by simp
    processes := ?_
    nested := ?_
    running := .inr ?_ }
  · refine follows.pushed_processes _ _ state.start (state.start - frameSize 1 state.regs)
      (by omega) (by omega) (by omega) ?_ rfl rfl rfl rfl rfl
    intro from_ to_ first second
    exact agree _ _ (by omega) (by omega)
  · rw [outside]
    exact ⟨by dsimp only; omega, esp ▸ back⟩
  · rw [outside]
    refine ⟨mode, eip ▸ link.body_open _, by dsimp only; omega, by dsimp only; omega, rfl, ?_⟩
    simp only [Function.update_self]
    exact follows.park outside room framed (agree _ _ (.inl (Nat.le_refl _)) (by omega))

theorem Follows.interrupt_nested {irq : Nat} {handler : Handler} {rest : List Handler}
    (follows : Follows link state virtual) (inside : virtual.handlers = handler :: rest)
    (enabled : state.regs.eflags.testBit 9 = true) (room : Room link state virtual 200) :
    Steps link state virtual (.interrupt irq) := by
  obtain ⟨mode, code, low, high, view, parked⟩ := follows.handling inside
  have size : frameSize 1 state.regs = 64 := by simp [frameSize, mode.ring0]
  have nested := follows.nested
  rw [inside] at nested
  have base := nested.base_lt
  have large := link.stack_room
  have apart := irq_stack_apart link follows.inside
  have fits : link.stackTop - irqStackSize + 200 ≤ state.regs.esp := by
    simpa [Room, stackBounds, inside] using room
  have top := follows.process.limit_le_top
  obtain ⟨other, regs, entered, mode', esp, eip, framed, back, agree⟩ :=
    State.hwint_nested link irq mode (by rw [follows.depth, inside]; simp)
      (by omega)
  rw [size] at framed back agree esp
  have stepped : state.step link (.interrupt irq) = state.hwint link irq := by
    simp [State.step, enabled]
  have place : regs.esp + 4 = state.regs.esp - 64 := by omega
  refine .of _ (stepped.trans entered) rfl ?_
  refine {
    proc := follows.proc
    inside := follows.inside
    started := follows.started
    depth := by simp only [List.length_cons, follows.depth]
    esp0 := follows.esp0
    ldtr := follows.ldtr
    cr3 := by simp
    processes := ?_
    nested := ?_
    running := .inr ?_ }
  · have same := follows.pushed_processes (state.task virtual.proc)
      { virtual with handlers := ⟨regs.esp, regs.view⟩ :: virtual.handlers }
      (link.floor virtual.proc) (link.floor virtual.proc) (Nat.le_refl _) (Nat.le_refl _) ?_
      (fun from_ to_ _ second => agree from_ to_ ?_) rfl rfl rfl rfl rfl
    · simpa using same
    · have := parked.1
      have := parked.2.1
      have := follows.process.limit_le
      omega
    · omega
  · rw [inside]
    refine ⟨esp ▸ back, ⟨state.regs, ?_, mode, code, ?_, high, view⟩,
      nested.agree (agree _ _ (.inl high))⟩
    · dsimp only
      rw [place]
      exact framed
    · dsimp only
      omega
  · rw [inside]
    refine ⟨mode', eip ▸ link.body_open _, by dsimp only; omega, Nat.le_refl _, rfl, ?_⟩
    exact parked.agree (agree _ _ (by have := parked.1; omega))

/-! Calls into the kernel. -/

/-- The stacks when the context and the calls of the running process are replaced and
nothing is stored on the other stacks. -/
theorem replaced_processes {memory other : Nat → Nat} {tasks : Nat → Task} (task : Task)
    (calls : List Call) (context : Registers) (moved : Virtual)
    (processes : ∀ pid < nrPcbs, Process link memory (tasks pid) virtual pid)
    (agree : ∀ from_ to_, link.top virtual.proc ≤ from_ ∨ to_ ≤ link.floor virtual.proc →
      AgreeOn memory other from_ to_)
    (under : Under context calls)
    (stack : CallStack link other task (link.top virtual.proc) calls)
    (proc : moved.proc = virtual.proc) (fresh : moved.fresh = virtual.fresh)
    (context_eq : moved.context = Function.update virtual.context virtual.proc context)
    (calls_eq : moved.calls = Function.update virtual.calls virtual.proc calls) :
    ∀ pid < nrPcbs, Process link other (Function.update tasks virtual.proc task pid) moved pid := by
  intro pid within
  have process := processes pid within
  by_cases current : pid = virtual.proc
  · subst current
    rw [Function.update_self]
    refine .current ?_ ?_ proc ?_
    · rw [context_eq, calls_eq, Function.update_self, Function.update_self]
      exact under
    · rw [calls_eq, Function.update_self]
      exact stack
    · rw [fresh]
      exact process.used
  · rw [Function.update_of_ne current]
    refine process.agree current (agree _ _ ?_) rfl rfl proc ?_ ?_ (by rw [fresh])
    · have := (process.ready current).1
      have := stacks_apart link current
      omega
    · rw [context_eq, Function.update_of_ne current]
    · rw [calls_eq, Function.update_of_ne current]

/-- The stacks after a call was put on the stack of the running process, by pushes from
`start` down to `low`. -/
theorem Follows.called_processes {other : Nat → Nat} {call : Call}
    (follows : Follows link state virtual) (task : Task) (context : Registers) (start low : Nat)
    (floor : link.floor virtual.proc ≤ low)
    (below : start ≤ callsFrom (link.top virtual.proc) (virtual.calls virtual.proc))
    (agree : ∀ from_ to_, start ≤ from_ ∨ to_ ≤ low → AgreeOn state.memory other from_ to_)
    (same : virtual.calls virtual.proc = [] ∨
      task.espSaveSyscall = (state.task virtual.proc).espSaveSyscall)
    (ring0 : ¬ context.user) (under : context.esp ≤ call.base)
    (served : Served link other task (link.top virtual.proc) call (virtual.calls virtual.proc))
    (moved_eq : moved = (virtual.setCalls virtual.proc
      (call :: virtual.calls virtual.proc)).setContext virtual.proc context) :
    ∀ pid < nrPcbs, Process link other (Function.update state.task virtual.proc task pid) moved pid := by
  subst moved_eq
  have process := follows.process
  have top := callsFrom_le process.calls
  refine replaced_processes task (call :: virtual.calls virtual.proc) context _ follows.processes
    (fun from_ to_ apart => agree _ _ (by omega)) ⟨ring0, under⟩ ⟨served, ?_⟩ rfl rfl rfl rfl
  cases same with
  | inl none =>
      rw [none]
      trivial
  | inr same => exact process.calls.agree (agree _ _ (.inl below)) same

theorem Follows.sysCall (follows : Follows link state virtual) (user : state.regs.user) :
    Steps link state virtual .sysCall := by
  obtain ⟨outside, context, none⟩ := follows.user user
  have size : frameSize 1 state.regs = 72 := by simp [frameSize, user]
  have esp0 := follows.esp0
  have high : link.floor virtual.proc + 200 ≤ link.top virtual.proc := by
    simp only [Link.floor, Link.top, initStackSize, process0Size]
    omega
  obtain ⟨other, regs, entered, mode, esp, eip, framed, back, agree⟩ :=
    State.sysCall_eq link user (by omega)
  rw [size] at framed back agree esp entered
  have stepped : state.step link .sysCall = state.sysCall link := by
    simp [State.step, show link.Open state.regs from .inl user]
  obtain ⟨frame, stored, registers⟩ := framed.frame user
  refine .of ((virtual.setCalls virtual.proc
    (⟨.sysCall, regs.esp, virtual.context virtual.proc⟩ ::
      virtual.calls virtual.proc)).setContext virtual.proc regs.view)
    (stepped.trans entered) ?_ ?_
  · simp [observe, Virtual.step, outside]
  rw [follows.proc]
  have place : regs.esp + 4 = state.esp0 - 72 := by omega
  refine {
    proc := rfl
    inside := follows.inside
    started := follows.started
    depth := follows.depth
    esp0 := follows.esp0
    ldtr := by
      simp only [Virtual.setContext, Virtual.setCalls, Function.update_self]
      exact follows.ldtr
    cr3 := by
      simp only [Virtual.setContext, Virtual.setCalls, Function.update_self]
      exact follows.cr3
    processes := ?_
    nested := nested_of_nil outside
    running := .inl ⟨outside, ?_⟩ }
  · refine follows.called_processes _ regs.view state.esp0 (state.esp0 - 76) (by omega)
      ?_ (fun from_ to_ apart => agree _ _ (by omega)) (.inl none) ?_ ?_ ?_ rfl
    · rw [none]
      exact Nat.le_of_eq esp0
    · rw [view_user]
      exact mode.ring0
    · exact Nat.le_of_eq view_esp
    · refine ⟨none, context ▸ user, esp ▸ back, place.symm, ?_, frame, ?_, registers.trans context⟩
      · simp only [pStackTop]
        omega
      · dsimp only
        rw [place]
        exact stored
  · refine executing_of_open mode (eip ▸ link.body_open _) ?_ ?_
    · simp only [Virtual.setContext, Virtual.setCalls]
      omega
    · simp only [Virtual.setContext, Virtual.setCalls, Function.update_self]

theorem Follows.exception {vector errCode : Nat} (follows : Follows link state virtual)
    (outside : virtual.handlers = []) (open_ : link.Open state.regs)
    (room : state.regs.user ∨ Room link state virtual 200) :
    Steps link state virtual (.exception vector errCode) := by
  obtain ⟨ss, low, high⟩ := follows.start outside room
  obtain ⟨view, mode⟩ := follows.open_ outside open_
  have size := frameSize_le 2 state.regs
  obtain ⟨other, regs, entered, mode', esp, eip, framed, back, agree⟩ :=
    State.exception_eq link vector errCode ss (by omega)
  have below := follows.process.limit_le
  have stepped : state.step link (.exception vector errCode) =
      state.exception link vector errCode := by
    simp [State.step, open_]
  refine .of ((virtual.setCalls virtual.proc
    (⟨.exception, regs.esp + 4 * 5, virtual.context virtual.proc⟩ ::
      virtual.calls virtual.proc)).setContext virtual.proc regs.view)
    (stepped.trans entered) ?_ ?_
  · simp [observe, Virtual.step, outside]
  have place : regs.esp + 4 * 5 = state.start - frameSize 2 state.regs - 4 := by omega
  refine {
    proc := follows.proc
    inside := follows.inside
    started := follows.started
    depth := follows.depth
    esp0 := follows.esp0
    ldtr := follows.ldtr
    cr3 := follows.cr3
    processes := ?_
    nested := nested_of_nil outside
    running := .inl ⟨outside, ?_⟩ }
  · have same := @Follows.called_processes _ _ _ _ other
      ⟨.exception, regs.esp + 4 * 5, virtual.context virtual.proc⟩ follows
      (state.task virtual.proc) regs.view state.start
      (state.start - frameSize 2 state.regs - 24) (by omega)
      (by omega) (fun from_ to_ apart => agree _ _ (by omega)) (.inr rfl) ?_ ?_ ?_ rfl
    · simpa using same
    · rw [view_user]
      exact mode'.ring0
    · rw [view_esp]
      exact Nat.le_add_right ..
    · refine ⟨place ▸ back, state.regs, ?_, view, open_, ?_⟩
      · dsimp only
        rw [show regs.esp + 4 * 5 + 4 = state.start - frameSize 2 state.regs by omega]
        exact framed
      · have under := follows.process.under
        cases mode with
        | inl user =>
            have start : state.start = link.top virtual.proc := (if_pos user).trans follows.esp0
            exact .inl ⟨user, (follows.user user).2.2, by dsimp only; omega⟩
        | inr mode =>
            have start : state.start = state.regs.esp := if_neg mode.ring0
            refine .inr ⟨mode, by dsimp only; omega, ?_⟩
            cases calls : virtual.calls virtual.proc with
            | nil =>
                rw [calls] at under
                exact absurd (view_user.mp (view ▸ under)) mode.ring0
            | cons outer more =>
                rw [calls, ← view] at under
                exact ⟨outer, more, rfl, view_esp ▸ under.2⟩
  · refine executing_of_open mode' (eip ▸ link.body_open _) ?_ ?_
    · simp only [Virtual.setContext, Virtual.setCalls]
      omega
    · simp only [Virtual.setContext, Virtual.setCalls, Function.update_self]

end AempOS.Kernel
