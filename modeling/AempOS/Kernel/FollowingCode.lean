import AempOS.Kernel.FollowingExits

/-! What programs and C code do between the gates, and the system calls that build or
replace the frame of a process. -/

set_option autoImplicit false

namespace AempOS.Kernel

open Lib

variable {link : Link} {state after : State} {virtual moved : Virtual}

/-! Instructions. -/

/-- Stores that spare the live words spare the stacks that do not run. -/
theorem Process.spared {memory : Nat → Nat} {pid : Nat} (moved : Virtual) (directory : Nat)
    (process : Process link state.memory (state.task pid) virtual pid) (inside : pid < nrPcbs)
    (waiting : pid ≠ virtual.proc)
    (spares : ∀ address, Live link state virtual address → memory address = state.memory address)
    (proc : moved.proc = virtual.proc) (context : moved.context pid = virtual.context pid)
    (calls : moved.calls pid = virtual.calls pid) (fresh : moved.fresh pid = virtual.fresh pid) :
    Process link memory { state.task pid with cr3 := directory } moved pid :=
  process.keeps waiting
    (fun _ member address spans => spares address (.call inside member spans))
    (fun address above below => spares address (.waiting inside waiting above below))
    rfl rfl proc context calls fresh

/-- An instruction outside any handler. -/
theorem Follows.code {regs : Registers} {memory cr3 : Nat → Nat} (follows : Follows link state virtual)
    (outside : virtual.handlers = []) (open_ : link.Open state.regs)
    (under : Under regs.view (virtual.calls virtual.proc))
    (executing : Executing link memory regs (virtual.setContext virtual.proc regs.view))
    (spares : ∀ address, Live link state virtual address → memory address = state.memory address)
    (same : cr3 virtual.proc = (state.task virtual.proc).cr3) :
    Steps link state virtual (.instruct regs memory cr3) := by
  have process := follows.process
  have stepped : state.step link (.instruct regs memory cr3) = some { state with
      regs := regs
      memory := memory
      task := fun pid => { state.task pid with cr3 := cr3 pid } } := by
    simp [State.step, open_]
  refine .of (virtual.setContext virtual.proc regs.view) stepped ?_ ?_
  · simp [observe, Virtual.step, Virtual.setRunning, outside]
  refine {
    proc := follows.proc
    inside := follows.inside
    started := follows.started
    depth := follows.depth
    esp0 := follows.esp0
    ldtr := follows.ldtr
    cr3 := follows.cr3.trans (by rw [← same]; rfl)
    processes := fun pid within => ?_
    nested := nested_of_nil outside
    running := .inl ⟨outside, executing⟩ }
  by_cases current : pid = virtual.proc
  · subst current
    refine .current ?_ (process.calls.keeps (fun call member address spans =>
      spares address (.call within member spans)) rfl) rfl process.used
    simp only [Virtual.setContext, Function.update_self]
    exact under
  · exact (follows.processes pid within).spared (virtual.setContext virtual.proc regs.view) (cr3 pid)
      within current spares rfl (Function.update_of_ne current ..) rfl rfl

/-- An instruction of a program. -/
theorem Follows.program {regs : Registers} {memory cr3 : Nat → Nat} (follows : Follows link state virtual)
    (user : state.regs.user) (outer : regs.user)
    (spares : ∀ address, Live link state virtual address → memory address = state.memory address)
    (same : cr3 virtual.proc = (state.task virtual.proc).cr3) :
    Steps link state virtual (.instruct regs memory cr3) := by
  obtain ⟨outside, _, calls⟩ := follows.user user
  refine follows.code outside (.inl user) ?_ ⟨.inl outer, regs, .arrived (.inl outer) (.inl outer), ?_⟩
    spares same
  · rw [calls]
    exact view_user.mpr outer
  · simp [Virtual.setContext]

/-- An instruction of C code that serves a call. -/
theorem Follows.kernelCode {regs : Registers} {memory cr3 : Nat → Nat}
    (follows : Follows link state virtual) (outside : virtual.handlers = [])
    (open_ : link.Open state.regs) (ring0 : ¬ state.regs.user) (mode : KernelMode regs)
    (code : link.decode regs.eip = none) (floor : (stackBounds link virtual).1 ≤ regs.esp)
    (below : regs.esp ≤ (stackBounds link virtual).2)
    (spares : ∀ address, Live link state virtual address → memory address = state.memory address)
    (same : cr3 virtual.proc = (state.task virtual.proc).cr3) :
    Steps link state virtual (.instruct regs memory cr3) := by
  obtain ⟨view, _⟩ := follows.open_ outside open_
  have under := follows.process.under
  have inside : ¬ regs.view.user := fun user => mode.ring0 (view_user.mp user)
  cases calls : virtual.calls virtual.proc with
  | nil =>
      rw [calls, ← view] at under
      exact absurd (view_user.mp under) ring0
  | cons call rest =>
      simp only [stackBounds, outside, calls] at floor below
      refine follows.code outside open_ ?_
        (executing_of_open mode code floor (by simp [Virtual.setContext])) spares same
      rw [calls]
      exact ⟨inside, by rw [view_esp]; exact below⟩

/-- An instruction of a handler. -/
theorem Follows.handlerCode {regs : Registers} {memory cr3 : Nat → Nat} {handler : Handler}
    {rest : List Handler} (follows : Follows link state virtual)
    (inside : virtual.handlers = handler :: rest) (mode : KernelMode regs)
    (code : link.decode regs.eip = none) (floor : (stackBounds link virtual).1 ≤ regs.esp)
    (below : regs.esp ≤ (stackBounds link virtual).2)
    (spares : ∀ address, Live link state virtual address → memory address = state.memory address) :
    Steps link state virtual (.instruct regs memory cr3) := by
  obtain ⟨_, code', _, _, _, parked⟩ := follows.handling inside
  have process := follows.process
  have nested := follows.nested
  rw [inside] at nested
  have stepped : state.step link (.instruct regs memory cr3) = some { state with
      regs := regs
      memory := memory
      task := fun pid => { state.task pid with cr3 := cr3 pid } } := by
    simp [State.step, show link.Open state.regs from .inr code']
  simp only [stackBounds, inside] at floor below
  have stack : AgreeOn state.memory memory (state.task virtual.proc).espSaveInt
      (limit link virtual.proc (virtual.context virtual.proc)) := fun address above under =>
    spares address (.interrupted (by simp [inside]) above under)
  refine .of { virtual with handlers := { handler with context := regs.view } :: rest } stepped
    ?_ ?_
  · simp [observe, Virtual.step, Virtual.setRunning, inside]
  refine {
    proc := follows.proc
    inside := follows.inside
    started := follows.started
    depth := by
      have depth := follows.depth
      rw [inside] at depth
      exact depth
    esp0 := follows.esp0
    ldtr := follows.ldtr
    cr3 := by
      have cr3 := follows.cr3
      rw [inside] at cr3
      exact cr3
    processes := fun pid within => ?_
    nested := ?_
    running := .inr ⟨mode, code, floor, below, rfl, ?_⟩ }
  · by_cases current : pid = virtual.proc
    · subst current
      refine .current process.under ?_ rfl process.used
      exact process.calls.keeps (fun call member address spans =>
        spares address (.call within member spans)) rfl
    · exact (follows.processes pid within).spared
        { virtual with handlers := { handler with context := regs.view } :: rest } (cr3 pid) within
        current spares rfl rfl rfl rfl
  · have kept : Nested link memory (handler :: rest) := nested.keeps fun other member address spans =>
      spares address (.handler (inside ▸ member) spans)
    cases rest with
    | nil => exact kept
    | cons outer more => exact kept
  · exact parked.agree stack

/-- An instruction of the way back. -/
theorem Follows.resume (follows : Follows link state virtual) (inside : ¬ link.Open state.regs) :
    Steps link state virtual .resume := by
  have outside : virtual.handlers = [] := by
    cases handlers : virtual.handlers with
    | nil => rfl
    | cons handler rest => exact absurd (.inr (follows.handling handlers).2.1) inside
  obtain ⟨floor, final, leads, view⟩ := follows.executing outside
  obtain ⟨regs, moves⟩ := leads.moves inside
  have ring0 : ¬ state.regs.user := fun user => inside (.inl user)
  have stepped : state.step link .resume = some { state with regs := regs } := by
    simp [State.step, moves]
  refine .of _ stepped rfl ?_
  exact {
    proc := follows.proc
    inside := follows.inside
    started := follows.started
    depth := follows.depth
    esp0 := follows.esp0
    ldtr := follows.ldtr
    cr3 := follows.cr3
    processes := follows.processes
    nested := follows.nested
    running := .inl ⟨outside,
      (leads.rises moves).imp_right (Nat.le_trans (floor.resolve_left ring0)),
      final, leads.next moves, view⟩ }

/-! The calls that store into a frame. -/

/-- The frame of a PCB that never ran was replaced. -/
theorem Follows.created {child : Nat} (frame : StackFrame) (other : Nat → Nat) (task : Task)
    (follows : Follows link state virtual) (outside : virtual.handlers = [])
    (ring0 : ¬ state.regs.user) (inside : child < nrPcbs) (new : virtual.fresh child = true)
    (agree : ∀ from_ to_, link.top child ≤ from_ ∨ to_ + pStackTop ≤ link.top child →
      AgreeOn state.memory other from_ to_)
    (stored : Stored other (link.top child - pStackTop) frame.words)
    (user : frame.registers.user)
    (same : task.espSaveContext = (state.task child).espSaveContext)
    (step : after = { state with
      memory := other, task := Function.update state.task child task }) :
    Follows link after (virtual.setContext child frame.registers) := by
  subst step
  obtain ⟨waiting, none, fresh⟩ := (follows.processes child inside).fresh new
  obtain ⟨place, eip, _⟩ := fresh
  have different : virtual.proc ≠ child := Ne.symm waiting
  have fresh' : Fresh link other task child frame.registers := by
    refine ⟨same.trans place, ?_, user, frame, stored, rfl⟩
    have high : 4096 ≤ link.top child := by
      simp only [Link.top, initStackSize]
      omega
    exact (agree (link.top child - pStackTop - 4) (link.top child - pStackTop)
      (.inr (by simp only [pStackTop]; omega)) _ (Nat.le_refl _)
      (by simp only [pStackTop]; omega)).trans eip
  have elsewhere : ∀ pid, pid ≠ child → ∀ low, link.floor pid ≤ low →
      AgreeOn state.memory other low (link.top pid) := by
    intro pid apart low floor
    have := stacks_apart link apart
    have : link.floor child + pStackTop ≤ link.top child := by
      simp only [Link.floor, Link.top, initStackSize, process0Size, pStackTop]
      omega
    exact agree _ _ (by omega)
  obtain ⟨floor, final, leads, view⟩ := follows.executing outside
  have process := follows.process
  refine {
    proc := follows.proc
    inside := follows.inside
    started := follows.started
    depth := follows.depth
    esp0 := follows.esp0
    ldtr := by
      simp only [Virtual.setContext, Function.update_of_ne different]
      exact follows.ldtr
    cr3 := by
      simp only [Virtual.setContext, Function.update_of_ne different]
      exact follows.cr3
    processes := fun pid within => ?_
    nested := nested_of_nil outside
    running := .inl ⟨outside, floor, final, ?_, ?_⟩ }
  · have process := follows.processes pid within
    by_cases created : pid = child
    · subst created
      simp only [Function.update_self]
      refine ⟨?_, ?_, fun _ => ?_, fun _ => ⟨waiting, none, ?_⟩⟩
      · simp only [Virtual.setContext, Function.update_self, none]
        exact user
      · simp only [Virtual.setContext, none]
        trivial
      · simp only [Virtual.setContext, Function.update_self]
        exact fresh'.ready
      · simp only [Virtual.setContext, Function.update_self]
        exact fresh'
    · simp only [Function.update_of_ne created]
      by_cases current : pid = virtual.proc
      · subst current
        refine .current ?_ ?_ rfl process.used
        · simp only [Virtual.setContext, Function.update_of_ne created]
          exact process.under
        · refine process.calls.agree (elsewhere _ created _ ?_) rfl
          have low := floor.resolve_left ring0
          have below := follows.esp_le_limit outside ring0
          exact Nat.le_trans low (Nat.le_trans below process.limit_le)
      · exact process.agree current (elsewhere _ created _ (process.ready current).1) rfl rfl rfl
          (Function.update_of_ne created ..) rfl rfl
  · simp only [Virtual.setContext, Function.update_of_ne different]
    exact leads.agree ((elsewhere _ different _ (floor.resolve_left ring0)).within (Nat.le_refl _)
      process.limit_le_top)
  · simp only [Virtual.setContext, Function.update_of_ne different]
    exact view

/-- The frame that a system call found on the stack. -/
theorem Process.caller {memory : Nat → Nat} {task : Task} {pid : Nat} {call : Call}
    (process : Process link memory task virtual pid) (calls : virtual.calls pid = [call])
    (kind : call.kind = .sysCall) :
    call.base + 4 = State.frameAddress link pid ∧ call.context.user ∧ ∃ frame : StackFrame,
      Stored memory (State.frameAddress link pid) frame.words ∧ frame.registers = call.context := by
  have stack := process.calls
  rw [calls] at stack
  obtain ⟨served, _⟩ := stack
  unfold Served at served
  simp only [kind] at served
  obtain ⟨_, user, _, _, place, frame, stored, registers⟩ := served
  have same : call.base + 4 = State.frameAddress link pid := Nat.eq_sub_of_add_eq place
  exact ⟨same, user, frame, same ▸ stored, registers⟩

/-- Storing into the frame of a process leaves all else alone. -/
theorem frame_agree {memory : Nat → Nat} {pid offset word from_ to_ : Nat}
    (inside : offset < pStackTop) (apart : link.top pid ≤ from_ ∨ to_ + pStackTop ≤ link.top pid) :
    AgreeOn memory (Function.update memory (State.frameAddress link pid + offset) word) from_ to_ := by
  have high : pStackTop ≤ link.top pid := by
    simp only [Link.top, initStackSize, pStackTop]
    omega
  intro address above below
  apply Function.update_of_ne
  unfold State.frameAddress
  omega

theorem frame_written {memory : Nat → Nat} {pid from_ to_ : Nat} {frame : StackFrame}
    (apart : link.top pid ≤ from_ ∨ to_ + pStackTop ≤ link.top pid) :
    AgreeOn memory (written memory (State.frameAddress link pid) frame.words) from_ to_ := by
  have high : pStackTop ≤ link.top pid := by
    simp only [Link.top, initStackSize, pStackTop]
    omega
  intro address above below
  apply written_outside
  simp only [State.frameAddress, pStackTop, StackFrame.words_length] at *
  omega

/-- The flags in the frame of a PCB that never ran. -/
theorem Process.flags {memory : Nat → Nat} {task : Task} {pid : Nat}
    (process : Process link memory task virtual pid) (new : virtual.fresh pid = true) :
    memory (State.frameAddress link pid + eflagsReg) = (virtual.context pid).eflags := by
  obtain ⟨_, _, _, _, _, frame, stored, registers⟩ := process.fresh new
  rw [← registers]
  exact stored_get stored 15 (by simp)

theorem Follows.fork {child : Nat} {call : Call} (follows : Follows link state virtual)
    (outside : virtual.handlers = []) (open_ : link.Open state.regs) (ring0 : ¬ state.regs.user)
    (inside : child < nrPcbs) (new : virtual.fresh child = true)
    (calls : virtual.calls virtual.proc = [call]) (kind : call.kind = .sysCall) :
    Steps link state virtual (.fork child) := by
  obtain ⟨_, user, frame, stored, registers⟩ := follows.process.caller calls kind
  have flags := (follows.processes child inside).flags new
  have words : fetched state.memory (State.frameAddress link virtual.proc) 18 = frame.words :=
    fetched_eq stored
  have stepped : state.step link (.fork child) = some (state.fork link child) := by
    simp [State.step, open_]
  let built : StackFrame := { frame with eax := 0, eflags := (virtual.context child).eflags }
  have context : built.registers =
      { call.context with eax := 0, eflags := (virtual.context child).eflags } := by
    rw [← registers]
    rfl
  refine .of (virtual.setContext child built.registers) stepped ?_ ?_
  · obtain ⟨kind', base, caller⟩ := call
    cases kind
    simp [observe, Virtual.step, outside, calls, context]
  refine Follows.created built
    (Function.update (Function.update (written state.memory
      (State.frameAddress link child) frame.words) (State.frameAddress link child + eflagsReg)
      (virtual.context child).eflags) (State.frameAddress link child + eaxReg) 0)
    { state.task virtual.proc with
      espSaveInt := (state.task child).espSaveInt
      espSaveContext := (state.task child).espSaveContext
      ldtSel := (state.task child).ldtSel
      cr3 := (state.task child).cr3
      regs := { (state.task virtual.proc).regs with eax := 0 } }
    follows outside ring0 inside new ?_ ?_ ?_ rfl ?_
  · intro from_ to_ apart
    exact ((frame_written apart).trans (frame_agree (by decide) apart)).trans
      (frame_agree (by decide) apart)
  · exact ((written_stored _ _ _).update 15 _).update 11 0
  · rw [context]
    exact user
  · simp only [State.fork, State.setTask, follows.proc, words, flags, Function.update_self,
      Function.update_idem]

theorem Follows.pthread {child parent entry stackBase : Nat} {call : Call}
    (follows : Follows link state virtual) (outside : virtual.handlers = [])
    (open_ : link.Open state.regs) (ring0 : ¬ state.regs.user) (inside : child < nrPcbs)
    (parent_inside : parent < nrPcbs) (new : virtual.fresh child = true)
    (calls : virtual.calls parent = [call]) (kind : call.kind = .sysCall) :
    Steps link state virtual (.pthread child parent entry stackBase) := by
  obtain ⟨_, user, frame, stored, registers⟩ :=
    (follows.processes parent parent_inside).caller calls kind
  have flags := (follows.processes child inside).flags new
  have words : fetched state.memory (State.frameAddress link parent) 18 = frame.words :=
    fetched_eq stored
  have stepped : state.step link (.pthread child parent entry stackBase) =
      some (state.pthread link child parent entry stackBase) := by
    simp [State.step, open_]
  let built : StackFrame := { frame with
    eax := 0, eip := entry, esp := stackBase, eflags := (virtual.context child).eflags }
  have context : built.registers = { call.context with
      eax := 0, eip := entry, esp := stackBase, eflags := (virtual.context child).eflags } := by
    rw [← registers]
    rfl
  refine .of (virtual.setContext child built.registers) stepped ?_ ?_
  · obtain ⟨kind', base, caller⟩ := call
    cases kind
    simp [observe, Virtual.step, outside, calls, context]
  refine Follows.created built
    (Function.update (Function.update (Function.update (Function.update
      (written state.memory (State.frameAddress link child) frame.words)
      (State.frameAddress link child + eflagsReg) (virtual.context child).eflags)
      (State.frameAddress link child + espReg) stackBase)
      (State.frameAddress link child + eipReg) entry) (State.frameAddress link child + eaxReg) 0)
    { state.task parent with
      espSaveInt := (state.task child).espSaveInt
      espSaveContext := (state.task child).espSaveContext
      ldtSel := (state.task child).ldtSel
      regs := { (state.task parent).regs with esp := stackBase, eip := entry, eax := 0 } }
    follows outside ring0 inside new ?_ ?_ ?_ rfl ?_
  · intro from_ to_ apart
    exact ((((frame_written apart).trans (frame_agree (by decide) apart)).trans
      (frame_agree (by decide) apart)).trans (frame_agree (by decide) apart)).trans
      (frame_agree (by decide) apart)
  · exact ((((written_stored _ _ _).update 15 _).update 16 _).update 13 _).update 11 0
  · rw [context]
    exact user
  · simp only [State.pthread, State.setTask, words, flags, Function.update_self,
      Function.update_idem]

/-- `exec` replaces what its own system call will return to. -/
theorem Follows.exec {selectorCpu entry stackBase : Nat} {call : Call}
    (follows : Follows link state virtual) (outside : virtual.handlers = [])
    (open_ : link.Open state.regs) (ring0 : ¬ state.regs.user)
    (calls : virtual.calls virtual.proc = [call]) (kind : call.kind = .sysCall) :
    Steps link state virtual (.exec selectorCpu entry stackBase) := by
  obtain ⟨place, _, _⟩ := follows.process.caller calls kind
  have process := follows.process
  have under := process.under
  have stack := process.calls
  rw [calls] at under stack
  have base := stack.base_lt
  obtain ⟨served, _⟩ := stack
  unfold Served at served
  simp only [kind] at served
  obtain ⟨_, _, back, saved, room, _⟩ := served
  obtain ⟨view, mode⟩ := follows.open_ outside open_
  have mode := mode.resolve_left ring0
  let built : StackFrame := { State.execRegs selectorCpu (state.task virtual.proc).regs with
    eip := entry, esp := stackBase }
  let other := Function.update (Function.update (written state.memory
    (State.frameAddress link virtual.proc)
    (State.execRegs selectorCpu (state.task virtual.proc).regs).words)
    (State.frameAddress link virtual.proc + eipReg) entry)
    (State.frameAddress link virtual.proc + espReg) stackBase
  have agree : ∀ from_ to_, link.top virtual.proc ≤ from_ ∨
      to_ + pStackTop ≤ link.top virtual.proc → AgreeOn state.memory other from_ to_ := by
    intro from_ to_ apart
    exact ((frame_written apart).trans (frame_agree (by decide) apart)).trans
      (frame_agree (by decide) apart)
  have stored : Stored other (State.frameAddress link virtual.proc) built.words :=
    ((written_stored _ _ _).update 13 _).update 16 _
  have stepped : state.step link (.exec selectorCpu entry stackBase) =
      some (state.exec link selectorCpu entry stackBase) := by
    simp [State.step, open_]
  have entered : state.exec link selectorCpu entry stackBase = { state with
      memory := other
      task := Function.update state.task virtual.proc
        { state.task virtual.proc with regs := built } } := by
    simp only [State.exec, State.setTask, follows.proc, Function.update_idem]
    rfl
  refine .of (virtual.setCalls virtual.proc [⟨.sysCall, call.base, built.registers⟩])
    (stepped.trans (congrArg some entered)) ?_ ?_
  · obtain ⟨kind', base, caller⟩ := call
    cases kind
    simp [observe, Virtual.step, outside, calls, follows.proc, built]
  have floor := (follows.executing outside).1.resolve_left ring0
  refine {
    proc := follows.proc
    inside := follows.inside
    started := follows.started
    depth := follows.depth
    esp0 := follows.esp0
    ldtr := by
      simp only [Virtual.setCalls, Function.update_self]
      exact follows.ldtr
    cr3 := by
      simp only [Virtual.setCalls, Function.update_self]
      exact follows.cr3
    processes := ?_
    nested := nested_of_nil outside
    running := .inl ⟨outside, executing_of_open mode (open_.resolve_left ring0) floor view.symm⟩ }
  refine replaced_processes _ [⟨.sysCall, call.base, built.registers⟩]
    (virtual.context virtual.proc) _ follows.processes ?_ under ⟨?_, trivial⟩ rfl rfl
    (Function.update_eq_self ..).symm rfl
  · intro from_ to_ apart
    refine agree _ _ (apart.imp_right fun low => ?_)
    have : link.floor virtual.proc + pStackTop ≤ link.top virtual.proc := by
      simp only [Link.floor, Link.top, initStackSize, process0Size, pStackTop]
      omega
    omega
  · have outer : built.registers.user := by
      simp [built, StackFrame.registers, State.execRegs, Registers.user]
    refine ⟨rfl, outer, ?_, saved, room, built, place ▸ stored, rfl⟩
    exact (agree call.base (call.base + 4) (.inr (Nat.le_of_eq room)) _ (Nat.le_refl _)
      (by omega)).trans back

end AempOS.Kernel
