import AempOS.Kernel.FollowingCode

/-! The processor follows the virtual machine through every run. -/

set_option autoImplicit false

namespace AempOS.Kernel

open Lib

variable {link : Link} {state after : State} {virtual moved : Virtual} {event : Event}

/-- What has to be the case for an event to happen at the processor. -/
def Enabled (link : Link) (state : State) : Event → Prop
  | .interrupt _ => state.regs.eflags.testBit 9 = true
  | .resume => ¬ link.Open state.regs
  | _ => link.Open state.regs

theorem enabled_of_step (stepped : state.step link event = some after) :
    Enabled link state event := by
  cases event with
  | interrupt irq =>
      unfold State.step at stepped
      exact (Option.ite_none_right_eq_some.mp stepped).1
  | resume =>
      intro open_
      simp [State.step, resume_of_open open_] at stepped
  | _ =>
      simp only [State.step, Option.ite_none_left_eq_some] at stepped
      have open_ : link.Open state.regs := Decidable.not_not.mp stepped.1
      exact open_

theorem Follows.interrupt {irq : Nat} (follows : Follows link state virtual)
    (enabled : state.regs.eflags.testBit 9 = true)
    (room : state.regs.user ∨ Room link state virtual 200) :
    Steps link state virtual (.interrupt irq) := by
  cases handlers : virtual.handlers with
  | nil => exact follows.interrupt_first handlers enabled room
  | cons handler rest =>
      have ring0 := (follows.handling handlers).1.ring0
      exact follows.interrupt_nested handlers enabled (room.resolve_left ring0)

theorem Follows.finish {next : Nat} {handler : Handler} {rest : List Handler}
    (follows : Follows link state virtual) (inside : virtual.handlers = handler :: rest)
    (esp : state.regs.esp = handler.base) (chosen : next < nrPcbs)
    (room : link.floor virtual.proc + 200 ≤ (state.task virtual.proc).espSaveInt) :
    Steps link state virtual (.finish next) := by
  cases rest with
  | nil => exact follows.finish_last inside esp chosen room
  | cons outer more => exact follows.finish_nested inside esp

theorem Follows.instruct {regs : Registers} {memory cr3 : Nat → Nat}
    (follows : Follows link state virtual) (open_ : link.Open state.regs)
    (disciplined : Disciplined link (state, virtual) (.instruct regs memory cr3)) :
    Steps link state virtual (.instruct regs memory cr3) := by
  unfold Disciplined at disciplined
  by_cases user : state.regs.user
  · simp only [if_pos user] at disciplined
    obtain ⟨spares, _, same, outer⟩ := disciplined
    exact follows.program user outer spares same
  · simp only [if_neg user] at disciplined
    obtain ⟨spares, _, same, mode, code, floor, below⟩ := disciplined
    cases handlers : virtual.handlers with
    | nil => exact follows.kernelCode handlers open_ user mode code floor below spares same
    | cons handler rest => exact follows.handlerCode handlers mode code floor below spares

/-- Whatever happens, the processor and the virtual machine make the step together. -/
theorem Follows.steps (follows : Follows link state virtual) (enabled : Enabled link state event)
    (disciplined : Disciplined link (state, virtual) event) : Steps link state virtual event := by
  cases event with
  | instruct regs memory cr3 => exact follows.instruct enabled disciplined
  | interrupt irq => exact follows.interrupt enabled disciplined
  | finish next =>
      obtain ⟨chosen, ⟨handler, rest, inside, esp⟩, room⟩ := disciplined
      exact follows.finish inside esp chosen room
  | sysCall => exact follows.sysCall disciplined
  | exception vector errCode => exact follows.exception disciplined.1 enabled disciplined.2
  | sysCallEnd next =>
      obtain ⟨chosen, outside, call, rest, calls, kind, esp, room⟩ := disciplined
      exact follows.sysCallEnd outside enabled calls kind esp chosen room
  | exceptionEnd next =>
      obtain ⟨chosen, outside, call, rest, calls, kind, esp, room⟩ := disciplined
      exact follows.exceptionEnd outside enabled calls kind esp chosen room
  | sched back next =>
      obtain ⟨chosen, outside, ring0, code, room⟩ := disciplined
      exact follows.sched outside enabled ring0 code chosen room
  | resume => exact follows.resume enabled
  | fork child =>
      obtain ⟨outside, ring0, inside, _, new, call, calls, kind⟩ := disciplined
      exact follows.fork outside enabled ring0 inside new calls kind
  | pthread child parent entry stackBase =>
      obtain ⟨outside, ring0, inside, parent_inside, _, new, call, calls, kind⟩ := disciplined
      exact follows.pthread outside enabled ring0 inside parent_inside new calls kind
  | exec selectorCpu entry stackBase =>
      obtain ⟨outside, ring0, call, calls, kind⟩ := disciplined
      exact follows.exec outside enabled ring0 calls kind

/-- `restart_initial` is on its way to the first process. -/
theorem Started.follows {regs : Nat → StackFrame} (started : Started link regs state) :
    Follows link state {
      proc := 0
      handlers := []
      context := fun pid => (regs pid).registers
      calls := fun _ => []
      fresh := fun pid => pid ≠ 0 } := by
  obtain ⟨before, initialised, proc, initial, depth, cs, ss, _, rfl⟩ := started
  have inside : 0 < nrPcbs := by decide
  refine {
    proc := proc
    inside := inside
    started := initial
    depth := depth
    esp0 := ?_
    ldtr := congrArg (fun pid => (before.task pid).ldtSel) proc
    cr3 := congrArg (fun pid => (before.task pid).cr3) proc
    processes := fun pid within => ?_
    nested := trivial
    running := .inl ⟨rfl, .inr ?_, (regs 0).registers, ?_, ?_⟩ }
  · rw [← State.pcb_succ, ← proc]
    rfl
  · have frame := initialised pid within
    have fresh : Fresh link before.memory (before.task pid) pid (regs pid).registers :=
      ⟨frame.saveContext, frame.eip, frame.outer, regs pid, frame.frame, rfl⟩
    exact ⟨frame.outer, trivial, fun _ => fresh.ready,
      fun new => ⟨of_decide_eq_true new, rfl, fresh⟩⟩
  · have place := (initialised 0 inside).saveInt
    simp only [State.restartInitial, State.jump, State.currentInEax, State.renewEnv, proc, place,
      Link.floor, Link.top, initStackSize, process0Size, pStackTop]
    omega
  · have frame := initialised 0 inside
    have outer := frame.outer
    have place := frame.saveInt
    have high : pStackTop ≤ link.top 0 := by
      simp only [Link.top, initStackSize, pStackTop]
      omega
    have size : frameSize 1 (regs 0).registers = pStackTop := by
      simp [frameSize, outer, pStackTop]
    refine (StackFrame.framed frame.frame outer).restore rfl ?_ cs ss ?_ (.inl outer)
      (.arrived (.inl outer) (.inl outer))
    · simp only [State.restartInitial, State.jump, State.currentInEax, State.renewEnv, proc, place]
    · show link.top 0 - pStackTop + frameSize 1 (regs 0).registers ≤ limit link 0 (regs 0).registers
      rw [size, limit, if_pos outer]
      omega
  · exact view_of_user (initialised 0 inside).outer

/-- The pairs of a run belong together. -/
theorem follows_step {pair next : State × Virtual} (follows : Follows link pair.1 pair.2)
    (disciplined : Disciplined link pair event)
    (stepped : (pairMachine link).step pair event = some next) : Follows link next.1 next.2 := by
  obtain ⟨after, moves, same⟩ := Option.bind_eq_some_iff.mp stepped
  obtain ⟨moved, move, rfl⟩ := Option.map_eq_some_iff.mp same
  obtain ⟨after', moved', moves', move', kept⟩ := follows.steps (enabled_of_step moves) disciplined
  rw [moves] at moves'
  cases moves'
  rw [move] at move'
  cases move'
  exact kept

variable {pair : State × Virtual}

end AempOS.Kernel
