import AempOS.Kernel.FollowingRuns

/-! What the entry code owes to programs, in every run: nothing that happens in between
changes the registers a program comes back to. -/

set_option autoImplicit false

namespace AempOS.Kernel

open Lib

variable {link : Link} {pair next last : State × Virtual} {event : Event} {pid : Nat}

/-- The registers a process has when its open calls are over, but for the result. -/
def Virtual.home (virtual : Virtual) (pid : Nat) : Registers :=
  match (virtual.calls pid).getLast? with
  | some call => call.context
  | none => virtual.context pid

def Virtual.InSysCall (virtual : Virtual) (pid : Nat) : Prop :=
  ∃ call ∈ virtual.calls pid, call.kind = .sysCall

/-- The event is no instruction and no `exec` of the process, and does not build its frame. -/
def Spares (pid : Nat) (pair : State × Virtual) : Event → Prop
  | .instruct _ _ _ => pair.1.regs.user → pair.1.proc ≠ pid
  | .exec _ _ _ => pair.1.proc ≠ pid
  | .fork child => child ≠ pid
  | .pthread child _ _ _ => child ≠ pid
  | _ => True

/-- Moreover it is no system call of the process. -/
def Quiet (pid : Nat) (pair : State × Virtual) (event : Event) : Prop :=
  Spares pid pair event ∧ (event = .sysCall → pair.1.proc ≠ pid)

/-- Nothing of a process changed. -/
def Unchanged (pid : Nat) (virtual moved : Virtual) : Prop :=
  moved.context pid = virtual.context pid ∧ moved.calls pid = virtual.calls pid

/-- What one step does to a process it spares: at most it suspends it by a call, changes
what runs inside a call, or ends a call. -/
inductive Touched (pid : Nat) (event : Event) (virtual moved : Virtual) : Prop where
  | unchanged : Unchanged pid virtual moved → Touched pid event virtual moved
  | inside {call : Call} {rest : List Call} :
      virtual.calls pid = call :: rest → moved.calls pid = call :: rest →
      Touched pid event virtual moved
  | called {kind : CallKind} {base : Nat} :
      moved.calls pid = ⟨kind, base, virtual.context pid⟩ :: virtual.calls pid →
      (kind = .sysCall → event = .sysCall ∧ virtual.proc = pid) →
      Touched pid event virtual moved
  | left {call : Call} {rest : List Call} :
      virtual.calls pid = call :: rest → moved.calls pid = rest →
      moved.context pid = call.kind.result call.context (virtual.context pid).eax →
      Touched pid event virtual moved

theorem touched {virtual moved : Virtual} {state after : State}
    (follows : Follows link state virtual) (disciplined : Disciplined link (state, virtual) event)
    (spares : Spares pid (state, virtual) event) (stepped : state.step link event = some after)
    (move : virtual.step (observe state after event) = some moved) :
    Touched pid event virtual moved := by
  have enabled := enabled_of_step stepped
  -- kernel code runs in a call of the current process
  have inside : virtual.handlers = [] → link.Open state.regs → ¬ state.regs.user →
      ∃ call rest, virtual.calls virtual.proc = call :: rest := by
    intro outside open_ ring0
    have under := follows.process.under
    rw [← (follows.open_ outside open_).1] at under
    cases calls : virtual.calls virtual.proc with
    | nil =>
        rw [calls] at under
        exact absurd (view_user.mp under) ring0
    | cons call rest => exact ⟨call, rest, rfl⟩
  cases event with
  | instruct regs memory cr3 =>
      simp only [observe, Virtual.step, Option.some.injEq] at move
      subst move
      unfold Virtual.setRunning
      cases handlers : virtual.handlers with
      | cons handler rest => exact .unchanged ⟨rfl, rfl⟩
      | nil =>
          by_cases current : pid = virtual.proc
          · subst current
            have ring0 : ¬ state.regs.user := fun user => spares user follows.proc
            obtain ⟨call, rest, calls⟩ := inside handlers enabled ring0
            exact .inside calls calls
          · exact .unchanged ⟨Function.update_of_ne current .., rfl⟩
  | interrupt irq =>
      simp only [observe, Virtual.step, Option.some.injEq] at move
      subst move
      exact .unchanged ⟨rfl, rfl⟩
  | resume =>
      simp only [observe, Virtual.step, Option.some.injEq] at move
      subst move
      exact .unchanged ⟨rfl, rfl⟩
  | finish chosen =>
      obtain ⟨_, ⟨handler, rest, (handlers : virtual.handlers = _), _⟩, _⟩ := disciplined
      cases rest with
      | nil =>
          simp only [observe, Virtual.step, handlers, Option.some.injEq] at move
          subst move
          exact .unchanged ⟨rfl, rfl⟩
      | cons outer more =>
          simp only [observe, Virtual.step, handlers, Option.some.injEq] at move
          subst move
          exact .unchanged ⟨rfl, rfl⟩
  | sysCall =>
      obtain ⟨outside, _, _⟩ := follows.user disciplined
      simp only [observe, Virtual.step, outside, ne_eq, not_true_eq_false, if_false,
        Option.some.injEq] at move
      subst move
      by_cases current : pid = virtual.proc
      · subst current
        exact .called (Function.update_self ..) fun _ => ⟨rfl, rfl⟩
      · exact .unchanged ⟨Function.update_of_ne current .., Function.update_of_ne current ..⟩
  | exception vector errCode =>
      have outside : virtual.handlers = [] := disciplined.1
      simp only [observe, Virtual.step, outside, ne_eq, not_true_eq_false, if_false,
        Option.some.injEq] at move
      subst move
      by_cases current : pid = virtual.proc
      · subst current
        exact @Touched.called _ _ _ _ .exception _ (Function.update_self ..) fun same => by cases same
      · exact .unchanged ⟨Function.update_of_ne current .., Function.update_of_ne current ..⟩
  | sysCallEnd chosen =>
      obtain ⟨_, (outside : virtual.handlers = []), call, rest,
        (calls : virtual.calls virtual.proc = _), _⟩ := disciplined
      simp only [observe, Virtual.step, outside, calls, ne_eq, not_true_eq_false, if_false,
        Option.some.injEq] at move
      subst move
      by_cases current : pid = virtual.proc
      · subst current
        exact .left calls (Function.update_self ..) (Function.update_self ..)
      · exact .unchanged ⟨Function.update_of_ne current .., Function.update_of_ne current ..⟩
  | exceptionEnd chosen =>
      obtain ⟨_, (outside : virtual.handlers = []), call, rest,
        (calls : virtual.calls virtual.proc = _), _⟩ := disciplined
      simp only [observe, Virtual.step, outside, calls, ne_eq, not_true_eq_false, if_false,
        Option.some.injEq] at move
      subst move
      by_cases current : pid = virtual.proc
      · subst current
        exact .left calls (Function.update_self ..) (Function.update_self ..)
      · exact .unchanged ⟨Function.update_of_ne current .., Function.update_of_ne current ..⟩
  | sched back chosen =>
      obtain ⟨_, (outside : virtual.handlers = []), ring0, _, _⟩ := disciplined
      simp only [observe, Virtual.step, outside, ne_eq, not_true_eq_false, if_false,
        Option.some.injEq] at move
      subst move
      by_cases current : pid = virtual.proc
      · subst current
        obtain ⟨call, rest, calls⟩ := inside outside enabled ring0
        exact .inside calls calls
      · exact .unchanged ⟨Function.update_of_ne current .., rfl⟩
  | fork child =>
      obtain ⟨(outside : virtual.handlers = []), _, _, _, _, ⟨kind, base, caller⟩,
        (calls : virtual.calls virtual.proc = _), same⟩ := disciplined
      cases same
      simp only [observe, Virtual.step, outside, calls, ne_eq, not_true_eq_false, if_false,
        Option.some.injEq] at move
      subst move
      exact .unchanged ⟨Function.update_of_ne (Ne.symm spares) .., rfl⟩
  | pthread child parent entry stackBase =>
      obtain ⟨(outside : virtual.handlers = []), _, _, _, _, _, ⟨kind, base, caller⟩,
        (calls : virtual.calls parent = _), same⟩ := disciplined
      cases same
      simp only [observe, Virtual.step, outside, calls, ne_eq, not_true_eq_false, if_false,
        Option.some.injEq] at move
      subst move
      exact .unchanged ⟨Function.update_of_ne (Ne.symm spares) .., rfl⟩
  | exec selectorCpu entry stackBase =>
      obtain ⟨(outside : virtual.handlers = []), _, ⟨kind, base, caller⟩,
        (calls : virtual.calls virtual.proc = _), same⟩ := disciplined
      cases same
      simp only [observe, Virtual.step, outside, calls, ne_eq, not_true_eq_false, if_false,
        Option.some.injEq] at move
      subst move
      have other : pid ≠ virtual.proc := fun current => spares (follows.proc.trans current.symm)
      exact .unchanged ⟨rfl, Function.update_of_ne other ..⟩

/-! The registers to come back to. -/

variable {virtual moved : Virtual} {call : Call} {rest : List Call} {events later : List Event}

theorem home_of_nil (none : virtual.calls pid = []) : virtual.home pid = virtual.context pid := by
  simp [Virtual.home, none]

theorem home_of_last (calls : virtual.calls pid = [call]) : virtual.home pid = call.context := by
  simp [Virtual.home, calls]

theorem home_of_calls {outer : Call} (calls : virtual.calls pid = call :: outer :: rest)
    (other : moved.calls pid = outer :: rest) : virtual.home pid = moved.home pid := by
  simp only [Virtual.home, calls, other, List.getLast?_cons_cons]
  cases last : (outer :: rest).getLast? with
  | some call => rfl
  | none => simp at last

theorem home_of_same (calls : virtual.calls pid = call :: rest)
    (same : moved.calls pid = call :: rest) : moved.home pid = virtual.home pid := by
  simp only [Virtual.home, calls, same]
  cases last : (call :: rest).getLast? with
  | some call => rfl
  | none => simp at last

theorem Unchanged.home (unchanged : Unchanged pid virtual moved) :
    moved.home pid = virtual.home pid := by
  simp only [Virtual.home, unchanged.1, unchanged.2]

/-- A process that is spared keeps the registers it comes back to, but for the result of a
system call that ends. -/
theorem Touched.home (touched : Touched pid event virtual moved) :
    moved.home pid = virtual.home pid ∨
      (virtual.InSysCall pid ∧ ∃ eax, moved.home pid = { virtual.home pid with eax := eax }) := by
  cases touched with
  | unchanged unchanged => exact .inl unchanged.home
  | inside calls same => exact .inl (home_of_same calls same)
  | called calls _ =>
      left
      cases before : virtual.calls pid with
      | nil =>
          rw [before] at calls
          rw [home_of_last calls, home_of_nil before]
      | cons call rest =>
          rw [before] at calls
          exact home_of_calls calls before
  | @left call rest calls same context =>
      cases rest with
      | cons outer more => exact .inl (home_of_calls calls same).symm
      | nil =>
          rw [home_of_nil same, home_of_last calls, context]
          cases kind : call.kind with
          | exception => exact .inl rfl
          | sysCall =>
              exact .inr ⟨⟨call, by simp [calls], kind⟩, _, rfl⟩

/-- Outside its system calls it keeps them all. -/
theorem Touched.quiet (touched : Touched pid event virtual moved)
    (none : ¬ virtual.InSysCall pid) (other : event = .sysCall → virtual.proc ≠ pid) :
    moved.home pid = virtual.home pid ∧ ¬ moved.InSysCall pid := by
  refine ⟨touched.home.resolve_right fun ended => none ended.1, ?_⟩
  rintro ⟨call, member, kind⟩
  cases touched with
  | unchanged unchanged => exact none ⟨call, unchanged.2 ▸ member, kind⟩
  | inside calls same => exact none ⟨call, by rw [calls, ← same]; exact member, kind⟩
  | called calls reason =>
      rw [calls, List.mem_cons] at member
      cases member with
      | inl first =>
          subst first
          exact other (reason kind).1 (reason kind).2
      | inr inner => exact none ⟨call, inner, kind⟩
  | left calls same => exact none ⟨call, by rw [calls, ← same]; exact .tail _ member, kind⟩

theorem touched_step (follows : Follows link pair.1 pair.2) (disciplined : Disciplined link pair event)
    (spares : Spares pid pair event) (stepped : (pairMachine link).step pair event = some next) :
    Touched pid event pair.2 next.2 := by
  obtain ⟨after, moves, same⟩ := Option.bind_eq_some_iff.mp stepped
  obtain ⟨moved, move, rfl⟩ := Option.map_eq_some_iff.mp same
  exact touched follows disciplined spares moves move

theorem spared_run (follows : Follows link pair.1 pair.2)
    (ran : (pairMachine link).run pair events = some last)
    (meets : (pairMachine link).Meets
      (fun pair event => Disciplined link pair event ∧ Spares pid pair event) pair events) :
    Follows link last.1 last.2 ∧ ∃ eax, last.2.home pid = { pair.2.home pid with eax := eax } := by
  induction events generalizing pair with
  | nil =>
      simp only [Machine.run, Option.some.injEq] at ran
      exact ran ▸ ⟨follows, _, rfl⟩
  | cons event rest ih =>
      obtain ⟨next, stepped, ran⟩ := Option.bind_eq_some_iff.mp ran
      simp only [Machine.Meets, stepped] at meets
      obtain ⟨⟨disciplined, spares⟩, meets⟩ := meets
      obtain ⟨kept, eax, home⟩ := ih (follows_step follows disciplined stepped) ran meets
      refine ⟨kept, ?_⟩
      cases (touched_step follows disciplined spares stepped).home with
      | inl same => exact ⟨eax, same ▸ home⟩
      | inr ended =>
          obtain ⟨_, result, changed⟩ := ended
          rw [changed] at home
          exact ⟨eax, home⟩

theorem quiet_run (follows : Follows link pair.1 pair.2) (none : ¬ pair.2.InSysCall pid)
    (ran : (pairMachine link).run pair events = some last)
    (meets : (pairMachine link).Meets
      (fun pair event => Disciplined link pair event ∧ Quiet pid pair event) pair events) :
    Follows link last.1 last.2 ∧ last.2.home pid = pair.2.home pid := by
  induction events generalizing pair with
  | nil =>
      simp only [Machine.run, Option.some.injEq] at ran
      exact ran ▸ ⟨follows, rfl⟩
  | cons event rest ih =>
      obtain ⟨next, stepped, ran⟩ := Option.bind_eq_some_iff.mp ran
      simp only [Machine.Meets, stepped] at meets
      obtain ⟨⟨disciplined, spares, other⟩, meets⟩ := meets
      have touched := touched_step follows disciplined spares stepped
      obtain ⟨same, outside⟩ := touched.quiet none (follows.proc ▸ other)
      obtain ⟨kept, home⟩ := ih (follows_step follows disciplined stepped) outside ran meets
      exact ⟨kept, home.trans same⟩

theorem Follows.home {state : State} (follows : Follows link state virtual)
    (user : state.regs.user) (current : state.proc = pid) :
    state.regs = virtual.home pid ∧ ¬ virtual.InSysCall pid := by
  obtain ⟨_, same, none⟩ := follows.user user
  have proc : virtual.proc = pid := follows.proc.symm.trans current
  rw [proc] at same none
  refine ⟨same.trans (home_of_nil none).symm, ?_⟩
  rintro ⟨call, member, _⟩
  rw [none] at member
  cases member

/-- The end of a system call, for the process. -/
theorem home_of_ended {chosen : Nat} (follows : Follows link pair.1 pair.2)
    (disciplined : Disciplined link pair (.sysCallEnd chosen))
    (stepped : (pairMachine link).step pair (.sysCallEnd chosen) = some next) :
    next.2.home pair.1.proc = { pair.2.home pair.1.proc with eax := pair.1.regs.eax } ∧
      ¬ next.2.InSysCall pair.1.proc := by
  obtain ⟨after, moves, same⟩ := Option.bind_eq_some_iff.mp stepped
  obtain ⟨moved, move, rfl⟩ := Option.map_eq_some_iff.mp same
  obtain ⟨_, outside, call, rest, calls, kind, _⟩ := disciplined
  have stack := follows.process.calls
  rw [calls] at stack
  obtain ⟨served, _⟩ := stack
  unfold Served at served
  simp only [kind] at served
  obtain ⟨rfl, _⟩ := served
  have view := (follows.open_ outside (enabled_of_step moves)).1
  simp only [observe, Virtual.step, outside, calls, ne_eq, not_true_eq_false, if_false,
    Option.some.injEq] at move
  subst move
  have none : (((pair.2.setCalls pair.2.proc []).setContext pair.2.proc
      (call.kind.result call.context (pair.2.context pair.2.proc).eax)).switch chosen).calls
      pair.2.proc = [] := Function.update_self ..
  rw [follows.proc]
  constructor
  · rw [home_of_nil none, home_of_last calls, ← view]
    simp [Virtual.switch, Virtual.setContext, CallKind.result, kind]
  · rintro ⟨call, member, _⟩
    rw [none] at member
    cases member

/-- A process comes back from its system call with the result in `eax`. -/
private theorem returns {serving leaving : State × Virtual} {chosen : Nat}
    (follows : Follows link pair.1 pair.2)
    (called : (pairMachine link).run pair events = some serving)
    (spared : (pairMachine link).Meets
      (fun pair event => Disciplined link pair event ∧ Spares pid pair event) pair events)
    (current : serving.1.proc = pid) (disciplined : Disciplined link serving (.sysCallEnd chosen))
    (ended : (pairMachine link).step serving (.sysCallEnd chosen) = some leaving)
    (ran : (pairMachine link).run leaving later = some last)
    (quiet : (pairMachine link).Meets
      (fun pair event => Disciplined link pair event ∧ Quiet pid pair event) leaving later)
    (after : last.1.regs.user ∧ last.1.proc = pid) :
    last.1.regs = { pair.2.home pid with eax := serving.1.regs.eax } := by
  obtain ⟨inside, eax, home⟩ := spared_run follows called spared
  have left := home_of_ended inside disciplined ended
  rw [current] at left
  obtain ⟨kept, same⟩ := quiet_run (follows_step inside disciplined ended) left.2 ran quiet
  obtain ⟨finish, _⟩ := kept.home after.1 after.2
  rw [finish, same, left.1, home]

end AempOS.Kernel
