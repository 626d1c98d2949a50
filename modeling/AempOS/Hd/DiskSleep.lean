import AempOS.Hd.RequestQueueProperties
import AempOS.Sync.Semaphore

/-! The three ways to sleep, together: `do_down` of a semaphore, `sys_sleep` and
`hd_rdwt_sched`. All of them write `SLEEPING` into the same field of a process, and
`do_up`, the clock and `hd_service` write `READY` into it. `hd_rdwt_sched` does not
look again whether its request is done. -/

set_option autoImplicit false

namespace AempOS.Hd

open Lib Sync

/-- A process in `sys_sleep(n)`; `slept` when it is in `sched`. -/
structure Nap where
  ticks0 : Int
  n : Int
  slept : Bool

structure KernelState (Proc : Type) where
  hd : HdState Proc
  sem : Semaphore Proc
  phase : Proc → Phase
  nullRead : Bool
  ticks : Int
  nap : Proc → Option Nap

inductive KernelAction (Proc : Type) where
  | sem (action : Action Proc)
  | hd (action : HdAction Proc)
  | sleepCall (proc : Proc) (n : Int)
  | sleepPass (proc : Proc)
  | clock

variable {Proc : Type}

/-- The semaphore with its users, and back. -/
def KernelState.sync (state : KernelState Proc) : Sync.State Proc :=
  ⟨state.sem, state.phase, state.hd.stat, state.nullRead⟩

def KernelState.setSync (state : KernelState Proc) (sync : Sync.State Proc) : KernelState Proc :=
  { state with
    hd := { state.hd with stat := sync.stat }
    sem := sync.sem
    phase := sync.phase
    nullRead := sync.nullRead }

/-- The process is in none of the three. -/
def KernelState.Free (state : KernelState Proc) (proc : Proc) : Prop :=
  state.hd.place proc = .away ∧ (state.nap proc).isNone = true ∧
    state.phase proc ≠ .entering ∧ state.phase proc ≠ .waiting

instance (state : KernelState Proc) (proc : Proc) : Decidable (state.Free proc) :=
  inferInstanceAs (Decidable (_ ∧ _ ∧ _ ∧ _))

/-- A process calls `down` and `up` when it is free, and goes on in the loop of
`do_down` when it is `READY`; its first pass comes right after the decrement. -/
def KernelState.MayRun (state : KernelState Proc) : Action Proc → Prop
  | .pass proc => state.phase proc = .waiting → state.hd.stat proc = .ready
  | .down proc => state.Free proc
  | .up proc => state.Free proc

instance (state : KernelState Proc) (action : Action Proc) : Decidable (state.MayRun action) :=
  match action with
  | .pass proc => inferInstanceAs (Decidable (state.phase proc = .waiting → state.hd.stat proc = .ready))
  | .down proc => inferInstanceAs (Decidable (state.Free proc))
  | .up proc => inferInstanceAs (Decidable (state.Free proc))

/-- A free process may ask for the disk. -/
def KernelState.MayAsk (state : KernelState Proc) : HdAction Proc → Prop
  | .enqueue proc => state.Free proc
  | _ => True

instance (state : KernelState Proc) (action : HdAction Proc) : Decidable (state.MayAsk action) :=
  match action with
  | .enqueue proc => inferInstanceAs (Decidable (state.Free proc))
  | .fallAsleep _ | .resume _ | .take | .perform | .mark => inferInstanceAs (Decidable True)

/-- `sys_wakeup(&ticks)` -/
def sysWakeup (hd : HdState Proc) : HdState Proc :=
  { hd with
    stat := fun proc =>
      if hd.stat proc = .sleeping ∧ hd.channel proc = .ticks then .ready else hd.stat proc }

variable [DecidableEq Proc]

/-- `sys_sleep` up to its loop. -/
def KernelState.sleepCall (state : KernelState Proc) (proc : Proc) (n : Int) : KernelState Proc :=
  { state with
    hd := { state.hd with channel := Function.update state.hd.channel proc .ticks }
    nap := Function.update state.nap proc (some ⟨state.ticks, n, false⟩) }

/-- One round of the loop of `sys_sleep`, up to `sched` or to the return. -/
def KernelState.sleepPass (state : KernelState Proc) (proc : Proc) (nap : Nap) : KernelState Proc :=
  if state.ticks - nap.ticks0 < nap.n then
    { state with
      hd := { state.hd with stat := Function.update state.hd.stat proc .sleeping }
      nap := Function.update state.nap proc (some { nap with slept := true }) }
  else { state with nap := Function.update state.nap proc none }

def kernelStep (state : KernelState Proc) : KernelAction Proc → Option (KernelState Proc)
  | .sem action =>
      if state.MayRun action then (Sync.step state.sync action).map state.setSync else none
  | .hd action =>
      if state.MayAsk action then (hdStep state.hd action).map ({ state with hd := · }) else none
  | .sleepCall proc n => if state.Free proc then some (state.sleepCall proc n) else none
  | .sleepPass proc =>
      match state.nap proc with
      | some nap =>
          if nap.slept = true ∧ state.hd.stat proc ≠ .ready then none
          else some (state.sleepPass proc nap)
      | none => none
  | .clock => some { state with ticks := state.ticks + 1, hd := sysWakeup state.hd }

/-- Any processes with one semaphore, the clock and `hd_service`. -/
def kernelSystem (Proc : Type) [DecidableEq Proc] :
    Machine (KernelState Proc) (KernelAction Proc) where
  initial state := state.hd.Fresh ∧ state.sem = initSema 1 ∧ (∀ proc, state.phase proc = .outside) ∧
    ∀ proc, (state.nap proc).isNone = true
  step := kernelStep

/-- No `up` takes its slow path while the front node of the wait queue names a
process that sleeps for the disk. Such a node is left behind by a `do_down` that
broke out of its loop before any `do_up` had popped it. -/
def SparesDiskSleepers (state : KernelState Proc) : KernelAction Proc → Prop
  | .sem (.up _) => upSlow state.sem = true → ∀ proc number, state.sem.wait.head? = some proc →
      state.hd.place proc ≠ .asleep number
  | _ => True

section Properties

variable {state next : KernelState Proc}

/-- A step on the semaphore makes at most the process of the front node `READY`. -/
theorem syncStep_ready {sync after : Sync.State Proc} {action : Action Proc}
    (moved : Sync.step sync action = some after) (proc : Proc) (ready : after.stat proc = .ready) :
    sync.stat proc = .ready ∨
      (∃ user, action = .up user) ∧ upSlow sync.sem = true ∧ sync.sem.wait.head? = some proc := by
  cases action with
  | down user =>
      simp only [Sync.step] at moved
      split at moved
      next => cases moved; exact .inl ready
      next => cases moved
  | pass user =>
      simp only [Sync.step] at moved
      split at moved
      next =>
        cases moved
        simp only [State.loop, State.enter] at ready
        by_cases same : proc = user
        · rw [same, Function.update_self] at ready
          cases ready
        · rw [Function.update_of_ne same] at ready
          exact .inl ready
      next => cases moved; exact .inl ready
      next => cases moved
  | up user =>
      simp only [Sync.step] at moved
      split at moved
      next =>
        cases moved
        cases slow : upSlow sync.sem with
        | false =>
            simp only [State.up, slow] at ready
            exact .inl ready
        | true =>
            cases nodes : sync.sem.wait with
            | nil =>
                simp only [State.up, slow, if_true, doUp, nodes, List.head?_nil] at ready
                exact .inl ready
            | cons front rest =>
                simp only [State.up, slow, if_true, doUp, nodes, List.head?_cons] at ready
                by_cases same : proc = front
                · exact .inr ⟨⟨user, rfl⟩, rfl, by rw [same]; rfl⟩
                · rw [Function.update_of_ne same] at ready
                  exact .inl ready
      next => cases moved

theorem Orderly.kernelStep (orderly : Orderly state.hd) {action : KernelAction Proc}
    (spares : SparesDiskSleepers state action) (moved : Hd.kernelStep state action = some next) :
    Orderly next.hd := by
  cases action with
  | sem action =>
      simp only [Hd.kernelStep] at moved
      split at moved
      next =>
        obtain ⟨after, ran, rfl⟩ := Option.map_eq_some_iff.mp moved
        refine orderly.restat fun proc number asleep => ⟨fun ready => ?_, rfl⟩
        rcases syncStep_ready ran proc ready with before | ⟨⟨user, rfl⟩, slow, front⟩
        · exact before
        · exact absurd asleep (spares slow proc number front)
      next => cases moved
  | hd action =>
      simp only [Hd.kernelStep] at moved
      split at moved
      next =>
        obtain ⟨after, ran, rfl⟩ := Option.map_eq_some_iff.mp moved
        exact orderly.step ran
      next => cases moved
  | sleepCall proc n =>
      simp only [Hd.kernelStep] at moved
      split at moved
      next free =>
        cases moved
        refine orderly.restat fun other number asleep => ⟨id, ?_⟩
        have apart : other ≠ proc := by
          rintro rfl
          rw [free.1] at asleep
          cases asleep
        exact Function.update_of_ne apart _ _
      next => cases moved
  | sleepPass proc =>
      simp only [Hd.kernelStep] at moved
      split at moved
      next nap _ =>
        split at moved
        next => cases moved
        next =>
          cases moved
          unfold KernelState.sleepPass
          split
          next =>
            refine orderly.restat fun other number asleep => ⟨fun ready => ?_, rfl⟩
            by_cases same : other = proc
            · rw [same, Function.update_self] at ready
              cases ready
            · rwa [Function.update_of_ne same] at ready
          next => exact orderly
      next => cases moved
  | clock =>
      simp only [Hd.kernelStep] at moved
      cases moved
      refine orderly.restat fun proc number asleep => ⟨fun ready => ?_, rfl⟩
      have channel := orderly.channel proc number asleep
      simp only [channel, reduceCtorEq, and_false, if_false] at ready
      exact ready

/-- A process goes past the `sched` of `hd_rdwt_sched` only after `hd_service` has
performed its request. -/
theorem resumes_after_service (reached : (kernelSystem Proc).ReachableWhen SparesDiskSleepers state)
    {proc : Proc} (moved : kernelStep state (.hd (.resume proc)) = some next) :
    ∃ number, state.hd.place proc = .asleep number ∧ next.hd.place proc = .away ∧
      state.hd.performed ⟨proc, number⟩ = true := by
  have orderly : Orderly state.hd :=
    @Machine.ReachableWhen.invariant _ _ (kernelSystem Proc) SparesDiskSleepers
      (fun state => Orderly state.hd) (fun _ start => start.1.orderly)
      (fun _ _ _ held spares moved => held.kernelStep spares moved) _ reached
  simp only [kernelStep, KernelState.MayAsk] at moved
  obtain ⟨after, ran, rfl⟩ := Option.map_eq_some_iff.mp moved
  rcases hdStep_cases ran with ⟨_, wrong, _⟩ | ⟨_, _, wrong, _⟩ | ⟨other, number, same, asleep, ready, rfl⟩ |
    ⟨_, _, wrong, _⟩ | ⟨_, wrong, _⟩ | ⟨_, wrong, _⟩
  · cases wrong
  · cases wrong
  · cases same
    have marked := orderly.woken proc number asleep ready
    exact ⟨number, asleep, Function.update_self _ _ _, (orderly.marked _ marked).1⟩
  · cases wrong
  · cases wrong
  · cases wrong

/-- The kernel before anyone has called anything. -/
def freshKernel : KernelState Nat where
  hd := freshHd Nat
  sem := initSema 1
  phase _ := .outside
  nullRead := false
  ticks := 0
  nap _ := none

theorem freshKernel_initial : (kernelSystem Nat).initial freshKernel :=
  ⟨freshHd_fresh Nat, rfl, fun _ => rfl, fun _ => rfl⟩

theorem resumes_after_service_once : ∃ state next,
    (kernelSystem Nat).ReachableWhen SparesDiskSleepers state ∧
      kernelStep state (.hd (.resume 0)) = some next ∧
      ∃ number, state.hd.place 0 = .asleep number ∧ next.hd.place 0 = .away ∧
        state.hd.performed ⟨0, number⟩ = true := by
  have start : (kernelSystem Nat).ReachableWhen SparesDiskSleepers freshKernel :=
    .initial freshKernel_initial
  have meets : (kernelSystem Nat).Meets SparesDiskSleepers freshKernel
      [.sem (.down 0), .hd (.enqueue 0), .hd (.fallAsleep 0), .clock, .hd .take, .hd .perform, .hd .mark] :=
    ⟨trivial, trivial, trivial, trivial, trivial, trivial, trivial, trivial⟩
  obtain ⟨state, next, ran, moved⟩ : ∃ state next, (kernelSystem Nat).run freshKernel
      [.sem (.down 0), .hd (.enqueue 0), .hd (.fallAsleep 0), .clock, .hd .take, .hd .perform,
        .hd .mark] = some state ∧ kernelStep state (.hd (.resume 0)) = some next := ⟨_, _, rfl, rfl⟩
  have reached := start.of_run ran meets
  exact ⟨state, next, reached, moved, resumes_after_service reached moved⟩

/-- Process 2 gets the semaphore in its first pass of `do_down`, and its node stays
behind that of process 3. While it sleeps for the disk, process 1 pops that node. -/
def staleNode : List (KernelAction Nat) :=
  [.sem (.down 0), .sem (.down 1), .sem (.pass 1), .sem (.down 3), .sem (.pass 3), .sem (.up 0),
    .sem (.down 2), .sem (.pass 2), .sem (.up 2), .hd (.enqueue 2), .hd (.fallAsleep 2),
    .sem (.pass 1), .sem (.up 1)]

theorem resumes_before_service : ∃ state next, (kernelSystem Nat).Reachable state ∧
    state.nullRead = false ∧ state.hd.place 2 = .asleep 0 ∧
    kernelStep state (.hd (.resume 2)) = some next ∧ state.hd.performed ⟨2, 0⟩ = false := by
  have start : (kernelSystem Nat).Reachable freshKernel := .initial freshKernel_initial
  obtain ⟨state, next, ran, null, asleep, moved, waiting⟩ : ∃ state next,
      (kernelSystem Nat).run freshKernel staleNode = some state ∧ state.nullRead = false ∧
      state.hd.place 2 = .asleep 0 ∧ kernelStep state (.hd (.resume 2)) = some next ∧
      state.hd.performed ⟨2, 0⟩ = false := ⟨_, _, rfl, rfl, rfl, rfl, rfl⟩
  exact ⟨state, next, start.of_run ran, null, asleep, moved, waiting⟩

end Properties

end AempOS.Hd
