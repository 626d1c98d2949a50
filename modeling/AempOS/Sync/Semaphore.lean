import AempOS.Lib.Transition
import AempOS.Proc
import Mathlib.Logic.Function.Basic

/-! Semaphores of `include/semaphore.h` and `kernel/semaphore.c`. The wait queue
is the list of the queued processes, front first: `add_wait_queue` links a node
in at the rear and `remove_wait_queue` unlinks the front one, and nothing else
touches the links. `count` and `sleepers` are unbounded integers here;
`count_bounds` in the properties module shows that they stay inside an `int`. -/

set_option autoImplicit false

namespace AempOS.Sync

/-- `struct semaphore`. -/
structure Semaphore (Proc : Type) where
  count : Int
  sleepers : Int
  wait : List Proc
  deriving DecidableEq

variable {Proc : Type}

/-- `init_sema`, with `init_wait_queue` for the queue. -/
def initSema (val : Int) : Semaphore Proc :=
  { count := val, sleepers := 0, wait := [] }

/-- `add_wait_queue`: link the process in at the rear. -/
def addWaitQueue (queue : List Proc) (proc : Proc) : List Proc :=
  queue ++ [proc]

/-- `remove_wait_queue`: unlink the front node, if there is one. -/
def removeWaitQueue (queue : List Proc) : List Proc :=
  queue.tail

/-- `add_negative`: fold a non-negative `i` into the counter and test its sign.
The pair is the new counter and the returned truth value. -/
def addNegative (i v : Int) : Int × Bool :=
  let v := if 0 ≤ i then i + v else v
  (v, decide (v < 0))

/-- One pass of the loop of `do_down`, between two calls of `sched`. The flag
says whether the pass broke out of the loop, holding the semaphore. -/
def doDownPass (sem : Semaphore Proc) : Semaphore Proc × Bool :=
  let (count, negative) := addNegative (sem.sleepers - 1) sem.count
  if negative then ({ sem with count, sleepers := 1 }, false)
  else ({ sem with count := -1, sleepers := 0 }, true)

/-- What `do_down` does before its loop. The write of `SLEEPING` to the process
is in `State.enter`. -/
def doDownEnter (sem : Semaphore Proc) (proc : Proc) : Semaphore Proc :=
  { sem with wait := addWaitQueue sem.wait proc, sleepers := sem.sleepers + 1 }

/-- `do_up`: unlink the front node and give the process it names. With an empty
queue `wp` is the null pointer and `wp->proc` is read through it. -/
def doUp (sem : Semaphore Proc) : Semaphore Proc × Option Proc :=
  ({ sem with wait := removeWaitQueue sem.wait }, sem.wait.head?)

/-- Where a process is in its cycle of `down` and `up`. -/
inductive Phase where
  /-- Before its `down`, or after its `up`. -/
  | outside
  /-- Past the decrement of `down`, before its first pass of the loop. -/
  | entering
  /-- Inside the loop of `do_down`, after a pass that did not break. -/
  | waiting
  /-- Past its `down` and before its `up`; `slow` when it broke out of the loop
  of `do_down`. -/
  | holding (slow : Bool)
  deriving DecidableEq

def Phase.isEntering : Phase → Bool
  | .entering => true
  | _ => false

def Phase.isHolding : Phase → Bool
  | .holding _ => true
  | _ => false

/-- A semaphore with its users. `nullRead` records that some `do_up` read
through the null pointer; the run goes on, since that read and the write after
it touch neither the semaphore nor the place of any process. -/
structure State (Proc : Type) where
  sem : Semaphore Proc
  phase : Proc → Phase
  stat : Proc → ProcStat
  nullRead : Bool

/-- The atomic steps of a process: the decrement and test of `down`, one pass of
the loop of `do_down` (the first one with the code before the loop), and `up`
with its `do_up`. -/
inductive Action (Proc : Type) where
  | down (proc : Proc)
  | pass (proc : Proc)
  | up (proc : Proc)

variable [DecidableEq Proc]

/-- `lock; decl` and the test of the sign. -/
def State.down (state : State Proc) (proc : Proc) : State Proc :=
  let count := state.sem.count - 1
  { state with
    sem := { state.sem with count }
    phase := Function.update state.phase proc
      (if 0 ≤ count then .holding false else .entering) }

/-- `do_down` up to its loop. -/
def State.enter (state : State Proc) (proc : Proc) : State Proc :=
  { state with
    sem := doDownEnter state.sem proc
    stat := Function.update state.stat proc .sleeping }

/-- One pass of the loop. -/
def State.loop (state : State Proc) (proc : Proc) : State Proc :=
  let (sem, acquired) := doDownPass state.sem
  { state with
    sem
    phase := Function.update state.phase proc (if acquired then .holding true else .waiting) }

/-- `up` takes its slow path when the incremented count is not positive. -/
def upSlow (sem : Semaphore Proc) : Bool :=
  decide (¬ 0 < sem.count + 1)

/-- `lock; incl`, the test, and `do_up` on the slow path. -/
def State.up (state : State Proc) (proc : Proc) : State Proc :=
  let released : State Proc :=
    { state with
      sem := { state.sem with count := state.sem.count + 1 }
      phase := Function.update state.phase proc .outside }
  if upSlow state.sem then
    match doUp released.sem with
    | (sem, some woken) =>
        { released with sem, stat := Function.update released.stat woken .ready }
    | (sem, none) => { released with sem, nullRead := true }
  else released

/-- The step of an action, enabled by the place of the process. -/
def step (state : State Proc) : Action Proc → Option (State Proc)
  | .down proc => if state.phase proc = .outside then some (state.down proc) else none
  | .pass proc =>
      match state.phase proc with
      | .entering => some ((state.enter proc).loop proc)
      | .waiting => some (state.loop proc)
      | _ => none
  | .up proc => if (state.phase proc).isHolding then some (state.up proc) else none

/-- Any processes using one semaphore set up by `init_sema(sem, 1)`. -/
def semaphoreSystem (Proc : Type) [DecidableEq Proc] : Lib.Machine (State Proc) (Action Proc) where
  initial state :=
    state.sem = initSema 1 ∧ (∀ proc, state.phase proc = .outside) ∧ state.nullRead = false
  step := step

/-- A semaphore just set up, with every process about to call `down`. -/
def freshState (Proc : Type) : State Proc where
  sem := initSema 1
  phase _ := .outside
  stat _ := .running
  nullRead := false

theorem freshState_initial (Proc : Type) [DecidableEq Proc] :
    (semaphoreSystem Proc).initial (freshState Proc) :=
  ⟨rfl, fun _ => rfl, rfl⟩

theorem freshState_reachable (Proc : Type) [DecidableEq Proc] :
    (semaphoreSystem Proc).Reachable (freshState Proc) :=
  .initial (freshState_initial Proc)

end AempOS.Sync
