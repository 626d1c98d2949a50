import AempOS.Lib.Transition
import AempOS.Proc
import Mathlib.Logic.Function.Basic

/-! Requests to the disk of `kernel/hd.c`: a process puts its request into `hdque`
and falls asleep, and `hd_service` takes the requests out, performs them and makes
their processes `READY`. The queue is the list of its nodes, front first. Each
request of a process has a number of its own, so that one request can be told from
the next. What is read and written, and the buffers for it, are left out. -/

set_option autoImplicit false

namespace AempOS.Hd

/-- `RWInfo`: a request and the process that made it. -/
structure Request (Proc : Type) where
  proc : Proc
  number : Nat
  deriving DecidableEq

/-- What `task.channel` points to. -/
inductive Channel where
  | none
  | ticks
  | hdque
  deriving DecidableEq

/-- Where a process is in `hd_rdwt_sched`. -/
inductive Place where
  /-- Not in it. -/
  | away
  /-- Past `in_hd_queue` with this request. -/
  | queued (number : Nat)
  /-- Past the write of `SLEEPING`, before or in `sched`. -/
  | asleep (number : Nat)
  deriving DecidableEq

/-- Where `hd_service` is. -/
inductive Service (Proc : Type) where
  | fetching
  /-- Past `out_hd_queue`. -/
  | serving (request : Request Proc)
  /-- Past `hd_rdwt_real`. -/
  | served (request : Request Proc)

variable {Proc : Type}

/-- `in_hd_queue`: link the node in at the rear. -/
def inHdQueue (queue : List (Request Proc)) (request : Request Proc) : List (Request Proc) :=
  queue ++ [request]

/-- `out_hd_queue`: unlink the front node, if there is one. -/
def outHdQueue : List (Request Proc) → Option (Request Proc × List (Request Proc))
  | [] => none
  | request :: queue => some (request, queue)

/-- The queue, its users and the service. `made` counts the requests of a process;
`performed` and `marked` say how far the service has got with a request. -/
structure HdState (Proc : Type) where
  queue : List (Request Proc)
  service : Service Proc
  place : Proc → Place
  stat : Proc → ProcStat
  channel : Proc → Channel
  made : Proc → Nat
  performed : Request Proc → Bool
  marked : Request Proc → Bool

/-- The steps of a process in `hd_rdwt_sched` and those of `hd_service`. -/
inductive HdAction (Proc : Type) where
  | enqueue (proc : Proc)
  | fallAsleep (proc : Proc)
  | resume (proc : Proc)
  | take
  | perform
  | mark

variable [DecidableEq Proc]

/-- `in_hd_queue(&hdque, &rwinfo)` -/
def HdState.enqueue (state : HdState Proc) (proc : Proc) : HdState Proc :=
  { state with
    queue := inHdQueue state.queue ⟨proc, state.made proc⟩
    place := Function.update state.place proc (.queued (state.made proc))
    made := Function.update state.made proc (state.made proc + 1) }

/-- `channel = &hdque` and `stat = SLEEPING` -/
def HdState.fallAsleep (state : HdState Proc) (proc : Proc) (number : Nat) : HdState Proc :=
  { state with
    place := Function.update state.place proc (.asleep number)
    stat := Function.update state.stat proc .sleeping
    channel := Function.update state.channel proc .hdque }

/-- `sched` returns: the process goes on, frees the buffer and leaves. -/
def HdState.resume (state : HdState Proc) (proc : Proc) : HdState Proc :=
  { state with place := Function.update state.place proc .away }

def HdState.performRequest (state : HdState Proc) (request : Request Proc) : HdState Proc :=
  { state with
    service := .served request
    performed := Function.update state.performed request true }

/-- `rwinfo->proc->task.stat = READY` -/
def HdState.markReady (state : HdState Proc) (request : Request Proc) : HdState Proc :=
  { state with
    service := .fetching
    stat := Function.update state.stat request.proc .ready
    marked := Function.update state.marked request true }

/-- After `sched` a process only runs again when it is `READY`. -/
def hdStep (state : HdState Proc) : HdAction Proc → Option (HdState Proc)
  | .enqueue proc =>
      match state.place proc with
      | .away => some (state.enqueue proc)
      | _ => none
  | .fallAsleep proc =>
      match state.place proc with
      | .queued number => some (state.fallAsleep proc number)
      | _ => none
  | .resume proc =>
      match state.place proc with
      | .asleep _ => if state.stat proc = .ready then some (state.resume proc) else none
      | _ => none
  | .take =>
      match state.service, outHdQueue state.queue with
      | .fetching, some (request, queue) =>
          some { state with queue := queue, service := .serving request }
      | _, _ => none
  | .perform =>
      match state.service with
      | .serving request => some (state.performRequest request)
      | _ => none
  | .mark =>
      match state.service with
      | .served request => some (state.markReady request)
      | _ => none

/-- Nobody has asked for anything yet. -/
def HdState.Fresh (state : HdState Proc) : Prop :=
  state.queue = [] ∧ state.service = .fetching ∧ (∀ proc, state.place proc = .away) ∧
    (∀ proc, state.made proc = 0) ∧ (∀ request, state.marked request = false) ∧
    ∀ request, state.performed request = false

def hdSystem (Proc : Type) [DecidableEq Proc] : Lib.Machine (HdState Proc) (HdAction Proc) where
  initial := HdState.Fresh
  step := hdStep

def freshHd (Proc : Type) : HdState Proc where
  queue := []
  service := .fetching
  place _ := .away
  stat _ := .ready
  channel _ := .none
  made _ := 0
  performed _ := false
  marked _ := false

theorem freshHd_fresh (Proc : Type) : (freshHd Proc).Fresh :=
  ⟨rfl, rfl, fun _ => rfl, fun _ => rfl, fun _ => rfl, fun _ => rfl⟩

end AempOS.Hd
