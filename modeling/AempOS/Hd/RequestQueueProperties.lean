import AempOS.Hd.RequestQueue

/-! What holds of the requests in every interleaving, and that a wake-up is lost
only when `hd_service` is done with a request before its process has written
`SLEEPING`. -/

set_option autoImplicit false

namespace AempOS.Hd

open Lib

variable {Proc : Type}

/-- The request that `hd_service` is busy with. -/
def Service.request : Service Proc → List (Request Proc)
  | .fetching => []
  | .serving request => [request]
  | .served request => [request]

/-- The requests that are not done. -/
def HdState.pending (state : HdState Proc) : List (Request Proc) :=
  state.service.request ++ state.queue

/-- Where a process is while a request of it is under way. -/
def Place.Holds (place : Place) (number : Nat) : Prop :=
  place = .queued number ∨ place = .asleep number

/-- The process of a request that is not done is still in its call, and a process
that sleeps for the disk is only woken by its own request. -/
structure Orderly (state : HdState Proc) : Prop where
  numbered : ∀ proc number, (state.place proc).Holds number → number < state.made proc
  held : ∀ request ∈ state.pending, (state.place request.proc).Holds request.number
  unmarked : ∀ request ∈ state.pending, state.marked request = false
  once : state.pending.Nodup
  served : ∀ request, state.service = .served request → state.performed request = true
  marked : ∀ request, state.marked request = true →
    state.performed request = true ∧ request.number < state.made request.proc
  woken : ∀ proc number, state.place proc = .asleep number → state.stat proc = .ready →
    state.marked ⟨proc, number⟩ = true
  channel : ∀ proc number, state.place proc = .asleep number → state.channel proc = .hdque

theorem HdState.Fresh.orderly {state : HdState Proc} (fresh : state.Fresh) : Orderly state := by
  obtain ⟨queue, service, place, made, marked, performed⟩ := fresh
  have nothing : state.pending = [] := by
    rw [HdState.pending, queue, service]
    rfl
  refine ⟨fun proc number holds => ?_, ?_, ?_, ?_, fun request served => ?_, fun request set => ?_,
    fun proc number asleep => ?_, fun proc number asleep => ?_⟩
  · rw [place] at holds
    rcases holds with wrong | wrong
    · cases wrong
    · cases wrong
  · rw [nothing]
    exact fun _ member => nomatch member
  · rw [nothing]
    exact fun _ member => nomatch member
  · rw [nothing]
    exact List.nodup_nil
  · rw [service] at served
    cases served
  · rw [marked] at set
    cases set
  · rw [place] at asleep
    cases asleep
  · rw [place] at asleep
    cases asleep

/-- Nobody but `hd_service` makes a process `READY` that sleeps for the disk. -/
theorem Orderly.restat {state : HdState Proc} (orderly : Orderly state) {stat : Proc → ProcStat}
    {channel : Proc → Channel}
    (same : ∀ proc number, state.place proc = .asleep number →
      (stat proc = .ready → state.stat proc = .ready) ∧ channel proc = state.channel proc) :
    Orderly { state with stat := stat, channel := channel } :=
  { numbered := orderly.numbered
    held := orderly.held
    unmarked := orderly.unmarked
    once := orderly.once
    served := orderly.served
    marked := orderly.marked
    woken := fun proc number asleep ready =>
      orderly.woken proc number asleep ((same proc number asleep).1 ready)
    channel := fun proc number asleep =>
      (same proc number asleep).2.trans (orderly.channel proc number asleep) }

theorem Orderly.take {state : HdState Proc} (orderly : Orderly state) {request : Request Proc} {queue : List (Request Proc)}
    (fetching : state.service = .fetching) (front : outHdQueue state.queue = some (request, queue)) :
    Orderly { state with queue := queue, service := .serving request } := by
  have same : state.queue = request :: queue := by
    cases nodes : state.queue with
    | nil =>
        rw [nodes] at front
        cases front
    | cons first rest =>
        rw [nodes] at front
        cases front
        rfl
  have pending : HdState.pending { state with queue := queue, service := .serving request } =
      state.pending := by
    simp only [HdState.pending, fetching, same, Service.request, List.nil_append, List.singleton_append]
  exact
    { numbered := orderly.numbered
      held := pending ▸ orderly.held
      unmarked := pending ▸ orderly.unmarked
      once := pending ▸ orderly.once
      served := fun _ wrong => nomatch wrong
      marked := orderly.marked
      woken := orderly.woken
      channel := orderly.channel }

section Steps

variable [DecidableEq Proc] {state next : HdState Proc}

theorem Orderly.enqueue (orderly : Orderly state) {proc : Proc} (away : state.place proc = .away) :
    Orderly (state.enqueue proc) := by
  have idle (number : Nat) : ¬(state.place proc).Holds number := by
    rw [away]
    rintro (wrong | wrong)
    · cases wrong
    · cases wrong
  have other {request : Request Proc} (member : request ∈ state.pending) : request.proc ≠ proc := by
    rintro rfl
    exact idle _ (orderly.held request member)
  have pending : (state.enqueue proc).pending = state.pending ++ [⟨proc, state.made proc⟩] :=
    (List.append_assoc _ _ _).symm
  have place {p : Proc} (apart : p ≠ proc) : (state.enqueue proc).place p = state.place p :=
    Function.update_of_ne apart _ _
  have here : (state.enqueue proc).place proc = .queued (state.made proc) :=
    Function.update_self _ _ _
  have made (p : Proc) : state.made p ≤ (state.enqueue proc).made p := by
    simp only [HdState.enqueue]
    by_cases same : p = proc
    · rw [same, Function.update_self]
      omega
    · exact Nat.le_of_eq (Function.update_of_ne same _ _).symm
  have grown : (state.enqueue proc).made proc = state.made proc + 1 := Function.update_self _ _ _
  have asleep {p : Proc} {number : Nat} (sleeps : (state.enqueue proc).place p = .asleep number) :
      state.place p = .asleep number := by
    by_cases same : p = proc
    · rw [same, here] at sleeps
      cases sleeps
    · rwa [place same] at sleeps
  refine ⟨fun p number holds => ?_, fun request member => ?_, fun request member => ?_, ?_,
    orderly.served, fun request set => ?_, fun p number sleeps => orderly.woken p number (asleep sleeps),
    fun p number sleeps => orderly.channel p number (asleep sleeps)⟩
  · by_cases same : p = proc
    · subst same
      rw [here] at holds
      rcases holds with queued | wrong
      · cases queued
        omega
      · cases wrong
    · rw [place same] at holds
      exact Nat.lt_of_lt_of_le (orderly.numbered p number holds) (made p)
  · rw [pending, List.mem_append, List.mem_singleton] at member
    rcases member with old | rfl
    · rw [place (other old)]
      exact orderly.held request old
    · exact .inl here
  · rw [pending, List.mem_append, List.mem_singleton] at member
    rcases member with old | rfl
    · exact orderly.unmarked request old
    · cases set : state.marked ⟨proc, state.made proc⟩ with
      | false => exact set
      | true => exact absurd (orderly.marked _ set).2 (Nat.lt_irrefl _)
  · rw [pending]
    refine List.nodup_append.mpr ⟨orderly.once, List.pairwise_singleton _ _, fun old member new added => ?_⟩
    rintro rfl
    rw [List.mem_singleton] at added
    exact other member (congrArg Request.proc added)
  · obtain ⟨performed, below⟩ := orderly.marked request set
    exact ⟨performed, Nat.lt_of_lt_of_le below (made _)⟩

theorem Orderly.fallAsleep (orderly : Orderly state) {proc : Proc} {number : Nat}
    (queued : state.place proc = .queued number) : Orderly (state.fallAsleep proc number) := by
  have place {p : Proc} (apart : p ≠ proc) :
      (state.fallAsleep proc number).place p = state.place p := Function.update_of_ne apart _ _
  have here : (state.fallAsleep proc number).place proc = .asleep number := Function.update_self _ _ _
  have holds {p : Proc} {n : Nat} :
      ((state.fallAsleep proc number).place p).Holds n ↔ (state.place p).Holds n := by
    by_cases same : p = proc
    · rw [same, here, queued]
      simp only [Place.Holds, Place.asleep.injEq, Place.queued.injEq, reduceCtorEq, false_or, or_false]
    · rw [place same]
  refine ⟨fun p n held => orderly.numbered p n (holds.mp held),
    fun request member => holds.mpr (orderly.held request member), orderly.unmarked, orderly.once,
    orderly.served, orderly.marked, fun p n sleeps ready => ?_, fun p n sleeps => ?_⟩
  · have apart : p ≠ proc := by
      rintro rfl
      simp only [HdState.fallAsleep, Function.update_self] at ready
      cases ready
    rw [place apart] at sleeps
    simp only [HdState.fallAsleep, Function.update_of_ne apart] at ready
    exact orderly.woken p n sleeps ready
  · simp only [HdState.fallAsleep]
    by_cases same : p = proc
    · rw [same, Function.update_self]
    · rw [Function.update_of_ne same]
      rw [place same] at sleeps
      exact orderly.channel p n sleeps

theorem Orderly.resume (orderly : Orderly state) {proc : Proc} {number : Nat}
    (asleep : state.place proc = .asleep number) (ready : state.stat proc = .ready) :
    Orderly (state.resume proc) := by
  have marked := orderly.woken proc number asleep ready
  have place {p : Proc} (apart : p ≠ proc) : (state.resume proc).place p = state.place p :=
    Function.update_of_ne apart _ _
  have here : (state.resume proc).place proc = .away := Function.update_self _ _ _
  have other {p : Proc} {n : Nat} (sleeps : (state.resume proc).place p = .asleep n) :
      state.place p = .asleep n := by
    by_cases same : p = proc
    · rw [same, here] at sleeps
      cases sleeps
    · rwa [place same] at sleeps
  refine ⟨fun p n holds => ?_, fun request member => ?_, orderly.unmarked, orderly.once, orderly.served,
    orderly.marked, fun p n sleeps => orderly.woken p n (other sleeps),
    fun p n sleeps => orderly.channel p n (other sleeps)⟩
  · by_cases same : p = proc
    · rw [same, here] at holds
      rcases holds with wrong | wrong
      · cases wrong
      · cases wrong
    · rw [place same] at holds
      exact orderly.numbered p n holds
  · have apart : request.proc ≠ proc := by
      rintro rfl
      have held := orderly.held request member
      have unmarked := orderly.unmarked request member
      rw [asleep] at held
      rcases held with wrong | same
      · cases wrong
      · cases same
        rw [marked] at unmarked
        cases unmarked
    rw [place apart]
    exact orderly.held request member

theorem Orderly.perform (orderly : Orderly state) {request : Request Proc}
    (serving : state.service = .serving request) : Orderly (state.performRequest request) := by
  have pending : (state.performRequest request).pending = state.pending := by
    simp only [HdState.pending, HdState.performRequest, serving, Service.request]
  have here : (state.performRequest request).performed request = true := Function.update_self _ _ _
  refine ⟨orderly.numbered, pending ▸ orderly.held, pending ▸ orderly.unmarked, pending ▸ orderly.once,
    fun other served => ?_, fun other set => ⟨?_, (orderly.marked other set).2⟩, orderly.woken,
    orderly.channel⟩
  · cases served
    exact here
  · by_cases same : other = request
    · rw [same]
      exact here
    · exact (Function.update_of_ne same _ _).trans (orderly.marked other set).1

theorem Orderly.mark (orderly : Orderly state) {request : Request Proc}
    (served : state.service = .served request) : Orderly (state.markReady request) := by
  have pending : state.pending = request :: (state.markReady request).pending := by
    simp only [HdState.pending, HdState.markReady, served, Service.request, List.nil_append,
      List.singleton_append]
  have later {other : Request Proc} (member : other ∈ (state.markReady request).pending) :
      other ∈ state.pending := pending ▸ List.mem_cons_of_mem _ member
  have first : request ∈ state.pending := pending ▸ List.mem_cons_self
  have once := orderly.once
  rw [pending, List.nodup_cons] at once
  have here : (state.markReady request).marked request = true := Function.update_self _ _ _
  have there {other : Request Proc} (apart : other ≠ request) :
      (state.markReady request).marked other = state.marked other := Function.update_of_ne apart _ _
  refine ⟨orderly.numbered, fun other member => orderly.held other (later member),
    fun other member => ?_, once.2, fun _ wrong => (nomatch wrong), fun other set => ?_,
    fun proc number asleep ready => ?_, orderly.channel⟩
  · have apart : other ≠ request := by
      rintro rfl
      exact once.1 member
    rw [there apart]
    exact orderly.unmarked other (later member)
  · by_cases same : other = request
    · subst same
      exact ⟨orderly.served other served, orderly.numbered _ _ (orderly.held other first)⟩
    · rw [there same] at set
      exact orderly.marked other set
  · by_cases same : proc = request.proc
    · subst same
      have sleeps : state.place request.proc = .asleep number := asleep
      rcases orderly.held request first with queued | also
      · rw [queued] at sleeps
        cases sleeps
      · rw [also] at sleeps
        cases sleeps
        exact here
    · have before : state.stat proc = .ready := by
        simp only [HdState.markReady, Function.update_of_ne same] at ready
        exact ready
      have set := orderly.woken proc number asleep before
      rw [there fun wrong => same (congrArg Request.proc wrong)]
      exact set

theorem hdStep_cases {action : HdAction Proc} (moved : hdStep state action = some next) :
    (∃ proc, action = .enqueue proc ∧ state.place proc = .away ∧ next = state.enqueue proc) ∨
      (∃ proc number, action = .fallAsleep proc ∧ state.place proc = .queued number ∧
        next = state.fallAsleep proc number) ∨
      (∃ proc number, action = .resume proc ∧ state.place proc = .asleep number ∧
        state.stat proc = .ready ∧ next = state.resume proc) ∨
      (∃ request queue, action = .take ∧ state.service = .fetching ∧
        outHdQueue state.queue = some (request, queue) ∧
        next = { state with queue := queue, service := .serving request }) ∨
      (∃ request, action = .perform ∧ state.service = .serving request ∧
        next = state.performRequest request) ∨
      ∃ request, action = .mark ∧ state.service = .served request ∧ next = state.markReady request := by
  cases action with
  | enqueue proc =>
      simp only [hdStep] at moved
      split at moved
      next away => cases moved; exact .inl ⟨proc, rfl, away, rfl⟩
      next => cases moved
  | fallAsleep proc =>
      simp only [hdStep] at moved
      split at moved
      next number queued => cases moved; exact .inr (.inl ⟨proc, number, rfl, queued, rfl⟩)
      next => cases moved
  | resume proc =>
      simp only [hdStep] at moved
      split at moved
      next number asleep =>
        split at moved
        next ready => cases moved; exact .inr (.inr (.inl ⟨proc, number, rfl, asleep, ready, rfl⟩))
        next => cases moved
      next => cases moved
  | take =>
      simp only [hdStep] at moved
      split at moved
      next request queue fetching front =>
        cases moved
        exact .inr (.inr (.inr (.inl ⟨request, queue, rfl, fetching, front, rfl⟩)))
      next => cases moved
  | perform =>
      simp only [hdStep] at moved
      split at moved
      next request serving =>
        cases moved
        exact .inr (.inr (.inr (.inr (.inl ⟨request, rfl, serving, rfl⟩))))
      next => cases moved
  | mark =>
      simp only [hdStep] at moved
      split at moved
      next request served =>
        cases moved
        exact .inr (.inr (.inr (.inr (.inr ⟨request, rfl, served, rfl⟩))))
      next => cases moved

theorem Orderly.step (orderly : Orderly state) {action : HdAction Proc}
    (moved : hdStep state action = some next) : Orderly next := by
  rcases hdStep_cases moved with ⟨proc, _, away, rfl⟩ | ⟨proc, number, _, queued, rfl⟩ |
    ⟨proc, number, _, asleep, ready, rfl⟩ | ⟨request, queue, _, fetching, front, rfl⟩ |
    ⟨request, _, serving, rfl⟩ | ⟨request, _, served, rfl⟩
  · exact orderly.enqueue away
  · exact orderly.fallAsleep queued
  · exact orderly.resume asleep ready
  · exact orderly.take fetching front
  · exact orderly.perform serving
  · exact orderly.mark served

end Steps

section WakeUps

variable [DecidableEq Proc] {state next : HdState Proc}

/-- A process that sleeps for a request that is done. -/
def LostWakeUp (state : HdState Proc) (proc : Proc) : Prop :=
  ∃ number, state.place proc = .asleep number ∧ state.marked ⟨proc, number⟩ = true ∧
    state.stat proc = .sleeping

/-- `hd_service` makes a process `READY` only after that process has written
`SLEEPING`. -/
def MarksSleepers (state : HdState Proc) : HdAction Proc → Prop
  | .mark => ∀ request, state.service = .served request →
      state.place request.proc ≠ .queued request.number
  | _ => True

/-- Requests that are marked are no longer on their way to sleep. -/
structure Unlost (state : HdState Proc) : Prop extends Orderly state where
  early : ∀ proc number, state.place proc = .queued number → state.marked ⟨proc, number⟩ = false
  late : ∀ proc number, state.place proc = .asleep number → state.marked ⟨proc, number⟩ = true →
    state.stat proc = .ready

theorem Unlost.step (unlost : Unlost state) {action : HdAction Proc}
    (allowed : MarksSleepers state action) (moved : hdStep state action = some next) : Unlost next := by
  refine ⟨unlost.toOrderly.step moved, fun p n queued => ?_, fun p n asleep set => ?_⟩
  · rcases hdStep_cases moved with ⟨proc, rfl, away, rfl⟩ | ⟨proc, number, rfl, before, rfl⟩ |
      ⟨proc, number, rfl, before, ready, rfl⟩ | ⟨request, queue, rfl, fetching, front, rfl⟩ |
      ⟨request, rfl, serving, rfl⟩ | ⟨request, rfl, served, rfl⟩
    · by_cases same : p = proc
      · subst same
        simp only [HdState.enqueue, Function.update_self, Place.queued.injEq] at queued
        subst queued
        cases set : state.marked ⟨p, state.made p⟩ with
        | false => exact set
        | true => exact absurd (unlost.marked _ set).2 (Nat.lt_irrefl _)
      · simp only [HdState.enqueue, Function.update_of_ne same] at queued
        exact unlost.early p n queued
    · by_cases same : p = proc
      · subst same
        simp only [HdState.fallAsleep, Function.update_self] at queued
        cases queued
      · simp only [HdState.fallAsleep, Function.update_of_ne same] at queued
        exact unlost.early p n queued
    · by_cases same : p = proc
      · subst same
        simp only [HdState.resume, Function.update_self] at queued
        cases queued
      · simp only [HdState.resume, Function.update_of_ne same] at queued
        exact unlost.early p n queued
    · exact unlost.early p n queued
    · exact unlost.early p n queued
    · have apart : (⟨p, n⟩ : Request Proc) ≠ request := by
        rintro rfl
        exact allowed ⟨p, n⟩ served queued
      simp only [HdState.markReady, Function.update_of_ne apart]
      exact unlost.early p n queued
  · rcases hdStep_cases moved with ⟨proc, rfl, away, rfl⟩ | ⟨proc, number, rfl, before, rfl⟩ |
      ⟨proc, number, rfl, before, ready, rfl⟩ | ⟨request, queue, rfl, fetching, front, rfl⟩ |
      ⟨request, rfl, serving, rfl⟩ | ⟨request, rfl, served, rfl⟩
    · by_cases same : p = proc
      · subst same
        simp only [HdState.enqueue, Function.update_self] at asleep
        cases asleep
      · simp only [HdState.enqueue, Function.update_of_ne same] at asleep
        exact unlost.late p n asleep set
    · by_cases same : p = proc
      · subst same
        simp only [HdState.fallAsleep, Function.update_self, Place.asleep.injEq] at asleep
        subst asleep
        -- the wake-up would be lost here
        have clear := unlost.early p number before
        simp only [HdState.fallAsleep] at set
        rw [clear] at set
        cases set
      · simp only [HdState.fallAsleep, Function.update_of_ne same] at asleep ⊢
        exact unlost.late p n asleep set
    · by_cases same : p = proc
      · subst same
        simp only [HdState.resume, Function.update_self] at asleep
        cases asleep
      · simp only [HdState.resume, Function.update_of_ne same] at asleep
        exact unlost.late p n asleep set
    · exact unlost.late p n asleep set
    · exact unlost.late p n asleep set
    · by_cases same : p = request.proc
      · subst same
        exact Function.update_self _ _ _
      · have apart : (⟨p, n⟩ : Request Proc) ≠ request := fun wrong => same (congrArg Request.proc wrong)
        simp only [HdState.markReady, Function.update_of_ne apart] at set
        simp only [HdState.markReady, Function.update_of_ne same]
        exact unlost.late p n asleep set

/-- No wake-up is lost in runs in which `hd_service` only wakes sleepers. -/
theorem no_lost_wakeUp (reached : (hdSystem Proc).ReachableWhen MarksSleepers state) (proc : Proc) :
    ¬LostWakeUp state proc := by
  have unlost : Unlost state := by
    refine reached.invariant (fun state fresh => ?_) fun state action next held allowed moved =>
      held.step allowed moved
    have place := fresh.2.2.1
    refine ⟨fresh.orderly, fun p n queued => ?_, fun p n asleep => ?_⟩
    · rw [place] at queued
      cases queued
    · rw [place] at asleep
      cases asleep
  rintro ⟨number, asleep, set, sleeping⟩
  rw [unlost.late proc number asleep set] at sleeping
  cases sleeping

theorem no_lost_wakeUp_once : ∃ state, (hdSystem Nat).ReachableWhen MarksSleepers state ∧
    state.place 0 = .asleep 0 ∧ state.marked ⟨0, 0⟩ = true ∧ ¬LostWakeUp state 0 := by
  have start : (hdSystem Nat).ReachableWhen MarksSleepers (freshHd Nat) := .initial (freshHd_fresh Nat)
  have meets : (hdSystem Nat).Meets MarksSleepers (freshHd Nat)
      [.enqueue 0, .fallAsleep 0, .take, .perform, .mark] :=
    ⟨trivial, trivial, trivial, trivial, fun request same => by cases same; decide, trivial⟩
  obtain ⟨state, ran, asleep, marked⟩ : ∃ state,
      (hdSystem Nat).run (freshHd Nat) [.enqueue 0, .fallAsleep 0, .take, .perform, .mark] = some state ∧
      state.place 0 = .asleep 0 ∧ state.marked ⟨0, 0⟩ = true := ⟨_, rfl, rfl, rfl⟩
  have reached := start.of_run ran meets
  exact ⟨state, reached, asleep, marked, no_lost_wakeUp reached 0⟩

/-- A process is preempted between `in_hd_queue` and the write of `SLEEPING`,
and `hd_service` is done with its request before it runs again. -/
theorem wakeUp_lost : ∃ state, (hdSystem Nat).Reachable state ∧ LostWakeUp state 0 := by
  have start : (hdSystem Nat).Reachable (freshHd Nat) := .initial (freshHd_fresh Nat)
  obtain ⟨state, ran, asleep, marked, sleeping⟩ : ∃ state,
      (hdSystem Nat).run (freshHd Nat) [.enqueue 0, .take, .perform, .mark, .fallAsleep 0] = some state ∧
      state.place 0 = .asleep 0 ∧ state.marked ⟨0, 0⟩ = true ∧ state.stat 0 = .sleeping :=
    ⟨_, rfl, rfl, rfl, rfl⟩
  exact ⟨state, start.of_run ran, 0, asleep, marked, sleeping⟩

end WakeUps

end AempOS.Hd
