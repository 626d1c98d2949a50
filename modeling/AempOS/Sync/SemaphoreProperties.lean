import AempOS.Sync.SemaphoreBalance

/-! Mutual exclusion, wake-up and progress of the semaphore over every
interleaving. Exclusion holds without condition. The other two break once
`do_down` has forced `count` to `-1`: the conditions under which they hold are
stated on the state before an `up` and before a first pass. -/

set_option autoImplicit false

namespace AempOS.Sync

open Lib

variable {Proc : Type}

/-- What `do_up` relies on: on the slow path there is a node to unlink. -/
def WakesSomeone (sem : Semaphore Proc) : Prop :=
  upSlow sem = true → sem.wait ≠ []

/-- Whether the next pass of a process breaks out of the loop of `do_down`. -/
def AcquiresNext [DecidableEq Proc] (state : State Proc) (proc : Proc) : Prop :=
  ∃ next, step state (.pass proc) = some next ∧ next.phase proc = .holding true

section Conditions

variable [Fintype Proc]

/-- An `up` that finds the queue empty is safe when its process came through the
fast path of `down` and no process is between its decrement and its first pass. -/
def UpAllowed (state : State Proc) : Action Proc → Prop
  | .up proc => state.sem.wait = [] → state.phase proc = .holding false ∧ state.entering = 0
  | _ => True

/-- A first pass that finds `sleepers` at `0` is safe when the balance has not
been lowered by a slow acquisition. -/
def FirstPassAllowed (state : State Proc) : Action Proc → Prop
  | .pass proc => state.phase proc = .entering → state.sem.sleepers = 0 → state.balance = 1
  | _ => True

/-- A free semaphore goes to a woken process: with no holder and nobody between
decrement and first pass, the next pass of a process that `do_up` made `READY`
and that is still inside `do_down` acquires. -/
def NotStuckFree [DecidableEq Proc] (state : State Proc) : Prop :=
  (∀ proc, (state.phase proc).isHolding = false) →
    (∀ proc, (state.phase proc).isEntering = false) →
    ∀ proc, state.phase proc = .waiting → state.stat proc = .ready → AcquiresNext state proc

end Conditions

theorem nullRead_step [DecidableEq Proc] {state next : State Proc} {action : Action Proc}
    (clear : state.nullRead = false)
    (wakes : ∀ proc, action = .up proc → WakesSomeone state.sem)
    (moved : (semaphoreSystem Proc).step state action = some next) : next.nullRead = false := by
  cases action with
  | down proc =>
      simp only [semaphoreSystem, step] at moved
      split at moved
      next => cases moved; exact clear
      next => cases moved
  | pass proc =>
      simp only [semaphoreSystem, step] at moved
      split at moved
      next => cases moved; exact clear
      next => cases moved; exact clear
      next => cases moved
  | up proc =>
      simp only [semaphoreSystem, step] at moved
      split at moved
      next =>
        cases moved
        have someone := wakes proc rfl
        cases slow : upSlow state.sem with
        | false => simpa [State.up, slow] using clear
        | true =>
            cases queue : state.sem.wait with
            | nil => exact absurd queue (someone slow)
            | cons front rest => simpa [State.up, slow, doUp, queue] using clear
      next => cases moved

theorem acquiresNext_of_count [DecidableEq Proc] {state : State Proc} {proc : Proc}
    (sleepers : state.sem.sleepers = 0 ∨ state.sem.sleepers = 1)
    (place : state.phase proc = .waiting) (free : 0 ≤ state.sem.count) :
    AcquiresNext state proc := by
  refine ⟨state.loop proc, by simp [step, place], ?_⟩
  cases loop_case state proc with
  | acquire _ _ phase => simp [phase]
  | fail taken => rw [folded_wait sleepers] at taken; omega

variable [DecidableEq Proc] [Fintype Proc]

/-! ## Mutual exclusion -/

/-- At most one process is past its `down` and before its `up`. -/
theorem mutual_exclusion {state : State Proc} (reached : (semaphoreSystem Proc).Reachable state)
    {left right : Proc} (leftHolds : (state.phase left).isHolding)
    (rightHolds : (state.phase right).isHolding) : left = right :=
  population_le_one (reachable_balanced reached).holders leftHolds rightHolds

/-- After a contended hand-over only the process that took over holds. -/
theorem mutual_exclusion_handover :
    ∃ state, (semaphoreSystem (Fin 3)).Reachable state ∧ state.phase 2 = .holding true ∧
      ∀ proc, (state.phase proc).isHolding → proc = 2 := by
  have ran : (semaphoreSystem (Fin 3)).run (freshState (Fin 3))
      [.down 0, .down 1, .pass 1, .down 2, .up 0, .pass 1, .pass 2] = some _ := rfl
  have reached := (freshState_reachable (Fin 3)).of_run ran
  exact ⟨_, reached, rfl, fun proc holds => mutual_exclusion reached holds rfl⟩

/-- `count` never leaves the range that the number of processes allows, so an
`int` holds it as long as there are fewer than `2 ^ 31 - 2` processes. -/
theorem count_bounds {state : State Proc} (reached : (semaphoreSystem Proc).Reachable state) :
    -2 - (Fintype.card Proc : Int) ≤ state.sem.count ∧ state.sem.count ≤ 1 := by
  have held := reachable_balanced reached
  have balance := held.balance
  have sleepers := held.sleepers
  have holders := held.holders
  have entering : state.entering ≤ Fintype.card Proc := population_le_card _ _
  unfold State.balance at balance
  omega

/-! ## Wake-up -/

/-- For a holder in any reachable state the condition on `up` is exact. -/
theorem wakesSomeone_iff {state : State Proc} (reached : (semaphoreSystem Proc).Reachable state)
    {proc : Proc} (holds : (state.phase proc).isHolding) :
    WakesSomeone state.sem ↔ UpAllowed state (.up proc) := by
  have held := reachable_balanced reached
  have balance := held.balance
  have sleepers := held.sleepers
  have present : 0 < state.holders := population_pos holds
  have single := held.holders
  unfold State.balance at balance
  simp only [WakesSomeone, UpAllowed, upSlow, decide_eq_true_eq]
  constructor
  · intro wakes empty
    have positive : 0 ≤ state.sem.count := by
      by_contra negative
      exact wakes (by omega) empty
    cases place : state.phase proc with
    | holding slow =>
        cases slow with
        | false => exact ⟨rfl, by omega⟩
        | true =>
            have lowered := held.slowHolder proc place (by omega)
            unfold State.balance at lowered
            omega
    | outside | entering | waiting => simp [place, Phase.isHolding] at holds
  · intro allowed slow empty
    obtain ⟨place, entering⟩ := allowed empty
    have full := held.fastHolder proc place
    have queued := held.queued proc place
    unfold State.balance at full
    exact queued (by omega) empty

/-- In every run whose `up`s all meet the condition no `do_up` found the queue
empty, and for the next `up` the condition is exact. -/
theorem up_wakes_someone {state : State Proc}
    (reached : (semaphoreSystem Proc).ReachableWhen UpAllowed state) :
    state.nullRead = false ∧ ∀ proc, (state.phase proc).isHolding →
      (WakesSomeone state.sem ↔ UpAllowed state (.up proc)) := by
  refine ⟨?_, fun proc holds => wakesSomeone_iff reached.reachable holds⟩
  induction reached with
  | initial start => exact start.2.2
  | @step before after action earlier allowed moved clear =>
      refine nullRead_step clear ?_ moved
      intro proc same
      subst action
      refine (wakesSomeone_iff earlier.reachable ?_).mpr allowed
      cases step_cases moved with
      | up _ slow place => rw [place]; rfl

/-- A run with a contended `up` that meets the condition. -/
theorem up_wakes_someone_contended :
    ∃ state, (semaphoreSystem (Fin 2)).ReachableWhen UpAllowed state ∧
      upSlow state.sem = true ∧ WakesSomeone state.sem := by
  have ran : (semaphoreSystem (Fin 2)).run (freshState (Fin 2))
      [.down 0, .down 1, .pass 1] = some _ := rfl
  have contended : (semaphoreSystem (Fin 2)).ReachableWhen UpAllowed _ :=
    .of_run (.initial (freshState_initial (Fin 2))) ran ⟨trivial, trivial, trivial, trivial⟩
  refine ⟨_, contended, rfl, ((up_wakes_someone contended).2 0 rfl).mpr ?_⟩
  intro empty
  cases empty

/-- Two processes and one contended hand-over: the `up` of the process that took
over through `do_down` takes the slow path and finds nobody in the queue. -/
theorem handover_wakes_nobody :
    ¬ ∀ state, (semaphoreSystem (Fin 2)).Reachable state →
      ∀ proc, (state.phase proc).isHolding → WakesSomeone state.sem := by
  intro claim
  have ran : (semaphoreSystem (Fin 2)).run (freshState (Fin 2))
      [.down 0, .down 1, .pass 1, .up 0, .pass 1] = some _ := rfl
  exact claim _ ((freshState_reachable (Fin 2)).of_run ran) 1 rfl rfl rfl

/-! ## Progress -/

/-- Without a bad first pass, sleepers are only ever recorded in full balance. -/
theorem sleepers_balance {state : State Proc}
    (reached : (semaphoreSystem Proc).ReachableWhen FirstPassAllowed state) :
    state.sem.sleepers = 1 → state.balance = 1 := by
  induction reached with
  | initial start =>
      intro awake
      rw [start.1] at awake
      simp [initSema] at awake
  | @step before after action earlier allowed moved ih =>
      have held := reachable_balanced earlier.reachable
      intro awake
      cases step_cases moved with
      | fast proc place free result phase =>
          obtain ⟨entering, holders⟩ := counts_fast place phase
          rw [result] at awake
          exact (balance_down result (by omega)).trans (ih awake)
      | contend proc place taken result phase =>
          obtain ⟨entering, holders⟩ := counts_contend place phase
          rw [result] at awake
          exact (balance_down result (by omega)).trans (ih awake)
      | firstPass proc place passed =>
          cases passed with
          | acquire free result phase => rw [result] at awake; simp at awake
          | fail taken result phase =>
              rw [(balance_firstFail held.sleepers place result phase).1]
              rcases held.sleepers with asleep | already
              · exact allowed place asleep
              · exact ih already
      | repass proc place passed =>
          cases passed with
          | acquire free result phase => rw [result] at awake; simp at awake
          | fail taken result phase =>
              rw [(balance_refail held.sleepers place result phase).1]
              rcases held.sleepers with asleep | already
              · have := held.lowered proc place asleep
                omega
              · have := ih already
                omega
      | up proc slow place count same phase =>
          exact (balance_up place count same phase).trans (ih (same ▸ awake))

/-- In every run whose first passes all meet the condition, a semaphore that
nobody holds goes to the woken process at its next pass. -/
theorem free_semaphore_acquired {state : State Proc}
    (reached : (semaphoreSystem Proc).ReachableWhen FirstPassAllowed state) :
    NotStuckFree state := by
  intro noHolder noEntrant proc place _
  have held := reachable_balanced reached.reachable
  have raised := sleepers_balance reached
  have lowered := held.lowered proc place
  have holders : state.holders = 0 := population_eq_zero.mpr noHolder
  have entering : state.entering = 0 := population_eq_zero.mpr noEntrant
  apply acquiresNext_of_count held.sleepers place
  rcases held.sleepers with asleep | awake
  · have empty := lowered asleep
    unfold State.balance at empty
    omega
  · have full := raised awake
    unfold State.balance at full
    omega

/-- A run that meets the condition and ends with the semaphore free and a woken
process inside `do_down`. -/
theorem free_semaphore_acquired_woken :
    ∃ state, (semaphoreSystem (Fin 2)).ReachableWhen FirstPassAllowed state ∧
      state.stat 1 = .ready ∧ AcquiresNext state 1 := by
  have ran : (semaphoreSystem (Fin 2)).run (freshState (Fin 2))
      [.down 0, .down 1, .pass 1, .up 0] = some _ := rfl
  have woken : (semaphoreSystem (Fin 2)).ReachableWhen FirstPassAllowed _ :=
    .of_run (.initial (freshState_initial (Fin 2))) ran
      ⟨trivial, trivial, fun _ _ => rfl, trivial, trivial⟩
  exact ⟨_, woken, rfl, free_semaphore_acquired woken (by decide) (by decide) 1 rfl rfl⟩

/-- Three processes: the second takes over from the first, the third queues up,
is woken by the second and then fails its pass although nobody holds. -/
theorem woken_process_stuck :
    ¬ ∀ state, (semaphoreSystem (Fin 3)).Reachable state → NotStuckFree state := by
  intro claim
  have ran : (semaphoreSystem (Fin 3)).run (freshState (Fin 3))
      [.down 0, .down 1, .pass 1, .up 0, .pass 1, .down 2, .pass 2, .up 1] = some _ := rfl
  obtain ⟨next, moved, acquired⟩ :=
    claim _ ((freshState_reachable (Fin 3)).of_run ran) (by decide) (by decide) 2 rfl rfl
  have failed : next.phase 2 = .waiting := by
    cases moved
    rfl
  simp [failed] at acquired

/-- Sleepers recorded in lowered balance: nobody can acquire any more. -/
def Stuck (state : State Proc) : Prop :=
  state.sem.sleepers = 1 ∧ state.balance = 0

/-- The condition is exact: a first pass that breaks it leaves the semaphore
stuck. -/
theorem bad_firstPass_stuck {state next : State Proc} {action : Action Proc}
    (reached : (semaphoreSystem Proc).Reachable state)
    (bad : ¬ FirstPassAllowed state action)
    (moved : (semaphoreSystem Proc).step state action = some next) : Stuck next := by
  have held := reachable_balanced reached
  cases step_cases moved with
  | fast | contend | up => simp [FirstPassAllowed] at bad
  | repass proc place _ => simp [FirstPassAllowed, place] at bad
  | firstPass proc place passed =>
      simp only [FirstPassAllowed, place, true_imp_iff, Classical.not_imp] at bad
      obtain ⟨asleep, notFull⟩ := bad
      have empty : state.balance = 0 := held.balance.resolve_right notFull
      have present := entering_pos place
      cases passed with
      | acquire free result phase =>
          rw [folded_enter proc held.sleepers] at free
          unfold State.balance at empty
          omega
      | fail taken result phase =>
          exact ⟨by rw [result], (balance_firstFail held.sleepers place result phase).1.trans empty⟩

/-- A stuck semaphore stays stuck, and no step of it acquires. -/
theorem stuck_step {state next : State Proc} {action : Action Proc}
    (reached : (semaphoreSystem Proc).Reachable state) (stuck : Stuck state)
    (moved : (semaphoreSystem Proc).step state action = some next) :
    Stuck next ∧ next.holders ≤ state.holders := by
  have held := reachable_balanced reached
  obtain ⟨awake, empty⟩ := stuck
  have negative : state.sem.count + 1 + state.entering + state.holders = 0 := by
    rw [← empty, State.balance, awake]
  cases step_cases moved with
  | fast proc place free result phase => omega
  | contend proc place taken result phase =>
      obtain ⟨entering, holders⟩ := counts_contend place phase
      exact ⟨⟨by rw [result]; exact awake, (balance_down result (by omega)).trans empty⟩, by omega⟩
  | firstPass proc place passed =>
      have present := entering_pos place
      cases passed with
      | acquire free result phase => rw [folded_enter proc held.sleepers] at free; omega
      | fail taken result phase =>
          obtain ⟨balance, holders⟩ := balance_firstFail held.sleepers place result phase
          exact ⟨⟨by rw [result], balance.trans empty⟩, holders.le⟩
  | repass proc place passed =>
      cases passed with
      | acquire free result phase => rw [folded_wait held.sleepers] at free; omega
      | fail taken result phase =>
          obtain ⟨balance, holders⟩ := balance_refail held.sleepers place result phase
          exact ⟨⟨by rw [result], by omega⟩, holders.le⟩
  | up proc slow place count same phase =>
      obtain ⟨entering, holders⟩ := counts_up place phase
      exact ⟨⟨same.trans awake, (balance_up place count same phase).trans empty⟩, by omega⟩

end AempOS.Sync
