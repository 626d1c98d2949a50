import AempOS.Sync.Semaphore
import AempOS.Lib.Population

/-! The invariant of a semaphore over every interleaving of its users. The usual
equation between `count` and the holders does not hold, since a slow acquisition
forces `count` to `-1`. What holds instead is a balance of two possible values:
`1` as set up by `init_sema`, lowered to `0` by a slow acquisition and raised
again by the first failed pass of a process that was already waiting. -/

set_option autoImplicit false

namespace AempOS.Sync

open Lib

variable {Proc : Type}

/-! ## The test of a pass -/

/-- The counter a pass tests: `sleepers - 1` folded in when it is not negative. -/
def folded (sleepers count : Int) : Int :=
  if 0 ≤ sleepers - 1 then sleepers - 1 + count else count

theorem doDownPass_eq (sem : Semaphore Proc) :
    doDownPass sem =
      if folded sem.sleepers sem.count < 0 then
        ({ sem with count := folded sem.sleepers sem.count, sleepers := 1 }, false)
      else ({ sem with count := -1, sleepers := 0 }, true) := by
  simp [doDownPass, addNegative, folded]

theorem folded_enter {sem : Semaphore Proc} (proc : Proc)
    (sleepers : sem.sleepers = 0 ∨ sem.sleepers = 1) :
    folded (doDownEnter sem proc).sleepers (doDownEnter sem proc).count =
      sem.count + sem.sleepers := by
  have entered : folded (sem.sleepers + 1) sem.count = sem.count + sem.sleepers := by
    rw [folded, if_pos (by omega)]
    omega
  exact entered

theorem folded_wait {sem : Semaphore Proc}
    (sleepers : sem.sleepers = 0 ∨ sem.sleepers = 1) :
    folded sem.sleepers sem.count = sem.count := by
  simp only [folded]
  split <;> omega

/-! ## The balance -/

section Counts

variable [Fintype Proc]

/-- Processes between the decrement of `down` and their first pass. -/
def State.entering (state : State Proc) : Nat :=
  population Phase.isEntering state.phase

/-- Processes past their `down` and before their `up`. -/
def State.holders (state : State Proc) : Nat :=
  population Phase.isHolding state.phase

/-- What every step keeps at `0` or `1`. -/
def State.balance (state : State Proc) : Int :=
  state.sem.count + state.sem.sleepers + state.entering + state.holders

/-- The invariant of every interleaving. `lowered` and `slowHolder` tie a
balance of `0` to a slow acquisition, `fastHolder` and `queued` describe the
semaphore while a process holds it that never went through `do_down`. -/
structure Balanced (state : State Proc) : Prop where
  sleepers : state.sem.sleepers = 0 ∨ state.sem.sleepers = 1
  balance : state.balance = 0 ∨ state.balance = 1
  holders : state.holders ≤ 1
  lowered : ∀ proc, state.phase proc = .waiting → state.sem.sleepers = 0 → state.balance = 0
  fastHolder : ∀ proc, state.phase proc = .holding false → state.balance = 1
  queued : ∀ proc, state.phase proc = .holding false → state.sem.sleepers = 1 →
    state.sem.wait ≠ []
  slowHolder : ∀ proc, state.phase proc = .holding true → state.sem.sleepers = 0 →
    state.balance = 0

theorem holders_pos {state : State Proc} {proc : Proc} {slow : Bool}
    (place : state.phase proc = .holding slow) : 0 < state.holders :=
  population_pos (by rw [place]; rfl : (state.phase proc).isHolding = true)

theorem entering_pos {state : State Proc} {proc : Proc}
    (place : state.phase proc = .entering) : 0 < state.entering :=
  population_pos (by rw [place]; rfl : (state.phase proc).isEntering = true)

theorem balance_down {state next : State Proc}
    (result : next.sem = { state.sem with count := state.sem.count - 1 })
    (counts : next.entering + next.holders = state.entering + state.holders + 1) :
    next.balance = state.balance := by
  unfold State.balance
  rw [result]
  simp only
  omega

end Counts

/-! ## What a step does -/

section Steps

variable [DecidableEq Proc]

/-- What a pass of `proc` makes of the semaphore `sem` and of the places. -/
inductive PassCase (sem : Semaphore Proc) (phase : Proc → Phase) (next : State Proc)
    (proc : Proc) : Prop where
  | acquire (free : 0 ≤ folded sem.sleepers sem.count)
      (result : next.sem = { sem with count := -1, sleepers := 0 })
      (phase : next.phase = Function.update phase proc (.holding true))
  | fail (taken : folded sem.sleepers sem.count < 0)
      (result : next.sem = { sem with count := folded sem.sleepers sem.count, sleepers := 1 })
      (phase : next.phase = Function.update phase proc .waiting)

/-- Everything a step can do, guards included. -/
inductive StepCase (state next : State Proc) : Action Proc → Prop where
  | fast (proc : Proc) (place : state.phase proc = .outside) (free : 1 ≤ state.sem.count)
      (result : next.sem = { state.sem with count := state.sem.count - 1 })
      (phase : next.phase = Function.update state.phase proc (.holding false)) :
      StepCase state next (.down proc)
  | contend (proc : Proc) (place : state.phase proc = .outside) (taken : state.sem.count ≤ 0)
      (result : next.sem = { state.sem with count := state.sem.count - 1 })
      (phase : next.phase = Function.update state.phase proc .entering) :
      StepCase state next (.down proc)
  | firstPass (proc : Proc) (place : state.phase proc = .entering)
      (passed : PassCase (doDownEnter state.sem proc) state.phase next proc) :
      StepCase state next (.pass proc)
  | repass (proc : Proc) (place : state.phase proc = .waiting)
      (passed : PassCase state.sem state.phase next proc) : StepCase state next (.pass proc)
  | up (proc : Proc) (slow : Bool) (place : state.phase proc = .holding slow)
      (count : next.sem.count = state.sem.count + 1)
      (sleepers : next.sem.sleepers = state.sem.sleepers)
      (phase : next.phase = Function.update state.phase proc .outside) :
      StepCase state next (.up proc)

theorem loop_case (state : State Proc) (proc : Proc) :
    PassCase state.sem state.phase (state.loop proc) proc := by
  by_cases taken : folded state.sem.sleepers state.sem.count < 0
  · apply PassCase.fail taken <;> simp [State.loop, doDownPass_eq, taken]
  · apply PassCase.acquire (by omega) <;> simp [State.loop, doDownPass_eq, taken]

theorem up_fields (state : State Proc) (proc : Proc) :
    (state.up proc).sem.count = state.sem.count + 1 ∧
      (state.up proc).sem.sleepers = state.sem.sleepers ∧
      (state.up proc).phase = Function.update state.phase proc .outside := by
  cases queue : state.sem.wait with
  | nil => cases slow : upSlow state.sem <;> simp [State.up, doUp, queue, slow]
  | cons front rest => cases slow : upSlow state.sem <;> simp [State.up, doUp, queue, slow]

theorem step_cases {state next : State Proc} {action : Action Proc}
    (moved : (semaphoreSystem Proc).step state action = some next) :
    StepCase state next action := by
  cases action with
  | down proc =>
      simp only [semaphoreSystem, step] at moved
      split at moved
      next place =>
        cases moved
        by_cases free : 1 ≤ state.sem.count
        · exact .fast proc place free rfl (by simp [State.down, free])
        · exact .contend proc place (by omega) rfl (by simp [State.down, free])
      next => cases moved
  | pass proc =>
      simp only [semaphoreSystem, step] at moved
      split at moved
      next place =>
        cases moved
        exact .firstPass proc place (loop_case (state.enter proc) proc)
      next place =>
        cases moved
        exact .repass proc place (loop_case state proc)
      next => cases moved
  | up proc =>
      simp only [semaphoreSystem, step] at moved
      split at moved
      next held =>
        cases moved
        obtain ⟨count, sleepers, phase⟩ := up_fields state proc
        cases place : state.phase proc with
        | holding slow => exact .up proc slow place count sleepers phase
        | outside | entering | waiting => simp [place, Phase.isHolding] at held
      next => cases moved

/-- A place other than the new one of the moving process was there before. -/
theorem place_before {phase : Proc → Phase} {proc other : Proc} {place target : Phase}
    (there : Function.update phase proc place other = target) (different : place ≠ target) :
    phase other = target := by
  by_cases same : other = proc
  · subst other
    exact absurd (by simpa using there) different
  · simpa [Function.update_of_ne same] using there

end Steps

/-! ## The steps in balance -/

variable [DecidableEq Proc] [Fintype Proc]

/-- The two counts after `proc` moved from one place to another. -/
theorem counts_update {state next : State Proc} {proc : Proc} {source target : Phase}
    (place : state.phase proc = source)
    (moved : next.phase = Function.update state.phase proc target) :
    next.entering + (if source.isEntering then 1 else 0) =
        state.entering + (if target.isEntering then 1 else 0) ∧
      next.holders + (if source.isHolding then 1 else 0) =
        state.holders + (if target.isHolding then 1 else 0) := by
  subst place
  unfold State.entering State.holders
  rw [moved]
  exact ⟨population_update _ _ _ _, population_update _ _ _ _⟩

theorem counts_fast {state next : State Proc} {proc : Proc}
    (place : state.phase proc = .outside)
    (phase : next.phase = Function.update state.phase proc (.holding false)) :
    next.entering = state.entering ∧ next.holders = state.holders + 1 :=
  counts_update place phase

theorem counts_contend {state next : State Proc} {proc : Proc}
    (place : state.phase proc = .outside)
    (phase : next.phase = Function.update state.phase proc .entering) :
    next.entering = state.entering + 1 ∧ next.holders = state.holders :=
  counts_update place phase

theorem counts_up {state next : State Proc} {proc : Proc} {slow : Bool}
    (place : state.phase proc = .holding slow)
    (phase : next.phase = Function.update state.phase proc .outside) :
    next.entering = state.entering ∧ next.holders + 1 = state.holders :=
  counts_update place phase

/-- A first pass takes its process out of the entering ones, any pass that
breaks out of the loop adds a holder. -/
theorem counts_firstPass {state next : State Proc} {proc : Proc} {target : Phase}
    (place : state.phase proc = .entering)
    (phase : next.phase = Function.update state.phase proc target)
    (left : target.isEntering = false) :
    next.entering + 1 = state.entering ∧
      next.holders = state.holders + (if target.isHolding then 1 else 0) := by
  have moved := counts_update place phase
  rw [left] at moved
  exact moved

theorem counts_repass {state next : State Proc} {proc : Proc} {target : Phase}
    (place : state.phase proc = .waiting)
    (phase : next.phase = Function.update state.phase proc target)
    (left : target.isEntering = false) :
    next.entering = state.entering ∧
      next.holders = state.holders + (if target.isHolding then 1 else 0) := by
  have moved := counts_update place phase
  rw [left] at moved
  exact moved

theorem balance_firstFail {state next : State Proc} {proc : Proc}
    (sleepers : state.sem.sleepers = 0 ∨ state.sem.sleepers = 1)
    (place : state.phase proc = .entering)
    (result : next.sem = { doDownEnter state.sem proc with
      count := folded (doDownEnter state.sem proc).sleepers (doDownEnter state.sem proc).count
      sleepers := 1 })
    (phase : next.phase = Function.update state.phase proc .waiting) :
    next.balance = state.balance ∧ next.holders = state.holders := by
  obtain ⟨entering, holders⟩ := counts_firstPass place phase rfl
  rw [folded_enter proc sleepers] at result
  simp only [Phase.isHolding, Bool.false_eq_true, if_false] at holders
  unfold State.balance
  rw [result]
  simp only
  omega

/-- The balance rises exactly when a waiting process fails with no sleepers. -/
theorem balance_refail {state next : State Proc} {proc : Proc}
    (sleepers : state.sem.sleepers = 0 ∨ state.sem.sleepers = 1)
    (place : state.phase proc = .waiting)
    (result : next.sem = { state.sem with
      count := folded state.sem.sleepers state.sem.count, sleepers := 1 })
    (phase : next.phase = Function.update state.phase proc .waiting) :
    next.balance = state.balance + 1 - state.sem.sleepers ∧ next.holders = state.holders := by
  obtain ⟨entering, holders⟩ := counts_repass place phase rfl
  rw [folded_wait sleepers] at result
  simp only [Phase.isHolding, Bool.false_eq_true, if_false] at holders
  unfold State.balance
  rw [result]
  simp only
  omega

theorem balance_up {state next : State Proc} {proc : Proc} {slow : Bool}
    (place : state.phase proc = .holding slow)
    (count : next.sem.count = state.sem.count + 1)
    (sleepers : next.sem.sleepers = state.sem.sleepers)
    (phase : next.phase = Function.update state.phase proc .outside) :
    next.balance = state.balance := by
  obtain ⟨entering, holders⟩ := counts_up place phase
  unfold State.balance
  omega

/-! ## The invariant -/

theorem balanced_initial {state : State Proc} (start : (semaphoreSystem Proc).initial state) :
    Balanced state := by
  obtain ⟨sem, outside, _⟩ := start
  have entering : state.entering = 0 :=
    population_eq_zero.mpr fun proc => by rw [outside]; rfl
  have holders : state.holders = 0 :=
    population_eq_zero.mpr fun proc => by rw [outside]; rfl
  constructor <;> simp [sem, initSema, State.balance, entering, holders, outside]

private theorem balanced_fast {state next : State Proc} {proc : Proc} (held : Balanced state)
    (place : state.phase proc = .outside) (free : 1 ≤ state.sem.count)
    (result : next.sem = { state.sem with count := state.sem.count - 1 })
    (phase : next.phase = Function.update state.phase proc (.holding false)) :
    Balanced next := by
  obtain ⟨entering, holders⟩ := counts_fast place phase
  -- A positive count leaves the balance no room for sleepers, entrants or holders.
  have room := held.balance
  have sleepers := held.sleepers
  have kept := balance_down result (by omega)
  unfold State.balance at room
  have balance : next.balance = 1 := by
    rw [kept, State.balance]
    omega
  refine ⟨by rw [result]; exact sleepers, .inr balance, by omega, ?_, fun _ _ => balance, ?_, ?_⟩
  · intro other there asleep
    rw [phase] at there
    have raised := held.lowered other (place_before there (by simp)) (by omega)
    omega
  · intro other _ awake
    rw [result] at awake
    simp only at awake
    omega
  · intro other there _
    rw [phase] at there
    have := holders_pos (place_before there (by simp))
    omega

private theorem balanced_contend {state next : State Proc} {proc : Proc} (held : Balanced state)
    (place : state.phase proc = .outside)
    (result : next.sem = { state.sem with count := state.sem.count - 1 })
    (phase : next.phase = Function.update state.phase proc .entering) : Balanced next := by
  obtain ⟨entering, holders⟩ := counts_contend place phase
  have balance := balance_down result (by omega)
  have before : ∀ other target, target ≠ Phase.entering → next.phase other = target →
      state.phase other = target := by
    intro other target different there
    rw [phase] at there
    exact place_before there (Ne.symm different)
  refine ⟨by rw [result]; exact held.sleepers, balance ▸ held.balance,
    by have := held.holders; omega, ?_, ?_, ?_, ?_⟩
  · intro other there asleep
    rw [result] at asleep
    exact balance ▸ held.lowered other (before _ _ (by simp) there) asleep
  · intro other there
    exact balance ▸ held.fastHolder other (before _ _ (by simp) there)
  · intro other there awake
    rw [result] at awake ⊢
    exact held.queued other (before _ _ (by simp) there) awake
  · intro other there asleep
    rw [result] at asleep
    exact balance ▸ held.slowHolder other (before _ _ (by simp) there) asleep

/-- A successful pass empties the room: nobody else holds or is entering, and
the balance drops to `0`. -/
private theorem balanced_acquire {state next : State Proc} {proc : Proc} {wait : List Proc}
    (alone : next.entering = 0 ∧ next.holders = 1)
    (result : next.sem = { count := -1, sleepers := 0, wait })
    (phase : next.phase = Function.update state.phase proc (.holding true))
    (fresh : state.holders = 0) : Balanced next := by
  have balance : next.balance = 0 := by
    unfold State.balance
    rw [result]
    simp only
    omega
  refine ⟨by rw [result]; exact .inl rfl, .inl balance, by omega, fun _ _ _ => balance, ?_, ?_,
    fun _ _ _ => balance⟩
  · intro other there
    rw [phase] at there
    have := holders_pos (place_before there (by simp))
    omega
  · intro other _ awake
    rw [result] at awake
    simp at awake

private theorem balanced_firstPass {state next : State Proc} {proc : Proc}
    (held : Balanced state) (place : state.phase proc = .entering)
    (passed : PassCase (doDownEnter state.sem proc) state.phase next proc) : Balanced next := by
  have room := held.balance
  have sleepers := held.sleepers
  have present := entering_pos place
  cases passed with
  | acquire free result phase =>
      obtain ⟨entering, holders⟩ := counts_firstPass place phase rfl
      simp only [Phase.isHolding, if_true] at holders
      rw [folded_enter proc sleepers] at free
      unfold State.balance at room
      exact balanced_acquire ⟨by omega, by omega⟩ result phase (by omega)
  | fail taken result phase =>
      obtain ⟨balance, holders⟩ := balance_firstFail sleepers place result phase
      have before : ∀ other slow, next.phase other = .holding slow →
          state.phase other = .holding slow := by
        intro other slow there
        rw [phase] at there
        exact place_before there (by simp)
      have awake : next.sem.sleepers = 1 := by rw [result]
      refine ⟨.inr awake, balance ▸ room, holders ▸ held.holders, ?_, ?_, ?_, ?_⟩
      · intro other _ asleep
        omega
      · intro other there
        exact balance ▸ held.fastHolder other (before _ _ there)
      · intro other _ _
        rw [result]
        simp [doDownEnter, addWaitQueue]
      · intro other _ asleep
        omega

private theorem balanced_repass {state next : State Proc} {proc : Proc}
    (held : Balanced state) (place : state.phase proc = .waiting)
    (passed : PassCase state.sem state.phase next proc) : Balanced next := by
  have room := held.balance
  have sleepers := held.sleepers
  have lowered := held.lowered proc place
  cases passed with
  | acquire free result phase =>
      obtain ⟨entering, holders⟩ := counts_repass place phase rfl
      simp only [Phase.isHolding, if_true] at holders
      rw [folded_wait sleepers] at free
      unfold State.balance at room lowered
      exact balanced_acquire ⟨by omega, by omega⟩ result phase (by omega)
  | fail taken result phase =>
      obtain ⟨balance, holders⟩ := balance_refail sleepers place result phase
      have before : ∀ other slow, next.phase other = .holding slow →
          state.phase other = .holding slow := by
        intro other slow there
        rw [phase] at there
        exact place_before there (by simp)
      have awake : next.sem.sleepers = 1 := by rw [result]
      refine ⟨.inr awake, by omega, holders ▸ held.holders, ?_, ?_, ?_, ?_⟩
      · intro other _ asleep
        omega
      · intro other there
        have full := held.fastHolder other (before _ _ there)
        omega
      · intro other there _
        have full := held.fastHolder other (before _ _ there)
        rw [result]
        exact held.queued other (before _ _ there) (by omega)
      · intro other _ asleep
        omega

private theorem balanced_up {state next : State Proc} {proc : Proc} {slow : Bool}
    (held : Balanced state) (place : state.phase proc = .holding slow)
    (count : next.sem.count = state.sem.count + 1)
    (sleepers : next.sem.sleepers = state.sem.sleepers)
    (phase : next.phase = Function.update state.phase proc .outside) : Balanced next := by
  obtain ⟨entering, holders⟩ := counts_up place phase
  have single := held.holders
  have balance := balance_up place count sleepers phase
  have empty : ∀ other kind, next.phase other ≠ .holding kind := by
    intro other kind there
    have := holders_pos there
    omega
  refine ⟨sleepers ▸ held.sleepers, balance ▸ held.balance, by omega, ?_, ?_, ?_, ?_⟩
  · intro other there asleep
    rw [phase] at there
    exact balance ▸ held.lowered other (place_before there (by simp)) (sleepers ▸ asleep)
  · exact fun other there => absurd there (empty _ _)
  · exact fun other there => absurd there (empty _ _)
  · exact fun other there => absurd there (empty _ _)

theorem balanced_step {state next : State Proc} {action : Action Proc} (held : Balanced state)
    (moved : (semaphoreSystem Proc).step state action = some next) : Balanced next := by
  cases step_cases moved with
  | fast proc place free result phase => exact balanced_fast held place free result phase
  | contend proc place _ result phase => exact balanced_contend held place result phase
  | firstPass proc place passed => exact balanced_firstPass held place passed
  | repass proc place passed => exact balanced_repass held place passed
  | up proc slow place count sleepers phase => exact balanced_up held place count sleepers phase

theorem reachable_balanced {state : State Proc} (reached : (semaphoreSystem Proc).Reachable state) :
    Balanced state :=
  reached.invariant (fun _ => balanced_initial) fun _ _ _ held moved => balanced_step held moved

end AempOS.Sync
