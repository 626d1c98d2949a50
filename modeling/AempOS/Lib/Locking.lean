import AempOS.Lib.Program
import AempOS.Lib.Transition
import Mathlib.Logic.Function.Basic

/-! Calls on shared data under one lock. Between the lock and the release a call is a
program of single operations, and the operations of all users interleave in any way. The
calls that have ended nevertheless ran as if one after the other. -/

set_option autoImplicit false

namespace AempOS.Lib

/-- A lock that users try to take until they win. -/
structure TryLock (Lock : Type) where
  free : Lock
  taken : Lock
  attempt : Lock → Lock × Bool
  release : Lock → Lock
  takes : attempt free = (taken, true)
  refuses : attempt taken = (taken, false)
  frees : release taken = free

/-- Where a user of the lock is. -/
inductive Turn (Call Op : Type) (Reply : Op → Type) (Result : Type) where
  | outside
  | trying (call : Call)
  | inside (call : Call) (rest : Program Op Reply Result)

structure Ended (User Call Result : Type) where
  user : User
  call : Call
  result : Result

structure Shared (User Lock Data Call Op : Type) (Reply : Op → Type) (Result : Type) where
  lock : Lock
  data : Data
  turn : User → Turn Call Op Reply Result
  ended : List (Ended User Call Result)

inductive LockAction (User Call : Type) where
  | call (user : User) (call : Call)
  | attempt (user : User)
  | act (user : User)
  | leave (user : User)

variable {User Lock Data Call Op Result : Type} {Reply : Op → Type} [DecidableEq User]

namespace Shared

def setTurn (state : Shared User Lock Data Call Op Reply Result) (user : User)
    (turn : Turn Call Op Reply Result) : Shared User Lock Data Call Op Reply Result :=
  { state with turn := Function.update state.turn user turn }

@[simp] theorem setTurn_same (state : Shared User Lock Data Call Op Reply Result) (user : User)
    (turn : Turn Call Op Reply Result) : (state.setTurn user turn).turn user = turn :=
  Function.update_self ..

theorem setTurn_other (state : Shared User Lock Data Call Op Reply Result) {user other : User}
    (apart : other ≠ user) (turn : Turn Call Op Reply Result) :
    (state.setTurn user turn).turn other = state.turn other :=
  Function.update_of_ne apart ..

def step (tryLock : TryLock Lock) (handler : Data → (op : Op) → Option (Data × Reply op))
    (body : Call → Program Op Reply Result) (state : Shared User Lock Data Call Op Reply Result) :
    LockAction User Call → Option (Shared User Lock Data Call Op Reply Result)
  | .call user call =>
      match state.turn user with
      | .outside => some (state.setTurn user (.trying call))
      | _ => none
  | .attempt user =>
      match state.turn user with
      | .trying call =>
          let tried := { state with lock := (tryLock.attempt state.lock).1 }
          if (tryLock.attempt state.lock).2 then some (tried.setTurn user (.inside call (body call)))
          else some tried
      | _ => none
  | .act user =>
      match state.turn user with
      | .inside call (.act op next) =>
          (handler state.data op).map fun out =>
            { state.setTurn user (.inside call (next out.2)) with data := out.1 }
      | _ => none
  | .leave user =>
      match state.turn user with
      | .inside call (.done result) =>
          some { state.setTurn user .outside with
            lock := tryLock.release state.lock
            ended := state.ended ++ [⟨user, call, result⟩] }
      | _ => none

end Shared

/-- Any users of the data behind the lock. -/
def sharing (User : Type) [DecidableEq User] (tryLock : TryLock Lock)
    (handler : Data → (op : Op) → Option (Data × Reply op)) (body : Call → Program Op Reply Result)
    (data : Data) : Machine (Shared User Lock Data Call Op Reply Result) (LockAction User Call) where
  initial state := state = ⟨tryLock.free, data, fun _ => .outside, []⟩
  step := Shared.step tryLock handler body

/-- A call that wins the lock finds data on which it may run. -/
def Entering (tryLock : TryLock Lock) (may : Data → Call → Prop)
    (state : Shared User Lock Data Call Op Reply Result) : LockAction User Call → Prop
  | .attempt user => ∀ call, state.turn user = .trying call →
      (tryLock.attempt state.lock).2 = true → may state.data call
  | _ => True

/-- Calls that run whole, one after the other. -/
inductive Serial (handler : Data → (op : Op) → Option (Data × Reply op))
    (body : Call → Program Op Reply Result) (may : Data → Call → Prop) (start : Data) :
    List (Ended User Call Result) → Data → Prop where
  | nil : Serial handler body may start [] start
  | snoc {log : List (Ended User Call Result)} {middle last : Data} {entry : Ended User Call Result} :
      Serial handler body may start log middle → may middle entry.call →
      (body entry.call).run handler middle = some (last, entry.result) →
      Serial handler body may start (log ++ [entry]) last

section

variable {tryLock : TryLock Lock} {handler : Data → (op : Op) → Option (Data × Reply op)}
  {body : Call → Program Op Reply Result} {may : Data → Call → Prop} {start : Data}
  {state next : Shared User Lock Data Call Op Reply Result} {user : User}

/-- Nobody but the user is between the lock and the release. -/
def Alone (turn : User → Turn Call Op Reply Result) (user : User) : Prop :=
  ∀ other call rest, turn other = .inside call rest → other = user

/-- Either the lock is free and the calls have run one after the other, or one user is in
a call that will end as if it had run whole. -/
inductive Ordered (tryLock : TryLock Lock) (handler : Data → (op : Op) → Option (Data × Reply op))
    (body : Call → Program Op Reply Result) (may : Data → Call → Prop) (start : Data)
    (state : Shared User Lock Data Call Op Reply Result) : Prop where
  | free : state.lock = tryLock.free → (∀ user call rest, state.turn user ≠ .inside call rest) →
      Serial handler body may start state.ended state.data → Ordered tryLock handler body may start state
  | taken {user : User} {call : Call} {rest : Program Op Reply Result} {base : Data} :
      state.lock = tryLock.taken → state.turn user = .inside call rest → Alone state.turn user →
      Serial handler body may start state.ended base → may base call →
      rest.run handler state.data = (body call).run handler base →
      Ordered tryLock handler body may start state

theorem alone_update {turn : User → Turn Call Op Reply Result} (alone : Alone turn user)
    (moved : Turn Call Op Reply Result) : Alone (Function.update turn user moved) user := by
  intro other call rest inside
  by_contra apart
  rw [Function.update_of_ne apart] at inside
  exact apart (alone other call rest inside)

/-- A user who is not inside and does not come inside changes nothing for the others. -/
theorem Ordered.elsewhere (ordered : Ordered tryLock handler body may start state)
    {moved : Turn Call Op Reply Result} (before : ∀ call rest, state.turn user ≠ .inside call rest)
    (after : ∀ call rest, moved ≠ .inside call rest) :
    Ordered tryLock handler body may start (state.setTurn user moved) := by
  have inside : ∀ other call rest, (state.setTurn user moved).turn other = .inside call rest →
      state.turn other = .inside call rest := by
    intro other call rest inside
    by_cases same : other = user
    · subst same
      rw [Shared.setTurn_same] at inside
      exact absurd inside (after call rest)
    · rwa [Shared.setTurn_other state same] at inside
  cases ordered with
  | free isFree nobody serial =>
      exact .free isFree (fun other call rest came => nobody other call rest (inside other call rest came)) serial
  | @taken holder call rest base isTaken holds alone serial allowed same =>
      have apart : holder ≠ user := by
        rintro rfl
        exact before call rest holds
      exact .taken isTaken ((Function.update_of_ne apart _ _).trans holds)
        (fun other call rest came => alone other call rest (inside other call rest came)) serial allowed same

theorem Ordered.step (ordered : Ordered tryLock handler body may start state) {action : LockAction User Call}
    (entering : Entering tryLock may state action)
    (moved : state.step tryLock handler body action = some next) :
    Ordered tryLock handler body may start next := by
  cases action with
  | call user call =>
      simp only [Shared.step] at moved
      split at moved
      next outside =>
        cases moved
        refine ordered.elsewhere (fun call rest inside => ?_) (fun call rest inside => by cases inside)
        rw [outside] at inside
        cases inside
      next => cases moved
  | attempt user =>
      simp only [Shared.step] at moved
      split at moved
      next call trying =>
        cases ordered with
        | free isFree nobody serial =>
            have won : (tryLock.attempt state.lock).2 = true := by rw [isFree, tryLock.takes]
            rw [if_pos won] at moved
            cases moved
            refine .taken (by rw [isFree, tryLock.takes]; rfl) (Function.update_self ..)
              (fun other call rest came => ?_) serial (entering call trying won) rfl
            by_contra apart
            rw [Shared.setTurn_other _ apart] at came
            exact nobody other call rest came
        | taken isTaken holds alone serial allowed same =>
            have lost : ¬(tryLock.attempt state.lock).2 = true := by
              rw [isTaken, tryLock.refuses]
              exact Bool.false_ne_true
            rw [if_neg lost] at moved
            cases moved
            exact .taken (by rw [isTaken, tryLock.refuses]) holds alone serial allowed same
      next => cases moved
  | act user =>
      simp only [Shared.step] at moved
      split at moved
      next call op rest inside =>
        obtain ⟨⟨data, reply⟩, handled, rfl⟩ := Option.map_eq_some_iff.mp moved
        cases ordered with
        | free isFree nobody serial => exact absurd inside (nobody user _ _)
        | @taken holder held program base isTaken holds alone serial allowed same =>
            obtain rfl := alone user _ _ inside
            rw [inside] at holds
            cases holds
            refine .taken isTaken (Function.update_self ..) (alone_update alone _) serial allowed ?_
            rw [← same]
            simp only [Program.run, handled, Option.bind_some]
      next => cases moved
  | leave user =>
      simp only [Shared.step] at moved
      split at moved
      next call result inside =>
        cases moved
        cases ordered with
        | free isFree nobody serial => exact absurd inside (nobody user _ _)
        | @taken holder held program base isTaken holds alone serial allowed same =>
            obtain rfl := alone user _ _ inside
            rw [inside] at holds
            cases holds
            refine .free (by rw [isTaken, tryLock.frees]) (fun other call rest came => ?_)
              (.snoc serial allowed same.symm)
            obtain rfl := alone_update alone _ other call rest came
            have left := came.symm.trans (Function.update_self ..)
            cases left
      next => cases moved

/-- Whatever the interleaving, the calls have run one after the other. -/
theorem sharing_ordered
    (reached : (sharing User tryLock handler body start).ReachableWhen (Entering tryLock may) state) :
    Ordered tryLock handler body may start state := by
  refine reached.invariant ?_ fun state action next ordered entering moved => ordered.step entering moved
  rintro state rfl
  exact .free rfl (fun _ _ _ inside => by cases inside) .nil

omit [DecidableEq User] in
/-- The calls that have ended, one after the other, give the data when the lock is free. -/
theorem Ordered.serial (ordered : Ordered tryLock handler body may start state) :
    ∃ base, Serial handler body may start state.ended base ∧
      ((∀ user call rest, state.turn user ≠ .inside call rest) → state.data = base) := by
  cases ordered with
  | free _ _ serial => exact ⟨state.data, serial, fun _ => rfl⟩
  | taken _ holds _ serial => exact ⟨_, serial, fun nobody => absurd holds (nobody _ _ _)⟩

omit [DecidableEq User] in
theorem Ordered.exclusive (ordered : Ordered tryLock handler body may start state) {one other : User}
    {call called : Call} {rest remaining : Program Op Reply Result} (isIn : state.turn one = .inside call rest)
    (isInToo : state.turn other = .inside called remaining) : one = other := by
  cases ordered with
  | free _ nobody _ => exact absurd isIn (nobody one _ _)
  | taken _ _ alone => rw [alone one _ _ isIn, alone other _ _ isInToo]

/-! ## Every serial run is a run -/

theorem acts_reach {call : Call} {rest : Program Op Reply Result} {last : Data} {result : Result}
    (reached : (sharing User tryLock handler body start).ReachableWhen (Entering tryLock may)
      (state.setTurn user (.inside call rest)))
    (ran : rest.run handler state.data = some (last, result)) :
    (sharing User tryLock handler body start).ReachableWhen (Entering tryLock may)
      { state.setTurn user (.inside call (.done result)) with data := last } := by
  induction rest generalizing state with
  | done value =>
      cases ran
      exact reached
  | act op after ih =>
      obtain ⟨⟨data, reply⟩, handled, remains⟩ := Option.bind_eq_some_iff.mp ran
      have moved : (state.setTurn user (.inside call (.act op after))).step tryLock handler body (.act user) =
          some { state.setTurn user (.inside call (after reply)) with data := data } := by
        have data : (state.setTurn user (.inside call (.act op after))).data = state.data := rfl
        simp only [Shared.step, Shared.setTurn_same, data, handled, Option.map_some]
        simp only [Shared.setTurn, Function.update_idem]
      have may : Entering tryLock may (state.setTurn user (.inside call (.act op after))) (.act user) :=
        trivial
      exact @ih reply { state with data := data } (reached.step may moved) remains

/-- One after the other, the calls also run in the machine. -/
theorem Serial.reached {log : List (Ended User Call Result)} {last : Data}
    (serial : Serial handler body may start log last) :
    (sharing User tryLock handler body start).ReachableWhen (Entering tryLock may)
      ⟨tryLock.free, last, fun _ => .outside, log⟩ := by
  induction serial with
  | nil => exact .initial rfl
  | @snoc log middle last entry _ allowed ran ih =>
      let waiting : Shared User Lock Data Call Op Reply Result :=
        ⟨tryLock.free, middle, fun _ => .outside, log⟩
      let locked : Shared User Lock Data Call Op Reply Result := { waiting with lock := tryLock.taken }
      have called : waiting.step tryLock handler body (.call entry.user entry.call) =
          some (waiting.setTurn entry.user (.trying entry.call)) := rfl
      have won : (waiting.setTurn entry.user (.trying entry.call)).step tryLock handler body
          (.attempt entry.user) = some (locked.setTurn entry.user (.inside entry.call (body entry.call))) := by
        have lock : (waiting.setTurn entry.user (.trying entry.call)).lock = tryLock.free := rfl
        simp only [Shared.step, Shared.setTurn_same, lock, tryLock.takes, if_true]
        simp only [Shared.setTurn, Function.update_idem]
        rfl
      have entering : Entering tryLock may (waiting.setTurn entry.user (.trying entry.call))
          (.attempt entry.user) := by
        intro call trying _
        rw [Shared.setTurn_same] at trying
        cases trying
        exact allowed
      have calling : Entering tryLock may waiting (.call entry.user entry.call) := trivial
      have worked := acts_reach ((ih.step calling called).step entering won) ran
      refine worked.step (show Entering tryLock may _ (.leave entry.user) from trivial) ?_
      simp only [sharing, Shared.step, Shared.setTurn, Function.update_self, Function.update_idem, locked,
        waiting, tryLock.frees, Function.update_eq_self]

end

end AempOS.Lib
