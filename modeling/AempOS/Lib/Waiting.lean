import Mathlib.Data.Set.Card

/-! Processes that wait at places for units. A process that is woken does not own
the unit that it was woken for: it tries again later, and others may be faster.
What holds nevertheless is that, while somebody waits at a place, there are at
most as many units as processes that were woken there and have not tried again. -/

set_option autoImplicit false

namespace AempOS.Lib

inductive WaitStatus (Place : Type) where
  | running
  | waiting (place : Place)
  | woken (place : Place)
  | dropped

@[ext] structure WaitView (Process Place : Type) where
  queued : Place → List Process
  status : Process → WaitStatus Place
  units : Place → Nat

namespace WaitView

variable {Process Place : Type}

/-- The processes that were woken at a place and have not tried again. -/
def woken (view : WaitView Process Place) (place : Place) : Set Process :=
  {process | view.status process = .woken place}

/-- The queues hold exactly the processes that wait, each once, and no wake-up is
missing. -/
structure Sound (view : WaitView Process Place) : Prop where
  waits : ∀ place process, process ∈ view.queued place ↔ view.status process = .waiting place
  once : ∀ place, (view.queued place).Nodup
  enough : ∀ place, view.queued place ≠ [] → (view.units place : ℕ∞) ≤ (view.woken place).encard

/-- The process may try to take a unit at the place: it is running, was woken
there, or was woken where nobody waits. -/
def MayTry (view : WaitView Process Place) (process : Process) (place : Place) : Prop :=
  view.status process = .running ∨ view.status process = .dropped ∨
    ∃ other, view.status process = .woken other ∧ (other = place ∨ view.queued other = [])

section

variable [DecidableEq Process] [DecidableEq Place]

def leave (view : WaitView Process Place) (process : Process) : WaitView Process Place :=
  { view with status := Function.update view.status process .running }

def join (view : WaitView Process Place) (process : Process) (place : Place) : WaitView Process Place :=
  { view with
    queued := Function.update view.queued place (view.queued place ++ [process])
    status := Function.update view.status process (.waiting place) }

def take (view : WaitView Process Place) (place : Place) : WaitView Process Place :=
  { view with units := Function.update view.units place (view.units place - 1) }

def put (view : WaitView Process Place) (place : Place) : WaitView Process Place :=
  { view with units := Function.update view.units place (view.units place + 1) }

/-- The first process of a queue is woken. -/
def wake (view : WaitView Process Place) (place : Place) : WaitView Process Place :=
  match view.queued place with
  | [] => view
  | process :: rest =>
      { view with
        queued := Function.update view.queued place rest
        status := Function.update view.status process (.woken place) }

end

/-- Some places are closed, and those who wait there are told so. -/
def close (view : WaitView Process Place) (gone : Place → Bool) : WaitView Process Place :=
  { view with
    queued := fun place => if gone place then [] else view.queued place
    status := fun process =>
      match view.status process with
      | .waiting place => if gone place then .dropped else .waiting place
      | other => other }

variable {view : WaitView Process Place} {process : Process} {place : Place}

theorem MayTry.not_waiting (may : view.MayTry process place) (other : Place) :
    view.status process ≠ .waiting other := by
  rcases may with running | dropped | ⟨_, woken, _⟩
  · simp [running]
  · simp [dropped]
  · simp [woken]

/-- Nobody but the process itself is missing from the woken ones at a place where
somebody waits, and it only at the place where it tries. -/
theorem MayTry.woken_other [DecidableEq Process] (may : view.MayTry process place) {other : Place}
    (apart : other ≠ place) (waiting : view.queued other ≠ []) (status : WaitStatus Place) :
    view.woken other ⊆ {p | Function.update view.status process status p = .woken other} := by
  intro p isWoken
  have isWoken : view.status p = .woken other := isWoken
  have differ : p ≠ process := by
    rintro rfl
    rcases may with running | dropped | ⟨source, woken, same | empty⟩
    · simp [running] at isWoken
    · simp [dropped] at isWoken
    · rw [woken] at isWoken
      cases isWoken
      exact apart same
    · rw [woken] at isWoken
      cases isWoken
      exact waiting empty
  exact (Function.update_of_ne differ _ _).trans isWoken

namespace Sound

theorem not_queued (held : view.Sound) (may : view.MayTry process place) (other : Place) :
    process ∉ view.queued other :=
  fun member => may.not_waiting other ((held.waits other process).mp member)

/-- A process is in one queue at most. -/
theorem one_queue (held : view.Sound) {first second : Place} (inFirst : process ∈ view.queued first)
    (inSecond : process ∈ view.queued second) : first = second := by
  have atFirst := (held.waits first process).mp inFirst
  rw [(held.waits second process).mp inSecond] at atFirst
  cases atFirst
  rfl

section

variable [DecidableEq Process]

/-- A process gives up. No unit is there for those who wait where it was woken. -/
theorem leaves (held : view.Sound) (notWaiting : ∀ place, view.status process ≠ .waiting place)
    (spare : ∀ place, view.status process = .woken place → view.queued place ≠ [] → view.units place = 0) :
    (view.leave process).Sound := by
  refine ⟨fun place p => ?_, held.once, fun place waiting => ?_⟩
  · refine (held.waits place p).trans ?_
    by_cases same : p = process
    · subst same
      simp [leave, notWaiting place]
    · simp [leave, Function.update_of_ne same]
  · by_cases wasWoken : view.status process = .woken place
    · have units : (view.leave process).units place = 0 := spare place wasWoken waiting
      simp [units]
    · refine (held.enough place waiting).trans (Set.encard_le_encard fun p isWoken => ?_)
      have differ : p ≠ process := by
        rintro rfl
        exact wasWoken isWoken
      exact (Function.update_of_ne differ _ _).trans isWoken

variable [DecidableEq Place]

/-- A process takes a unit. -/
theorem takes (held : view.Sound) (may : view.MayTry process place) :
    ((view.leave process).take place).Sound := by
  refine ⟨fun other p => ?_, held.once, fun other waiting => ?_⟩
  · refine (held.waits other p).trans ?_
    by_cases same : p = process
    · subst same
      simp [leave, take, may.not_waiting other]
    · simp [leave, take, Function.update_of_ne same]
  · by_cases same : other = place
    · subst same
      have before := held.enough other waiting
      have smaller : view.woken other \ {process} ⊆ ((view.leave process).take other).woken other := by
        rintro p ⟨isWoken, differ⟩
        exact (Function.update_of_ne differ _ _).trans isWoken
      calc ((((view.leave process).take other).units other : Nat) : ℕ∞)
          _ = (view.units other : ℕ∞) - 1 := by simp [take, leave]
          _ ≤ (view.woken other).encard - 1 := tsub_le_tsub_right before 1
          _ ≤ (view.woken other \ {process}).encard :=
            Set.encard_tsub_one_le_encard_sdiff_singleton _ _
          _ ≤ _ := Set.encard_le_encard smaller
    · have unchanged : ((view.leave process).take place).units other = view.units other :=
        Function.update_of_ne same _ _
      rw [unchanged]
      exact (held.enough other waiting).trans (Set.encard_le_encard (may.woken_other same waiting _))

/-- A process finds no unit and waits. -/
theorem joins (held : view.Sound) (may : view.MayTry process place) (none : view.units place = 0) :
    ((view.leave process).join process place).Sound := by
  have outside := held.not_queued may
  refine ⟨fun other p => ?_, fun other => ?_, fun other waiting => ?_⟩
  · by_cases same : other = place
    · subst same
      by_cases self : p = process
      · simp [leave, join, self]
      · simp [leave, join, self, held.waits]
    · by_cases self : p = process
      · subst self
        simp [leave, join, Function.update_of_ne same, outside other, Ne.symm same]
      · simp [leave, join, Function.update_of_ne same, Function.update_of_ne self, held.waits]
  · by_cases same : other = place
    · subst same
      simp only [leave, join, Function.update_self]
      exact List.nodup_append.mpr ⟨held.once other, by simp, fun a inside b isProcess equal =>
        outside other (List.mem_singleton.mp isProcess ▸ equal ▸ inside)⟩
    · simp only [leave, join, Function.update_of_ne same]
      exact held.once other
  · by_cases same : other = place
    · subst same
      have units : ((view.leave process).join process other).units other = 0 := none
      simp [units]
    · have stillWaiting : view.queued other ≠ [] := by
        simpa only [leave, join, Function.update_of_ne same] using waiting
      refine (held.enough other stillWaiting).trans (Set.encard_le_encard ?_)
      have kept := may.woken_other same stillWaiting (.waiting place)
      simpa only [woken, leave, join, Function.update_idem] using kept

/-- A unit is put at a place, and the first who waits there is woken. -/
theorem gives (held : view.Sound) (place : Place) : ((view.put place).wake place).Sound := by
  unfold wake
  split
  next empty =>
      have empty : view.queued place = [] := empty
      refine ⟨held.waits, held.once, fun other waiting => ?_⟩
      have apart : other ≠ place := by
        rintro rfl
        exact waiting empty
      simp only [put, Function.update_of_ne apart]
      exact held.enough other waiting
  next first rest queue =>
      have queue : view.queued place = first :: rest := queue
      have isFirst : view.status first = .waiting place := (held.waits place first).mp (by simp [queue])
      have distinct := held.once place
      rw [queue, List.nodup_cons] at distinct
      refine ⟨fun other p => ?_, fun other => ?_, fun other waiting => ?_⟩
      · by_cases same : other = place
        · subst same
          by_cases self : p = first
          · simp [put, self, distinct.1]
          · simp [put, ← held.waits, queue, self]
        · by_cases self : p = first
          · have outside : first ∉ view.queued other := by
              rw [held.waits, isFirst]
              simp [Ne.symm same]
            simp [put, Function.update_of_ne same, self, outside]
          · simp [put, Function.update_of_ne same, Function.update_of_ne self, held.waits]
      · by_cases same : other = place
        · simpa [put, same] using distinct.2
        · simpa [put, Function.update_of_ne same] using held.once other
      · have oneMore : insert first (view.woken place) ⊆
            {p | Function.update view.status first (.woken place) p = .woken place} := by
          rintro p (rfl | isWoken)
          · exact Function.update_self ..
          · have differ : p ≠ first := by
              rintro rfl
              have isWoken : view.status p = .woken place := isWoken
              simp [isFirst] at isWoken
            exact (Function.update_of_ne differ _ _).trans isWoken
        by_cases same : other = place
        · subst same
          refine le_trans ?_ (Set.encard_le_encard oneMore)
          rw [Set.encard_insert_of_notMem (by simp [WaitView.woken, isFirst])]
          simp only [put, Function.update_self, Nat.cast_add, Nat.cast_one]
          exact add_le_add_left (held.enough other (by simp [queue])) 1
        · have stillWaiting : view.queued other ≠ [] := by
            simpa only [put, Function.update_of_ne same] using waiting
          simp only [put, Function.update_of_ne same]
          refine (held.enough other stillWaiting).trans (Set.encard_le_encard fun p isWoken => ?_)
          have differ : p ≠ first := by
            rintro rfl
            have isWoken : view.status p = .woken other := isWoken
            simp [isFirst] at isWoken
          exact (Function.update_of_ne differ _ _).trans isWoken

end

/-- Places are closed. -/
theorem closes (held : view.Sound) (gone : Place → Bool) : (view.close gone).Sound := by
  have queued : ∀ place, gone place = false → (view.close gone).queued place = view.queued place := by
    intro place stays
    simp [close, stays]
  refine ⟨fun place p => ?_, fun place => ?_, fun place waiting => ?_⟩
  · cases isGone : gone place with
    | true =>
        simp only [close, isGone, if_true, List.not_mem_nil, false_iff]
        split
        next other _ =>
            split
            next => simp
            next stays =>
                rintro ⟨⟩
                exact stays isGone
        next notWaiting => exact notWaiting place
    | false =>
        rw [queued place isGone, held.waits]
        simp only [close]
        split
        next other isWaiting =>
            rw [isWaiting]
            split
            next otherGone =>
                simp only [WaitStatus.waiting.injEq, reduceCtorEq, iff_false]
                rintro rfl
                simp [isGone] at otherGone
            next => exact Iff.rfl
        next => exact Iff.rfl
  · cases isGone : gone place with
    | true => simp [close, isGone]
    | false =>
        rw [queued place isGone]
        exact held.once place
  · cases isGone : gone place with
    | true => simp [close, isGone] at waiting
    | false =>
        rw [queued place isGone] at waiting
        refine (held.enough place waiting).trans (Set.encard_le_encard fun p isWoken => ?_)
        have isWoken : view.status p = .woken place := isWoken
        simp [WaitView.woken, close, isWoken]

/-- Units change only where nobody waits. -/
theorem refills (held : view.Sound) {units : Place → Nat}
    (same : ∀ place, view.queued place ≠ [] → units place = view.units place) :
    { view with units := units }.Sound :=
  ⟨held.waits, held.once, fun place waiting =>
    (congrArg Nat.cast (same place waiting)).trans_le (held.enough place waiting)⟩

end Sound

end WaitView

end AempOS.Lib
