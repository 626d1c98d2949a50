import AempOS.Memory.ForkRuns

/-! `sys_fork` leaves the share page of the parent on the frame of the last page
that it copied, so parent and child share that frame: they are apart only when
nothing was copied. -/

set_option autoImplicit false

namespace AempOS.Memory

open Lib

variable {state next : PageState} {dirs : List Nat} {ppid pid parent child : Nat}

/-- A page of the data, the reserved memory, the heap, the stack or the
arguments. -/
def LinMemmap.PrivatePage (map : LinMemmap) (heapLimit page : Nat) : Prop :=
  ∃ addr, addr / 4096 = page ∧
    (map.dataLinBase ≤ addr ∧ addr < map.dataLinLimit ∨
      map.vpageLinBase ≤ addr ∧ addr < map.vpageLinLimit ∨
      map.heapLinBase ≤ addr ∧ addr < heapLimit ∨
      map.stackLinLimit < addr ∧ addr ≤ map.stackLinBase ∨
      map.argLinBase ≤ addr ∧ addr < map.argLinLimit)

/-- No frame of a private page of the child is behind a present user entry of the
parent. -/
def Isolated (map : LinMemmap) (heapLimit ppid pid : Nat) (state : PageState) : Prop :=
  ∀ page < 1048576, map.PrivatePage heapLimit page → ∀ frame attr,
    state.entry (state.cr3 pid) page = some (frame, attr) → ∀ other < 1048576, ∀ otherAttr,
      state.entry (state.cr3 ppid) other = some (frame, otherAttr) → ¬UserBit otherAttr

/-- The five areas are empty. -/
structure LinMemmap.Empty (map : LinMemmap) (heapLimit : Nat) : Prop where
  data : map.dataLinLimit ≤ map.dataLinBase
  vpage : map.vpageLinLimit ≤ map.vpageLinBase
  heap : heapLimit ≤ map.heapLinBase
  stack : map.stackLinBase ≤ map.stackLinLimit
  arg : map.argLinLimit ≤ map.argLinBase

theorem LinMemmap.Empty.no_page {map : LinMemmap} {heapLimit page : Nat} (empty : map.Empty heapLimit) :
    ¬map.PrivatePage heapLimit page := by
  have data := empty.data
  have vpage := empty.vpage
  have heap := empty.heap
  have stack := empty.stack
  have arg := empty.arg
  rintro ⟨addr, _, inData | inVpage | inHeap | inStack | inArg⟩ <;> omega

theorem LinMemmap.copied_of_nonempty {map : LinMemmap} {heapLimit : Nat} (full : ¬map.Empty heapLimit) :
    ∃ addr, map.Copied heapLimit addr := by
  by_contra none
  simp only [not_exists, LinMemmap.Copied, not_or] at none
  refine full ⟨?_, ?_, ?_, ?_, ?_⟩
  · exact Nat.le_of_not_lt fun inside => (none map.dataLinBase).1 ⟨0, rfl, inside⟩
  · exact Nat.le_of_not_lt fun inside => (none map.vpageLinBase).2.1 ⟨0, rfl, inside⟩
  · exact Nat.le_of_not_lt fun inside => (none map.heapLinBase).2.2.1 ⟨0, rfl, inside⟩
  · exact Nat.le_of_not_lt fun inside => (none map.stackLinBase).2.2.2.1 ⟨0, rfl, inside⟩
  · exact Nat.le_of_not_lt fun inside => (none map.argLinBase).2.2.2.2 ⟨0, rfl, inside⟩

theorem LinMemmap.Copied.privatePage {map : LinMemmap} {heapLimit addr : Nat}
    (copied : map.Copied heapLimit addr) : map.PrivatePage heapLimit (addr / 4096) := by
  refine ⟨addr, rfl, ?_⟩
  rcases copied with ⟨k, _, below⟩ | ⟨k, _, below⟩ | ⟨k, _, below⟩ | ⟨k, sum, above⟩ | ⟨k, _, below⟩
  · exact .inl ⟨by omega, below⟩
  · exact .inr (.inl ⟨by omega, below⟩)
  · exact .inr (.inr (.inl ⟨by omega, below⟩))
  · exact .inr (.inr (.inr (.inl ⟨above, by omega⟩)))
  · exact .inr (.inr (.inr (.inr ⟨by omega, below⟩)))

/-- After the last copy the parent's share page is on the frame of a private page
of the child. -/
theorem not_isolated {map : LinMemmap} {heapLimit lin frame : Nat}
    (held : Forking dirs ppid pid parent child next) (fits : map.Fits) (heap : heapLimit < 4294967296)
    (copied : map.Copied heapLimit lin)
    (isShare : next.entry parent shareNumber = some (frame, pgP + pgUsu + pgRww))
    (isChild : next.entry child (lin / 4096) = some (frame, pgP + pgUsu + pgRww)) :
    ¬Isolated map heapLimit ppid pid next := by
  intro isolated
  have address := copied.address fits heap
  rw [← held.childDir] at isChild
  rw [← held.parentDir] at isShare
  exact isolated (lin / 4096) (by omega) copied.privatePage frame _ isChild shareNumber (by decide) _ isShare
    (by decide)

/-- If something was copied, the last page that was copied is shared. -/
theorem fork_shares {map : LinMemmap} (ready : Forkable dirs ppid pid state) (fits : map.Fits)
    (done : state.sysFork map ppid pid = some next) (full : ¬map.Empty (state.heapLimit ppid)) :
    ¬Isolated map (state.heapLimit ppid) ppid pid next := by
  obtain ⟨made, isMade, done⟩ := sysFork_parts done
  obtain ⟨shared, copied, text, loops, ranText, ranCopies⟩ := forkMemCpy_loops done
  rw [ready.inherit_heapLimit isMade] at loops
  have start := ready.start isMade
  have isCopied := loops.copied_iff fits
  have address := loops.copied_address fits ready.limits
  have textHeld := start.loop (loops.shared_address fits)
    (fun addr address state next held moved => held.shareText address moved) ranText
  obtain ⟨first, isFirst⟩ := LinMemmap.copied_of_nonempty full
  have notEmpty : copied ≠ [] := List.ne_nil_of_mem ((isCopied first).mpr isFirst)
  obtain ⟨earlier, last, rfl⟩ : ∃ earlier last, copied = earlier ++ [last] :=
    ⟨copied.dropLast, copied.getLast notEmpty, (List.dropLast_append_getLast notEmpty).symm⟩
  simp only [List.foldlM_append, Option.bind_eq_bind, Option.bind_eq_some_iff] at ranCopies
  obtain ⟨before, ranEarlier, ranLast⟩ := ranCopies
  have beforeHeld := textHeld.loop (fun addr member => address addr (by simp [member]))
    (fun addr address state next held moved => (held.copyPage address moved).1) ranEarlier
  simp only [List.foldlM_cons, List.foldlM_nil, Option.bind_eq_bind, Option.bind_eq_some_iff] at ranLast
  obtain ⟨final, ranLast, ended⟩ := ranLast
  cases ended
  obtain ⟨held, frame, isShare, isChild⟩ := beforeHeld.copyPage (address last (by simp)) ranLast
  exact not_isolated held fits ready.limits ((isCopied last).mp (by simp)) isShare isChild

/-- Parent and child are apart after `sys_fork` exactly when there was nothing to
copy. -/
theorem fork_isolated {map : LinMemmap} (ready : Forkable dirs ppid pid state) (fits : map.Fits)
    (done : state.sysFork map ppid pid = some next) :
    Isolated map (state.heapLimit ppid) ppid pid next ↔ map.Empty (state.heapLimit ppid) := by
  constructor
  · intro isolated
    by_contra full
    exact fork_shares ready fits done full isolated
  · intro empty page _ isPrivate
    exact absurd isPrivate empty.no_page

/-- The memory map with which the first process starts. -/
def initialMap : LinMemmap where
  textLinBase := 0
  textLinLimit := 0
  dataLinBase := 0
  dataLinLimit := 0
  vpageLinBase := 0x40000000
  vpageLinLimit := 0x40000000
  heapLinBase := heapLinBase
  stackLinBase := 0xBFFFEFFC
  stackLinLimit := 0xBFFFAFFC
  argLinBase := 0xBFFFF000
  argLinLimit := 0xBFFFF000

/-- The same without a stack. -/
def bareMap : LinMemmap := { initialMap with stackLinLimit := 0xBFFFEFFC }

/-- The addresses by which the stack is mapped. -/
def stackAddrs : List Nat := [0xBFFFEFFC, 0xBFFFDFFC, 0xBFFFCFFC, 0xBFFFBFFC]

theorem initialMap_fits : initialMap.Fits :=
  ⟨by decide, by decide, by decide, by decide, by decide, by decide⟩

theorem bareMap_fits : bareMap.Fits :=
  ⟨by decide, by decide, by decide, by decide, by decide, by decide⟩

theorem initialMap_loops : Loops initialMap heapLinBase [] stackAddrs :=
  ⟨by decide, [], [], [], stackAddrs, [], by decide, by decide, by decide, by decide, by decide, by decide⟩

theorem bareMap_loops : Loops bareMap heapLinBase [] [] :=
  ⟨by decide, [], [], [], [], [], by decide, by decide, by decide, by decide, by decide, by decide⟩

/-- A process without any memory of its own forks. -/
theorem fork_isolated_bare :
    ∃ made next, cleanPages.initPagePte 1 1 = some (made, 0) ∧ Forkable [0x00400000] 1 2 made ∧
      made.sysFork bareMap 1 2 = some next ∧ bareMap.Empty (made.heapLimit 1) ∧
      Isolated bareMap (made.heapLimit 1) 1 2 next := by
  obtain ⟨made, _, isMade, ran, held, room, _, limit, _⟩ :=
    first_process [] (by simp) (by decide) (by decide : 7 < 4096) (by decide)
  cases ran
  have small : made.heapLimit 1 < 4294967296 := by
    rw [limit]
    decide
  have ready : Forkable [0x00400000] 1 2 made := held.forkable (by decide) small
  have loops := bareMap_loops
  rw [← limit] at loops
  obtain ⟨next, done⟩ : ∃ next, made.sysFork bareMap 1 2 = some next :=
    held.fork_returns (by decide) small bareMap_fits loops (by simp) (room.le (by decide) (by decide))
  have empty : bareMap.Empty (made.heapLimit 1) := by
    rw [limit]
    exact ⟨by decide, by decide, by decide, by decide, by decide⟩
  exact ⟨made, next, isMade, ready, done, empty, (fork_isolated ready bareMap_fits done).mpr empty⟩

/-- The first process forks: the last page of the stack that was copied is shared. -/
theorem fork_shares_stack :
    ∃ made state next, cleanPages.initPagePte 1 1 = some (made, 0) ∧
      stackAddrs.foldlM (PageState.mapFresh 1 7) made = some state ∧ Forkable [0x00400000] 1 2 state ∧
      state.sysFork initialMap 1 2 = some next ∧ ¬Isolated initialMap (state.heapLimit 1) 1 2 next := by
  obtain ⟨made, state, isMade, ran, held, room, _, limit, backed, _⟩ :=
    first_process stackAddrs (by decide) (by decide) (by decide : 7 < 4096) (by decide)
  have small : state.heapLimit 1 < 4294967296 := by
    rw [limit]
    decide
  have ready : Forkable [0x00400000] 1 2 state := held.forkable (by decide) small
  have loops := initialMap_loops
  rw [← limit] at loops
  obtain ⟨next, done⟩ : ∃ next, state.sysFork initialMap 1 2 = some next :=
    held.fork_returns (by decide) small initialMap_fits loops (fun addr member => (backed addr member).present)
      (room.le (by decide) (by decide))
  have full : ¬initialMap.Empty (state.heapLimit 1) := by
    intro empty
    exact absurd empty.stack (by decide)
  exact ⟨made, state, next, isMade, ran, ready, done, fork_shares ready initialMap_fits done full⟩

end AempOS.Memory
