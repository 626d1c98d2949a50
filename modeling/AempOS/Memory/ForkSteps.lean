import AempOS.Lib.Scan
import AempOS.Memory.AddressSpace
import AempOS.Memory.Fork

/-! The steps of `sys_fork`: the addresses that its loops visit, the faults of the
kernel while it copies a page, and what the copy of one page does to the maps of
parent and child. -/

set_option autoImplicit false

namespace AempOS.Memory

open Lib

/-! ## The loops -/

/-- A loop upwards visits an address. -/
def VisitedUp (base limit addr : Nat) : Prop := ∃ k, addr = base + 4096 * k ∧ addr < limit

/-- A loop downwards visits an address. -/
def VisitedDown (base limit addr : Nat) : Prop := ∃ k, addr + 4096 * k = base ∧ limit < addr

/-- A loop that can reach no address outside its range never ends. -/
theorem ascending_endless {limit fuel addr : Nat} (small : addr < 4294967296)
    (far : 4294963200 + addr % 4096 < limit) : ascending limit fuel addr = none := by
  induction fuel generalizing addr with
  | zero => rfl
  | succ fuel ih =>
      have again : ascending limit fuel (add32 addr 0x1000) = none := by
        refine ih ?_ ?_
        · unfold add32
          omega
        · unfold add32
          omega
      rw [ascending, if_pos (by omega), again]
      rfl

theorem ascending_visited {limit fuel addr : Nat} {addrs : List Nat} (small : addr < 4294967296)
    (done : ascending limit fuel addr = some addrs) (other : Nat) :
    other ∈ addrs ↔ VisitedUp addr limit other := by
  induction fuel generalizing addr addrs with
  | zero => cases done
  | succ fuel ih =>
      by_cases inside : addr < limit
      · have notFar : ¬4294963200 + addr % 4096 < limit := by
          intro far
          rw [ascending_endless small far] at done
          cases done
        have sum : add32 addr 0x1000 = addr + 0x1000 := by
          unfold add32
          omega
        rw [ascending, if_pos inside, sum, Option.map_eq_some_iff] at done
        obtain ⟨rest, restDone, rfl⟩ := done
        rw [List.mem_cons, ih (by omega) restDone]
        constructor
        · rintro (rfl | ⟨k, rfl, below⟩)
          · exact ⟨0, rfl, inside⟩
          · exact ⟨k + 1, by omega, below⟩
        · rintro ⟨k, rfl, below⟩
          cases k with
          | zero => exact .inl rfl
          | succ k => exact .inr ⟨k, by omega, below⟩
      · rw [ascending, if_neg inside] at done
        cases done
        constructor
        · intro member
          cases member
        · rintro ⟨k, rfl, below⟩
          omega

theorem descending_endless {limit fuel addr : Nat} (small : addr < 4294967296)
    (far : limit < addr % 4096) : descending limit fuel addr = none := by
  induction fuel generalizing addr with
  | zero => rfl
  | succ fuel ih =>
      have again : descending limit fuel (sub32 addr 0x1000) = none := by
        refine ih ?_ ?_
        · unfold sub32
          omega
        · unfold sub32
          omega
      rw [descending, if_pos (by omega), again]
      rfl

theorem descending_visited {limit fuel addr : Nat} {addrs : List Nat} (small : addr < 4294967296)
    (done : descending limit fuel addr = some addrs) (other : Nat) :
    other ∈ addrs ↔ VisitedDown addr limit other := by
  induction fuel generalizing addr addrs with
  | zero => cases done
  | succ fuel ih =>
      by_cases inside : limit < addr
      · have notFar : ¬limit < addr % 4096 := by
          intro far
          rw [descending_endless small far] at done
          cases done
        rw [descending, if_pos inside, Option.map_eq_some_iff] at done
        obtain ⟨rest, restDone, rfl⟩ := done
        rw [List.mem_cons]
        by_cases low : addr < 0x1000
        · omega
        · have difference : sub32 addr 0x1000 = addr - 0x1000 := by
            unfold sub32
            omega
          rw [difference] at restDone
          rw [ih (by omega) restDone]
          constructor
          · rintro (rfl | ⟨k, sum, above⟩)
            · exact ⟨0, rfl, inside⟩
            · exact ⟨k + 1, by omega, above⟩
          · rintro ⟨k, sum, above⟩
            cases k with
            | zero => exact .inl (by omega)
            | succ k => exact .inr ⟨k, by omega, above⟩
      · rw [descending, if_neg inside] at done
        cases done
        constructor
        · intro member
          cases member
        · rintro ⟨k, sum, above⟩
          omega

/-- The numbers of a memory map are `u32` values. -/
structure LinMemmap.Fits (map : LinMemmap) : Prop where
  text : map.textLinBase < 4294967296 ∧ map.textLinLimit < 4294967296
  data : map.dataLinBase < 4294967296 ∧ map.dataLinLimit < 4294967296
  vpage : map.vpageLinBase < 4294967296 ∧ map.vpageLinLimit < 4294967296
  heap : map.heapLinBase < 4294967296
  stack : map.stackLinBase < 4294967296 ∧ map.stackLinLimit < 4294967296
  arg : map.argLinBase < 4294967296 ∧ map.argLinLimit < 4294967296

/-- One of the five loops that copy visits an address. -/
def LinMemmap.Copied (map : LinMemmap) (heapLimit addr : Nat) : Prop :=
  VisitedUp map.dataLinBase map.dataLinLimit addr ∨ VisitedUp map.vpageLinBase map.vpageLinLimit addr ∨
    VisitedUp map.heapLinBase heapLimit addr ∨ VisitedDown map.stackLinBase map.stackLinLimit addr ∨
    VisitedUp map.argLinBase map.argLinLimit addr

theorem LinMemmap.Copied.address {map : LinMemmap} {heapLimit addr : Nat} (fits : map.Fits)
    (heap : heapLimit < 4294967296) (copied : map.Copied heapLimit addr) : addr < 4294967296 := by
  have data := fits.data
  have vpage := fits.vpage
  have stack := fits.stack
  have arg := fits.arg
  rcases copied with ⟨k, _, below⟩ | ⟨k, _, below⟩ | ⟨k, _, below⟩ | ⟨k, sum, _⟩ | ⟨k, _, below⟩ <;> omega

/-- The addresses that the loops of `fork_mem_cpy` visit, in their order. -/
structure Loops (map : LinMemmap) (heapLimit : Nat) (shared copied : List Nat) : Prop where
  text : ascending map.textLinLimit loopFuel map.textLinBase = some shared
  parts : ∃ data vpage heap stack arg, ascending map.dataLinLimit loopFuel map.dataLinBase = some data ∧
    ascending map.vpageLinLimit loopFuel map.vpageLinBase = some vpage ∧
    ascending heapLimit loopFuel map.heapLinBase = some heap ∧
    descending map.stackLinLimit loopFuel map.stackLinBase = some stack ∧
    ascending map.argLinLimit loopFuel map.argLinBase = some arg ∧
    copied = data ++ (vpage ++ (heap ++ (stack ++ arg)))

theorem Loops.shared_iff {map : LinMemmap} {heapLimit : Nat} {shared copied : List Nat}
    (loops : Loops map heapLimit shared copied) (fits : map.Fits) (addr : Nat) :
    addr ∈ shared ↔ VisitedUp map.textLinBase map.textLinLimit addr :=
  ascending_visited fits.text.1 loops.text addr

theorem Loops.copied_iff {map : LinMemmap} {heapLimit : Nat} {shared copied : List Nat}
    (loops : Loops map heapLimit shared copied) (fits : map.Fits) (addr : Nat) :
    addr ∈ copied ↔ map.Copied heapLimit addr := by
  obtain ⟨data, vpage, heap, stack, arg, isData, isVpage, isHeap, isStack, isArg, rfl⟩ := loops.parts
  simp only [List.mem_append, LinMemmap.Copied, ascending_visited fits.data.1 isData,
    ascending_visited fits.vpage.1 isVpage, ascending_visited fits.heap isHeap,
    descending_visited fits.stack.1 isStack, ascending_visited fits.arg.1 isArg]

theorem Loops.shared_address {map : LinMemmap} {heapLimit : Nat} {shared copied : List Nat}
    (loops : Loops map heapLimit shared copied) (fits : map.Fits) :
    ∀ addr ∈ shared, addr < 4294967296 := by
  intro addr member
  obtain ⟨k, _, below⟩ := (loops.shared_iff fits addr).mp member
  have limit := fits.text.2
  omega

theorem Loops.copied_address {map : LinMemmap} {heapLimit : Nat} {shared copied : List Nat}
    (loops : Loops map heapLimit shared copied) (fits : map.Fits) (heap : heapLimit < 4294967296) :
    ∀ addr ∈ copied, addr < 4294967296 := fun addr member =>
  ((loops.copied_iff fits addr).mp member).address fits heap

/-- `fork_mem_cpy` is a loop that shares, and a loop that copies. -/
theorem forkMemCpy_loops {state next : PageState} {map : LinMemmap} {ppid pid : Nat}
    (done : state.forkMemCpy map ppid pid = some next) :
    ∃ (shared copied : List Nat) (text : PageState), Loops map (state.heapLimit ppid) shared copied ∧
      shared.foldlM (PageState.sharePage ppid pid) state = some text ∧
      copied.foldlM (PageState.copyPage ppid pid) text = some next := by
  simp only [PageState.forkMemCpy, PageState.overArea, Option.bind_eq_bind, Option.bind_eq_some_iff] at done
  obtain ⟨text, ⟨shared, isShared, ranText⟩, _, ⟨data, isData, ranData⟩, _, ⟨vpage, isVpage, ranVpage⟩, _,
    ⟨heap, isHeap, ranHeap⟩, _, ⟨stack, isStack, ranStack⟩, arg, isArg, ranArg⟩ := done
  refine ⟨shared, data ++ (vpage ++ (heap ++ (stack ++ arg))), text,
    ⟨isShared, data, vpage, heap, stack, arg, isData, isVpage, isHeap, isStack, isArg, rfl⟩, ranText, ?_⟩
  simp only [List.foldlM_append, ranData, ranVpage, ranHeap, ranStack, ranArg, Option.bind_eq_bind,
    Option.bind_some]

/-- When both loops run through, so does `fork_mem_cpy`. -/
theorem Loops.forkMemCpy {state text next : PageState} {map : LinMemmap} {ppid pid : Nat}
    {shared copied : List Nat} (loops : Loops map (state.heapLimit ppid) shared copied)
    (ranText : shared.foldlM (PageState.sharePage ppid pid) state = some text)
    (ranCopies : copied.foldlM (PageState.copyPage ppid pid) text = some next) :
    state.forkMemCpy map ppid pid = some next := by
  obtain ⟨data, vpage, heap, stack, arg, isData, isVpage, isHeap, isStack, isArg, rfl⟩ := loops.parts
  simp only [List.foldlM_append, Option.bind_eq_bind, Option.bind_eq_some_iff] at ranCopies
  obtain ⟨afterData, ranData, afterVpage, ranVpage, afterHeap, ranHeap, afterStack, ranStack, ranArg⟩ :=
    ranCopies
  simp only [PageState.forkMemCpy, PageState.overArea, loops.text, isData, isVpage, isHeap, isStack, isArg,
    Option.bind_eq_bind, Option.bind_some, ranText, ranData, ranVpage, ranHeap, ranStack, ranArg]

/-! ## Faults of the kernel -/

variable {state next : PageState} {dirs : List Nat}

/-- What the fault handler does: an entry of the directory or of a table gets its
present bit. -/
inductive Faulted (state : PageState) (dir lin : Nat) : PageState → Prop where
  | dir {next : PageState} : ¬Present (state.word dir (pdeIndex lin)) →
      next.mem = Function.update state.mem (dir + 4 * pdeIndex lin)
        (setPresent (state.word dir (pdeIndex lin))) →
      next.man = state.man → next.cr3 = state.cr3 → Faulted state dir lin next
  | table {next : PageState} {table : Nat} : PointsTo state dir (pdeIndex lin) table →
      next.mem = Function.update state.mem (table + 4 * pteIndex lin)
        (setPresent (state.word table (pteIndex lin))) →
      next.man = state.man → next.cr3 = state.cr3 → Faulted state dir lin next

theorem pageFaultHandler_faulted {pid lin : Nat} (held : Tables state dirs) (alive : state.cr3 pid ≠ 0)
    (address : lin < 4294967296) (handled : state.pageFaultHandler pid lin = some next) :
    Faulted state (state.cr3 pid) lin next := by
  have isDir := held.pdePhyAddr alive
  simp only [PageState.pageFaultHandler, PageState.pde, PageState.pte, PageState.ptePhyAddr, isDir] at handled
  generalize (if lin = state.cr2Save then state.cr2Count + 1 else 0) = count at handled
  split at handled
  · cases handled
  · split at handled
    next present =>
        have isNext := (Option.some.inj handled).symm
        have points : PointsTo state (state.cr3 pid) (pdeIndex lin) _ := ⟨pdeIndex_lt address, present, rfl⟩
        exact .table points (by rw [isNext]; rfl) (by rw [isNext]; rfl) (by rw [isNext]; rfl)
    next absent =>
        have isNext := (Option.some.inj handled).symm
        exact .dir absent (by rw [isNext]; rfl) (by rw [isNext]; rfl) (by rw [isNext]; rfl)

namespace Faulted

variable {dir lin : Nat}

theorem man (faulted : Faulted state dir lin next) : next.man = state.man := by
  cases faulted with
  | dir _ _ man _ => exact man
  | table _ _ man _ => exact man

theorem cr3 (faulted : Faulted state dir lin next) : next.cr3 = state.cr3 := by
  cases faulted with
  | dir _ _ _ cr3 => exact cr3
  | table _ _ _ cr3 => exact cr3

theorem word_present (faulted : Faulted state dir lin next) {page i : Nat}
    (present : Present (state.word page i)) : next.word page i = state.word page i := by
  have kept : ∀ addr, next.mem = Function.update state.mem addr (setPresent (state.mem addr)) →
      next.word page i = state.word page i := by
    intro addr mem
    by_cases same : page + 4 * i = addr
    · subst same
      simp only [PageState.word, mem, Function.update_self]
      exact if_pos present
    · simp only [PageState.word, mem]
      exact Function.update_of_ne same _ _
  cases faulted with
  | dir _ mem _ _ => exact kept _ mem
  | table _ mem _ _ => exact kept _ mem

theorem entry_present (faulted : Faulted state dir lin next) {other page : Nat} {found : Nat × Nat}
    (isFound : state.entry other page = some found) (inside : page < 1048576) :
    next.entry other page = some found := by
  obtain ⟨table, points, present, rfl⟩ := entry_some isFound inside
  have dirWord := faulted.word_present points.present
  have stillPoints : PointsTo next other (page / 1024) table :=
    ⟨points.index, dirWord ▸ points.present, dirWord ▸ points.base⟩
  have tableWord := faulted.word_present present
  rw [entry_eq stillPoints, tableWord, if_pos present]

section

variable (faulted : Faulted state dir lin next) (held : Tables state dirs) (member : dir ∈ dirs)
  (index : pdeIndex lin < 1024)
  (absent : EmptyAbsent state dir)

include faulted held member index

/-- The words of the directories, but for the entry that was absent. -/
theorem word_dir {other j : Nat} (otherMember : other ∈ dirs) (inside : j < 1024) :
    next.word other j = state.word other j ∨
      (other, j) = (dir, pdeIndex lin) ∧ next.word other j = setPresent (state.word dir (pdeIndex lin)) ∧
        ¬Present (state.word dir (pdeIndex lin)) := by
  cases faulted with
  | dir absent mem _ _ =>
      by_cases same : (other, j) = (dir, pdeIndex lin)
      · cases same
        refine .inr ⟨rfl, ?_, absent⟩
        simp only [PageState.word, mem, Function.update_self]
      · refine .inl ?_
        simp only [PageState.word, mem]
        refine Function.update_of_ne ?_ _ _
        by_cases sameDir : other = dir
        · subst sameDir
          have : j ≠ pdeIndex lin := fun sameIndex => same (by rw [sameIndex])
          omega
        · exact words_apart (held.aligned other otherMember) (held.aligned dir member) sameDir inside index
  | @table base points mem _ _ =>
      have notDir := held.outside dir member _ base points
      refine .inl ?_
      simp only [PageState.word, mem]
      refine Function.update_of_ne ?_ _ _
      exact words_apart (held.aligned other otherMember) points.aligned
        (fun same => notDir (same ▸ otherMember)) inside (pteIndex_lt lin)

include absent

/-- A new table is the first page of memory. -/
theorem points {other j table : Nat} (otherMember : other ∈ dirs) (points : PointsTo next other j table) :
    PointsTo state other j table ∨ other = dir ∧ table = 0 := by
  rcases faulted.word_dir held member index otherMember points.index with word | ⟨same, word, was⟩
  · exact .inl ⟨points.index, word ▸ points.present, word ▸ points.base⟩
  · obtain ⟨rfl, rfl⟩ := Prod.mk.inj same
    have base := points.base
    rw [word, absent _ index was] at base
    exact .inr ⟨rfl, base ▸ (by decide)⟩

theorem tables : Tables next dirs := by
  have man := faulted.man
  have cr3 := faulted.cr3
  have zero : ∀ {table}, table = 0 → ¬memStart ≤ table := by
    rintro table rfl
    decide
  refine ⟨held.low, held.aligned, man ▸ held.used, cr3 ▸ held.cr3,
    fun other otherMember j table leads inside => ?_, fun other otherMember j table leads low => ?_,
    fun left leftMember right rightMember j k table low leftLeads rightLeads => ?_⟩
  · rcases faulted.points held member index absent otherMember leads with before | ⟨_, isZero⟩
    · exact held.outside other otherMember j table before inside
    · exact zero isZero (held.low table inside)
  · rcases faulted.points held member index absent otherMember leads with before | ⟨_, isZero⟩
    · rw [man]
      exact held.held other otherMember j table before low
    · exact absurd low (zero isZero)
  · rcases faulted.points held member index absent leftMember leftLeads with before | ⟨_, isZero⟩
    · rcases faulted.points held member index absent rightMember rightLeads with beforeRight | ⟨_, isZero⟩
      · exact held.unique left leftMember right rightMember j k table low before beforeRight
      · exact absurd low (zero isZero)
    · exact absurd low (zero isZero)

theorem still_absent : EmptyAbsent next dir := by
  intro i inside isAbsent
  rcases faulted.word_dir held member index member inside with word | ⟨same, word, was⟩
  · rw [word] at isAbsent ⊢
    exact absent i inside isAbsent
  · rw [word, absent _ index was] at isAbsent
    exact absurd (by decide) isAbsent

theorem content {page : Nat} (content : Content dirs state page) (low : memStart ≤ page) :
    Content dirs next page := by
  refine ⟨content.aligned, faulted.man ▸ content.used, content.notDir, fun other otherMember j leads => ?_⟩
  rcases faulted.points held member index absent otherMember leads with before | ⟨_, rfl⟩
  · exact content.notTable other otherMember j before
  · exact absurd low (by decide)

end

end Faulted

/-! ## One page -/

theorem mapOk_eq {current lin phy pid pdeAttr pteAttr : Nat}
    (done : state.mapOk current lin phy pid pdeAttr pteAttr = some next) :
    state.linMappingPhy current lin phy pid pdeAttr pteAttr = some (next, 0) := by
  simp only [PageState.mapOk] at done
  split at done
  next result =>
      cases done
      exact result
  next => cases done

/-- Parent and child while `sys_fork` runs. The tables of the child are fresh; the
parent has tables from the pool, or the first page of memory after a fault. -/
structure Forking (dirs : List Nat) (ppid pid parent child : Nat) (state : PageState) : Prop where
  tables : Tables state dirs
  trusted : Trusted state.man
  parentMember : parent ∈ dirs
  childMember : child ∈ dirs
  differ : parent ≠ child
  parentDir : state.cr3 ppid = parent
  childDir : state.cr3 pid = child
  proper : Proper state child
  absent : EmptyAbsent state parent

variable {ppid pid parent child : Nat}

theorem Tables.ne_zero (held : Tables state dirs) {dir : Nat} (member : dir ∈ dirs) : dir ≠ 0 := by
  have low := held.low dir member
  unfold memStart at low
  omega

/-- A successful call for the parent or for the child. -/
theorem Forking.mapOk (held : Forking dirs ppid pid parent child state) {who dir lin phy attr : Nat}
    (isDir : state.cr3 who = dir) (member : dir ∈ dirs) (address : lin < 4294967296)
    (done : state.mapOk ppid lin phy who (pgP + pgUsu + pgRww) attr = some next) :
    Forking dirs ppid pid parent child next ∧
      ∃ mid table, Mapped state dir lin phy (pgP + pgUsu + pgRww) attr mid table next := by
  have call := mapOk_eq done
  have alive : state.cr3 who ≠ 0 := isDir ▸ held.tables.ne_zero member
  obtain ⟨mid, table, mapped⟩ :=
    linMappingPhy_mapped held.tables (held.trusted 2) alive address (by decide) (by decide) call
  rw [isDir] at mapped
  have keeps := mapped.keeps held.tables member
  refine ⟨⟨keeps.tables, linMappingPhy_trusted held.tables held.trusted alive address call (.inl rfl),
    held.parentMember, held.childMember, held.differ, keeps.cr3 ▸ held.parentDir,
    keeps.cr3 ▸ held.childDir, keeps.proper held.childMember held.proper,
    mapped.emptyAbsent held.tables member held.parentMember held.absent⟩, mid, table, mapped⟩

/-- The accesses of the kernel to the page that it copies. -/
theorem Forking.access (held : Forking dirs ppid pid parent child state) {lin faults : Nat}
    (address : lin < 4294967296) (done : state.kernelAccess ppid lin faults = some next) :
    Forking dirs ppid pid parent child next ∧
      (∀ other page found, page < 1048576 → state.entry other page = some found →
        next.entry other page = some found) ∧
      ∀ page, Content dirs state page → memStart ≤ page → Content dirs next page := by
  induction faults generalizing state with
  | zero => cases done
  | succ faults ih =>
      simp only [PageState.kernelAccess] at done
      split at done
      · cases done
        exact ⟨held, fun _ _ _ _ found => found, fun _ content _ => content⟩
      · simp only [Option.bind_eq_some_iff] at done
        obtain ⟨mid, handled, done⟩ := done
        have alive : state.cr3 ppid ≠ 0 := held.parentDir ▸ held.tables.ne_zero held.parentMember
        have faulted := pageFaultHandler_faulted held.tables alive address handled
        rw [held.parentDir] at faulted
        have index := pdeIndex_lt address
        have midHeld : Forking dirs ppid pid parent child mid := by
          refine ⟨faulted.tables held.tables held.parentMember index held.absent,
            faulted.man ▸ held.trusted, held.parentMember, held.childMember, held.differ,
            faulted.cr3 ▸ held.parentDir, faulted.cr3 ▸ held.childDir, fun i table points => ?_,
            faulted.still_absent held.tables held.parentMember index held.absent⟩
          rcases faulted.points held.tables held.parentMember index held.absent held.childMember points
            with before | ⟨same, _⟩
          · exact held.proper i table before
          · exact absurd same.symm held.differ
        obtain ⟨nextHeld, entries, contents⟩ := ih midHeld done
        refine ⟨nextHeld, fun other page found inside isFound => ?_, fun page content low => ?_⟩
        · exact entries other page found inside (faulted.entry_present isFound inside)
        · exact contents page (faulted.content held.tables held.parentMember index held.absent content low) low

/-- A store into a page that holds contents changes no table. -/
structure Filled (dirs : List Nat) (frame : Nat) (state next : PageState) : Prop where
  man : next.man = state.man
  cr3 : next.cr3 = state.cr3
  words : ∀ page, page % 4096 = 0 → page ≠ frame → ∀ j < 1024, next.word page j = state.word page j

section

variable {frame : Nat} (filled : Filled dirs frame state next) (held : Tables state dirs)
  (content : Content dirs state frame)

include filled held content

theorem Filled.word_dir {dir i : Nat} (member : dir ∈ dirs) (inside : i < 1024) :
    next.word dir i = state.word dir i :=
  filled.words dir (held.aligned dir member) (fun same => content.notDir (same ▸ member)) i inside

theorem Filled.tables : Tables next dirs :=
  held.same (fun _ member _ inside => filled.word_dir held content member inside) filled.cr3
    fun _ free => filled.man ▸ free

theorem Filled.points {dir i table : Nat} (member : dir ∈ dirs) (points : PointsTo next dir i table) :
    PointsTo state dir i table := by
  have word := filled.word_dir held content member points.index
  exact ⟨points.index, word ▸ points.present, word ▸ points.base⟩

theorem Filled.entry {dir page : Nat} (member : dir ∈ dirs) (inside : page < 1048576) :
    next.entry dir page = state.entry dir page := by
  have dirIndex : page / 1024 < 1024 := by omega
  refine entry_same (filled.word_dir held content member dirIndex) fun present => ?_
  have points : PointsTo state dir (page / 1024) (pageBase (state.word dir (page / 1024))) :=
    ⟨dirIndex, present, rfl⟩
  refine filled.words _ (pageBase_mod _) (fun same => ?_) _ (by omega)
  exact content.notTable dir member _ (same ▸ points)

end

theorem Forking.filled {frame : Nat} (held : Forking dirs ppid pid parent child state)
    (filled : Filled dirs frame state next) (content : Content dirs state frame) :
    Forking dirs ppid pid parent child next := by
  refine ⟨filled.tables held.tables content, filled.man ▸ held.trusted, held.parentMember,
    held.childMember, held.differ, filled.cr3 ▸ held.parentDir, filled.cr3 ▸ held.childDir,
    fun i table points => held.proper i table (filled.points held.tables content held.childMember points),
    fun i inside isAbsent => ?_⟩
  rw [filled.word_dir held.tables content held.parentMember inside] at isAbsent ⊢
  exact held.absent i inside isAbsent

theorem memcpyPage_filled {dst src : Nat} (done : state.memcpyPage pid dst src = some next) :
    ∃ mid, state.kernelAccess pid src 3 = some mid ∧ Filled dirs (mid.pagePhyAddr pid dst) mid next ∧
      ∀ j < 1024, next.word (mid.pagePhyAddr pid dst) j = mid.word (mid.pagePhyAddr pid src) j := by
  simp only [PageState.memcpyPage, Option.map_eq_some_iff] at done
  obtain ⟨mid, accessed, rfl⟩ := done
  have aligned : mid.pagePhyAddr pid dst % 4096 = 0 := pageBase_mod _
  refine ⟨mid, accessed, ⟨rfl, rfl, fun page pageAligned apart j inside => ?_⟩, fun j inside => ?_⟩
  · simp only [PageState.word]
    exact if_neg (by omega)
  · simp only [PageState.word]
    rw [if_pos (by omega), Nat.add_sub_cancel_left]

/-- The number of the share page. -/
def shareNumber : Nat := sharePageBase / 4096

theorem copyPage_parts {lin : Nat} (done : PageState.copyPage ppid pid state lin = some next) :
    ∃ cleared taken copied,
      state.mapOk ppid sharePageBase 0 ppid (pgP + pgUsu + pgRww) 0 = some cleared ∧
      cleared.mapOk ppid sharePageBase failed ppid (pgP + pgUsu + pgRww) (pgP + pgUsu + pgRww) = some taken ∧
      taken.memcpyPage ppid sharePageBase (pageBase lin) = some copied ∧
      copied.mapOk ppid lin (copied.pagePhyAddr ppid sharePageBase) pid (pgP + pgUsu + pgRww)
        (pgP + pgUsu + pgRww) = some next := by
  simp only [PageState.copyPage, Option.bind_eq_bind, Option.bind_eq_some_iff] at done
  obtain ⟨cleared, isCleared, taken, isTaken, copied, isCopied, mapped⟩ := done
  exact ⟨cleared, taken, copied, isCleared, isTaken, isCopied, mapped⟩

theorem Forking.takeShare (held : Forking dirs ppid pid parent child state) {cleared taken : PageState}
    (isCleared : state.mapOk ppid sharePageBase 0 ppid (pgP + pgUsu + pgRww) 0 = some cleared)
    (isTaken : cleared.mapOk ppid sharePageBase failed ppid (pgP + pgUsu + pgRww) (pgP + pgUsu + pgRww) =
      some taken) :
    Forking dirs ppid pid parent child taken ∧
      ∃ frame, taken.entry parent shareNumber = some (frame, pgP + pgUsu + pgRww) ∧ memStart ≤ frame ∧
        FreePage cleared.man frame ∧ Content dirs taken frame := by
  have address : sharePageBase < 4294967296 := by decide
  have inside : sharePageBase / 4096 < 1048576 := by decide
  obtain ⟨clearedHeld, mid, table, mapped⟩ := held.mapOk held.parentDir held.parentMember address isCleared
  have absent := mapped.entry_set held.tables held.parentMember (by decide)
  obtain ⟨takenHeld, mid, table, mapped⟩ :=
    clearedHeld.mapOk clearedHeld.parentDir held.parentMember address isTaken
  refine ⟨takenHeld, ?_⟩
  rcases mapped.entry_max clearedHeld.tables held.parentMember rfl inside with
    ⟨found, isFound, _⟩ | ⟨_, frame, set, low, free, content⟩
  · rw [absent] at isFound
    cases isFound
  · rw [reads_makeEntry content.aligned (by decide) (by decide)] at set
    exact ⟨frame, set, low, mapped.linked.free free, content⟩

/-- `get_page_phy_addr` on a present page of the parent. -/
theorem Forking.frame (held : Forking dirs ppid pid parent child state) {lin frame attr : Nat}
    (address : lin < 4294967296) (found : state.entry parent (lin / 4096) = some (frame, attr)) :
    state.pagePhyAddr ppid lin = frame := by
  have alive : state.cr3 ppid ≠ 0 := held.parentDir ▸ held.tables.ne_zero held.parentMember
  rw [← held.parentDir] at found
  exact pagePhyAddr_eq held.tables alive (by omega) found

/-- The copy of a page leaves the child's page and the parent's share page on one
frame. -/
theorem Forking.copyPage (held : Forking dirs ppid pid parent child state) {lin : Nat}
    (address : lin < 4294967296) (done : PageState.copyPage ppid pid state lin = some next) :
    Forking dirs ppid pid parent child next ∧
      ∃ frame, next.entry parent shareNumber = some (frame, pgP + pgUsu + pgRww) ∧
        next.entry child (lin / 4096) = some (frame, pgP + pgUsu + pgRww) := by
  obtain ⟨cleared, taken, copied, isCleared, isTaken, isCopied, isMapped⟩ := copyPage_parts done
  obtain ⟨takenHeld, frame, takenShare, low, _, takenContent⟩ := held.takeShare isCleared isTaken
  have shareAddress : sharePageBase < 4294967296 := by decide
  have inside : shareNumber < 1048576 := by decide
  have source : pageBase lin < 4294967296 := by
    unfold pageBase
    omega
  obtain ⟨accessed, isAccessed, filled, _⟩ : ∃ accessed, taken.kernelAccess ppid (pageBase lin) 3 = some accessed ∧
      Filled dirs (accessed.pagePhyAddr ppid sharePageBase) accessed copied ∧ _ := memcpyPage_filled isCopied
  obtain ⟨accessedHeld, entries, contents⟩ := takenHeld.access source isAccessed
  have accessedShare := entries parent shareNumber _ inside takenShare
  have content := contents frame takenContent low
  rw [accessedHeld.frame shareAddress accessedShare] at filled
  have copiedHeld := accessedHeld.filled filled content
  have copiedShare := (filled.entry accessedHeld.tables content held.parentMember inside).trans accessedShare
  rw [copiedHeld.frame shareAddress copiedShare] at isMapped
  obtain ⟨nextHeld, mid, table, mapped⟩ :=
    copiedHeld.mapOk copiedHeld.childDir held.childMember address isMapped
  have notMax : frame ≠ failed := by
    have aligned := content.aligned
    unfold failed
    omega
  have isChild := mapped.entry_set copiedHeld.tables held.childMember notMax
  rw [reads_makeEntry content.aligned (by decide) (by decide)] at isChild
  have nextShare := mapped.entry_other copiedHeld.tables held.childMember held.parentMember inside
    (fun same => held.differ (Prod.mk.inj same).1) fun _ => mapped.low copiedHeld.proper
  exact ⟨nextHeld, frame, nextShare.trans copiedShare, isChild⟩

theorem Forking.shareText (held : Forking dirs ppid pid parent child state) {lin : Nat}
    (address : lin < 4294967296) (done : PageState.sharePage ppid pid state lin = some next) :
    Forking dirs ppid pid parent child next :=
  (held.mapOk held.childDir held.childMember address done).1

/-! ## Pages that are present -/

/-- One page of one address space is touched, and made of fresh pages. -/
structure OnlyPage (dirs : List Nat) (dir page : Nat) (state next : PageState) : Prop where
  entries : ∀ other ∈ dirs, ∀ q < 1048576, (other, q) ≠ (dir, page) → next.entry other q = state.entry other q
  content : ∀ frame, Content dirs state frame →
    Content dirs next frame ∧ ∀ j < 1024, next.word frame j = state.word frame j
  proper : ∀ other ∈ dirs, Proper state other → Proper next other
  free : ∀ frame, FreePage next.man frame → FreePage state.man frame

theorem OnlyPage.trans {dir page : Nat} {mid : PageState} (first : OnlyPage dirs dir page state mid)
    (second : OnlyPage dirs dir page mid next) : OnlyPage dirs dir page state next := by
  refine ⟨fun other member q inside apart => ?_, fun frame content => ?_,
    fun other member proper => second.proper other member (first.proper other member proper),
    fun frame free => first.free frame (second.free frame free)⟩
  · rw [second.entries other member q inside apart, first.entries other member q inside apart]
  · obtain ⟨midContent, midWords⟩ := first.content frame content
    obtain ⟨nextContent, nextWords⟩ := second.content frame midContent
    exact ⟨nextContent, fun j inside => (nextWords j inside).trans (midWords j inside)⟩

theorem Mapped.onlyPage {dir lin phy pdeAttr pteAttr table : Nat} {mid : PageState}
    (mapped : Mapped state dir lin phy pdeAttr pteAttr mid table next) (held : Tables state dirs)
    (member : dir ∈ dirs) (proper : Proper state dir) : OnlyPage dirs dir (lin / 4096) state next := by
  have keeps := mapped.keeps held member
  refine ⟨fun other otherMember q inside apart => ?_, fun frame content => ?_,
    fun other otherMember otherProper => keeps.proper otherMember otherProper, keeps.free⟩
  · exact mapped.entry_other held member otherMember inside apart fun _ => mapped.low proper
  · exact ⟨keeps.content content, fun j inside => mapped.word_content held member content inside⟩

theorem Forking.access_present (held : Forking dirs ppid pid parent child state) {lin faults : Nat}
    {found : Nat × Nat} (address : lin < 4294967296) (isFound : state.entry parent (lin / 4096) = some found) :
    state.kernelAccess ppid lin (faults + 1) = some state := by
  have alive : state.cr3 ppid ≠ 0 := held.parentDir ▸ held.tables.ne_zero held.parentMember
  rw [← held.parentDir] at isFound
  exact kernelAccess_present held.tables alive address isFound

/-- What the copy of a present page does. -/
structure PageCopied (dirs : List Nat) (parent child lin : Nat) (state next : PageState) : Prop where
  parentPages : ∀ page < 1048576, page ≠ shareNumber → next.entry parent page = state.entry parent page
  childPages : ∀ page < 1048576, page ≠ lin / 4096 → next.entry child page = state.entry child page
  content : ∀ frame, Content dirs state frame →
    Content dirs next frame ∧ ∀ j < 1024, next.word frame j = state.word frame j
  parentProper : Proper next parent
  free : ∀ frame, FreePage next.man frame → FreePage state.man frame
  page : ∃ frame, next.entry child (lin / 4096) = some (frame, pgP + pgUsu + pgRww) ∧
    Content dirs next frame ∧ FreePage state.man frame ∧
    ∀ source attr, lin / 4096 ≠ shareNumber → state.entry parent (lin / 4096) = some (source, attr) →
      Content dirs state source → ∀ j < 1024, next.word frame j = state.word source j

/-- The share page has a fresh frame, and nothing else changed. -/
theorem Forking.takeShare_only (held : Forking dirs ppid pid parent child state)
    (proper : Proper state parent) {cleared taken : PageState}
    (isCleared : state.mapOk ppid sharePageBase 0 ppid (pgP + pgUsu + pgRww) 0 = some cleared)
    (isTaken : cleared.mapOk ppid sharePageBase failed ppid (pgP + pgUsu + pgRww) (pgP + pgUsu + pgRww) =
      some taken) :
    OnlyPage dirs parent shareNumber state cleared ∧ OnlyPage dirs parent shareNumber cleared taken := by
  have address : sharePageBase < 4294967296 := by decide
  obtain ⟨clearedHeld, _, _, mapped⟩ := held.mapOk held.parentDir held.parentMember address isCleared
  have first := mapped.onlyPage held.tables held.parentMember proper
  obtain ⟨_, _, _, mapped⟩ := clearedHeld.mapOk clearedHeld.parentDir held.parentMember address isTaken
  exact ⟨first, mapped.onlyPage clearedHeld.tables held.parentMember (first.proper parent held.parentMember proper)⟩

theorem Forking.copyPage_copied (held : Forking dirs ppid pid parent child state)
    (proper : Proper state parent) {lin : Nat} (address : lin < 4294967296)
    (present : lin / 4096 = shareNumber ∨ ∃ found, state.entry parent (lin / 4096) = some found)
    (done : PageState.copyPage ppid pid state lin = some next) :
    PageCopied dirs parent child lin state next := by
  obtain ⟨cleared, taken, copied, isCleared, isTaken, isCopied, isMapped⟩ := copyPage_parts done
  obtain ⟨takenHeld, frame, takenShare, low, wasFree, frameContent⟩ := held.takeShare isCleared isTaken
  obtain ⟨first, second⟩ := held.takeShare_only proper isCleared isTaken
  have both := first.trans second
  have shareAddress : sharePageBase < 4294967296 := by decide
  have inside : shareNumber < 1048576 := by decide
  have source : pageBase lin < 4294967296 := by
    unfold pageBase
    omega
  have samePage : pageBase lin / 4096 = lin / 4096 := by
    unfold pageBase
    omega
  have takenSource : lin / 4096 ≠ shareNumber →
      taken.entry parent (lin / 4096) = state.entry parent (lin / 4096) := fun apart =>
    both.entries parent held.parentMember _ (by omega) fun same => apart (Prod.mk.inj same).2
  have takenPresent : ∃ found, taken.entry parent (pageBase lin / 4096) = some found := by
    rw [samePage]
    by_cases isShare : lin / 4096 = shareNumber
    · exact ⟨_, isShare ▸ takenShare⟩
    · rw [takenSource isShare]
      exact present.resolve_left isShare
  obtain ⟨found, isFound⟩ := takenPresent
  obtain ⟨accessed, isAccessed, filled, words⟩ : ∃ accessed,
      taken.kernelAccess ppid (pageBase lin) 3 = some accessed ∧
      Filled dirs (accessed.pagePhyAddr ppid sharePageBase) accessed copied ∧
      ∀ j < 1024, copied.word (accessed.pagePhyAddr ppid sharePageBase) j =
        accessed.word (accessed.pagePhyAddr ppid (pageBase lin)) j := memcpyPage_filled isCopied
  rw [takenHeld.access_present source isFound] at isAccessed
  cases isAccessed
  rw [takenHeld.frame shareAddress takenShare] at filled words
  have copiedHeld := takenHeld.filled filled frameContent
  have copiedEntry : ∀ other ∈ dirs, ∀ q < 1048576, copied.entry other q = taken.entry other q :=
    fun other member q bound => filled.entry takenHeld.tables frameContent member bound
  have copiedShare := (copiedEntry parent held.parentMember shareNumber inside).trans takenShare
  rw [copiedHeld.frame shareAddress copiedShare] at isMapped
  obtain ⟨_, _, _, mapped⟩ := copiedHeld.mapOk copiedHeld.childDir held.childMember address isMapped
  have last := mapped.onlyPage copiedHeld.tables held.childMember copiedHeld.proper
  have copiedContent : ∀ page, Content dirs taken page → Content dirs copied page := by
    intro page content
    refine ⟨content.aligned, filled.man ▸ content.used, content.notDir, fun dir member i points => ?_⟩
    exact content.notTable dir member i (filled.points takenHeld.tables frameContent member points)
  have notMax : frame ≠ failed := by
    have aligned := frameContent.aligned
    unfold failed
    omega
  have isChild := mapped.entry_set copiedHeld.tables held.childMember notMax
  rw [reads_makeEntry frameContent.aligned (by decide) (by decide)] at isChild
  obtain ⟨nextContent, nextWords⟩ := last.content frame (copiedContent frame frameContent)
  refine ⟨fun page bound apart => ?_, fun page bound apart => ?_, fun page content => ?_, ?_,
    fun page free => ?_, frame, isChild, nextContent, first.free frame wasFree,
    fun origin attr apart found content j bound => ?_⟩
  · rw [last.entries parent held.parentMember page bound fun same => held.differ (Prod.mk.inj same).1,
      copiedEntry parent held.parentMember page bound]
    exact both.entries parent held.parentMember page bound fun same => apart (Prod.mk.inj same).2
  · rw [last.entries child held.childMember page bound fun same => apart (Prod.mk.inj same).2,
      copiedEntry child held.childMember page bound]
    exact both.entries child held.childMember page bound fun same => held.differ (Prod.mk.inj same).1.symm
  · obtain ⟨takenContent, takenWords⟩ := both.content page content
    obtain ⟨finalContent, finalWords⟩ := last.content page (copiedContent page takenContent)
    refine ⟨finalContent, fun j bound => ?_⟩
    have apart : page ≠ frame := fun same => (first.content page content).1.used (same ▸ wasFree)
    rw [finalWords j bound, filled.words page content.aligned apart j bound, takenWords j bound]
  · refine last.proper parent held.parentMember fun i table points => ?_
    have takenProper := both.proper parent held.parentMember proper
    exact takenProper i table (filled.points takenHeld.tables frameContent held.parentMember points)
  · exact both.free page (filled.man ▸ last.free page free)
  · have takenFound : taken.entry parent (pageBase lin / 4096) = some (origin, attr) := by
      rw [samePage, takenSource apart, found]
    rw [nextWords j bound, words j bound, takenHeld.frame source takenFound]
    exact (both.content origin content).2 j bound

end AempOS.Memory
