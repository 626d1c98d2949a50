import AempOS.Memory.FrameOwnership

/-! Frames stay with their owners as long as no process releases or touches a
page that it does not have: `sys_free_4k` leaves the frame in an entry that it
marks as not present, and the fault handler marks any entry as present. -/

set_option autoImplicit false

namespace AempOS.Memory

open Lib Block

variable {domain : Nat → Prop} {state next : PageState} {live : List FreeInfo}

theorem pdeIndex_lt {lin : Nat} (address : lin < 4294967296) : pdeIndex lin < 1024 := by
  unfold pdeIndex
  omega

theorem pteIndex_lt (lin : Nat) : pteIndex lin < 1024 := by
  unfold pteIndex
  omega

theorem pageBase_makeEntry {base attr : Nat} (page : base % 4096 = 0) (small : attr < 4096) :
    pageBase (makeEntry base attr) = base := by
  unfold makeEntry pageBase
  omega

theorem present_makeEntry {base attr : Nat} : Present (makeEntry base attr) ↔ attr % 2 = 1 := by
  unfold Present makeEntry pageBase
  omega

theorem userBit_setPresent (w : Nat) : UserBit (setPresent w) ↔ UserBit w := by
  by_cases present : Present w
  · rw [setPresent, if_pos present]
  · rw [setPresent, if_neg present]
    unfold UserBit Present at *
    omega

/-! ## Clearing a page -/

theorem clearPage_same {page : Nat} (spare : Spare state live page) :
    SameTables state (state.clearPage page) := by
  refine .of_mem rfl fun owner other holds i index => ?_
  have differ : other ≠ page := fun isPage => spare.unheld owner (isPage ▸ holds)
  have aligned := holds.aligned
  have pageAligned := spare.aligned
  simp only [PageState.clearPage]
  exact if_neg (by omega)

theorem clearPage_empty (state : PageState) (page : Nat) {j : Nat} (entry : j < 1024) :
    (state.clearPage page).mem (page + 4 * j) = 0 := by
  simp only [PageState.clearPage]
  exact if_pos (by omega)

theorem clearLow_owned (held : Owned domain state live) : Owned domain state.clearLow live := by
  refine held.same (.of_mem rfl fun owner page holds i index => ?_) rfl held.limits
  have low := (held.live owner page holds).1
  unfold memStart at low
  simp only [PageState.clearLow]
  rw [if_neg (by omega), if_neg (by omega)]

/-- The last byte of the page above the stack belongs to no directory and no
table. -/
theorem clearLast_owned (held : Owned domain state live) {pid : Nat} (alive : state.cr3 pid ≠ 0)
    (present : Present (state.tableWord pid 767 1023)) :
    Owned domain (state.clearLast (pageBase (state.tableWord pid 767 1023))) live := by
  have lastWord : pageBase (state.tableWord pid 767 1023) + 0xFFC =
      pageBase (state.tableWord pid 767 1023) + 4 * 1023 := rfl
  refine held.same (.of_tables rfl fun owner page holds notPage i index => ?_) rfl held.limits
  simp only [PageState.clearLast, PageState.write, lastWord]
  refine Function.update_of_ne ?_ _ _
  by_cases user : UserBit (state.tableWord pid 767 1023)
  · have arg : Holds state (.page pid 767 1023) (pageBase (state.tableWord pid 767 1023)) :=
      ⟨⟨⟨alive, by decide, held.stack pid alive⟩, by decide, present, user⟩, rfl⟩
    exact held.words_apart holds arg (notPage pid 767 1023) index (by decide)
  · have low := (held.arg pid alive).2 user
    have high := (held.live owner page holds).1
    exact Memory.words_apart holds.aligned (pageBase_mod _) (by omega) index (by decide)

/-! ## The fault handler -/

theorem pageBase_setPresent (w : Nat) : pageBase (setPresent w) = pageBase w := by
  by_cases present : Present w
  · rw [setPresent, if_pos present]
  · rw [setPresent, if_neg present]
    unfold pageBase Present at *
    omega

/-- A fault on an entry that is present, or was never the user's. -/
theorem pageFaultHandler_owned (held : Owned domain state live) {pid lin : Nat}
    (alive : state.cr3 pid ≠ 0) (address : lin < 4294967296) (table : Present (state.pde pid lin))
    (known : UserBit (state.pte pid lin) → Present (state.pte pid lin))
    (handled : state.pageFaultHandler pid lin = some next) :
    Owned domain next live ∧ next.cr3 = state.cr3 := by
  have has : HasTable state pid (pdeIndex lin) := ⟨alive, pdeIndex_lt address, table⟩
  simp only [PageState.pageFaultHandler] at handled
  generalize (if lin = state.cr2Save then state.cr2Count + 1 else 0) = count at handled
  rw [if_pos table] at handled
  split at handled
  · cases handled
  · have isNext := (Option.some.inj handled).symm
    have cr3 : next.cr3 = state.cr3 := by rw [isNext]; rfl
    have mem : next.mem = Function.update state.mem
        (pageBase (state.dirWord pid (pdeIndex lin)) + 4 * pteIndex lin)
        (setPresent (state.pte pid lin)) := by rw [isNext]; rfl
    have man : next.man = state.man := by rw [isNext]; rfl
    have limits : next.heapLimit = state.heapLimit := by rw [isNext]; rfl
    have write := held.tableWrite has (pteIndex_lt lin) cr3 mem
    refine ⟨?_, cr3⟩
    by_cases present : Present (state.pte pid lin)
    · have unchanged : setPresent (state.pte pid lin) = state.pte pid lin := if_pos present
      refine held.same (.of_mem cr3 fun owner page holds i index => ?_) man (limits ▸ held.limits)
      rw [mem, unchanged]
      exact congrFun (Function.update_eq_self _ _) _
    · have notUser : ¬UserBit (setPresent (state.pte pid lin)) := by
        rw [userBit_setPresent]
        exact fun user => present (known user)
      refine (held.unmap write man limits (fun visible => notUser visible.2) fun isStack isArg =>
        ⟨fun user => absurd user notUser, fun _ => ?_⟩).1
      rw [pageBase_setPresent]
      have word : state.pte pid lin = state.tableWord pid 767 1023 := by
        rw [← isStack, ← isArg]
        rfl
      rw [word]
      refine (held.arg pid alive).2 fun user => ?_
      rw [userBit_setPresent, word] at notUser
      exact notUser user

/-- The kernel's access above the stack, which page faults serve. -/
theorem kernelAccess_owned {pid faults : Nat} (held : Owned domain state live)
    (alive : state.cr3 pid ≠ 0)
    (accessed : state.kernelAccess pid (kernelLinBase - 1) faults = some next) :
    Owned domain next live ∧ next.cr3 pid ≠ 0 ∧ Present (next.tableWord pid 767 1023) := by
  induction faults generalizing state with
  | zero => cases accessed
  | succ faults ih =>
      simp only [PageState.kernelAccess] at accessed
      split at accessed
      next both =>
        cases accessed
        exact ⟨held, alive, both.2⟩
      next =>
        simp only [Option.bind_eq_some_iff] at accessed
        obtain ⟨mid, handled, accessed⟩ := accessed
        have address : kernelLinBase - 1 < 4294967296 := by decide
        have table : Present (state.pde pid (kernelLinBase - 1)) := held.stack pid alive
        obtain ⟨midHeld, cr3⟩ := pageFaultHandler_owned held alive address table (held.arg pid alive).1 handled
        exact ih midHeld (cr3 ▸ alive) accessed

theorem clearMinusOne_owned {pid : Nat} (held : Owned domain state live) (alive : state.cr3 pid ≠ 0)
    (cleared : state.clearMinusOne pid = some next) : Owned domain next live := by
  simp only [PageState.clearMinusOne, Option.map_eq_some_iff] at cleared
  obtain ⟨mid, accessed, rfl⟩ := cleared
  obtain ⟨midHeld, midAlive, present⟩ := kernelAccess_owned held alive accessed
  exact clearLow_owned (clearLast_owned midHeld midAlive present)

/-! ## Mapping a page -/

theorem ensureTable_owned (held : Owned domain state live) {pid lin : Nat} {table : Option Nat}
    (alive : state.cr3 pid ≠ 0) (address : lin < 4294967296)
    (ensured : state.ensureTable pid lin pid (pgP + pgUsu + pgRww) = some (next, table)) :
    ∃ live, Owned domain next live ∧
      ∀ base ∈ table, HasTable next pid (pdeIndex lin) ∧ base = pageBase (next.dirWord pid (pdeIndex lin)) := by
  unfold PageState.ensureTable at ensured
  split at ensured
  next present =>
      cases ensured
      refine ⟨live, held, fun base isBase => ?_⟩
      cases isBase
      exact ⟨⟨alive, pdeIndex_lt address, present⟩, rfl⟩
  next absent =>
      have zone : PageAllocator memStart kWall := .inl ⟨rfl, rfl⟩
      obtain same | ⟨rest, page, result, notFailed, taken, spare⟩ := held.take zone
      · simp only [memmanKalloc4k, same, if_true, Option.map_eq_some_iff] at ensured
        obtain ⟨_, cleared, ended⟩ := ensured
        cases ended
        exact ⟨live, clearMinusOne_owned held alive cleared, by simp⟩
      · have aligned := spare.aligned
        simp only [memmanKalloc4k, result, if_neg notFailed] at ensured
        rw [if_neg (by omega)] at ensured
        obtain ⟨isNext, isTable⟩ := Prod.mk.inj (Option.some.inj ensured)
        have same := clearPage_same spare
        have cleared := taken.same same rfl taken.limits
        have stillSpare : Spare _ _ page := ⟨spare.low, aligned, spare.live,
          fun owner holds => spare.unheld owner (same.holds holds)⟩
        have base : pageBase (makeEntry page (pgP + pgUsu + pgRww)) = page :=
          pageBase_makeEntry aligned (by decide)
        have present : Present (makeEntry page (pgP + pgUsu + pgRww)) :=
          present_makeEntry.mpr (by decide)
        have index := pdeIndex_lt address
        have stillAbsent : ¬Present
            ((PageState.clearPage { state with man := rest } page).dirWord pid (pdeIndex lin)) := by
          rw [same.dirs pid _ alive index]
          exact absent
        have cr3 : next.cr3 = state.cr3 := by rw [← isNext]; rfl
        have write := cleared.dirWrite alive index stillAbsent stillSpare base present
          (fun j entry => clearPage_empty _ page entry) cr3 (by rw [← isNext]; rfl)
        refine ⟨_, cleared.link write stillSpare (by rw [← isNext]; rfl) (by rw [← isNext]; rfl), ?_⟩
        intro found isFound
        obtain rfl : page = found := Option.some.inj (isTable.trans isFound)
        exact ⟨⟨cr3 ▸ alive, index, write.present⟩, write.base.symm⟩

theorem takeFrame_zone (state : PageState) (lin : Nat) :
    ∃ lo hi, PageAllocator lo hi ∧ state.takeFrame lin = allocZone lo hi state.man 0x1000 := by
  unfold PageState.takeFrame
  split
  · exact ⟨memStart, kWall, .inl ⟨rfl, rfl⟩, rfl⟩
  · exact ⟨uWall, memEnd, .inr ⟨rfl, rfl⟩, rfl⟩

theorem mapPage_owned (held : Owned domain state live) {pid lin : Nat}
    (table : HasTable state pid (pdeIndex lin)) :
    ∃ live, Owned domain (state.mapPage lin failed (pageBase (state.dirWord pid (pdeIndex lin)))
      (pgP + pgUsu + pgRww)).1 live := by
  simp only [PageState.mapPage, if_true]
  split
  next => exact ⟨live, held⟩
  next =>
      obtain ⟨lo, hi, zone, isAlloc⟩ := takeFrame_zone state lin
      rw [isAlloc]
      obtain same | ⟨rest, page, result, notFailed, taken, spare⟩ := held.take zone
      · have odd : failed % 1024 ≠ 0 := by decide
        rw [same, if_pos odd]
        exact ⟨live, held⟩
      · have aligned := spare.aligned
        rw [result, if_neg (by simp only; omega)]
        have base : pageBase (makeEntry page (pgP + pgUsu + pgRww)) = page :=
          pageBase_makeEntry aligned (by decide)
        have present : Present (makeEntry page (pgP + pgUsu + pgRww)) :=
          present_makeEntry.mpr (by decide)
        have sameTable : HasTable { state with man := rest } pid (pdeIndex lin) :=
          ⟨table.alive, table.index, table.present⟩
        have write := taken.write_table sameTable (pteIndex_lt lin) (makeEntry page (pgP + pgUsu + pgRww))
        have user : UserBit (makeEntry page (pgP + pgUsu + pgRww)) := by
          unfold UserBit makeEntry pgP pgUsu pgRww pageBase
          omega
        exact ⟨_, taken.map write rfl rfl spare base present user⟩

theorem sysMalloc4k_owned (held : Owned domain state live) {pid : Nat} (alive : state.cr3 pid ≠ 0)
    (done : state.sysMalloc4k pid = some next) : ∃ live, Owned domain next live := by
  have limits : ∀ p, (state.vmalloc pid 0x1000).1.heapLimit p < 4294967296 := by
    intro p
    by_cases same : p = pid
    · subst same
      simp only [PageState.vmalloc, Function.update_self, add32]
      omega
    · simp only [PageState.vmalloc, Function.update_of_ne same]
      exact held.limits p
  have grown : Owned domain (state.vmalloc pid 0x1000).1 live :=
    held.same (.of_mem rfl fun _ _ _ _ _ => rfl) rfl limits
  simp only [PageState.sysMalloc4k] at done
  split at done
  · simp only [PageState.linMappingPhy, Option.map_eq_some_iff, Option.bind_eq_bind,
      Option.bind_eq_some_iff] at done
    obtain ⟨result, ⟨⟨mid, table⟩, ensured, mapped⟩, rfl⟩ := done
    obtain ⟨_, midHeld, isTable⟩ := ensureTable_owned grown alive (held.limits pid) ensured
    cases table with
    | none =>
        cases mapped
        exact ⟨_, midHeld⟩
    | some table =>
        cases mapped
        obtain ⟨has, rfl⟩ := isTable table rfl
        exact mapPage_owned midHeld has
  · cases done
    exact ⟨live, grown⟩

theorem sysFree4k_owned (held : Owned domain state live) {pid lin : Nat}
    (heap : heapLinBase ≤ lin ∧ lin < heapLinLimitMax)
    (has : HasPage state pid (pdeIndex lin) (pteIndex lin))
    (done : state.sysFree4k pid lin = some next) : ∃ live, Owned domain next live := by
  have owner : Holds state (.page pid (pdeIndex lin) (pteIndex lin)) (state.pagePhyAddr pid lin) :=
    ⟨has, rfl⟩
  have aligned := owner.aligned
  have present : Present (state.pde pid lin) := has.present
  have notFailed : state.pagePhyAddr pid lin ≠ failed := by
    unfold failed
    omega
  simp only [PageState.sysFree4k, PageState.linMappingPhy, PageState.ensureTable, if_pos present,
    Option.bind_eq_bind, Option.bind_some, PageState.mapPage, if_neg notFailed] at done
  rw [if_neg (by omega)] at done
  have write := held.write_table has.toHasTable (pteIndex_lt lin)
    (makeEntry (state.pagePhyAddr pid lin) (pgUsu + pgRww))
  have hidden : ¬Present (makeEntry (state.pagePhyAddr pid lin) (pgUsu + pgRww)) := by
    rw [present_makeEntry]
    decide
  have notArg : pdeIndex lin ≠ 767 := by
    unfold pdeIndex heapLinBase heapLinLimitMax at *
    omega
  obtain ⟨midHeld, spares⟩ := held.unmap write rfl rfl (fun visible => hidden visible.1)
    fun isArg => absurd isArg notArg
  cases done
  exact ⟨_, midHeld.release (spares _ owner)⟩

/-! ## Runs -/

/-- What the creation of the processes leaves, on top of any run of the memory
manager: every page in use is a live block of one owner. -/
structure SetUp (table : List Nat) (garbage : Memman) (live : List FreeInfo) (state : PageState) :
    Prop where
  loader : LoaderTable table
  reached : (memSystem table garbage).Reachable ⟨state.man, live⟩
  live : ∀ owner page, Holds state owner page → memStart ≤ page ∧ ⟨page, 4096⟩ ∈ live
  unique : ∀ owner other page, Holds state owner page → Holds state other page → owner = other
  stack : ∀ pid, state.cr3 pid ≠ 0 → Present (state.dirWord pid 767)
  arg : ∀ pid, state.cr3 pid ≠ 0 → ArgWord (state.tableWord pid 767 1023)
  limits : ∀ pid, state.heapLimit pid < 4294967296

def pageSystem : Machine PageState PageAction where
  initial state := ∃ table garbage live, SetUp table garbage live state
  step := PageState.step

/-- A release is of a present page of the caller, and a fault is not on an entry
that lost its page, nor where there is no page table. -/
def Kept (state : PageState) : PageAction → Prop
  | .malloc _ => True
  | .free pid lin =>
      Present (state.pde pid lin) ∧ Present (state.pte pid lin) ∧ UserBit (state.pte pid lin)
  | .access pid lin _ =>
      Present (state.pde pid lin) ∧ (UserBit (state.pte pid lin) → Present (state.pte pid lin))

instance (state : PageState) (action : PageAction) : Decidable (Kept state action) :=
  match action with
  | .malloc _ => inferInstanceAs (Decidable True)
  | .free _ _ => inferInstanceAs (Decidable (_ ∧ _ ∧ _))
  | .access _ _ _ => inferInstanceAs (Decidable (_ ∧ (_ → _)))

/-- No frame of a present user entry is in the free list, and no two processes
have entries with the same frame. -/
structure FramesOwned (state : PageState) : Prop where
  outside : ∀ pid i j, HasPage state pid i j → ∀ entry ∈ state.man.entries,
    Apart entry ⟨pageBase (state.tableWord pid i j), 4096⟩
  alone : ∀ pid other i j k l, pid ≠ other → HasPage state pid i j → HasPage state other k l →
    pageBase (state.tableWord pid i j) ≠ pageBase (state.tableWord other k l)

theorem Owned.framesOwned (held : Owned domain state live) : FramesOwned state where
  outside pid i j page entry member := by
    have owner : Holds state (.page pid i j) (pageBase (state.tableWord pid i j)) := ⟨page, rfl⟩
    exact held.stock.booked.separate entry member _ (held.live _ _ owner).2
  alone pid other i j k l differ left right same := by
    have owner : Holds state (.page pid i j) (pageBase (state.tableWord pid i j)) := ⟨left, rfl⟩
    have second : Holds state (.page other k l) (pageBase (state.tableWord pid i j)) := ⟨right, same⟩
    cases held.unique _ _ _ owner second
    exact differ rfl

theorem SetUp.owned {table : List Nat} {garbage : Memman} (held : SetUp table garbage live state) :
    Owned (initialDomain (init table garbage).entries) state live :=
  ⟨memSystem_stock held.loader held.reached, held.live, held.unique, held.stack, held.arg, held.limits⟩

/-- Every kept step leaves the pages with their owners. -/
theorem step_owned {action : PageAction} (held : Owned domain state live) (kept : Kept state action)
    (moved : state.step action = some next) : ∃ live, Owned domain next live := by
  cases action with
  | malloc pid =>
      simp only [PageState.step] at moved
      split at moved
      next alive => exact sysMalloc4k_owned held alive moved
      next => cases moved
  | free pid lin =>
      simp only [PageState.step] at moved
      split at moved
      next allowed =>
          obtain ⟨alive, heap⟩ := allowed
          obtain ⟨table, mapped, user⟩ := kept
          have address : lin < 4294967296 := by
            unfold heapLinLimitMax at heap
            omega
          exact sysFree4k_owned held heap
            ⟨⟨alive, pdeIndex_lt address, table⟩, pteIndex_lt lin, mapped, user⟩ moved
      next => cases moved
  | access pid lin store =>
      simp only [PageState.step] at moved
      split at moved
      next allowed =>
          exact ⟨live, (pageFaultHandler_owned held allowed.1 allowed.2.1 kept.1 kept.2 moved).1⟩
      next => cases moved

/-- In every run all of whose releases and faults are kept, frames have one owner
and stay out of the free list. -/
theorem frames_owned (reached : pageSystem.ReachableWhen Kept state) : FramesOwned state := by
  have start : ∀ state, pageSystem.initial state → ∃ domain live, Owned domain state live := by
    rintro state ⟨table, garbage, live, setUp⟩
    exact ⟨_, live, setUp.owned⟩
  obtain ⟨domain, live, held⟩ := reached.invariant start fun state action next held kept moved => by
    obtain ⟨domain, live, held⟩ := held
    exact ⟨domain, step_owned held kept moved⟩
  exact held.framesOwned

/-- The manager after four pages were taken for the kernel. -/
def bootMan : Memman :=
  (memmanKalloc4k (memmanKalloc4k (memmanKalloc4k (memmanKalloc4k
    (init cleanTable clearedMemman)).1).1).1).1

/-- Two processes, each with a page directory and the page table of its stack. -/
def bootPages : PageState where
  man := bootMan
  mem addr :=
    if addr = 0x00400000 + 4 * 767 then makeEntry 0x00401000 7
    else if addr = 0x00402000 + 4 * 767 then makeEntry 0x00403000 7
    else 0
  cr3 pid := if pid = 0 then 0x00400000 else if pid = 1 then 0x00402000 else 0
  heapLimit _ := heapLinBase
  cr2Save := 0
  cr2Count := 0

private theorem bootPages_alive {pid : Nat} (alive : bootPages.cr3 pid ≠ 0) : pid = 0 ∨ pid = 1 := by
  by_contra neither
  simp only [not_or] at neither
  exact alive (by simp [bootPages, neither])

private theorem bootPages_holds {owner : Owner} {page : Nat} (held : Holds bootPages owner page) :
    (owner, page) ∈ [(Owner.dir 0, 0x00400000), (.table 0 767, 0x00401000), (.dir 1, 0x00402000),
      (.table 1 767, 0x00403000)] := by
  have zero : ∀ addr, addr ≠ 0x00400000 + 4 * 767 → addr ≠ 0x00402000 + 4 * 767 →
      ¬Present (bootPages.mem addr) := by
    intro addr notFirst notSecond
    simp [bootPages, notFirst, notSecond, Present]
  have table : ∀ {pid i}, HasTable bootPages pid i → (pid = 0 ∨ pid = 1) ∧ i = 767 := by
    intro pid i has
    have index := has.index
    refine ⟨bootPages_alive has.alive, ?_⟩
    by_contra other
    rcases bootPages_alive has.alive with rfl | rfl
    · exact zero (0x00400000 + 4 * i) (by omega) (by omega) has.present
    · exact zero (0x00402000 + 4 * i) (by omega) (by omega) has.present
  cases owner with
  | dir pid =>
      obtain ⟨alive, rfl⟩ := held
      rcases bootPages_alive alive with rfl | rfl <;> decide
  | table pid i =>
      obtain ⟨has, rfl⟩ := held
      obtain ⟨rfl | rfl, rfl⟩ := table has <;> decide
  | page pid i j =>
      have has := held.1
      have entry := has.entry
      have mapped := has.mapped
      obtain ⟨rfl | rfl, rfl⟩ := table has.toHasTable
      · exact absurd mapped (zero (0x00401000 + 4 * j) (by omega) (by omega))
      · exact absurd mapped (zero (0x00403000 + 4 * j) (by omega) (by omega))

theorem bootPages_setUp : pageSystem.initial bootPages := by
  refine ⟨cleanTable, clearedMemman,
    [⟨0x00403000, 4096⟩, ⟨0x00402000, 4096⟩, ⟨0x00401000, 4096⟩, ⟨0x00400000, 4096⟩],
    ⟨by decide, by decide, by decide, by decide⟩, ?_, ?_, ?_, ?_, ?_, ?_⟩
  · have ran : (memSystem cleanTable clearedMemman).run (initialMem cleanTable clearedMemman)
        [.kalloc4k, .kalloc4k, .kalloc4k, .kalloc4k] = some ⟨bootPages.man,
          [⟨0x00403000, 4096⟩, ⟨0x00402000, 4096⟩, ⟨0x00401000, 4096⟩, ⟨0x00400000, 4096⟩]⟩ := rfl
    have start : (memSystem cleanTable clearedMemman).Reachable _ := .initial rfl
    exact start.of_run ran
  · intro owner page held
    have member := bootPages_holds held
    simp only [List.mem_cons, Prod.mk.injEq, List.not_mem_nil, or_false] at member
    rcases member with ⟨_, rfl⟩ | ⟨_, rfl⟩ | ⟨_, rfl⟩ | ⟨_, rfl⟩ <;> decide
  · intro owner other page left right
    have one := bootPages_holds left
    have two := bootPages_holds right
    simp only [List.mem_cons, Prod.mk.injEq, List.not_mem_nil, or_false] at one two
    rcases one with ⟨rfl, rfl⟩ | ⟨rfl, rfl⟩ | ⟨rfl, rfl⟩ | ⟨rfl, rfl⟩ <;>
      rcases two with ⟨rfl, same⟩ | ⟨rfl, same⟩ | ⟨rfl, same⟩ | ⟨rfl, same⟩ <;> first | rfl | cases same
  · intro pid alive
    rcases bootPages_alive alive with rfl | rfl <;> decide
  · intro pid alive
    rcases bootPages_alive alive with rfl | rfl <;> decide
  · exact fun _ => (by decide : heapLinBase < 4294967296)

/-- Both processes get a page each, one of them touches the page above its stack
and gives its page back. -/
theorem frames_owned_boot :
    ∃ state, pageSystem.run bootPages
        [.malloc 0, .malloc 1, .access 0 0xBFFFF000 true, .free 0 0x48000000] = some state ∧
      HasPage state 1 288 0 ∧ pageBase (state.tableWord 1 288 0) = 0x01001000 ∧
      FramesOwned state := by
  have ran : pageSystem.run bootPages
      [.malloc 0, .malloc 1, .access 0 0xBFFFF000 true, .free 0 0x48000000] = some _ := rfl
  have start : pageSystem.ReachableWhen Kept bootPages := .initial bootPages_setUp
  refine ⟨_, ran, ⟨⟨by decide, by decide, by decide⟩, by decide, by decide, by decide⟩, by decide, ?_⟩
  refine frames_owned (start.of_run ran ?_)
  exact ⟨trivial, trivial, by decide, by decide, trivial⟩

/-- A page that was given back is touched: it is present again, and free. -/
theorem freed_page_touched :
    ¬∀ state, pageSystem.Reachable state → FramesOwned state := by
  intro claim
  have touched : ∃ state, pageSystem.run bootPages
        [.malloc 0, .free 0 0x48000000, .access 0 0x48000000 false] = some state ∧
      HasPage state 0 288 0 ∧ pageBase (state.tableWord 0 288 0) = 0x01000000 ∧
      state.man.entries = [⟨0x00405000, 0x001FA000⟩, ⟨0x00600000, 0x001FF000⟩,
        ⟨0x00800000, 0x007FF000⟩, ⟨0x01000000, 0x01000000⟩] :=
    ⟨_, rfl, ⟨⟨by decide, by decide, by decide⟩, by decide, by decide, by decide⟩, by decide, by decide +kernel⟩
  obtain ⟨state, ran, page, frame, entries⟩ := touched
  have start : pageSystem.Reachable bootPages := .initial bootPages_setUp
  have outside := (claim state (start.of_run ran)).outside 0 288 0 page ⟨0x01000000, 0x01000000⟩
  rw [frame, entries] at outside
  simp [Apart, stop] at outside

end AempOS.Memory
