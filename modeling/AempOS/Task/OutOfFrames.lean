import AempOS.Task.MallocProperties

/-! What the calls do when there is no frame left. `lin_mapping_phy` and
`init_page_pte` clear the table or the directory before they look at its address, and
the address of failure is the last byte below the kernel: this clears the last byte of
that page of the caller and the first page of physical memory. -/

set_option autoImplicit false

namespace AempOS.Memory

open Lib

variable {state mid next : PageState} {dirs : List Nat} {current lin phy pid pdeAttr pteAttr : Nat}

/-- The page that the kernel enters by its last byte below `KernelLinBase`. -/
def lastPage : Nat := kernelLinBase - 1

/-- There is nothing to clear: the last page below the kernel is there, its last byte
is zero, and so is all of the first page of physical memory but its last byte. -/
structure Quiet (state : PageState) (current : Nat) : Prop where
  directory : Present (state.pde current lastPage)
  table : Present (state.pte current lastPage)
  last : state.mem (state.pagePhyAddr current lastPage + 0xFFC) < 16777216
  low : ∀ addr < 0xFFC, addr % 4 = 0 → state.mem addr = 0
  lowLast : state.mem 0xFFC % 16777216 = 0

/-- Memory is as it was, with the variables of the kernel. -/
structure Unchanged (state next : PageState) : Prop where
  man : next.man = state.man
  cr3 : next.cr3 = state.cr3
  heapLimit : next.heapLimit = state.heapLimit
  cr2Save : next.cr2Save = state.cr2Save
  cr2Count : next.cr2Count = state.cr2Count
  words : ∀ addr, addr % 4 = 0 → next.mem addr = state.mem addr

theorem Unchanged.refl (state : PageState) : Unchanged state state := ⟨rfl, rfl, rfl, rfl, rfl, fun _ _ => rfl⟩

/-! ## Clearing what is not there -/

/-- A fault is noted down: the address is saved, and the counter of an address that is
saved already grows. -/
def Noted (state next : PageState) (cr2 : Nat) : Prop :=
  next.cr2Save = cr2 ∧ (state.cr2Save = cr2 → state.cr2Count < next.cr2Count)

theorem pageFaultHandler_noted (handled : state.pageFaultHandler pid lin = some next) :
    Noted state next lin ∧ next.man = state.man ∧ next.cr3 = state.cr3 := by
  have count : state.cr2Save = lin → state.cr2Count < if lin = state.cr2Save then state.cr2Count + 1 else 0 := by
    intro same
    rw [if_pos same.symm]
    omega
  simp only [PageState.pageFaultHandler] at handled
  generalize (if lin = state.cr2Save then state.cr2Count + 1 else 0) = counted at handled count
  split at handled
  · cases handled
  · split at handled <;> cases handled <;> exact ⟨⟨rfl, count⟩, rfl, rfl⟩

/-- An access without a fault leaves everything as it is, and a fault is noted down. -/
theorem kernelAccess_cases {faults : Nat} (accessed : state.kernelAccess pid lin faults = some next) :
    next.man = state.man ∧ next.cr3 = state.cr3 ∧ ((Present (state.pde pid lin) ∧ Present (state.pte pid lin)) ∧ next = state ∨
      Noted state next lin) := by
  induction faults generalizing state with
  | zero => cases accessed
  | succ faults ih =>
      simp only [PageState.kernelAccess] at accessed
      split at accessed
      next both =>
          cases accessed
          exact ⟨rfl, rfl, .inl ⟨both, rfl⟩⟩
      next =>
          obtain ⟨faulted, handled, rest⟩ := Option.bind_eq_some_iff.mp accessed
          obtain ⟨⟨saved, counted⟩, man, cr3⟩ := pageFaultHandler_noted handled
          obtain ⟨manRest, cr3Rest, ⟨_, rfl⟩ | ⟨savedRest, countedRest⟩⟩ := ih rest
          · exact ⟨man, cr3, .inr ⟨saved, counted⟩⟩
          · refine ⟨manRest.trans man, cr3Rest.trans cr3, .inr ⟨savedRest, fun same => ?_⟩⟩
            exact Nat.lt_trans (counted same) (countedRest saved)

theorem clearMinusOne_keeps (cleared : state.clearMinusOne current = some next) :
    next.man = state.man ∧ next.cr3 = state.cr3 := by
  obtain ⟨mid, accessed, rfl⟩ := Option.map_eq_some_iff.mp cleared
  obtain ⟨man, cr3, _⟩ := kernelAccess_cases accessed
  exact ⟨man, cr3⟩

theorem clearLast_mem (page addr : Nat) :
    (state.clearLast page).mem addr = if addr = page + 0xFFC then state.mem (page + 0xFFC) % 16777216 else state.mem addr :=
  Function.update_apply ..

/-- The words that are left by clearing the last byte of a page and the first page. -/
theorem clearLow_mem (addr : Nat) :
    state.clearLow.mem addr =
      if addr < 0xFFC then 0
      else if addr = 0xFFC then state.mem addr / 16777216 * 16777216
      else state.mem addr := rfl

/-- Clearing changes nothing exactly where there is nothing to clear. -/
theorem clearMinusOne_unchanged :
    (∃ next, state.clearMinusOne current = some next ∧ Unchanged state next) ↔ Quiet state current := by
  have aligned : state.pagePhyAddr current lastPage % 4096 = 0 := pageBase_mod _
  constructor
  · rintro ⟨next, cleared, same⟩
    obtain ⟨mid, accessed, rfl⟩ := Option.map_eq_some_iff.mp cleared
    rcases (kernelAccess_cases accessed).2.2 with ⟨both, rfl⟩ | ⟨saved, counted⟩
    · change Unchanged mid ((mid.clearLast (mid.pagePhyAddr current lastPage)).clearLow) at same
      have words : ∀ addr, addr % 4 = 0 →
          ((mid.clearLast (mid.pagePhyAddr current lastPage)).clearLow).mem addr = mid.mem addr := same.words
      refine ⟨both.1, both.2, ?_, fun addr below wordAligned => ?_, ?_⟩
      · have word := words (mid.pagePhyAddr current lastPage + 0xFFC) (by omega)
        rw [clearLow_mem, clearLast_mem, if_neg (by omega), if_pos rfl] at word
        split at word <;> omega
      · have word := words addr wordAligned
        rw [clearLow_mem, if_pos below] at word
        exact word.symm
      · have word := words 0xFFC (by decide)
        rw [clearLow_mem, clearLast_mem, if_neg (by decide), if_pos rfl] at word
        split at word <;> omega
    · have before : state.cr2Save = lastPage := same.cr2Save.symm.trans saved
      have grown := counted before
      have count := same.cr2Count
      exact absurd count (Nat.ne_of_gt grown)
  · intro quiet
    have accessed : state.kernelAccess current lastPage 3 = some state := if_pos ⟨quiet.directory, quiet.table⟩
    refine ⟨(state.clearLast (state.pagePhyAddr current lastPage)).clearLow, ?_, rfl, rfl, rfl, rfl, rfl,
      fun addr wordAligned => ?_⟩
    · exact congrArg _ accessed
    · have last := quiet.last
      have lowLast := quiet.lowLast
      have low := quiet.low addr
      rw [clearLow_mem, clearLast_mem]
      split
      next below => exact (low below wordAligned).symm
      next =>
          split
          next isLow =>
              rw [← isLow] at lowLast
              split
              next isLast =>
                  rw [← isLast] at last ⊢
                  omega
              next => omega
          next =>
              split
              next isLast =>
                  rw [← isLast] at last ⊢
                  exact Nat.mod_eq_of_lt last
              next => rfl

/-! ## `lin_mapping_phy` -/

/-- There is no page for a table that is missing. -/
def FailsAtTable (state : PageState) (pid lin : Nat) : Prop :=
  ¬Present (state.pde pid lin) ∧ (memmanKalloc4k state.man).2 = failed

/-- There is no frame for a page that is missing, behind a table that is there by then. -/
def FailsAtFrame (state : PageState) (current lin phy pid pdeAttr : Nat) : Prop :=
  phy = failed ∧ ∃ mid table, state.ensureTable current lin pid pdeAttr = some (mid, some table) ∧
    ¬Present (mid.mem (table + 4 * pteIndex lin)) ∧ (mid.takeFrame lin).2 = failed

/-- A new table of zeros, entered in the directory. -/
def withTable (state : PageState) (pid lin attr : Nat) : PageState :=
  let result := memmanKalloc4k state.man
  (PageState.clearPage { state with man := result.1 } result.2).write (state.pdePhyAddr pid + 4 * pdeIndex lin)
    (makeEntry result.2 attr)

/-- Memory is as it was, but for a new table of zeros at most. -/
def Harmless (state : PageState) (pid lin attr : Nat) (next : PageState) : Prop :=
  Unchanged state next ∨ (memmanKalloc4k state.man).2 ≠ failed ∧ Unchanged (withTable state pid lin attr) next

theorem alloc4k_failed {pool : Pool} {man : Memman} (trusted : Trusted man) (isFailed : (alloc4k pool man).2 = failed) :
    (alloc4k pool man).1 = man := by
  rcases trusted 1 pool with same | ⟨fresh, _⟩
  · rw [same]
  · exact absurd isFailed fresh.notFailed

/-- The table is there, or it is new. -/
theorem ensureTable_some {table : Nat} (trusted : Trusted state.man)
    (ensured : state.ensureTable current lin pid pdeAttr = some (mid, some table)) :
    Trusted mid.man ∧ (mid = state ∨ (memmanKalloc4k state.man).2 ≠ failed ∧ mid = withTable state pid lin pdeAttr) := by
  unfold PageState.ensureTable at ensured
  split at ensured
  next =>
      cases ensured
      exact ⟨trusted, .inl rfl⟩
  next =>
      simp only at ensured
      split at ensured
      next =>
          obtain ⟨cleared, _, isNext⟩ := Option.map_eq_some_iff.mp ensured
          cases isNext
      next notFailed =>
          split at ensured
          next => cases ensured
          next =>
              cases ensured
              exact ⟨(trusted.alloc .kernel notFailed).2, .inr ⟨notFailed, rfl⟩⟩

/-- A call without a frame returns `-1`, and it is harmless unless the table is missing
and there is something to clear. -/
theorem linMappingPhy_harmless (trusted : Trusted state.man)
    (fails : FailsAtTable state pid lin ∨ FailsAtFrame state current lin phy pid pdeAttr) :
    (∃ next, state.linMappingPhy current lin phy pid pdeAttr pteAttr = some (next, -1) ∧
      Harmless state pid lin pdeAttr next) ↔ (FailsAtTable state pid lin → Quiet state current) := by
  by_cases atTable : FailsAtTable state pid lin
  · obtain ⟨absent, isFailed⟩ := atTable
    have atPool : (alloc4k .kernel state.man).2 = failed := isFailed
    have man : (memmanKalloc4k state.man).1 = state.man := alloc4k_failed trusted atPool
    have call : state.linMappingPhy current lin phy pid pdeAttr pteAttr =
        (state.clearMinusOne current).map fun next => (next, -1) := by
      simp only [PageState.linMappingPhy, PageState.ensureTable, if_neg absent, if_pos isFailed, man]
      cases state.clearMinusOne current <;> rfl
    rw [call]
    constructor
    · rintro ⟨next, done, harmless⟩ -
      obtain ⟨cleared, isCleared, isNext⟩ := Option.map_eq_some_iff.mp done
      obtain ⟨rfl, _⟩ := Prod.mk.inj isNext
      rcases harmless with same | ⟨notFailed, _⟩
      · exact clearMinusOne_unchanged.mp ⟨cleared, isCleared, same⟩
      · exact absurd isFailed notFailed
    · intro quiet
      obtain ⟨next, cleared, same⟩ := clearMinusOne_unchanged.mpr (quiet ⟨absent, isFailed⟩)
      exact ⟨next, by rw [cleared]; rfl, .inl same⟩
  · refine iff_of_true ?_ fun wrong => absurd wrong atTable
    obtain wrong | ⟨rfl, mid, table, ensured, absent, isFailed⟩ := fails
    · exact absurd wrong atTable
    · obtain ⟨midTrusted, harmless⟩ := ensureTable_some trusted ensured
      have man : (mid.takeFrame lin).1 = mid.man := by
        obtain ⟨pool, isPool⟩ := takeFrame_pool mid lin
        rw [isPool] at isFailed ⊢
        exact alloc4k_failed midTrusted isFailed
      have placed : mid.mapPage lin failed table pteAttr = (mid, -1) := by
        simp only [PageState.mapPage, if_true, if_neg absent, isFailed, man]
        rfl
      refine ⟨mid, ?_, ?_⟩
      · simp only [PageState.linMappingPhy, ensured, Option.bind_eq_bind, Option.bind_some, placed]
        rfl
      · rcases harmless with rfl | ⟨notFailed, rfl⟩
        · exact .inl (.refl _)
        · exact .inr ⟨notFailed, .refl _⟩

/-! ## `init_page_pte` -/

theorem ensureTable_cr3 {table : Option Nat} (ensured : state.ensureTable current lin pid pdeAttr = some (next, table)) :
    next.cr3 = state.cr3 := by
  unfold PageState.ensureTable at ensured
  split at ensured
  next =>
      cases ensured
      rfl
  next =>
      simp only at ensured
      split at ensured
      next =>
          obtain ⟨cleared, isCleared, isNext⟩ := Option.map_eq_some_iff.mp ensured
          obtain ⟨rfl, _⟩ := Prod.mk.inj isNext
          exact (clearMinusOne_keeps isCleared).2
      next =>
          split at ensured <;> cases ensured <;> rfl

theorem mapPage_cr3 (state : PageState) (table : Nat) : (state.mapPage lin phy table pteAttr).1.cr3 = state.cr3 := by
  unfold PageState.mapPage
  split
  · split
    · rfl
    · simp only
      split <;> rfl
  · split <;> rfl

theorem linMappingPhy_cr3 {result : Int}
    (done : state.linMappingPhy current lin phy pid pdeAttr pteAttr = some (next, result)) : next.cr3 = state.cr3 := by
  obtain ⟨⟨mid, table⟩, ensured, rest⟩ := Option.bind_eq_some_iff.mp done
  have same := ensureTable_cr3 ensured
  cases table with
  | none =>
      cases rest
      exact same
  | some table =>
      have isNext := Option.some.inj rest
      rw [← same, ← mapPage_cr3 mid table, isNext]

theorem mapKernel_cr3 {n count : Nat} {result : Int}
    (done : state.mapKernel current pid n count = some (next, result)) : next.cr3 = state.cr3 := by
  induction count generalizing state n with
  | zero =>
      cases done
      rfl
  | succ count ih =>
      obtain ⟨⟨mid, code⟩, mapped, rest⟩ := Option.bind_eq_some_iff.mp done
      have same := linMappingPhy_cr3 mapped
      simp only at rest
      split at rest
      next =>
          cases rest
          exact same
      next => exact (ih rest).trans same

/-- Memory outside the frames that a call took is as it was, with the fields of the PCBs
and the variables of the kernel. -/
structure UnchangedOutside (state next : PageState) : Prop where
  cr3 : next.cr3 = state.cr3
  heapLimit : next.heapLimit = state.heapLimit
  cr2Save : next.cr2Save = state.cr2Save
  cr2Count : next.cr2Count = state.cr2Count
  words : ∀ addr, addr % 4 = 0 → ¬(FreePage state.man (pageBase addr) ∧ ¬FreePage next.man (pageBase addr)) →
    next.mem addr = state.mem addr

/-- `init_page_pte` that returns `-1` is harmless exactly when there is no directory and
nothing to clear: once it has a directory it has entered it in the PCB. -/
theorem initPagePte_harmless (held : Tables state dirs) (trusted : Trusted state.man) :
    (∃ next, state.initPagePte current pid = some (next, -1) ∧ UnchangedOutside state next) ↔
      (memmanKalloc4k state.man).2 = failed ∧ Quiet state current := by
  by_cases isFailed : (memmanKalloc4k state.man).2 = failed
  · have atPool : (alloc4k .kernel state.man).2 = failed := isFailed
    have man : (memmanKalloc4k state.man).1 = state.man := alloc4k_failed trusted atPool
    have call : state.initPagePte current pid = (state.clearMinusOne current).map fun next => (next, -1) := by
      simp only [PageState.initPagePte, if_pos isFailed, man]
    rw [call, and_iff_right isFailed, ← clearMinusOne_unchanged]
    constructor
    · rintro ⟨next, done, same⟩
      obtain ⟨cleared, isCleared, isNext⟩ := Option.map_eq_some_iff.mp done
      obtain ⟨rfl, _⟩ := Prod.mk.inj isNext
      have kept := (clearMinusOne_keeps isCleared).1
      refine ⟨cleared, isCleared, kept, same.cr3, same.heapLimit, same.cr2Save, same.cr2Count, fun addr aligned => ?_⟩
      refine same.words addr aligned fun taken => taken.2 ?_
      rw [kept]
      exact taken.1
    · rintro ⟨next, cleared, same⟩
      refine ⟨next, by rw [cleared]; rfl, same.cr3, same.heapLimit, same.cr2Save, same.cr2Count, ?_⟩
      exact fun addr aligned _ => same.words addr aligned
  · refine iff_of_false ?_ fun both => isFailed both.1
    rintro ⟨next, done, same⟩
    have served : (alloc4k .kernel state.man).2 ≠ failed := isFailed
    have fresh := (trusted.alloc .kernel served).1
    have low := alloc4k_low served
    have aligned := fresh.aligned
    have entered : next.cr3 pid = (alloc4k .kernel state.man).2 := by
      have aligned : (memmanKalloc4k state.man).2 % 4096 = 0 := aligned
      simp only [PageState.initPagePte, if_neg isFailed] at done
      rw [if_neg (by omega)] at done
      rw [mapKernel_cr3 done]
      exact Function.update_self ..
    rw [same.cr3] at entered
    have alive : state.cr3 pid ≠ 0 := by
      rw [entered]
      unfold memStart at low
      omega
    exact held.used _ (held.cr3 pid alive) (entered ▸ fresh.free)

end AempOS.Memory

namespace AempOS.Task

open Lib Memory

variable {layout : Layout} {kernel next : Kernel} {dirs : List Nat} {proc size : Nat}

/-! ## `sys_malloc` -/

/-- The value of a pointer that says that there is no memory. -/
def ReportsFailure (addr : Nat) : Prop := addr = 0 ∨ addr = failed

/-- The call returns the old end of the heap, whatever became of the pages. -/
theorem sysMallocAnyway_addr {addr : Nat} (done : kernel.sysMallocAnyway layout proc size = some (next, addr)) :
    ∃ owner, kernel.heapOwner layout proc = some owner ∧ addr = (kernel.memmap owner).heapLinLimit := by
  obtain ⟨⟨reserved, start⟩, isReserved, rest⟩ := Option.bind_eq_some_iff.mp done
  obtain ⟨owner, isOwner, both⟩ := Option.map_eq_some_iff.mp isReserved
  obtain ⟨_, rfl⟩ := Prod.mk.inj both
  obtain ⟨final, _, isNext⟩ := Option.bind_eq_some_iff.mp rest
  obtain ⟨_, rfl⟩ := Prod.mk.inj (Option.some.inj isNext)
  exact ⟨owner, isOwner, rfl⟩

/-- Where every page gets a frame the results do not matter. -/
theorem sysMalloc_anyway {result : Kernel × Nat} (done : kernel.sysMalloc layout proc size = some result) :
    kernel.sysMallocAnyway layout proc size = some result := by
  have loop : ∀ (addrs : List Nat) (state final : PageState),
      addrs.foldlM (mapUser proc proc) state = some final →
        addrs.foldlM (fun state lin =>
          (state.linMappingPhy proc lin failed proc (pgP + pgUsu + pgRww) (pgP + pgUsu + pgRww)).map Prod.fst)
          state = some final := by
    intro addrs
    induction addrs with
    | nil => exact fun _ _ ran => ran
    | cons addr rest ih =>
        intro state final ran
        simp only [List.foldlM_cons, Option.bind_eq_bind, Option.bind_eq_some_iff] at ran ⊢
        obtain ⟨mid, moved, ran⟩ := ran
        exact ⟨mid, by rw [mapOk_eq moved]; rfl, ih mid final ran⟩
  obtain ⟨⟨reserved, start⟩, isReserved, rest⟩ := Option.bind_eq_some_iff.mp done
  obtain ⟨final, mapped, isResult⟩ := Option.bind_eq_some_iff.mp rest
  obtain ⟨addrs, visited, ran⟩ := Option.bind_eq_some_iff.mp mapped
  have anyway := loop addrs _ _ ran
  simp only [Kernel.sysMallocAnyway, isReserved, PageState.overArea, visited, Option.bind_eq_bind, Option.bind_some,
    anyway]
  exact isResult

/-- Without frames `lin_mapping_phy` is harmless unless a table is missing and there is
something to clear, `init_page_pte` only when it does not even get a directory and there
is nothing to clear, and `sys_malloc` never tells. -/
theorem out_of_frames_iff (held : Tables kernel.pages dirs) (trusted : Trusted kernel.man) :
    (∀ lin phy pid pdeAttr pteAttr,
      FailsAtTable kernel.pages pid lin ∨ FailsAtFrame kernel.pages proc lin phy pid pdeAttr →
      ((∃ next, kernel.pages.linMappingPhy proc lin phy pid pdeAttr pteAttr = some (next, -1) ∧
        Harmless kernel.pages pid lin pdeAttr next) ↔
        (FailsAtTable kernel.pages pid lin → Quiet kernel.pages proc))) ∧
    (∀ pid, (∃ next, kernel.pages.initPagePte proc pid = some (next, -1) ∧ UnchangedOutside kernel.pages next) ↔
      (memmanKalloc4k kernel.man).2 = failed ∧ Quiet kernel.pages proc) ∧
    ∀ layout size owner, kernel.heapOwner layout proc = some owner →
      heapLinBase ≤ (kernel.memmap owner).heapLinLimit → (kernel.memmap owner).heapLinLimit ≤ heapLinLimitMax →
      ∀ next addr, kernel.sysMallocAnyway layout proc size = some (next, addr) →
        addr = (kernel.memmap owner).heapLinLimit ∧ ¬ReportsFailure addr := by
  refine ⟨fun _ _ _ _ _ fails => linMappingPhy_harmless trusted fails, fun _ => initPagePte_harmless held trusted,
    fun layout size owner isOwner low high next addr done => ?_⟩
  obtain ⟨other, isOther, rfl⟩ := sysMallocAnyway_addr done
  obtain rfl : owner = other := Option.some.inj (isOwner.symm.trans isOther)
  refine ⟨rfl, ?_⟩
  unfold ReportsFailure failed
  unfold heapLinBase at low
  unfold heapLinLimitMax at high
  omega

/-! ## A kernel without frames -/

/-- The interrupt vectors at 0, and a process with the pages of the kernel and the last
page of its stack. -/
def starved : Kernel where
  tasks := loneTasks
  man := clearedMemman
  mem addr :=
    if addr = 0 then 0xF000E2C3
    else if addr = 0x00400000 + 4 * 767 then 0x00403007
    else if addr = 0x00403000 + 4 * 1023 then 0x00404007
    else if addr = 0x00400000 + 4 * 768 then 0x00401007
    else if addr = 0x00400000 + 4 * 769 then 0x00402007
    else if 0x00401000 ≤ addr ∧ addr < 0x00403000 then (addr - 0x00401000) / 4 * 4096 + 3
    else 0
  cr2Save := 0
  cr2Count := 0

theorem starved_word {i : Nat} (inside : i < 1024) :
    starved.pages.word 0x00400000 i =
      if i = 767 then 0x00403007 else if i = 768 then 0x00401007 else if i = 769 then 0x00402007 else 0 := by
  change starved.mem (0x00400000 + 4 * i) = _
  unfold starved
  generalize isAddr : 0x00400000 + 4 * i = addr
  have sum : addr = 4194304 + 4 * i := isAddr.symm
  by_cases user : i = 767
  · subst user
    subst sum
    rfl
  · by_cases first : i = 768
    · subst first
      subst sum
      rfl
    · by_cases second : i = 769
      · subst second
        subst sum
        rfl
      · simp only [if_neg user, if_neg first, if_neg second]
        rw [if_neg (by omega), if_neg (by omega), if_neg (by omega), if_neg (by omega), if_neg (by omega),
          if_neg (by omega)]

theorem starved_points {i table : Nat} (points : PointsTo starved.pages 0x00400000 i table) :
    i = 767 ∧ table = 0x00403000 ∨ i = 768 ∧ table = 0x00401000 ∨ i = 769 ∧ table = 0x00402000 := by
  obtain ⟨index, present, base⟩ := points
  rw [starved_word index] at present base
  split at present
  next same => exact .inl ⟨same, by rw [← base, if_pos same]; rfl⟩
  next notUser =>
      rw [if_neg notUser] at base
      split at present
      next same => exact .inr (.inl ⟨same, by rw [← base, if_pos same]; rfl⟩)
      next notFirst =>
          rw [if_neg notFirst] at base
          split at present
          next same => exact .inr (.inr ⟨same, by rw [← base, if_pos same]; rfl⟩)
          next => exact absurd present (by decide)

theorem starved_tables : Tables starved.pages [0x00400000] where
  low := by decide
  aligned := by decide
  used _ _ free := by
    obtain ⟨entry, member, _⟩ := free
    cases member
  cr3 := loneTasks_cr3
  outside dir member i table points inDirs := by
    obtain rfl := List.mem_singleton.mp member
    obtain rfl := List.mem_singleton.mp inDirs
    have cases := starved_points points
    omega
  held _ _ _ _ _ _ free := by
    obtain ⟨entry, member, _⟩ := free
    cases member
  unique dir member other otherMember i j table _ left right := by
    obtain rfl := List.mem_singleton.mp member
    obtain rfl := List.mem_singleton.mp otherMember
    have leftCases := starved_points left
    have rightCases := starved_points right
    omega

theorem starved_trusted : Trusted starved.man := by
  intro n
  cases n with
  | zero => trivial
  | succ n =>
      intro pool
      cases pool with
      | kernel => exact .inl rfl
      | user => exact .inl rfl

theorem out_of_frames_iff_starved :
    ((∃ next, starved.pages.linMappingPhy 1 heapLinBase failed 1 7 7 = some (next, -1) ∧
        Harmless starved.pages 1 heapLinBase 7 next) ↔ Quiet starved.pages 1) ∧
      ((∃ next, starved.pages.initPagePte 1 16 = some (next, -1) ∧ UnchangedOutside starved.pages next) ↔
        Quiet starved.pages 1) ∧
      ∃ next, starved.sysMallocAnyway lowLayout 1 4 = some (next, heapLinBase) ∧ ¬ReportsFailure heapLinBase := by
  have fails : FailsAtTable starved.pages 1 heapLinBase := ⟨by decide, rfl⟩
  obtain ⟨mapping, space, malloc⟩ := @out_of_frames_iff starved [0x00400000] 1 starved_tables starved_trusted
  have returned : starved.sysMallocAnyway lowLayout 1 4 = some (_, heapLinBase) := rfl
  refine ⟨(mapping heapLinBase failed 1 7 7 (.inl fails)).trans ⟨fun quiet => quiet fails, fun quiet _ => quiet⟩,
    (space 16).trans (and_iff_right rfl), _, returned, ?_⟩
  exact (malloc lowLayout 4 1 rfl (Nat.le_refl _) (by decide) _ heapLinBase returned).2

/-- The interrupt vectors are cleared, and `sys_malloc` returns an address without a
page. -/
theorem out_of_frames_harm :
    FailsAtTable starved.pages 1 heapLinBase ∧
      (∃ next, starved.pages.linMappingPhy 1 heapLinBase failed 1 7 7 = some (next, -1) ∧
        next.mem 0 ≠ starved.pages.mem 0) ∧
      (∃ next, starved.pages.initPagePte 1 16 = some (next, -1) ∧ next.mem 0 ≠ starved.pages.mem 0) ∧
      ∃ next, starved.sysMallocAnyway lowLayout 1 4 = some (next, heapLinBase) ∧
        ¬next.pages.Allowed 1 heapLinBase true := by
  refine ⟨⟨by decide, rfl⟩, ⟨_, rfl, by decide⟩, ⟨_, rfl, by decide⟩, _, rfl, by decide⟩

end AempOS.Task
