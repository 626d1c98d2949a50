import AempOS.Task.KernelPages
import AempOS.Memory.UserPages

/-! The memory that `sys_malloc` returns. The loop goes from the old end of the heap in
steps of a word and compares as `int`. It never ends for some regions just below
`0x80000000`, does not run for one that reaches `0x80000000` from below, and can miss
the page of the last bytes when the region starts off a word. A page that is there
stays as it is. -/

set_option autoImplicit false

namespace AempOS.Task

open Lib Memory

variable {layout : Layout} {kernel next : Kernel} {dirs : List Nat} {proc owner size base limit lin : Nat}

/-! ## The words of a region -/

/-- The word after the last one of the region is negative as an `int`. -/
def Wraps (base limit : Nat) : Prop := 0x7FFFFFFC + base % 4 < limit ∧ limit < 0x80000000

/-- The loop visits a word on the page of an address of the region. -/
def Reaches (base limit lin : Nat) : Prop :=
  (base < 0x80000000 → limit < 0x80000000) ∧ (pageBase lin ≤ base ∨ pageBase lin + base % 4 < limit)

instance (base limit : Nat) : Decidable (Wraps base limit) := inferInstanceAs (Decidable (_ ∧ _))
instance (base limit lin : Nat) : Decidable (Reaches base limit lin) := inferInstanceAs (Decidable (_ ∧ _))

/-- The addresses that the loop visits. -/
def Visits (base limit lin : Nat) : Prop :=
  (base < 0x80000000 → limit < 0x80000000) ∧ base ≤ lin ∧ lin < limit ∧ lin % 4 = base % 4

theorem reaches_iff (above : base ≤ lin) (below : lin < limit) :
    Reaches base limit lin ↔ ∃ word, Visits base limit word ∧ lin / 4096 = word / 4096 := by
  unfold Reaches Visits pageBase
  constructor
  · rintro ⟨sameSide, early | late⟩
    · exact ⟨base, ⟨sameSide, Nat.le_refl _, by omega, rfl⟩, by omega⟩
    · by_cases early : lin / 4096 * 4096 ≤ base
      · exact ⟨base, ⟨sameSide, Nat.le_refl _, by omega, rfl⟩, by omega⟩
      · exact ⟨lin / 4096 * 4096 + base % 4, ⟨sameSide, by omega, late, by omega⟩, by omega⟩
  · rintro ⟨word, ⟨sameSide, wordAbove, wordBelow, aligned⟩, samePage⟩
    refine ⟨sameSide, ?_⟩
    omega

/-- Every word of the loop is followed by one that is below the end too. -/
theorem wordsBelow_endless (wraps : Wraps base limit) {fuel addr : Nat} (small : addr < 4294967296)
    (aligned : addr % 4 = base % 4) (below : PageState.asInt addr < PageState.asInt limit) :
    Kernel.wordsBelow limit fuel addr = none := by
  obtain ⟨late, positive⟩ := wraps
  induction fuel generalizing addr with
  | zero => rfl
  | succ fuel ih =>
      have following : PageState.asInt (add32 addr 4) < PageState.asInt limit := by
        unfold PageState.asInt add32 at *
        split at below <;> split <;> omega
      have smallNext : add32 addr 4 < 4294967296 := by
        unfold add32
        omega
      have alignedNext : add32 addr 4 % 4 = base % 4 := by
        unfold add32
        omega
      unfold Kernel.wordsBelow
      rw [if_pos below, ih smallNext alignedNext following]
      rfl

/-- The loop ends after the words of the region. -/
theorem wordsBelow_words {fuel : Nat} (fits : limit < 4294967292) (near : base < limit + 4)
    (side : limit < 0x80000000 → base < 0x80000000) (ends : base < limit → ¬Wraps base limit)
    (enough : limit + 4 ≤ base + 4 * fuel) :
    ∃ addrs, Kernel.wordsBelow limit fuel base = some addrs ∧ ∀ lin, lin ∈ addrs ↔ Visits base limit lin := by
  induction fuel generalizing base with
  | zero => omega
  | succ fuel ih =>
      unfold Kernel.wordsBelow
      by_cases below : PageState.asInt base < PageState.asInt limit
      · obtain ⟨sameSide, early⟩ : (base < 0x80000000 → limit < 0x80000000) ∧ base < limit := by
          unfold PageState.asInt at below
          split at below <;> split at below <;> omega
        have noWrap := ends early
        unfold Wraps at noWrap
        have following : add32 base 4 = base + 4 := by
          unfold add32
          omega
        have laterEnds : base + 4 < limit → ¬Wraps (base + 4) limit := by
          intro _
          unfold Wraps
          omega
        obtain ⟨addrs, ran, visited⟩ := ih (by omega) (by omega) laterEnds (by omega)
        rw [if_pos below, following, ran]
        refine ⟨base :: addrs, rfl, fun lin => ?_⟩
        rw [List.mem_cons, visited]
        unfold Visits
        omega
      · rw [if_neg below]
        refine ⟨[], rfl, fun lin => ?_⟩
        unfold PageState.asInt at below
        unfold Visits
        split at below <;> split at below <;> simp <;> omega

/-! ## What the loop leaves -/

section

variable {state final : PageState} {pid : Nat} {visited : Nat → Prop}

/-- No entry of the directory opens a table below the pool to the user: such a table is
only there because of a page fault. -/
def LowClosed (state : PageState) (dir : Nat) : Prop :=
  ∀ i table, PointsTo state dir i table → table < memStart → ¬UserBit (state.word dir i)

theorem LowClosed.congr {other : PageState} {dir : Nat} (closed : LowClosed state dir) (mem : other.mem = state.mem) :
    LowClosed other dir := by
  intro i table points isLow
  rw [word_congr mem]
  exact closed i table (points.congr mem) isLow

/-- After the loop the user may store to a page that was open, or that was missing and
is visited, behind an entry of the directory that is missing or open. -/
theorem allowed_after (held : Tables state dirs) (alive : state.cr3 pid ≠ 0)
    (closed : LowClosed state (state.cr3 pid)) (keeps : Keeps dirs state final)
    (maps : MapsPages (state.cr3 pid) (pgP + pgUsu + pgRww) visited state final) (address : lin < 4294967296) :
    final.Allowed pid lin true ↔
      if Present (state.pde pid lin) ∧ Present (state.pte pid lin) then state.Allowed pid lin true
      else visited (lin / 4096) ∧
        (Present (state.pde pid lin) → UserBit (state.pde pid lin) ∧ Writable (state.pde pid lin)) := by
  have member := held.cr3 pid alive
  have finalAlive : final.cr3 pid ≠ 0 := by rwa [keeps.cr3]
  have pageInside : lin / 4096 < 1048576 := by omega
  have inside : lin / 4096 / 1024 < 1024 := by omega
  have before : state.entry (state.cr3 pid) (lin / 4096) = _ := entry_read held alive
  rw [allowed_iff keeps.tables finalAlive, pde_read keeps.tables finalAlive, keeps.cr3]
  split
  next both =>
      rw [if_pos both] at before
      have after := maps.kept _ pageInside _ before
      have present := both.1
      rw [pde_read held alive] at present
      rw [allowed_iff held alive, pde_read held alive, maps.dirKept _ inside present, before, after]
  next missing =>
      rw [if_neg missing] at before
      rw [pde_read held alive]
      constructor
      · rintro ⟨opened, found, isFound, _, _⟩
        refine ⟨?_, fun present => ?_⟩
        · by_contra unvisited
          have same := maps.others _ pageInside unvisited fun table points => ?_
          · rw [same, before] at isFound
            cases isFound
          -- the user came through an open entry, so its table is not one of a page fault
          · by_contra isLow
            rcases keeps.points _ member _ _ points with old | ⟨low, _⟩
            · refine closed _ _ old (by omega) ?_
              rw [← maps.dirKept _ old.index old.present]
              exact opened.user
            · exact isLow low
        · rw [← maps.dirKept _ inside present]
          exact ⟨opened.user, opened.writable⟩
      · rintro ⟨isVisited, openDir⟩
        obtain ⟨found, isFound⟩ := maps.made _ pageInside isVisited
        have attr := maps.fresh _ pageInside found before isFound
        refine ⟨?_, found, isFound, ?_, ?_⟩
        · by_cases present : Present (state.word (state.cr3 pid) (lin / 4096 / 1024))
          · rw [maps.dirKept _ inside present]
            exact ⟨present, (openDir present).1, (openDir present).2⟩
          · rcases maps.dirMade _ inside present with same | opened
            · rw [entry_absent (by rwa [same])] at isFound
              cases isFound
            · exact opened
        · rw [attr]
          decide
        · rw [attr]
          decide

/-- What decides whether the user may store to an address of the region when the loop
has run: a page that is there stays as it is, another one has to be visited. -/
def GrantsAt (state : PageState) (pid base limit lin : Nat) : Prop :=
  if Present (state.pde pid lin) ∧ Present (state.pte pid lin) then state.Allowed pid lin true
  else
    Reaches base limit lin ∧
      (Present (state.pde pid lin) → UserBit (state.pde pid lin) ∧ Writable (state.pde pid lin))

/-- The loop ends and leaves every page of the region open. -/
def Grants (state : PageState) (pid base size : Nat) : Prop :=
  (size ≠ 0 → ¬Wraps base (base + size)) ∧
    ∀ lin, base ≤ lin → lin < base + size → GrantsAt state pid base (base + size) lin

variable (held : Tables state dirs) (trusted : Trusted state.man) (alive : state.cr3 pid ≠ 0)

include held trusted alive

theorem mapRegion_cr3 {current : Nat} (limit : Nat) (small : base < 4294967296)
    (done : state.overArea (mapUserPage current pid (pgP + pgUsu + pgRww)) (Kernel.wordsBelow limit Kernel.wordFuel base) =
      some final) : final.cr3 = state.cr3 := by
  obtain ⟨addrs, visited, ran⟩ := Option.bind_eq_some_iff.mp done
  exact (mapLoop_pages held trusted alive (by decide) (by decide) (wordsBelow_address small visited) ran).2.1.cr3

/-- The loop returns unless it never ends. -/
theorem mapRegion_returns (current : Nat) (low : heapLinBase ≤ base) (high : base + size ≤ heapLinLimitMax)
    (ends : size ≠ 0 → ¬Wraps base (base + size))
    (supplies : SuppliesFor state (state.cr3 pid) (regionPages base size)) :
    ∃ addrs final, Kernel.wordsBelow (base + size) Kernel.wordFuel base = some addrs ∧
      (∀ lin, lin ∈ addrs ↔ Visits base (base + size) lin) ∧
      addrs.foldlM (mapUserPage current pid (pgP + pgUsu + pgRww)) state = some final := by
  unfold heapLinBase at low
  unfold heapLinLimitMax at high
  have noWrap : base < base + size → ¬Wraps base (base + size) := fun _ => ends (by omega)
  have enough : base + size + 4 ≤ base + 4 * Kernel.wordFuel := by
    unfold Kernel.wordFuel
    omega
  obtain ⟨addrs, visited, words⟩ := wordsBelow_words (by omega) (by omega) (by omega) noWrap enough
  have inRegion : ∀ addr ∈ addrs, addr < kernelLinBase ∧ addr / 4096 ∈ regionPages base size := by
    intro addr member
    obtain ⟨_, above, below, _⟩ := (words addr).mp member
    refine ⟨?_, mem_regionPages above below⟩
    unfold kernelLinBase
    omega
  have inside : ∀ page ∈ regionPages base size, page < 1048576 := by
    intro page member
    have below := (Finset.mem_Ico.mp member).2
    omega
  obtain ⟨final, ran⟩ : ∃ final, addrs.foldlM (mapUserPage current pid (pgP + pgUsu + pgRww)) state = some final :=
    mapLoop_returns held trusted alive (by decide) (by decide) inside inRegion supplies
  exact ⟨addrs, final, visited, words, ran⟩

theorem region_allowed (current : Nat) (closed : LowClosed state (state.cr3 pid)) (low : heapLinBase ≤ base)
    (high : base + size ≤ heapLinLimitMax)
    (supplies : SuppliesFor state (state.cr3 pid) (regionPages base size)) :
    (∃ final, state.overArea (mapUserPage current pid (pgP + pgUsu + pgRww))
        (Kernel.wordsBelow (base + size) Kernel.wordFuel base) = some final ∧
      ∀ lin, base ≤ lin → lin < base + size → final.Allowed pid lin true) ↔ Grants state pid base size := by
  have small : base + size < 4294967296 := by
    unfold heapLinLimitMax at high
    omega
  by_cases endless : size ≠ 0 ∧ Wraps base (base + size)
  · obtain ⟨some, wraps⟩ := endless
    have below : PageState.asInt base < PageState.asInt (base + size) := by
      have positive := wraps.2
      unfold PageState.asInt
      rw [if_pos (by omega), if_pos positive]
      omega
    refine iff_of_false ?_ fun grants => grants.1 some wraps
    rintro ⟨final, done, _⟩
    rw [wordsBelow_endless wraps (by omega) rfl below] at done
    cases done
  · have ends : size ≠ 0 → ¬Wraps base (base + size) := fun some wraps => endless ⟨some, wraps⟩
    obtain ⟨addrs, final, visited, words, ran⟩ := mapRegion_returns held trusted alive current low high ends supplies
    have done : state.overArea (mapUserPage current pid (pgP + pgUsu + pgRww))
        (Kernel.wordsBelow (base + size) Kernel.wordFuel base) = some final := by
      rw [visited]
      exact ran
    obtain ⟨maps, keeps, _⟩ := mapLoop_pages held trusted alive (by decide) (by decide)
      (wordsBelow_address (by omega) visited) ran
    have each : ∀ lin, base ≤ lin → lin < base + size →
        (final.Allowed pid lin true ↔ GrantsAt state pid base (base + size) lin) := by
      intro lin above below
      rw [allowed_after held alive closed keeps maps (by omega)]
      unfold GrantsAt
      simp only [reaches_iff above below, words]
    constructor
    · rintro ⟨other, otherDone, allowed⟩
      obtain rfl : final = other := Option.some.inj (done.symm.trans otherDone)
      exact ⟨ends, fun lin above below => (each lin above below).mp (allowed lin above below)⟩
    · rintro ⟨_, granted⟩
      exact ⟨final, done, fun lin above below => (each lin above below).mpr (granted lin above below)⟩

end

/-! ## The call -/

/-- `vmalloc` only moves the end of a heap. -/
theorem vmalloc_reserved (size : Nat) (isOwner : kernel.heapOwner layout proc = some owner) :
    ∃ reserved limits, kernel.vmalloc layout proc size = some (reserved, (kernel.memmap owner).heapLinLimit) ∧
      reserved.pages = { kernel.pages with heapLimit := limits } := by
  let tasks := kernel.tasks.modify owner fun pcb =>
    { pcb with memmap := { pcb.memmap with heapLinLimit := add32 pcb.memmap.heapLinLimit size } }
  have cr3 : (fun i => (tasks.table i).cr3) = kernel.pages.cr3 := by
    funext i
    simp only [tasks, Kernel.pages, Tasks.modify]
    by_cases same : i = owner
    · rw [same, Function.update_self]
    · rw [Function.update_of_ne same]
  refine ⟨{ kernel with tasks := tasks }, (Kernel.pages { kernel with tasks := tasks }).heapLimit, ?_, ?_⟩
  · unfold Kernel.vmalloc
    rw [isOwner]
    rfl
  · unfold Kernel.pages at cr3 ⊢
    simp only [cr3]

theorem settle_allowed {tasks : Tasks} {state : PageState} (same : (Kernel.settle tasks state).pages.cr3 = state.cr3) :
    (Kernel.settle tasks state).pages.Allowed proc lin true ↔ state.Allowed proc lin true := by
  unfold PageState.Allowed PageState.pte PageState.ptePhyAddr PageState.pde PageState.pdePhyAddr
  rw [same]
  exact Iff.rfl

/-- The call is the loop, from pages of which only the end of a heap is new. -/
theorem sysMalloc_region (held : Tables kernel.pages dirs) (trusted : Trusted kernel.man)
    (alive : kernel.pages.cr3 proc ≠ 0) (isOwner : kernel.heapOwner layout proc = some owner)
    (isBase : (kernel.memmap owner).heapLinLimit = base) (small : base + size < 4294967296) :
    ∃ limits, Tables { kernel.pages with heapLimit := limits } dirs ∧
      ((∃ next, kernel.sysMalloc layout proc size = some (next, base) ∧
        ∀ lin, base ≤ lin → lin < base + size → next.pages.Allowed proc lin true) ↔
      ∃ final, PageState.overArea { kernel.pages with heapLimit := limits } (mapUserPage proc proc (pgP + pgUsu + pgRww))
          (Kernel.wordsBelow (base + size) Kernel.wordFuel base) = some final ∧
        ∀ lin, base ≤ lin → lin < base + size → final.Allowed proc lin true) := by
  obtain ⟨reserved, limits, isReserved, pages⟩ := vmalloc_reserved size isOwner
  rw [isBase] at isReserved
  have mem : reserved.pages.mem = kernel.pages.mem := by rw [pages]
  have tables : Tables reserved.pages dirs := held.congr mem (by rw [pages]) (by rw [pages]; exact held.cr3)
  have trustedReserved : Trusted reserved.pages.man := by rwa [pages]
  have aliveReserved : reserved.pages.cr3 proc ≠ 0 := by rwa [pages]
  have call : kernel.sysMalloc layout proc size = (reserved.pages.overArea (mapUserPage proc proc (pgP + pgUsu + pgRww))
      (Kernel.wordsBelow (base + size) Kernel.wordFuel base)).map fun final => (Kernel.settle reserved.tasks final, base) := by
    have sum : add32 base size = base + size := Nat.mod_eq_of_lt small
    unfold Kernel.sysMalloc
    rw [isReserved, Option.bind_eq_bind, Option.bind_some]
    simp only [sum]
    exact (Option.map_eq_bind ..).symm
  refine ⟨limits, pages ▸ tables, ?_⟩
  rw [call, ← pages]
  constructor
  · rintro ⟨next, done, allowed⟩
    obtain ⟨final, ran, isNext⟩ := Option.map_eq_some_iff.mp done
    obtain ⟨rfl, _⟩ := Prod.mk.inj isNext
    have cr3 := mapRegion_cr3 tables trustedReserved aliveReserved _ (by omega) ran
    exact ⟨final, ran, fun lin above below => (settle_allowed cr3.symm).mp (allowed lin above below)⟩
  · rintro ⟨final, ran, allowed⟩
    have cr3 := mapRegion_cr3 tables trustedReserved aliveReserved _ (by omega) ran
    refine ⟨_, by rw [ran]; rfl, fun lin above below => (settle_allowed cr3.symm).mpr (allowed lin above below)⟩

/-- `sys_malloc` returns the old end of the heap, and the user may store to the whole
region, exactly when the loop ends and each page that is there is open, and each other
one is visited behind an entry of the directory that is missing or open. -/
theorem malloc_usable_iff (held : Tables kernel.pages dirs) (trusted : Trusted kernel.man)
    (alive : kernel.pages.cr3 proc ≠ 0) (closed : LowClosed kernel.pages (kernel.pages.cr3 proc))
    (isOwner : kernel.heapOwner layout proc = some owner) (isBase : (kernel.memmap owner).heapLinLimit = base)
    (low : heapLinBase ≤ base) (high : base + size ≤ heapLinLimitMax)
    (supplies : SuppliesFor kernel.pages (kernel.pages.cr3 proc) (regionPages base size)) :
    (∃ next, kernel.sysMalloc layout proc size = some (next, base) ∧
      ∀ lin, base ≤ lin → lin < base + size → next.pages.Allowed proc lin true) ↔
      Grants kernel.pages proc base size := by
  have small : base + size < 4294967296 := by
    unfold heapLinLimitMax at high
    omega
  obtain ⟨limits, tables, same⟩ := sysMalloc_region held trusted alive isOwner isBase small
  rw [same]
  exact region_allowed tables trusted alive proc (closed.congr rfl) low high (supplies.congr rfl rfl)

/-! ## One process -/

/-- The only process, with the end of its heap at a given address. -/
theorem lone_heap (limit : Nat) :
    ∃ kernel : Kernel, Process [0x00400000] 1 kernel.pages ∧ Room 493 3996 kernel.man ∧
      kernel.heapOwner lowLayout 1 = some 1 ∧ (kernel.memmap 1).heapLinLimit = limit ∧
      ∀ page < kernelPage, (∀ addr ∈ stackAddrs, addr / 4096 ≠ page) →
        kernel.pages.entry (kernel.pages.cr3 1) page = none := by
  obtain ⟨kernel, isLone, _, process, room, _, _, absent⟩ := lone_kernel
  let tasks := loneTasks.modify 1 fun pcb => { pcb with memmap := { pcb.memmap with heapLinLimit := limit } }
  have cr3 : (fun i => (tasks.table i).cr3) = fun i => (loneTasks.table i).cr3 := by
    funext i
    simp only [tasks, Tasks.modify]
    by_cases same : i = 1
    · rw [same, Function.update_self]
    · rw [Function.update_of_ne same]
  have old : kernel.pages.cr3 = fun i => (loneTasks.table i).cr3 := by rw [← isLone]; rfl
  have same : (Kernel.pages { kernel with tasks := tasks }).cr3 = kernel.pages.cr3 := cr3.trans old.symm
  have mem : (Kernel.pages { kernel with tasks := tasks }).mem = kernel.pages.mem := rfl
  refine ⟨{ kernel with tasks := tasks }, ?_, room, rfl, rfl, fun page low apart => ?_⟩
  · refine process.congr mem rfl ?_ (congrFun same 1)
    rw [same]
    exact process.tables.cr3
  · have isDir : kernel.pages.cr3 1 = 0x00400000 := by
      rw [old]
      rfl
    rw [same, isDir, entry_congr mem]
    exact absent page low apart

theorem process_lowClosed {state : PageState} (process : Process dirs proc state) : LowClosed state (state.cr3 proc) :=
  fun i table points isLow => absurd (process.proper i table points) (by omega)

/-- The heap starts on a page. -/
theorem malloc_usable_iff_aligned :
    ∃ kernel : Kernel, (kernel.memmap 1).heapLinLimit = heapLinBase ∧
      ((∃ next, kernel.sysMalloc lowLayout 1 0x2004 = some (next, heapLinBase) ∧
        ∀ lin, heapLinBase ≤ lin → lin < heapLinBase + 0x2004 → next.pages.Allowed 1 lin true) ↔
        Grants kernel.pages 1 heapLinBase 0x2004) := by
  obtain ⟨kernel, process, room, isOwner, isBase, _⟩ := lone_heap heapLinBase
  refine ⟨kernel, isBase, malloc_usable_iff process.tables process.trusted process.alive (process_lowClosed process) isOwner
    isBase (Nat.le_refl _) (by decide) (room.suppliesFor ?_ ?_)⟩
  · decide
  · decide

/-- After `0xFFF` bytes a region of two bytes reaches into the next page, which the loop
does not visit. -/
theorem malloc_misses_page :
    ∃ kernel : Kernel, Process [0x00400000] 1 kernel.pages ∧ kernel.heapOwner lowLayout 1 = some 1 ∧
      (kernel.memmap 1).heapLinLimit = 0x48000FFF ∧
      SuppliesFor kernel.pages (kernel.pages.cr3 1) (regionPages 0x48000FFF 2) ∧
      ¬∃ next, kernel.sysMalloc lowLayout 1 2 = some (next, 0x48000FFF) ∧
        ∀ lin, 0x48000FFF ≤ lin → lin < 0x48001001 → next.pages.Allowed 1 lin true := by
  obtain ⟨kernel, process, room, isOwner, isBase, absent⟩ := lone_heap 0x48000FFF
  have supplies : SuppliesFor kernel.pages (kernel.pages.cr3 1) (regionPages 0x48000FFF 2) :=
    room.suppliesFor (by decide) (by decide)
  refine ⟨kernel, process, isOwner, isBase, supplies, fun usable => ?_⟩
  obtain ⟨limits, tables, same⟩ := sysMalloc_region process.tables process.trusted process.alive isOwner isBase
    (by decide : 0x48000FFF + 2 < 4294967296)
  have region := region_allowed tables process.trusted process.alive 1 ((process_lowClosed process).congr rfl)
    (by decide : heapLinBase ≤ 0x48000FFF) (by decide : 0x48000FFF + 2 ≤ heapLinLimitMax) (supplies.congr rfl rfl)
  obtain ⟨_, granted⟩ := region.mp (same.mp usable)
  have last := granted 0x48001000 (by decide) (by decide)
  have missing : ¬(Present (kernel.pages.pde 1 0x48001000) ∧ Present (kernel.pages.pte 1 0x48001000)) := by
    intro both
    have unread := (entry_read process.tables process.alive).symm.trans (absent (0x48001000 / 4096) (by decide) (by decide))
    rw [if_pos both] at unread
    cases unread
  have reaches : Reaches 0x48000FFF 0x48001001 0x48001000 := ((if_neg missing).mp last).1
  exact absurd reaches (by decide)

end AempOS.Task
