import AempOS.Memory.ForkIsolation

/-! What the child has of its parent's memory after `sys_fork`. The loops step by
whole pages from the base of an area, which need not lie on a page border, so the
last page of an area may be left out; and a page of the text that a later loop
reaches is not shared but copied. -/

set_option autoImplicit false

namespace AempOS.Memory

open Lib

variable {state next : PageState} {dirs : List Nat} {ppid pid parent child : Nat}

/-! ## Areas and the pages that the loops reach -/

/-- The page has a byte of the area. -/
def AreaPage (base limit page : Nat) : Prop := ∃ addr, base ≤ addr ∧ addr < limit ∧ addr / 4096 = page

/-- A loop upwards visits an address of the page. -/
def ReachedUp (base limit page : Nat) : Prop := ∃ addr, VisitedUp base limit addr ∧ addr / 4096 = page

/-- A loop over an area reaches all its pages exactly when the base lies no deeper
in its page than the last byte does. -/
theorem area_reached_iff (base limit : Nat) :
    (∀ page, AreaPage base limit page → ReachedUp base limit page) ↔
      limit ≤ base ∨ base % 4096 ≤ (limit - 1) % 4096 := by
  constructor
  · intro reached
    by_contra other
    simp only [not_or, Nat.not_le] at other
    obtain ⟨addr, ⟨k, rfl, below⟩, same⟩ := reached ((limit - 1) / 4096) ⟨limit - 1, by omega, by omega, rfl⟩
    omega
  · rintro covered page ⟨addr, above, below, rfl⟩
    have notEmpty : ¬limit ≤ base := by omega
    have order := covered.resolve_left notEmpty
    refine ⟨base + 4096 * (addr / 4096 - base / 4096), ⟨_, rfl, ?_⟩, ?_⟩
    · omega
    · omega

namespace LinMemmap

variable (map : LinMemmap) (heapLimit : Nat)

def TextPage (page : Nat) : Prop := AreaPage map.textLinBase map.textLinLimit page

/-- A page with a byte of the data or of the heap. -/
def CopyPage (page : Nat) : Prop :=
  AreaPage map.dataLinBase map.dataLinLimit page ∨ AreaPage map.heapLinBase heapLimit page

/-- One of the five loops that copy reaches the page. -/
def CopyReached (page : Nat) : Prop := ∃ addr, map.Copied heapLimit addr ∧ addr / 4096 = page

end LinMemmap

/-- A page that every address space has. -/
def KernelPage (page : Nat) : Prop := kernelPage ≤ page ∧ page < kernelPage + kernelSize / 4096

/-- The loops do what the areas need: the loop over the text reaches all its pages
and no other loop reaches them, and some loop that copies reaches every page of
the data and of the heap. -/
structure Covered (map : LinMemmap) (heapLimit : Nat) : Prop where
  text : ∀ page < 1048576, map.TextPage page →
    (ReachedUp map.textLinBase map.textLinLimit page ∨ KernelPage page) ∧ ¬map.CopyReached heapLimit page
  data : ∀ page < 1048576, map.CopyPage heapLimit page → map.CopyReached heapLimit page

/-- A process as `exec_load` and `sys_malloc` set it up: the pages of its text, data
and heap are present, and so are those that `sys_fork` reads. Their frames are
in use for nothing else, and the pages of the kernel are those of
`init_page_pte`. -/
structure Loaded (dirs : List Nat) (ppid : Nat) (map : LinMemmap) (state : PageState) : Prop
    extends Process dirs ppid state where
  pages : ∀ page < 1048576, map.TextPage page ∨ map.CopyPage (state.heapLimit ppid) page ∨
    map.CopyReached (state.heapLimit ppid) page → Backed dirs ppid state page
  kernel : ∀ page < 1048576, KernelPage page →
    ∃ attr, state.entry (state.cr3 ppid) page = some (4096 * (page - kernelPage), attr)

/-- The child has every page of the text on the frame of the parent, and every page
of data and heap on a frame that was free, with the same contents. -/
structure HasEverything (map : LinMemmap) (ppid pid : Nat) (before after : PageState) : Prop where
  text : ∀ page < 1048576, map.TextPage page → ∃ frame attr own,
    before.entry (before.cr3 ppid) page = some (frame, attr) ∧
      after.entry (after.cr3 pid) page = some (frame, own)
  copies : ∀ page < 1048576, map.CopyPage (before.heapLimit ppid) page → ∃ frame attr own ownAttr,
    before.entry (before.cr3 ppid) page = some (frame, attr) ∧
      after.entry (after.cr3 pid) page = some (own, ownAttr) ∧ FreePage before.man own ∧
      ∀ j < 1024, after.word own j = before.word frame j

/-! ## The pages of the child -/

/-- What the child has after `sys_fork`, page by page. -/
structure ChildPages (map : LinMemmap) (dirs : List Nat) (ppid pid : Nat) (before after : PageState) :
    Prop where
  copied : ∀ page < 1048576, map.CopyReached (before.heapLimit ppid) page → ∃ own,
    after.entry (after.cr3 pid) page = some (own, pgP + pgUsu + pgRww) ∧ FreePage before.man own ∧
      ∀ frame attr, page ≠ shareNumber → before.entry (before.cr3 ppid) page = some (frame, attr) →
        Content dirs before frame → ∀ j < 1024, after.word own j = before.word frame j
  shared : ∀ page < 1048576, ¬map.CopyReached (before.heapLimit ppid) page →
    ReachedUp map.textLinBase map.textLinLimit page → ∀ frame attr,
      before.entry (before.cr3 ppid) page = some (frame, attr) →
        after.entry (after.cr3 pid) page = some (frame, pgP + pgUsu)
  rest : ∀ page < 1048576, ¬map.CopyReached (before.heapLimit ppid) page →
    ¬ReachedUp map.textLinBase map.textLinLimit page → after.entry (after.cr3 pid) page = kernelEntry page

theorem Loops.reached_copied {map : LinMemmap} {heapLimit page : Nat} {shared copied : List Nat}
    (loops : Loops map heapLimit shared copied) (fits : map.Fits) :
    Reached copied page ↔ map.CopyReached heapLimit page := by
  simp only [Reached, LinMemmap.CopyReached, loops.copied_iff fits]

theorem Loops.reached_shared {map : LinMemmap} {heapLimit page : Nat} {shared copied : List Nat}
    (loops : Loops map heapLimit shared copied) (fits : map.Fits) :
    Reached shared page ↔ ReachedUp map.textLinBase map.textLinLimit page := by
  simp only [Reached, ReachedUp, loops.shared_iff fits]

/-- A call of `sys_fork` by such a process, with the addresses that its loops visit. -/
theorem Loaded.soFar {map : LinMemmap} (loaded : Loaded dirs ppid map state) (differ : ppid ≠ pid)
    (limits : state.heapLimit ppid < 4294967296) (fits : map.Fits)
    (done : state.sysFork map ppid pid = some next) :
    ∃ made shared copied, NewSpace dirs pid (next.cr3 pid) state made ∧ Loops map (state.heapLimit ppid) shared copied ∧
      SoFar (next.cr3 pid :: dirs) (state.cr3 ppid) (next.cr3 pid) (made.inherit ppid pid) shared copied next ∧
      (copied = [] ∨ ShareBacked (next.cr3 pid :: dirs) (state.cr3 ppid) next) ∧ next.cr3 ppid = state.cr3 ppid := by
  have ready : Forkable dirs ppid pid state := loaded.toProcess.forkable differ limits
  have member := loaded.tables.cr3 ppid loaded.alive
  obtain ⟨made, isMade, done⟩ := sysFork_parts done
  obtain ⟨shared, copied, text, loops, ranText, ranCopies⟩ := forkMemCpy_loops done
  rw [ready.inherit_heapLimit isMade] at loops
  have space := initPagePte_space loaded.tables loaded.trusted isMade
  have start := ready.start isMade
  have address := loops.copied_address fits limits
  have startProper := loaded.toProcess.start_proper isMade
  obtain ⟨textHeld, textSoFar⟩ := start.shareAll startProper (loops.shared_address fits) ranText
  have present : ∀ addr ∈ copied, addr / 4096 = shareNumber ∨
      ∃ found, (made.inherit ppid pid).entry (state.cr3 ppid) (addr / 4096) = some found := by
    intro addr isCopied
    have inside : addr / 4096 < 1048576 := by
      have := address addr isCopied
      omega
    have reached := (loops.reached_copied fits).mp ⟨addr, isCopied, rfl⟩
    obtain ⟨frame, attr, found, _⟩ := loaded.pages _ inside (.inr (.inr reached))
    exact .inr ⟨_, (space.old _ member _ inside).trans found⟩
  obtain ⟨held, soFar, share⟩ := textSoFar.copyAll textHeld address present ranCopies
  rw [held.childDir]
  exact ⟨made, shared, copied, space, loops, soFar, share, held.parentDir⟩

theorem Loaded.childPages {map : LinMemmap} (loaded : Loaded dirs ppid map state) (differ : ppid ≠ pid)
    (limits : state.heapLimit ppid < 4294967296) (fits : map.Fits)
    (done : state.sysFork map ppid pid = some next) : ChildPages map dirs ppid pid state next := by
  have member := loaded.tables.cr3 ppid loaded.alive
  obtain ⟨made, shared, copied, space, loops, soFar, _⟩ := loaded.soFar differ limits fits done
  have startEntry : ∀ page < 1048576, (made.inherit ppid pid).entry (state.cr3 ppid) page =
      state.entry (state.cr3 ppid) page := fun page inside => space.old _ member page inside
  refine ⟨fun page inside reached => ?_, fun page inside apart reached frame attr found => ?_,
    fun page inside apart unreached => ?_⟩
  · obtain ⟨own, isChild, _, fresh, words⟩ := soFar.copies page inside ((loops.reached_copied fits).mpr reached)
    refine ⟨own, isChild, space.free own fresh, fun frame attr apart found content j bound => ?_⟩
    rw [words frame attr apart ((startEntry page inside).trans found) (space.content frame content).inherit j
      bound]
    exact space.words frame content j bound
  · exact soFar.shares page inside (fun isCopied => apart ((loops.reached_copied fits).mp isCopied))
      ((loops.reached_shared fits).mpr reached) frame attr ((startEntry page inside).trans found)
  · rw [soFar.rest page inside (fun isCopied => apart ((loops.reached_copied fits).mp isCopied))
      fun isShared => unreached ((loops.reached_shared fits).mp isShared)]
    exact space.new page inside

/-- The pages of the parent stay, except for the share page. -/
theorem Loaded.parentPage {map : LinMemmap} {page : Nat} (loaded : Loaded dirs ppid map state) (differ : ppid ≠ pid)
    (limits : state.heapLimit ppid < 4294967296) (fits : map.Fits) (done : state.sysFork map ppid pid = some next)
    (inside : page < 1048576) (apart : page ≠ shareNumber) :
    next.entry (next.cr3 ppid) page = state.entry (state.cr3 ppid) page := by
  have member := loaded.tables.cr3 ppid loaded.alive
  obtain ⟨made, shared, copied, space, _, soFar, _, isDir⟩ := loaded.soFar differ limits fits done
  rw [isDir, soFar.parentPages page inside (.inl apart)]
  exact space.old _ member page inside

/-- The pages of a process outside the kernel's window lie on frames that are in use and
hold no page directory and no page table. -/
def UserFrames (dirs : List Nat) (pid : Nat) (state : PageState) : Prop :=
  ∀ page < 1048576, ¬KernelPage page → ∀ frame attr, state.entry (state.cr3 pid) page = some (frame, attr) →
    Content dirs state frame

/-- The frames of the parent stay in use for its pages. -/
theorem Loaded.userFrames {map : LinMemmap} (loaded : Loaded dirs ppid map state) (differ : ppid ≠ pid)
    (limits : state.heapLimit ppid < 4294967296) (fits : map.Fits)
    (done : state.sysFork map ppid pid = some next) (frames : UserFrames dirs ppid state) :
    UserFrames (next.cr3 pid :: dirs) ppid next := by
  intro page inside isUser frame attr found
  have member := loaded.tables.cr3 ppid loaded.alive
  obtain ⟨made, shared, copied, space, _, soFar, share, isDir⟩ := loaded.soFar differ limits fits done
  rw [isDir] at found
  have kept : page ≠ shareNumber ∨ copied = [] → Content (next.cr3 pid :: dirs) next frame := by
    intro apart
    rw [soFar.parentPages page inside apart] at found
    have before := (space.old _ member page inside).symm.trans found
    exact (soFar.content frame (space.content frame (frames page inside isUser frame attr before)).inherit).1
  rcases share with empty | ⟨own, ownAttr, isShare, content⟩
  · exact kept (.inr empty)
  · by_cases isPage : page = shareNumber
    · subst isPage
      obtain ⟨rfl, rfl⟩ := Prod.mk.inj (Option.some.inj (isShare.symm.trans found))
      exact content
    · exact kept (.inl isPage)

section

variable {map : LinMemmap} (loaded : Loaded dirs ppid map state)
  (pages : ChildPages map dirs ppid pid state next)

include loaded pages

/-- A page of the child that is not copied has the parent's frame, or none. -/
theorem Loaded.uncopied {page frame own attr ownAttr : Nat} (inside : page < 1048576)
    (apart : ¬map.CopyReached (state.heapLimit ppid) page)
    (found : state.entry (state.cr3 ppid) page = some (frame, attr))
    (isChild : next.entry (next.cr3 pid) page = some (own, ownAttr)) :
    own = frame ∧ (ReachedUp map.textLinBase map.textLinLimit page ∨ KernelPage page) := by
  by_cases reached : ReachedUp map.textLinBase map.textLinLimit page
  · rw [pages.shared page inside apart reached frame attr found] at isChild
    cases isChild
    exact ⟨rfl, .inl reached⟩
  · rw [pages.rest page inside apart reached, kernelEntry] at isChild
    split at isChild
    next isKernel =>
        obtain ⟨kernelAttr, isFrame⟩ := loaded.kernel page inside isKernel
        have sameFrame := (Prod.mk.inj (Option.some.inj (found.symm.trans isFrame))).1
        have isOwn := (Prod.mk.inj (Option.some.inj isChild)).1
        exact ⟨isOwn.symm.trans sameFrame.symm, .inr isKernel⟩
    next => cases isChild

/-- The loops covered the areas, if the child has everything. -/
theorem Loaded.covered (everything : HasEverything map ppid pid state next) :
    Covered map (state.heapLimit ppid) := by
  refine ⟨fun page inside isText => ?_, fun page inside isCopy => ?_⟩
  · obtain ⟨frame, attr, own, found, isChild⟩ := everything.text page inside isText
    obtain ⟨_, _, backed, content⟩ := loaded.pages page inside (.inl isText)
    rw [found] at backed
    cases backed
    have apart : ¬map.CopyReached (state.heapLimit ppid) page := by
      intro reached
      obtain ⟨fresh, isFresh, free, _⟩ := pages.copied page inside reached
      rw [isChild] at isFresh
      cases isFresh
      exact content.used free
    exact ⟨(loaded.uncopied pages inside apart found isChild).2, apart⟩
  · obtain ⟨frame, attr, own, ownAttr, found, isChild, free, _⟩ := everything.copies page inside isCopy
    obtain ⟨_, _, backed, content⟩ := loaded.pages page inside (.inr (.inl isCopy))
    rw [found] at backed
    cases backed
    by_contra apart
    obtain ⟨rfl, _⟩ := loaded.uncopied pages inside apart found isChild
    exact content.used free

/-- The child has everything, if the loops cover the areas and the share page is
not itself a page to copy. -/
theorem Loaded.everything (covered : Covered map (state.heapLimit ppid))
    (unused : ¬map.CopyPage (state.heapLimit ppid) shareNumber) : HasEverything map ppid pid state next := by
  refine ⟨fun page inside isText => ?_, fun page inside isCopy => ?_⟩
  · obtain ⟨frame, attr, found, _⟩ := loaded.pages page inside (.inl isText)
    obtain ⟨reached, apart⟩ := covered.text page inside isText
    by_cases byLoop : ReachedUp map.textLinBase map.textLinLimit page
    · exact ⟨frame, attr, _, found, pages.shared page inside apart byLoop frame attr found⟩
    · have isKernel := reached.resolve_left byLoop
      obtain ⟨kernelAttr, isFrame⟩ := loaded.kernel page inside isKernel
      refine ⟨_, kernelAttr, pgP + pgRww, isFrame, ?_⟩
      rw [pages.rest page inside apart byLoop]
      exact if_pos isKernel
  · obtain ⟨frame, attr, found, content⟩ := loaded.pages page inside (.inr (.inl isCopy))
    obtain ⟨own, isChild, free, words⟩ := pages.copied page inside (covered.data page inside isCopy)
    have apart : page ≠ shareNumber := fun same => unused (same ▸ isCopy)
    exact ⟨frame, attr, own, _, found, isChild, free, words frame attr apart found content⟩

end

/-- After `sys_fork` the child has all of text, data and heap only if the loops
cover them, and then it does, unless the share page is data itself. -/
theorem fork_copies {map : LinMemmap} (loaded : Loaded dirs ppid map state) (differ : ppid ≠ pid)
    (limits : state.heapLimit ppid < 4294967296) (fits : map.Fits)
    (done : state.sysFork map ppid pid = some next) :
    (HasEverything map ppid pid state next → Covered map (state.heapLimit ppid)) ∧
      (Covered map (state.heapLimit ppid) → ¬map.CopyPage (state.heapLimit ppid) shareNumber →
        HasEverything map ppid pid state next) := by
  have pages := loaded.childPages differ limits fits done
  constructor
  · intro everything
    exact loaded.covered pages everything
  · intro covered unused
    exact loaded.everything pages covered unused

/-- The memory map of a program whose text has one page. -/
def programMap (dataBase dataLimit : Nat) : LinMemmap :=
  { initialMap with
    textLinBase := 0x1000
    textLinLimit := 0x1100
    dataLinBase := dataBase
    dataLinLimit := dataLimit }

/-- Text, three pages for data, and the stack. -/
def programAddrs : List Nat := [0x1000, 0x2000, 0x3000, 0x4000] ++ stackAddrs

theorem stack_loop : descending 0xBFFFAFFC loopFuel 0xBFFFEFFC = some stackAddrs := by decide

theorem empty_loop (base : Nat) : ascending base loopFuel base = some [] :=
  if_neg (Nat.lt_irrefl base)

theorem text_loop : ascending 0x1100 loopFuel 0x1000 = some [0x1000] := by decide

theorem program_fits {dataBase dataLimit : Nat} (base : dataBase < 4294967296)
    (limit : dataLimit < 4294967296) : (programMap dataBase dataLimit).Fits := by
  have fits := initialMap_fits
  have text : 0x1000 < 4294967296 ∧ 0x1100 < 4294967296 := by decide
  exact ⟨text, ⟨base, limit⟩, fits.vpage, fits.heap, fits.stack, fits.arg⟩

theorem program_loops {dataBase dataLimit : Nat} {data : List Nat}
    (isData : ascending dataLimit loopFuel dataBase = some data) :
    Loops (programMap dataBase dataLimit) heapLinBase [0x1000] (data ++ stackAddrs) := by
  refine ⟨text_loop, data, [], [], stackAddrs, [], isData, empty_loop _, empty_loop _, stack_loop,
    empty_loop _, ?_⟩
  simp

/-- The first process with the pages of a program whose data lie in the pages 2 to
4. -/
theorem program_loaded {dataBase dataLimit : Nat} {data : List Nat} (low : 0x2000 ≤ dataBase)
    (base : dataBase < 4294967296) (high : dataLimit ≤ 0x5000)
    (isData : ascending dataLimit loopFuel dataBase = some data) :
    ∃ made state, cleanPages.initPagePte 1 1 = some (made, 0) ∧
      programAddrs.foldlM (PageState.mapFresh 1 7) made = some state ∧
      Loaded [0x00400000] 1 (programMap dataBase dataLimit) state ∧ state.heapLimit 1 = heapLinBase ∧
      state.cr3 1 = 0x00400000 ∧ Room 489 3992 state.man ∧ UserFrames [0x00400000] 1 state := by
  obtain ⟨made, state, isMade, ran, held, room, isDir, limit, backed, kernel, absent⟩ :=
    first_process programAddrs (by decide) (by decide) (by decide : 7 < 4096) (by decide)
  have fits : (programMap dataBase dataLimit).Fits := program_fits base (by omega)
  have loops := program_loops isData
  have dataBacked : ∀ addr, 0x2000 ≤ addr → addr < 0x5000 → Backed [0x00400000] 1 state (addr / 4096) := by
    intro addr above below
    have page : addr / 4096 = 2 ∨ addr / 4096 = 3 ∨ addr / 4096 = 4 := by omega
    rcases page with page | page | page
    · exact page ▸ backed 0x2000 (by decide)
    · exact page ▸ backed 0x3000 (by decide)
    · exact page ▸ backed 0x4000 (by decide)
  have copiedBacked : ∀ addr ∈ data ++ stackAddrs, Backed [0x00400000] 1 state (addr / 4096) := by
    intro addr member
    rcases List.mem_append.mp member with inData | inStack
    · obtain ⟨k, isAddr, below⟩ := (ascending_visited base isData addr).mp inData
      exact dataBacked addr (by omega) (by omega)
    · exact backed addr (List.mem_append_right _ inStack)
  have loaded : Loaded [0x00400000] 1 (programMap dataBase dataLimit) state := by
    refine ⟨held, fun page inside used => ?_, fun page inside isKernel => ?_⟩
    · rw [limit] at used
      rcases used with ⟨addr, above, below, rfl⟩ | (⟨addr, above, below, rfl⟩ | ⟨addr, above, below, rfl⟩) |
        ⟨addr, copied, rfl⟩
      · have above : 0x1000 ≤ addr := above
        have below : addr < 0x1100 := below
        have page : addr / 4096 = 1 := by omega
        have text := backed 0x1000 (by decide)
        rw [page]
        exact text
      · exact dataBacked addr (Nat.le_trans low above) (Nat.lt_of_lt_of_le below high)
      · exact absurd (Nat.lt_of_le_of_lt above below) (Nat.lt_irrefl _)
      · exact copiedBacked addr ((loops.copied_iff fits addr).mpr copied)
    · rw [isDir, kernel page inside isKernel.1]
      exact ⟨_, if_pos isKernel⟩
  refine ⟨made, state, isMade, ran, loaded, limit, isDir, room, fun page inside isUser frame attr found => ?_⟩
  by_cases mapped : ∃ addr ∈ programAddrs, addr / 4096 = page
  · obtain ⟨addr, member, rfl⟩ := mapped
    obtain ⟨own, ownAttr, isOwn, content⟩ := backed addr member
    obtain ⟨rfl, _⟩ := Prod.mk.inj (Option.some.inj (isOwn.symm.trans found))
    exact content
  · simp only [not_exists, not_and] at mapped
    rw [isDir] at found
    rcases Nat.lt_or_ge page kernelPage with below | above
    · rw [absent page below mapped] at found
      cases found
    · have none : kernelEntry page = none := if_neg isUser
      rw [kernel page inside above, none] at found
      cases found

theorem Loaded.program_forks {dataBase dataLimit : Nat} {data : List Nat}
    (loaded : Loaded dirs 1 (programMap dataBase dataLimit) state) (limit : state.heapLimit 1 = heapLinBase)
    (room : Room 489 3992 state.man) (differ : 1 ≠ pid) (base : dataBase < 4294967296)
    (high : dataLimit ≤ 0x5000) (few : data.length ≤ 3) (isData : ascending dataLimit loopFuel dataBase = some data) :
    ∃ next, state.sysFork (programMap dataBase dataLimit) 1 pid = some next := by
  have fits : (programMap dataBase dataLimit).Fits := program_fits base (by omega)
  have loops := program_loops isData
  have small : state.heapLimit 1 < 4294967296 := by
    rw [limit]
    decide
  rw [← limit] at loops
  have enough : Room (0 + 3 * (data ++ stackAddrs).length + [0x1000].length + 3)
      (0 + (data ++ stackAddrs).length) state.man := by
    refine room.le ?_ ?_
    · simp [stackAddrs]
      omega
    · simp [stackAddrs]
      omega
  refine loaded.toProcess.fork_returns differ small fits loops (fun addr member => ?_) enough
  have reached : (programMap dataBase dataLimit).CopyReached (state.heapLimit 1) (addr / 4096) :=
    (loops.reached_copied fits).mp ⟨addr, member, rfl⟩
  have address := loops.copied_address fits small addr member
  exact (loaded.pages (addr / 4096) (by omega) (.inr (.inr reached))).present

theorem program_covered : Covered (programMap 0x2000 0x4100) heapLinBase := by
  have fits : (programMap 0x2000 0x4100).Fits := program_fits (by decide) (by decide)
  have loops : Loops (programMap 0x2000 0x4100) heapLinBase [0x1000]
      ([0x2000, 0x3000, 0x4000] ++ stackAddrs) := program_loops (by decide)
  have textReached := (area_reached_iff 0x1000 0x1100).mpr (.inr (by decide))
  have dataReached := (area_reached_iff 0x2000 0x4100).mpr (.inr (by decide))
  have others : ∀ addr ∈ [0x2000, 0x3000, 0x4000] ++ stackAddrs, addr / 4096 ≠ 1 := by decide
  refine ⟨fun page inside isText => ⟨.inl (textReached page isText), ?_⟩, fun page inside isCopy => ?_⟩
  · rintro ⟨addr, copied, rfl⟩
    obtain ⟨byte, above, below, same⟩ := isText
    have above : 0x1000 ≤ byte := above
    have below : byte < 0x1100 := below
    exact others addr ((loops.copied_iff fits addr).mpr copied) (by omega)
  · rcases isCopy with isData | ⟨byte, above, below, _⟩
    · obtain ⟨addr, visited, isPage⟩ := dataReached page isData
      exact ⟨addr, .inl visited, isPage⟩
    · exact absurd (Nat.lt_of_le_of_lt above below) (Nat.lt_irrefl _)

theorem program_share : ¬(programMap 0x2000 0x4100).CopyPage heapLinBase shareNumber := by
  rintro (⟨byte, above, below, isPage⟩ | ⟨byte, above, below, _⟩)
  · have below : byte < 0x4100 := below
    have isPage : byte / 4096 = 0x47FFF := isPage
    omega
  · exact absurd (Nat.lt_of_le_of_lt above below) (Nat.lt_irrefl _)

/-- Data from `0x2000` to `0x4100`: all three pages are copied. -/
theorem fork_copies_aligned :
    ∃ made state next, cleanPages.initPagePte 1 1 = some (made, 0) ∧
      programAddrs.foldlM (PageState.mapFresh 1 7) made = some state ∧
      Loaded [0x00400000] 1 (programMap 0x2000 0x4100) state ∧
      state.sysFork (programMap 0x2000 0x4100) 1 2 = some next ∧
      HasEverything (programMap 0x2000 0x4100) 1 2 state next := by
  have isData : ascending 0x4100 loopFuel 0x2000 = some [0x2000, 0x3000, 0x4000] := by decide
  obtain ⟨made, state, isMade, ran, loaded, limit, _, room, _⟩ :=
    program_loaded (by decide : 0x2000 ≤ 0x2000) (by decide) (by decide : 0x4100 ≤ 0x5000) isData
  obtain ⟨next, done⟩ : ∃ next, state.sysFork (programMap 0x2000 0x4100) 1 2 = some next :=
    loaded.program_forks limit room (by decide) (by decide) (by decide) (by decide) isData
  have small : state.heapLimit 1 < 4294967296 := by
    rw [limit]
    decide
  have fits : (programMap 0x2000 0x4100).Fits := program_fits (by decide) (by decide)
  have covered : Covered (programMap 0x2000 0x4100) (state.heapLimit 1) := by
    rw [limit]
    exact program_covered
  have unused : ¬(programMap 0x2000 0x4100).CopyPage (state.heapLimit 1) shareNumber := by
    rw [limit]
    exact program_share
  exact ⟨made, state, next, isMade, ran, loaded, done,
    (fork_copies loaded (by decide) small fits done).2 covered unused⟩

/-- Data from `0x2800` to `0x4100`: the loop ends before the third page, which the
child does not have. -/
theorem fork_misses_page :
    ∃ made state next, cleanPages.initPagePte 1 1 = some (made, 0) ∧
      programAddrs.foldlM (PageState.mapFresh 1 7) made = some state ∧
      Loaded [0x00400000] 1 (programMap 0x2800 0x4100) state ∧
      state.sysFork (programMap 0x2800 0x4100) 1 2 = some next ∧
      ¬HasEverything (programMap 0x2800 0x4100) 1 2 state next := by
  have isData : ascending 0x4100 loopFuel 0x2800 = some [0x2800, 0x3800] := by decide
  obtain ⟨made, state, isMade, ran, loaded, limit, _, room, _⟩ :=
    program_loaded (by decide : 0x2000 ≤ 0x2800) (by decide) (by decide : 0x4100 ≤ 0x5000) isData
  obtain ⟨next, done⟩ : ∃ next, state.sysFork (programMap 0x2800 0x4100) 1 2 = some next :=
    loaded.program_forks limit room (by decide) (by decide) (by decide) (by decide) isData
  have small : state.heapLimit 1 < 4294967296 := by
    rw [limit]
    decide
  have fits : (programMap 0x2800 0x4100).Fits := program_fits (by decide) (by decide)
  have pages := loaded.childPages (by decide : 1 ≠ 2) small fits done
  refine ⟨made, state, next, isMade, ran, loaded, done, fun everything => ?_⟩
  have covered := loaded.covered pages everything
  rw [limit] at covered
  obtain ⟨addr, copied, isPage⟩ :=
    covered.data 4 (by decide) (.inl ⟨0x4000, by decide, by decide, by decide⟩)
  have loops : Loops (programMap 0x2800 0x4100) heapLinBase [0x1000] ([0x2800, 0x3800] ++ stackAddrs) :=
    program_loops (by decide)
  have member := (loops.copied_iff fits addr).mpr copied
  have others : ∀ addr ∈ [0x2800, 0x3800] ++ stackAddrs, addr / 4096 ≠ 4 := by decide
  exact others addr member isPage

end AempOS.Memory
