import AempOS.Memory.LinMapping

/-! The address spaces that `init_page_pte` makes: the pages of the kernel are
mapped to the first frames of memory, every other page is absent, and the other
address spaces are as they were. With three pages of the kernel to hand out the
call succeeds. -/

set_option autoImplicit false

namespace AempOS.Memory

open Lib

variable {state next mid : PageState} {dirs : List Nat}

/-! ## The loop over the pages of the kernel -/

/-- The first page of the kernel. -/
def kernelPage : Nat := kernelLinBase / 4096

/-- What `init_page_pte` enters for a page: the kernel's first pages lead to the
first frames. -/
def kernelEntry (page : Nat) : Option (Nat × Nat) :=
  if kernelPage ≤ page ∧ page < kernelPage + kernelSize / 4096 then
    some (4096 * (page - kernelPage), pgP + pgRww)
  else none

/-- The pages `n` to `n + count` of the kernel are set, and nothing else. -/
structure KernelMapped (dirs : List Nat) (dir n count : Nat) (state next : PageState) : Prop
    extends Keeps dirs state next where
  trusted : Trusted next.man
  absent : EmptyAbsent state dir → EmptyAbsent next dir
  dirWords : ∀ other ∈ dirs, other ≠ dir → ∀ j < 1024, next.word other j = state.word other j
  others : ∀ other ∈ dirs, other ≠ dir → ∀ page < 1048576, next.entry other page = state.entry other page
  set : ∀ page < 1048576, next.entry dir page =
    if kernelPage + n ≤ page ∧ page < kernelPage + n + count then kernelEntry page else state.entry dir page
  words : ∀ page, Content dirs state page → ∀ j < 1024, next.word page j = state.word page j

theorem kernelPage_mapped {current pid n : Nat} (held : Tables state dirs) (trusted : Trusted state.man)
    (alive : state.cr3 pid ≠ 0) (proper : Proper state (state.cr3 pid)) (inside : n < 2048)
    (done : state.linMappingPhy current (kernelLinBase + 4096 * n) (4096 * n) pid
      (pgP + pgUsu + pgRww) (pgP + pgRww) = some (next, 0)) :
    KernelMapped dirs (state.cr3 pid) n 1 state next := by
  have address : kernelLinBase + 4096 * n < 4294967296 := by
    unfold kernelLinBase
    omega
  have isPage : (kernelLinBase + 4096 * n) / 4096 = kernelPage + n := by
    unfold kernelPage kernelLinBase
    omega
  have notMax : 4096 * n ≠ failed := by
    unfold failed
    omega
  have member := held.cr3 pid alive
  obtain ⟨mid, table, mapped⟩ := linMappingPhy_mapped held (trusted 2) alive address (by decide) (by decide) done
  have keeps := mapped.keeps held member
  have low := mapped.low proper
  have other : ∀ dir ∈ dirs, ∀ page < 1048576, (dir, page) ≠ (state.cr3 pid, kernelPage + n) →
      next.entry dir page = state.entry dir page := by
    intro dir dirMember page bound apart
    rw [← isPage] at apart
    exact mapped.entry_other held member dirMember bound apart fun _ => low
  refine ⟨keeps, linMappingPhy_trusted held trusted alive address done (.inl rfl),
    mapped.emptyAbsent held member member,
    fun dir dirMember apart j bound => ?_, fun dir dirMember apart page bound => ?_, fun page bound => ?_,
    fun page content j bound => mapped.word_content held member content bound⟩
  · exact mapped.word_dir held member dirMember bound fun same => apart (Prod.mk.inj same).1
  · exact other dir dirMember page bound fun same => apart (Prod.mk.inj same).1
  · by_cases same : page = kernelPage + n
    · subst same
      have set := mapped.entry_set held member notMax
      rw [isPage, reads_makeEntry (by omega) (by decide) (by decide)] at set
      have kernel : kernelPage ≤ kernelPage + n ∧ kernelPage + n < kernelPage + kernelSize / 4096 := by
        unfold kernelSize
        omega
      rw [set, if_pos (by omega), kernelEntry, if_pos kernel, Nat.add_sub_cancel_left]
    · rw [if_neg (by omega)]
      exact other _ member page bound fun isSame => same (Prod.mk.inj isSame).2

theorem KernelMapped.trans {dir n first second : Nat} (left : KernelMapped dirs dir n first state mid)
    (right : KernelMapped dirs dir (n + first) second mid next) :
    KernelMapped dirs dir n (first + second) state next := by
  refine ⟨left.toKeeps.trans right.toKeeps, right.trusted, fun empty => right.absent (left.absent empty),
    fun other member apart j bound => ?_, fun other member apart page bound => ?_, fun page bound => ?_,
    fun page content j bound => ?_⟩
  · rw [right.dirWords other member apart j bound, left.dirWords other member apart j bound]
  · rw [right.others other member apart page bound, left.others other member apart page bound]
  · rw [right.set page bound, left.set page bound]
    by_cases inRight : kernelPage + (n + first) ≤ page ∧ page < kernelPage + (n + first) + second
    · rw [if_pos inRight, if_pos (by omega)]
    · rw [if_neg inRight]
      by_cases inLeft : kernelPage + n ≤ page ∧ page < kernelPage + n + first
      · rw [if_pos inLeft, if_pos (by omega)]
      · rw [if_neg inLeft, if_neg (by omega)]
  · rw [right.words page (left.toKeeps.content content) j bound, left.words page content j bound]

theorem mapKernel_mapped {current pid n count : Nat} (held : Tables state dirs)
    (trusted : Trusted state.man) (alive : state.cr3 pid ≠ 0) (proper : Proper state (state.cr3 pid))
    (inside : n + count ≤ 2048) (done : state.mapKernel current pid n count = some (next, 0)) :
    KernelMapped dirs (state.cr3 pid) n count state next := by
  induction count generalizing state n with
  | zero =>
      cases done
      refine ⟨.refl held, trusted, fun empty => empty, fun _ _ _ _ _ => rfl, fun _ _ _ _ _ => rfl, fun page bound => ?_, fun _ _ _ _ => rfl⟩
      rw [if_neg (by omega)]
  | succ count ih =>
      simp only [PageState.mapKernel, Option.bind_eq_bind, Option.bind_eq_some_iff] at done
      obtain ⟨⟨mid, result⟩, mapped, done⟩ := done
      simp only at done
      split at done
      next => cases done
      next zero =>
          obtain rfl : result = 0 := not_not.mp zero
          have first := kernelPage_mapped held trusted alive proper (by omega) mapped
          have cr3 := first.toKeeps.cr3
          have midProper := first.toKeeps.proper (held.cr3 pid alive) proper
          rw [← cr3] at alive midProper
          have rest := ih first.toKeeps.tables first.trusted alive midProper (by omega) done
          rw [cr3] at rest
          have whole := first.trans rest
          rwa [Nat.add_comm 1 count] at whole

/-! ## A new address space -/

/-- The process got the directory `dir`, made of fresh pages. -/
structure NewSpace (dirs : List Nat) (pid dir : Nat) (state next : PageState) : Prop where
  tables : Tables next (dir :: dirs)
  trusted : Trusted next.man
  fresh : FreePage state.man dir
  low : memStart ≤ dir
  cr3 : next.cr3 = Function.update state.cr3 pid dir
  heapLimit : next.heapLimit = state.heapLimit
  free : ∀ page, FreePage next.man page → FreePage state.man page
  proper : Proper next dir
  absent : EmptyAbsent next dir
  points : ∀ other ∈ dirs, ∀ i table, PointsTo next other i table →
    PointsTo state other i table ∨ memStart ≤ table ∧ FreePage state.man table
  dirWords : ∀ other ∈ dirs, ∀ j < 1024, next.word other j = state.word other j
  old : ∀ other ∈ dirs, ∀ page < 1048576, next.entry other page = state.entry other page
  new : ∀ page < 1048576, next.entry dir page = kernelEntry page
  content : ∀ page, Content dirs state page → Content (dir :: dirs) next page
  words : ∀ page, Content dirs state page → ∀ j < 1024, next.word page j = state.word page j

/-- The state in which the loop of `init_page_pte` starts. -/
def PageState.entered (state : PageState) (pid : Nat) (rest : Memman) (dir : Nat) : PageState :=
  { PageState.clearPage { state with man := rest } dir with cr3 := Function.update state.cr3 pid dir }

theorem entered_word (state : PageState) (pid : Nat) (rest : Memman) {dir page j : Nat}
    (aligned : dir % 4096 = 0) (pageAligned : page % 4096 = 0) (apart : page ≠ dir) (inside : j < 1024) :
    (state.entered pid rest dir).word page j = state.word page j :=
  word_clearPage_page { state with man := rest } aligned pageAligned apart inside

theorem entered_empty (state : PageState) (pid : Nat) (rest : Memman) (dir : Nat) {j : Nat}
    (inside : j < 1024) : (state.entered pid rest dir).word dir j = 0 :=
  word_clearPage_self { state with man := rest } dir inside

theorem initPagePte_eq {current pid : Nat} (fresh : Fresh state.man (alloc4k .kernel state.man)) :
    state.initPagePte current pid =
      (state.entered pid (alloc4k .kernel state.man).1 (alloc4k .kernel state.man).2).mapKernel
        current pid 0 2048 := by
  have notFailed : (memmanKalloc4k state.man).2 ≠ failed := fresh.notFailed
  have aligned : (memmanKalloc4k state.man).2 % 4096 = 0 := fresh.aligned
  unfold PageState.initPagePte
  simp only
  rw [if_neg notFailed, if_neg (by omega)]
  rfl

section

variable {rest : Memman} {pid dir : Nat} (held : Tables state dirs) (fresh : Fresh state.man (rest, dir))
  (low : memStart ≤ dir)

include held fresh low

theorem entered_tables : Tables (state.entered pid rest dir) (dir :: dirs) := by
  refine held.enter low fresh.aligned fresh.free fresh.taken fresh.others rfl
    (fun i inside => entered_empty state pid rest dir inside) fun other member i inside => ?_
  refine entered_word state pid rest fresh.aligned (held.aligned other member) (fun same => ?_) inside
  exact (held.free_outside fresh.free low).1 (same ▸ member)

theorem entered_points {other i table : Nat} (member : other ∈ dirs)
    (points : PointsTo (state.entered pid rest dir) other i table) : PointsTo state other i table := by
  have word : (state.entered pid rest dir).word other i = state.word other i :=
    entered_word state pid rest fresh.aligned (held.aligned other member)
      (fun same => (held.free_outside fresh.free low).1 (same ▸ member)) points.index
  exact ⟨points.index, word ▸ points.present, word ▸ points.base⟩

theorem entered_content {page : Nat} (content : Content dirs state page) :
    Content (dir :: dirs) (state.entered pid rest dir) page := by
  refine ⟨content.aligned, fun free => content.used (fresh.others page free), fun member => ?_,
    fun other member i points => ?_⟩
  · rcases List.mem_cons.mp member with rfl | old
    · exact content.used fresh.free
    · exact content.notDir old
  · rcases List.mem_cons.mp member with rfl | old
    · have present := points.present
      rw [entered_empty state pid rest other points.index] at present
      exact absurd present (by decide)
    · exact content.notTable other old i (entered_points held fresh low old points)

theorem entered_entry {other page : Nat} (member : other ∈ dirs) (inside : page < 1048576) :
    (state.entered pid rest dir).entry other page = state.entry other page := by
  obtain ⟨notDir, notTable⟩ := held.free_outside fresh.free low
  have dirIndex : page / 1024 < 1024 := by omega
  have pageIndex : page % 1024 < 1024 := by omega
  refine entry_same ?_ fun present => ?_
  · exact entered_word state pid rest fresh.aligned (held.aligned other member)
      (fun same => notDir (same ▸ member)) dirIndex
  · refine entered_word state pid rest fresh.aligned (pageBase_mod _) (fun same => ?_) pageIndex
    exact notTable other member _ ⟨dirIndex, present, same⟩

end

theorem initPagePte_space {current pid : Nat} (held : Tables state dirs) (trusted : Trusted state.man)
    (done : state.initPagePte current pid = some (next, 0)) :
    NewSpace dirs pid (alloc4k .kernel state.man).2 state next := by
  have notFailed : (alloc4k .kernel state.man).2 ≠ failed := by
    intro isFailed
    have isFailed : (memmanKalloc4k state.man).2 = failed := isFailed
    simp only [PageState.initPagePte, if_pos isFailed, Option.map_eq_some_iff] at done
    obtain ⟨_, _, wrong⟩ := done
    cases wrong
  obtain ⟨fresh, restTrusted⟩ := trusted.alloc .kernel notFailed
  have low := alloc4k_low notFailed
  rw [initPagePte_eq fresh] at done
  generalize alloc4k .kernel state.man = result at fresh restTrusted low done
  obtain ⟨rest, dir⟩ := result
  simp only at restTrusted low done ⊢
  have isDir : (state.entered pid rest dir).cr3 pid = dir := Function.update_self ..
  have tables : Tables (state.entered pid rest dir) (dir :: dirs) := entered_tables held fresh low
  have alive : (state.entered pid rest dir).cr3 pid ≠ 0 := by
    rw [isDir]
    unfold memStart at low
    omega
  have empty : ∀ i, ¬∃ table, PointsTo (state.entered pid rest dir) dir i table := by
    rintro i ⟨table, points⟩
    have present := points.present
    rw [entered_empty state pid rest dir points.index] at present
    exact absurd present (by decide)
  have proper : Proper (state.entered pid rest dir) ((state.entered pid rest dir).cr3 pid) := by
    intro i table points
    rw [isDir] at points
    exact absurd ⟨table, points⟩ (empty i)
  have mapped := mapKernel_mapped tables restTrusted alive proper (by decide) done
  rw [isDir] at mapped proper
  have notDir : ∀ other ∈ dirs, other ≠ dir := fun other member same =>
    (held.free_outside fresh.free low).1 (same ▸ member)
  refine ⟨mapped.toKeeps.tables, mapped.trusted, fresh.free, low, mapped.toKeeps.cr3, mapped.toKeeps.heapLimit,
    fun page free => fresh.others page (mapped.toKeeps.free page free),
    mapped.toKeeps.proper (by simp) proper,
    mapped.absent fun i inside _ => entered_empty state pid rest dir inside, fun other member i table points => ?_,
    fun other member j inside => ?_, fun other member page inside => ?_, fun page inside => ?_,
    fun page content => ?_, fun page content j inside => ?_⟩
  · rcases mapped.toKeeps.points other (List.mem_cons_of_mem _ member) i table points with before | ⟨tableLow, free⟩
    · exact .inl (entered_points held fresh low member before)
    · exact .inr ⟨tableLow, fresh.others table free⟩
  · rw [mapped.dirWords other (List.mem_cons_of_mem _ member) (notDir other member) j inside]
    exact entered_word state pid rest fresh.aligned (held.aligned other member) (notDir other member) inside
  · rw [mapped.others other (List.mem_cons_of_mem _ member) (notDir other member) page inside]
    exact entered_entry held fresh low member inside
  · have absent : ¬Present ((state.entered pid rest dir).word dir (page / 1024)) := fun present =>
      empty (page / 1024) ⟨_, by omega, present, rfl⟩
    rw [mapped.set page inside, entry_absent absent, kernelEntry]
    have : kernelSize / 4096 = 2048 := by decide
    rw [this]
    split
    next => rfl
    next outside => rw [if_neg (by omega)]
  · exact mapped.toKeeps.content (entered_content held fresh low content)
  · have apart : page ≠ dir := fun same => content.used (same ▸ fresh.free)
    rw [mapped.words page (entered_content held fresh low content) j inside]
    exact entered_word state pid rest fresh.aligned content.aligned apart inside

/-! ## Enough pages for a call -/

/-- The bounds of a pool. -/
def Pool.lo : Pool → Nat
  | .kernel => memStart
  | .user => uWall

def Pool.hi : Pool → Nat
  | .kernel => kWall
  | .user => memEnd

/-- An entry of the free list from which `count` pages of a pool can be cut. -/
def RoomIn (pool : Pool) (count : Nat) (man : Memman) : Prop :=
  count ≠ 0 → ∃ entry ∈ man.entries, pool.lo ≤ entry.addr ∧ entry.addr + 4096 * count < pool.hi ∧
    4096 * count ≤ entry.size

/-- There are so many pages of the kernel and so many of the user. -/
structure Room (kernel user : Nat) (man : Memman) : Prop where
  bound : ∀ entry ∈ man.entries, entry.stop ≤ memLimit
  kernel : RoomIn .kernel kernel man
  user : RoomIn .user user man

theorem RoomIn.le {pool : Pool} {count less : Nat} {man : Memman} (room : RoomIn pool count man)
    (fewer : less ≤ count) : RoomIn pool less man := by
  intro notZero
  obtain ⟨entry, member, low, high, fits⟩ := room (by omega)
  exact ⟨entry, member, low, by omega, by omega⟩

theorem Room.le {kernel user lessKernel lessUser : Nat} {man : Memman} (room : Room kernel user man)
    (fewerKernel : lessKernel ≤ kernel) (fewerUser : lessUser ≤ user) : Room lessKernel lessUser man :=
  ⟨room.bound, room.kernel.le fewerKernel, room.user.le fewerUser⟩

theorem alloc4k_eq (pool : Pool) (man : Memman) : alloc4k pool man = allocZone pool.lo pool.hi man 0x1000 := by
  cases pool with
  | kernel => rfl
  | user => rfl

theorem RoomIn.cut {pool : Pool} {count : Nat} {man : Memman} (room : RoomIn pool (count + 1) man)
    (bound : ∀ entry ∈ man.entries, entry.stop ≤ memLimit) :
    ∃ left found right, man.entries = left ++ found :: right ∧ pool.lo ≤ found.addr ∧
      found.addr + 0x1000 < pool.hi ∧ 0x1000 ≤ found.size ∧ (alloc4k pool man).2 = found.addr ∧
      (alloc4k pool man).1.entries = left ++ (if found.size = 0x1000 then []
        else [⟨found.addr + 0x1000, found.size - 0x1000⟩]) ++ right := by
  obtain ⟨entry, member, low, high, fits⟩ := room (by omega)
  rw [alloc4k_eq]
  obtain ⟨_, none⟩ | ⟨left, found, right, whole, _, ⟨foundLow, foundHigh, foundFits⟩, result, _, made⟩ :=
    allocZone_cases pool.lo pool.hi man 0x1000
  · have inside := bound entry member
    unfold Block.stop at inside
    have sum : add32 entry.addr 0x1000 = entry.addr + 0x1000 := add32_small (by omega)
    have shorter : entry.addr + 0x1000 ≤ entry.addr + 4096 * (count + 1) := by omega
    have below : add32 entry.addr 0x1000 < pool.hi := sum ▸ Nat.lt_of_le_of_lt shorter high
    have large : 0x1000 ≤ entry.size := by omega
    exact absurd ⟨low, below, large⟩ (none entry member)
  · have inside := bound found (by simp [whole])
    unfold Block.stop at inside
    rw [add32_small (by omega)] at foundHigh made
    rw [sub32_small foundFits (by omega)] at made
    refine ⟨left, found, right, whole, foundLow, foundHigh, foundFits, result, ?_⟩
    rw [made]
    by_cases whole : found.size = 0x1000
    · rw [if_pos whole, if_pos (by omega)]
    · rw [if_neg whole, if_neg (by omega)]

/-- A page of a pool is handed out: there is one page less in that pool, and as
much room as before in the other. -/
theorem RoomIn.alloc {pool : Pool} {count : Nat} {man : Memman} (room : RoomIn pool (count + 1) man)
    (bound : ∀ entry ∈ man.entries, entry.stop ≤ memLimit) :
    (alloc4k pool man).2 ≠ failed ∧ (∀ entry ∈ (alloc4k pool man).1.entries, entry.stop ≤ memLimit) ∧
      RoomIn pool count (alloc4k pool man).1 ∧
      ∀ other more, other ≠ pool → RoomIn other more man → RoomIn other more (alloc4k pool man).1 := by
  obtain ⟨left, found, right, whole, low, high, fits, result, made⟩ := room.cut bound
  have inside := bound found (by simp [whole])
  unfold Block.stop at inside
  have kept : ∀ entry ∈ man.entries, entry ≠ found → entry ∈ (alloc4k pool man).1.entries := by
    intro entry member differ
    simp only [whole, List.mem_append, List.mem_cons] at member
    simp only [made, List.mem_append]
    rcases member with inLeft | isFound | inRight
    · exact .inl (.inl inLeft)
    · exact absurd isFound differ
    · exact .inr inRight
  refine ⟨?_, fun entry member => ?_, fun notZero => ?_, fun other more differ otherRoom notZero => ?_⟩
  · rw [result]
    unfold failed
    unfold memLimit at inside
    omega
  · simp only [made, List.mem_append] at member
    rcases member with (inLeft | inCut) | inRight
    · exact bound entry (by simp [whole, inLeft])
    · split at inCut
      · cases inCut
      · obtain rfl := List.mem_singleton.mp inCut
        simp only [Block.stop]
        omega
    · exact bound entry (by simp [whole, inRight])
  · obtain ⟨entry, member, entryLow, entryHigh, entryFits⟩ := room (by omega)
    by_cases isFound : entry = found
    · subst isFound
      refine ⟨⟨entry.addr + 0x1000, entry.size - 0x1000⟩, ?_, ?_, ?_, ?_⟩
      · rw [made, if_neg (by omega)]
        simp
      · simp only
        omega
      · simp only
        omega
      · simp only
        omega
    · exact ⟨entry, kept entry member isFound, entryLow, by omega, by omega⟩
  · obtain ⟨entry, member, entryLow, entryHigh, entryFits⟩ := otherRoom notZero
    refine ⟨entry, kept entry member (fun isFound => ?_), entryLow, entryHigh, entryFits⟩
    subst isFound
    cases pool with
    | kernel =>
        cases other with
        | kernel => exact differ rfl
        | user => simp only [Pool.lo, Pool.hi, uWall, kWall] at *; omega
    | user =>
        cases other with
        | kernel => simp only [Pool.lo, Pool.hi, uWall, kWall] at *; omega
        | user => exact differ rfl

theorem Room.kernelPage {kernel user : Nat} {man : Memman} (room : Room (kernel + 1) user man) :
    (alloc4k .kernel man).2 ≠ failed ∧ Room kernel user (alloc4k .kernel man).1 := by
  obtain ⟨notFailed, bound, less, others⟩ := room.kernel.alloc room.bound
  exact ⟨notFailed, bound, less, others .user user (by decide) room.user⟩

theorem Room.userPage {kernel user : Nat} {man : Memman} (room : Room kernel (user + 1) man) :
    (alloc4k .user man).2 ≠ failed ∧ Room kernel user (alloc4k .user man).1 := by
  obtain ⟨notFailed, bound, less, others⟩ := room.user.alloc room.bound
  exact ⟨notFailed, bound, others .kernel kernel (by decide) room.kernel, less⟩

section

variable {current lin pid attr kernel user : Nat} (trusted : Trusted state.man)

include trusted

/-- The first half of `lin_mapping_phy` takes at most one page of the kernel. -/
theorem ensureTable_room (room : Room (kernel + 1) user state.man) :
    ∃ next table, state.ensureTable current lin pid attr = some (next, some table) ∧
      Room kernel user next.man := by
  obtain ⟨notFailed, less⟩ := room.kernelPage
  have aligned := (trusted.alloc .kernel notFailed).1.aligned
  have notFailed : (memmanKalloc4k state.man).2 ≠ failed := notFailed
  have aligned : (memmanKalloc4k state.man).2 % 4096 = 0 := aligned
  unfold PageState.ensureTable
  by_cases present : Present (state.pde pid lin)
  · rw [if_pos present]
    exact ⟨_, _, rfl, room.le (by omega) (Nat.le_refl _)⟩
  · rw [if_neg present]
    simp only
    rw [if_neg notFailed, if_neg (by omega)]
    exact ⟨_, _, rfl, less⟩

theorem linMappingPhy_room_set {phy pteAttr : Nat} (room : Room (kernel + 1) user state.man)
    (aligned : phy % 4096 = 0) :
    ∃ next, state.linMappingPhy current lin phy pid attr pteAttr = some (next, 0) ∧
      Room kernel user next.man := by
  obtain ⟨mid, table, ensured, less⟩ : ∃ mid table,
      state.ensureTable current lin pid attr = some (mid, some table) ∧ Room kernel user mid.man :=
    ensureTable_room trusted room
  have notMax : phy ≠ failed := by
    unfold failed
    omega
  simp only [PageState.linMappingPhy, ensured, Option.bind_eq_bind, Option.bind_some, PageState.mapPage,
    if_neg notMax]
  rw [if_neg (by omega)]
  exact ⟨_, rfl, less⟩

end

theorem linMappingPhy_present {current lin phy pid attr pteAttr : Nat} (aligned : phy % 4096 = 0)
    (present : Present (state.pde pid lin)) :
    ∃ next, state.linMappingPhy current lin phy pid attr pteAttr = some (next, 0) ∧ next.man = state.man := by
  have notMax : phy ≠ failed := by
    unfold failed
    omega
  simp only [PageState.linMappingPhy, PageState.ensureTable, if_pos present, Option.bind_eq_bind,
    Option.bind_some, PageState.mapPage, if_neg notMax]
  rw [if_neg (by omega)]
  exact ⟨_, rfl, rfl⟩

/-- A page of the user takes at most one page of either pool. -/
theorem linMappingPhy_room_max {current lin pid attr pteAttr kernel user : Nat} (held : Tables state dirs)
    (trusted : Trusted state.man) (alive : state.cr3 pid ≠ 0) (below : lin < kernelLinBase)
    (room : Room (kernel + 1) (user + 1) state.man) :
    ∃ next, state.linMappingPhy current lin failed pid attr pteAttr = some (next, 0) ∧
      Room kernel user next.man := by
  have address : lin < 4294967296 := by
    unfold kernelLinBase at below
    omega
  obtain ⟨mid, table, ensured, less⟩ : ∃ mid table,
      state.ensureTable current lin pid attr = some (mid, some table) ∧
        Room kernel (user + 1) mid.man := ensureTable_room trusted room
  have midTrusted : Trusted mid.man := fun n =>
    (ensureTable_linked held (trusted (n + 1)) alive address ensured).honest (trusted (n + 1))
  obtain ⟨notFailed, fewer⟩ := less.userPage
  have aligned := (midTrusted.alloc .user notFailed).1.aligned
  have isUser : mid.takeFrame lin = alloc4k .user mid.man := if_neg (by omega)
  simp only [PageState.linMappingPhy, ensured, Option.bind_eq_bind, Option.bind_some, PageState.mapPage,
    if_true, isUser]
  split
  next => exact ⟨_, rfl, less.le (Nat.le_refl _) (by omega)⟩
  next =>
      rw [if_neg (by omega)]
      exact ⟨_, rfl, fewer⟩

/-- The tables that the kernel's pages from `n` on still need. -/
def tablesFrom (n count : Nat) : Nat := (n + count + 1023) / 1024 - (n + 1023) / 1024

/-- The loop of `init_page_pte` needs one page for every table. -/
theorem mapKernel_returns {current pid n count kernel user : Nat} (held : Tables state dirs)
    (trusted : Trusted state.man) (alive : state.cr3 pid ≠ 0) (proper : Proper state (state.cr3 pid))
    (inside : n + count ≤ 2048)
    (started : n % 1024 ≠ 0 → Present (state.pde pid (kernelLinBase + 4096 * n)))
    (room : Room (kernel + tablesFrom n count) user state.man) :
    ∃ next, state.mapKernel current pid n count = some (next, 0) ∧ Room kernel user next.man := by
  induction count generalizing state n with
  | zero => exact ⟨state, rfl, room.le (by omega) (Nat.le_refl _)⟩
  | succ count ih =>
      obtain ⟨mid, mapped, midRoom⟩ : ∃ mid, state.linMappingPhy current (kernelLinBase + 4096 * n) (4096 * n)
          pid (pgP + pgUsu + pgRww) (pgP + pgRww) = some (mid, 0) ∧
          Room (kernel + tablesFrom (n + 1) count) user mid.man := by
        by_cases first : n % 1024 = 0
        · have one : kernel + tablesFrom n (count + 1) = kernel + tablesFrom (n + 1) count + 1 := by
            unfold tablesFrom
            omega
          rw [one] at room
          exact linMappingPhy_room_set trusted room (by omega)
        · have aligned : 4096 * n % 4096 = 0 := by omega
          obtain ⟨mid, mapped, man⟩ := linMappingPhy_present aligned (started first)
          refine ⟨mid, mapped, ?_⟩
          rw [man]
          refine room.le ?_ (Nat.le_refl _)
          unfold tablesFrom
          omega
      have space := kernelPage_mapped held trusted alive proper (by omega) mapped
      have cr3 := space.toKeeps.cr3
      have midProper := space.toKeeps.proper (held.cr3 pid alive) proper
      have midHeld := space.toKeeps.tables
      have midAlive : mid.cr3 pid ≠ 0 := by rwa [cr3]
      rw [← cr3] at midProper
      have midStarted : (n + 1) % 1024 ≠ 0 → Present (mid.pde pid (kernelLinBase + 4096 * (n + 1))) := by
        intro notFirst
        have set := space.set (kernelPage + n) (by unfold kernelPage kernelLinBase; omega)
        have kernelBound : kernelPage ≤ kernelPage + n ∧
            kernelPage + n < kernelPage + kernelSize / 4096 := by
          unfold kernelSize
          omega
        rw [if_pos (by omega), kernelEntry, if_pos kernelBound, ← cr3] at set
        obtain ⟨table, points, _⟩ := entry_some set (by unfold kernelPage kernelLinBase; omega)
        have present := points.present
        simp only [PageState.pde, midHeld.pdePhyAddr midAlive]
        have sameTable : pdeIndex (kernelLinBase + 4096 * (n + 1)) = (kernelPage + n) / 1024 := by
          unfold pdeIndex kernelPage kernelLinBase
          omega
        rw [sameTable]
        exact present
      obtain ⟨next, done, nextRoom⟩ := ih midHeld space.trusted midAlive midProper (by omega) midStarted midRoom
      refine ⟨next, ?_, nextRoom⟩
      simp only [PageState.mapKernel, mapped, Option.bind_eq_bind, Option.bind_some]
      exact done

theorem initPagePte_returns {current pid kernel user : Nat} (held : Tables state dirs)
    (trusted : Trusted state.man) (room : Room (kernel + 3) user state.man) :
    ∃ next, state.initPagePte current pid = some (next, 0) ∧ Room kernel user next.man := by
  obtain ⟨notFailed, less⟩ := room.kernelPage
  obtain ⟨fresh, restTrusted⟩ := trusted.alloc .kernel notFailed
  have low := alloc4k_low notFailed
  rw [initPagePte_eq fresh]
  generalize alloc4k .kernel state.man = result at fresh restTrusted low less ⊢
  obtain ⟨rest, dir⟩ := result
  simp only at restTrusted low less ⊢
  have tables : Tables (state.entered pid rest dir) (dir :: dirs) := entered_tables held fresh low
  have isDir : (state.entered pid rest dir).cr3 pid = dir := Function.update_self ..
  have alive : (state.entered pid rest dir).cr3 pid ≠ 0 := by
    rw [isDir]
    unfold memStart at low
    omega
  refine mapKernel_returns tables restTrusted alive (fun i table points => ?_) (by decide)
    (fun wrong => absurd rfl wrong) less
  have present := points.present
  rw [isDir, entered_empty state pid rest dir points.index] at present
  exact absurd present (by decide)

/-! ## The first address space -/

/-- The manager that `init` leaves when all of memory is good. -/
def cleanMan : Memman := init cleanTable clearedMemman

theorem cleanMan_trusted : Trusted cleanMan := by
  have loader : LoaderTable cleanTable := ⟨by decide, by decide, by decide, by decide⟩
  have start : (memSystem cleanTable clearedMemman).Reachable (initialMem cleanTable clearedMemman) :=
    .initial rfl
  exact (memSystem_stock loader start).trusted

theorem cleanMan_room : Room 500 4000 cleanMan := by
  refine ⟨by decide, fun _ => ?_, fun _ => ?_⟩
  · exact ⟨⟨0x00400000, 0x001FF000⟩, by decide, by decide, by decide, by decide⟩
  · exact ⟨⟨0x01000000, 0x01000000⟩, by decide, by decide, by decide, by decide⟩

/-- No process has a page directory yet. -/
def cleanPages : PageState where
  man := cleanMan
  mem _ := 0
  cr3 _ := 0
  heapLimit _ := heapLinBase
  cr2Save := 0
  cr2Count := 0

theorem cleanPages_tables : Tables cleanPages [] := by
  refine ⟨?_, ?_, ?_, fun pid alive => absurd rfl alive, ?_, ?_, ?_⟩ <;> simp

theorem cleanPages_space :
    ∃ made, cleanPages.initPagePte 1 1 = some (made, 0) ∧ Room 497 4000 made.man ∧
      NewSpace [] 1 0x00400000 cleanPages made := by
  obtain ⟨made, done, room⟩ : ∃ made, cleanPages.initPagePte 1 1 = some (made, 0) ∧ Room 497 4000 made.man :=
    initPagePte_returns cleanPages_tables cleanMan_trusted cleanMan_room
  have space := initPagePte_space cleanPages_tables cleanMan_trusted done
  have isDir : (alloc4k .kernel cleanPages.man).2 = 0x00400000 := by decide
  exact ⟨made, done, room, isDir ▸ space⟩

end AempOS.Memory
