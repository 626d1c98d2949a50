import AempOS.Memory.PageTableProperties

/-! The two levels of page tables read as one map from the pages of an address
space to frames. Page directories are known by their frames. The lemmas say what
a store to a directory or to a table does to that map, as long as no table
serves two directory entries and fresh pages are in nobody's use. -/

set_option autoImplicit false

namespace AempOS.Memory

open Lib Block

/-! ## Pages that the manager hands out -/

/-- The page starts in an entry of the free list. -/
def FreePage (man : Memman) (page : Nat) : Prop := ∃ entry ∈ man.entries, entry.Holds page

/-- A manager and the page it handed out: the page was free, is not free any
more, and nothing else became free. -/
structure Fresh (man : Memman) (result : Memman × Nat) : Prop where
  aligned : result.2 % 4096 = 0
  free : FreePage man result.2
  taken : ¬FreePage result.1 result.2
  others : ∀ page, FreePage result.1 page → FreePage man page

/-- Whose pages are taken. -/
inductive Pool where
  | kernel
  | user
  deriving DecidableEq

/-- `do_kmalloc_4k` and `do_malloc_4k`. -/
def alloc4k : Pool → Memman → Memman × Nat
  | .kernel, man => memmanKalloc4k man
  | .user, man => memmanAlloc4k man

/-- The next `n` pages that are asked for, of whichever pool, are there and are
fresh. -/
def Serves : Nat → Memman → Prop
  | 0, _ => True
  | n + 1, man => ∀ pool, Fresh man (alloc4k pool man) ∧ Serves n (alloc4k pool man).1

/-- The next `n` pages that are asked for are fresh, or there is none left. -/
def Honest : Nat → Memman → Prop
  | 0, _ => True
  | n + 1, man => ∀ pool, alloc4k pool man = (man, failed) ∨
      Fresh man (alloc4k pool man) ∧ Honest n (alloc4k pool man).1

/-- Whatever the manager will hand out is fresh. -/
def Trusted (man : Memman) : Prop := ∀ n, Honest n man

theorem Fresh.notFailed {man : Memman} {result : Memman × Nat} (fresh : Fresh man result) :
    result.2 ≠ failed := by
  have aligned := fresh.aligned
  unfold failed
  omega

theorem Serves.honest {n : Nat} {man : Memman} (serves : Serves n man) : Honest n man := by
  induction n generalizing man with
  | zero => trivial
  | succ n ih => exact fun pool => .inr ⟨(serves pool).1, ih (serves pool).2⟩

theorem Trusted.alloc {man : Memman} (trusted : Trusted man) (pool : Pool)
    (notFailed : (alloc4k pool man).2 ≠ failed) :
    Fresh man (alloc4k pool man) ∧ Trusted (alloc4k pool man).1 := by
  have honest : ∀ n, Fresh man (alloc4k pool man) ∧ Honest n (alloc4k pool man).1 := by
    intro n
    rcases trusted (n + 1) pool with same | fresh
    · exact absurd (by rw [same]) notFailed
    · exact fresh
  exact ⟨(honest 0).1, fun n => (honest n).2⟩

theorem alloc4k_zone (pool : Pool) (man : Memman) :
    ∃ lo hi, PageAllocator lo hi ∧ alloc4k pool man = allocZone lo hi man 0x1000 := by
  cases pool with
  | kernel => exact ⟨memStart, kWall, .inl ⟨rfl, rfl⟩, rfl⟩
  | user => exact ⟨uWall, memEnd, .inr ⟨rfl, rfl⟩, rfl⟩

theorem alloc4k_low {pool : Pool} {man : Memman} (notFailed : (alloc4k pool man).2 ≠ failed) :
    memStart ≤ (alloc4k pool man).2 := by
  obtain ⟨lo, hi, zone, isAlloc⟩ := alloc4k_zone pool man
  have above : memStart ≤ lo := by
    simp only [PageAllocator, memStart, uWall] at *
    omega
  rw [isAlloc] at notFailed ⊢
  obtain ⟨same, _⟩ | ⟨_, entry, _, _, _, fits, result, _⟩ := allocZone_cases lo hi man 0x1000
  · exact absurd (by rw [same]) notFailed
  · exact result ▸ Nat.le_trans above fits.1

theorem Stock.fresh {domain : Nat → Prop} {man : Memman} {live : List FreeInfo}
    (stock : Stock domain man live) (pool : Pool) :
    alloc4k pool man = (man, failed) ∨
      Fresh man (alloc4k pool man) ∧ ∃ rest, Stock domain (alloc4k pool man).1 rest := by
  obtain ⟨lo, hi, zone, isAlloc⟩ := alloc4k_zone pool man
  rw [isAlloc]
  obtain same | ⟨rest, page, result, notFailed, _, aligned, stocked⟩ := stock.alloc zone
  · exact .inl same
  · obtain ⟨same, _⟩ | ⟨left, entry, right, whole, _, fits, isPage, _, made⟩ :=
      allocZone_cases lo hi man 0x1000
    · exact absurd (congrArg Prod.snd (result.symm.trans same)) notFailed
    · rw [result] at isPage made ⊢
      have bound := stock.booked.freeBound entry (by simp [whole])
      obtain ⟨low, high, fitting⟩ := fits
      unfold stop at bound
      rw [add32_small (by unfold memLimit at *; omega), sub32_small fitting (by omega)] at made
      refine .inr ⟨⟨aligned, ⟨entry, by simp [whole], ?_⟩, ?_, ?_⟩, _, stocked⟩
      · simp only at isPage ⊢
        simp only [Block.Holds, stop]
        omega
      · rintro ⟨other, member, holds⟩
        have apart := stocked.booked.separate other member ⟨page, 4096⟩ (by simp)
        simp only [Apart, Block.Holds, stop] at apart holds
        omega
      · rintro other ⟨free, member, holds⟩
        simp only [made, List.mem_append] at member
        rcases member with (inLeft | inCut) | inRight
        · exact ⟨free, by simp [whole, inLeft], holds⟩
        · split at inCut
          · cases inCut
          · obtain rfl := List.mem_singleton.mp inCut
            refine ⟨entry, by simp [whole], ?_⟩
            simp only [Block.Holds, stop] at holds ⊢
            omega
        · exact ⟨free, by simp [whole, inRight], holds⟩

theorem Stock.trusted {domain : Nat → Prop} {man : Memman} {live : List FreeInfo}
    (stock : Stock domain man live) : Trusted man := by
  intro n
  induction n generalizing man live with
  | zero => trivial
  | succ n ih =>
      intro pool
      rcases stock.fresh pool with same | ⟨fresh, rest, stocked⟩
      · exact .inl same
      · exact .inr ⟨fresh, ih stocked⟩

/-! ## Directories and tables -/

namespace PageState

/-- Word `i` of a page. -/
def word (state : PageState) (page i : Nat) : Nat := state.mem (page + 4 * i)

/-- The frame and the attributes of a page of an address space, if it is present. -/
def entry (state : PageState) (dir page : Nat) : Option (Nat × Nat) :=
  let table := pageBase (state.word dir (page / 1024))
  if Present (state.word dir (page / 1024)) ∧ Present (state.word table (page % 1024)) then
    some (pageBase (state.word table (page % 1024)), state.word table (page % 1024) % 4096)
  else none

end PageState

/-- Entry `i` of a directory is present and leads to a table. -/
structure PointsTo (state : PageState) (dir i table : Nat) : Prop where
  index : i < 1024
  present : Present (state.word dir i)
  base : pageBase (state.word dir i) = table

/-- Directories and tables are pages in use, and a table from the pool of pages
serves one directory entry. Tables below the pool are only made by page faults. -/
structure Tables (state : PageState) (dirs : List Nat) : Prop where
  low : ∀ dir ∈ dirs, memStart ≤ dir
  aligned : ∀ dir ∈ dirs, dir % 4096 = 0
  used : ∀ dir ∈ dirs, ¬FreePage state.man dir
  cr3 : ∀ pid, state.cr3 pid ≠ 0 → state.cr3 pid ∈ dirs
  outside : ∀ dir ∈ dirs, ∀ i table, PointsTo state dir i table → table ∉ dirs
  held : ∀ dir ∈ dirs, ∀ i table, PointsTo state dir i table → memStart ≤ table →
    ¬FreePage state.man table
  unique : ∀ dir ∈ dirs, ∀ other ∈ dirs, ∀ i j table, memStart ≤ table →
    PointsTo state dir i table → PointsTo state other j table → dir = other ∧ i = j

variable {state next : PageState} {dirs : List Nat}

theorem PointsTo.aligned {dir i table : Nat} (points : PointsTo state dir i table) :
    table % 4096 = 0 :=
  points.base ▸ pageBase_mod _

theorem Tables.pdePhyAddr (held : Tables state dirs) {pid : Nat} (alive : state.cr3 pid ≠ 0) :
    state.pdePhyAddr pid = state.cr3 pid := by
  have aligned := held.aligned _ (held.cr3 pid alive)
  unfold PageState.pdePhyAddr pageBase
  omega

/-- The directories are as they were, and no page of theirs was released. -/
theorem Tables.same (held : Tables state dirs)
    (words : ∀ dir ∈ dirs, ∀ i < 1024, next.word dir i = state.word dir i)
    (cr3 : next.cr3 = state.cr3) (free : ∀ page, FreePage next.man page → FreePage state.man page) :
    Tables next dirs := by
  have points : ∀ dir ∈ dirs, ∀ i table, PointsTo next dir i table → PointsTo state dir i table := by
    intro dir member i table points
    have word := words dir member i points.index
    exact ⟨points.index, word ▸ points.present, word ▸ points.base⟩
  refine ⟨held.low, held.aligned, fun dir member isFree => held.used dir member (free dir isFree),
    fun pid alive => ?_, fun dir member i table has => held.outside dir member i table (points dir member i table has),
    fun dir member i table has low isFree => ?_, fun dir member other otherMember i j table low left right => ?_⟩
  · rw [cr3] at alive ⊢
    exact held.cr3 pid alive
  · exact held.held dir member i table (points dir member i table has) low (free table isFree)
  · exact held.unique dir member other otherMember i j table low (points dir member i table left)
      (points other otherMember j table right)

theorem Tables.free_outside (held : Tables state dirs) {page : Nat} (free : FreePage state.man page)
    (low : memStart ≤ page) :
    page ∉ dirs ∧ ∀ dir ∈ dirs, ∀ i, ¬PointsTo state dir i page :=
  ⟨fun member => held.used page member free,
    fun dir member i points => held.held dir member i page points low free⟩

/-- One entry of a directory changes, to one that leads to a fresh page or is not
present. -/
theorem Tables.link (held : Tables state dirs) {dir i page : Nat}
    (low : memStart ≤ page) (wasFree : FreePage state.man page) (taken : ¬FreePage next.man page)
    (free : ∀ page, FreePage next.man page → FreePage state.man page)
    (cr3 : next.cr3 = state.cr3) (base : pageBase (next.word dir i) = page)
    (words : ∀ other ∈ dirs, ∀ j < 1024, (other, j) ≠ (dir, i) →
      next.word other j = state.word other j) : Tables next dirs := by
  obtain ⟨notDir, notTable⟩ := held.free_outside wasFree low
  have points : ∀ other ∈ dirs, ∀ j table, PointsTo next other j table →
      PointsTo state other j table ∨ (other, j) = (dir, i) ∧ table = page := by
    intro other member j table points
    by_cases same : (other, j) = (dir, i)
    · cases same
      exact .inr ⟨rfl, points.base.symm.trans base⟩
    · have word := words other member j points.index same
      exact .inl ⟨points.index, word ▸ points.present, word ▸ points.base⟩
  refine ⟨held.low, held.aligned, fun other member isFree => held.used other member (free other isFree),
    fun pid alive => ?_, fun other member j table has => ?_, fun other member j table has low isFree => ?_,
    fun left leftMember right rightMember j k table low leftHas rightHas => ?_⟩
  · rw [cr3] at alive ⊢
    exact held.cr3 pid alive
  · rcases points other member j table has with before | ⟨_, rfl⟩
    · exact held.outside other member j table before
    · exact notDir
  · rcases points other member j table has with before | ⟨_, rfl⟩
    · exact held.held other member j table before low (free table isFree)
    · exact taken isFree
  · rcases points left leftMember j table leftHas with before | ⟨isLeft, rfl⟩
    · rcases points right rightMember k table rightHas with beforeRight | ⟨_, rfl⟩
      · exact held.unique left leftMember right rightMember j k table low before beforeRight
      · exact absurd before (notTable left leftMember j)
    · rcases points right rightMember k table rightHas with beforeRight | ⟨isRight, _⟩
      · exact absurd beforeRight (notTable right rightMember k)
      · exact Prod.mk.inj (isLeft.trans isRight.symm)

/-- A fresh page without present entries becomes the directory of a process. -/
theorem Tables.enter (held : Tables state dirs) {pid page : Nat} (low : memStart ≤ page)
    (aligned : page % 4096 = 0) (wasFree : FreePage state.man page) (taken : ¬FreePage next.man page)
    (free : ∀ page, FreePage next.man page → FreePage state.man page)
    (cr3 : next.cr3 = Function.update state.cr3 pid page)
    (empty : ∀ i < 1024, next.word page i = 0)
    (words : ∀ dir ∈ dirs, ∀ i < 1024, next.word dir i = state.word dir i) :
    Tables next (page :: dirs) := by
  obtain ⟨notDir, notTable⟩ := held.free_outside wasFree low
  have points : ∀ dir ∈ page :: dirs, ∀ i table, PointsTo next dir i table →
      dir ∈ dirs ∧ PointsTo state dir i table := by
    intro dir member i table points
    rcases List.mem_cons.mp member with rfl | old
    · have present := points.present
      rw [empty i points.index] at present
      exact absurd present (by decide)
    · have word := words dir old i points.index
      exact ⟨old, points.index, word ▸ points.present, word ▸ points.base⟩
  refine ⟨?_, ?_, ?_, fun p alive => ?_, fun dir member i table has inside => ?_,
    fun dir member i table has low isFree => ?_,
    fun dir member other otherMember i j table low left right => ?_⟩
  · simpa using ⟨low, held.low⟩
  · simpa using ⟨aligned, held.aligned⟩
  · simpa using ⟨taken, fun dir member isFree => held.used dir member (free dir isFree)⟩
  · rw [cr3] at alive ⊢
    by_cases same : p = pid
    · subst same
      simp
    · rw [Function.update_of_ne same] at alive ⊢
      exact List.mem_cons_of_mem _ (held.cr3 p alive)
  · obtain ⟨old, before⟩ := points dir member i table has
    rcases List.mem_cons.mp inside with rfl | inDirs
    · exact notTable dir old i before
    · exact held.outside dir old i table before inDirs
  · obtain ⟨old, before⟩ := points dir member i table has
    exact held.held dir old i table before low (free table isFree)
  · obtain ⟨old, before⟩ := points dir member i table left
    obtain ⟨otherOld, otherBefore⟩ := points other otherMember j table right
    exact held.unique dir old other otherOld i j table low before otherBefore

/-! ## The map that the tables describe -/

/-- An entry is read from one word of the directory and one of the table. -/
theorem entry_same {dir page : Nat}
    (dirWord : next.word dir (page / 1024) = state.word dir (page / 1024))
    (tableWord : Present (state.word dir (page / 1024)) →
      next.word (pageBase (state.word dir (page / 1024))) (page % 1024) =
        state.word (pageBase (state.word dir (page / 1024))) (page % 1024)) :
    next.entry dir page = state.entry dir page := by
  by_cases present : Present (state.word dir (page / 1024))
  · simp only [PageState.entry, dirWord, tableWord present]
  · simp [PageState.entry, dirWord, present]

/-- The words that `entry` reads. -/
theorem entry_eq {dir page table : Nat} (points : PointsTo state dir (page / 1024) table) :
    state.entry dir page =
      if Present (state.word table (page % 1024)) then
        some (pageBase (state.word table (page % 1024)), state.word table (page % 1024) % 4096)
      else none := by
  simp [PageState.entry, points.base, points.present]

theorem entry_absent {dir page : Nat} (absent : ¬Present (state.word dir (page / 1024))) :
    state.entry dir page = none := by
  simp [PageState.entry, absent]

theorem entry_some {dir page : Nat} {mapped : Nat × Nat} (found : state.entry dir page = some mapped)
    (inside : page < 1048576) :
    ∃ table, PointsTo state dir (page / 1024) table ∧ Present (state.word table (page % 1024)) ∧
      mapped = (pageBase (state.word table (page % 1024)), state.word table (page % 1024) % 4096) := by
  simp only [PageState.entry] at found
  split at found
  next both => exact ⟨_, ⟨by omega, both.1, rfl⟩, both.2, (Option.some.inj found).symm⟩
  next => cases found

theorem word_write_self (state : PageState) (page i w : Nat) :
    (state.write (page + 4 * i) w).word page i = w := by
  simp [PageState.word, PageState.write]

theorem word_write_index (state : PageState) (page : Nat) {i j : Nat} (w : Nat) (apart : j ≠ i) :
    (state.write (page + 4 * i) w).word page j = state.word page j := by
  simp only [PageState.word, PageState.write]
  exact Function.update_of_ne (by omega) _ _

theorem word_write_page (state : PageState) {page other i j : Nat} (w : Nat)
    (pageAligned : page % 4096 = 0) (otherAligned : other % 4096 = 0) (apart : other ≠ page)
    (index : i < 1024) (otherIndex : j < 1024) :
    (state.write (page + 4 * i) w).word other j = state.word other j := by
  simp only [PageState.word, PageState.write]
  exact Function.update_of_ne (words_apart otherAligned pageAligned apart otherIndex index) _ _

theorem word_clearPage_self (state : PageState) (page : Nat) {i : Nat} (index : i < 1024) :
    (state.clearPage page).word page i = 0 :=
  clearPage_empty state page index

theorem word_clearPage_page (state : PageState) {page other i : Nat} (pageAligned : page % 4096 = 0)
    (otherAligned : other % 4096 = 0) (apart : other ≠ page) (index : i < 1024) :
    (state.clearPage page).word other i = state.word other i := by
  simp only [PageState.word, PageState.clearPage]
  exact if_neg (by omega)

/-- What a present entry of a table means. -/
def Reads (w : Nat) : Option (Nat × Nat) :=
  if Present w then some (pageBase w, w % 4096) else none

theorem reads_makeEntry {base attr : Nat} (aligned : base % 4096 = 0) (small : attr < 4096)
    (present : attr % 2 = 1) : Reads (makeEntry base attr) = some (base, attr) := by
  have isBase := pageBase_makeEntry aligned small
  rw [Reads, if_pos (present_makeEntry.mpr present), isBase]
  unfold makeEntry pageBase
  have : (base / 4096 * 4096 + attr) % 4096 = attr := by omega
  rw [this]

theorem Tables.set (held : Tables state dirs) {table j w : Nat} (aligned : table % 4096 = 0)
    (notDir : table ∉ dirs) (index : j < 1024) : Tables (state.write (table + 4 * j) w) dirs := by
  refine held.same (fun dir member i inside => ?_) rfl fun _ free => free
  have apart : dir ≠ table := fun same => notDir (same ▸ member)
  exact word_write_page state w aligned (held.aligned dir member) apart index inside

/-- A store to a table sets the pages that it serves. -/
theorem Tables.entry_set (held : Tables state dirs) {dir page table w : Nat} (member : dir ∈ dirs)
    (points : PointsTo state dir (page / 1024) table) :
    (state.write (table + 4 * (page % 1024)) w).entry dir page = Reads w := by
  have index : page % 1024 < 1024 := by omega
  have notDir := held.outside dir member _ table points
  have word : (state.write (table + 4 * (page % 1024)) w).word dir (page / 1024) =
      state.word dir (page / 1024) :=
    word_write_page state w points.aligned (held.aligned dir member)
      (fun same => notDir (same ▸ member)) index points.index
  have stillPoints : PointsTo (state.write (table + 4 * (page % 1024)) w) dir (page / 1024) table :=
    ⟨points.index, word ▸ points.present, word ▸ points.base⟩
  rw [entry_eq stillPoints, word_write_self]
  rfl

/-- A store to a table keeps the pages that it does not serve. -/
theorem Tables.entry_set_other (held : Tables state dirs) {dir page table j w : Nat}
    (member : dir ∈ dirs) (aligned : table % 4096 = 0) (notDir : table ∉ dirs) (index : j < 1024)
    (inside : page < 1048576)
    (apart : PointsTo state dir (page / 1024) table → page % 1024 ≠ j) :
    (state.write (table + 4 * j) w).entry dir page = state.entry dir page := by
  have dirIndex : page / 1024 < 1024 := by omega
  have pageIndex : page % 1024 < 1024 := by omega
  refine entry_same ?_ fun present => ?_
  · exact word_write_page state w aligned (held.aligned dir member)
      (fun same => notDir (same ▸ member)) index dirIndex
  · by_cases same : pageBase (state.word dir (page / 1024)) = table
    · rw [same]
      exact word_write_index state table w (apart ⟨dirIndex, present, same⟩)
    · exact word_write_page state w aligned (pageBase_mod _) same index pageIndex

end AempOS.Memory
