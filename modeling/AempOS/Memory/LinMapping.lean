import AempOS.Memory.PageMap

/-! What `lin_mapping_phy` does to the map of the pages: its first half may add an
empty table, which changes nothing in the map, and its second half sets one
page. -/

set_option autoImplicit false

namespace AempOS.Memory

open Lib

variable {state next mid : PageState} {dirs : List Nat}

theorem Honest.pred {n : Nat} {man : Memman} (honest : Honest (n + 1) man) : Honest n man := by
  induction n generalizing man with
  | zero => trivial
  | succ n ih =>
      intro pool
      rcases honest pool with same | ⟨fresh, rest⟩
      · exact .inl same
      · exact .inr ⟨fresh, ih rest⟩

theorem Serves.pred {n : Nat} {man : Memman} (serves : Serves (n + 1) man) : Serves n man := by
  induction n generalizing man with
  | zero => trivial
  | succ n ih => exact fun pool => ⟨(serves pool).1, ih (serves pool).2⟩

/-! ## The first half -/

/-- The table behind entry `i` of a directory is there, or is made of a fresh
page. -/
inductive Linked (state : PageState) (dir i attr : Nat) : PageState → Nat → Prop where
  | found {table : Nat} : PointsTo state dir i table → Linked state dir i attr state table
  | made {rest : Memman} {page : Nat} : ¬Present (state.word dir i) →
      alloc4k .kernel state.man = (rest, page) → Fresh state.man (rest, page) → memStart ≤ page →
      Linked state dir i attr
        ((PageState.clearPage { state with man := rest } page).write (dir + 4 * i) (makeEntry page attr))
        page

theorem ensureTable_linked {n current lin pid attr table : Nat} (held : Tables state dirs)
    (honest : Honest (n + 1) state.man) (alive : state.cr3 pid ≠ 0) (address : lin < 4294967296)
    (ensured : state.ensureTable current lin pid attr = some (next, some table)) :
    Linked state (state.cr3 pid) (pdeIndex lin) attr next table := by
  have isDir := held.pdePhyAddr alive
  unfold PageState.ensureTable at ensured
  split at ensured
  next present =>
      cases ensured
      simp only [PageState.pde, isDir] at present
      refine .found ⟨pdeIndex_lt address, present, ?_⟩
      simp only [PageState.ptePhyAddr, PageState.pde, isDir]
      rfl
  next absent =>
      simp only [PageState.pde, isDir] at absent ensured
      split at ensured
      next =>
          simp only [Option.map_eq_some_iff] at ensured
          obtain ⟨_, _, wrong⟩ := ensured
          cases wrong
      next notFailed =>
          split at ensured
          next => cases ensured
          next =>
              cases ensured
              obtain same | ⟨fresh, _⟩ := honest .kernel
              · exact absurd (congrArg Prod.snd same) notFailed
              · have low : memStart ≤ (alloc4k .kernel state.man).2 := alloc4k_low fresh.notFailed
                exact .made absent rfl fresh low

/-- With a page to hand out the first half finds or makes a table. -/
theorem ensureTable_returns {current lin pid attr : Nat} (fresh : Fresh state.man (alloc4k .kernel state.man)) :
    ∃ next table, state.ensureTable current lin pid attr = some (next, some table) := by
  unfold PageState.ensureTable
  by_cases present : Present (state.pde pid lin)
  · exact ⟨_, _, if_pos present⟩
  · have notFailed : (memmanKalloc4k state.man).2 ≠ failed := fresh.notFailed
    have aligned : (memmanKalloc4k state.man).2 % 4096 = 0 := fresh.aligned
    rw [if_neg present]
    simp only
    rw [if_neg notFailed, if_neg (by omega)]
    exact ⟨_, _, rfl⟩

namespace Linked

variable {dir i attr table : Nat}

theorem cr3 (linked : Linked state dir i attr next table) : next.cr3 = state.cr3 := by
  cases linked with
  | found => rfl
  | made => rfl

theorem heapLimit (linked : Linked state dir i attr next table) : next.heapLimit = state.heapLimit := by
  cases linked with
  | found => rfl
  | made => rfl

theorem free (linked : Linked state dir i attr next table) {page : Nat} (free : FreePage next.man page) :
    FreePage state.man page := by
  cases linked with
  | found => exact free
  | made _ _ fresh _ => exact fresh.others page free

theorem honest {n : Nat} (linked : Linked state dir i attr next table)
    (honest : Honest (n + 1) state.man) : Honest n next.man := by
  cases linked with
  | found => exact honest.pred
  | made _ result fresh _ =>
      rcases honest .kernel with same | ⟨_, rest⟩
      · exact absurd (congrArg Prod.snd (result.symm.trans same)) fresh.notFailed
      · rw [result] at rest
        exact rest

theorem serves {n : Nat} (linked : Linked state dir i attr next table)
    (serves : Serves (n + 1) state.man) : Serves n next.man := by
  cases linked with
  | found => exact serves.pred
  | made _ result _ _ =>
      have rest := (serves .kernel).2
      rw [result] at rest
      exact rest

theorem aligned (linked : Linked state dir i attr next table) : table % 4096 = 0 := by
  cases linked with
  | found points => exact points.aligned
  | made _ _ fresh _ => exact fresh.aligned

theorem base (linked : Linked state dir i attr next table) (small : attr < 4096) :
    pageBase (next.word dir i) = table := by
  cases linked with
  | found points => exact points.base
  | made _ _ fresh _ =>
      rw [word_write_self]
      exact pageBase_makeEntry fresh.aligned small

/-- An attribute with `PG_P` makes the table serve the entry. -/
theorem points (linked : Linked state dir i attr next table) (index : i < 1024) (small : attr < 4096)
    (present : attr % 2 = 1) : PointsTo next dir i table := by
  refine ⟨index, ?_, linked.base small⟩
  cases linked with
  | found points => exact points.present
  | made _ _ fresh _ =>
      rw [word_write_self]
      exact present_makeEntry.mpr present

section

variable (held : Tables state dirs) (member : dir ∈ dirs) (index : i < 1024)

include held member

theorem notDir (linked : Linked state dir i attr next table) : table ∉ dirs := by
  cases linked with
  | found points => exact held.outside dir member i table points
  | made _ _ fresh low => exact (held.free_outside fresh.free low).1

include index

/-- Pages in use other than the directory keep their words. -/
theorem word_used (linked : Linked state dir i attr next table) {page j : Nat}
    (pageAligned : page % 4096 = 0) (apart : page ≠ dir) (used : ¬FreePage state.man page)
    (inside : j < 1024) : next.word page j = state.word page j := by
  cases linked with
  | found => rfl
  | made _ _ fresh _ =>
      have notTable : page ≠ table := fun same => used (same ▸ fresh.free)
      rw [word_write_page _ _ (held.aligned dir member) pageAligned apart index inside,
        word_clearPage_page _ fresh.aligned pageAligned notTable inside]
      rfl

theorem word_dir (linked : Linked state dir i attr next table) {other j : Nat}
    (otherMember : other ∈ dirs) (inside : j < 1024) (apart : (other, j) ≠ (dir, i)) :
    next.word other j = state.word other j := by
  cases linked with
  | found => rfl
  | @made rest _ _ _ fresh low =>
      have notTable : other ≠ table := fun same =>
        (held.free_outside fresh.free low).1 (same ▸ otherMember)
      have cleared := word_clearPage_page { state with man := rest } fresh.aligned
        (held.aligned other otherMember) notTable inside
      by_cases same : other = dir
      · subst same
        have : j ≠ i := fun sameIndex => apart (by rw [sameIndex])
        rw [word_write_index _ _ _ this, cleared]
        rfl
      · rw [word_write_page _ _ (held.aligned dir member) (held.aligned other otherMember) same index inside,
          cleared]
        rfl

theorem tables (linked : Linked state dir i attr next table) (small : attr < 4096) :
    Tables next dirs := by
  have base := linked.base small
  have cr3 := linked.cr3
  have free : ∀ page, FreePage next.man page → FreePage state.man page := fun page => linked.free
  have words : ∀ other ∈ dirs, ∀ j < 1024, (other, j) ≠ (dir, i) →
      next.word other j = state.word other j :=
    fun other otherMember j inside apart => linked.word_dir held member index otherMember inside apart
  cases linked with
  | found => exact held
  | made _ _ fresh low => exact held.link low fresh.free fresh.taken free cr3 base words

/-- An empty table adds no page. -/
theorem entry (linked : Linked state dir i attr next table) (small : attr < 4096) {other page : Nat}
    (otherMember : other ∈ dirs) (inside : page < 1048576) :
    next.entry other page = state.entry other page := by
  have base := linked.base small
  have word_dir : ∀ j < 1024, (other, j) ≠ (dir, i) → next.word other j = state.word other j :=
    fun j inside apart => linked.word_dir held member index otherMember inside apart
  cases linked with
  | found => rfl
  | @made rest _ absent _ fresh low =>
      have dirIndex : page / 1024 < 1024 := by omega
      have pageIndex : page % 1024 < 1024 := by omega
      obtain ⟨_, notTable⟩ := held.free_outside fresh.free low
      have notDir : table ≠ dir := fun same => (held.free_outside fresh.free low).1 (same ▸ member)
      by_cases same : (other, page / 1024) = (dir, i)
      · obtain ⟨rfl, rfl⟩ := Prod.mk.inj same
        rw [entry_absent absent]
        have empty : ¬Present (PageState.word ((PageState.clearPage { state with man := rest } table).write
            (other + 4 * (page / 1024)) (makeEntry table attr)) table (page % 1024)) := by
          rw [word_write_page _ _ (held.aligned other member) fresh.aligned notDir index pageIndex,
            word_clearPage_self _ _ pageIndex]
          decide
        simp only [PageState.entry]
        rw [base, if_neg fun both => empty both.2]
      · refine entry_same (word_dir _ dirIndex same) fun present => ?_
        have points : PointsTo state other (page / 1024) (pageBase (state.word other (page / 1024))) :=
          ⟨dirIndex, present, rfl⟩
        have notDirTable : pageBase (state.word other (page / 1024)) ≠ dir :=
          fun same => held.outside other otherMember _ _ points (same ▸ member)
        have notNew : pageBase (state.word other (page / 1024)) ≠ table :=
          fun same => notTable other otherMember _ (same ▸ points)
        rw [word_write_page _ _ (held.aligned dir member) (pageBase_mod _) notDirTable index pageIndex,
          word_clearPage_page _ fresh.aligned (pageBase_mod _) notNew pageIndex]
        rfl

end

end Linked

/-! ## The second half -/

/-- The entry for an address in a table is kept, set to a fresh frame, or set to
the frame that was asked for. -/
inductive Placed (state : PageState) (lin phy table attr : Nat) : PageState → Prop where
  | kept : phy = failed → Present (state.word table (pteIndex lin)) → Placed state lin phy table attr state
  | fresh {rest : Memman} {frame : Nat} : phy = failed → ¬Present (state.word table (pteIndex lin)) →
      state.takeFrame lin = (rest, frame) → Fresh state.man (rest, frame) → memStart ≤ frame →
      Placed state lin phy table attr
        (PageState.write { state with man := rest } (table + 4 * pteIndex lin) (makeEntry frame attr))
  | set : phy ≠ failed → Placed state lin phy table attr
        (state.write (table + 4 * pteIndex lin) (makeEntry phy attr))

theorem takeFrame_pool (state : PageState) (lin : Nat) :
    ∃ pool, state.takeFrame lin = alloc4k pool state.man := by
  unfold PageState.takeFrame
  split
  · exact ⟨.kernel, rfl⟩
  · exact ⟨.user, rfl⟩

/-- The second half returns `0`, or leaves the state as it is. -/
theorem mapPage_placed {n lin phy table attr : Nat} (honest : Honest (n + 1) state.man) :
    Placed state lin phy table attr (state.mapPage lin phy table attr).1 ∧
        (state.mapPage lin phy table attr).2 = 0 ∨
      (state.mapPage lin phy table attr).1 = state ∧ (state.mapPage lin phy table attr).2 = -1 := by
  obtain ⟨pool, isAlloc⟩ := takeFrame_pool state lin
  unfold PageState.mapPage
  split
  next isMax =>
      split
      next present => exact .inl ⟨.kept isMax present, rfl⟩
      next absent =>
          simp only
          obtain same | ⟨fresh, _⟩ := honest pool
          · have odd : failed % 1024 ≠ 0 := by decide
            rw [isAlloc, same, if_pos odd]
            exact .inr ⟨rfl, rfl⟩
          · have aligned := fresh.aligned
            have low := alloc4k_low fresh.notFailed
            rw [← isAlloc] at fresh aligned low
            rw [if_neg (by omega)]
            exact .inl ⟨.fresh isMax absent rfl fresh low, rfl⟩
  next notMax =>
      split
      next => exact .inr ⟨rfl, rfl⟩
      next => exact .inl ⟨.set notMax, rfl⟩

theorem mapPage_returns {lin phy table attr : Nat} (serves : Serves 1 state.man)
    (asked : phy = failed ∨ phy % 4096 = 0) : (state.mapPage lin phy table attr).2 = 0 := by
  obtain ⟨pool, isAlloc⟩ := takeFrame_pool state lin
  have aligned := (serves pool).1.aligned
  rw [← isAlloc] at aligned
  unfold PageState.mapPage
  split
  next =>
      split
      next => rfl
      next =>
          simp only
          rw [if_neg (by omega)]
  next notMax => rw [if_neg (by omega)]

namespace Placed

variable {lin phy table attr : Nat}

theorem cr3 (placed : Placed state lin phy table attr next) : next.cr3 = state.cr3 := by
  cases placed with
  | kept => rfl
  | fresh => rfl
  | set => rfl

theorem heapLimit (placed : Placed state lin phy table attr next) : next.heapLimit = state.heapLimit := by
  cases placed with
  | kept => rfl
  | fresh => rfl
  | set => rfl

theorem free (placed : Placed state lin phy table attr next) {page : Nat}
    (free : FreePage next.man page) : FreePage state.man page := by
  cases placed with
  | kept => exact free
  | fresh _ _ _ fresh _ => exact fresh.others page free
  | set => exact free

theorem honest {n : Nat} (placed : Placed state lin phy table attr next)
    (honest : Honest (n + 1) state.man) : Honest n next.man := by
  cases placed with
  | kept => exact honest.pred
  | fresh _ _ result fresh _ =>
      obtain ⟨pool, isAlloc⟩ := takeFrame_pool state lin
      rcases honest pool with same | ⟨_, rest⟩
      · exact absurd (congrArg Prod.snd (result.symm.trans (isAlloc.trans same))) fresh.notFailed
      · rw [← isAlloc, result] at rest
        exact rest
  | set => exact honest.pred

theorem word_other (placed : Placed state lin phy table attr next) (aligned : table % 4096 = 0)
    {page j : Nat} (pageAligned : page % 4096 = 0) (apart : page ≠ table) (inside : j < 1024) :
    next.word page j = state.word page j := by
  cases placed with
  | kept => rfl
  | fresh => exact word_write_page _ _ aligned pageAligned apart (pteIndex_lt lin) inside
  | set => exact word_write_page _ _ aligned pageAligned apart (pteIndex_lt lin) inside

theorem tables (placed : Placed state lin phy table attr next) (held : Tables state dirs)
    (aligned : table % 4096 = 0) (notDir : table ∉ dirs) : Tables next dirs := by
  refine held.same (fun dir member i inside => ?_) placed.cr3 fun page => placed.free
  exact placed.word_other aligned (held.aligned dir member) (fun same => notDir (same ▸ member)) inside

end Placed

theorem pdeIndex_eq (lin : Nat) : pdeIndex lin = lin / 4096 / 1024 := by
  unfold pdeIndex
  omega

theorem pteIndex_eq (lin : Nat) : pteIndex lin = lin / 4096 % 1024 := by
  unfold pteIndex
  omega

/-- `get_page_phy_addr` reads the frame of a page that is present. -/
theorem pagePhyAddr_eq {pid lin : Nat} {found : Nat × Nat}
    (held : Tables state dirs) (alive : state.cr3 pid ≠ 0) (inside : lin / 4096 < 1048576)
    (isFound : state.entry (state.cr3 pid) (lin / 4096) = some found) :
    state.pagePhyAddr pid lin = found.1 := by
  obtain ⟨table, points, _, rfl⟩ := entry_some isFound inside
  have base := points.base
  rw [← pdeIndex_eq] at base
  simp only [PageState.pagePhyAddr, PageState.pte, PageState.ptePhyAddr, PageState.pde,
    held.pdePhyAddr alive]
  rw [← pteIndex_eq]
  simp only [PageState.word] at base ⊢
  rw [base]

/-- Both entries that lead to a page that is present are. -/
theorem present_words {pid lin : Nat} {found : Nat × Nat} (held : Tables state dirs) (alive : state.cr3 pid ≠ 0)
    (inside : lin / 4096 < 1048576) (isFound : state.entry (state.cr3 pid) (lin / 4096) = some found) :
    Present (state.pde pid lin) ∧ Present (state.pte pid lin) := by
  obtain ⟨table, points, present, _⟩ := entry_some isFound inside
  have isDir := held.pdePhyAddr alive
  have base := points.base
  simp only [PageState.word] at base
  constructor
  · simp only [PageState.pde, isDir, pdeIndex_eq]
    exact points.present
  · simp only [PageState.pte, PageState.ptePhyAddr, PageState.pde, isDir, pdeIndex_eq, pteIndex_eq, base]
    exact present

/-- The kernel finds a page that is present without a fault. -/
theorem kernelAccess_present {pid lin faults : Nat} {found : Nat × Nat} (held : Tables state dirs)
    (alive : state.cr3 pid ≠ 0) (address : lin < 4294967296)
    (isFound : state.entry (state.cr3 pid) (lin / 4096) = some found) :
    state.kernelAccess pid lin (faults + 1) = some state := by
  rw [PageState.kernelAccess, if_pos (present_words held alive (by omega) isFound)]

/-- `lin_mapping_phy` for a fresh page keeps a page that is present. -/
theorem linMappingPhy_keeps {current lin pid pdeAttr pteAttr : Nat} {found : Nat × Nat} (held : Tables state dirs)
    (alive : state.cr3 pid ≠ 0) (address : lin < 4294967296)
    (isFound : state.entry (state.cr3 pid) (lin / 4096) = some found) :
    state.linMappingPhy current lin failed pid pdeAttr pteAttr = some (state, 0) := by
  obtain ⟨table, page⟩ := present_words held alive (by omega) isFound
  have page : Present (state.mem (state.ptePhyAddr pid lin + 4 * pteIndex lin)) := page
  simp [PageState.linMappingPhy, PageState.ensureTable, PageState.mapPage, table, page]

/-- `lin_mapping_phy` is its two halves. -/
theorem linMappingPhy_cases {n current lin phy pid pdeAttr pteAttr : Nat} {result : Int}
    (held : Tables state dirs) (honest : Honest (n + 2) state.man) (alive : state.cr3 pid ≠ 0)
    (address : lin < 4294967296)
    (done : state.linMappingPhy current lin phy pid pdeAttr pteAttr = some (next, result))
    (served : result = 0 ∨ (alloc4k .kernel state.man).2 ≠ failed) :
    ∃ mid table, Linked state (state.cr3 pid) (pdeIndex lin) pdeAttr mid table ∧
      (result = 0 ∧ Placed mid lin phy table pteAttr next ∨ result = -1 ∧ next = mid) := by
  simp only [PageState.linMappingPhy, Option.bind_eq_bind, Option.bind_eq_some_iff] at done
  obtain ⟨⟨mid, table⟩, ensured, mapped⟩ := done
  cases table with
  | none =>
      exfalso
      cases mapped
      rcases served with wrong | notFailed
      · cases wrong
      · rcases honest .kernel with same | ⟨fresh, _⟩
        · exact notFailed (congrArg Prod.snd same)
        · obtain ⟨other, table, found⟩ := ensureTable_returns fresh
          rw [found] at ensured
          cases ensured
  | some table =>
      have linked := ensureTable_linked held honest alive address ensured
      refine ⟨mid, table, linked, ?_⟩
      have midHonest : Honest (n + 1) mid.man := linked.honest honest
      have isNext : mid.mapPage lin phy table pteAttr = (next, result) := Option.some.inj mapped
      have cases : Placed mid lin phy table pteAttr (mid.mapPage lin phy table pteAttr).1 ∧
          (mid.mapPage lin phy table pteAttr).2 = 0 ∨ _ := mapPage_placed midHonest
      rw [isNext] at cases
      rcases cases with ⟨placed, zero⟩ | ⟨same, minus⟩
      · exact .inl ⟨zero, placed⟩
      · exact .inr ⟨minus, same⟩

/-- With two pages to hand out and a frame on a page border the call returns
`0`. -/
theorem linMappingPhy_returns {current lin phy pid pdeAttr pteAttr : Nat} (held : Tables state dirs)
    (serves : Serves 2 state.man) (alive : state.cr3 pid ≠ 0) (address : lin < 4294967296)
    (asked : phy = failed ∨ phy % 4096 = 0) :
    ∃ next, state.linMappingPhy current lin phy pid pdeAttr pteAttr = some (next, 0) := by
  obtain ⟨mid, table, ensured⟩ : ∃ mid table,
      state.ensureTable current lin pid pdeAttr = some (mid, some table) :=
    ensureTable_returns (serves .kernel).1
  have linked := ensureTable_linked held serves.honest alive address ensured
  have zero : (mid.mapPage lin phy table pteAttr).2 = 0 := mapPage_returns (linked.serves serves) asked
  refine ⟨(mid.mapPage lin phy table pteAttr).1, ?_⟩
  simp only [PageState.linMappingPhy, ensured, Option.bind_eq_bind, Option.bind_some]
  rw [← zero]
  rfl

/-! ## The whole call -/

/-- A change of the tables that is made of fresh pages only. -/
structure Keeps (dirs : List Nat) (state next : PageState) : Prop where
  tables : Tables next dirs
  cr3 : next.cr3 = state.cr3
  heapLimit : next.heapLimit = state.heapLimit
  free : ∀ page, FreePage next.man page → FreePage state.man page
  points : ∀ dir ∈ dirs, ∀ i table, PointsTo next dir i table →
    PointsTo state dir i table ∨ memStart ≤ table ∧ FreePage state.man table

theorem Keeps.refl (held : Tables state dirs) : Keeps dirs state state :=
  ⟨held, rfl, rfl, fun _ free => free, fun _ _ _ _ points => .inl points⟩

theorem Keeps.trans (first : Keeps dirs state mid) (second : Keeps dirs mid next) :
    Keeps dirs state next := by
  refine ⟨second.tables, second.cr3.trans first.cr3, second.heapLimit.trans first.heapLimit,
    fun page free => first.free page (second.free page free), fun dir member i table points => ?_⟩
  rcases second.points dir member i table points with before | ⟨low, free⟩
  · exact first.points dir member i table before
  · exact .inr ⟨low, first.free table free⟩

/-- All tables of a directory come from the pool of pages. -/
def Proper (state : PageState) (dir : Nat) : Prop := ∀ i table, PointsTo state dir i table → memStart ≤ table

theorem Keeps.proper (keeps : Keeps dirs state next) {dir : Nat} (member : dir ∈ dirs)
    (proper : Proper state dir) : Proper next dir := by
  intro i table points
  rcases keeps.points dir member i table points with before | ⟨low, _⟩
  · exact proper i table before
  · exact low

/-- Absent entries of a directory are empty, as they are before a table is made. -/
def EmptyAbsent (state : PageState) (dir : Nat) : Prop :=
  ∀ i < 1024, ¬Present (state.word dir i) → state.word dir i = 0

/-- A page in use that is neither a directory nor a table. -/
structure Content (dirs : List Nat) (state : PageState) (page : Nat) : Prop where
  aligned : page % 4096 = 0
  used : ¬FreePage state.man page
  notDir : page ∉ dirs
  notTable : ∀ dir ∈ dirs, ∀ i, ¬PointsTo state dir i page

theorem Keeps.content (keeps : Keeps dirs state next) {page : Nat} (content : Content dirs state page) :
    Content dirs next page := by
  refine ⟨content.aligned, fun free => content.used (keeps.free page free), content.notDir,
    fun dir member i points => ?_⟩
  rcases keeps.points dir member i page points with before | ⟨_, free⟩
  · exact content.notTable dir member i before
  · exact content.used free

/-- A successful call: the table of the address is found or made, and its entry is
placed. -/
structure Mapped (state : PageState) (dir lin phy pdeAttr pteAttr : Nat) (mid : PageState) (table : Nat)
    (next : PageState) : Prop where
  linked : Linked state dir (pdeIndex lin) pdeAttr mid table
  placed : Placed mid lin phy table pteAttr next
  index : pdeIndex lin < 1024
  small : pdeAttr < 4096
  present : pdeAttr % 2 = 1

theorem linMappingPhy_mapped {n current lin phy pid pdeAttr pteAttr : Nat} (held : Tables state dirs)
    (honest : Honest (n + 2) state.man) (alive : state.cr3 pid ≠ 0) (address : lin < 4294967296)
    (small : pdeAttr < 4096) (present : pdeAttr % 2 = 1)
    (done : state.linMappingPhy current lin phy pid pdeAttr pteAttr = some (next, 0)) :
    ∃ mid table, Mapped state (state.cr3 pid) lin phy pdeAttr pteAttr mid table next := by
  obtain ⟨mid, table, linked, ⟨_, placed⟩ | ⟨wrong, _⟩⟩ :=
    linMappingPhy_cases held honest alive address done (.inl rfl)
  · exact ⟨mid, table, linked, placed, pdeIndex_lt address, small, present⟩
  · cases wrong

theorem linMappingPhy_trusted {current lin phy pid pdeAttr pteAttr : Nat} {result : Int}
    (held : Tables state dirs) (trusted : Trusted state.man) (alive : state.cr3 pid ≠ 0)
    (address : lin < 4294967296)
    (done : state.linMappingPhy current lin phy pid pdeAttr pteAttr = some (next, result))
    (served : result = 0 ∨ (alloc4k .kernel state.man).2 ≠ failed) : Trusted next.man := by
  intro n
  obtain ⟨mid, table, linked, ⟨_, placed⟩ | ⟨_, rfl⟩⟩ :=
    linMappingPhy_cases held (trusted (n + 2)) alive address done served
  · exact placed.honest (linked.honest (trusted (n + 2)))
  · exact linked.honest (trusted (n + 1))

namespace Mapped

variable {dir lin phy pdeAttr pteAttr table : Nat}

theorem midPoints (mapped : Mapped state dir lin phy pdeAttr pteAttr mid table next) :
    PointsTo mid dir (lin / 4096 / 1024) table := by
  rw [← pdeIndex_eq]
  exact mapped.linked.points mapped.index mapped.small mapped.present

theorem low (mapped : Mapped state dir lin phy pdeAttr pteAttr mid table next)
    (proper : Proper state dir) : memStart ≤ table := by
  cases mapped.linked with
  | found points => exact proper _ table points
  | made _ _ _ low => exact low

section

variable (mapped : Mapped state dir lin phy pdeAttr pteAttr mid table next) (held : Tables state dirs)
  (member : dir ∈ dirs)

include mapped held member

theorem midTables : Tables mid dirs := mapped.linked.tables held member mapped.index mapped.small

theorem notDir : table ∉ dirs := mapped.linked.notDir held member

/-- The second half does not write to directories. -/
theorem midWord {other j : Nat} (otherMember : other ∈ dirs) (inside : j < 1024) :
    next.word other j = mid.word other j :=
  mapped.placed.word_other mapped.linked.aligned (held.aligned other otherMember)
    (fun same => mapped.notDir held member (same ▸ otherMember)) inside

theorem word_dir {other j : Nat} (otherMember : other ∈ dirs) (inside : j < 1024)
    (apart : (other, j) ≠ (dir, pdeIndex lin)) : next.word other j = state.word other j := by
  rw [mapped.midWord held member otherMember inside]
  exact mapped.linked.word_dir held member mapped.index otherMember inside apart

theorem points : PointsTo next dir (pdeIndex lin) table := by
  have word := mapped.midWord held member member mapped.index
  have midPoints := mapped.linked.points mapped.index mapped.small mapped.present
  exact ⟨mapped.index, word ▸ midPoints.present, word ▸ midPoints.base⟩

theorem emptyAbsent {other : Nat} (otherMember : other ∈ dirs) (empty : EmptyAbsent state other) :
    EmptyAbsent next other := by
  intro i inside absent
  by_cases same : (other, i) = (dir, pdeIndex lin)
  · obtain ⟨rfl, rfl⟩ := Prod.mk.inj same
    exact absurd (mapped.points held member).present absent
  · rw [mapped.word_dir held member otherMember inside same] at absent ⊢
    exact empty i inside absent

theorem keeps : Keeps dirs state next := by
  have midHeld := mapped.midTables held member
  have notDir := mapped.notDir held member
  have aligned := mapped.linked.aligned
  refine ⟨mapped.placed.tables midHeld aligned notDir, mapped.placed.cr3.trans mapped.linked.cr3,
    mapped.placed.heapLimit.trans mapped.linked.heapLimit, fun page free => mapped.linked.free (mapped.placed.free free), fun other otherMember j base points => ?_⟩
  have word := mapped.midWord held member otherMember points.index
  by_cases same : (other, j) = (dir, pdeIndex lin)
  · cases same
    have isTable : table = base := by
      rw [← points.base, word, mapped.linked.base mapped.small]
    subst isTable
    cases mapped.linked with
    | found before => exact .inl before
    | made _ _ fresh low => exact .inr ⟨low, fresh.free⟩
  · rw [mapped.linked.word_dir held member mapped.index otherMember points.index same] at word
    exact .inl ⟨points.index, word ▸ points.present, word ▸ points.base⟩

theorem midEntry {other page : Nat} (otherMember : other ∈ dirs) (inside : page < 1048576) :
    mid.entry other page = state.entry other page :=
  mapped.linked.entry held member mapped.index mapped.small otherMember inside

theorem entry_set (asked : phy ≠ failed) :
    next.entry dir (lin / 4096) = Reads (makeEntry phy pteAttr) := by
  have midHeld := mapped.midTables held member
  cases mapped.placed with
  | kept isMax => exact absurd isMax asked
  | fresh isMax => exact absurd isMax asked
  | set =>
      rw [pteIndex_eq]
      exact midHeld.entry_set member mapped.midPoints

/-- Without a frame in the call, a present page is kept and another one is set to a
fresh frame. -/
theorem entry_max (isMax : phy = failed) (inside : lin / 4096 < 1048576) :
    (∃ found, state.entry dir (lin / 4096) = some found ∧ next = mid ∧ mid = state) ∨
      state.entry dir (lin / 4096) = none ∧ ∃ frame,
        next.entry dir (lin / 4096) = Reads (makeEntry frame pteAttr) ∧ memStart ≤ frame ∧
        FreePage mid.man frame ∧ Content dirs next frame := by
  have midHeld := mapped.midTables held member
  have notDir := mapped.notDir held member
  have midEntry := mapped.midEntry held member member inside
  have points := mapped.midPoints
  have linked := mapped.linked
  rw [entry_eq points, ← pteIndex_eq] at midEntry
  cases mapped.placed with
  | set notMax => exact absurd isMax notMax
  | kept _ present =>
      rw [if_pos present] at midEntry
      refine .inl ⟨_, midEntry.symm, rfl, ?_⟩
      cases linked with
      | found => rfl
      | made absent =>
          rw [pdeIndex_eq] at absent
          rw [entry_absent absent] at midEntry
          cases midEntry
  | @fresh rest frame _ absent result fresh low =>
      rw [if_neg absent] at midEntry
      obtain ⟨frameOutside, notTable⟩ := midHeld.free_outside fresh.free low
      refine .inr ⟨midEntry.symm, frame, ?_, low, fresh.free, fresh.aligned, fresh.taken, frameOutside,
        fun other otherMember j leads => ?_⟩
      · have taken : Tables { mid with man := rest } dirs :=
          midHeld.same (fun _ _ _ _ => rfl) rfl fresh.others
        rw [pteIndex_eq]
        exact taken.entry_set member ⟨points.index, points.present, points.base⟩
      · have word := (Placed.fresh isMax absent result fresh low : Placed mid lin phy table pteAttr _).word_other
          linked.aligned (held.aligned other otherMember) (fun same => notDir (same ▸ otherMember)) leads.index
        exact notTable other otherMember j ⟨leads.index, word ▸ leads.present, word ▸ leads.base⟩

/-- Every other page is as it was, unless it shares the table by a page fault. -/
theorem entry_other {other page : Nat} (otherMember : other ∈ dirs) (inside : page < 1048576)
    (apart : (other, page) ≠ (dir, lin / 4096))
    (proper : PointsTo mid other (page / 1024) table → memStart ≤ table) :
    next.entry other page = state.entry other page := by
  have midHeld := mapped.midTables held member
  have notDir := mapped.notDir held member
  have aligned := mapped.linked.aligned
  have differ : PointsTo mid other (page / 1024) table → page % 1024 ≠ pteIndex lin := by
    intro points sameIndex
    obtain ⟨rfl, sameDir⟩ := midHeld.unique other otherMember dir member _ _ table (proper points) points
      mapped.midPoints
    rw [pteIndex_eq] at sameIndex
    exact apart (by rw [show page = lin / 4096 by omega])
  rw [← mapped.midEntry held member otherMember inside]
  cases mapped.placed with
  | kept => rfl
  | @fresh rest _ _ _ _ fresh _ =>
      have taken : Tables { mid with man := rest } dirs :=
        midHeld.same (fun _ _ _ _ => rfl) rfl fresh.others
      exact taken.entry_set_other otherMember aligned notDir (pteIndex_lt lin) inside
        fun points => differ ⟨points.index, points.present, points.base⟩
  | set => exact midHeld.entry_set_other otherMember aligned notDir (pteIndex_lt lin) inside differ

/-- Pages in use that are neither directories nor the table keep their words. -/
theorem word_used {page j : Nat} (pageAligned : page % 4096 = 0) (notPage : page ∉ dirs)
    (used : ¬FreePage state.man page) (inside : j < 1024)
    (apart : ∀ table, PointsTo state dir (pdeIndex lin) table → page ≠ table) :
    next.word page j = state.word page j := by
  have notTable : page ≠ table := by
    cases mapped.linked with
    | found points => exact apart table points
    | made _ _ fresh _ => exact fun same => used (same ▸ fresh.free)
  rw [mapped.placed.word_other mapped.linked.aligned pageAligned notTable inside]
  exact mapped.linked.word_used held member mapped.index pageAligned
    (fun same => notPage (same ▸ member)) used inside

theorem word_content {page j : Nat} (content : Content dirs state page) (inside : j < 1024) :
    next.word page j = state.word page j := by
  refine mapped.word_used held member content.aligned content.notDir content.used inside ?_
  rintro base points rfl
  exact content.notTable dir member _ points

end

end Mapped

end AempOS.Memory
