import Mathlib.Order.Interval.Finset.Nat
import AempOS.Memory.KernelHalf

/-! Loops that map pages of a user by `lin_mapping_phy`: what they leave in the
directory and in the map of the pages, and how many frames they need. A page that
is present stays as it is, also with attributes that do not fit. -/

set_option autoImplicit false

namespace AempOS.Memory

open Lib

variable {state mid final next : PageState} {dirs : List Nat} {dir attr : Nat}

/-- The body of the loops: a page with attributes of its own, behind an entry of the
directory that is open to the user. -/
def mapUserPage (current who attr : Nat) (state : PageState) (lin : Nat) : Option PageState :=
  state.mapOk current lin failed who (pgP + pgUsu + pgRww) attr

/-- An entry of a directory that leaves everything to the table behind it. -/
structure OpenEntry (w : Nat) : Prop where
  present : Present w
  user : UserBit w
  writable : Writable w

theorem openEntry_makeEntry (base : Nat) : OpenEntry (makeEntry base (pgP + pgUsu + pgRww)) := by
  refine ⟨?_, ?_, ?_⟩
  · unfold Present makeEntry pgP pgUsu pgRww pageBase
    omega
  · unfold UserBit makeEntry pgP pgUsu pgRww pageBase
    omega
  · unfold Writable makeEntry pgP pgUsu pgRww pageBase
    omega

/-- What a loop over the pages `visited` leaves of a directory. -/
structure MapsPages (dir attr : Nat) (visited : Nat → Prop) (state final : PageState) : Prop where
  dirKept : ∀ i < 1024, Present (state.word dir i) → final.word dir i = state.word dir i
  dirMade : ∀ i < 1024, ¬Present (state.word dir i) →
    final.word dir i = state.word dir i ∨ OpenEntry (final.word dir i)
  kept : ∀ page < 1048576, ∀ found, state.entry dir page = some found → final.entry dir page = some found
  fresh : ∀ page < 1048576, ∀ found, state.entry dir page = none → final.entry dir page = some found →
    found.2 = attr
  made : ∀ page < 1048576, visited page → ∃ found, final.entry dir page = some found
  others : ∀ page < 1048576, ¬visited page →
    (∀ table, PointsTo final dir (page / 1024) table → memStart ≤ table) →
    final.entry dir page = state.entry dir page

/-- The map of the pages in the words that the processor reads. -/
theorem entry_read {pid lin : Nat} (held : Tables state dirs) (alive : state.cr3 pid ≠ 0) :
    state.entry (state.cr3 pid) (lin / 4096) =
      if Present (state.pde pid lin) ∧ Present (state.pte pid lin) then
        some (pageBase (state.pte pid lin), state.pte pid lin % 4096)
      else none := by
  simp only [PageState.pte, PageState.ptePhyAddr, PageState.pde, held.pdePhyAddr alive, pdeIndex_eq, pteIndex_eq]
  rfl

theorem pde_read {pid lin : Nat} (held : Tables state dirs) (alive : state.cr3 pid ≠ 0) :
    state.pde pid lin = state.word (state.cr3 pid) (lin / 4096 / 1024) := by
  simp only [PageState.pde, held.pdePhyAddr alive, pdeIndex_eq]
  rfl

/-- The user may store to a page with a frame, open attributes and an open entry of
the directory. -/
theorem allowed_iff {pid lin : Nat} (held : Tables state dirs) (alive : state.cr3 pid ≠ 0) :
    state.Allowed pid lin true ↔ OpenEntry (state.pde pid lin) ∧
      ∃ found, state.entry (state.cr3 pid) (lin / 4096) = some found ∧ UserBit found.2 ∧ Writable found.2 := by
  have low : (UserBit (state.pte pid lin % 4096) ↔ UserBit (state.pte pid lin)) ∧
      (Writable (state.pte pid lin % 4096) ↔ Writable (state.pte pid lin)) := by
    unfold UserBit Writable
    omega
  rw [entry_read held alive]
  constructor
  · rintro ⟨present, user, presentPage, userPage, writable⟩
    refine ⟨⟨present, user, (writable rfl).1⟩, _, if_pos ⟨present, presentPage⟩, ?_, ?_⟩
    · exact low.1.mpr userPage
    · exact low.2.mpr (writable rfl).2
  · rintro ⟨⟨present, user, writable⟩, found, isFound, userPage, writablePage⟩
    split at isFound
    next both =>
        cases isFound
        exact ⟨present, user, both.2, low.1.mp userPage, fun _ => ⟨writable, low.2.mp writablePage⟩⟩
    next => cases isFound

theorem PointsTo.of_word {i table : Nat} (points : PointsTo state dir i table)
    (same : next.word dir i = state.word dir i) : PointsTo next dir i table :=
  ⟨points.index, same ▸ points.present, same ▸ points.base⟩

theorem MapsPages.refl (state : PageState) : MapsPages dir attr (fun _ => False) state state where
  dirKept _ _ _ := rfl
  dirMade _ _ _ := .inl rfl
  kept _ _ _ found := found
  fresh _ _ _ missing found := absurd (missing.symm.trans found) (by simp)
  made _ _ wrong := wrong.elim
  others _ _ _ _ := rfl

theorem MapsPages.trans {first second : Nat → Prop} (left : MapsPages dir attr first state mid)
    (right : MapsPages dir attr second mid final) :
    MapsPages dir attr (fun page => first page ∨ second page) state final where
  dirKept i inside present := by
    have before := left.dirKept i inside present
    rw [← before] at present
    exact (right.dirKept i inside present).trans before
  dirMade i inside absent := by
    rcases left.dirMade i inside absent with same | opened
    · rw [← same] at absent ⊢
      exact right.dirMade i inside absent
    · rw [right.dirKept i inside opened.present]
      exact .inr opened
  kept page inside found before := right.kept page inside found (left.kept page inside found before)
  fresh page inside found missing last := by
    cases between : mid.entry dir page with
    | none => exact right.fresh page inside found between last
    | some other =>
        have kept := right.kept page inside other between
        obtain rfl : other = found := Option.some.inj (kept.symm.trans last)
        exact left.fresh page inside other missing between
  made page inside visited := by
    rcases visited with early | late
    · obtain ⟨found, isFound⟩ := left.made page inside early
      exact ⟨found, right.kept page inside found isFound⟩
    · exact right.made page inside late
  others page inside unvisited proper := by
    have notFirst : ¬first page := fun early => unvisited (.inl early)
    have notSecond : ¬second page := fun late => unvisited (.inr late)
    refine (right.others page inside notSecond proper).trans (left.others page inside notFirst ?_)
    intro table points
    exact proper table (points.of_word (right.dirKept _ points.index points.present))

theorem MapsPages.congr {first second : Nat → Prop} (left : MapsPages dir attr first state final)
    (same : ∀ page, first page ↔ second page) : MapsPages dir attr second state final := by
  have equal : first = second := funext fun page => propext (same page)
  exact equal ▸ left

/-! ## One page -/

section

variable {lin table : Nat} (mapped : Mapped state dir lin failed (pgP + pgUsu + pgRww) attr mid table next)
  (held : Tables state dirs) (member : dir ∈ dirs)

include mapped held member

/-- The entry of the directory was there, or is new and open. -/
theorem Mapped.dirEntry {i : Nat} (inside : i < 1024) :
    next.word dir i = state.word dir i ∨ ¬Present (state.word dir i) ∧ OpenEntry (next.word dir i) := by
  rw [mapped.midWord held member member inside]
  by_cases same : i = pdeIndex lin
  · subst same
    cases mapped.linked with
    | found => exact .inl rfl
    | made absent =>
        rw [word_write_self]
        exact .inr ⟨absent, openEntry_makeEntry _⟩
  · exact .inl (mapped.linked.word_dir held member mapped.index member inside (by simp [same]))

/-- A page is as it was, or it was missing and is fresh. -/
theorem Mapped.pageEntry (small : attr < 4096) (present : attr % 2 = 1) {page : Nat} (inside : page < 1048576) :
    next.entry dir page = state.entry dir page ∨
      state.entry dir page = none ∧ ∃ frame, next.entry dir page = some (frame, attr) := by
  have midHeld := mapped.midTables held member
  have notDir := mapped.notDir held member
  have aligned := mapped.linked.aligned
  rw [← mapped.midEntry held member member inside]
  cases mapped.placed with
  | kept => exact .inl rfl
  | set notMax => exact absurd rfl notMax
  | @fresh rest frame _ absent _ fresh _ =>
      have taken : Tables { mid with man := rest } dirs :=
        midHeld.same (fun _ _ _ _ => rfl) rfl fresh.others
      -- another page may share the word, through a table that a page fault made
      by_cases shares : PointsTo mid dir (page / 1024) table ∧ page % 1024 = pteIndex lin
      · obtain ⟨points, index⟩ := shares
        have sharesHere : PointsTo { mid with man := rest } dir (page / 1024) table :=
          ⟨points.index, points.present, points.base⟩
        refine .inr ⟨?_, frame, ?_⟩
        · rw [entry_eq points, index, if_neg absent]
        · rw [← index, taken.entry_set member sharesHere]
          exact reads_makeEntry fresh.aligned small present
      · refine .inl (taken.entry_set_other member aligned notDir (pteIndex_lt lin) inside ?_)
        exact fun points index => shares ⟨⟨points.index, points.present, points.base⟩, index⟩

theorem Mapped.mapsPages (small : attr < 4096) (present : attr % 2 = 1) :
    MapsPages dir attr (fun page => page = lin / 4096) state next where
  dirKept i inside isPresent := by
    rcases mapped.dirEntry held member inside with same | ⟨absent, _⟩
    · exact same
    · exact absurd isPresent absent
  dirMade i inside _ := by
    rcases mapped.dirEntry held member inside with same | ⟨_, opened⟩
    · exact .inl same
    · exact .inr opened
  kept page inside found before := by
    rcases mapped.pageEntry held member small present inside with same | ⟨missing, _⟩
    · exact same.trans before
    · exact absurd (missing.symm.trans before) (by simp)
  fresh page inside found missing last := by
    rcases mapped.pageEntry held member small present inside with same | ⟨_, frame, made⟩
    · exact absurd (missing.symm.trans (same.symm.trans last)) (by simp)
    · obtain rfl : (frame, attr) = found := Option.some.inj (made.symm.trans last)
      rfl
  made page inside isPage := by
    subst isPage
    rcases mapped.entry_max held member rfl inside with ⟨found, before, same, alike⟩ | ⟨_, frame, made, _⟩
    · rw [same, alike]
      exact ⟨found, before⟩
    · rw [made]
      exact ⟨_, if_pos (present_makeEntry.mpr present)⟩
  others page inside apart proper := by
    refine mapped.entry_other held member member inside (by simpa using apart) fun points => ?_
    exact proper table (points.of_word (mapped.midWord held member member points.index))

end

/-! ## The loop -/

theorem mapLoop_pages {current who : Nat} {addrs : List Nat} (held : Tables state dirs)
    (trusted : Trusted state.man) (alive : state.cr3 who ≠ 0) (small : attr < 4096) (present : attr % 2 = 1)
    (addresses : ∀ addr ∈ addrs, addr < 4294967296)
    (done : addrs.foldlM (mapUserPage current who attr) state = some final) :
    MapsPages (state.cr3 who) attr (fun page => ∃ addr ∈ addrs, page = addr / 4096) state final ∧
      Keeps dirs state final ∧ Trusted final.man := by
  induction addrs generalizing state with
  | nil =>
      cases done
      exact ⟨(MapsPages.refl final).congr (by simp), .refl held, trusted⟩
  | cons addr rest ih =>
      simp only [List.foldlM_cons, Option.bind_eq_bind, Option.bind_eq_some_iff] at done
      obtain ⟨mid, moved, done⟩ := done
      have address := addresses addr (by simp)
      have member := held.cr3 who alive
      have call := mapOk_eq moved
      obtain ⟨_, _, mapped⟩ := linMappingPhy_mapped held (trusted 2) alive address (by decide) (by decide) call
      have keeps := mapped.keeps held member
      have first := mapped.mapsPages held member small present
      have midAlive : mid.cr3 who ≠ 0 := by rwa [keeps.cr3]
      obtain ⟨later, keepsLater, finalTrusted⟩ := ih keeps.tables
        (linMappingPhy_trusted held trusted alive address call (.inl rfl)) midAlive
        (fun other inRest => addresses other (by simp [inRest])) done
      rw [keeps.cr3] at later
      exact ⟨(first.trans later).congr (by simp), keeps.trans keepsLater, finalTrusted⟩

/-! ## Frames for the loop -/

/-- The manager serves these requests for pages, one after the other. -/
def Served : List Pool → Memman → Prop
  | [], _ => True
  | pool :: rest, man => (alloc4k pool man).2 ≠ failed ∧ Served rest (alloc4k pool man).1

/-- There are so many pages of the kernel and so many of the user, in whatever order
they are asked for. -/
def Supplies (kernel user : Nat) (man : Memman) : Prop :=
  ∀ requests : List Pool, requests.count .kernel ≤ kernel → requests.count .user ≤ user → Served requests man

theorem Supplies.none (man : Memman) : Supplies 0 0 man := by
  intro requests kernels users
  cases requests with
  | nil => trivial
  | cons pool rest =>
      cases pool with
      | kernel => exact absurd kernels (by simp)
      | user => exact absurd users (by simp)

theorem Supplies.le {kernel user lessKernel lessUser : Nat} {man : Memman} (supplies : Supplies kernel user man)
    (fewerKernel : lessKernel ≤ kernel) (fewerUser : lessUser ≤ user) : Supplies lessKernel lessUser man :=
  fun requests kernels users => supplies requests (Nat.le_trans kernels fewerKernel) (Nat.le_trans users fewerUser)

theorem Supplies.kernelPage {kernel user : Nat} {man : Memman} (supplies : Supplies (kernel + 1) user man) :
    (alloc4k .kernel man).2 ≠ failed ∧ Supplies kernel user (alloc4k .kernel man).1 := by
  refine ⟨(supplies [.kernel] (by simp) (by simp)).1, fun requests kernels users => ?_⟩
  refine (supplies (.kernel :: requests) ?_ ?_).2
  · rw [List.count_cons_self]
    omega
  · rwa [List.count_cons_of_ne (by decide)]

theorem Supplies.userPage {kernel user : Nat} {man : Memman} (supplies : Supplies kernel (user + 1) man) :
    (alloc4k .user man).2 ≠ failed ∧ Supplies kernel user (alloc4k .user man).1 := by
  refine ⟨(supplies [.user] (by simp) (by simp)).1, fun requests kernels users => ?_⟩
  refine (supplies (.user :: requests) ?_ ?_).2
  · rwa [List.count_cons_of_ne (by decide)]
  · rw [List.count_cons_self]
    omega

/-- Two entries of the free list that are long enough will do. -/
theorem Room.supplies {kernel user : Nat} {man : Memman} (room : Room kernel user man) :
    Supplies kernel user man := by
  intro requests kernels users
  induction requests generalizing kernel user man with
  | nil => trivial
  | cons pool rest ih =>
      cases pool with
      | kernel =>
          rw [List.count_cons_self] at kernels
          rw [List.count_cons_of_ne (by decide)] at users
          have enough : Room (rest.count .kernel + 1) user man := room.le kernels (Nat.le_refl _)
          obtain ⟨notFailed, less⟩ := enough.kernelPage
          exact ⟨notFailed, ih less (Nat.le_refl _) users⟩
      | user =>
          rw [List.count_cons_of_ne (by decide)] at kernels
          rw [List.count_cons_self] at users
          have enough : Room kernel (rest.count .user + 1) man := room.le (Nat.le_refl _) users
          obtain ⟨notFailed, less⟩ := enough.userPage
          exact ⟨notFailed, ih less kernels (Nat.le_refl _)⟩

/-- A page behind a table that is there takes at most one page of the user's pool. -/
theorem mapPage_supplied {lin table pteAttr kernel user : Nat} (trusted : Trusted state.man)
    (below : lin < kernelLinBase) (supplies : Supplies kernel (user + 1) state.man) :
    ∃ next, state.mapPage lin failed table pteAttr = (next, 0) ∧ Supplies kernel user next.man := by
  obtain ⟨notFailed, fewer⟩ := supplies.userPage
  have aligned := (trusted.alloc .user notFailed).1.aligned
  have isUser : state.takeFrame lin = alloc4k .user state.man := if_neg (by omega)
  simp only [PageState.mapPage, if_true, isUser]
  split
  next => exact ⟨_, rfl, supplies.le (Nat.le_refl _) (by omega)⟩
  next =>
      rw [if_neg (by omega)]
      exact ⟨_, rfl, fewer⟩

/-- A page of the user takes at most one page of either pool, and none of the kernel
where the table is there. -/
theorem linMappingPhy_supplied {current lin pid pdeAttr pteAttr kernel user : Nat} (held : Tables state dirs)
    (trusted : Trusted state.man) (alive : state.cr3 pid ≠ 0) (below : lin < kernelLinBase)
    (supplies : Supplies kernel (user + 1) state.man) (table : ¬Present (state.pde pid lin) → kernel ≠ 0) :
    ∃ next, state.linMappingPhy current lin failed pid pdeAttr pteAttr = some (next, 0) ∧
      Supplies (if Present (state.pde pid lin) then kernel else kernel - 1) user next.man := by
  have address : lin < 4294967296 := by
    unfold kernelLinBase at below
    omega
  obtain ⟨mid, base, ensured, left⟩ : ∃ mid base,
      state.ensureTable current lin pid pdeAttr = some (mid, some base) ∧
        Supplies (if Present (state.pde pid lin) then kernel else kernel - 1) (user + 1) mid.man := by
    unfold PageState.ensureTable
    by_cases present : Present (state.pde pid lin)
    · simp only [if_pos present]
      exact ⟨_, _, rfl, supplies⟩
    · have one : kernel - 1 + 1 = kernel := Nat.sub_add_cancel (Nat.pos_of_ne_zero (table present))
      rw [← one] at supplies
      obtain ⟨notFailed, less⟩ := supplies.kernelPage
      have aligned := (trusted.alloc .kernel notFailed).1.aligned
      have notFailed : (memmanKalloc4k state.man).2 ≠ failed := notFailed
      have aligned : (memmanKalloc4k state.man).2 % 4096 = 0 := aligned
      simp only [if_neg present, if_neg notFailed]
      rw [if_neg (by omega)]
      exact ⟨_, _, rfl, less⟩
  have midTrusted : Trusted mid.man := fun n =>
    (ensureTable_linked held (trusted (n + 1)) alive address ensured).honest (trusted (n + 1))
  obtain ⟨next, placed, fewer⟩ : ∃ next, mid.mapPage lin failed base pteAttr = (next, 0) ∧ Supplies _ user next.man :=
    mapPage_supplied midTrusted below left
  refine ⟨next, ?_, fewer⟩
  simp only [PageState.linMappingPhy, ensured, Option.bind_eq_bind, Option.bind_some, placed]
  rfl

/-- A page that is there is kept. -/
theorem mapUserPage_present {current who lin : Nat} {found : Nat × Nat} (held : Tables state dirs)
    (alive : state.cr3 who ≠ 0) (address : lin < 4294967296)
    (isFound : state.entry (state.cr3 who) (lin / 4096) = some found) :
    mapUserPage current who attr state lin = some state := by
  simp only [mapUserPage, PageState.mapOk, linMappingPhy_keeps held alive address isFound]

/-- The pages of a region. -/
def regionPages (base size : Nat) : Finset Nat := Finset.Ico (base / 4096) ((base + size + 4095) / 4096)

theorem mem_regionPages {base size lin : Nat} (above : base ≤ lin) (below : lin < base + size) :
    lin / 4096 ∈ regionPages base size :=
  Finset.mem_Ico.mpr (by omega)

/-- Those of some pages that are not there, and the directory entries of some pages that
are not there. -/
def absentPages (state : PageState) (dir : Nat) (pages : Finset Nat) : Finset Nat :=
  pages.filter fun page => state.entry dir page = none

def absentTables (state : PageState) (dir : Nat) (pages : Finset Nat) : Finset Nat :=
  (pages.image (· / 1024)).filter fun i => ¬Present (state.word dir i)

/-- There are frames for those of some pages that are not there, and for their tables. -/
def SuppliesFor (state : PageState) (dir : Nat) (pages : Finset Nat) : Prop :=
  Supplies (absentTables state dir pages).card (absentPages state dir pages).card state.man

theorem Room.suppliesFor {kernel user : Nat} {pages : Finset Nat} (room : Room kernel user state.man)
    (fewTables : (pages.image (· / 1024)).card ≤ kernel) (fewPages : pages.card ≤ user) :
    SuppliesFor state dir pages :=
  room.supplies.le ((Finset.card_filter_le ..).trans fewTables) ((Finset.card_filter_le ..).trans fewPages)

theorem SuppliesFor.congr {other : PageState} {pages : Finset Nat} (supplies : SuppliesFor state dir pages)
    (mem : other.mem = state.mem) (man : other.man = state.man) : SuppliesFor other dir pages := by
  have entry : other.entry = state.entry := by
    funext dir page
    exact entry_congr mem dir page
  have word : other.word = state.word := by
    funext dir i
    exact word_congr mem dir i
  unfold SuppliesFor absentPages absentTables
  rw [man, entry, word]
  exact supplies

/-- One of the pages is mapped, and there are frames for the others. -/
theorem mapUserPage_supplied {current who lin : Nat} {pages : Finset Nat} (held : Tables state dirs)
    (trusted : Trusted state.man) (alive : state.cr3 who ≠ 0) (small : attr < 4096) (present : attr % 2 = 1)
    (below : lin < kernelLinBase) (inside : ∀ page ∈ pages, page < 1048576) (member : lin / 4096 ∈ pages)
    (supplies : SuppliesFor state (state.cr3 who) pages) :
    ∃ next, mapUserPage current who attr state lin = some next ∧ SuppliesFor next (state.cr3 who) pages := by
  have address : lin < 4294967296 := by
    unfold kernelLinBase at below
    omega
  cases before : state.entry (state.cr3 who) (lin / 4096) with
  | some found => exact ⟨state, mapUserPage_present held alive address before, supplies⟩
  | none =>
      have isAbsent : lin / 4096 ∈ absentPages state (state.cr3 who) pages := Finset.mem_filter.mpr ⟨member, before⟩
      have one : (absentPages state (state.cr3 who) pages).card =
          ((absentPages state (state.cr3 who) pages).erase (lin / 4096)).card + 1 :=
        (Finset.card_erase_add_one isAbsent).symm
      have isTable : ¬Present (state.pde who lin) → lin / 4096 / 1024 ∈ absentTables state (state.cr3 who) pages := by
        intro missing
        rw [pde_read held alive] at missing
        exact Finset.mem_filter.mpr ⟨Finset.mem_image_of_mem _ member, missing⟩
      unfold SuppliesFor at supplies
      rw [one] at supplies
      obtain ⟨next, mapped, left⟩ : ∃ next,
          state.linMappingPhy current lin failed who (pgP + pgUsu + pgRww) attr = some (next, 0) ∧ Supplies _ _ next.man :=
        linMappingPhy_supplied held trusted alive below supplies fun missing => Finset.card_ne_zero_of_mem (isTable missing)
      obtain ⟨_, _, isMapped⟩ := linMappingPhy_mapped held (trusted 2) alive address (by decide) (by decide) mapped
      have isDir := held.cr3 who alive
      have maps := isMapped.mapsPages held isDir small present
      obtain ⟨made, isMade⟩ := maps.made _ (inside _ member) rfl
      refine ⟨next, by simp only [mapUserPage, PageState.mapOk, mapped], left.le ?_ (Finset.card_le_card ?_)⟩
      · have fewer : absentTables next (state.cr3 who) pages ⊆
            (absentTables state (state.cr3 who) pages).erase (lin / 4096 / 1024) := by
          intro i inTables
          obtain ⟨isTable, absent⟩ := Finset.mem_filter.mp inTables
          have bound : i < 1024 := by
            obtain ⟨page, isPage, rfl⟩ := Finset.mem_image.mp isTable
            have := inside page isPage
            omega
          refine Finset.mem_erase.mpr ⟨fun same => ?_, Finset.mem_filter.mpr ⟨isTable, fun there => absent ?_⟩⟩
          · rw [same] at absent
            rw [entry_absent absent] at isMade
            cases isMade
          · rw [maps.dirKept i bound there]
            exact there
        refine (Finset.card_le_card fewer).trans ?_
        split
        next there => exact Finset.card_erase_le
        next missing => exact (Finset.card_erase_of_mem (isTable missing)).le
      · intro page inPages
        obtain ⟨isPage, absent⟩ := Finset.mem_filter.mp inPages
        refine Finset.mem_erase.mpr ⟨fun same => ?_, Finset.mem_filter.mpr ⟨isPage, ?_⟩⟩
        · rw [same, isMade] at absent
          cases absent
        · cases old : state.entry (state.cr3 who) page with
          | none => rfl
          | some found =>
              rw [maps.kept page (inside page isPage) found old] at absent
              cases absent

/-- A loop returns if there are frames for its pages. -/
theorem mapLoop_returns {current who : Nat} {addrs : List Nat} {pages : Finset Nat} (held : Tables state dirs)
    (trusted : Trusted state.man) (alive : state.cr3 who ≠ 0) (small : attr < 4096) (present : attr % 2 = 1)
    (inside : ∀ page ∈ pages, page < 1048576) (below : ∀ addr ∈ addrs, addr < kernelLinBase ∧ addr / 4096 ∈ pages)
    (supplies : SuppliesFor state (state.cr3 who) pages) :
    ∃ final, addrs.foldlM (mapUserPage current who attr) state = some final := by
  induction addrs generalizing state with
  | nil => exact ⟨state, rfl⟩
  | cons addr rest ih =>
      obtain ⟨user, member⟩ := below addr (by simp)
      obtain ⟨mid, moved, left⟩ : ∃ mid, mapUserPage current who attr state addr = some mid ∧
          SuppliesFor mid (state.cr3 who) pages :=
        mapUserPage_supplied held trusted alive small present user inside member supplies
      obtain ⟨_, keeps, midTrusted⟩ : _ ∧ Keeps dirs state mid ∧ Trusted mid.man :=
        mapLoop_pages held trusted alive small present (by unfold kernelLinBase at user; simp; omega)
          (by simp only [List.foldlM_cons, moved]; rfl : [addr].foldlM (mapUserPage current who attr) state = some mid)
      rw [← keeps.cr3] at left
      have midAlive : mid.cr3 who ≠ 0 := by rwa [keeps.cr3]
      obtain ⟨final, ran⟩ := ih keeps.tables midTrusted midAlive (fun other inRest => below other (by simp [inRest])) left
      exact ⟨final, by rw [List.foldlM_cons, moved]; exact ran⟩

end AempOS.Memory
