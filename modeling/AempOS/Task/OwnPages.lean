import AempOS.Task.ExecLoading
import AempOS.Memory.UserPages

/-! The bytes of a process below the kernel, as its page tables show them. Each page has
a frame of its own, so that a store changes one byte, and mapping a missing page changes
none. -/

set_option autoImplicit false

namespace AempOS.Task

open Lib Memory

variable {dirs : List Nat} {state next : PageState} {pid current attr lin : Nat}

/-- The pages below the kernel lie on frames of their own. -/
structure OwnPages (dirs : List Nat) (pid : Nat) (state : PageState) : Prop where
  tables : Tables state dirs
  trusted : Trusted state.man
  alive : state.cr3 pid ≠ 0
  proper : Proper state (state.cr3 pid)
  content : ∀ page < kernelPage, ∀ frame attr, state.entry (state.cr3 pid) page = some (frame, attr) →
    Content dirs state frame
  own : ∀ page < kernelPage, ∀ other < kernelPage, ∀ frame attr otherAttr,
    state.entry (state.cr3 pid) page = some (frame, attr) →
    state.entry (state.cr3 pid) other = some (frame, otherAttr) → page = other

/-- The byte at an address of the process, if its page is there. -/
def userByte (state : PageState) (pid lin : Nat) : Option Byte :=
  (state.entry (state.cr3 pid) (lin / 4096)).map fun found => state.byteAt (found.1 + lin % 4096)

theorem OwnPages.congr (held : OwnPages dirs pid state) (mem : next.mem = state.mem) (man : next.man = state.man)
    (cr3 : next.cr3 = state.cr3) : OwnPages dirs pid next := by
  refine ⟨held.tables.congr mem man (by rw [cr3]; exact held.tables.cr3), man ▸ held.trusted, by rw [cr3]; exact held.alive,
    ?_, fun page below frame attr found => ?_, fun page below other otherBelow frame attr otherAttr found otherFound => ?_⟩
  · rw [cr3]
    exact fun i table points => held.proper i table (points.congr mem)
  · rw [cr3, entry_congr mem] at found
    exact (held.content page below frame attr found).congr mem man
  · rw [cr3, entry_congr mem] at found otherFound
    exact held.own page below other otherBelow frame attr otherAttr found otherFound

theorem userByte_congr (mem : next.mem = state.mem) (cr3 : next.cr3 = state.cr3) :
    userByte next pid lin = userByte state pid lin := by
  unfold userByte PageState.byteAt
  rw [cr3, entry_congr mem, mem]

theorem page_below (below : lin < kernelLinBase) : lin / 4096 < kernelPage := by
  unfold kernelPage kernelLinBase at *
  omega

theorem kernelPage_inside {page : Nat} (below : page < kernelPage) : page < 1048576 := by
  unfold kernelPage kernelLinBase at below
  omega

/-- What a call of `lin_mapping_phy` for one page keeps. -/
structure KeepsBytes (dirs : List Nat) (pid : Nat) (state next : PageState) : Prop where
  pages : OwnPages dirs pid next
  cr3 : next.cr3 = state.cr3
  bytes : ∀ lin < kernelLinBase, ∀ byte, userByte state pid lin = some byte → userByte next pid lin = some byte
  kept : ∀ page < 1048576, ∀ found, state.entry (state.cr3 pid) page = some found →
    next.entry (state.cr3 pid) page = some found
  dirKept : ∀ i < 1024, Present (state.word (state.cr3 pid) i) →
    next.word (state.cr3 pid) i = state.word (state.cr3 pid) i

theorem KeepsBytes.congr {other : PageState} (keeps : KeepsBytes dirs pid state next) (mem : other.mem = next.mem)
    (man : other.man = next.man) (cr3 : other.cr3 = next.cr3) : KeepsBytes dirs pid state other := by
  refine ⟨keeps.pages.congr mem man cr3, cr3.trans keeps.cr3, fun lin below byte was => ?_,
    fun page inside found was => ?_, fun i inside present => ?_⟩
  · rw [userByte_congr mem cr3]
    exact keeps.bytes lin below byte was
  · rw [entry_congr mem]
    exact keeps.kept page inside found was
  · rw [word_congr mem]
    exact keeps.dirKept i inside present

/-- A page that was missing has got a frame, which no other page has. -/
structure GetsFrame (dirs : List Nat) (pid page frame attr : Nat) (state next : PageState) : Prop where
  absent : state.entry (state.cr3 pid) page = none
  set : next.entry (state.cr3 pid) page = some (frame, attr)
  others : ∀ other < kernelPage, other ≠ page →
    next.entry (state.cr3 pid) other = state.entry (state.cr3 pid) other
  apart : ∀ other < kernelPage, ∀ otherAttr, other ≠ page →
    state.entry (state.cr3 pid) other ≠ some (frame, otherAttr)
  fresh : Content dirs next frame
  contents : ∀ own, Content dirs state own → Content dirs next own ∧ ∀ j < 1024, next.word own j = state.word own j

namespace GetsFrame

variable {page frame : Nat} (gets : GetsFrame dirs pid page frame attr state next) (held : OwnPages dirs pid state)

include gets held

theorem content {other own ownAttr : Nat} (bound : other < kernelPage)
    (found : next.entry (state.cr3 pid) other = some (own, ownAttr)) : Content dirs next own := by
  by_cases here : other = page
  · rw [here, gets.set] at found
    obtain ⟨rfl, _⟩ := Prod.mk.inj (Option.some.inj found)
    exact gets.fresh
  · rw [gets.others other bound here] at found
    exact (gets.contents own (held.content other bound own ownAttr found)).1

theorem own {other third own otherAttr thirdAttr : Nat} (bound : other < kernelPage) (thirdBound : third < kernelPage)
    (found : next.entry (state.cr3 pid) other = some (own, otherAttr))
    (thirdFound : next.entry (state.cr3 pid) third = some (own, thirdAttr)) : other = third := by
  by_cases here : other = page
  · by_cases there : third = page
    · rw [here, there]
    · rw [here, gets.set] at found
      obtain ⟨rfl, _⟩ := Prod.mk.inj (Option.some.inj found)
      rw [gets.others third thirdBound there] at thirdFound
      exact absurd thirdFound (gets.apart third thirdBound thirdAttr there)
  · rw [gets.others other bound here] at found
    by_cases there : third = page
    · rw [there, gets.set] at thirdFound
      obtain ⟨rfl, _⟩ := Prod.mk.inj (Option.some.inj thirdFound)
      exact absurd found (gets.apart other bound otherAttr here)
    · rw [gets.others third thirdBound there] at thirdFound
      exact held.own other bound third thirdBound own otherAttr thirdAttr found thirdFound

/-- The bytes of the other pages are kept. -/
theorem bytes (cr3 : next.cr3 = state.cr3) {byte : Byte} (below : lin < kernelLinBase)
    (isByte : userByte state pid lin = some byte) : userByte next pid lin = some byte := by
  obtain ⟨⟨own, ownAttr⟩, found, isByte⟩ := Option.map_eq_some_iff.mp isByte
  have bound := page_below below
  have elsewhere : lin / 4096 ≠ page := by
    intro same
    rw [same, gets.absent] at found
    cases found
  have content := held.content _ bound own ownAttr found
  have base : pageBase (own + lin % 4096) = own := by
    have aligned := content.aligned
    unfold pageBase
    omega
  unfold userByte
  rw [cr3, gets.others _ bound elsewhere, found, ← isByte]
  refine congrArg some (byteAt_congr fun j inside => ?_)
  rw [base]
  exact (gets.contents own content).2 j inside

end GetsFrame

/-- A page is there, or it gets a fresh frame. -/
theorem OwnPages.map (held : OwnPages dirs pid state) (below : lin < kernelLinBase) (small : attr < 4096)
    (odd : attr % 2 = 1) (done : mapUserPage current pid attr state lin = some next) :
    KeepsBytes dirs pid state next ∧ ∃ found, next.entry (next.cr3 pid) (lin / 4096) = some found := by
  have address : lin < 4294967296 := Nat.lt_trans below (by decide)
  have member := held.tables.cr3 pid held.alive
  have call := mapOk_eq done
  obtain ⟨_, _, mapped⟩ :=
    linMappingPhy_mapped held.tables (held.trusted 2) held.alive address (by decide) (by decide) call
  have keeps := mapped.keeps held.tables member
  have only := mapped.onlyPage held.tables member held.proper
  have maps := mapped.mapsPages held.tables member small odd
  have inside : lin / 4096 < 1048576 := kernelPage_inside (page_below below)
  rcases mapped.entry_max held.tables member rfl inside with ⟨found, isFound, rfl, rfl⟩ | ⟨absent, frame, set, _, free, content⟩
  · exact ⟨⟨held, rfl, fun _ _ _ isByte => isByte, maps.kept, maps.dirKept⟩, found, isFound⟩
  rw [reads_makeEntry content.aligned small odd] at set
  -- the fresh frame is nobody's: the frames of the other pages are in use
  have gets : GetsFrame dirs pid (lin / 4096) frame attr state next := by
    refine ⟨absent, set, fun page bound apart => ?_, fun page bound otherAttr _ found => ?_, content, only.content⟩
    · exact only.entries _ member page (kernelPage_inside bound) fun same => apart (Prod.mk.inj same).2
    · exact (held.content page bound frame otherAttr found).used (mapped.linked.free free)
  have trusted := linMappingPhy_trusted held.tables held.trusted held.alive address call (.inl rfl)
  have pages : OwnPages dirs pid next := by
    refine ⟨keeps.tables, trusted, ?_, ?_, ?_, ?_⟩ <;> rw [keeps.cr3]
    · exact held.alive
    · exact only.proper _ member held.proper
    · exact fun page bound own ownAttr found => gets.content held bound found
    · exact fun page bound other otherBound own ownAttr otherAttr found otherFound =>
        gets.own held bound otherBound found otherFound
  refine ⟨⟨pages, keeps.cr3, fun other bound byte isByte => ?_, maps.kept, maps.dirKept⟩, (frame, attr), ?_⟩
  · exact gets.bytes held keeps.cr3 bound isByte
  · rw [keeps.cr3]
    exact set

/-- A store changes one byte. -/
theorem OwnPages.store {frame : Nat} (held : OwnPages dirs pid state) (below : lin < kernelLinBase)
    (found : state.entry (state.cr3 pid) (lin / 4096) = some (frame, attr)) (byte : Byte) :
    OwnPages dirs pid (state.storeByte (frame + lin % 4096) byte) ∧
      ∀ other < kernelLinBase, userByte (state.storeByte (frame + lin % 4096) byte) pid other =
        if other = lin then some byte else userByte state pid other := by
  have content := held.content _ (page_below below) frame attr found
  have member := held.tables.cr3 pid held.alive
  have filled : Filled dirs frame state (state.storeByte (frame + lin % 4096) byte) :=
    storeByte_filled content.aligned (by omega) state byte
  have entry : ∀ page < 1048576, (state.storeByte (frame + lin % 4096) byte).entry (state.cr3 pid) page =
      state.entry (state.cr3 pid) page := fun page bound => filled.entry held.tables content member bound
  refine ⟨⟨filled.tables held.tables content, held.trusted, held.alive,
    fun i table points => held.proper i table (filled.points held.tables content member points),
    fun page bound own ownAttr isOwn => ?_, fun page bound other otherBound own ownAttr otherAttr isOwn isOther => ?_⟩,
    fun other bound => ?_⟩
  · have isOwn := (entry page (kernelPage_inside bound)).symm.trans isOwn
    have before := held.content page bound own ownAttr isOwn
    exact ⟨before.aligned, before.used, before.notDir, fun dir isDir i points =>
      before.notTable dir isDir i (filled.points held.tables content isDir points)⟩
  · exact held.own page bound other otherBound own ownAttr otherAttr
      ((entry page (kernelPage_inside bound)).symm.trans isOwn)
      ((entry other (kernelPage_inside otherBound)).symm.trans isOther)
  · have same : (state.storeByte (frame + lin % 4096) byte).entry (state.cr3 pid) (other / 4096) =
        state.entry (state.cr3 pid) (other / 4096) := entry _ (kernelPage_inside (page_below bound))
    change ((state.storeByte (frame + lin % 4096) byte).entry (state.cr3 pid) (other / 4096)).map
      (fun found => (state.storeByte (frame + lin % 4096) byte).byteAt (found.1 + other % 4096)) = _
    rw [same]
    unfold userByte
    cases isOwn : state.entry (state.cr3 pid) (other / 4096) with
    | none =>
        have apart : other ≠ lin := by
          intro wrong
          rw [wrong, found] at isOwn
          cases isOwn
        rw [if_neg apart]
        rfl
    | some pair =>
        obtain ⟨own, ownAttr⟩ := pair
        have before := held.content _ (page_below bound) own ownAttr isOwn
        have target : own + other % 4096 = frame + lin % 4096 ↔ other = lin := by
          constructor
          · intro sum
            have aligned := before.aligned
            have frameAligned := content.aligned
            obtain rfl : own = frame := by omega
            have pages := held.own _ (page_below bound) _ (page_below below) own ownAttr attr isOwn found
            omega
          · rintro rfl
            obtain ⟨rfl, _⟩ := Prod.mk.inj (Option.some.inj (isOwn.symm.trans found))
            rfl
        simp only [Option.map_some, byteAt_storeByte, target]
        split <;> rfl

/-- The directory and the tables behind it are as they were. -/
structure SameSpace (start state : PageState) (dir : Nat) : Prop where
  words : ∀ i < 1024, state.word dir i = start.word dir i
  tables : ∀ i table, PointsTo start dir i table → ∀ j < 1024, state.word table j = start.word table j

theorem SameSpace.refl (start : PageState) (dir : Nat) : SameSpace start start dir :=
  ⟨fun _ _ => rfl, fun _ _ _ _ _ => rfl⟩

theorem SameSpace.congr {start : PageState} {dir : Nat} (same : SameSpace start state dir)
    (mem : next.mem = state.mem) : SameSpace start next dir :=
  ⟨fun i inside => (word_congr mem dir i).trans (same.words i inside),
    fun i table points j inside => (word_congr mem table j).trans (same.tables i table points j inside)⟩

theorem SameSpace.entry {start : PageState} {dir page : Nat} (same : SameSpace start state dir)
    (inside : page < 1048576) : state.entry dir page = start.entry dir page := by
  have index : page / 1024 < 1024 := by omega
  refine entry_same (same.words _ index) fun present => ?_
  exact same.tables (page / 1024) _ ⟨index, present, rfl⟩ _ (Nat.mod_lt _ (by decide))

/-- A store to a page changes no directory and no table. -/
theorem SameSpace.store {start : PageState} {frame : Nat} (held : OwnPages dirs pid state) (below : lin < kernelLinBase)
    (found : state.entry (state.cr3 pid) (lin / 4096) = some (frame, attr)) (byte : Byte)
    (same : SameSpace start state (state.cr3 pid)) :
    SameSpace start (state.storeByte (frame + lin % 4096) byte) (state.cr3 pid) := by
  have content := held.content _ (page_below below) frame attr found
  have member := held.tables.cr3 pid held.alive
  have filled : Filled dirs frame state (state.storeByte (frame + lin % 4096) byte) :=
    storeByte_filled content.aligned (by omega) state byte
  refine ⟨fun i inside => ?_, fun i table points j inside => ?_⟩
  · rw [filled.word_dir held.tables content member inside]
    exact same.words i inside
  · have now : PointsTo state (state.cr3 pid) i table := points.of_word (same.words i points.index)
    have apart : table ≠ frame := fun isFrame => content.notTable _ member i (isFrame ▸ now)
    rw [filled.words table points.aligned apart j inside]
    exact same.tables i table points j inside

/-- What a call that maps and stores to some pages has made of a space: what was there is
kept, and all of it where none of the pages was missing. -/
structure Grown (start : PageState) (pid : Nat) (pages : Finset Nat) (state : PageState) : Prop where
  cr3 : state.cr3 = start.cr3
  kept : ∀ page < 1048576, ∀ found, start.entry (start.cr3 pid) page = some found →
    state.entry (start.cr3 pid) page = some found
  dirKept : ∀ i < 1024, Present (start.word (start.cr3 pid) i) →
    state.word (start.cr3 pid) i = start.word (start.cr3 pid) i
  same : (∀ page ∈ pages, ∃ found, start.entry (start.cr3 pid) page = some found) →
    state.man = start.man ∧ SameSpace start state (start.cr3 pid)

namespace Grown

variable {start : PageState} {pages : Finset Nat}

theorem refl (start : PageState) (pid : Nat) (pages : Finset Nat) : Grown start pid pages start :=
  ⟨rfl, fun _ _ _ found => found, fun _ _ _ => rfl, fun _ => ⟨rfl, .refl _ _⟩⟩

theorem congr (grown : Grown start pid pages state) (mem : next.mem = state.mem) (man : next.man = state.man)
    (cr3 : next.cr3 = state.cr3) : Grown start pid pages next := by
  refine ⟨cr3.trans grown.cr3, fun page inside found was => ?_, fun i inside present => ?_, fun present => ?_⟩
  · rw [entry_congr mem]
    exact grown.kept page inside found was
  · rw [word_congr mem]
    exact grown.dirKept i inside present
  · obtain ⟨manSame, same⟩ := grown.same present
    exact ⟨man.trans manSame, same.congr mem⟩

theorem map (grown : Grown start pid pages state) (below : lin < kernelLinBase) (member : lin / 4096 ∈ pages)
    (held : OwnPages dirs pid state) (done : mapUserPage current pid attr state lin = some next)
    (keeps : KeepsBytes dirs pid state next) : Grown start pid pages next := by
  have cr3 : state.cr3 pid = start.cr3 pid := congrFun grown.cr3 pid
  have address : lin < 4294967296 := Nat.lt_trans below (by decide)
  refine ⟨keeps.cr3.trans grown.cr3, fun page inside found was => ?_, fun i inside present => ?_, fun present => ?_⟩
  · have between := grown.kept page inside found was
    rw [← cr3] at between ⊢
    exact keeps.kept page inside found between
  · have between := grown.dirKept i inside present
    rw [← between, ← cr3] at present
    rw [← cr3] at between ⊢
    exact (keeps.dirKept i inside present).trans between
  · obtain ⟨found, isFound⟩ := present _ member
    have between := grown.kept _ (kernelPage_inside (page_below below)) found isFound
    rw [← cr3] at between
    have stays : mapUserPage current pid attr state lin = some state :=
      mapUserPage_present held.tables held.alive address between
    obtain rfl : state = next := Option.some.inj (stays.symm.trans done)
    exact grown.same present

theorem store {frame : Nat} (grown : Grown start pid pages state) (held : OwnPages dirs pid state)
    (below : lin < kernelLinBase) (found : state.entry (state.cr3 pid) (lin / 4096) = some (frame, attr)) (byte : Byte) :
    Grown start pid pages (state.storeByte (frame + lin % 4096) byte) := by
  have cr3 : state.cr3 pid = start.cr3 pid := congrFun grown.cr3 pid
  have alike := SameSpace.store held below found byte (.refl state _)
  refine ⟨grown.cr3, fun page inside other was => ?_, fun i inside present => ?_, fun present => ?_⟩
  · rw [← cr3, alike.entry inside, cr3]
    exact grown.kept page inside other was
  · rw [← cr3, alike.words i inside, cr3]
    exact grown.dirKept i inside present
  · obtain ⟨man, same⟩ := grown.same present
    rw [← cr3] at same ⊢
    exact ⟨man, SameSpace.store held below found byte same⟩

end Grown

/-- A store changes no entry of the directory and of the tables. -/
theorem SuppliesFor.store {frame : Nat} {pages : Finset Nat} (held : OwnPages dirs pid state)
    (below : lin < kernelLinBase) (found : state.entry (state.cr3 pid) (lin / 4096) = some (frame, attr)) (byte : Byte)
    (inside : ∀ page ∈ pages, page < 1048576) (supplies : SuppliesFor state (state.cr3 pid) pages) :
    SuppliesFor (state.storeByte (frame + lin % 4096) byte) (state.cr3 pid) pages := by
  have content := held.content _ (page_below below) frame attr found
  have member := held.tables.cr3 pid held.alive
  have filled : Filled dirs frame state (state.storeByte (frame + lin % 4096) byte) :=
    storeByte_filled content.aligned (by omega) state byte
  have samePages : absentPages (state.storeByte (frame + lin % 4096) byte) (state.cr3 pid) pages =
      absentPages state (state.cr3 pid) pages :=
    Finset.filter_congr fun page inPages => by rw [filled.entry held.tables content member (inside page inPages)]
  have sameTables : absentTables (state.storeByte (frame + lin % 4096) byte) (state.cr3 pid) pages =
      absentTables state (state.cr3 pid) pages := by
    refine Finset.filter_congr fun i inTables => ?_
    obtain ⟨page, inPages, rfl⟩ := Finset.mem_image.mp inTables
    have bound := inside page inPages
    rw [filled.word_dir held.tables content member (by omega)]
  unfold SuppliesFor
  rw [samePages, sameTables]
  exact supplies

end AempOS.Task
