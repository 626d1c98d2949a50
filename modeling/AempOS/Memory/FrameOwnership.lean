import AempOS.Memory.PageStock
import AempOS.Memory.PageTable

/-! Who holds a page of physical memory: a process as its page directory, a
directory entry as its page table, or a present user entry as its frame. In an
owned state every such page is a live block of the memory manager, and no page
has two owners. The lemmas say what the allocator and a store to a directory or
a table do to the owners. -/

set_option autoImplicit false

namespace AempOS.Memory

open Lib Block

theorem pageBase_mod (w : Nat) : pageBase w % 4096 = 0 := by
  unfold pageBase
  omega

/-- The words of two different pages have different addresses. -/
theorem words_apart {left right i j : Nat} (leftPage : left % 4096 = 0)
    (rightPage : right % 4096 = 0) (apart : left ≠ right) (inLeft : i < 1024) (inRight : j < 1024) :
    left + 4 * i ≠ right + 4 * j := by
  omega

namespace PageState

/-- Entry `i` of the page directory of a process. -/
def dirWord (state : PageState) (pid i : Nat) : Nat := state.mem (state.pdePhyAddr pid + 4 * i)

/-- Entry `j` of the page table behind entry `i` of the directory. -/
def tableWord (state : PageState) (pid i j : Nat) : Nat :=
  state.mem (pageBase (state.dirWord pid i) + 4 * j)

end PageState

/-- The places that hold a page. -/
inductive Owner where
  | dir (pid : Nat)
  | table (pid i : Nat)
  | page (pid i j : Nat)
  deriving DecidableEq

/-- A process has a page table for entry `i`. -/
structure HasTable (state : PageState) (pid i : Nat) : Prop where
  alive : state.cr3 pid ≠ 0
  index : i < 1024
  present : Present (state.dirWord pid i)

/-- A present entry that user code may use. -/
structure HasPage (state : PageState) (pid i j : Nat) : Prop extends HasTable state pid i where
  entry : j < 1024
  mapped : Present (state.tableWord pid i j)
  user : UserBit (state.tableWord pid i j)

/-- The page that a place holds. -/
def Holds (state : PageState) : Owner → Nat → Prop
  | .dir pid, page => state.cr3 pid ≠ 0 ∧ page = state.pdePhyAddr pid
  | .table pid i, page => HasTable state pid i ∧ page = pageBase (state.dirWord pid i)
  | .page pid i j, page => HasPage state pid i j ∧ page = pageBase (state.tableWord pid i j)

/-- The entry of the page above the stack: the user's, with its page, or never
mapped. -/
def ArgWord (w : Nat) : Prop := (UserBit w → Present w) ∧ (¬UserBit w → pageBase w < memStart)

instance (w : Nat) : Decidable (ArgWord w) := inferInstanceAs (Decidable (_ ∧ _))

/-- Every page that is held is a live block, and has one owner. A process has the
page table of its stack, and has not given back the page above the stack. -/
structure Owned (domain : Nat → Prop) (state : PageState) (live : List FreeInfo) : Prop where
  stock : Stock domain state.man live
  live : ∀ owner page, Holds state owner page → memStart ≤ page ∧ ⟨page, 4096⟩ ∈ live
  unique : ∀ owner other page, Holds state owner page → Holds state other page → owner = other
  stack : ∀ pid, state.cr3 pid ≠ 0 → Present (state.dirWord pid 767)
  arg : ∀ pid, state.cr3 pid ≠ 0 → ArgWord (state.tableWord pid 767 1023)
  limits : ∀ pid, state.heapLimit pid < 4294967296

/-- A live page that nobody holds. -/
structure Spare (state : PageState) (live : List FreeInfo) (page : Nat) : Prop where
  low : memStart ≤ page
  aligned : page % 4096 = 0
  live : ⟨page, 4096⟩ ∈ live
  unheld : ∀ owner, ¬Holds state owner page

variable {domain : Nat → Prop} {state next : PageState} {live : List FreeInfo}

theorem Holds.aligned {owner : Owner} {page : Nat} (held : Holds state owner page) :
    page % 4096 = 0 := by
  cases owner with
  | dir pid => exact held.2 ▸ pageBase_mod _
  | table pid i => exact held.2 ▸ pageBase_mod _
  | page pid i j => exact held.2 ▸ pageBase_mod _

/-- The words of directories and tables have the same contents in both states. -/
structure SameTables (state next : PageState) : Prop where
  cr3 : next.cr3 = state.cr3
  dirs : ∀ pid i, state.cr3 pid ≠ 0 → i < 1024 → next.dirWord pid i = state.dirWord pid i
  tables : ∀ pid i j, HasTable state pid i → j < 1024 →
    next.tableWord pid i j = state.tableWord pid i j

/-- Memory that differs outside the directories and tables that are held. -/
theorem SameTables.of_tables (cr3 : next.cr3 = state.cr3)
    (mem : ∀ owner page, Holds state owner page → (∀ pid i j, owner ≠ .page pid i j) → ∀ i < 1024,
      next.mem (page + 4 * i) = state.mem (page + 4 * i)) : SameTables state next := by
  have dirs : ∀ pid i, state.cr3 pid ≠ 0 → i < 1024 →
      next.dirWord pid i = state.dirWord pid i := by
    intro pid i alive index
    have owner : Holds state (.dir pid) (state.pdePhyAddr pid) := ⟨alive, rfl⟩
    simpa [PageState.dirWord, PageState.pdePhyAddr, cr3] using mem _ _ owner (by simp) i index
  refine ⟨cr3, dirs, fun pid i j table entry => ?_⟩
  have owner : Holds state (.table pid i) (pageBase (state.dirWord pid i)) := ⟨table, rfl⟩
  rw [PageState.tableWord, dirs pid i table.alive table.index]
  exact mem _ _ owner (by simp) j entry

/-- Memory that differs outside all pages that are held. -/
theorem SameTables.of_mem (cr3 : next.cr3 = state.cr3)
    (mem : ∀ owner page, Holds state owner page → ∀ i < 1024,
      next.mem (page + 4 * i) = state.mem (page + 4 * i)) : SameTables state next :=
  .of_tables cr3 fun owner page holds _ => mem owner page holds

theorem SameTables.holds (same : SameTables state next) {owner : Owner} {page : Nat}
    (held : Holds next owner page) : Holds state owner page := by
  have table : ∀ {pid i}, HasTable next pid i → HasTable state pid i := by
    intro pid i table
    have alive := same.cr3 ▸ table.alive
    exact ⟨alive, table.index, same.dirs pid i alive table.index ▸ table.present⟩
  cases owner with
  | dir pid =>
      obtain ⟨alive, rfl⟩ := held
      exact ⟨same.cr3 ▸ alive, by simp [PageState.pdePhyAddr, same.cr3]⟩
  | table pid i =>
      obtain ⟨has, rfl⟩ := held
      exact ⟨table has, by rw [same.dirs pid i (table has).alive has.index]⟩
  | page pid i j =>
      obtain ⟨has, rfl⟩ := held
      have word := same.tables pid i j (table has.toHasTable) has.entry
      exact ⟨⟨table has.toHasTable, has.entry, word ▸ has.mapped, word ▸ has.user⟩, by rw [word]⟩

theorem Owned.same (held : Owned domain state live) (same : SameTables state next)
    (man : next.man = state.man) (limits : ∀ pid, next.heapLimit pid < 4294967296) :
    Owned domain next live := by
  have stackTable : ∀ pid, next.cr3 pid ≠ 0 → HasTable state pid 767 := by
    intro pid alive
    rw [same.cr3] at alive
    exact ⟨alive, by decide, held.stack pid alive⟩
  refine ⟨man ▸ held.stock, fun owner page holds => held.live owner page (same.holds holds),
    fun owner other page left right => held.unique owner other page (same.holds left) (same.holds right),
    fun pid alive => ?_, fun pid alive => ?_, limits⟩
  · rw [same.dirs pid 767 (stackTable pid alive).alive (by decide)]
    exact (stackTable pid alive).present
  · rw [same.tables pid 767 1023 (stackTable pid alive) (by decide)]
    exact held.arg pid (stackTable pid alive).alive

/-- The manager changes, and the pages that are held stay live. -/
theorem Owned.restock (held : Owned domain state live) {man : Memman} {stocked : List FreeInfo}
    (stock : Stock domain man stocked)
    (kept : ∀ owner page, Holds state owner page → ⟨page, 4096⟩ ∈ stocked) :
    Owned domain { state with man } stocked := by
  have same : SameTables state { state with man } := .of_mem rfl fun _ _ _ _ _ => rfl
  refine ⟨stock, fun owner page holds => ?_, fun owner other page left right => ?_, ?_, ?_, held.limits⟩
  · have before := same.holds holds
    exact ⟨(held.live owner page before).1, kept owner page before⟩
  · exact held.unique owner other page (same.holds left) (same.holds right)
  · exact held.stack
  · exact held.arg

theorem Owned.take (held : Owned domain state live) {lo hi : Nat} (zone : PageAllocator lo hi) :
    allocZone lo hi state.man 0x1000 = (state.man, failed) ∨
      ∃ rest page, allocZone lo hi state.man 0x1000 = (rest, page) ∧ page ≠ failed ∧
        Owned domain { state with man := rest } (⟨page, 4096⟩ :: live) ∧
        Spare { state with man := rest } (⟨page, 4096⟩ :: live) page := by
  obtain same | ⟨rest, page, result, notFailed, low, aligned, stock⟩ := held.stock.alloc zone
  · exact .inl same
  · refine .inr ⟨rest, page, result, notFailed, ?_, low, aligned, by simp, fun owner holds => ?_⟩
    · exact held.restock stock fun owner page holds =>
        List.mem_cons_of_mem _ (held.live owner page holds).2
    · have same : SameTables state { state with man := rest } := .of_mem rfl fun _ _ _ _ _ => rfl
      have member := (held.live owner page (same.holds holds)).2
      have apart := (List.pairwise_cons.mp stock.booked.apart).1 _ member
      simp only [Apart, stop] at apart
      omega

theorem Owned.release (held : Owned domain state live) {page : Nat} (spare : Spare state live page) :
    Owned domain { state with man := (memmanFree state.man page 0x1000).1 }
      (live.erase ⟨page, 4096⟩) := by
  refine held.restock (held.stock.free spare.live spare.aligned) fun owner other holds => ?_
  refine (List.mem_erase_of_ne fun same => ?_).mpr (held.live owner other holds).2
  have isPage : other = page := congrArg Block.addr same
  exact spare.unheld owner (isPage ▸ holds)

theorem Owned.words_apart (held : Owned domain state live) {left right : Owner} {a b i j : Nat}
    (ofLeft : Holds state left a) (ofRight : Holds state right b) (differ : left ≠ right)
    (inLeft : i < 1024) (inRight : j < 1024) : a + 4 * i ≠ b + 4 * j := by
  refine Memory.words_apart ofLeft.aligned ofRight.aligned (fun same => ?_) inLeft inRight
  exact differ (held.unique left right a ofLeft (same ▸ ofRight))

theorem Owned.gain (held : Owned domain state live) {added : Owner} {page : Nat}
    (spare : Spare state live page)
    (holds : ∀ owner other, Holds next owner other →
      Holds state owner other ∨ owner = added ∧ other = page) :
    (∀ owner other, Holds next owner other → memStart ≤ other ∧ ⟨other, 4096⟩ ∈ live) ∧
      ∀ owner other shared, Holds next owner shared → Holds next other shared → owner = other := by
  refine ⟨fun owner other held' => ?_, fun owner other shared left right => ?_⟩
  · rcases holds owner other held' with before | ⟨_, rfl⟩
    · exact held.live owner other before
    · exact ⟨spare.low, spare.live⟩
  · rcases holds owner shared left with before | ⟨rfl, rfl⟩
    · rcases holds other shared right with beforeRight | ⟨_, rfl⟩
      · exact held.unique owner other shared before beforeRight
      · exact absurd before (spare.unheld owner)
    · rcases holds other shared right with beforeRight | ⟨rfl, _⟩
      · exact absurd beforeRight (spare.unheld other)
      · rfl

/-! ## A store to a page table -/

/-- Only entry `j` of the table behind entry `i` changes, to `word`. -/
structure TableWrite (state next : PageState) (pid i j word : Nat) : Prop where
  cr3 : next.cr3 = state.cr3
  dirs : ∀ p k, state.cr3 p ≠ 0 → k < 1024 → next.dirWord p k = state.dirWord p k
  others : ∀ p k l, HasTable state p k → l < 1024 → (p, k, l) ≠ (pid, i, j) →
    next.tableWord p k l = state.tableWord p k l
  written : next.tableWord pid i j = word

theorem Owned.tableWrite (held : Owned domain state live) {pid i j word : Nat}
    (table : HasTable state pid i) (entry : j < 1024) (cr3 : next.cr3 = state.cr3)
    (mem : next.mem = Function.update state.mem (pageBase (state.dirWord pid i) + 4 * j) word) :
    TableWrite state next pid i j word := by
  have ofTable : Holds state (.table pid i) (pageBase (state.dirWord pid i)) := ⟨table, rfl⟩
  have dirs : ∀ p k, state.cr3 p ≠ 0 → k < 1024 → next.dirWord p k = state.dirWord p k := by
    intro p k alive index
    have ofDir : Holds state (.dir p) (state.pdePhyAddr p) := ⟨alive, rfl⟩
    have apart := held.words_apart ofDir ofTable (by simp) index entry
    simp only [PageState.dirWord, PageState.pdePhyAddr, cr3, mem]
    exact Function.update_of_ne apart _ _
  refine ⟨cr3, dirs, fun p k l other inside differ => ?_, ?_⟩
  · rw [PageState.tableWord, dirs p k other.alive other.index, mem, PageState.tableWord]
    refine Function.update_of_ne ?_ _ _
    by_cases same : (p, k) = (pid, i)
    · cases same
      have : l ≠ j := fun sameEntry => differ (by rw [sameEntry])
      omega
    · have ofOther : Holds state (.table p k) (pageBase (state.dirWord p k)) := ⟨other, rfl⟩
      refine held.words_apart ofOther ofTable (fun sameOwner => ?_) inside entry
      cases sameOwner
      exact same rfl
  · rw [PageState.tableWord, dirs pid i table.alive table.index, mem]
    exact Function.update_self ..

theorem Owned.write_table (held : Owned domain state live) {pid i j : Nat} (table : HasTable state pid i)
    (entry : j < 1024) (word : Nat) :
    TableWrite state (state.write (pageBase (state.dirWord pid i) + 4 * j) word) pid i j word :=
  held.tableWrite table entry rfl rfl

namespace TableWrite

variable {pid i j word : Nat}

theorem table (write : TableWrite state next pid i j word) {p k : Nat} (has : HasTable next p k) :
    HasTable state p k := by
  have alive := write.cr3 ▸ has.alive
  exact ⟨alive, has.index, write.dirs p k alive has.index ▸ has.present⟩

theorem holds (write : TableWrite state next pid i j word) {owner : Owner} {page : Nat}
    (held : Holds next owner page) :
    Holds state owner page ∧ owner ≠ .page pid i j ∨
      owner = .page pid i j ∧ page = pageBase word ∧ Present word ∧ UserBit word := by
  cases owner with
  | dir p =>
      obtain ⟨alive, rfl⟩ := held
      exact .inl ⟨⟨write.cr3 ▸ alive, by simp [PageState.pdePhyAddr, write.cr3]⟩, by simp⟩
  | table p k =>
      obtain ⟨has, rfl⟩ := held
      have before := write.table has
      exact .inl ⟨⟨before, by rw [write.dirs p k before.alive has.index]⟩, by simp⟩
  | page p k l =>
      obtain ⟨has, rfl⟩ := held
      have before := write.table has.toHasTable
      by_cases same : (p, k, l) = (pid, i, j)
      · cases same
        have written := write.written
        exact .inr ⟨rfl, by rw [written], written ▸ has.mapped, written ▸ has.user⟩
      · have kept := write.others p k l before has.entry same
        refine .inl ⟨⟨⟨before, has.entry, kept ▸ has.mapped, kept ▸ has.user⟩, by rw [kept]⟩, ?_⟩
        intro sameOwner
        cases sameOwner
        exact same rfl

/-- The page above the stack is as it was, or it is the entry that was written. -/
theorem keeps_arg (write : TableWrite state next pid i j word) (held : Owned domain state live)
    (written : i = 767 → j = 1023 → ArgWord word) {p : Nat} (alive : next.cr3 p ≠ 0) :
    ArgWord (next.tableWord p 767 1023) := by
  rw [write.cr3] at alive
  by_cases same : (p, 767, 1023) = (pid, i, j)
  · cases same
    rw [write.written]
    exact written rfl rfl
  · rw [write.others p 767 1023 ⟨alive, by decide, held.stack p alive⟩ (by decide) same]
    exact held.arg p alive

theorem keeps_stack (write : TableWrite state next pid i j word) (held : Owned domain state live)
    {p : Nat} (alive : next.cr3 p ≠ 0) : Present (next.dirWord p 767) := by
  rw [write.cr3] at alive
  rw [write.dirs p 767 alive (by decide)]
  exact held.stack p alive

end TableWrite

section

variable {pid i j word : Nat} (held : Owned domain state live)
  (write : TableWrite state next pid i j word) (man : next.man = state.man)
  (limits : next.heapLimit = state.heapLimit)

include held write man limits

theorem Owned.map {page : Nat} (spare : Spare state live page) (base : pageBase word = page)
    (present : Present word) (user : UserBit word) : Owned domain next live := by
  obtain ⟨isLive, unique⟩ := held.gain spare fun owner other holds => by
    rcases write.holds holds with ⟨before, _⟩ | ⟨isPage, isBase, _⟩
    · exact .inl before
    · exact .inr ⟨isPage, isBase.trans base⟩
  exact ⟨man ▸ held.stock, isLive, unique, fun p => write.keeps_stack held,
    fun p => write.keeps_arg held fun _ _ => ⟨fun _ => present, fun notUser => absurd user notUser⟩,
    limits ▸ held.limits⟩

/-- The entry is not one of the user's after the store. If it was, its page is
spare now. -/
theorem Owned.unmap (hidden : ¬(Present word ∧ UserBit word))
    (arg : i = 767 → j = 1023 → ArgWord word) :
    Owned domain next live ∧ ∀ page, Holds state (.page pid i j) page → Spare next live page := by
  have kept : ∀ {owner page}, Holds next owner page →
      Holds state owner page ∧ owner ≠ .page pid i j := by
    intro owner page holds
    rcases write.holds holds with before | ⟨_, _, visible⟩
    · exact before
    · exact absurd visible hidden
  refine ⟨⟨man ▸ held.stock, fun owner page holds => held.live owner page (kept holds).1,
    fun owner other page left right => held.unique owner other page (kept left).1 (kept right).1,
    fun p => write.keeps_stack held, fun p => write.keeps_arg held arg, limits ▸ held.limits⟩, ?_⟩
  intro page owned
  refine ⟨(held.live _ page owned).1, owned.aligned, (held.live _ page owned).2, fun owner holds => ?_⟩
  exact (kept holds).2 (held.unique owner _ page (kept holds).1 owned)

end

/-! ## A store to a page directory -/

/-- Entry `i` of a directory, empty before, gets the empty table at `page`. -/
structure DirWrite (state next : PageState) (pid i page : Nat) : Prop where
  cr3 : next.cr3 = state.cr3
  alive : state.cr3 pid ≠ 0
  index : i < 1024
  absent : ¬Present (state.dirWord pid i)
  present : Present (next.dirWord pid i)
  base : pageBase (next.dirWord pid i) = page
  dirs : ∀ p k, state.cr3 p ≠ 0 → k < 1024 → (p, k) ≠ (pid, i) →
    next.dirWord p k = state.dirWord p k
  tables : ∀ p k l, HasTable state p k → l < 1024 → next.tableWord p k l = state.tableWord p k l
  empty : ∀ l < 1024, next.tableWord pid i l = 0

theorem Owned.dirWrite (held : Owned domain state live) {pid i word page : Nat}
    (alive : state.cr3 pid ≠ 0) (index : i < 1024) (absent : ¬Present (state.dirWord pid i))
    (spare : Spare state live page) (base : pageBase word = page) (present : Present word)
    (empty : ∀ j < 1024, state.mem (page + 4 * j) = 0) (cr3 : next.cr3 = state.cr3)
    (mem : next.mem = Function.update state.mem (state.pdePhyAddr pid + 4 * i) word) :
    DirWrite state next pid i page := by
  have ofDir : Holds state (.dir pid) (state.pdePhyAddr pid) := ⟨alive, rfl⟩
  have written : next.dirWord pid i = word := by
    simp only [PageState.dirWord, PageState.pdePhyAddr, cr3, mem]
    exact Function.update_self ..
  have dirs : ∀ p k, state.cr3 p ≠ 0 → k < 1024 → (p, k) ≠ (pid, i) →
      next.dirWord p k = state.dirWord p k := by
    intro p k otherAlive inside differ
    have apart : state.pdePhyAddr p + 4 * k ≠ state.pdePhyAddr pid + 4 * i := by
      by_cases same : p = pid
      · subst same
        have : k ≠ i := fun sameIndex => differ (by rw [sameIndex])
        omega
      · have ofOther : Holds state (.dir p) (state.pdePhyAddr p) := ⟨otherAlive, rfl⟩
        exact held.words_apart ofOther ofDir (by simpa using same) inside index
    simp only [PageState.dirWord, PageState.pdePhyAddr, cr3, mem]
    exact Function.update_of_ne apart _ _
  refine ⟨cr3, alive, index, absent, written ▸ present, written ▸ base, dirs, ?_, ?_⟩
  · intro p k l table inside
    have differ : (p, k) ≠ (pid, i) := by
      rintro ⟨⟩
      exact absent table.present
    have ofTable : Holds state (.table p k) (pageBase (state.dirWord p k)) := ⟨table, rfl⟩
    have apart := held.words_apart ofTable ofDir (by simp) inside index
    rw [PageState.tableWord, dirs p k table.alive table.index differ, mem]
    exact Function.update_of_ne apart _ _
  · intro l inside
    have notDir : page ≠ state.pdePhyAddr pid := fun same => spare.unheld _ (same ▸ ofDir)
    have apart := Memory.words_apart spare.aligned ofDir.aligned notDir inside index
    rw [PageState.tableWord, written, base, mem, Function.update_of_ne apart]
    exact empty l inside

theorem DirWrite.holds {pid i page : Nat} (write : DirWrite state next pid i page) {owner : Owner}
    {other : Nat} (held : Holds next owner other) :
    Holds state owner other ∨ owner = .table pid i ∧ other = page := by
  have table : ∀ {p k}, HasTable next p k → HasTable state p k ∨ (p, k) = (pid, i) := by
    intro p k has
    by_cases same : (p, k) = (pid, i)
    · exact .inr same
    · have alive := write.cr3 ▸ has.alive
      exact .inl ⟨alive, has.index, write.dirs p k alive has.index same ▸ has.present⟩
  cases owner with
  | dir p =>
      obtain ⟨alive, rfl⟩ := held
      exact .inl ⟨write.cr3 ▸ alive, by simp [PageState.pdePhyAddr, write.cr3]⟩
  | table p k =>
      obtain ⟨has, rfl⟩ := held
      rcases table has with before | same
      · have differ : (p, k) ≠ (pid, i) := by
          rintro ⟨⟩
          exact write.absent before.present
        exact .inl ⟨before, by rw [write.dirs p k before.alive has.index differ]⟩
      · cases same
        exact .inr ⟨rfl, write.base⟩
  | page p k l =>
      obtain ⟨has, rfl⟩ := held
      rcases table has.toHasTable with before | same
      · have kept := write.tables p k l before has.entry
        exact .inl ⟨⟨before, has.entry, kept ▸ has.mapped, kept ▸ has.user⟩, by rw [kept]⟩
      · cases same
        have mapped := has.mapped
        rw [write.empty l has.entry] at mapped
        exact absurd mapped (by decide)

theorem Owned.link (held : Owned domain state live) {pid i page : Nat}
    (write : DirWrite state next pid i page) (spare : Spare state live page)
    (man : next.man = state.man) (limits : next.heapLimit = state.heapLimit) :
    Owned domain next live := by
  obtain ⟨isLive, unique⟩ := held.gain spare fun owner other => write.holds
  refine ⟨man ▸ held.stock, isLive, unique, fun p alive => ?_, fun p alive => ?_,
    limits ▸ held.limits⟩
  · rw [write.cr3] at alive
    have differ : (p, 767) ≠ (pid, i) := by
      intro same
      obtain ⟨rfl, rfl⟩ := Prod.mk.inj same
      exact write.absent (held.stack p alive)
    rw [write.dirs p 767 alive (by decide) differ]
    exact held.stack p alive
  · rw [write.cr3] at alive
    rw [write.tables p 767 1023 ⟨alive, by decide, held.stack p alive⟩ (by decide)]
    exact held.arg p alive

end AempOS.Memory
