import AempOS.Boot.FreeMemory
import AempOS.Boot.PagingProperties

/-! The table that `getFreeMemInfo` leaves names the bad pages, and the blocks that the
memory manager hands out from it lie in pages that passed the test. -/

set_option autoImplicit false

namespace AempOS.Boot

open Lib Block Memory

variable {ram : Ram} {words : Words} {start page n : Nat} {table : List Nat} {memory : Buffer}

/-- The entries from a page on: the bad pages, and where the last test ended. -/
structure Reported (ram : Ram) (start : Nat) (table : List Nat) : Prop where
  aligned : ∀ info ∈ table, info % pageSize = 0
  increasing : table.Pairwise (· < ·)
  above : ∀ info ∈ table, start ≤ info
  bound : ∀ info ∈ table, info ≤ 0x02001000
  bad : ∀ info ∈ table, info ≤ memEnd → ¬Good ram info
  complete : ∀ page, page % pageSize = 0 → start ≤ page → (∃ info ∈ table, page ≤ info) →
    ¬Good ram page → page ∈ table
  last : ∃ info ∈ table, memEnd ≤ info + pageSize

/-- The test ended at the end of the memory. -/
theorem Reported.single (aligned : page % pageSize = 0) (low : start ≤ page)
    (high : page ≤ 0x02001000) (bad : page ≤ memEnd → ¬Good ram page)
    (good : ∀ other, other % pageSize = 0 → start ≤ other → other < page → Good ram other)
    (ends : memEnd ≤ page + pageSize) : Reported ram start [page] where
  aligned info member := List.mem_singleton.mp member ▸ aligned
  increasing := List.pairwise_singleton _ _
  above info member := List.mem_singleton.mp member ▸ low
  bound info member := List.mem_singleton.mp member ▸ high
  bad info member := List.mem_singleton.mp member ▸ bad
  complete other onPage above reaches failed := by
    obtain ⟨info, member, below⟩ := reaches
    rw [List.mem_singleton.mp member] at below
    have same : other = page := by
      apply Nat.le_antisymm below
      by_contra before
      exact failed (good other onPage above (by omega))
    simp [same]
  last := ⟨page, List.mem_singleton_self page, ends⟩

/-- The test ended at a bad page, and the rounds go on behind it. -/
theorem Reported.cons (aligned : page % pageSize = 0) (low : start ≤ page)
    (bad : ¬Good ram page) (inside : page < memEnd)
    (good : ∀ other, other % pageSize = 0 → start ≤ other → other < page → Good ram other)
    (rest : Reported ram (page + pageSize) table) : Reported ram start (page :: table) where
  aligned := List.forall_mem_cons.mpr ⟨aligned, rest.aligned⟩
  increasing := List.pairwise_cons.mpr ⟨fun info member => by
    have := rest.above info member
    unfold pageSize at this
    omega, rest.increasing⟩
  above := List.forall_mem_cons.mpr ⟨low, fun info member => by
    have := rest.above info member
    omega⟩
  bound := List.forall_mem_cons.mpr ⟨by unfold memEnd at inside; omega, rest.bound⟩
  bad := List.forall_mem_cons.mpr ⟨fun _ => bad, rest.bad⟩
  complete other onPage above reaches failed := by
    rcases Nat.lt_trichotomy other page with before | same | behind
    · exact absurd (good other onPage above before) failed
    · simp [same]
    · have next : page + pageSize ≤ other := by
        unfold pageSize at *
        omega
      obtain ⟨info, member, below⟩ := reaches
      have inRest : info ∈ table := by
        refine (List.mem_cons.mp member).resolve_left fun isFirst => ?_
        omega
      exact List.mem_cons_of_mem _ (rest.complete other onPage next ⟨info, inRest, below⟩ failed)
  last := by
    obtain ⟨info, member, ends⟩ := rest.last
    exact ⟨info, List.mem_cons_of_mem _ member, ends⟩

/-- The words of the table keep what is stored. -/
def BufferKept (ram : Ram) : Prop := ∀ i ≤ 255, ∀ value, ram (fmiBuff + 4 * i) value = value

/-- An entry is stored, and the entries before it stay. -/
theorem entry_stored {tested : Words} {number : Nat} (value : BitVec 32) (buffer : BufferKept ram)
    (room : number < 255) (kept : ∀ addr, addr % 4096 ≠ 0xFFC → tested addr = words addr) :
    ram.store tested (fmiBuff + 4 * number + 4) value (fmiBuff + 4 * (number + 1)) = value ∧
      ∀ i ≤ number,
        ram.store tested (fmiBuff + 4 * number + 4) value (fmiBuff + 4 * i) = words (fmiBuff + 4 * i) := by
  have place : fmiBuff + 4 * number + 4 = fmiBuff + 4 * (number + 1) := rfl
  unfold Ram.store
  constructor
  · rw [place, Function.update_self, buffer (number + 1) room]
  · intro i before
    have apart : fmiBuff + 4 * i ≠ fmiBuff + 4 * number + 4 := by omega
    rw [Function.update_of_ne apart]
    apply kept
    unfold fmiBuff
    omega

theorem fmiLoop_round {rounds number edx : Nat} {tested : Words}
    (ran : memtest ram 0x02000000 0x2001 words start = some (tested, page)) :
    fmiLoop ram (rounds + 1) words start edx number =
      if page + 0x1000 < 0x02000000 then
        fmiLoop ram rounds (ram.store tested (edx + 4) (BitVec.ofNat 32 page)) (page + 0x1000) (edx + 4)
          (number + 1)
      else some (ram.store tested (edx + 4) (BitVec.ofNat 32 page), number + 1) := by
  simp only [fmiLoop, ran, Option.bind_eq_bind, Option.bind_some]

/-- The rounds from a page on store the entries behind those that are there. -/
theorem fmiLoop_spec {rounds number : Nat} (aligned : start % pageSize = 0) (below : start < memEnd)
    (enough : memEnd ≤ start + 0x1000 * rounds) (words : Words) :
    ∃ next table, fmiLoop ram rounds words start (fmiBuff + 4 * number) number =
        some (next, number + table.length) ∧ Reported ram start table ∧
      (BufferKept ram → number + table.length ≤ 255 →
        (∀ i (inside : i < table.length),
          next (fmiBuff + 4 * (number + i + 1)) = BitVec.ofNat 32 table[i]) ∧
        ∀ i ≤ number, next (fmiBuff + 4 * i) = words (fmiBuff + 4 * i)) := by
  induction rounds generalizing start words number with
  | zero => omega
  | succ rounds ih =>
      have stops : (0x02000000 : Nat) % 4096 = 0 := by decide
      have tests : 0x02000000 / 4096 < start / 4096 + 0x2001 :=
        Nat.lt_of_lt_of_le (by decide) (Nat.le_add_left ..)
      obtain ⟨tested, page, ran, pageAligned, low, high, bad, good, kept⟩ :=
        @memtest_spec ram start 0x02000000 0x2001 aligned stops (Nat.le_of_lt below) tests words
      rw [fmiLoop_round ran]
      split
      next more =>
        have nextAligned : (page + pageSize) % pageSize = 0 := (Nat.add_mod_right ..).trans pageAligned
        have left : memEnd ≤ page + pageSize + 0x1000 * rounds := by
          unfold pageSize
          rw [Nat.mul_succ] at enough
          omega
        obtain ⟨next, table, ran, reported, stored⟩ := @ih (page + pageSize) (number + 1) nextAligned more left
          (ram.store tested (fmiBuff + 4 * number + 4) (BitVec.ofNat 32 page))
        have inside : page < memEnd := Nat.lt_of_le_of_lt (Nat.le_add_right ..) more
        refine ⟨next, page :: table, ?_, .cons pageAligned low (bad (Nat.le_of_lt inside)) inside good reported,
          fun buffer room => ?_⟩
        · rw [List.length_cons, Nat.add_comm table.length, ← Nat.add_assoc]
          exact ran
        · rw [List.length_cons] at room
          obtain ⟨entries, before⟩ := stored buffer (by omega)
          have free : number < 255 := by omega
          obtain ⟨here, earlier⟩ := entry_stored (BitVec.ofNat 32 page) buffer free kept
          refine ⟨fun i inside => ?_, fun i low => (before i (by omega)).trans (earlier i low)⟩
          cases i with
          | zero => exact (before (number + 1) (Nat.le_refl _)).trans here
          | succ i =>
              have entry := entries i (Nat.lt_of_succ_lt_succ inside)
              rwa [Nat.add_right_comm number 1 i] at entry
      next ends =>
        refine ⟨_, [page], rfl, .single pageAligned low high bad good (Nat.le_of_not_lt ends),
          fun buffer room => ?_⟩
        obtain ⟨here, earlier⟩ := entry_stored (BitVec.ofNat 32 page) buffer room kept
        refine ⟨fun i inside => ?_, earlier⟩
        obtain rfl : i = 0 := Nat.lt_one_iff.mp inside
        exact here

/-- The pages from 0 to 32 MiB whose last word fails. -/
def badPages (ram : Ram) : List Nat :=
  ((List.range 0x2001).map (0x1000 * ·)).filter fun page => ¬Good ram page

/-- Every entry but the last is a bad page. -/
theorem Reported.length (reported : Reported ram start table) :
    table.length ≤ (badPages ram).length + 1 := by
  obtain rfl | ⟨before, last, rfl⟩ := List.eq_nil_or_concat' table
  · exact Nat.zero_le _
  · obtain ⟨increasing, _, behind⟩ := List.pairwise_append.mp reported.increasing
    have distinct : before.Nodup := increasing.imp Nat.ne_of_lt
    have failed : before ⊆ badPages ram := by
      intro info member
      have inTable : info ∈ before ++ [last] := List.mem_append_left _ member
      have aligned := reported.aligned info inTable
      have below := behind info member last (List.mem_singleton_self last)
      have lastPage := reported.aligned last (by simp)
      have bound := reported.bound last (by simp)
      have early : info ≤ memEnd := by
        unfold memEnd pageSize at *
        omega
      refine List.mem_filter.mpr ⟨List.mem_map.mpr ⟨info / 0x1000, List.mem_range.mpr ?_, ?_⟩,
        decide_eq_true (reported.bad info inTable early)⟩
      · unfold memEnd at early
        omega
      · unfold pageSize at aligned
        omega
    rw [List.length_append, List.length_singleton]
    exact Nat.succ_le_succ (List.subperm_of_subset distinct failed).length_le

theorem Reported.loaderTable (reported : Reported ram start table) (few : (badPages ram).length ≤ 254) :
    LoaderTable table :=
  ⟨Nat.le_trans reported.length (by omega), reported.aligned, reported.increasing, reported.bound⟩

/-- A page that the kernel takes from the table has passed. -/
theorem Reported.good (reported : Reported ram 0 table) (aligned : page % pageSize = 0)
    (usable : Usable table page) : memStart ≤ page ∧ Good ram page := by
  obtain ⟨low, ⟨info, member, below⟩, apart⟩ := (usableFrom_memStart reported.increasing).mpr usable
  refine ⟨low, ?_⟩
  by_contra failed
  exact apart (reported.complete page aligned (Nat.zero_le _) ⟨info, member, Nat.le_of_lt below⟩ failed)

/-- The kernel takes every page that has passed. -/
theorem Reported.usable (reported : Reported ram 0 table) (aligned : page % pageSize = 0)
    (low : memStart ≤ page) (high : page < memEnd) (good : Good ram page) : Usable table page := by
  rw [← usableFrom_memStart reported.increasing]
  have apart : page ∉ table := fun member => reported.bad page member (Nat.le_of_lt high) good
  obtain ⟨info, member, ends⟩ := reported.last
  have differ : page ≠ info := fun same => apart (same ▸ member)
  have infoPage := reported.aligned info member
  refine ⟨low, ⟨info, member, ?_⟩, apart⟩
  unfold pageSize memEnd at *
  omega

/-- The table at `FMIBuff`: the number of the entries, and the entries. -/
structure Listed (table : List Nat) (words : Words) : Prop where
  count : words fmiBuff = BitVec.ofNat 32 table.length
  entries : ∀ i (inside : i < table.length), words (fmiBuff + 4 * (i + 1)) = BitVec.ofNat 32 table[i]

/-- `getFreeMemInfo` leaves a table of the bad pages for the kernel. -/
theorem getFreeMemInfo_spec (buffer : BufferKept ram) (few : (badPages ram).length ≤ 254)
    (words : Words) :
    ∃ next table, getFreeMemInfo ram words = some next ∧ Reported ram 0 table ∧ Listed table next := by
  obtain ⟨last, table, ran, reported, stored⟩ :=
    @fmiLoop_spec ram 0 0x2001 0 (by decide) (by decide) (by decide) words
  have length := reported.length
  rw [Nat.zero_add] at ran stored
  have ran : fmiLoop ram 0x2001 words 0 fmiBuff 0 = some (last, table.length) := ran
  obtain ⟨entries, _⟩ := stored buffer (by omega)
  refine ⟨ram.store last fmiBuff (BitVec.ofNat 32 table.length), table, by rw [getFreeMemInfo, ran]; rfl,
    reported, ?_, fun i inside => ?_⟩
  · rw [Ram.store, Function.update_self]
    exact buffer 0 (by decide) _
  · have apart : fmiBuff + 4 * (i + 1) ≠ fmiBuff := by omega
    have entry := entries i inside
    rw [Nat.zero_add] at entry
    rw [Ram.store, Function.update_of_ne apart, entry]

/-! ## The table that `init` copies -/

theorem word32_bytesOf (words : Words) {a : Nat} (aligned : a % 4 = 0) :
    word32 (bytesOf words) a = (words a).toNat := by
  have small := (words a).isLt
  have first : (a + 1) % 4 = 1 := by omega
  have second : (a + 2) % 4 = 2 := by omega
  have third : (a + 3) % 4 = 3 := by omega
  simp only [word32, bytesOf, aligned, first, second, third, Nat.sub_zero, Nat.add_sub_cancel,
    BitVec.toNat_ofNat]
  omega

theorem wordsLin_spec {count lin : Nat} (tables : Tables n memory)
    (inside : lin + 4 * count ≤ n * 0x400000) (low : lin + 4 * count < 0xC0000000) :
    wordsLin memory count lin = some ((List.range count).map fun i => word32 memory (lin + 4 * i)) := by
  induction count generalizing lin with
  | zero => rfl
  | succ count ih =>
      have next : (lin + 4) % 4294967296 = lin + 4 := Nat.mod_eq_of_lt (by omega)
      have rest := ih (by omega : lin + 4 + 4 * count ≤ n * 0x400000) (by omega)
      rw [wordsLin, tables.wordLin (by omega) (by omega), next, rest, List.range_succ_eq_map]
      simp only [Option.bind_eq_bind, Option.bind_some, List.map_cons, List.map_map, Nat.mul_zero,
        Nat.add_zero]
      congr 2
      refine List.map_congr_left fun i _ => ?_
      rw [Function.comp_apply, Nat.mul_succ, Nat.add_comm (4 * i), Nat.add_assoc]

/-- `init` finds the table, if `SetupPaging` did not build its page tables over it. -/
theorem memInfo_spec {dwMemSize : BitVec 32} {words : Words} (reaches : 0x400000 < dwMemSize.toNat)
    (below : dwMemSize.toNat ≤ 0xBFC00000) (loader : LoaderTable table) (listed : Listed table words)
    (same : ∀ o, pageDirBase ≤ o → memory o = setupPaging dwMemSize (bytesOf words) o) :
    memInfo memory = some table := by
  have installed : 0 < dwMemSize.toNat := Nat.zero_lt_of_lt reaches
  obtain ⟨most, covers⟩ := pageTables_bound dwMemSize
  have some : 2 ≤ pageTables dwMemSize ∧ pageTables dwMemSize ≤ 767 := by
    refine ⟨by omega, ?_⟩
    unfold pageTables
    simp only
    split
    next => omega
    next => omega
  have place : fmiBuff = 0x007FF000 := rfl
  have dir : pageDirBase = 0x200000 := rfl
  have first : pageTblBase = 0x201000 := rfl
  have num : pageTblNumAddr = 0x500 := rfl
  have tables : Tables (pageTables dwMemSize) memory :=
    (setupPaging_tables installed (bytesOf words)).keep fun o low _ => same o low
  have word (i : Nat) : word32 memory (fmiBuff + 4 * i) = (words (fmiBuff + 4 * i)).toNat := by
    rw [← word32_bytesOf words (by omega)]
    refine word32_congr fun o low _ => ?_
    rw [same o (by omega)]
    refine setupPaging_outside installed ?_
    unfold PagingByte
    omega
  have length := loader.length
  have number : word32 memory fmiBuff = table.length := by
    have count := word 0
    rw [Nat.mul_zero, Nat.add_zero, listed.count, BitVec.toNat_ofNat, Nat.mod_eq_of_lt (by omega)] at count
    exact count
  rw [memInfo, wordsLin_spec tables (by omega) (by omega), List.range_succ_eq_map]
  simp only [Option.bind_eq_bind, Option.bind_some, List.map_cons, List.map_map, List.tail_cons,
    List.headD_cons, Nat.mul_zero, Nat.add_zero, number, Option.some.injEq]
  refine List.ext_getElem ?_ fun i left right => ?_
  · rw [List.length_take, List.length_map, List.length_range]
    exact Nat.min_eq_left length
  · have bound := loader.bound table[i] (List.getElem_mem right)
    rw [List.getElem_take, List.getElem_map, List.getElem_range, Function.comp_apply, word,
      listed.entries i right, BitVec.toNat_ofNat]
    exact Nat.mod_eq_of_lt (by omega)

/-! ## The blocks that are handed out -/

variable {man : Memman} {w x : Nat}

/-- A split takes nothing but the page below its wall. -/
theorem splitAt_keeps (isWall : WallAt w) (spaced : Spaced man.entries) :
    (initialDomain (splitAt w man).entries x → initialDomain man.entries x) ∧
      (initialDomain man.entries x → pageOf x + pageSize ≠ w →
        initialDomain (splitAt w man).entries x) := by
  have domain := @splitAt_domain man w x isWall spaced
  have above := isWall.above
  refine ⟨fun free => (domain.mp free).1, fun free apart => domain.mpr ⟨free, ?_⟩⟩
  rintro ⟨_, same⟩
  apply apart
  rw [same]
  unfold pageSize at *
  omega

/-- The bytes that `init` frees are usable, and of these it leaves out at most the pages
below the walls. -/
theorem init_domain (loader : LoaderTable table) (garbage : Memman) (x : Nat) :
    (initialDomain (init table garbage).entries x → Usable table (pageOf x)) ∧
      (Usable table (pageOf x) → pageOf x + pageSize ∉ walls →
        initialDomain (init table garbage).entries x) := by
  have noEntries : (memmanInit garbage).entries = [] := rfl
  have start : Spaced (memmanInit garbage).entries := by
    rw [noEntries]
    exact ⟨.nil, by simp, by simp⟩
  have startPage : memStart % pageSize = 0 := by decide
  have room : (memmanInit garbage).frees + table.length ≤ 255 := by simpa [memmanInit] using loader.length
  have freed : initialDomain (initFree (memmanInit garbage) memStart table).entries x ↔
      Usable table (pageOf x) := by
    rw [initFree_domain start (by simp [noEntries]) startPage loader.aligned loader.increasing loader.bound room,
      usableFrom_memStart loader.increasing, noEntries]
    simp [initialDomain]
  obtain ⟨zero, _⟩ := initFree_spaced start (by simp [noEntries]) startPage loader.aligned loader.bound room
  have isKWall : WallAt kWall := ⟨by decide, by decide, by decide⟩
  have isWall : WallAt wall := ⟨by decide, by decide, by decide⟩
  have isUWall : WallAt uWall := ⟨by decide, by decide, by decide⟩
  obtain ⟨first, _⟩ := splitAt_spaced isKWall zero
  obtain ⟨second, _⟩ := splitAt_spaced isWall first
  obtain ⟨takenK, keptK⟩ := @splitAt_keeps _ _ x isKWall zero
  obtain ⟨taken, kept⟩ := @splitAt_keeps _ _ x isWall first
  obtain ⟨takenU, keptU⟩ := @splitAt_keeps _ _ x isUWall second
  constructor
  · intro free
    exact freed.mp (takenK (taken (takenU free)))
  · intro usable apart
    simp only [walls, List.mem_cons, List.not_mem_nil, or_false, not_or] at apart
    obtain ⟨apartK, apartWall, apartU⟩ := apart
    exact keptU (kept (keptK (freed.mpr usable) apartK) apartWall) apartU

/-- With up to 3068 MiB the table reaches `init` behind `SetupPaging`. Whatever the memory
manager does with it, the blocks that it has given out lie in pages that passed the test, and at
the start it has them all, apart from the pages below the walls. -/
theorem blocks_tested (buffer : BufferKept ram) (few : (badPages ram).length ≤ 254) (words : Words)
    (garbage : Memman) {dwMemSize : BitVec 32} (reaches : 0x400000 < dwMemSize.toNat)
    (below : dwMemSize.toNat ≤ 0xBFC00000) :
    ∃ next, getFreeMemInfo ram words = some next ∧ ∀ memory : Buffer,
      (∀ o, pageDirBase ≤ o → memory o = setupPaging dwMemSize (bytesOf next) o) →
      ∃ table, memInfo memory = some table ∧
        (∀ state, (memSystem table garbage).Reachable state →
          ∀ block ∈ state.live, ∀ x, block.Holds x → memStart ≤ x ∧ Good ram (pageOf x)) ∧
        ∀ x, memStart ≤ x → x < memEnd → Good ram (pageOf x) → pageOf x + pageSize ∉ walls →
          initialDomain (initialMem table garbage).man.entries x := by
  obtain ⟨next, table, ran, reported, listed⟩ := getFreeMemInfo_spec buffer few words
  have loader := reported.loaderTable few
  refine ⟨next, ran, fun memory same => ⟨table, memInfo_spec reaches below loader listed same,
    fun state reached block member x holds => ?_, fun x low high good apart => ?_⟩⟩
  · obtain ⟨held, _⟩ := reachable_inv loader reached
    have domain := held.booked.liveInside block member x holds
    obtain ⟨low, good⟩ := reported.good (pageOf_page x) ((init_domain loader garbage x).1 domain)
    have inPage : pageOf x ≤ x := Nat.div_mul_le_self x pageSize
    exact ⟨Nat.le_trans low inPage, good⟩
  · have startPage : memStart % pageSize = 0 := by decide
    have inPage : pageOf x ≤ x := Nat.div_mul_le_self x pageSize
    have usable := reported.usable (pageOf_page x) ((below_pageOf startPage).mp low)
      (Nat.lt_of_le_of_lt inPage high) good
    exact (init_domain loader garbage x).2 usable apart

/-- The last word of the page at 5 MiB does not keep what is stored. -/
def oneBadPage : Ram := fun addr value => if addr = 0x00500FFC then 0 else value

theorem oneBadPage_kept : BufferKept oneBadPage := by
  intro i small value
  have apart : fmiBuff + 4 * i ≠ 0x00500FFC := by
    unfold fmiBuff
    omega
  exact if_neg apart

theorem oneBadPage_few : (badPages oneBadPage).length ≤ 254 := by decide +kernel

/-- The manager never hands out the bad page. -/
theorem blocks_tested_oneBadPage :
    ∃ next table, getFreeMemInfo oneBadPage (fun _ => 0) = some next ∧
      memInfo (setupPaging 0x2000000 (bytesOf next)) = some table ∧
      (∀ state, (memSystem table clearedMemman).Reachable state →
        ∀ block ∈ state.live, ∀ x, block.Holds x → memStart ≤ x ∧ Good oneBadPage (pageOf x)) ∧
      initialDomain (initialMem table clearedMemman).man.entries 0x00501000 := by
  obtain ⟨next, ran, booted⟩ := @blocks_tested oneBadPage oneBadPage_kept oneBadPage_few (fun _ => 0)
    clearedMemman 0x2000000 (by decide) (by decide)
  obtain ⟨table, copied, tested, all⟩ := booted _ fun _ _ => rfl
  exact ⟨next, table, ran, copied, tested, all 0x00501000 (by decide) (by decide) (by decide) (by decide)⟩

/-! ## The page tables of the loader -/

theorem pageTables_small {dwMemSize : BitVec 32} :
    pageTables dwMemSize ≤ 255 ↔ dwMemSize.toNat ≤ 0x3FC00000 := by
  simp only [pageTables]
  split
  next => omega
  next => omega

/-- With 1020 MiB or less the page tables lie below the memory that the manager hands
out: whatever is stored in its blocks, all installed memory stays mapped. With more, up to the
3068 MiB at which the table is still there, the manager starts with a part of the page tables
among its free pages. -/
theorem tables_spared (buffer : BufferKept ram) (few : (badPages ram).length ≤ 254) (words : Words)
    (garbage : Memman) {dwMemSize : BitVec 32} (reaches : 0x400000 < dwMemSize.toNat)
    (below : dwMemSize.toNat ≤ 0xBFC00000) :
    ∃ next, getFreeMemInfo ram words = some next ∧ ∀ memory : Buffer,
      (∀ o, pageDirBase ≤ o → memory o = setupPaging dwMemSize (bytesOf next) o) →
      ∃ table, memInfo memory = some table ∧
        (dwMemSize.toNat ≤ 0x3FC00000 →
          ∀ state, (memSystem table garbage).Reachable state → ∀ other : Buffer,
            (∀ o, pageDirBase ≤ o → (∀ block ∈ state.live, ¬block.Holds o) → other o = memory o) →
            ∀ lin < dwMemSize.toNat,
              translate other lin = some lin ∧ translate other (0xC0000000 + lin) = some lin) ∧
        (0x3FC00000 < dwMemSize.toNat → Good ram memStart →
          ∃ entry ∈ (initialMem table garbage).man.entries, ∃ x,
            entry.Holds x ∧ PagingByte (pageTables dwMemSize) x) := by
  obtain ⟨next, table, ran, reported, listed⟩ := getFreeMemInfo_spec buffer few words
  have loader := reported.loaderTable few
  have base : pageTblBase = 0x201000 := rfl
  have first : memStart = 0x400000 := rfl
  have installed : 0 < dwMemSize.toNat := Nat.zero_lt_of_lt reaches
  refine ⟨next, ran, fun memory booted => ⟨table, memInfo_spec reaches below loader listed booted,
    fun small state reached other same lin inside => ?_, fun large good => ?_⟩⟩
  · have few := pageTables_small.mpr small
    obtain ⟨_, covers⟩ := pageTables_bound dwMemSize
    obtain ⟨held, _⟩ := reachable_inv loader reached
    have tables := setupPaging_tables installed (bytesOf next)
    have kept : Tables (pageTables dwMemSize) other := by
      refine tables.keep fun o low below => (same o low fun block member holds => ?_).trans (booted o low)
      have domain := held.booked.liveInside block member o holds
      obtain ⟨low, _⟩ := reported.good (pageOf_page o) ((init_domain loader garbage o).1 domain)
      have inPage : pageOf o ≤ o := Nat.div_mul_le_self o pageSize
      omega
    exact ⟨kept.identity (by omega) (by omega), kept.kernel (by omega) (by omega)⟩
  · have startPage : pageOf memStart = memStart := by decide
    have usable : Usable table (pageOf memStart) :=
      reported.usable (pageOf_page memStart) (Nat.le_of_eq startPage.symm) (by decide) (startPage ▸ good)
    obtain ⟨entry, member, holds⟩ := (init_domain loader garbage memStart).2 usable (by decide)
    refine ⟨entry, member, memStart, holds, .inr ⟨by decide, ?_⟩⟩
    have many : ¬pageTables dwMemSize ≤ 255 := fun few =>
      Nat.not_lt.mpr (pageTables_small.mp few) large
    omega

theorem tables_spared_oneBadPage :
    ∃ next table, getFreeMemInfo oneBadPage (fun _ => 0) = some next ∧
      memInfo (setupPaging 0x2000000 (bytesOf next)) = some table ∧
      ∀ state, (memSystem table clearedMemman).Reachable state → ∀ other : Buffer,
        (∀ o, pageDirBase ≤ o → (∀ block ∈ state.live, ¬block.Holds o) →
          other o = setupPaging 0x2000000 (bytesOf next) o) →
        translate other 0xC1FFFFFF = some 0x1FFFFFF := by
  obtain ⟨next, ran, booted⟩ := @tables_spared oneBadPage oneBadPage_kept oneBadPage_few (fun _ => 0)
    clearedMemman 0x2000000 (by decide) (by decide)
  obtain ⟨table, copied, spared, _⟩ := booted _ fun _ _ => rfl
  exact ⟨next, table, ran, copied, fun state reached other same =>
    (spared (by decide) state reached other same 0x1FFFFFF (by decide)).2⟩

end AempOS.Boot
