import AempOS.Boot.Paging

/-! The page tables of the loader map the memory that the BIOS reports to itself, and
its first GiB also from 3 GiB on. -/

set_option autoImplicit false

namespace AempOS.Boot

open Lib Memory

variable {memory : Buffer} {rounds edi eax n lin : Nat} {dwMemSize : BitVec 32}

/-! ## Stores -/

theorem storeEntries_outside {o : Nat} (room : edi + 4 * rounds < 4294967296)
    (outside : o < edi ∨ edi + 4 * rounds ≤ o) :
    storeEntries rounds edi eax memory o = memory o := by
  induction rounds generalizing edi eax memory with
  | zero => rfl
  | succ rounds ih =>
      have next : (edi + 4) % 4294967296 = edi + 4 := Nat.mod_eq_of_lt (by omega)
      rw [storeEntries, next, ih (by omega) (by omega)]
      exact setWord32_outside (by omega)

theorem storeEntries_word {j : Nat} (room : edi + 4 * rounds < 4294967296)
    (small : eax + 4096 * rounds ≤ 4294967296 + 4096) (inside : j < rounds)
    (value : eax + 4096 * j < 4294967296) :
    word32 (storeEntries rounds edi eax memory) (edi + 4 * j) = eax + 4096 * j := by
  induction rounds generalizing edi eax memory j with
  | zero => cases inside
  | succ rounds ih =>
      have next : (edi + 4) % 4294967296 = edi + 4 := Nat.mod_eq_of_lt (by omega)
      rw [storeEntries, next]
      cases j with
      | zero =>
          have here : word32 (storeEntries rounds (edi + 4) ((eax + 4096) % 4294967296)
              (setWord32 memory edi eax)) edi = word32 (setWord32 memory edi eax) edi := by
            apply word32_congr
            intro o low high
            exact storeEntries_outside (by omega) (by omega)
          simp only [Nat.mul_zero, Nat.add_zero] at value ⊢
          rw [here]
          exact word32_setWord32 _ _ value
      | succ j =>
          have place : edi + 4 * (j + 1) = edi + 4 + 4 * j := by omega
          have sum : eax + 4096 * (j + 1) = eax + 4096 + 4096 * j := by
            rw [Nat.mul_succ, Nat.add_comm (4096 * j), Nat.add_assoc]
          have sums : eax + 4096 * (rounds + 1) = eax + 4096 + 4096 * rounds := by
            rw [Nat.mul_succ, Nat.add_comm (4096 * rounds), Nat.add_assoc]
          rw [sums] at small
          rw [sum] at value ⊢
          have entry : (eax + 4096) % 4294967296 = eax + 4096 :=
            Nat.mod_eq_of_lt (Nat.lt_of_le_of_lt (Nat.le_add_right ..) value)
          rw [entry, place]
          exact ih (by omega) small (by omega) value

/-! ## Tables -/

/-- So many page tables for the memory, and as many for the memory from 3 GiB on. -/
structure Tables (n : Nat) (memory : Buffer) : Prop where
  lowPde : ∀ i < n, i < 768 →
    word32 memory (pageDirBase + 4 * i) = pageTblBase + entryAttr + 4096 * i
  highPde : ∀ k < n, k < 256 →
    word32 memory (pageDirBase + 3072 + 4 * k) = n * 4096 + (pageTblBase + entryAttr) + 4096 * k
  lowPte : ∀ j < n * 1024, word32 memory (pageTblBase + 4 * j) = entryAttr + 4096 * j
  highPte : ∀ j < n * 1024,
    word32 memory (n * 1024 * 4 + pageTblBase + 4 * j) = entryAttr + 4096 * j

theorem pageTables_bound (dwMemSize : BitVec 32) :
    pageTables dwMemSize ≤ 1024 ∧ dwMemSize.toNat ≤ pageTables dwMemSize * 0x400000 := by
  have small := dwMemSize.isLt
  unfold pageTables
  simp only
  split
  next => omega
  next => omega

/-- `SetupPaging` for a memory that is not empty. -/
theorem setupPaging_eq (some : 0 < dwMemSize.toNat) (memory : Buffer) :
    let n := pageTables dwMemSize
    setupPaging dwMemSize memory =
      storeEntries (n * 1024) (n * 1024 * 4 + pageTblBase) entryAttr
        (storeEntries (n * 1024) pageTblBase entryAttr
          (storeEntries n (pageDirBase + 3072) (n * 4096 + (pageTblBase + entryAttr))
            (storeEntries n pageDirBase (pageTblBase + entryAttr)
              (setWord32 memory pageTblNumAddr n)))) := by
  obtain ⟨most, covers⟩ := pageTables_bound dwMemSize
  have attr : entryAttr = 7 := rfl
  have tables : pageTblBase = 0x201000 := rfl
  unfold setupPaging
  simp only
  generalize pageTables dwMemSize = n at *
  rw [loopRounds, if_neg (by omega), loopRounds, if_neg (by omega), Nat.mod_eq_of_lt (by omega),
    Nat.mod_eq_of_lt (by omega)]

theorem setupPaging_tables (some : 0 < dwMemSize.toNat) (memory : Buffer) :
    Tables (pageTables dwMemSize) (setupPaging dwMemSize memory) := by
  obtain ⟨most, _⟩ := pageTables_bound dwMemSize
  have attr : entryAttr = 7 := rfl
  have tables : pageTblBase = 0x201000 := rfl
  have dir : pageDirBase = 0x200000 := rfl
  rw [setupPaging_eq some]
  generalize pageTables dwMemSize = n at *
  refine ⟨fun i below low => ?_, fun k below low => ?_, fun j below => ?_, fun j below => ?_⟩
  · rw [← @storeEntries_word (setWord32 memory pageTblNumAddr n) n pageDirBase
      (pageTblBase + entryAttr) i (by omega) (by omega) below (by omega)]
    apply word32_congr
    intro o least most
    rw [storeEntries_outside (by omega) (by omega), storeEntries_outside (by omega) (by omega),
      storeEntries_outside (by omega) (by omega)]
  · rw [← @storeEntries_word (storeEntries n pageDirBase (pageTblBase + entryAttr)
      (setWord32 memory pageTblNumAddr n)) n (pageDirBase + 3072)
      (n * 4096 + (pageTblBase + entryAttr)) k (by omega) (by omega) below (by omega)]
    apply word32_congr
    intro o least most
    rw [storeEntries_outside (by omega) (by omega), storeEntries_outside (by omega) (by omega)]
  · rw [← @storeEntries_word (storeEntries n (pageDirBase + 3072) (n * 4096 + (pageTblBase + entryAttr))
      (storeEntries n pageDirBase (pageTblBase + entryAttr) (setWord32 memory pageTblNumAddr n)))
      (n * 1024) pageTblBase entryAttr j (by omega) (by omega) below (by omega)]
    apply word32_congr
    intro o least most
    rw [storeEntries_outside (by omega) (by omega)]
  · exact storeEntries_word (by omega) (by omega) below (by omega)

/-- The bytes that `SetupPaging` writes. -/
def PagingByte (n o : Nat) : Prop :=
  pageTblNumAddr ≤ o ∧ o < pageTblNumAddr + 4 ∨ pageDirBase ≤ o ∧ o < pageTblBase + 8192 * n

theorem setupPaging_outside (some : 0 < dwMemSize.toNat) {o : Nat}
    (outside : ¬PagingByte (pageTables dwMemSize) o) : setupPaging dwMemSize memory o = memory o := by
  obtain ⟨most, covers⟩ := pageTables_bound dwMemSize
  have tables : pageTblBase = 0x201000 := rfl
  have dir : pageDirBase = 0x200000 := rfl
  have num : pageTblNumAddr = 0x500 := rfl
  rw [setupPaging_eq some]
  generalize pageTables dwMemSize = n at *
  unfold PagingByte at outside
  rw [storeEntries_outside (by omega) (by omega), storeEntries_outside (by omega) (by omega),
    storeEntries_outside (by omega) (by omega), storeEntries_outside (by omega) (by omega)]
  exact setWord32_outside (by omega)

theorem Tables.keep {other : Buffer} (tables : Tables n memory)
    (same : ∀ o, pageDirBase ≤ o → o < pageTblBase + 8192 * n → other o = memory o) : Tables n other := by
  have low : pageTblBase = 0x201000 := rfl
  have dir : pageDirBase = 0x200000 := rfl
  refine ⟨fun i below least => ?_, fun k below least => ?_, fun j below => ?_, fun j below => ?_⟩
  · rw [← tables.lowPde i below least]
    exact word32_congr fun o _ _ => same o (by omega) (by omega)
  · rw [← tables.highPde k below least]
    exact word32_congr fun o _ _ => same o (by omega) (by omega)
  · rw [← tables.lowPte j below]
    exact word32_congr fun o _ _ => same o (by omega) (by omega)
  · rw [← tables.highPte j below]
    exact word32_congr fun o _ _ => same o (by omega) (by omega)

/-! ## Translation -/

theorem entry_page (page : Nat) : Present (entryAttr + 4096 * page) ∧
    pageBase (entryAttr + 4096 * page) = 4096 * page := by
  have attr : entryAttr = 7 := rfl
  unfold Present pageBase
  omega

theorem Tables.identity (tables : Tables n memory) (inside : lin < n * 0x400000)
    (low : lin < 0xC0000000) : translate memory lin = some lin := by
  have base : pageTblBase = 4096 * 0x201 := rfl
  have pde : word32 memory (pageDirBase + 4 * pdeIndex lin) =
      entryAttr + 4096 * (0x201 + lin / 4194304) := by
    rw [pdeIndex, tables.lowPde (lin / 4194304) (by omega) (by omega)]
    omega
  have pte : word32 memory (4096 * (0x201 + lin / 4194304) + 4 * pteIndex lin) =
      entryAttr + 4096 * (lin / 4096) := by
    rw [← tables.lowPte (lin / 4096) (by omega), pteIndex]
    congr 1
    omega
  obtain ⟨table, tableBase⟩ := entry_page (0x201 + lin / 4194304)
  obtain ⟨page, pageBase⟩ := entry_page (lin / 4096)
  unfold translate
  simp only
  rw [pde, if_pos table, tableBase, pte, if_pos page, pageBase]
  congr 1
  omega

theorem Tables.kernel (tables : Tables n memory) (inside : lin < n * 0x400000)
    (low : lin < 0x40000000) : translate memory (0xC0000000 + lin) = some lin := by
  have base : pageTblBase = 4096 * 0x201 := rfl
  have pde : word32 memory (pageDirBase + 4 * pdeIndex (0xC0000000 + lin)) =
      entryAttr + 4096 * (n + 0x201 + lin / 4194304) := by
    have place : pageDirBase + 4 * pdeIndex (0xC0000000 + lin) =
        pageDirBase + 3072 + 4 * (lin / 4194304) := by
      unfold pdeIndex
      omega
    rw [place, tables.highPde (lin / 4194304) (by omega) (by omega)]
    omega
  have pte : word32 memory (4096 * (n + 0x201 + lin / 4194304) + 4 * pteIndex (0xC0000000 + lin)) =
      entryAttr + 4096 * (lin / 4096) := by
    rw [← tables.highPte (lin / 4096) (by omega), pteIndex]
    congr 1
    omega
  obtain ⟨table, tableBase⟩ := entry_page (n + 0x201 + lin / 4194304)
  obtain ⟨page, pageBase⟩ := entry_page (lin / 4096)
  unfold translate
  simp only
  rw [pde, if_pos table, tableBase, pte, if_pos page, pageBase]
  congr 1
  omega

theorem Tables.readLin (tables : Tables n memory) (inside : lin < n * 0x400000)
    (low : lin < 0xC0000000) : readLin memory lin = some (memory lin) := by
  rw [Boot.readLin, tables.identity inside low, Option.map_some]

theorem Tables.halfLin (tables : Tables n memory) (inside : lin + 2 ≤ n * 0x400000)
    (low : lin + 2 ≤ 0xC0000000) :
    halfLin memory lin = some ((memory lin).toNat + 256 * (memory (lin + 1)).toNat) := by
  have next : (lin + 1) % 4294967296 = lin + 1 := Nat.mod_eq_of_lt (by omega)
  simp only [Boot.halfLin, next, tables.readLin (by omega : lin < n * 0x400000) (by omega),
    tables.readLin (by omega : lin + 1 < n * 0x400000) (by omega), Option.bind_eq_bind, Option.bind_some]

theorem Tables.wordLin (tables : Tables n memory) (inside : lin + 4 ≤ n * 0x400000)
    (low : lin + 4 ≤ 0xC0000000) : wordLin memory lin = some (word32 memory lin) := by
  have next : (lin + 2) % 4294967296 = lin + 2 := Nat.mod_eq_of_lt (by omega)
  simp only [Boot.wordLin, next, tables.halfLin (by omega : lin + 2 ≤ n * 0x400000) (by omega),
    tables.halfLin (by omega : lin + 2 + 2 ≤ n * 0x400000) (by omega), Option.bind_eq_bind,
    Option.bind_some, word32, Nat.add_assoc lin 2 1]
  congr 1
  omega

/-! ## The memory that is reported -/

theorem count_grows (dwMemSize : BitVec 32) (ard : ArdStruct) : dwMemSize ≤ ard.count dwMemSize := by
  unfold ArdStruct.count
  split
  next =>
    simp only
    split
    next => exact BitVec.le_refl _
    next larger => exact BitVec.not_lt.mp larger
  next => exact BitVec.le_refl _

theorem counts_grow (dwMemSize : BitVec 32) (memChkBuf : List ArdStruct) :
    dwMemSize ≤ memChkBuf.foldl ArdStruct.count dwMemSize := by
  induction memChkBuf generalizing dwMemSize with
  | nil => exact BitVec.le_refl _
  | cons ard rest ih => exact BitVec.le_trans (count_grows dwMemSize ard) (ih _)

theorem counts_cover {memChkBuf : List ArdStruct} {ard : ArdStruct} (member : ard ∈ memChkBuf)
    (usable : ard.dwType = 1) (dwMemSize : BitVec 32) :
    ard.dwBaseAddrLow + ard.dwLengthLow ≤ memChkBuf.foldl ArdStruct.count dwMemSize := by
  induction memChkBuf generalizing dwMemSize with
  | nil => cases member
  | cons first rest ih =>
      rcases List.mem_cons.mp member with rfl | later
      · refine BitVec.le_trans ?_ (counts_grow _ rest)
        rw [ArdStruct.count, if_pos usable]
        simp only
        split
        next smaller => exact BitVec.le_of_lt smaller
        next => exact BitVec.le_refl _
      · exact ih later _

/-- Every usable byte below 3 GiB that the BIOS reports is at its own address, and those
of the first GiB also from 3 GiB on. Nothing but the tables has changed. -/
theorem setupPaging_maps {memChkBuf : List ArdStruct} {ard : ArdStruct} (member : ard ∈ memChkBuf)
    (usable : ard.dwType = 1)
    (bounded : ard.dwBaseAddrLow.toNat + ard.dwLengthLow.toNat < 4294967296)
    (inside : lin < ard.dwBaseAddrLow.toNat + ard.dwLengthLow.toNat) (memory : Buffer) :
    let after := setupPaging (dispMemInfo memChkBuf) memory
    (lin < 0xC0000000 → translate after lin = some lin) ∧
      (lin < 0x40000000 → translate after (0xC0000000 + lin) = some lin) ∧
      ∀ o, ¬PagingByte (pageTables (dispMemInfo memChkBuf)) o → after o = memory o := by
  have covers : (ard.dwBaseAddrLow + ard.dwLengthLow).toNat ≤ (dispMemInfo memChkBuf).toNat :=
    counts_cover member usable 0
  have sum : (ard.dwBaseAddrLow + ard.dwLengthLow).toNat =
      ard.dwBaseAddrLow.toNat + ard.dwLengthLow.toNat := by
    rw [BitVec.toNat_add]
    exact Nat.mod_eq_of_lt bounded
  have some : 0 < (dispMemInfo memChkBuf).toNat := by omega
  obtain ⟨_, all⟩ := pageTables_bound (dispMemInfo memChkBuf)
  have tables := setupPaging_tables some memory
  exact ⟨tables.identity (by omega), tables.kernel (by omega), fun o => setupPaging_outside some⟩

/-- A machine with 32 MiB. -/
def smallMachine : List ArdStruct := [⟨0, 0, 0xA0000, 0, 1⟩, ⟨0x100000, 0, 0x1F00000, 0, 1⟩]

theorem setupPaging_maps_small :
    let after := setupPaging (dispMemInfo smallMachine) fun _ => 0
    translate after 0x1FFFFFF = some 0x1FFFFFF ∧ translate after 0xC1FFFFFF = some 0x1FFFFFF := by
  obtain ⟨low, high, _⟩ := @setupPaging_maps 0x1FFFFFF smallMachine ⟨0x100000, 0, 0x1F00000, 0, 1⟩
    (by simp [smallMachine]) rfl (by decide) (by decide) fun _ => 0
  exact ⟨low (by decide), high (by decide)⟩

end AempOS.Boot
