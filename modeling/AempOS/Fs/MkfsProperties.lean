import AempOS.Fs.SoundProperties

/-! What `mkfs` leaves on the disk, and that `init_fs` on an unformatted disk
starts a sound file system. -/

set_option autoImplicit false

namespace AempOS.Fs

open Lib

theorem zeroSects_apply {base i rounds : Nat} {disk : Disk} (small : base + i + rounds ≤ 2 ^ 22)
    (r : Nat) : zeroSects disk base i rounds r =
      if base + i ≤ r ∧ r < base + i + rounds then zeroBuffer else disk r := by
  induction rounds generalizing disk i with
  | zero => rw [zeroSects, if_neg (by omega)]
  | succ rounds ih =>
      rw [zeroSects, ih (by omega)]
      by_cases here : r = base + i
      · rw [if_neg (by omega), if_pos (by omega), here, wrSect_self (by omega)]
      · rw [wrSect_other (by omega) here]
        by_cases behind : base + (i + 1) ≤ r ∧ r < base + (i + 1) + rounds
        · rw [if_pos behind, if_pos (by omega)]
        · rw [if_neg behind, if_neg (by omega)]

/-- The partitions whose files never wrap around to the maps: see `hdSector`. -/
def Addressable (size : Nat) : Prop := size < 7935 * 4096

/-- Nothing is left in the sectors of the root directory that `mkfs` does not
write and that entries can reach. -/
def CleanDirectory (size : Nat) (disk : Disk) : Prop :=
  ∀ i, 1 ≤ i → i < 128 → ∀ o < sectorSize, disk ((newSuperBlock size).n1stSect + i) o = 0

theorem Addressable.small {size : Nat} (bounded : Addressable size) : size < 2 ^ 32 := by
  unfold Addressable at bounded
  omega

theorem newSuperBlock_first (size : Nat) :
    (newSuperBlock size).n1stSect = 3 + (newSuperBlock size).nrSmapSects + 256 := rfl

theorem Addressable.layout {size : Nat} (bounded : Addressable size) : Layout (newSuperBlock size) := by
  have smap : (newSuperBlock size).nrSmapSects = size / 4096 + 1 := rfl
  have first := newSuperBlock_first size
  have sects : (newSuperBlock size).nrSects = size := rfl
  unfold Addressable at bounded
  refine ⟨rfl, first, ?_, ?_⟩
  · unfold nrDefaultFileSects
    omega
  · unfold sectorBits
    omega

section Sectors

variable {size : Nat} {disk : Disk}

/-- The sectors that `mkfs` writes. -/
structure Formatted (size : Nat) (disk next : Disk) : Prop where
  super : next 1 = storeWords (fun _ => 0x90) 0 (newSuperBlock size).words
  imap : next 2 = firstImap
  smap : next 3 = firstSmap
  smapRest : ∀ r, 4 ≤ r → r < 3 + (newSuperBlock size).nrSmapSects → next r = zeroBuffer
  inodes : next (3 + (newSuperBlock size).nrSmapSects) = firstInodes (newSuperBlock size)
  dir : next (newSuperBlock size).n1stSect = firstEntries
  dirRest : ∀ r, (newSuperBlock size).n1stSect < r → next r = disk r

theorem newSuperBlock_maps (bounded : size < 2 ^ 32) : MapsAt (newSuperBlock size) := by
  have first := newSuperBlock_first size
  have smap : (newSuperBlock size).nrSmapSects = size / 4096 + 1 := rfl
  exact ⟨rfl, by omega, by omega⟩

theorem mkfs_formatted (bounded : size < 2 ^ 32) (disk : Disk) :
    Formatted size disk (mkfs size disk) := by
  have first := newSuperBlock_first size
  have smap : (newSuperBlock size).nrSmapSects = size / 4096 + 1 := rfl
  have imap : (newSuperBlock size).nrImapSects = 1 := rfl
  have some : 1 ≤ (newSuperBlock size).nrSmapSects := Nat.le_add_left 1 _
  have below : (newSuperBlock size).nrSmapSects ≤ 2 ^ 20 := by omega
  clear smap
  have zeros (base : Disk) (r : Nat) :
      zeroSects base 3 1 ((newSuperBlock size).nrSmapSects - 1) r =
        if 3 + 1 ≤ r ∧ r < 3 + 1 + ((newSuperBlock size).nrSmapSects - 1) then zeroBuffer
        else base r := zeroSects_apply (by omega) r
  unfold mkfs
  simp only [imap]
  refine ⟨?_, ?_, ?_, fun r low high => ?_, ?_, ?_, fun r low => ?_⟩
  · rw [wrSect_other (by omega) (by omega), wrSect_other (by omega) (by omega), zeros,
      if_neg (by omega), wrSect_other (by omega) (by omega), wrSect_other (by omega) (by omega),
      wrSect_self (by omega)]
  · rw [wrSect_other (by omega) (by omega), wrSect_other (by omega) (by omega), zeros,
      if_neg (by omega), wrSect_other (by omega) (by omega), wrSect_self (by omega)]
  · rw [wrSect_other (by omega) (by omega), wrSect_other (by omega) (by omega), zeros,
      if_neg (by omega), wrSect_self (by omega)]
  · rw [wrSect_other (by omega) (by omega), wrSect_other (by omega) (by omega), zeros,
      if_pos (by omega)]
  · rw [wrSect_other (by omega) (by omega), wrSect_self (by omega)]
  · rw [wrSect_self (by omega)]
  · rw [wrSect_other (by omega) (by omega), wrSect_other (by omega) (by omega), zeros,
      if_neg (by omega), wrSect_other (by omega) (by omega), wrSect_other (by omega) (by omega),
      wrSect_other (by omega) (by omega)]

end Sectors

section Contents

variable {size : Nat} {disk next : Disk}

theorem Formatted.superBlock (formatted : Formatted size disk next) (bounded : Addressable size) :
    readSuperBlock next = newSuperBlock size := by
  unfold Addressable at bounded
  have word (i : Nat) {value : Nat} (found : (newSuperBlock size).words[i]? = some value)
      (small : value < 2 ^ 32) : word32 (next 1) (4 * i) = value := by
    rw [formatted.super]
    have stored := word32_storeWords (newSuperBlock size).words (fun _ => 0x90) 0 found small
    rwa [Nat.zero_add] at stored
  have one : rdSect next 1 = next 1 := rdSect_small next (by omega)
  have maps : size / sectorBits + 1 < 2 ^ 32 := by unfold sectorBits; omega
  have start : 1 + 1 + 1 + (size / sectorBits + 1) + sectorBits * inodeSize / sectorSize < 2 ^ 32 := by
    unfold sectorBits inodeSize sectorSize
    omega
  simp only [readSuperBlock, one, newSuperBlock, SuperBlock.mk.injEq]
  exact ⟨word 0 rfl (by decide), word 1 rfl (by decide), word 2 rfl (by omega), word 3 rfl (by decide),
    word 4 rfl maps, word 5 rfl start, word 6 rfl (by decide), word 7 rfl (by decide),
    word 8 rfl (by decide), word 9 rfl (by decide), word 10 rfl (by decide), word 11 rfl (by decide),
    word 12 rfl (by decide), word 13 rfl (by decide)⟩

private theorem zeroByte_bit (k : Nat) : (0 : Byte).getLsbD k = false :=
  BitVec.getLsbD_zero

/-- The bits that `mkfs` sets. -/
theorem Formatted.imap_bit (formatted : Formatted size disk next) (n : Nat) :
    (volumeOf (newSuperBlock size) next).imap n = decide (n < 5) := by
  simp only [volumeOf, inodeBit, formatted.imap, firstImap]
  rw [bitAt_update]
  split
  next low =>
    rw [setBits_bit _ (by decide) (Nat.mod_lt _ (by decide))]
    unfold nrConsoles sectorBits
    rw [zeroByte_bit, Bool.false_or, ← Bool.decide_and, decide_eq_decide]
    omega
  next high =>
    have zero : bitAt zeroBuffer n = false := zeroByte_bit _
    rw [zero, Bool.and_false, decide_eq_false (by omega)]

theorem Formatted.smap_bit (formatted : Formatted size disk next) {c : Nat}
    (inside : c < (newSuperBlock size).nrSmapSects * 4096) :
    (volumeOf (newSuperBlock size) next).smap c = decide (c < 2049) := by
  have bound : c < (newSuperBlock size).nrSmapSects * sectorBits := inside
  simp only [volumeOf, decide_eq_true bound, Bool.true_and]
  unfold sectorBit bitAt smapBytes sectorSize
  by_cases first : c / 8 / 512 = 0
  · rw [first, Nat.add_zero, formatted.smap]
    unfold firstSmap nrDefaultFileSects
    simp only [Nat.reduceAdd, Nat.reduceDiv, Nat.reduceMod]
    rw [Nat.mod_eq_of_lt (by omega)]
    by_cases last : c / 8 = 256
    · rw [last, Function.update_self, setBits_bit _ (by decide) (Nat.mod_lt _ (by decide)),
        zeroByte_bit, Bool.false_or, decide_eq_decide]
      omega
    · rw [Function.update_of_ne last]
      by_cases low : c / 8 < 256
      · rw [if_pos low, (byte_full_iff 0xFF).mp rfl _ (Nat.mod_lt _ (by decide)), decide_eq_true (by omega)]
      · rw [if_neg low, decide_eq_false (by omega)]
        exact zeroByte_bit _
  · rw [formatted.smapRest _ (by omega) (by omega), decide_eq_false (by omega)]
    exact zeroByte_bit _

theorem Formatted.inode_sector (formatted : Formatted size disk next) (bounded : Addressable size)
    {n : Nat} (low : 1 ≤ n) (high : n ≤ 16) :
    (volumeOf (newSuperBlock size) next).records n =
      readRecord (firstInodes (newSuperBlock size)) ((n - 1) * 32) := by
  have layout := bounded.layout
  have inside : 1 ≤ n ∧ n ≤ sectorBits := ⟨low, by unfold sectorBits; omega⟩
  obtain ⟨_, below⟩ := inodeSect_bounds layout inside.1 inside.2
  have small := layout.small
  have sect : inodeSect (newSuperBlock size) n = 3 + (newSuperBlock size).nrSmapSects := by
    unfold inodeSect sectorSize inodeSize
    rw [layout.imap]
    omega
  have place : inodeOff n = (n - 1) * 32 := by
    unfold inodeOff sectorSize inodeSize
    rw [Nat.mod_eq_of_lt (by omega)]
  simp only [volumeOf, if_pos inside]
  rw [recordOf, rdSect_small next (by omega), sect, formatted.inodes, place]

theorem Formatted.rootRecord_eq (formatted : Formatted size disk next) (bounded : Addressable size) :
    (volumeOf (newSuperBlock size) next).records 1 = rootRecord (newSuperBlock size) := by
  have first := newSuperBlock_first size
  have small := bounded.layout.small
  have fits : (rootRecord (newSuperBlock size)).Fits :=
    { mode := show iDirectory < 2 ^ 32 by decide
      size := show dirEntrySize * 4 < 2 ^ 32 by decide
      startSect := show (newSuperBlock size).n1stSect < 2 ^ 32 by omega
      nrSects := show nrDefaultFileSects < 2 ^ 32 by decide }
  rw [formatted.inode_sector bounded (by omega) (by omega)]
  unfold firstInodes inodeSize
  simp only
  rw [readRecord_writeRecord_apart (by omega), readRecord_writeRecord_apart (by omega),
    readRecord_writeRecord_apart (by omega)]
  exact readRecord_writeRecord fits _ _

theorem Formatted.ttyRecord_eq (formatted : Formatted size disk next) (bounded : Addressable size)
    {i : Nat} (below : i < 3) :
    (volumeOf (newSuperBlock size) next).records (i + 2) = ttyRecord i := by
  have fits (i : Nat) (below : i < 3) : (ttyRecord i).Fits :=
    { mode := show iCharSpecial < 2 ^ 32 by decide
      size := show 0 < 2 ^ 32 by decide
      startSect := show 4 * 256 + i < 2 ^ 32 by omega
      nrSects := show 0 < 2 ^ 32 by decide }
  rw [formatted.inode_sector bounded (by omega) (by omega)]
  unfold firstInodes inodeSize
  simp only
  obtain rfl | rfl | rfl : i = 0 ∨ i = 1 ∨ i = 2 := by omega
  · rw [readRecord_writeRecord_apart (by omega), readRecord_writeRecord_apart (by omega),
      readRecord_writeRecord (fits 0 (by omega))]
  · rw [readRecord_writeRecord_apart (by omega), readRecord_writeRecord (fits 1 (by omega))]
  · rw [readRecord_writeRecord (fits 2 (by omega))]

/-- The names of the entries that `mkfs` makes. -/
def mkfsName : Nat → List Byte
  | 0 => chars "."
  | 1 => chars "dev_tty0"
  | 2 => chars "dev_tty1"
  | _ => chars "dev_tty2"

theorem entryIn_zero (off : Nat) : entryIn zeroBuffer off = emptyEntry := by
  unfold entryIn emptyEntry zeroBuffer
  congr 1
  funext i
  split
  next => rfl
  next => rfl

theorem firstEntries_entry {k : Nat} (inside : k < 32) : entryIn firstEntries (k * 16) =
    if k < 4 then { inodeNr := k + 1, name := padded (mkfsName k) } else emptyEntry := by
  have dot : (chars ".").length < maxFilenameLen := by decide
  have tty0 : (chars "dev_tty0").length < maxFilenameLen := by decide
  have tty1 : (chars "dev_tty1").length < maxFilenameLen := by decide
  have tty2 : (chars "dev_tty2").length < maxFilenameLen := by decide
  have apart {off at' inodeNr : Nat} {name : List Byte} {fsbuf : Buffer}
      (short : name.length < maxFilenameLen) (away : at' + 16 ≤ off ∨ off + 16 ≤ at') :
      entryIn (writeEntry fsbuf off inodeNr name) at' = entryIn fsbuf at' :=
    entryIn_congr fun o low high => writeEntry_outside short (by unfold dirEntrySize at *; omega)
  have empty : emptyEntry.name = fun _ => 0 := rfl
  unfold firstEntries dirEntrySize
  simp only
  by_cases early : k < 4
  · rw [if_pos early]
    obtain rfl | rfl | rfl | rfl : k = 0 ∨ k = 1 ∨ k = 2 ∨ k = 3 := by omega
    · rw [apart tty2 (by omega), apart tty1 (by omega), apart tty0 (by omega),
        entryIn_writeEntry _ (by omega) dot, entryIn_zero, DirEntry.renamed_empty empty]
      rfl
    · rw [apart tty2 (by omega), apart tty1 (by omega),
        entryIn_writeEntry _ (by omega) tty0, apart dot (by omega), entryIn_zero,
        DirEntry.renamed_empty empty]
      rfl
    · rw [apart tty2 (by omega),
        entryIn_writeEntry _ (by omega) tty1, apart tty0 (by omega), apart dot (by omega), entryIn_zero,
        DirEntry.renamed_empty empty]
      rfl
    · rw [entryIn_writeEntry _ (by omega) tty2, apart tty1 (by omega), apart tty0 (by omega),
        apart dot (by omega), entryIn_zero, DirEntry.renamed_empty empty]
      rfl
  · rw [if_neg early, apart tty2 (by omega), apart tty1 (by omega), apart tty0 (by omega),
      apart dot (by omega), entryIn_zero]

theorem Formatted.entry (formatted : Formatted size disk next) (bounded : Addressable size)
    (clean : CleanDirectory size disk) (k : Nat) :
    (volumeOf (newSuperBlock size) next).entries k =
      if k < 4 then { inodeNr := k + 1, name := padded (mkfsName k) } else emptyEntry := by
  by_cases inside : k < maxEntries
  · have small := bounded.layout.small
    have below := entrySect_lt inside
    have place : entryOff k = k % 32 * 16 := rfl
    have sect : entrySect k = k / 32 := rfl
    rw [entries_inside inside, entryBuf, rdSect_small next (by omega), place]
    unfold maxEntries at inside
    by_cases first : k / 32 = 0
    · rw [sect, first, Nat.add_zero, formatted.dir, Nat.mod_eq_of_lt (by omega)]
      exact firstEntries_entry (by omega)
    · rw [formatted.dirRest _ (by omega), if_neg (by omega), ← entryIn_zero (k % 32 * 16)]
      refine entryIn_congr fun o low high => ?_
      unfold dirEntrySize at high
      exact clean (entrySect k) (by omega) (by omega) o (by unfold sectorSize; omega)
  · have late : ¬k < 4 := by unfold maxEntries at inside; omega
    simp only [volumeOf, if_neg inside, if_neg late]

end Contents

section Start

variable {size : Nat} {disk : Disk} {state : FsState}

/-- The file system in memory after `init_fs` has formatted the disk. -/
structure Started (size : Nat) (disk : Disk) (state : FsState) : Prop where
  formatted : Formatted size disk state.disk
  sb : state.sb = newSuperBlock size
  slot : state.rootInode < nrInode
  root : state.dir = ⟨rootRecord (newSuperBlock size), 1, 1⟩
  others : ∀ i, i ≠ state.rootInode → (state.inodeTable i).cnt = 0
  descs : ∀ i, (state.fDescTable i).inode = .free
  filp : ∀ pid fd, state.filp pid fd = none

theorem initFs_started (unformatted : (readSuperBlock disk).magic ≠ magicV1)
    (bounded : Addressable size) : ∃ state, initFs size disk = some state ∧ Started size disk state := by
  have formatted := mkfs_formatted bounded.small disk
  have super := formatted.superBlock bounded
  obtain ⟨next, p, got⟩ := getInode_isSome (show Fs.rootInode ≠ 0 by decide)
    (show ∃ i < nrInode, ((emptyTables (mkfs size disk)).inodeTable i).cnt = 0 from
      ⟨0, by decide, rfl⟩)
  refine ⟨{ next with rootInode := p }, ?_, ?_⟩
  · simp only [initFs, if_neg unformatted, got]
  · rcases getInode_cases got with ⟨zero, _⟩ | ⟨q, _, same, slot, ⟨used, _⟩ | ⟨_, rfl⟩⟩
    · cases zero
    · exact absurd rfl used
    · cases same
      have record : recordOf (newSuperBlock size) (mkfs size disk) 1 = rootRecord (newSuperBlock size) := by
        rw [← formatted.rootRecord_eq bounded]
        rfl
      refine ⟨formatted, super, slot.1, ?_, fun i apart => ?_, fun _ => rfl, fun _ _ => rfl⟩
      · simp only [FsState.dir, FsState.setInode, Function.update_self, loadedInode, emptyTables, super,
          Fs.rootInode, record]
      · simp only [FsState.setInode, Function.update_of_ne apart, emptyTables]

theorem Started.volume (started : Started size disk state) :
    state.volume = volumeOf (newSuperBlock size) state.disk := by
  rw [FsState.volume, started.sb]

theorem Started.nrEntries (started : Started size disk state) : state.nrEntries = 4 := by
  rw [FsState.nrEntries, started.root]
  show dirEntrySize * 4 / dirEntrySize = 4
  decide

theorem Started.rootHeld (started : Started size disk state) (bounded : Addressable size) :
    RootHeld state := by
  have small := bounded.layout.small
  refine ⟨started.slot, ?_, ?_, ?_, ?_, ?_, ?_⟩
  · rw [started.root]
    exact Int.one_pos
  · rw [started.root]
  · rw [started.root, started.sb]
    rfl
  · rw [started.root]
    exact
      { mode := show iDirectory < 2 ^ 32 by decide
        size := show dirEntrySize * 4 < 2 ^ 32 by decide
        startSect := show (newSuperBlock size).n1stSect < 2 ^ 32 by omega
        nrSects := show nrDefaultFileSects < 2 ^ 32 by decide }
  · rw [started.root]
    show dirEntrySize * 4 = dirEntrySize * 4 / dirEntrySize * dirEntrySize
    decide
  · rw [started.root]
    show dirEntrySize * 4 / dirEntrySize < maxEntries
    decide

theorem Started.no_file (started : Started size disk state) (n : Nat) : ¬Live state.volume n := by
  rintro ⟨five, set⟩
  rw [started.volume, started.formatted.imap_bit, decide_eq_true_eq] at set
  omega

theorem Started.extents (started : Started size disk state) (bounded : Addressable size) :
    Extents state.sb state.volume := by
  have none := started.no_file
  have formatted := started.formatted
  rw [started.volume] at none ⊢
  rw [started.sb]
  refine ⟨fun n small => ?_, fun n set => ?_, fun n low high => ?_, fun n live => absurd live (none n),
    fun m _ live => absurd live (none m), fun c inside => ?_⟩
  · rw [formatted.imap_bit, decide_eq_true small]
  · rw [formatted.imap_bit, decide_eq_true_eq] at set
    omega
  · obtain rfl | ⟨i, below, rfl⟩ : n = 1 ∨ ∃ i < 3, n = i + 2 := by
      by_cases first : n = 1
      · exact .inl first
      · exact .inr ⟨n - 2, by omega, by omega⟩
    · rw [formatted.rootRecord_eq bounded]
      exact ⟨show iDirectory ≠ iRegular by decide, fun s _ high => high⟩
    · rw [formatted.ttyRecord_eq bounded below]
      refine ⟨show iCharSpecial ≠ iRegular by decide, fun s low high => ?_⟩
      have empty : s < 4 * 256 + i + 0 := high
      have start : 4 * 256 + i ≤ s := low
      omega
  · rw [formatted.smap_bit inside, decide_eq_true_eq]
    exact ⟨.inl, fun either => either.resolve_right fun ⟨n, live, _⟩ => none n live⟩

theorem Started.entry (started : Started size disk state) (bounded : Addressable size)
    (clean : CleanDirectory size disk) (k : Nat) : state.volume.entries k =
      if k < 4 then { inodeNr := k + 1, name := padded (mkfsName k) } else emptyEntry := by
  rw [started.volume]
  exact started.formatted.entry bounded clean k

theorem Started.sound (started : Started size disk state) (bounded : Addressable size)
    (clean : CleanDirectory size disk) : Sound state := by
  have formatted := started.formatted
  have root := started.rootHeld bounded
  have only (i : Nat) (used : (state.inodeTable i).cnt ≠ 0) : i = state.rootInode := by
    by_contra other
    exact used (started.others i other)
  have entries := started.entry bounded clean
  have record : state.dir.toInodeRecord = state.volume.records 1 := by
    rw [started.root, started.volume, formatted.rootRecord_eq bounded]
  refine ⟨⟨?_, ?_, root, started.extents bounded, ⟨fun i _ => ?_, fun i _ used => ?_, ?_⟩, ⟨?_, ?_, ?_, ?_⟩⟩,
    ⟨fun k _ => ?_, fun k _ => ?_, fun k _ l _ => ?_⟩⟩
  · rw [started.sb]
    exact bounded.layout
  · rw [started.sb, newSuperBlock_first]
    have smap : (newSuperBlock size).nrSmapSects = size / 4096 + 1 := rfl
    unfold Addressable at bounded
    omega
  · by_cases here : i = state.rootInode
    · rw [here]
      exact Int.le_of_lt root.used
    · rw [started.others i here]
  · rw [only i used]
    have num : (state.inodeTable state.rootInode).num = 1 := root.num
    rw [num]
    exact ⟨by omega, by omega, record⟩
  · intro i _ j _ left right _
    rw [only i left, only j right]
  · intro d p points
    rw [started.descs d] at points
    cases points
  · intro d e p points
    rw [started.descs d] at points
    cases points
  · intro pid fd d link
    rw [started.filp] at link
    cases link
  · intro pid fd other place d link
    rw [started.filp] at link
    cases link
  · rw [entries]
    split
    next early =>
      intro _
      have special := (started.extents bounded).special (k + 1) (by omega) (by omega)
      exact ⟨by show k + 1 < 4096; omega, .inr special.1⟩
    next => exact fun used => absurd rfl used
  · rw [entries]
    split
    next early =>
      intro _
      exact .inl (show k + 1 < 5 by omega)
    next => exact fun used => absurd rfl used
  · rw [entries, entries]
    split
    next early =>
      split
      next =>
        intro _ same
        exact Nat.succ.inj same
      next =>
        intro _ same
        cases same
    next => exact fun used => absurd rfl used

end Start

end AempOS.Fs
