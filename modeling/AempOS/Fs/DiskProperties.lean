import AempOS.Fs.Disk

/-! Where `mkfs` puts things, and that sectors of the layout are told apart by
the driver. Behind boot sector and super block there are the inode map, the
sector map, the inode array and the root directory, in this order. -/

set_option autoImplicit false

namespace AempOS.Fs

open Lib

/-- The facts about a super block that the sector arithmetic rests on. -/
structure Layout (sb : SuperBlock) : Prop where
  imap : sb.nrImapSects = 1
  first : sb.n1stSect = 3 + sb.nrSmapSects + 256
  small : sb.n1stSect + nrDefaultFileSects ≤ 2 ^ 20
  covers : sb.nrSects < sb.nrSmapSects * sectorBits

theorem hdSector_small {sectNr : Nat} (small : sectNr < 2 ^ 22) : hdSector sectNr = sectNr := by
  unfold hdSector sectorSize lbaSectors
  simp only
  rw [if_pos (by omega)]
  omega

theorem hdSector_lt (sectNr : Nat) : hdSector sectNr < lbaSectors :=
  Nat.mod_lt _ (by decide)

/-- A sector behind the root directory never passes for one of the maps, the
inode array or the directory, up to where the position wraps around. -/
theorem hdSector_far {sectNr stop : Nat} (low : stop ≤ sectNr) (high : sectNr < 2 ^ 23 + 2)
    (small : stop ≤ 2 ^ 22) : hdSector sectNr < 2 ∨ stop ≤ hdSector sectNr := by
  unfold hdSector sectorSize lbaSectors
  simp only
  split
  next => omega
  next => omega

variable {disk : Disk} {sectNr : Nat}

theorem rdSect_small (disk : Disk) (small : sectNr < 2 ^ 22) : rdSect disk sectNr = disk sectNr := by
  rw [rdSect, hdSector_small small]

theorem wrSect_small (disk : Disk) (fsbuf : Buffer) (small : sectNr < 2 ^ 22) :
    wrSect disk sectNr fsbuf = Function.update disk sectNr fsbuf := by
  rw [wrSect, hdSector_small small]

theorem wrSect_self {fsbuf : Buffer} (small : sectNr < 2 ^ 22) :
    wrSect disk sectNr fsbuf sectNr = fsbuf := by
  rw [wrSect_small disk fsbuf small, Function.update_self]

theorem wrSect_other {fsbuf : Buffer} {other : Nat} (small : sectNr < 2 ^ 22)
    (apart : other ≠ sectNr) : wrSect disk sectNr fsbuf other = disk other := by
  rw [wrSect_small disk fsbuf small, Function.update_of_ne apart]

theorem wrSect_rdSect (disk : Disk) (sectNr : Nat) : wrSect disk sectNr (rdSect disk sectNr) = disk :=
  Function.update_eq_self _ _

/-! ## The drive -/

section Drive

variable {drive : Disk} {base : Nat}

/-- The sector of the drive on which a sector of the partition lies, if the registers name
it, and the sector of the partition that lies on it. -/
theorem partition_sector {sect : Nat} (named : sect < lbaSectors) :
    (base + (sect + (lbaSectors - base % lbaSectors)) % lbaSectors) % lbaSectors = sect := by
  unfold lbaSectors at *
  omega

theorem drive_sector {r : Nat} (named : r < lbaSectors) :
    ((base + r) % lbaSectors + (lbaSectors - base % lbaSectors)) % lbaSectors = r := by
  unfold lbaSectors at *
  omega

theorem ontoDrive_sector (drive : Disk) (base : Nat) (disk : Disk) {r : Nat} (named : r < lbaSectors) :
    ontoDrive drive base disk ((base + r) % lbaSectors) = disk r := by
  rw [ontoDrive, if_pos (Nat.mod_lt _ (by decide)), drive_sector named]

theorem ontoDrive_partitionAt (drive : Disk) (base : Nat) :
    ontoDrive drive base (partitionAt drive base) = drive := by
  funext sect
  by_cases named : sect < lbaSectors
  · rw [ontoDrive, if_pos named, partitionAt, partition_sector named]
  · rw [ontoDrive, if_neg named]

/-- A write goes to the sector of the drive that the registers name. -/
theorem ontoDrive_wrSect (disk : Disk) (sectNr : Nat) (fsbuf : Buffer) :
    ontoDrive drive base (wrSect disk sectNr fsbuf) =
      Function.update (ontoDrive drive base disk) ((base + hdSector sectNr) % lbaSectors) fsbuf := by
  have named := hdSector_lt sectNr
  funext sect
  by_cases here : sect = (base + hdSector sectNr) % lbaSectors
  · rw [here, Function.update_self, ontoDrive_sector _ _ _ named, wrSect, Function.update_self]
  · rw [Function.update_of_ne here, ontoDrive, ontoDrive]
    split
    next inside =>
      have apart : (sect + (lbaSectors - base % lbaSectors)) % lbaSectors ≠ hdSector sectNr := by
        intro same
        rw [← same, partition_sector inside] at here
        exact here rfl
      rw [wrSect, Function.update_of_ne apart]
    next => rfl

end Drive

section Records

theorem storeWords_outside (words : List Nat) {buf : Buffer} {off o : Nat}
    (outside : o < off ∨ off + 4 * words.length ≤ o) : storeWords buf off words o = buf o := by
  induction words generalizing buf off with
  | nil => rfl
  | cons word rest ih =>
      rw [List.length_cons] at outside
      rw [storeWords, ih (by omega), setWord32_outside (by omega)]

theorem word32_storeWords (words : List Nat) (buf : Buffer) (off : Nat) {i word : Nat}
    (found : words[i]? = some word) (small : word < 2 ^ 32) :
    word32 (storeWords buf off words) (off + 4 * i) = word := by
  induction words generalizing buf off i with
  | nil => simp at found
  | cons head rest ih =>
      cases i with
      | zero =>
          have same : word32 (storeWords (setWord32 buf off head) (off + 4) rest) off =
              word32 (setWord32 buf off head) off :=
            word32_congr fun o _ high => storeWords_outside rest (by omega)
          simp only [List.getElem?_cons_zero, Option.some.injEq] at found
          subst found
          calc word32 (storeWords (setWord32 buf off head) (off + 4) rest) off
              _ = word32 (setWord32 buf off head) off := same
              _ = head := word32_setWord32 buf off small
      | succ i =>
          rw [List.getElem?_cons_succ] at found
          have := ih (setWord32 buf off head) (off + 4) found
          rw [storeWords, ← this]
          congr 1
          omega

/-- The members fit the words that keep them. -/
structure InodeRecord.Fits (inode : InodeRecord) : Prop where
  mode : inode.mode < 2 ^ 32
  size : inode.size < 2 ^ 32
  startSect : inode.startSect < 2 ^ 32
  nrSects : inode.nrSects < 2 ^ 32

variable {fsbuf other : Buffer} {off at' : Nat} {inode : InodeRecord}

theorem readRecord_fits (fsbuf : Buffer) (off : Nat) : (readRecord fsbuf off).Fits :=
  ⟨word32_lt _ _, word32_lt _ _, word32_lt _ _, word32_lt _ _⟩

theorem readRecord_congr (same : ∀ o, off ≤ o → o < off + 16 → fsbuf o = other o) :
    readRecord fsbuf off = readRecord other off := by
  have word (shift : Nat) (inside : shift ≤ 12) :
      word32 fsbuf (off + shift) = word32 other (off + shift) :=
    word32_congr fun o low high => same o (by omega) (by omega)
  unfold readRecord
  rw [word 4 (by omega), word 8 (by omega), word 12 (by omega)]
  have first := word 0 (by omega)
  rw [Nat.add_zero] at first
  rw [first]

theorem readRecord_writeRecord (fits : inode.Fits) (fsbuf : Buffer) (off : Nat) :
    readRecord (writeRecord fsbuf off inode) off = inode := by
  have word {i value : Nat}
      (found : [inode.mode, inode.size, inode.startSect, inode.nrSects][i]? = some value)
      (small : value < 2 ^ 32) : word32 (writeRecord fsbuf off inode) (off + 4 * i) = value :=
    word32_storeWords _ fsbuf off found small
  have mode : word32 (writeRecord fsbuf off inode) off = inode.mode := word (i := 0) rfl fits.mode
  have size : word32 (writeRecord fsbuf off inode) (off + 4) = inode.size :=
    word (i := 1) rfl fits.size
  have start : word32 (writeRecord fsbuf off inode) (off + 8) = inode.startSect :=
    word (i := 2) rfl fits.startSect
  have count : word32 (writeRecord fsbuf off inode) (off + 12) = inode.nrSects :=
    word (i := 3) rfl fits.nrSects
  unfold readRecord
  rw [mode, size, start, count]

theorem writeRecord_outside {o : Nat} (outside : o < off ∨ off + 16 ≤ o) :
    writeRecord fsbuf off inode o = fsbuf o :=
  storeWords_outside _ outside

theorem readRecord_writeRecord_apart (apart : off + 16 ≤ at' ∨ at' + 16 ≤ off) :
    readRecord (writeRecord fsbuf off inode) at' = readRecord fsbuf at' :=
  readRecord_congr fun _ _ _ => writeRecord_outside (by omega)

end Records

end AempOS.Fs
