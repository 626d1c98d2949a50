import AempOS.Fs.MapsProperties
import AempOS.Fs.Directory
import Mathlib.Data.List.GetD

/-! What the sectors of the file system say, apart from the contents of files:
the bits of the two maps, the inode records and the entries of the root
directory. Each write of `kernel/fs.c` to these sectors changes one of the four
and leaves the others. -/

set_option autoImplicit false

namespace AempOS.Fs

open Lib

/-- A directory entry: `inode_nr` and the characters of `name`. -/
structure DirEntry where
  inodeNr : Nat
  name : Nat → Byte

def emptyEntry : DirEntry :=
  { inodeNr := 0
    name := fun _ => 0 }

/-- A name as an entry keeps it, with zeros behind. -/
def padded (name : List Byte) : Nat → Byte := fun i => name.getD i 0

def emptyRecord : InodeRecord :=
  { mode := 0
    size := 0
    startSect := 0
    nrSects := 0 }

/-- The part of the root directory that entries can reach: a file needs an inode. -/
def maxEntries : Nat := 4096

structure Volume where
  imap : Nat → Bool
  smap : Nat → Bool
  records : Nat → InodeRecord
  entries : Nat → DirEntry

def entryOf (disk : Disk) (dirBlk0Nr k : Nat) : DirEntry :=
  { inodeNr := entryInode disk dirBlk0Nr k
    name := fun i => if i < maxFilenameLen then entryChar disk dirBlk0Nr k i else 0 }

def volumeOf (sb : SuperBlock) (disk : Disk) : Volume :=
  { imap := fun n => decide (n < sectorBits) && inodeBit disk n
    smap := fun b => decide (b < sb.nrSmapSects * sectorBits) && sectorBit disk b
    records := fun n => if 1 ≤ n ∧ n ≤ sectorBits then recordOf sb disk n else emptyRecord
    entries := fun k => if k < maxEntries then entryOf disk sb.n1stSect k else emptyEntry }

namespace Volume

def takeInode (volume : Volume) (n : Nat) : Volume :=
  { volume with imap := fun m => volume.imap m || decide (m = n) }

def freeInode (volume : Volume) (n : Nat) : Volume :=
  { volume with imap := fun m => volume.imap m && !decide (m = n) }

def takeRun (volume : Volume) (b count : Nat) : Volume :=
  { volume with smap := fun c => volume.smap c || decide (b ≤ c ∧ c < b + count) }

def freeRun (volume : Volume) (b count : Nat) : Volume :=
  { volume with smap := fun c => volume.smap c && !decide (b ≤ c ∧ c < b + count) }

def putRecord (volume : Volume) (n : Nat) (inode : InodeRecord) : Volume :=
  { volume with records := Function.update volume.records n inode }

def putEntry (volume : Volume) (k : Nat) (entry : DirEntry) : Volume :=
  { volume with entries := Function.update volume.entries k entry }

/-- A new file: its inode, its run of sectors and its record. -/
def withFile (volume : Volume) (n b count : Nat) (inode : InodeRecord) : Volume :=
  ((volume.takeInode n).takeRun b count).putRecord n inode

/-- A file is removed from the maps and from the inode array. -/
def withoutFile (volume : Volume) (n b count : Nat) : Volume :=
  ((volume.freeInode n).freeRun b count).putRecord n emptyRecord

variable {volume : Volume} {n m b count k l : Nat} {inode : InodeRecord} {entry : DirEntry}

theorem putRecord_self : (volume.putRecord n inode).records n = inode := by
  simp only [putRecord, Function.update_self]

theorem putRecord_other (apart : m ≠ n) : (volume.putRecord n inode).records m = volume.records m := by
  simp only [putRecord, Function.update_of_ne apart]

theorem putEntry_self : (volume.putEntry k entry).entries k = entry := by
  simp only [putEntry, Function.update_self]

theorem putEntry_other (apart : l ≠ k) : (volume.putEntry k entry).entries l = volume.entries l := by
  simp only [putEntry, Function.update_of_ne apart]

theorem withFile_self : (volume.withFile n b count inode).records n = inode :=
  putRecord_self

theorem withFile_other (apart : m ≠ n) :
    (volume.withFile n b count inode).records m = volume.records m :=
  putRecord_other apart

theorem withoutFile_self : (volume.withoutFile n b count).records n = emptyRecord :=
  putRecord_self

theorem withoutFile_other (apart : m ≠ n) :
    (volume.withoutFile n b count).records m = volume.records m :=
  putRecord_other apart

end Volume

variable {sb : SuperBlock} {disk next : Disk}

section Reading

theorem inodeSect_bounds (layout : Layout sb) {n : Nat} (low : 1 ≤ n) (high : n ≤ sectorBits) :
    3 + sb.nrSmapSects ≤ inodeSect sb n ∧ inodeSect sb n < sb.n1stSect := by
  have first := layout.first
  unfold sectorBits at high
  unfold inodeSect sectorSize inodeSize
  rw [layout.imap]
  omega

theorem entrySect_lt {k : Nat} (inside : k < maxEntries) : entrySect k < nrDefaultFileSects := by
  unfold maxEntries at inside
  unfold entrySect entriesPerSect sectorSize dirEntrySize nrDefaultFileSects
  omega

private theorem records_congr (layout : Layout sb)
    (same : ∀ r, 3 + sb.nrSmapSects ≤ r → r < sb.n1stSect → next r = disk r) :
    (volumeOf sb next).records = (volumeOf sb disk).records := by
  funext n
  simp only [volumeOf]
  split
  next inside =>
    obtain ⟨low, high⟩ := inodeSect_bounds layout inside.1 inside.2
    have small := layout.small
    unfold recordOf
    rw [rdSect_small _ (by omega), rdSect_small _ (by omega), same _ low high]
  next => rfl

private theorem entries_congr (layout : Layout sb)
    (same : ∀ r, sb.n1stSect ≤ r → r < sb.n1stSect + nrDefaultFileSects → next r = disk r) :
    (volumeOf sb next).entries = (volumeOf sb disk).entries := by
  funext k
  simp only [volumeOf]
  split
  next inside =>
    have high := entrySect_lt inside
    have small := layout.small
    unfold entryOf entryInode entryChar entryBuf
    rw [rdSect_small _ (by omega), rdSect_small _ (by omega), same _ (by omega) (by omega)]
  next => rfl

private theorem imap_congr (same : next 2 = disk 2) :
    (volumeOf sb next).imap = (volumeOf sb disk).imap := by
  simp only [volumeOf, inodeBit, same]

private theorem smap_congr (same : ∀ r, 3 ≤ r → r < 3 + sb.nrSmapSects → next r = disk r) :
    (volumeOf sb next).smap = (volumeOf sb disk).smap := by
  funext b
  simp only [volumeOf]
  by_cases inside : b < sb.nrSmapSects * sectorBits
  · rw [sectorBit_congr same inside]
  · rw [decide_eq_false inside, Bool.false_and, Bool.false_and]

private theorem Volume.ext_parts {left right : Volume} (imap : left.imap = right.imap)
    (smap : left.smap = right.smap) (records : left.records = right.records)
    (entries : left.entries = right.entries) : left = right := by
  cases left
  cases right
  simp only at imap smap records entries
  subst imap smap records entries
  rfl

theorem volumeOf_congr (layout : Layout sb)
    (same : ∀ r, 2 ≤ r → r < sb.n1stSect + nrDefaultFileSects → next r = disk r) :
    volumeOf sb next = volumeOf sb disk := by
  have first := layout.first
  apply Volume.ext_parts
  · exact imap_congr (same 2 (by omega) (by omega))
  · exact smap_congr fun r low high => same r (by omega) (by omega)
  · exact records_congr layout fun r low high => same r (by omega) (by omega)
  · exact entries_congr layout fun r low high => same r (by omega) (by omega)

end Reading

section Maps

variable {n b count : Nat}

private theorem volumeOf_imap (layout : Layout sb) (frame : ∀ r, r ≠ 2 → next r = disk r)
    {imap : Nat → Bool} (bits : ∀ m, (volumeOf sb next).imap m = imap m) :
    volumeOf sb next = ⟨imap, (volumeOf sb disk).smap, (volumeOf sb disk).records,
      (volumeOf sb disk).entries⟩ := by
  have first := layout.first
  apply Volume.ext_parts
  · exact funext bits
  · exact smap_congr fun r low high => frame r (by omega)
  · exact records_congr layout fun r low high => frame r (by omega)
  · exact entries_congr layout fun r low high => frame r (by omega)

private theorem volumeOf_smap (layout : Layout sb)
    (frame : ∀ r, r < 3 ∨ 3 + sb.nrSmapSects ≤ r → next r = disk r)
    {smap : Nat → Bool} (bits : ∀ c, (volumeOf sb next).smap c = smap c) :
    volumeOf sb next = ⟨(volumeOf sb disk).imap, smap, (volumeOf sb disk).records,
      (volumeOf sb disk).entries⟩ := by
  have first := layout.first
  apply Volume.ext_parts
  · exact imap_congr (frame 2 (by omega))
  · exact funext bits
  · exact records_congr layout fun r low high => frame r (by omega)
  · exact entries_congr layout fun r low high => frame r (by omega)

theorem allocImapBit_volume (layout : Layout sb)
    (clear : ∃ n < sectorBits, (volumeOf sb disk).imap n = false) :
    ∃ n next, allocImapBit sb disk = (n, next) ∧ n < sectorBits ∧
      (volumeOf sb disk).imap n = false ∧ (∀ m < n, (volumeOf sb disk).imap m = true) ∧
      volumeOf sb next = (volumeOf sb disk).takeInode n := by
  have bit (m : Nat) (inside : m < sectorBits) :
      (volumeOf sb disk).imap m = inodeBit disk m := by
    simp only [volumeOf, decide_eq_true inside, Bool.true_and]
  obtain ⟨m, small, zero⟩ := clear
  rw [bit m small] at zero
  obtain ⟨n, next, ran, inside, free, least, bits, frame⟩ :=
    allocImapBit_clear layout.maps ⟨m, small, zero⟩
  refine ⟨n, next, ran, inside, by rw [bit n inside, free], fun m below => ?_, ?_⟩
  · rw [bit m (by omega), least m below]
  · refine volumeOf_imap layout frame fun m => ?_
    simp only [volumeOf, bits]
    by_cases small : m < sectorBits
    · rw [decide_eq_true small, Bool.true_and, Bool.true_and]
    · have other : m ≠ n := by omega
      rw [decide_eq_false small, decide_eq_false other, Bool.false_and, Bool.false_and,
        Bool.or_false]

theorem freeImapBit_volume (layout : Layout sb) (disk : Disk) (inside : n < sectorBits) :
    volumeOf sb (freeImapBit disk n) = (volumeOf sb disk).freeInode n := by
  refine volumeOf_imap layout (fun r other => freeImapBit_other other) fun m => ?_
  simp only [volumeOf, freeImapBit_bit inside]
  rw [Bool.and_assoc]

theorem allocSmapBit_volume (layout : Layout sb) (some : 0 < count)
    (clear : ∃ b < sb.nrSmapSects * sectorBits, (volumeOf sb disk).smap b = false) :
    ∃ b next, allocSmapBit sb disk count = (b + sb.n1stSect - 1, next) ∧
      b < sb.nrSmapSects * sectorBits ∧ (volumeOf sb disk).smap b = false ∧
      (∀ c < b, (volumeOf sb disk).smap c = true) ∧
      volumeOf sb next = (volumeOf sb disk).takeRun b
        (min count (sb.nrSmapSects * sectorBits - b)) := by
  have fits : sb.nrSmapSects * sectorBits + sb.n1stSect ≤ 2 ^ 32 := by
    have first := layout.first
    have small := layout.small
    unfold nrDefaultFileSects at small
    unfold sectorBits
    omega
  have bit (c : Nat) (inside : c < sb.nrSmapSects * sectorBits) :
      (volumeOf sb disk).smap c = sectorBit disk c := by
    simp only [volumeOf, decide_eq_true inside, Bool.true_and]
  obtain ⟨c, below, zero⟩ := clear
  rw [bit c below] at zero
  obtain ⟨b, next, ran, inside, free, least, bits, frame⟩ :=
    allocSmapBit_clear layout.maps some ⟨c, below, by omega, zero⟩
  refine ⟨b, next, ran, inside, by rw [bit b inside, free], fun c under => ?_, ?_⟩
  · rw [bit c (by omega), least c under]
  · refine volumeOf_smap layout frame fun c => ?_
    simp only [volumeOf, bits]
    by_cases within : c < sb.nrSmapSects * sectorBits
    · rw [decide_eq_true within, Bool.true_and, Bool.true_and]
      congr 1
      rw [decide_eq_decide]
      omega
    · rw [decide_eq_false within, Bool.false_and, Bool.false_and, decide_eq_false (by omega),
        Bool.or_false]

theorem freeSmapBits_volume (layout : Layout sb) (disk : Disk) (low : 1 ≤ b) (some : 0 < count)
    (high : b + count ≤ sb.nrSmapSects * sectorBits) :
    volumeOf sb (freeSmapBits sb disk (b + sb.n1stSect - 1) count) =
      (volumeOf sb disk).freeRun b count := by
  obtain ⟨bits, frame⟩ := freeSmapBits_spec disk layout.maps low some high
  refine volumeOf_smap layout frame fun c => ?_
  simp only [volumeOf, bits]
  rw [Bool.and_assoc]

end Maps

section Records

variable {n : Nat} {inode : InodeRecord}

private theorem record_apart {m : Nat} (lowM : 1 ≤ m) (low : 1 ≤ n) (apart : m ≠ n)
    (same : inodeSect sb m = inodeSect sb n) :
    inodeOff n + 16 ≤ inodeOff m ∨ inodeOff m + 16 ≤ inodeOff n := by
  unfold inodeSect sectorSize inodeSize at same
  unfold inodeOff sectorSize inodeSize
  omega

/-- What `sync_inode` writes. -/
theorem storeRecord_volume (layout : Layout sb) (disk : Disk) (low : 1 ≤ n) (high : n ≤ sectorBits)
    (fits : inode.Fits) :
    volumeOf sb (wrSect disk (inodeSect sb n)
        (writeRecord (rdSect disk (inodeSect sb n)) (inodeOff n) inode)) =
      (volumeOf sb disk).putRecord n inode := by
  have first := layout.first
  have small := layout.small
  obtain ⟨above, below⟩ := inodeSect_bounds layout low high
  have here : inodeSect sb n < 2 ^ 22 := by omega
  apply Volume.ext_parts
  · exact imap_congr (wrSect_other here (by omega))
  · exact smap_congr fun r _ _ => wrSect_other here (by omega)
  · funext m
    simp only [volumeOf, Volume.putRecord]
    by_cases same : m = n
    · subst same
      rw [if_pos ⟨low, high⟩, Function.update_self, recordOf, rdSect_small _ here, wrSect_self here,
        readRecord_writeRecord fits]
    · rw [Function.update_of_ne same]
      split
      next inside =>
        obtain ⟨aboveM, belowM⟩ := inodeSect_bounds layout inside.1 inside.2
        have thereM : inodeSect sb m < 2 ^ 22 := by omega
        unfold recordOf
        rw [rdSect_small _ thereM, rdSect_small disk thereM, rdSect_small disk here]
        by_cases sect : inodeSect sb m = inodeSect sb n
        · rw [sect, wrSect_self here,
            readRecord_writeRecord_apart (record_apart inside.1 low same sect)]
        · rw [wrSect_other here sect]
      next => rfl
  · exact entries_congr layout fun r _ _ => wrSect_other here (by omega)

end Records

section Entries

variable {k : Nat} {fsbuf : Buffer}

/-- The entry at a place of a buffer. -/
def entryIn (fsbuf : Buffer) (off : Nat) : DirEntry :=
  { inodeNr := word32 fsbuf off
    name := fun i => if i < maxFilenameLen then fsbuf (off + 4 + i) else 0 }

theorem entryIn_congr {other : Buffer} {off : Nat}
    (same : ∀ o, off ≤ o → o < off + dirEntrySize → other o = fsbuf o) :
    entryIn other off = entryIn fsbuf off := by
  unfold dirEntrySize at same
  unfold entryIn
  congr 1
  · exact word32_congr fun o low high => same o low (by omega)
  · funext i
    split
    next inside =>
      unfold maxFilenameLen at inside
      exact same _ (by omega) (by omega)
    next => rfl

/-- A changed entry and what the rest of its sector was. -/
theorem storeEntry_volume (layout : Layout sb) (inside : k < maxEntries)
    (same : ∀ o, o < entryOff k ∨ entryOff k + dirEntrySize ≤ o →
      fsbuf o = entryBuf disk sb.n1stSect k o) :
    volumeOf sb (wrSect disk (sb.n1stSect + entrySect k) fsbuf) =
      (volumeOf sb disk).putEntry k (entryIn fsbuf (entryOff k)) := by
  have first := layout.first
  have small := layout.small
  have below := entrySect_lt inside
  have here : sb.n1stSect + entrySect k < 2 ^ 22 := by omega
  apply Volume.ext_parts
  · exact imap_congr (wrSect_other here (by omega))
  · exact smap_congr fun r _ _ => wrSect_other here (by omega)
  · exact records_congr layout fun r _ _ => wrSect_other here (by omega)
  · funext other
    simp only [volumeOf, Volume.putEntry]
    by_cases chosen : other = k
    · subst chosen
      rw [if_pos inside, Function.update_self]
      unfold entryOf entryInode entryChar entryBuf
      rw [rdSect_small _ here, wrSect_self here]
      rfl
    · rw [Function.update_of_ne chosen]
      split
      next within =>
        have belowOther := entrySect_lt within
        have there : sb.n1stSect + entrySect other < 2 ^ 22 := by omega
        by_cases sect : entrySect other = entrySect k
        · have apart : entryOff k + dirEntrySize ≤ entryOff other ∨
              entryOff other + dirEntrySize ≤ entryOff k := by
            unfold entrySect entriesPerSect sectorSize dirEntrySize at sect
            unfold entryOff entriesPerSect sectorSize dirEntrySize
            omega
          have buffer : entryBuf disk sb.n1stSect k = entryBuf disk sb.n1stSect other := by
            rw [entryBuf, entryBuf, sect]
          have read : entryIn fsbuf (entryOff other) =
              entryIn (entryBuf disk sb.n1stSect other) (entryOff other) :=
            entryIn_congr fun o low high => by rw [same o (by omega), buffer]
          calc entryOf (wrSect disk (sb.n1stSect + entrySect k) fsbuf) sb.n1stSect other
              _ = entryIn fsbuf (entryOff other) := by
                  unfold entryOf entryInode entryChar entryBuf
                  rw [sect, rdSect_small _ here, wrSect_self here]
                  rfl
              _ = entryOf disk sb.n1stSect other := read
        · have elsewhere : sb.n1stSect + entrySect other ≠ sb.n1stSect + entrySect k := by omega
          unfold entryOf entryInode entryChar entryBuf
          rw [rdSect_small _ there, rdSect_small disk there, wrSect_other here elsewhere]
      next => rfl

/-- An entry after `inode_nr` and the name are stored: what was behind the end
of the name stays. -/
def DirEntry.renamed (entry : DirEntry) (inodeNr : Nat) (name : List Byte) : DirEntry :=
  { inodeNr := inodeNr
    name := fun i => if i ≤ name.length then name.getD i 0 else entry.name i }

theorem DirEntry.renamed_empty {entry : DirEntry} (zero : entry.name = fun _ => 0) (inodeNr : Nat)
    (name : List Byte) :
    entry.renamed inodeNr name = { inodeNr := inodeNr, name := padded name } := by
  unfold renamed padded
  congr 1
  funext i
  split
  next => rfl
  next beyond => rw [zero, List.getD_eq_default _ _ (by omega)]

theorem entry_fits (k : Nat) : entryOff k + dirEntrySize ≤ sectorSize := by
  unfold entryOff entriesPerSect sectorSize dirEntrySize
  omega

theorem entries_inside (inside : k < maxEntries) :
    (volumeOf sb disk).entries k = entryIn (entryBuf disk sb.n1stSect k) (entryOff k) := by
  simp only [volumeOf, if_pos inside]
  rfl

theorem entryIn_writeEntry {off inodeNr : Nat} (fsbuf : Buffer) (fits : inodeNr < 2 ^ 32)
    {name : List Byte} (short : name.length < maxFilenameLen) :
    entryIn (writeEntry fsbuf off inodeNr name) off = (entryIn fsbuf off).renamed inodeNr name := by
  unfold maxFilenameLen at short
  unfold entryIn DirEntry.renamed writeEntry
  congr 1
  · rw [word32_congr fun o _ _ => copyString_outside (by omega)]
    exact word32_setWord32 fsbuf _ fits
  · funext i
    unfold maxFilenameLen
    by_cases small : i < 12
    · rw [if_pos small]
      by_cases within : i ≤ name.length
      · rw [if_pos within, copyString_inside within]
      · simp only [if_neg within, if_pos small]
        rw [copyString_outside (by omega), setWord32_outside (by omega)]
    · have beyond : ¬i ≤ name.length := by omega
      simp only [if_neg small, if_neg beyond]

theorem writeEntry_outside {off inodeNr o : Nat} {name : List Byte}
    (short : name.length < maxFilenameLen) (outside : o < off ∨ off + dirEntrySize ≤ o) :
    writeEntry fsbuf off inodeNr name o = fsbuf o := by
  unfold maxFilenameLen at short
  unfold dirEntrySize at outside
  unfold writeEntry
  rw [copyString_outside (by omega), setWord32_outside (by omega)]

/-- What `new_dir_entry` writes for a name that leaves room for its terminator. -/
theorem writeEntry_volume (layout : Layout sb) (inside : k < maxEntries) {inodeNr : Nat}
    (fits : inodeNr < 2 ^ 32) {name : List Byte} (short : name.length < maxFilenameLen) :
    volumeOf sb (wrSect disk (sb.n1stSect + entrySect k)
        (writeEntry (entryBuf disk sb.n1stSect k) (entryOff k) inodeNr name)) =
      (volumeOf sb disk).putEntry k
        (((volumeOf sb disk).entries k).renamed inodeNr name) := by
  rw [storeEntry_volume layout inside fun o outside => writeEntry_outside short outside,
    entryIn_writeEntry _ fits short, entries_inside inside]

/-- What `do_unlink` writes into the directory. -/
theorem clearEntry_volume (layout : Layout sb) (inside : k < maxEntries) :
    volumeOf sb (wrSect disk (sb.n1stSect + entrySect k)
        (clearBytes (entryBuf disk sb.n1stSect k) (entryOff k) dirEntrySize)) =
      (volumeOf sb disk).putEntry k emptyEntry := by
  rw [storeEntry_volume layout inside fun o outside => clearBytes_outside outside]
  congr 1
  have zero : entryIn (clearBytes (entryBuf disk sb.n1stSect k) (entryOff k) dirEntrySize)
      (entryOff k) = entryIn (fun _ => 0) (entryOff k) :=
    entryIn_congr fun o low high => clearBytes_inside low high
  rw [zero]
  unfold entryIn emptyEntry
  congr 1
  funext i
  split
  next => rfl
  next => rfl

end Entries

end AempOS.Fs
