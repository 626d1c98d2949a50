import AempOS.Fs.Disk
import AempOS.Lib.Scan

/-! The inode map and the sector map: `alloc_imap_bit` and `alloc_smap_bit`, and
the parts of `do_unlink` that free the bits of a file. Bit `b` of the sector map
stands for sector `b - 1 + n_1st_sect`. -/

set_option autoImplicit false

namespace AempOS.Fs

open Lib

/-- The loop over the map's sectors returns in its first round, with 0 when that
sector has no clear bit. -/
def allocImapBit (sb : SuperBlock) (disk : Disk) : Nat × Disk :=
  if sb.nrImapSects = 0 then (0, disk)
  else
    let fsbuf := rdSect disk 2
    match firstFrom (fun j => fsbuf j != 0xFF) sectorSize 0 with
    | none => (0, disk)
    | some j =>
        let k := skipOnes (fsbuf j) 8 0
        (j * 8 + k, wrSect disk 2 (Function.update fsbuf j (fsbuf j ||| BitVec.twoPow 8 k)))

/-- One round of the loop over the bytes, on byte `pos` of the whole map. A free
sector number of 0 says that no clear bit was met yet. -/
def allocByte (n1stSect pos : Nat) (byte : Byte) (freeSectNr left : Nat) : Byte × Nat × Nat :=
  if freeSectNr = 0 then
    if byte = 0xFF then (byte, 0, left)
    else
      let k := skipOnes byte 8 0
      let out := setBits (8 - k) byte k left
      (out.1, (pos * 8 + k + n1stSect - 1) % 2 ^ 32, out.2)
  else
    let out := setBits 8 byte 0 left
    (out.1, freeSectNr, out.2)

/-- `for (; j < SECTOR_SIZE && nr_sects_to_alloc > 0; j++)` with `rounds` to go,
on the buffer whose first byte is byte `base` of the map. -/
def allocBytes (n1stSect base : Nat) : Nat → Nat → Buffer → Nat → Nat → Buffer × Nat × Nat
  | 0, _, fsbuf, freeSectNr, left => (fsbuf, freeSectNr, left)
  | rounds + 1, j, fsbuf, freeSectNr, left =>
      if left = 0 then (fsbuf, freeSectNr, left)
      else
        let out := allocByte n1stSect (base + j) (fsbuf j) freeSectNr left
        allocBytes n1stSect base rounds (j + 1) (Function.update fsbuf j out.1) out.2.1 out.2.2

/-- The loop over the sectors of the map. A sector is written back once a clear
bit was met. -/
def allocSects (sb : SuperBlock) : Nat → Nat → Disk → Nat → Nat → Nat × Disk
  | 0, _, disk, freeSectNr, _ => (freeSectNr, disk)
  | rounds + 1, i, disk, freeSectNr, left =>
      let sect := 1 + 1 + sb.nrImapSects + i
      let out := allocBytes sb.n1stSect (i * sectorSize) sectorSize 0 (rdSect disk sect)
        freeSectNr left
      let disk := if out.2.1 = 0 then disk else wrSect disk sect out.1
      if out.2.2 = 0 then (out.2.1, disk) else allocSects sb rounds (i + 1) disk out.2.1 out.2.2

def allocSmapBit (sb : SuperBlock) (disk : Disk) (nrSectsToAlloc : Nat) : Nat × Disk :=
  allocSects sb sb.nrSmapSects 0 disk 0 nrSectsToAlloc

/-- "free the bit in i-map" of `do_unlink`. -/
def freeImapBit (disk : Disk) (inodeNr : Nat) : Disk :=
  let byteIdx := inodeNr / 8 % sectorSize
  let fsbuf := rdSect disk 2
  wrSect disk 2
    (Function.update fsbuf byteIdx (fsbuf byteIdx &&& ~~~BitVec.twoPow 8 (inodeNr % 8)))

/-- The variables of "free the bits in s-map": the current sector, its buffer,
the byte in it that is next and the bits that are left to clear. -/
structure SmapCursor where
  disk : Disk
  s : Nat
  fsbuf : Buffer
  i : Nat
  bitsLeft : Nat

/-- `if (i == SECTOR_SIZE)`: write the sector back and read the next one. -/
def SmapCursor.turn (cursor : SmapCursor) : SmapCursor :=
  if cursor.i = sectorSize then
    let disk := wrSect cursor.disk cursor.s cursor.fsbuf
    { cursor with
      disk := disk
      s := cursor.s + 1
      fsbuf := rdSect disk (cursor.s + 1)
      i := 0 }
  else cursor

/-- `fsbuf[i] = 0`, and on to the next byte. -/
def SmapCursor.clearByte (cursor : SmapCursor) : SmapCursor :=
  { cursor with
    fsbuf := Function.update cursor.fsbuf cursor.i 0
    i := cursor.i + 1
    bitsLeft := cursor.bitsLeft - 8 }

/-- "clear bytes from the second byte to the second to last". -/
def SmapCursor.clearBytes : Nat → SmapCursor → SmapCursor
  | 0, cursor => cursor
  | rounds + 1, cursor => SmapCursor.clearBytes rounds cursor.turn.clearByte

/-- "clear the last byte", and the write of the last sector. -/
def SmapCursor.finish (cursor : SmapCursor) : Disk :=
  let cursor := cursor.turn
  wrSect cursor.disk cursor.s
    (Function.update cursor.fsbuf cursor.i
      (cursor.fsbuf cursor.i &&& (BitVec.allOnes 8 <<< cursor.bitsLeft)))

/-- "free the bits in s-map" of `do_unlink`. -/
def freeSmapBits (sb : SuperBlock) (disk : Disk) (startSect nrSects : Nat) : Disk :=
  let bitIdx := startSect - sb.n1stSect + 1
  let byteIdx := bitIdx / 8
  let byteCnt := (nrSects - (8 - bitIdx % 8)) / 8
  let s := 2 + sb.nrImapSects + byteIdx / sectorSize
  let fsbuf := rdSect disk s
  let i := byteIdx % sectorSize
  let first := clearBits (8 - bitIdx % 8) (fsbuf i) (bitIdx % 8) nrSects
  let cursor : SmapCursor :=
    { disk := disk
      s := s
      fsbuf := Function.update fsbuf i first.1
      i := i + 1
      bitsLeft := first.2 }
  (SmapCursor.clearBytes byteCnt cursor).finish

end AempOS.Fs
