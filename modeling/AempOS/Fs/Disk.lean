import AempOS.Lib.Bytes

/-! The disk under the file system of `kernel/fs.c`: sectors, the super block,
the inode records and the directory entries that sectors hold, and `mkfs`.
There is one device, `ROOT_DEV`, so device numbers are left out. A sector has
512 bytes; what a buffer says behind them is never looked at. -/

set_option autoImplicit false

namespace AempOS.Fs

open Lib

def sectorSize : Nat := 512

/-- `SECTOR_BITS`, also `bits_per_sect` of `mkfs`. -/
def sectorBits : Nat := 4096

def inodeSize : Nat := 32

def dirEntrySize : Nat := 16

def maxFilenameLen : Nat := 12

def nrDefaultFileSects : Nat := 2048

def nrConsoles : Nat := 3

def magicV1 : Nat := 0x111

def rootInode : Nat := 1

def iRegular : Nat := 0o100000

def iDirectory : Nat := 0o040000

def iCharSpecial : Nat := 0o020000

/-- `I_TYPE_MASK`: the modes above are its multiples of `0o010000`. -/
def modeType (mode : Nat) : Nat := mode / 0o010000 % 16 * 0o010000

/-- Sectors by number, of a drive or of a partition. -/
abbrev Disk := Nat → Buffer

/-- The sectors that the registers of a drive can name. -/
def lbaSectors : Nat := 2 ^ 28

/-- The sectors of a partition by number. The driver adds the first sector of the partition,
and the registers keep 28 bits of the sum. -/
def partitionAt (drive : Disk) (base : Nat) : Disk := fun sectNr => drive ((base + sectNr) % lbaSectors)

/-- The drive when the sectors of the partition are those of `disk`. -/
def ontoDrive (drive : Disk) (base : Nat) (disk : Disk) : Disk := fun sect =>
  if sect < lbaSectors then disk ((sect + (lbaSectors - base % lbaSectors)) % lbaSectors) else drive sect

/-- The sector of the partition to which the driver goes for sector `sectNr`:
`sect_nr * SECTOR_SIZE` is passed as a signed 32-bit position, is widened to 64 bits and is
shifted back by `hd_rdwt`. Of the sum with the first sector of the partition the registers
keep 28 bits, and so sectors of a partition are told apart by 28 bits. -/
def hdSector (sectNr : Nat) : Nat :=
  let pos := sectNr * sectorSize % 2 ^ 32
  let wide := if pos < 2 ^ 31 then pos else pos + (2 ^ 64 - 2 ^ 32)
  wide / sectorSize % lbaSectors

def rdSect (disk : Disk) (sectNr : Nat) : Buffer :=
  disk (hdSector sectNr)

def wrSect (disk : Disk) (sectNr : Nat) (fsbuf : Buffer) : Disk :=
  Function.update disk (hdSector sectNr) fsbuf

structure SuperBlock where
  magic : Nat
  nrInodes : Nat
  nrSects : Nat
  nrImapSects : Nat
  nrSmapSects : Nat
  n1stSect : Nat
  nrInodeSects : Nat
  rootInode : Nat
  inodeSize : Nat
  inodeIsizeOff : Nat
  inodeStartOff : Nat
  dirEntSize : Nat
  dirEntInodeOff : Nat
  dirEntFnameOff : Nat
  deriving DecidableEq

/-- The words of the super block in the order of the structure. -/
def SuperBlock.words (sb : SuperBlock) : List Nat :=
  [sb.magic, sb.nrInodes, sb.nrSects, sb.nrImapSects, sb.nrSmapSects, sb.n1stSect,
    sb.nrInodeSects, sb.rootInode, sb.inodeSize, sb.inodeIsizeOff, sb.inodeStartOff,
    sb.dirEntSize, sb.dirEntInodeOff, sb.dirEntFnameOff]

/-- Store words one after the other. -/
def storeWords (buf : Buffer) (off : Nat) : List Nat → Buffer
  | [] => buf
  | word :: rest => storeWords (setWord32 buf off word) (off + 4) rest

/-- The structure that `read_super_block` copies out of sector 1. -/
def readSuperBlock (disk : Disk) : SuperBlock :=
  let fsbuf := rdSect disk 1
  { magic := word32 fsbuf 0
    nrInodes := word32 fsbuf 4
    nrSects := word32 fsbuf 8
    nrImapSects := word32 fsbuf 12
    nrSmapSects := word32 fsbuf 16
    n1stSect := word32 fsbuf 20
    nrInodeSects := word32 fsbuf 24
    rootInode := word32 fsbuf 28
    inodeSize := word32 fsbuf 32
    inodeIsizeOff := word32 fsbuf 36
    inodeStartOff := word32 fsbuf 40
    dirEntSize := word32 fsbuf 44
    dirEntInodeOff := word32 fsbuf 48
    dirEntFnameOff := word32 fsbuf 52 }

/-- The members of `struct inode` that are kept on disk. -/
structure InodeRecord where
  mode : Nat
  size : Nat
  startSect : Nat
  nrSects : Nat
  deriving DecidableEq

def readRecord (fsbuf : Buffer) (off : Nat) : InodeRecord :=
  { mode := word32 fsbuf off
    size := word32 fsbuf (off + 4)
    startSect := word32 fsbuf (off + 8)
    nrSects := word32 fsbuf (off + 12) }

def writeRecord (fsbuf : Buffer) (off : Nat) (inode : InodeRecord) : Buffer :=
  storeWords fsbuf off [inode.mode, inode.size, inode.startSect, inode.nrSects]

/-- A directory entry: `inode_nr` and the name. -/
def writeEntry (fsbuf : Buffer) (off inodeNr : Nat) (name : List Byte) : Buffer :=
  copyString (setWord32 fsbuf off inodeNr) (off + 4) name

/-- The characters of an ASCII text. -/
def chars (text : String) : List Byte :=
  text.toList.map fun c => BitVec.ofNat 8 c.toNat

/-- The super block that `mkfs` makes for a partition of `size` sectors. -/
def newSuperBlock (size : Nat) : SuperBlock :=
  let nrInodes := sectorBits
  let nrImapSects := 1
  let nrInodeSects := nrInodes * Fs.inodeSize / sectorSize
  let nrSmapSects := size / sectorBits + 1
  { magic := magicV1
    nrInodes := nrInodes
    nrSects := size
    nrImapSects := nrImapSects
    nrSmapSects := nrSmapSects
    n1stSect := 1 + 1 + nrImapSects + nrSmapSects + nrInodeSects
    nrInodeSects := nrInodeSects
    rootInode := Fs.rootInode
    inodeSize := Fs.inodeSize
    inodeIsizeOff := 4
    inodeStartOff := 8
    dirEntSize := dirEntrySize
    dirEntInodeOff := 0
    dirEntFnameOff := 4 }

def zeroBuffer : Buffer := fun _ => 0

/-- Bits 0 to `NR_CONSOLES + 1`: the reserved inode, the root and the consoles. -/
def firstImap : Buffer :=
  Function.update zeroBuffer 0 (setBits (nrConsoles + 2) 0 0 (nrConsoles + 2)).1

/-- Bit 0, which is reserved, and the sectors of the root directory. -/
def firstSmap : Buffer :=
  let nrSects := nrDefaultFileSects + 1
  let full : Buffer := fun i => if i < nrSects / 8 then 0xFF else 0
  Function.update full (nrSects / 8) (setBits (nrSects % 8) 0 0 (nrSects % 8)).1

/-- The inode of `/`. -/
def rootRecord (sb : SuperBlock) : InodeRecord :=
  { mode := iDirectory
    size := dirEntrySize * 4
    startSect := sb.n1stSect
    nrSects := nrDefaultFileSects }

/-- The inode of console `i`, with `MAKE_DEV(DEV_CHAR_TTY, i)` as its start. -/
def ttyRecord (i : Nat) : InodeRecord :=
  { mode := iCharSpecial
    size := 0
    startSect := 4 * 256 + i
    nrSects := 0 }

def firstInodes (sb : SuperBlock) : Buffer :=
  let buf := writeRecord zeroBuffer 0 (rootRecord sb)
  let buf := writeRecord buf inodeSize (ttyRecord 0)
  let buf := writeRecord buf (inodeSize * 2) (ttyRecord 1)
  writeRecord buf (inodeSize * 3) (ttyRecord 2)

def firstEntries : Buffer :=
  let buf := writeEntry zeroBuffer 0 1 (chars ".")
  let buf := writeEntry buf dirEntrySize 2 (chars "dev_tty0")
  let buf := writeEntry buf (dirEntrySize * 2) 3 (chars "dev_tty1")
  writeEntry buf (dirEntrySize * 3) 4 (chars "dev_tty2")

/-- `for (; i < stop; i++) WR_SECT(dev, base + i, fsbuf)` with `rounds` to go. -/
def zeroSects (disk : Disk) (base i : Nat) : Nat → Disk
  | 0 => disk
  | rounds + 1 => zeroSects (wrSect disk (base + i) zeroBuffer) base (i + 1) rounds

/-- `size` is `geo.size`. The inode sectors behind the first and the sectors of
the root directory behind the first are left as they were. -/
def mkfs (size : Nat) (disk : Disk) : Disk :=
  let sb := newSuperBlock size
  let disk := wrSect disk 1 (storeWords (fun _ => 0x90) 0 sb.words)
  let disk := wrSect disk 2 firstImap
  let disk := wrSect disk (2 + sb.nrImapSects) firstSmap
  let disk := zeroSects disk (2 + sb.nrImapSects) 1 (sb.nrSmapSects - 1)
  let disk := wrSect disk (2 + sb.nrImapSects + sb.nrSmapSects) (firstInodes sb)
  wrSect disk sb.n1stSect firstEntries

end AempOS.Fs
