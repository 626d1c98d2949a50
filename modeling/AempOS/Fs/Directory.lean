import AempOS.Fs.Inode

/-! The root directory: `strip_path`, `search_file`, `new_dir_entry` and the
directory part of `do_unlink`. Entry `k` stands in sector `k / 32` of the
directory; the loops over sectors and over the entries of a sector are read as
one loop over `k`. -/

set_option autoImplicit false

namespace AempOS.Fs

open Lib

def maxPath : Nat := 128

/-- The C string that a path points to. -/
structure Path where
  text : List Byte
  noNul : 0 ∉ text
  short : text.length < maxPath

/-- `'/'` -/
def slash : Byte := 0x2F

/-- The loop of `strip_path` with room for so many characters: -1 at a slash,
and the rest is cut off once `MAX_FILENAME_LEN` characters are copied. -/
def stripChars : Nat → List Byte → Option (List Byte)
  | _, [] => some []
  | 0, _ => some []
  | room + 1, c :: rest =>
      if c = slash then none else (stripChars room rest).map (c :: ·)

def stripPath (path : Path) : Option (List Byte) :=
  match path.text with
  | [] => some []
  | c :: rest => stripChars maxFilenameLen (if c = slash then rest else c :: rest)

def FsState.dir (state : FsState) : Inode :=
  state.inodeTable state.rootInode

def entriesPerSect : Nat := sectorSize / dirEntrySize

/-- Entry `k` of a directory: the sector that holds it, from the first sector
of the directory on, and its place there. -/
def entrySect (k : Nat) : Nat := k / entriesPerSect

def entryOff (k : Nat) : Nat := k % entriesPerSect * dirEntrySize

/-- The sector of the directory with entry `k`. -/
def entryBuf (disk : Disk) (dirBlk0Nr k : Nat) : Buffer :=
  rdSect disk (dirBlk0Nr + entrySect k)

/-- `pde->inode_nr` of entry `k`. -/
def entryInode (disk : Disk) (dirBlk0Nr k : Nat) : Nat :=
  word32 (entryBuf disk dirBlk0Nr k) (entryOff k)

/-- Character `i` of `pde->name`. -/
def entryChar (disk : Disk) (dirBlk0Nr k i : Nat) : Byte :=
  entryBuf disk dirBlk0Nr k (entryOff k + 4 + i)

/-- `memcmp(filename, pde->name, MAX_FILENAME_LEN) == 0`, with the rest of
`filename` zeroed. -/
def entryNamed (disk : Disk) (dirBlk0Nr : Nat) (filename : List Byte) (k : Nat) : Bool :=
  (List.range maxFilenameLen).all fun i => filename.getD i 0 == entryChar disk dirBlk0Nr k i

/-- The test `++m > nr_dir_entries` comes after the comparison, so the entry
behind the last one is looked at too when the last sector holds it. -/
def searchFile (state : FsState) (path : Path) : Nat :=
  match stripPath path with
  | none => 0
  | some filename =>
      let dir := state.dir
      if filename = [] then dir.num
      else
        let nrDirBlks := (dir.size + sectorSize - 1) / sectorSize
        let nrDirEntries := dir.size / dirEntrySize
        match firstFrom (entryNamed state.disk dir.startSect filename)
            (min (nrDirBlks * entriesPerSect) (nrDirEntries + 1)) 0 with
        | some k => entryInode state.disk dir.startSect k
        | none => 0

/-- Write the sector with entry `k` of the directory, then the inode of the
directory with its size. -/
def storeDir (state : FsState) (k : Nat) (fsbuf : Buffer) (size : Nat) : FsState :=
  let dir := state.dir
  let disk := wrSect state.disk (dir.startSect + entrySect k) fsbuf
  syncInode ({ state with disk := disk }.setInode state.rootInode { dir with size := size })
    state.rootInode

/-- The first entry with inode number 0, or else the one behind the last. The
directory is read with one sector more than its size needs, so that entry is
always there. A name of 12 characters writes its terminator behind the entry;
in the last entry of a sector that is outside the buffer. -/
def newDirEntry (state : FsState) (inodeNr : Nat) (filename : List Byte) : Option FsState :=
  let dir := state.dir
  let nrDirEntries := dir.size / dirEntrySize
  let hole := firstFrom (fun k => entryInode state.disk dir.startSect k == 0) nrDirEntries 0
  let k := hole.getD nrDirEntries
  if sectorSize < entryOff k + 4 + filename.length + 1 then none
  else
    let fsbuf := writeEntry (entryBuf state.disk dir.startSect k) (entryOff k) inodeNr filename
    some (storeDir state k fsbuf (if hole = none then dir.size + dirEntrySize else dir.size))

/-- `dir_size` when the loop stands at entry `k`. -/
def sizeBefore (disk : Disk) (dirBlk0Nr k : Nat) : Nat :=
  dirEntrySize * ((List.range k).filter fun i => entryInode disk dirBlk0Nr i != 0).length

/-- "set the inode-nr to 0 in the directory entry" of `do_unlink`. Only for the
last entry does `m` end up equal to `nr_dir_entries`. -/
def removeDirEntry (state : FsState) (inodeNr : Nat) : FsState :=
  let dir := state.dir
  let nrDirEntries := dir.size / dirEntrySize
  match firstFrom (fun k => entryInode state.disk dir.startSect k == inodeNr) nrDirEntries 0 with
  | none => state
  | some k =>
      let fsbuf := clearBytes (entryBuf state.disk dir.startSect k) (entryOff k) dirEntrySize
      if k + 1 = nrDirEntries then
        storeDir state k fsbuf (sizeBefore state.disk dir.startSect k)
      else { state with disk := wrSect state.disk (dir.startSect + entrySect k) fsbuf }

end AempOS.Fs
