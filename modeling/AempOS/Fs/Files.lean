import AempOS.Fs.Directory
import AempOS.Lib.Transition

/-! The calls on files: `do_open` with `create_file`, `do_close`, `do_rdwt` and
`do_unlink`, and `init_fs`. Each call runs to its end before the next one starts.
A call that follows a null pointer or stores outside a table has no result. What
`disp_str` prints and `hd_open` on a console are left out. -/

set_option autoImplicit false

namespace AempOS.Fs

open Lib

/-- `flags & O_CREAT` -/
def oCreat (flags : Nat) : Bool := flags % 2 == 1

/-- `flags & O_RDWR` -/
def oRdwr (flags : Nat) : Bool := flags / 2 % 2 == 1

/-- The numbers of `alloc_imap_bit` and `alloc_smap_bit` are not looked at. -/
def createFile (state : FsState) (path : Path) : Option (FsState × Option Nat) :=
  match stripPath path with
  | none => some (state, none)
  | some filename =>
      let inodeNr := allocImapBit state.sb state.disk
      let freeSectNr := allocSmapBit state.sb inodeNr.2 nrDefaultFileSects
      match newInode { state with disk := freeSectNr.2 } inodeNr.1 freeSectNr.1 with
      | none => none
      | some (state, newino) =>
          (newDirEntry state (state.inodeTable newino).num filename).map (·, some newino)

def FsState.setDesc (state : FsState) (i : Nat) (desc : FileDesc) : FsState :=
  { state with fDescTable := Function.update state.fDescTable i desc }

def FsState.setFilp (state : FsState) (pid fd : Nat) (desc : Option Nat) : FsState :=
  { state with
    filp := Function.update state.filp pid (Function.update (state.filp pid) fd desc) }

/-- "find a free slot in `PROCESS::filp[]`"; 0, 1 and 2 are reserved. -/
def freeFilp (state : FsState) (pid : Nat) : Option Nat :=
  firstFrom (fun fd => (state.filp pid fd).isNone) (nrFiles - 3) 3

/-- "find a free slot in `f_desc_table[]`" -/
def freeDesc (state : FsState) : Option Nat :=
  firstFrom (fun i => (state.fDescTable i).inode == .free) nrFileDesc 0

def reserveDesc (state : FsState) (slot : Option Nat) : FsState :=
  match slot with
  | some i => state.setDesc i { state.fDescTable i with inode := .reserved }
  | none => state

/-- "connects proc with file_descriptor", "connects file_descriptor with inode".
Without a free slot these are stores outside the tables. -/
def linkDesc (state : FsState) (pid flags pin : Nat) :
    Option Nat → Option Nat → Option (FsState × Int)
  | some fd, some i =>
      some ((state.setFilp pid fd (some i)).setDesc i
        { mode := flags, pos := 0, inode := .slot pin }, fd)
  | _, _ => none

def doOpen (state : FsState) (pid : Nat) (path : Path) (flags : Nat) :
    Option (FsState × Int) :=
  let fd := freeFilp state pid
  let i := freeDesc state
  let state := reserveDesc state i
  let inodeNr := searchFile state path
  if oCreat flags then
    if inodeNr ≠ 0 then some (state, -1)
    else
      match createFile state path with
      | none => none
      | some (state, some pin) => linkDesc state pid flags pin fd i
      | some (state, none) => some (state, -1)
  else
    match stripPath path with
    | none => some (state, -1)
    | some _ =>
        match getInode state inodeNr with
        | none => none
        | some (state, some pin) => linkDesc state pid flags pin fd i
        | some (state, none) => some (state, -1)

/-- The descriptor and the slot of the inode behind an open `fd`. -/
def opened (state : FsState) (pid fd : Nat) : Option (Nat × Nat) :=
  if nrFiles ≤ fd then none
  else
    match state.filp pid fd with
    | none => none
    | some i =>
        match (state.fDescTable i).inode with
        | .slot pin => some (i, pin)
        | _ => none

def doClose (state : FsState) (pid fd : Nat) : Option (FsState × Int) :=
  match opened state pid fd with
  | none => none
  | some (i, pin) =>
      let state := putInode state pin
      some ((state.setDesc i { state.fDescTable i with inode := .free }).setFilp pid fd none, 0)

/-- The rounds of `do_rdwt` on `DEV_WRITE`, a sector each: read the sector, put
the next bytes in at `off` and write it back. -/
def writeSects (disk : Disk) : Nat → Nat → Nat → List Byte → Disk
  | 0, _, _, _ => disk
  | rounds + 1, i, off, data =>
      let bytes := min data.length (sectorSize - off)
      writeSects (wrSect disk i (overlay (rdSect disk i) off (data.take bytes)))
        rounds (i + 1) 0 (data.drop bytes)

/-- `bytes_rw` after that many rounds. -/
def bytesMoved : Nat → Nat → Nat → Nat
  | 0, _, _ => 0
  | rounds + 1, off, left =>
      let bytes := min left (sectorSize - off)
      bytes + bytesMoved rounds 0 (left - bytes)

/-- `do_rdwt` on `WRITE` with the bytes of the caller's buffer. A console is
handed to the driver, which is not modelled. -/
def doWrite (state : FsState) (pid fd : Nat) (data : List Byte) : Option (FsState × Int) :=
  match opened state pid fd with
  | none => none
  | some (i, pin) =>
      let desc := state.fDescTable i
      let inode := state.inodeTable pin
      if !oRdwr desc.mode then some (state, -1)
      else if modeType inode.mode = iCharSpecial then none
      else
        let posEnd := min (desc.pos + data.length) (inode.nrSects * sectorSize)
        let off := desc.pos % sectorSize
        let rwSectMin := inode.startSect + desc.pos / sectorSize
        let rwSectMax := inode.startSect + posEnd / sectorSize
        let rounds := rwSectMax + 1 - rwSectMin
        let bytesRw := bytesMoved rounds off data.length
        let pos := desc.pos + bytesRw
        let state := { state with disk := writeSects state.disk rounds rwSectMin off data }
        let state := state.setDesc i { desc with pos := pos }
        if inode.size < pos then
          some (syncInode (state.setInode pin { inode with size := pos }) pin, bytesRw)
        else some (state, bytesRw)

/-- "clear the i-node itself", with the maps freed before and the directory
entry removed after. -/
def removeFile (state : FsState) (inodeNr pin : Nat) : FsState :=
  let inode := state.inodeTable pin
  let disk := freeSmapBits state.sb (freeImapBit state.disk inodeNr) inode.startSect inode.nrSects
  let state := { state with disk := disk }.setInode pin
    { inode with mode := 0, size := 0, startSect := 0, nrSects := 0 }
  removeDirEntry (putInode (syncInode state pin) pin) inodeNr

/-- A refusal keeps the reference that `get_inode_sched` took. -/
def doUnlink (state : FsState) (path : Path) : Option (FsState × Int) :=
  if path.text = [slash] then some (state, -1)
  else
    let inodeNr := searchFile state path
    if inodeNr = 0 then some (state, -1)
    else if stripPath path = none then some (state, -1)
    else
      match getInode state inodeNr with
      | some (state, some pin) =>
          let inode := state.inodeTable pin
          if inode.mode ≠ iRegular then some (state, -1)
          else if 1 < inode.cnt then some (state, -1)
          else some (removeFile state inodeNr pin, 0)
      | _ => none

/-- Empty tables, with the super block that is on the disk. -/
def emptyTables (disk : Disk) : FsState :=
  { disk := disk
    sb := readSuperBlock disk
    rootInode := 0
    inodeTable := fun _ => { mode := 0, size := 0, startSect := 0, nrSects := 0, cnt := 0, num := 0 }
    fDescTable := fun _ => { mode := 0, pos := 0, inode := .free }
    filp := fun _ _ => none }

/-- `init_fs` for a partition of `size` sectors. -/
def initFs (size : Nat) (disk : Disk) : Option FsState :=
  let disk := if (readSuperBlock disk).magic = magicV1 then disk else mkfs size disk
  match getInode (emptyTables disk) Fs.rootInode with
  | some (state, some p) => some { state with rootInode := p }
  | _ => none

/-- The calls of processes on the file system, a create being an open with
`O_CREAT`. -/
inductive FsCall where
  | create (pid : Nat) (path : Path) (flags : Nat)
  | close (pid fd : Nat)
  | write (pid fd : Nat) (data : List Byte)
  | unlink (path : Path)

def perform (state : FsState) : FsCall → Option (FsState × Int)
  | .create pid path flags => if oCreat flags then doOpen state pid path flags else none
  | .close pid fd => doClose state pid fd
  | .write pid fd data => doWrite state pid fd data
  | .unlink path => doUnlink state path

/-- The file system from `mkfs` on, on a partition of `size` sectors. -/
def fsMachine (size : Nat) (disk : Disk) : Machine FsState FsCall where
  initial state := (readSuperBlock disk).magic ≠ magicV1 ∧ initFs size disk = some state
  step state call := (perform state call).map (·.1)

end AempOS.Fs
