import AempOS.Fs.Maps

/-! The tables that the file system keeps in memory, and the cache of inodes:
`get_inode`, `put_inode`, `sync_inode` and `new_inode`. A pointer into a table is
the index it points to; following one that points nowhere has no result. -/

set_option autoImplicit false

namespace AempOS.Fs

open Lib

def nrInode : Nat := 64

def nrFileDesc : Nat := 64

def nrFiles : Nat := 64

structure Inode extends InodeRecord where
  cnt : Int
  num : Nat

/-- What `fd_inode` holds: 0, the -1 that reserves a descriptor, or a pointer to
a slot of `inode_table`. -/
inductive FdInode where
  | free
  | reserved
  | slot (i : Nat)
  deriving DecidableEq

structure FileDesc where
  mode : Nat
  pos : Nat
  inode : FdInode

/-- `filp pid fd` is the descriptor that `filp[fd]` of a process points to. -/
structure FsState where
  disk : Disk
  sb : SuperBlock
  rootInode : Nat
  inodeTable : Nat → Inode
  fDescTable : Nat → FileDesc
  filp : Nat → Nat → Option Nat

/-- `blk_nr`: the sector that holds the record of an inode. -/
def inodeSect (sb : SuperBlock) (num : Nat) : Nat :=
  1 + 1 + sb.nrImapSects + sb.nrSmapSects + (num - 1) / (sectorSize / inodeSize)

def inodeOff (num : Nat) : Nat :=
  (num - 1) % (sectorSize / inodeSize) * inodeSize

/-- The record of an inode as the disk has it. -/
def recordOf (sb : SuperBlock) (disk : Disk) (num : Nat) : InodeRecord :=
  readRecord (rdSect disk (inodeSect sb num)) (inodeOff num)

def FsState.setInode (state : FsState) (i : Nat) (inode : Inode) : FsState :=
  { state with inodeTable := Function.update state.inodeTable i inode }

/-- `get_inode` and `get_inode_sched`. The second part of the result is the
pointer, `none` for a null pointer. With neither the inode nor a free slot in
the table the code goes on with a null pointer. -/
def getInode (state : FsState) (num : Nat) : Option (FsState × Option Nat) :=
  if num = 0 then some (state, none)
  else
    let cached := fun p => (state.inodeTable p).cnt != 0 && (state.inodeTable p).num == num
    match firstFrom cached nrInode 0 with
    | some p =>
        let inode := state.inodeTable p
        some (state.setInode p { inode with cnt := inode.cnt + 1 }, some p)
    | none =>
        match firstFrom (fun p => (state.inodeTable p).cnt == 0) nrInode 0 with
        | some q =>
            some (state.setInode q
              { recordOf state.sb state.disk num with cnt := 1, num := num }, some q)
        | none => none

def putInode (state : FsState) (p : Nat) : FsState :=
  let inode := state.inodeTable p
  state.setInode p { inode with cnt := inode.cnt - 1 }

def syncInode (state : FsState) (p : Nat) : FsState :=
  let inode := state.inodeTable p
  let blkNr := inodeSect state.sb inode.num
  let fsbuf := rdSect state.disk blkNr
  { state with
    disk := wrSect state.disk blkNr
      (writeRecord fsbuf (inodeOff inode.num) inode.toInodeRecord) }

def newInode (state : FsState) (inodeNr startSect : Nat) : Option (FsState × Nat) :=
  match getInode state inodeNr with
  | some (state, some p) =>
      let inode : Inode :=
        { mode := iRegular
          size := 0
          startSect := startSect
          nrSects := nrDefaultFileSects
          cnt := 1
          num := inodeNr }
      some (syncInode (state.setInode p inode) p, p)
  | _ => none

end AempOS.Fs
