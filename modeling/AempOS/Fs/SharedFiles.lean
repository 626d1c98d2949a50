import AempOS.Fs.References
import AempOS.Task.TreeProperties

/-! Descriptors that processes share. `sys_fork` copies the whole array `filp` to the
child and counts nothing, so parent and child point to the same descriptors. The
array of a process is the one in its PCB. -/

set_option autoImplicit false

namespace AempOS.Fs

open Lib AempOS.Task

/-- `do_rdwt` on `READ`, by its effect on the tables. A console is handed to the
driver. -/
def doRead (state : FsState) (pid fd len : Nat) : Option (FsState × Int) :=
  match opened state pid fd with
  | none => none
  | some (i, pin) =>
      let desc := state.fDescTable i
      let inode := state.inodeTable pin
      if !oRdwr desc.mode then some (state, -1)
      else if modeType inode.mode = iCharSpecial then none
      else
        let posEnd := min (desc.pos + len) inode.size
        let off := desc.pos % sectorSize
        let rwSectMin := inode.startSect + desc.pos / sectorSize
        let rwSectMax := inode.startSect + posEnd / sectorSize
        let bytesRw := bytesMoved (rwSectMax + 1 - rwSectMin) off len
        let pos := desc.pos + bytesRw
        let state := state.setDesc i { desc with pos := pos }
        if inode.size < pos then
          some (syncInode (state.setInode pin { inode with size := pos }) pin, bytesRw)
        else some (state, bytesRw)

/-- `SEEK_SET`, `SEEK_CUR` and `SEEK_END`. -/
def seekSet : Nat := 1

def seekCur : Nat := 2

def seekEnd : Nat := 3

/-- The position that `do_lseek` computes. -/
def seekPos (pos size : Nat) (off : Int) (whence : Nat) : Option Int :=
  if whence = seekSet then some off
  else if whence = seekCur then some (pos + off)
  else if whence = seekEnd then some (size + off)
  else none

def doLseek (state : FsState) (pid fd : Nat) (off : Int) (whence : Nat) : Option (FsState × Int) :=
  match opened state pid fd with
  | none => none
  | some (i, pin) =>
      let desc := state.fDescTable i
      let fSize := (state.inodeTable pin).size
      match seekPos desc.pos fSize off whence with
      | none => some (state, -1)
      | some pos =>
          if pos > fSize ∨ pos < 0 then some (state, -1)
          else some (state.setDesc i { desc with pos := pos.toNat }, pos)

/-- A read or a write of a console, which goes to the disk driver with a position that
was never set: the driver leaves some disk. -/
def useDevice (state : FsState) (pid fd : Nat) (disk : Disk) : Option (FsState × Int) :=
  match opened state pid fd with
  | none => none
  | some (i, pin) =>
      if !oRdwr (state.fDescTable i).mode then some (state, -1)
      else if modeType (state.inodeTable pin).mode = iCharSpecial then some ({ state with disk := disk }, 0)
      else none

/-- A fork, with the descriptors that the parent had open. -/
structure ForkEvent where
  parent : Nat
  child : Nat
  filp : Nat → Option Nat

/-- The fork that separated two processes, in a history with the latest fork first. -/
def separated : List ForkEvent → Nat → Nat → Option ForkEvent
  | [], _, _ => none
  | fork :: earlier, i, j =>
      if fork.child = i then
        if fork.parent = j then some fork else separated earlier fork.parent j
      else if fork.child = j then
        if fork.parent = i then some fork else separated earlier i fork.parent
      else separated earlier i j

/-- The process table, the tables of the file system, and the forks so far. -/
structure SharedFiles where
  tasks : Tasks
  disk : Disk
  sb : SuperBlock
  rootInode : Nat
  inodeTable : Nat → Inode
  fDescTable : Nat → FileDesc
  forks : List ForkEvent

namespace SharedFiles

/-- The file system, with the arrays `filp` of the PCBs. -/
def fs (files : SharedFiles) : FsState where
  disk := files.disk
  sb := files.sb
  rootInode := files.rootInode
  inodeTable := files.inodeTable
  fDescTable := files.fDescTable
  filp i := (files.tasks.table i).filp

/-- The tables after a call on files. -/
def settle (files : SharedFiles) (state : FsState) : SharedFiles where
  tasks := { files.tasks with table := fun i => { files.tasks.table i with filp := state.filp i } }
  disk := state.disk
  sb := state.sb
  rootInode := state.rootInode
  inodeTable := state.inodeTable
  fDescTable := state.fDescTable
  forks := files.forks

/-- `sys_fork` by `proc`. -/
def sysFork (files : SharedFiles) (proc dir : Nat) : Option (SharedFiles × Int) :=
  (files.tasks.sysFork proc dir).map fun (tasks, pid) =>
    let forks := if pid = -1 then files.forks
      else ⟨proc, pid.toNat, (files.tasks.table proc).filp⟩ :: files.forks
    ({ files with tasks := tasks, forks := forks }, pid)

end SharedFiles

inductive FileCall where
  | open (path : Path) (flags : Nat)
  | close (fd : Nat)
  | read (fd len : Nat)
  | write (fd : Nat) (data : List Byte)
  | lseek (fd : Nat) (off : Int) (whence : Nat)
  | device (fd : Nat) (disk : Disk)
  | fork (dir : Nat)

def FileCall.perform (files : SharedFiles) (pid : Nat) (call : FileCall) : Option (SharedFiles × Int) :=
  let settled := fun result : FsState × Int => (files.settle result.1, result.2)
  if files.tasks.Created pid then
    match call with
    | .open path flags => (doOpen files.fs pid path flags).map settled
    | .close fd => (doClose files.fs pid fd).map settled
    | .read fd len => (doRead files.fs pid fd len).map settled
    | .write fd data => (doWrite files.fs pid fd data).map settled
    | .lseek fd off whence => (doLseek files.fs pid fd off whence).map settled
    | .device fd disk => (useDevice files.fs pid fd disk).map settled
    | .fork dir => files.sysFork pid dir
  else none

/-- The calls of processes from the start on, when no file is open. -/
def sharedMachine (size : Nat) (disk : Disk) : Machine SharedFiles (Nat × FileCall) where
  initial files := files.tasks.Booted ∧ initFs size disk = some files.fs ∧ files.forks = []
  step files label := (label.2.perform files label.1).map Prod.fst

end AempOS.Fs
