import AempOS.Fs.DataSectors
import AempOS.Fs.LookupProperties
import AempOS.Fs.WriteProperties
import AempOS.Lib.FileStore

/-! The calls of processes on files with what they return, reads with the bytes that
they bring. -/

set_option autoImplicit false

namespace AempOS.Fs

open Lib

inductive IoCall where
  | open (pid : Nat) (path : Path) (flags : Nat)
  | close (pid fd : Nat)
  | read (pid fd : Nat) (buf : Buffer) (count : Nat)
  | write (pid fd : Nat) (data : List Byte)
  | lseek (pid fd : Nat) (off : Int) (whence : Nat)
  | unlink (path : Path)

/-- A call that brings no data. -/
def silent (result : FsState × Int) : FsState × StoreReply Byte := (result.1, ⟨result.2, []⟩)

/-- The data of a read are the first bytes of the caller's buffer. -/
def IoCall.answer (state : FsState) : IoCall → Option (FsState × StoreReply Byte)
  | .open pid path flags => (doOpen state pid path flags).map silent
  | .close pid fd => (doClose state pid fd).map silent
  | .read pid fd buf count => (realRead state pid fd buf count).map fun result =>
      (result.1, ⟨result.2.2, (List.range count).map result.2.1⟩)
  | .write pid fd data => (realWrite state pid fd data).map silent
  | .lseek pid fd off whence => (doLseek state pid fd off whence).map silent
  | .unlink path => (doUnlink state path).map silent

/-- The file system from `mkfs` on. -/
def fileSystem (size : Nat) (disk : Disk) : Component FsState IoCall (StoreReply Byte) where
  initial := (fsMachine size disk).initial
  answers state call reply next := call.answer state = some (next, reply)

/-- `whence` of `lseek`. -/
def origin (whence : Nat) : Option Origin :=
  if whence = seekSet then some .start
  else if whence = seekCur then some .here
  else if whence = seekEnd then some .finish
  else none

/-- A call as one on a store of named files. -/
def IoCall.named : IoCall → StoreCall (List Byte) Byte Nat
  | .open pid path flags =>
      if oCreat flags then .create pid (stripPath path) flags else .open pid (stripPath path) flags
  | .close pid fd => .close pid fd
  | .read pid fd _ count => .read pid fd count
  | .write pid fd data => .write pid fd data
  | .lseek pid fd off whence => .seek pid fd off (origin whence)
  | .unlink path => .unlink (stripPath path)

/-- A path with a name of 1 to 11 characters, or with no name. -/
def ProperPath (path : Path) : Prop :=
  ∀ name, stripPath path = some name → ValidName name

/-- What is open behind `fd` is a file, not a console or the root directory. -/
def OnFile (state : FsState) (pid fd : Nat) : Prop :=
  ∀ d pin, opened state pid fd = some (d, pin) → 5 ≤ (state.inodeTable pin).num

/-- It was opened with `O_RDWR`. -/
def ForUpdate (state : FsState) (pid fd : Nat) : Prop :=
  ∀ d pin, opened state pid fd = some (d, pin) → oRdwr (state.fDescTable d).mode = true

/-- A read that ends inside the file. -/
def WithinSize (state : FsState) (pid fd count : Nat) : Prop :=
  ∀ d pin, opened state pid fd = some (d, pin) →
    (state.fDescTable d).pos + count ≤ (state.inodeTable pin).size

/-- What callers keep to: names of files, reads inside a file and writes inside its
capacity, both with `O_RDWR`. A create finds space, and no unlink cuts off an entry. -/
def Proper (state : FsState) : IoCall → Prop
  | .open _ path flags =>
      ProperPath path ∧ (oCreat flags = true → NewName state path → SpaceLeft state)
  | .close _ _ => True
  | .read pid fd _ count =>
      OnFile state pid fd ∧ ForUpdate state pid fd ∧ WithinSize state pid fd count
  | .write pid fd data =>
      OnFile state pid fd ∧ ForUpdate state pid fd ∧ WithinCapacity state pid fd data.length
  | .lseek pid fd _ _ => OnFile state pid fd
  | .unlink path => ProperPath path ∧ NothingCutOff state (.unlink path)

instance (volume : Volume) (n : Nat) : Decidable (Live volume n) :=
  inferInstanceAs (Decidable (_ ∧ _))

/-- The bytes of the extent of an inode, up to its size. -/
def extentBytes (disk : Disk) (inode : InodeRecord) : List Byte :=
  (List.range inode.size).map fun i => diskByte disk (inode.startSect * sectorSize + i)

/-- What a file holds. -/
def FsState.content (state : FsState) (n : Nat) : Option (List Byte) :=
  if Live state.volume n then some (extentBytes state.disk (state.volume.records n)) else none

/-- What a process has behind an `fd`. -/
def FsState.handle (state : FsState) (pid fd : Nat) : Option (Handle Nat) :=
  (opened state pid fd).map fun place =>
    { file := (state.inodeTable place.2).num
      pos := (state.fDescTable place.1).pos
      mode := (state.fDescTable place.1).mode }

end AempOS.Fs
