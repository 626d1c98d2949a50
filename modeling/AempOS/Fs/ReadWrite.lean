import AempOS.Fs.SharedFiles

/-! `real_read` and `real_write` with the bytes that they move. Both return the
member `CNT` of the message, which `do_rdwt` leaves as the caller set it, whatever
`do_rdwt` returns. -/

set_option autoImplicit false

namespace AempOS.Fs

open Lib

/-- The rounds of `do_rdwt` on `DEV_READ`, a sector each: read the sector and copy
the bytes from `off` on behind the `bytesRw` ones that the buffer has. -/
def readSects (disk : Disk) : Nat → Nat → Nat → Nat → Nat → Buffer → Buffer
  | 0, _, _, _, _, buf => buf
  | rounds + 1, i, off, bytesRw, bytesLeft, buf =>
      let bytes := min bytesLeft (sectorSize - off)
      readSects disk rounds (i + 1) 0 (bytesRw + bytes) (bytesLeft - bytes)
        (copyBytes buf bytesRw (rdSect disk i) off bytes)

/-- What `do_rdwt` on `READ` makes of the buffer of the caller. -/
def readInto (state : FsState) (pid fd len : Nat) (buf : Buffer) : Buffer :=
  match opened state pid fd with
  | none => buf
  | some (i, pin) =>
      let desc := state.fDescTable i
      let inode := state.inodeTable pin
      if !oRdwr desc.mode then buf
      else
        let posEnd := min (desc.pos + len) inode.size
        let off := desc.pos % sectorSize
        let rwSectMin := inode.startSect + desc.pos / sectorSize
        let rwSectMax := inode.startSect + posEnd / sectorSize
        readSects state.disk (rwSectMax + 1 - rwSectMin) rwSectMin off 0 len buf

/-- `real_read` of a file: the state, the buffer and the result. -/
def realRead (state : FsState) (pid fd : Nat) (buf : Buffer) (count : Nat) :
    Option (FsState × Buffer × Int) :=
  (doRead state pid fd count).map fun result =>
    (result.1, readInto state pid fd count buf, count)

/-- `real_write` of a file. -/
def realWrite (state : FsState) (pid fd : Nat) (data : List Byte) : Option (FsState × Int) :=
  (doWrite state pid fd data).map fun result => (result.1, data.length)

end AempOS.Fs
