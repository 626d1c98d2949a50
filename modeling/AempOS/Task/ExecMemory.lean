import AempOS.Memory.ForkCopies
import AempOS.Task.Exec

/-! `sys_exec` on the memory of its caller: the pages that it maps, and the bytes that it
stores through them. The processor ignores the read-only bit in kernel mode, so that a
store needs a page that is present only. The image itself does not change meanwhile,
and a call for which there is no frame has no result by the first of the two handlers. -/

set_option autoImplicit false

namespace AempOS.Memory.PageState

open Lib

/-- A byte of physical memory. -/
def byteAt (state : PageState) (addr : Nat) : Byte := BitVec.ofNat 8 (state.mem (addr / 4 * 4) / 256 ^ (addr % 4))

def storeByte (state : PageState) (addr : Nat) (byte : Byte) : PageState :=
  let word := state.mem (addr / 4 * 4)
  let place := 256 ^ (addr % 4)
  state.write (addr / 4 * 4) (word / (256 * place) * (256 * place) + byte.toNat * place + word % place)

end AempOS.Memory.PageState

namespace AempOS.Task

open Lib Memory

/-- The kernel, and the position of `kernel/file.c`. -/
structure ExecState where
  kernel : Kernel
  position : Nat

/-- What an operation of `sys_exec` by `pid` on a CPU does; `memory` are the bytes that
`fake_read` finds. -/
def execHandler (memory : Buffer) (cpu pid : Nat) (state : ExecState) :
    (op : ExecOp) → Option (ExecState × op.Reply)
  | .fakeOpen => some ({ state with position := 0 }, ())
  | .fakeSeek pos => some ({ state with position := pos }, ())
  | .fakeRead size =>
      some ({ state with position := add32 state.position size }, bytesAt memory (addrLin cpu state.position) size)
  | .linMapping lin attr =>
      (state.kernel.pages.mapOk pid lin failed pid (pgP + pgUsu + pgRww) attr).map fun pages =>
        ({ state with kernel := .settle state.kernel.tasks pages }, (0 : Int))
  | .store lin byte =>
      (state.kernel.pages.kernelAccess pid lin 3).map fun pages =>
        let stored := pages.storeByte (pages.pagePhyAddr pid lin + lin % 4096) byte
        ({ state with kernel := .settle state.kernel.tasks stored }, ())
  | .updatePcb change =>
      some ({ state with kernel := { state.kernel with tasks := state.kernel.tasks.modify pid change } }, ())
  | .overrun => none

section

variable (memory : Buffer) (cpu : Nat)

/-- The bytes at a position of the image. -/
def imageBytes (position size : Nat) : List Byte := bytesAt memory (addrLin cpu position) size

def imageEhdr : Exec.Ehdr := .ofBuffer (Exec.ofBytes (imageBytes memory cpu 0 ehdrSize))

def imagePhdr (ehdr : Exec.Ehdr) (i : Nat) : Exec.Phdr :=
  .ofBuffer (Exec.ofBytes (imageBytes memory cpu (add32 ehdr.phoff (ehdr.phentsize * i)) phdrSize))

def imagePhdrs : List Exec.Phdr :=
  (List.range' 0 (imageEhdr memory cpu).phnum).map (imagePhdr memory cpu (imageEhdr memory cpu))

/-- The addresses and the bytes of the rounds of `exec_elfcpy`. -/
def copiedBytes (fileLimit : Nat) : Nat → Nat → Nat → List (Nat × Byte)
  | 0, _, _ => []
  | rounds + 1, lin, fileOffset =>
      (lin, if fileOffset < fileLimit then (imageBytes memory cpu fileOffset 1).headD 0 else 0) ::
        copiedBytes fileLimit rounds (lin + 1) (add32 fileOffset 1)

def segmentBytes (phdr : Exec.Phdr) : List (Nat × Byte) :=
  copiedBytes memory cpu (add32 phdr.offset phdr.filesz) (add32 phdr.vaddr phdr.memsz - phdr.vaddr) phdr.vaddr
    phdr.offset

/-- What the segments load, up to the one at which `exec_load` ends. -/
def segmentsBytes : List Exec.Phdr → List (Nat × Byte)
  | [] => []
  | phdr :: rest =>
      if phdr.memsz = 0 then []
      else if phdr.flags = 5 ∨ phdr.flags = 6 then segmentBytes memory cpu phdr ++ segmentsBytes rest
      else []

/-- What `sys_exec` loads: the bytes and where, in order. -/
def loadedBytes : Option String → List (Nat × Byte)
  | none => []
  | some _ => segmentsBytes memory cpu (imagePhdrs memory cpu)

end

/-! ## The parent -/

variable (start : PageState) (ppid pid : Nat)

/-- The byte that an address of the child leads to. -/
def leads (lin : Nat) : Option Nat :=
  (start.entry (start.cr3 pid) (lin / 4096)).map fun found => found.1 + lin % 4096

/-- The byte belongs to a page of the parent, outside the kernel's window. -/
def OfParent (addr : Nat) : Prop :=
  ∃ page < 1048576, ¬KernelPage page ∧
    ∃ attr, start.entry (start.cr3 ppid) page = some (pageBase addr, attr)

/-- The pages of the parent are there, with the same bytes. -/
structure LeavesAlone (final : PageState) : Prop where
  pages : ∀ page < 1048576, final.entry (start.cr3 ppid) page = start.entry (start.cr3 ppid) page
  bytes : ∀ addr, OfParent start ppid addr → final.byteAt addr = start.byteAt addr

/-- The last byte that is loaded to a byte of the parent is the one that is there. -/
def LoadsSame (stores : List (Nat × Byte)) : Prop :=
  ∀ left lin byte right, stores = left ++ (lin, byte) :: right → ∀ addr, leads start pid lin = some addr →
    OfParent start ppid addr → (∀ later ∈ right, leads start pid later.1 ≠ some addr) → start.byteAt addr = byte

/-- The image is loaded below the kernel, and to frames that are in use and hold neither
page directories nor page tables, as those of the parent. -/
structure Loadable (dirs : List Nat) (stores : List (Nat × Byte)) : Prop where
  parent : UserFrames dirs ppid start
  user : ∀ lin byte, (lin, byte) ∈ stores → lin < kernelLinBase
  child : ∀ lin byte, (lin, byte) ∈ stores → ∀ frame attr,
    start.entry (start.cr3 pid) (lin / 4096) = some (frame, attr) → Content dirs start frame

end AempOS.Task
