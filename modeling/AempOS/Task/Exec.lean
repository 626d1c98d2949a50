import AempOS.Lib.Bytes
import AempOS.Lib.Program
import AempOS.Task.Spaces

/-! `sys_exec` of `kernel/exec.c`, with the readers of `kernel/elf.c`, as a program over
what it does to the file of `kernel/file.c`, to memory and to the PCB of its caller.
`fd` is not used by anything. The image of a CPU is where the loader left it. -/

set_option autoImplicit false

namespace AempOS.Task

open Lib Memory

/-- The program header and section header arrays of `sys_exec`. -/
def headerMax : Nat := 10

/-- The sizes of `Elf32_Ehdr`, `Elf32_Phdr` and `Elf32_Shdr`. -/
def ehdrSize : Nat := 52

def phdrSize : Nat := 32

def shdrSize : Nat := 40

/-- `p_name` of a PCB. The fields behind it are `stat`, `waiting_to_ready`, `cr3` and `filp`. -/
def nameSize : Nat := 16

inductive ExecOp where
  | fakeOpen
  | fakeSeek (pos : Nat)
  | fakeRead (size : Nat)
  /-- `lin_mapping_phy` for a fresh page of the caller. -/
  | linMapping (lin attr : Nat)
  /-- `*((u8*)lin) = byte`. -/
  | store (lin : Nat) (byte : Byte)
  | updatePcb (change : Pcb → Pcb)
  /-- A header behind the end of its array, or a name behind the end of its field: what
  follows is not described. -/
  | overrun

def ExecOp.Reply : ExecOp → Type
  | .fakeRead _ => List Byte
  | .linMapping _ _ => Int
  | .overrun => Empty
  | .fakeOpen => Unit
  | .fakeSeek _ => Unit
  | .store _ _ => Unit
  | .updatePcb _ => Unit

abbrev ExecProgram := Program ExecOp ExecOp.Reply

namespace Exec

def fakeOpen : ExecProgram Unit := .perform ExecOp.fakeOpen

def fakeSeek (pos : Nat) : ExecProgram Unit := .perform (ExecOp.fakeSeek pos)

def fakeRead (size : Nat) : ExecProgram (List Byte) := .perform (ExecOp.fakeRead size)

def linMapping (lin attr : Nat) : ExecProgram Int := .perform (ExecOp.linMapping lin attr)

def store (lin : Nat) (byte : Byte) : ExecProgram Unit := .perform (ExecOp.store lin byte)

def updatePcb (change : Pcb → Pcb) : ExecProgram Unit := .perform (ExecOp.updatePcb change)

def overrun {A : Type} : ExecProgram A := .act .overrun Empty.elim

/-! ## `elf.c` -/

/-- A buffer that holds what was read. -/
def ofBytes (bytes : List Byte) : Buffer := fun off => bytes.getD off 0

/-- The half word whose first byte is at `off`. -/
def word16 (buf : Buffer) (off : Nat) : Nat := (buf off).toNat + 256 * (buf (off + 1)).toNat

/-- The fields of `Elf32_Ehdr` that are used. -/
structure Ehdr where
  entry : Nat
  phoff : Nat
  shoff : Nat
  phentsize : Nat
  phnum : Nat
  shentsize : Nat
  shnum : Nat

def Ehdr.ofBuffer (buf : Buffer) : Ehdr where
  entry := word32 buf 24
  phoff := word32 buf 28
  shoff := word32 buf 32
  phentsize := word16 buf 42
  phnum := word16 buf 44
  shentsize := word16 buf 46
  shnum := word16 buf 48

/-- The fields of `Elf32_Phdr` that are used. -/
structure Phdr where
  offset : Nat
  vaddr : Nat
  filesz : Nat
  memsz : Nat
  flags : Nat

def Phdr.ofBuffer (buf : Buffer) : Phdr where
  offset := word32 buf 4
  vaddr := word32 buf 8
  filesz := word32 buf 16
  memsz := word32 buf 20
  flags := word32 buf 24

/-- `fake_seek` and `fake_read`. -/
def readAt (offset size : Nat) : ExecProgram (List Byte) := do
  fakeSeek offset
  fakeRead size

def readEhdr (offset : Nat) : ExecProgram Ehdr := do
  let bytes ← readAt offset ehdrSize
  pure (.ofBuffer (ofBytes bytes))

def readPhdr (offset : Nat) : ExecProgram Phdr := do
  let bytes ← readAt offset phdrSize
  pure (.ofBuffer (ofBytes bytes))

/-- Nothing uses what is in a section header. -/
def readShdr (offset : Nat) : ExecProgram Unit := do
  let _ ← readAt offset shdrSize
  pure ()

/-- The rounds of the first loop of `read_elf` from `i` on. -/
def readPhdrs (ehdr : Ehdr) : Nat → Nat → ExecProgram (List Phdr)
  | 0, _ => pure []
  | rounds + 1, i => do
      let phdr ← readPhdr (add32 ehdr.phoff (ehdr.phentsize * i))
      if headerMax ≤ i then overrun
      else
        let phdrs ← readPhdrs ehdr rounds (i + 1)
        pure (phdr :: phdrs)

/-- The rounds of the second loop of `read_elf` from `i` on. -/
def readShdrs (ehdr : Ehdr) : Nat → Nat → ExecProgram Unit
  | 0, _ => pure ()
  | rounds + 1, i => do
      readShdr (add32 ehdr.shoff (ehdr.shentsize * i))
      if headerMax ≤ i then overrun else readShdrs ehdr rounds (i + 1)

def readElf : ExecProgram (Ehdr × List Phdr) := do
  let ehdr ← readEhdr 0
  let phdrs ← readPhdrs ehdr ehdr.phnum 0
  readShdrs ehdr ehdr.shnum 0
  pure (ehdr, phdrs)

/-! ## `exec.c` -/

/-- The rounds of `exec_elfcpy` from an address and a position in the file on. The
result of `lin_mapping_phy` is not looked at. -/
def elfcpy (attr fileLimit : Nat) : Nat → Nat → Nat → ExecProgram Unit
  | 0, _, _ => pure ()
  | rounds + 1, lin, fileOffset => do
      let _ ← linMapping lin attr
      if fileOffset < fileLimit then
        let ch ← readAt fileOffset 1
        store lin (ch.headD 0)
      else store lin 0
      elfcpy attr fileLimit rounds (lin + 1) (add32 fileOffset 1)

def execElfcpy (phdr : Phdr) (attr : Nat) : ExecProgram Unit :=
  let linLimit := add32 phdr.vaddr phdr.memsz
  elfcpy attr (add32 phdr.offset phdr.filesz) (linLimit - phdr.vaddr) phdr.vaddr phdr.offset

def setText (phdr : Phdr) (pcb : Pcb) : Pcb :=
  { pcb with memmap := { pcb.memmap with
      textLinBase := phdr.vaddr
      textLinLimit := add32 phdr.vaddr phdr.memsz } }

def setData (phdr : Phdr) (pcb : Pcb) : Pcb :=
  { pcb with memmap := { pcb.memmap with
      dataLinBase := phdr.vaddr
      dataLinLimit := add32 phdr.vaddr phdr.memsz } }

/-- The loop of `exec_load`; the header with `p_memsz = 0` is the last one. -/
def loadSegments : List Phdr → ExecProgram Int
  | [] => pure 0
  | phdr :: rest =>
      if phdr.memsz = 0 then pure 0
      else if phdr.flags = 5 then do
        execElfcpy phdr (pgP + pgUsu)
        updatePcb (setText phdr)
        loadSegments rest
      else if phdr.flags = 6 then do
        execElfcpy phdr (pgP + pgUsu + pgRww)
        updatePcb (setData phdr)
        loadSegments rest
      else pure (-1)

def execLoad (ehdr : Ehdr) (phdrs : List Phdr) : ExecProgram Int :=
  if ehdr.phnum = 0 then pure (-1) else loadSegments phdrs

/-- The selectors and `eflags` of a process in user mode. -/
def userFrame (frame : Nat → Nat) : Nat → Nat
  | 0 => 0x1B
  | 1 => 0x2B
  | 2 => 0xF
  | 3 => 0xF
  | 14 => 0x7
  | 15 => 0x202
  | 17 => 0xF
  | word => frame word

def execPcbInit (path : String) (pcb : Pcb) : Pcb :=
  let map := pcb.memmap
  let frame := userFrame pcb.regs
  { pcb with
    pName := path
    stat := .ready
    regs := frame
    stackTop := frame
    memmap := execMemmap map.textLinBase map.textLinLimit map.dataLinBase map.dataLinLimit
    info := { pcb.info with textHold := true, dataHold := true } }

/-- The entry and the stack pointer, in the PCB and on its kernel stack. -/
def setEntry (entry : Nat) (pcb : Pcb) : Pcb :=
  let patch := fun frame => Function.update (Function.update frame eipReg entry) espReg pcb.memmap.stackLinBase
  { pcb with regs := patch pcb.regs, stackTop := patch pcb.stackTop }

/-- The loop over the stack, whose bounds `exec_pcb_init` set. -/
def mapStack : List Nat → ExecProgram Int
  | [] => pure 0
  | lin :: rest => do
      let result ← linMapping lin (pgP + pgUsu + pgRww)
      if result ≠ 0 then pure (-1) else mapStack rest

def stackPages : List Nat := [0xBFFFEFFC, 0xBFFFDFFC, 0xBFFFCFFC, 0xBFFFBFFC]

/-- `sys_exec`, with `none` for a null pointer, and else the string that `exec_pcb_init` finds
there. Its `strcpy` has no bound: `p_name` takes the string and the byte that ends it, or the
PCB is overrun. -/
def sysExec : Option String → ExecProgram Int
  | none => pure (-1)
  | some path => do
      fakeOpen
      let (ehdr, phdrs) ← readElf
      let loaded ← execLoad ehdr phdrs
      if loaded = -1 then pure (-1)
      else if nameSize ≤ path.utf8ByteSize then overrun
      else
        updatePcb (execPcbInit path)
        updatePcb (setEntry ehdr.entry)
        mapStack stackPages

end Exec

/-! ## `file.c` -/

/-- Where `fake_read` on a CPU reads from at a position. There are images for four
CPUs. -/
def addrLin (cpu position : Nat) : Nat :=
  match cpu with
  | 0 => add32 0xC0007E00 position
  | 1 => add32 0xC0008E00 position
  | 2 => add32 0xC0009E00 position
  | 3 => add32 0xC000AE00 position
  | _ => 0

/-- `memcpy` of `size` bytes from an address. -/
def bytesAt (memory : Buffer) (addr size : Nat) : List Byte :=
  (List.range size).map fun i => memory (add32 addr i)

end AempOS.Task
