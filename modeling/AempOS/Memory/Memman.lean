import AempOS.Lib.Blocks
import AempOS.Lib.Cells
import AempOS.Lib.Transition

/-! The physical memory manager of `kernel/memman.c`. The free list is an array
with `frees` entries in use; the loops that move its entries are kept. Numbers
are `u32` values, with every sum and difference taken modulo `2 ^ 32`. -/

set_option autoImplicit false

namespace AempOS.Memory

open Lib

def memmanFrees : Nat := 4090

def kWall : Nat := 0x00600000

def wall : Nat := 0x00800000

def uWall : Nat := 0x01000000

def memStart : Nat := 0x00400000

def memEnd : Nat := 0x02000000

/-- The size of a page and of every hole that `init` leaves. -/
def pageSize : Nat := 0x1000

/-- `(u32)-1`, the result of a failed call. -/
def failed : Nat := 0xFFFFFFFF

def add32 (a b : Nat) : Nat := (a + b) % 4294967296

def sub32 (a b : Nat) : Nat := (a + 4294967296 - b) % 4294967296

/-- `struct FREEINFO`. -/
abbrev FreeInfo := Block

/-- `struct MEMMAN`. -/
structure Memman where
  frees : Nat
  maxfrees : Nat
  lostsize : Nat
  losts : Nat
  free : Nat → FreeInfo

namespace Memman

/-- The entries in use, `free[0 .. frees)`. -/
def entries (man : Memman) : List FreeInfo := cells man.free man.frees

def set (man : Memman) (i : Nat) (entry : FreeInfo) : Memman :=
  { man with free := Function.update man.free i entry }

/-- `frees--` and the loop that closes the gap at `i`. -/
def remove (man : Memman) (i : Nat) : Memman :=
  { man with frees := man.frees - 1, free := shiftDown man.free i (man.frees - 1 - i) }

/-- The loop that opens a gap at `i`, `frees++` with the update of `maxfrees`, and
the new entry. -/
def insert (man : Memman) (i : Nat) (entry : FreeInfo) : Memman :=
  { man with
    frees := man.frees + 1
    maxfrees := max man.maxfrees (man.frees + 1)
    free := Function.update (shiftUp man.free i (man.frees - i)) i entry }

end Memman

/-- `memman_init`. The array keeps what it held. -/
def memmanInit (man : Memman) : Memman :=
  { man with frees := 0, maxfrees := 0, lostsize := 0, losts := 0 }

/-- An entry that the allocator of the zone from `lo` to `hi` takes. -/
def Fits (lo hi size : Nat) (entry : FreeInfo) : Prop :=
  lo ≤ entry.addr ∧ add32 entry.addr size < hi ∧ size ≤ entry.size

instance (lo hi size : Nat) (entry : FreeInfo) : Decidable (Fits lo hi size entry) :=
  inferInstanceAs (Decidable (_ ∧ _ ∧ _))

/-- The common body of the four allocators: the first entry that fits is cut at
its front, and removed when nothing is left of it. -/
def allocZone (lo hi : Nat) (man : Memman) (size : Nat) : Memman × Nat :=
  match (List.range man.frees).find? fun i => decide (Fits lo hi size (man.free i)) with
  | none => (man, failed)
  | some i =>
      let entry := man.free i
      let man := man.set i { addr := add32 entry.addr size, size := sub32 entry.size size }
      if (man.free i).size = 0 then (man.remove i, entry.addr) else (man, entry.addr)

/-- `memman_alloc`. -/
def memmanAlloc (man : Memman) (size : Nat) : Memman × Nat := allocZone wall uWall man size

/-- `memman_kalloc`. -/
def memmanKalloc (man : Memman) (size : Nat) : Memman × Nat := allocZone kWall wall man size

/-- `memman_alloc_4k`. -/
def memmanAlloc4k (man : Memman) : Memman × Nat := allocZone uWall memEnd man 0x1000

/-- `memman_kalloc_4k`. -/
def memmanKalloc4k (man : Memman) : Memman × Nat := allocZone memStart kWall man 0x1000

/-- The first loop of `memman_free`: the first entry behind the address, or
`frees`. -/
def freePosition (man : Memman) (addr : Nat) : Nat :=
  ((List.range man.frees).find? fun i => decide (addr < (man.free i).addr)).getD man.frees

/-- `memman_free`. -/
def memmanFree (man : Memman) (addr size : Nat) : Memman × Nat :=
  if size = 0 then (man, 0)
  else
    let i := freePosition man addr
    if 0 < i ∧ add32 (man.free (i - 1)).addr (man.free (i - 1)).size = addr then
      let joined := man.set (i - 1)
        { man.free (i - 1) with size := add32 (man.free (i - 1)).size size }
      if i < joined.frees ∧ add32 addr size = (joined.free i).addr then
        let both := joined.set (i - 1)
          { joined.free (i - 1) with size := add32 (joined.free (i - 1)).size (joined.free i).size }
        (both.remove i, 0)
      else (joined, 0)
    else if i < man.frees ∧ add32 addr size = (man.free i).addr then
      (man.set i { addr, size := add32 (man.free i).size size }, 0)
    else if man.frees < memmanFrees then (man.insert i { addr, size }, 0)
    else ({ man with losts := add32 man.losts 1, lostsize := add32 man.lostsize size }, failed)

/-- `memman_total`. -/
def memmanTotal (man : Memman) : Nat :=
  man.entries.foldl (fun t entry => add32 t entry.size) 0

/-- The first loop of `init` over `MemInfo[1 .. MemInfo[0]]`: what lies between
`memstart` and the next bad page is freed. -/
def initFree (man : Memman) (memstart : Nat) : List Nat → Memman
  | [] => man
  | info :: rest =>
      if info < memstart then initFree man memstart rest
      else initFree (memmanFree man memstart (sub32 info memstart)).1 (add32 info 0x1000) rest

/-- One of the three loops of `init` that part the entry across a wall, leaving
out the page below the wall. -/
def splitAt (w : Nat) (man : Memman) : Memman :=
  match (List.range man.frees).find? fun i =>
      decide ((man.free i).addr ≤ w ∧ add32 (man.free i).addr (man.free i).size > w) with
  | none => man
  | some i =>
      let entry := man.free i
      if entry.addr = w then man
      else
        (man.insert (i + 1) { addr := w, size := sub32 (add32 entry.addr entry.size) w }).set i
          { entry with size := sub32 (sub32 w 0x1000) entry.addr }

/-- `init` on the table that the loader left. -/
def init (table : List Nat) (man : Memman) : Memman :=
  splitAt uWall (splitAt wall (splitAt kWall (initFree (memmanInit man) memStart table)))

/-- What the loader may leave: at most 255 pages, in increasing order. -/
structure LoaderTable (table : List Nat) : Prop where
  length : table.length ≤ 255
  aligned : ∀ info ∈ table, info % pageSize = 0
  increasing : table.Pairwise (· < ·)
  bound : ∀ info ∈ table, info ≤ 0x02001000

/-- The manager and the blocks that are handed out. -/
structure MemState where
  man : Memman
  live : List FreeInfo

inductive MemAction where
  | alloc (size : Nat)
  | kalloc (size : Nat)
  | alloc4k
  | kalloc4k
  /-- `memman_free` of a live block. -/
  | free (block : FreeInfo)
  deriving DecidableEq

/-- Take over the result of an allocator. -/
def MemState.hand (state : MemState) (result : Memman × Nat) (size : Nat) : MemState :=
  { man := result.1
    live := if result.2 = failed then state.live else { addr := result.2, size } :: state.live }

/-- A size that a `u32` argument can have. -/
def SizeOk (size : Nat) : Prop := 0 < size ∧ size < 4294967296

instance (size : Nat) : Decidable (SizeOk size) := inferInstanceAs (Decidable (_ ∧ _))

def MemState.step (state : MemState) : MemAction → Option MemState
  | .alloc size =>
      if SizeOk size then some (state.hand (memmanAlloc state.man size) size) else none
  | .kalloc size =>
      if SizeOk size then some (state.hand (memmanKalloc state.man size) size) else none
  | .alloc4k => some (state.hand (memmanAlloc4k state.man) 0x1000)
  | .kalloc4k => some (state.hand (memmanKalloc4k state.man) 0x1000)
  | .free block =>
      if block ∈ state.live then
        some {
          man := (memmanFree state.man block.addr block.size).1
          live := state.live.erase block }
      else none

/-- The state that `init` leaves; `garbage` is what the memory of the manager
held before. -/
def initialMem (table : List Nat) (garbage : Memman) : MemState :=
  { man := init table garbage, live := [] }

def memSystem (table : List Nat) (garbage : Memman) : Machine MemState MemAction where
  initial state := state = initialMem table garbage
  step := MemState.step

end AempOS.Memory
