import AempOS.Memory.Memman

/-! Page directories and page tables of `kernel/pagetbl.c`, kept as words of
physical memory, with the system calls on single pages of `kernel/syscallc.c`
and the page fault handler. The kernel reaches physical memory through
`K_PHY2LIN`. What a process stores in its own pages is not modelled. -/

set_option autoImplicit false

namespace AempOS.Memory

open Lib

def kernelLinBase : Nat := 0xC0000000

def heapLinBase : Nat := 0x48000000

def heapLinLimitMax : Nat := 0x88000000

def kernelSize : Nat := 0x800000

/-- `PG_P`, `PG_RWW` and `PG_USU`, the low bits of an entry. -/
def pgP : Nat := 1

def pgRww : Nat := 2

def pgUsu : Nat := 4

/-- `w & 0xFFFFF000`. -/
def pageBase (w : Nat) : Nat := w / 4096 * 4096

/-- The page behind an entry is present. -/
def Present (w : Nat) : Prop := w % 2 = 1

def Writable (w : Nat) : Prop := w / 2 % 2 = 1

def UserBit (w : Nat) : Prop := w / 4 % 2 = 1

instance (w : Nat) : Decidable (Present w) := inferInstanceAs (Decidable (_ = _))
instance (w : Nat) : Decidable (Writable w) := inferInstanceAs (Decidable (_ = _))
instance (w : Nat) : Decidable (UserBit w) := inferInstanceAs (Decidable (_ = _))

/-- `(base & 0xFFFFF000) | attr`, for attributes below the page size. -/
def makeEntry (base attr : Nat) : Nat := pageBase base + attr

/-- `w |= PG_P`. -/
def setPresent (w : Nat) : Nat := if Present w then w else w + 1

/-- `get_pde_index`. -/
def pdeIndex (lin : Nat) : Nat := lin / 4194304

/-- `get_pte_index`. -/
def pteIndex (lin : Nat) : Nat := lin % 4194304 / 4096

/-- The memory manager, the words of physical memory by address, and of each
process its page directory and the end of its heap. `cr2Save` and `cr2Count`
are the variables by which the fault handler notices repeated faults. -/
structure PageState where
  man : Memman
  mem : Nat → Nat
  cr3 : Nat → Nat
  heapLimit : Nat → Nat
  cr2Save : Nat
  cr2Count : Nat

namespace PageState

def write (state : PageState) (addr word : Nat) : PageState :=
  { state with mem := Function.update state.mem addr word }

/-- `memset` of a page to zero. -/
def clearPage (state : PageState) (base : Nat) : PageState :=
  { state with mem := fun addr =>
      if base ≤ addr ∧ addr < base + 4096 then 0 else state.mem addr }

/-- The bytes that `memset((void*)K_PHY2LIN(-1), 0, num_4K)` clears through the
kernel's own mapping: all of the first page but its last byte. -/
def clearLow (state : PageState) : PageState :=
  { state with mem := fun addr =>
      if addr < 0xFFC then 0
      else if addr = 0xFFC then state.mem addr / 16777216 * 16777216
      else state.mem addr }

/-- `get_pde_phy_addr`, for a process that has a page directory. -/
def pdePhyAddr (state : PageState) (pid : Nat) : Nat := pageBase (state.cr3 pid)

/-- The page directory entry of an address. -/
def pde (state : PageState) (pid lin : Nat) : Nat :=
  state.mem (state.pdePhyAddr pid + 4 * pdeIndex lin)

/-- `get_pte_phy_addr`. -/
def ptePhyAddr (state : PageState) (pid lin : Nat) : Nat := pageBase (state.pde pid lin)

/-- The page table entry of an address. -/
def pte (state : PageState) (pid lin : Nat) : Nat :=
  state.mem (state.ptePhyAddr pid lin + 4 * pteIndex lin)

/-- `get_page_phy_addr`. -/
def pagePhyAddr (state : PageState) (pid lin : Nat) : Nat := pageBase (state.pte pid lin)

/-- `page_fault_handler`, with `none` for `halt`. -/
def pageFaultHandler (state : PageState) (pid cr2 : Nat) : Option PageState :=
  let count := if cr2 = state.cr2Save then state.cr2Count + 1 else 0
  if cr2 = state.cr2Save ∧ count = 5 then none
  else
    let counted := { state with cr2Save := cr2, cr2Count := count }
    if Present (state.pde pid cr2) then
      some (counted.write (state.ptePhyAddr pid cr2 + 4 * pteIndex cr2)
        (setPresent (state.pte pid cr2)))
    else
      some (counted.write (state.pdePhyAddr pid + 4 * pdeIndex cr2)
        (setPresent (state.pde pid cr2)))

/-- An access of the kernel to one byte: it faults until the page is there. Two
faults make it so. -/
def kernelAccess (state : PageState) (pid lin : Nat) : Nat → Option PageState
  | 0 => none
  | faults + 1 =>
      if Present (state.pde pid lin) ∧ Present (state.pte pid lin) then some state
      else (state.pageFaultHandler pid lin).bind fun next => kernelAccess next pid lin faults

/-- `memset` of the last byte of a page to zero. -/
def clearLast (state : PageState) (base : Nat) : PageState :=
  state.write (base + 0xFFC) (state.mem (base + 0xFFC) % 16777216)

/-- The `memset` of a page table that `do_kmalloc_4k` could not give: it starts at
`K_PHY2LIN(-1)`, the last byte below the kernel. -/
def clearMinusOne (state : PageState) (pid : Nat) : Option PageState :=
  (state.kernelAccess pid (kernelLinBase - 1) 3).map fun next =>
    (next.clearLast (next.pagePhyAddr pid (kernelLinBase - 1))).clearLow

/-- The first half of `lin_mapping_phy`, called by the process `current`: the page
table of an address, made when there is none. The second component is `none`
when the call returns `-1`. -/
def ensureTable (state : PageState) (current lin pid pdeAttr : Nat) :
    Option (PageState × Option Nat) :=
  if Present (state.pde pid lin) then some (state, some (state.ptePhyAddr pid lin))
  else
    let result := memmanKalloc4k state.man
    let taken := { state with man := result.1 }
    if result.2 = failed then (taken.clearMinusOne current).map fun next => (next, none)
    else
      let cleared := taken.clearPage result.2
      if result.2 % 1024 ≠ 0 then some (cleared, none)
      else
        some (cleared.write (state.pdePhyAddr pid + 4 * pdeIndex lin)
          (makeEntry result.2 pdeAttr), some result.2)

/-- The frame that `lin_mapping_phy` takes for an address. -/
def takeFrame (state : PageState) (lin : Nat) : Memman × Nat :=
  if kernelLinBase ≤ lin then memmanKalloc4k state.man else memmanAlloc4k state.man

/-- The second half of `lin_mapping_phy`, on the page table at `table`. -/
def mapPage (state : PageState) (lin phy table pteAttr : Nat) : PageState × Int :=
  if phy = failed then
    if Present (state.mem (table + 4 * pteIndex lin)) then (state, 0)
    else
      let result := state.takeFrame lin
      let taken := { state with man := result.1 }
      if result.2 % 1024 ≠ 0 then (taken, -1)
      else (taken.write (table + 4 * pteIndex lin) (makeEntry result.2 pteAttr), 0)
  else if phy % 1024 ≠ 0 then (state, -1)
  else (state.write (table + 4 * pteIndex lin) (makeEntry phy pteAttr), 0)

/-- `lin_mapping_phy`, called by the process `current`, with `none` for a `halt` on
the way. -/
def linMappingPhy (state : PageState) (current lin phy pid pdeAttr pteAttr : Nat) :
    Option (PageState × Int) := do
  let (next, table) ← state.ensureTable current lin pid pdeAttr
  match table with
  | none => pure (next, -1)
  | some table => pure (next.mapPage lin phy table pteAttr)

/-- The loop of `init_page_pte`: `count` more pages of the kernel, of which `n` are
mapped already. -/
def mapKernel (state : PageState) (current pid : Nat) : Nat → Nat → Option (PageState × Int)
  | _, 0 => some (state, 0)
  | n, count + 1 => do
      let (next, result) ← state.linMappingPhy current (kernelLinBase + 4096 * n) (4096 * n) pid
        (pgP + pgUsu + pgRww) (pgP + pgRww)
      if result ≠ 0 then pure (next, -1) else next.mapKernel current pid (n + 1) count

/-- `init_page_pte`, called by the process `current`, with `none` for a `halt`. -/
def initPagePte (state : PageState) (current pid : Nat) : Option (PageState × Int) :=
  let result := memmanKalloc4k state.man
  let taken := { state with man := result.1 }
  if result.2 = failed then (taken.clearMinusOne current).map fun next => (next, -1)
  else
    let cleared := taken.clearPage result.2
    if result.2 % 1024 ≠ 0 then some (cleared, -1)
    else
      let entered := { cleared with cr3 := Function.update cleared.cr3 pid result.2 }
      entered.mapKernel current pid 0 (kernelSize / 4096)

/-- `vmalloc` by a process. -/
def vmalloc (state : PageState) (pid size : Nat) : PageState × Nat :=
  ({ state with heapLimit := Function.update state.heapLimit pid (add32 (state.heapLimit pid) size) },
    state.heapLimit pid)

/-- A `u32` read as an `int`. -/
def asInt (w : Nat) : Int := if w < 2147483648 then w else (w : Int) - 4294967296

/-- `sys_malloc_4k`. The loop over the page compares as `int`, so it does not run
for the page that ends at `0x80000000`. -/
def sysMalloc4k (state : PageState) (pid : Nat) : Option PageState :=
  let (next, lin) := state.vmalloc pid 0x1000
  if asInt lin < asInt (add32 lin 0x1000) then
    (next.linMappingPhy pid lin failed pid (pgP + pgUsu + pgRww) (pgP + pgUsu + pgRww)).map Prod.fst
  else some next

/-- `sys_free_4k`. -/
def sysFree4k (state : PageState) (pid lin : Nat) : Option PageState :=
  let phy := state.pagePhyAddr pid lin
  (state.linMappingPhy pid lin phy pid (pgP + pgUsu + pgRww) (pgUsu + pgRww)).map fun result =>
    { result.1 with man := (memmanFree result.1.man phy 0x1000).1 }

/-- The processor lets a user access through. -/
def Allowed (state : PageState) (pid lin : Nat) (store : Bool) : Prop :=
  Present (state.pde pid lin) ∧ UserBit (state.pde pid lin) ∧
    Present (state.pte pid lin) ∧ UserBit (state.pte pid lin) ∧
    (store = true → Writable (state.pde pid lin) ∧ Writable (state.pte pid lin))

instance (state : PageState) (pid lin : Nat) (store : Bool) :
    Decidable (state.Allowed pid lin store) :=
  inferInstanceAs (Decidable (_ ∧ _ ∧ _ ∧ _ ∧ _))

end PageState

inductive PageAction where
  | malloc (pid : Nat)
  /-- `sys_free_4k` on an address of the heap. -/
  | free (pid lin : Nat)
  /-- A load or store of the user that enters the fault handler. -/
  | access (pid lin : Nat) (store : Bool)
  deriving DecidableEq

def PageState.step (state : PageState) : PageAction → Option PageState
  | .malloc pid => if state.cr3 pid ≠ 0 then state.sysMalloc4k pid else none
  | .free pid lin =>
      if state.cr3 pid ≠ 0 ∧ heapLinBase ≤ lin ∧ lin < heapLinLimitMax then
        state.sysFree4k pid lin
      else none
  | .access pid lin store =>
      if state.cr3 pid ≠ 0 ∧ lin < 4294967296 ∧ ¬state.Allowed pid lin store then
        state.pageFaultHandler pid lin
      else none

end AempOS.Memory
