import AempOS.Memory.PageTable

/-! The memory side of `sys_fork` in `kernel/fork.c`: the new address space, and
the copy of the parent's areas through its share page. The results of
`init_page_pte` and `lin_mapping_phy` are ignored there; a run in which one of
them is not `0`, for want of a frame, has no result here. -/

set_option autoImplicit false

namespace AempOS.Memory

/-- `SharePageBase`. -/
def sharePageBase : Nat := 0x47FFF000

/-- `LIN_MEMMAP`, without the end of the heap, which `PageState` has. -/
structure LinMemmap where
  textLinBase : Nat
  textLinLimit : Nat
  dataLinBase : Nat
  dataLinLimit : Nat
  vpageLinBase : Nat
  vpageLinLimit : Nat
  heapLinBase : Nat
  stackLinBase : Nat
  stackLinLimit : Nat
  argLinBase : Nat
  argLinLimit : Nat
  deriving DecidableEq

/-- The addresses that `for (addr = base; addr < limit; addr += num_4K)` visits, or
`none` when the loop has not ended after `fuel` rounds. -/
def ascending (limit : Nat) : Nat → Nat → Option (List Nat)
  | 0, _ => none
  | fuel + 1, addr =>
      if addr < limit then (ascending limit fuel (add32 addr 0x1000)).map (addr :: ·) else some []

/-- The addresses that `for (addr = base; addr > limit; addr -= num_4K)` visits. -/
def descending (limit : Nat) : Nat → Nat → Option (List Nat)
  | 0, _ => none
  | fuel + 1, addr =>
      if limit < addr then (descending limit fuel (sub32 addr 0x1000)).map (addr :: ·) else some []

/-- There are no more pages than these: a loop that takes more rounds comes back to
its first address and never ends. -/
def loopFuel : Nat := 1048577

namespace PageState

/-- `lin_mapping_phy` with the result `0`. -/
def mapOk (state : PageState) (current lin phy pid pdeAttr pteAttr : Nat) : Option PageState :=
  match state.linMappingPhy current lin phy pid pdeAttr pteAttr with
  | some (next, 0) => some next
  | _ => none

/-- The call by which `exec_elfcpy` and `sys_exec` map a page of a process. -/
def mapFresh (pid attr : Nat) (state : PageState) (lin : Nat) : Option PageState :=
  state.mapOk pid lin failed pid (pgP + pgUsu + pgRww) attr

/-- The body of the loop over the text: the child gets the parent's frame, read
only. -/
def sharePage (ppid pid : Nat) (state : PageState) (lin : Nat) : Option PageState :=
  state.mapOk ppid lin (state.pagePhyAddr ppid lin) pid (pgP + pgUsu + pgRww) (pgP + pgUsu)

/-- `memcpy` of one page in the address space of a process. The page that is read
may fault. -/
def memcpyPage (state : PageState) (pid dst src : Nat) : Option PageState :=
  (state.kernelAccess pid src 3).map fun next =>
    { next with mem := fun addr =>
        if next.pagePhyAddr pid dst ≤ addr ∧ addr < next.pagePhyAddr pid dst + 4096 then
          next.mem (next.pagePhyAddr pid src + (addr - next.pagePhyAddr pid dst))
        else next.mem addr }

/-- The body of the other loops: the share page of the parent gets a new frame, the
page is copied there, and the child gets that frame. -/
def copyPage (ppid pid : Nat) (state : PageState) (lin : Nat) : Option PageState := do
  let cleared ← state.mapOk ppid sharePageBase 0 ppid (pgP + pgUsu + pgRww) 0
  let taken ← cleared.mapOk ppid sharePageBase failed ppid (pgP + pgUsu + pgRww) (pgP + pgUsu + pgRww)
  let copied ← taken.memcpyPage ppid sharePageBase (pageBase lin)
  copied.mapOk ppid lin (copied.pagePhyAddr ppid sharePageBase) pid (pgP + pgUsu + pgRww)
    (pgP + pgUsu + pgRww)

/-- A loop over the addresses of an area. -/
def overArea (state : PageState) (body : PageState → Nat → Option PageState)
    (area : Option (List Nat)) : Option PageState :=
  area.bind fun addrs => addrs.foldlM body state

/-- `fork_mem_cpy`. -/
def forkMemCpy (state : PageState) (map : LinMemmap) (ppid pid : Nat) : Option PageState := do
  let text ← state.overArea (sharePage ppid pid) (ascending map.textLinLimit loopFuel map.textLinBase)
  let data ← text.overArea (copyPage ppid pid) (ascending map.dataLinLimit loopFuel map.dataLinBase)
  let vpage ← data.overArea (copyPage ppid pid) (ascending map.vpageLinLimit loopFuel map.vpageLinBase)
  let heap ← vpage.overArea (copyPage ppid pid)
    (ascending (state.heapLimit ppid) loopFuel map.heapLinBase)
  let stack ← heap.overArea (copyPage ppid pid) (descending map.stackLinLimit loopFuel map.stackLinBase)
  stack.overArea (copyPage ppid pid) (ascending map.argLinLimit loopFuel map.argLinBase)

/-- `sys_fork` by the process `ppid`, with `pid` for the child that `alloc_PCB`
gave. `fork_pcb_cpy` copies the end of the heap. -/
def sysFork (state : PageState) (map : LinMemmap) (ppid pid : Nat) : Option PageState :=
  match state.initPagePte ppid pid with
  | some (made, 0) =>
      forkMemCpy { made with heapLimit := Function.update made.heapLimit pid (made.heapLimit ppid) }
        map ppid pid
  | _ => none

end PageState

end AempOS.Memory
