import AempOS.Lib.LastWrite
import AempOS.Task.ExecLoading
import AempOS.Task.ExecRuns

/-! What `sys_exec` by a child does to its parent. The child shares the frames of the
text, and the frame of the last page that was copied, with its parent, `sys_exec`
releases none of them, and `lin_mapping_phy` keeps a page that is present: the bytes
that are loaded there go to the parent as well. -/

set_option autoImplicit false

namespace AempOS.Task

open Lib Memory

variable {memory : Buffer} {cpu : Nat}
variable {dirs : List Nat} {start state next : PageState} {ppid pid : Nat} {mode : ExecMode}

/-! ## Stores that change nothing -/

variable {stores : List (Nat × Byte)}

theorem replay_same_iff : (∀ addr, OfParent start ppid addr → replay start pid stores addr = start.byteAt addr) ↔
    LoadsSame start ppid pid stores := by
  constructor
  · rintro same left lin byte right rfl addr leadsTo isParent others
    have last : LastOf (fun entry => leads start pid entry.1 = some addr) (left ++ (lin, byte) :: right) (lin, byte) :=
      ⟨left, right, rfl, leadsTo, others⟩
    exact (overwrite_same_iff.mp (same addr isParent) _ last).symm
  · intro loads addr isParent
    refine overwrite_same_iff.mpr ?_
    rintro ⟨lin, byte⟩ ⟨left, right, rfl, leadsTo, others⟩
    exact (loads left lin byte right rfl addr leadsTo isParent others).symm

/-! ## Calls that return -/

/-- A state in the middle of a call. -/
def Underway (dirs : List Nat) (start : PageState) (ppid pid : Nat) (state : ExecState) : Prop :=
  ∃ mode, Loading dirs start ppid pid state.kernel.pages mode

/-- The page of the address was there before the call. -/
def WasPresent (start : PageState) (pid lin : Nat) : Prop :=
  ∃ found, start.entry (start.cr3 pid) (lin / 4096) = some found

section

variable {stores : List (Nat × Byte)} (forked : TwoSpaces dirs start ppid pid)
  (loadable : Loadable start ppid pid dirs stores)

include forked loadable

theorem Underway.linMapping {state : ExecState} {lin attr : Nat} (underway : Underway dirs start ppid pid state)
    (address : lin < 4294967296) (small : attr < 4096) (odd : attr % 2 = 1) (present : WasPresent start pid lin) :
    (Exec.linMapping lin attr).run (execHandler memory cpu pid) state = some (state, 0) ∧
      ∃ mode, Loading dirs start ppid pid state.kernel.pages mode ∧ mode.mapped (lin / 4096) := by
  obtain ⟨mode, held⟩ := underway
  obtain ⟨found, isFound⟩ := present
  have kept : state.kernel.pages.entry (state.kernel.pages.cr3 pid) (lin / 4096) = some found := by
    rw [held.cr3]
    rcases held.childPages (lin / 4096) (by omega) with same | ⟨absent, _⟩
    · exact same.trans isFound
    · rw [absent] at isFound
      cases isFound
  have mapped : state.kernel.pages.mapOk pid lin failed pid (pgP + pgUsu + pgRww) attr = some state.kernel.pages := by
    unfold PageState.mapOk
    rw [linMappingPhy_keeps held.tables (held.alive forked) address kept]
    rfl
  have ofParent : ∀ addr, OfParent start ppid addr → Content dirs start (pageBase addr) := by
    rintro addr ⟨page, inside, isUser, attr, found⟩
    exact loadable.parent page inside isUser _ attr found
  refine ⟨?_, _, held.map forked ofParent address small odd mapped, .inl rfl⟩
  have handled : execHandler memory cpu pid state (.linMapping lin attr) = some (state, (0 : Int)) := by
    simp only [execHandler, mapped, Option.map_some]
    rfl
  exact Program.run_perform handled

theorem Loading.store_runs {state : ExecState} {lin : Nat} (held : Loading dirs start ppid pid state.kernel.pages mode)
    (isMapped : mode.mapped (lin / 4096)) (may : ∃ other, (lin, other) ∈ stores) (byte : Byte) :
    ∃ after, (Exec.store lin byte).run (execHandler memory cpu pid) state = some (after, ()) ∧
      after.position = state.position ∧ Underway dirs start ppid pid after := by
  obtain ⟨other, member⟩ := may
  have address : lin < 4294967296 := Nat.lt_trans (loadable.user lin other member) (by decide)
  obtain ⟨_, ⟨frame, attr⟩, found⟩ := held.mapped _ isMapped
  obtain ⟨accessed, _⟩ := held.access forked address found
  have handled : execHandler memory cpu pid state (.store lin byte) = some
      ({ state with kernel := .settle state.kernel.tasks (state.kernel.pages.storeByte
        (state.kernel.pages.pagePhyAddr pid lin + lin % 4096) byte) }, ()) := by
    simp only [execHandler, accessed, Option.map_some]
    rfl
  refine ⟨{ state with kernel := .settle state.kernel.tasks (state.kernel.pages.storeByte
    (state.kernel.pages.pagePhyAddr pid lin + lin % 4096) byte) }, ?_, rfl, ?_⟩
  · exact Program.run_perform handled
  · have allowed : (loadDiscipline memory cpu fun lin => ∃ byte, (lin, byte) ∈ stores).allows
        { mode with position := state.position } (.store lin byte) := ⟨⟨other, member⟩, isMapped⟩
    obtain ⟨last, _, next, _⟩ := Loading.step forked loadable ⟨held.moveTo state.position, rfl⟩ allowed handled
    exact ⟨last, next⟩

theorem Underway.updatePcb {state : ExecState} {change : Pcb → Pcb} (underway : Underway dirs start ppid pid state)
    (keeps : ∀ pcb, (change pcb).cr3 = pcb.cr3) :
    ∃ after, (Exec.updatePcb change).run (execHandler memory cpu pid) state = some (after, ()) ∧
      Underway dirs start ppid pid after := by
  obtain ⟨mode, held⟩ := underway
  have handled : execHandler memory cpu pid state (.updatePcb change) = some
      ({ state with kernel := { state.kernel with tasks := state.kernel.tasks.modify pid change } }, ()) := rfl
  have allowed : (loadDiscipline memory cpu fun lin => ∃ byte, (lin, byte) ∈ stores).allows
      { mode with position := state.position } (.updatePcb change) := keeps
  obtain ⟨last, _, next, _⟩ := Loading.step forked loadable ⟨held.moveTo state.position, rfl⟩ allowed handled
  exact ⟨_, Program.run_perform handled, last, next⟩

/-- What a call keeps in the middle of `exec_load`. -/
theorem Underway.loads : Loads memory cpu pid (fun lin => (∃ byte, (lin, byte) ∈ stores) ∧ WasPresent start pid lin)
    (fun _ _ state => Underway dirs start ppid pid state) where
  round {stored pcb state lin attr} underway may small odd := by
    obtain ⟨⟨other, member⟩, present⟩ := may
    have address : lin < 4294967296 := Nat.lt_trans (loadable.user lin other member) (by decide)
    obtain ⟨ran, mode, held, isMapped⟩ := underway.linMapping forked loadable address small odd present
    refine ⟨state, ran, fun byte position => ?_⟩
    have again : Loading dirs start ppid pid (ExecState.mk state.kernel position).kernel.pages mode := held
    obtain ⟨after, isStored, _, next⟩ := again.store_runs forked loadable isMapped ⟨other, member⟩ byte
    exact ⟨after, isStored, next⟩
  note underway keeps := underway.updatePcb forked loadable keeps

theorem mapStack_runs {lins : List Nat} {state : ExecState} (underway : Underway dirs start ppid pid state)
    (present : ∀ lin ∈ lins, lin < 4294967296 ∧ WasPresent start pid lin) :
    (Exec.mapStack lins).run (execHandler memory cpu pid) state = some (state, 0) := by
  induction lins with
  | nil => rfl
  | cons lin rest ih =>
      obtain ⟨address, isPresent⟩ := present lin (List.mem_cons_self ..)
      obtain ⟨mapped, _⟩ := underway.linMapping forked loadable address (by decide : pgP + pgUsu + pgRww < 4096)
        (by decide) isPresent
      rw [Exec.mapStack, Program.run_then mapped, if_neg (by decide)]
      exact ih fun other member => present other (List.mem_cons_of_mem _ member)

end

/-- A call returns if the headers of the image fit their arrays and the path the name of a
PCB, and the child has all pages already to which the image is loaded, and its stack. -/
theorem TwoSpaces.exec_returns {kernel : Kernel} {position : Nat} {path : String}
    (spaces : TwoSpaces dirs kernel.pages ppid pid)
    (loadable : Loadable kernel.pages ppid pid dirs (loadedBytes memory cpu (some path)))
    (phnum : (imageEhdr memory cpu).phnum ≤ headerMax) (shnum : (imageEhdr memory cpu).shnum ≤ headerMax)
    (name : path.utf8ByteSize < nameSize)
    (present : ∀ lin byte, (lin, byte) ∈ loadedBytes memory cpu (some path) → WasPresent kernel.pages pid lin)
    (stack : ∀ lin ∈ Exec.stackPages, WasPresent kernel.pages pid lin) :
    ∃ final result, (Exec.sysExec (some path)).run (execHandler memory cpu pid) ⟨kernel, position⟩ =
      some (final, result) := by
  have opened : Exec.fakeOpen.run (execHandler memory cpu pid) ⟨kernel, position⟩ = some (⟨kernel, 0⟩, ()) := rfl
  obtain ⟨last, read⟩ : ∃ last, Exec.readElf.run (execHandler memory cpu pid) ⟨kernel, 0⟩ =
      some (⟨kernel, last⟩, (imageEhdr memory cpu, imagePhdrs memory cpu)) := readElf_runs phnum shnum
  have begins : Underway dirs kernel.pages ppid pid ⟨kernel, last⟩ := ⟨_, .begins spaces last⟩
  obtain ⟨loaded, result, isLoaded, loadedHeld⟩ : ∃ loaded result,
      (Exec.execLoad (imageEhdr memory cpu) (imagePhdrs memory cpu)).run (execHandler memory cpu pid)
        ⟨kernel, last⟩ = some (loaded, result) ∧ Underway dirs kernel.pages ppid pid loaded := by
    unfold Exec.execLoad
    split
    next => exact ⟨_, -1, rfl, begins⟩
    next =>
        obtain ⟨loaded, isLoaded, loadedHeld⟩ := (Underway.loads spaces loadable).loadSegments [] (kernel.tasks.table pid)
          begins fun entry member => ⟨⟨entry.2, member⟩, present entry.1 entry.2 member⟩
        exact ⟨loaded, _, isLoaded, loadedHeld⟩
  rw [Exec.sysExec, Program.run_then opened, Program.run_then read, Program.run_then isLoaded]
  by_cases failure : result = -1
  · rw [if_pos failure]
    exact ⟨_, _, rfl⟩
  · rw [if_neg failure, if_neg (Nat.not_le.mpr name)]
    obtain ⟨named, isNamed, namedHeld⟩ : ∃ named, (Exec.updatePcb (Exec.execPcbInit path)).run
        (execHandler memory cpu pid) loaded = some (named, ()) ∧ Underway dirs kernel.pages ppid pid named :=
      loadedHeld.updatePcb spaces loadable fun _ => rfl
    obtain ⟨entered, isEntered, enteredHeld⟩ : ∃ entered, (Exec.updatePcb (Exec.setEntry (imageEhdr memory cpu).entry)).run
        (execHandler memory cpu pid) named = some (entered, ()) ∧ Underway dirs kernel.pages ppid pid entered :=
      namedHeld.updatePcb spaces loadable fun _ => rfl
    have addresses : ∀ lin ∈ Exec.stackPages, lin < 4294967296 := by decide
    rw [Program.run_then isNamed, Program.run_then isEntered, mapStack_runs spaces loadable enteredHeld fun lin member =>
      ⟨addresses lin member, stack lin member⟩]
    exact ⟨_, _, rfl⟩

/-! ## Whole calls -/

variable {before forked : Kernel} {locked : Tasks} {final : ExecState} {path : Option String} {position : Nat}
  {returned result : Int}

/-- Memory after `sys_fork`, and the page directories in the PCBs. -/
theorem fork_pages (differ : ppid ≠ pid) (allocated : before.tasks.allocPcb = some (locked, some pid))
    (called : before.sysFork ppid = some (forked, returned)) :
    ∃ final, before.pages.sysFork (before.memmap ppid).toLinMemmap ppid pid = some final ∧
      forked.pages.mem = final.mem ∧ forked.pages.man = final.man ∧ forked.pages.cr3 pid = final.cr3 pid ∧
      ∀ i, i ≠ pid → forked.pages.cr3 i = before.pages.cr3 i := by
  obtain ⟨tasks, final, done, changed, rfl⟩ := spaceFork_found allocated called
  obtain ⟨changed, _⟩ := changed differ
  have faces : ∀ i, (Kernel.settle tasks final).pages.cr3 i = (tasks.faces i).cr3 := fun _ => rfl
  refine ⟨final, done, rfl, rfl, ?_, fun i other => ?_⟩
  · rw [faces, changed.faces, Function.update_self]
  · rw [faces, changed.faces, Function.update_of_ne other]
    rfl

/-- The two address spaces that `sys_fork` leaves. -/
theorem fork_spaces (ready : Forkable dirs ppid pid before.pages) (fits : (before.memmap ppid).toLinMemmap.Fits)
    (allocated : before.tasks.allocPcb = some (locked, some pid)) (called : before.sysFork ppid = some (forked, returned)) :
    TwoSpaces (forked.pages.cr3 pid :: dirs) forked.pages ppid pid := by
  obtain ⟨final, done, mem, man, isChild, others⟩ := fork_pages ready.differ allocated called
  have held := sysFork_forking ready fits done
  have isParent := others ppid ready.differ
  rw [← isChild] at held
  refine ⟨held.tables.congr mem man fun i alive => ?_, man ▸ held.trusted, ?_, held.childMember, ?_,
    fun i table points => held.proper i table (points.congr mem)⟩
  · by_cases own : i = pid
    · subst own
      exact held.childMember
    · rw [others i own] at alive ⊢
      exact List.mem_cons_of_mem _ (ready.tables.cr3 i alive)
  · rw [isParent]
    exact held.parentMember
  · rw [isParent]
    exact held.differ

/-- What a call of `sys_exec` leaves. -/
theorem TwoSpaces.exec (spaces : TwoSpaces dirs forked.pages ppid pid)
    (loadable : Loadable forked.pages ppid pid dirs (loadedBytes memory cpu path))
    (done : (Exec.sysExec path).run (execHandler memory cpu pid) ⟨forked, position⟩ = some (final, result)) :
    ∃ last, last.stored = loadedBytes memory cpu path ∧
      Loading dirs forked.pages ppid pid final.kernel.pages last := by
  have stores : Stores memory cpu (fun lin => ∃ byte, (lin, byte) ∈ loadedBytes memory cpu path)
      (Exec.sysExec path) ⟨position, fun _ => False, []⟩ (loadedBytes memory cpu path) (fun _ => True) :=
    Stores.sysExec path fun lin byte member => ⟨byte, member⟩
  have begins : Loading dirs forked.pages ppid pid forked.pages ⟨position, fun _ => False, []⟩ := .begins spaces position
  obtain ⟨last, ⟨_, stored⟩, held, _⟩ := Program.Keeps.run
    (fun before mode op after reply held allowed moved => Loading.step spaces loadable held allowed moved)
    stores ⟨begins, rfl⟩ done
  exact ⟨last, stored, held⟩

/-! ## An image of one byte -/

theorem ofBytes_image (position size off : Nat) : Exec.ofBytes (imageBytes memory cpu position size) off =
    if off < size then memory (add32 (addrLin cpu position) off) else 0 := by
  unfold Exec.ofBytes imageBytes bytesAt
  by_cases inside : off < size
  · simp [inside]
  · simp [inside]

/-- A file with a header, one segment for text at `0x1000`, and its byte. -/
def oneByte (byte : Byte) (off : Nat) : Byte :=
  if off = 25 ∨ off = 61 then 0x10
  else if off = 28 then 52
  else if off = 42 then 32
  else if off = 44 ∨ off = 68 ∨ off = 72 then 1
  else if off = 56 then 84
  else if off = 76 then 5
  else if off = 84 then byte
  else 0

/-- Memory with a file where the first CPU expects it. -/
def fileMemory (file : Nat → Byte) : Buffer := fun addr => file (addr - 0xC0007E00)

theorem ofBytes_file {file : Nat → Byte} {position size off : Nat} (inside : off < size) (small : position + off < 4096) :
    Exec.ofBytes (imageBytes (fileMemory file) 0 position size) off = file (position + off) := by
  have isFile : add32 (addrLin 0 position) off - 0xC0007E00 = position + off := by
    simp only [addrLin, add32]
    omega
  rw [ofBytes_image, if_pos inside, fileMemory, isFile]

def oneByteEhdr : Exec.Ehdr := ⟨0x1000, 52, 0, 32, 1, 0, 0⟩

def oneBytePhdr : Exec.Phdr := ⟨84, 0x1000, 1, 1, 5⟩

theorem oneByte_ehdr (byte : Byte) : imageEhdr (fileMemory (oneByte byte)) 0 = oneByteEhdr := by
  simp [imageEhdr, Exec.Ehdr.ofBuffer, word32, Exec.word16, ofBytes_file, ehdrSize, oneByte, oneByteEhdr]

theorem oneByte_phdrs (byte : Byte) : imagePhdrs (fileMemory (oneByte byte)) 0 = [oneBytePhdr] := by
  have isPhdr : imagePhdr (fileMemory (oneByte byte)) 0 oneByteEhdr 0 = oneBytePhdr := by
    simp [imagePhdr, Exec.Phdr.ofBuffer, word32, ofBytes_file, phdrSize, oneByte, oneByteEhdr, oneBytePhdr, add32]
  rw [imagePhdrs, oneByte_ehdr, oneByteEhdr, List.range'_one, List.map_singleton]
  exact congrArg (fun phdr => [phdr]) isPhdr

theorem oneByte_loaded (byte : Byte) : loadedBytes (fileMemory (oneByte byte)) 0 (some "init") = [(0x1000, byte)] := by
  have isByte : (imageBytes (fileMemory (oneByte byte)) 0 84 1).head?.getD 0#8 = byte := by
    simp [imageBytes, bytesAt, fileMemory, addrLin, add32, oneByte]
  simp [loadedBytes, oneByte_phdrs, segmentsBytes, segmentBytes, oneBytePhdr, add32, copiedBytes, isByte]

/-! ## One process -/

/-- Only PCB 1 is in use, with a page of text. -/
def programTasks : Tasks :=
  loneTasks.modify 1 fun pcb => { pcb with memmap := execMemmap 0x1000 0x1100 0x2000 0x2000 }

theorem programTasks_cr3 (i : Nat) (alive : (programTasks.table i).cr3 ≠ 0) :
    (programTasks.table i).cr3 ∈ [0x00400000] := by
  have same : (programTasks.table i).cr3 = (loneTasks.table i).cr3 := by
    by_cases isProgram : i = 1
    · subst isProgram
      rfl
    · simp [programTasks, Tasks.modify, isProgram]
  rw [same] at alive ⊢
  exact loneTasks_cr3 i alive

theorem program_kernel :
    ∃ kernel : Kernel, kernel.tasks = programTasks ∧ Loaded [0x00400000] 1 (programMap 0x2000 0x2000) kernel.pages ∧
      Room 489 3992 kernel.man ∧ UserFrames [0x00400000] 1 kernel.pages := by
  obtain ⟨made, state, _, _, loaded, limit, isDir, room, frames⟩ :=
    program_loaded (by decide : 0x2000 ≤ 0x2000) (by decide) (by decide : 0x2000 ≤ 0x5000) (empty_loop 0x2000)
  have mem : (Kernel.settle programTasks state).pages.mem = state.mem := rfl
  have same : (Kernel.settle programTasks state).pages.cr3 1 = state.cr3 1 := isDir.symm
  exact ⟨Kernel.settle programTasks state, rfl, loaded.congr mem rfl programTasks_cr3 same limit.symm, room,
    frames.congr mem rfl same⟩

/-- The program has forked: its text lies at one frame in both address spaces, and the
child has a stack. -/
structure ForkedProgram (before forked : Kernel) (locked : Tasks) (returned : Int) (frame : Nat) : Prop where
  allocated : before.tasks.allocPcb = some (locked, some 16)
  called : before.sysFork 1 = some (forked, returned)
  ready : Forkable [0x00400000] 1 16 before.pages
  fits : (before.memmap 1).toLinMemmap.Fits
  base : pageBase frame = frame
  userFrames : UserFrames (forked.pages.cr3 16 :: [0x00400000]) 1 forked.pages
  parentText : ∃ attr, forked.pages.entry (forked.pages.cr3 1) 1 = some (frame, attr)
  childText : forked.pages.entry (forked.pages.cr3 16) 1 = some (frame, pgP + pgUsu)
  stack : ∀ lin ∈ Exec.stackPages, WasPresent forked.pages 16 lin

theorem program_forked : ∃ before forked locked returned frame, ForkedProgram before forked locked returned frame := by
  obtain ⟨before, isProgram, loaded, room, frames⟩ := program_kernel
  have allocated : before.tasks.allocPcb = some ({ programTasks with allocPcbLock := true }, some 16) := by
    rw [isProgram]
    rfl
  have limit : before.pages.heapLimit 1 = heapLinBase := by
    unfold Kernel.pages Kernel.memmap
    rw [isProgram]
    rfl
  have map : (before.memmap 1).toLinMemmap = programMap 0x2000 0x2000 := by
    unfold Kernel.memmap
    rw [isProgram]
    rfl
  have small : before.pages.heapLimit 1 < 4294967296 := by
    rw [limit]
    decide
  have fits : (programMap 0x2000 0x2000).Fits := program_fits (by decide) (by decide)
  have differ : 1 ≠ 16 := by decide
  obtain ⟨final, done⟩ : ∃ final, before.pages.sysFork (programMap 0x2000 0x2000) 1 16 = some final :=
    loaded.program_forks limit room differ (by decide) (by decide) (by decide : ([] : List Nat).length ≤ 3)
      (empty_loop 0x2000)
  rw [← map] at done
  obtain ⟨forked, returned, called, _⟩ := sysFork_returns allocated done
  have ready : Forkable [0x00400000] 1 16 before.pages := loaded.toProcess.forkable differ small
  obtain ⟨final, done, mem, man, isChild, others⟩ := fork_pages differ allocated called
  rw [map] at done
  have finalParent : final.cr3 1 = before.pages.cr3 1 := (sysFork_forking ready fits done).parentDir
  have isParent : forked.pages.cr3 1 = final.cr3 1 := (others 1 differ).trans finalParent.symm
  have childPages := loaded.childPages differ small fits done
  have loops : Loops (programMap 0x2000 0x2000) (before.pages.heapLimit 1) [0x1000] ([] ++ stackAddrs) :=
    limit ▸ program_loops (empty_loop 0x2000)
  obtain ⟨frame, attr, isText, content⟩ :=
    loaded.pages 1 (by decide) (.inl ⟨0x1000, by decide, by decide, by decide⟩)
  have uncopied : ¬(programMap 0x2000 0x2000).CopyReached (before.pages.heapLimit 1) 1 := by
    rw [← loops.reached_copied fits]
    rintro ⟨addr, member, isPage⟩
    have apart : ∀ addr ∈ [] ++ stackAddrs, addr / 4096 ≠ 1 := by decide
    exact apart addr member isPage
  refine ⟨before, forked, _, returned, frame, allocated, called, ready, map ▸ fits, ?_, ?_, ⟨attr, ?_⟩, ?_,
    fun lin member => ?_⟩
  · have aligned := content.aligned
    unfold pageBase
    omega
  · rw [isChild]
    exact (loaded.userFrames differ small fits done frames).congr mem man isParent
  · rw [entry_congr mem, isParent, loaded.parentPage differ small fits done (by decide) (by decide), isText]
  · rw [entry_congr mem, isChild]
    exact childPages.shared 1 (by decide) uncopied ⟨0x1000, ⟨0, rfl, by decide⟩, by decide⟩ frame attr isText
  · have inside : ∀ lin ∈ Exec.stackPages, lin / 4096 < 1048576 := by decide
    have same : Exec.stackPages = [] ++ stackAddrs := rfl
    obtain ⟨own, isOwn, _⟩ := childPages.copied (lin / 4096) (inside lin member)
      ((loops.reached_copied fits).mp ⟨lin, same ▸ member, rfl⟩)
    refine ⟨(own, pgP + pgUsu + pgRww), ?_⟩
    rw [entry_congr mem, isChild]
    exact isOwn

/-- Every image of one byte at `0x1000` may be loaded by the child. -/
theorem ForkedProgram.loadable {before forked : Kernel} {locked : Tasks} {returned : Int} {frame : Nat}
    (program : ForkedProgram before forked locked returned frame) (byte : Byte) :
    Loadable forked.pages 1 16 (forked.pages.cr3 16 :: [0x00400000]) [(0x1000, byte)] := by
  obtain ⟨attr, parentText⟩ := program.parentText
  refine ⟨program.userFrames, fun lin other member => ?_, fun lin other member own ownAttr found => ?_⟩
  · obtain ⟨rfl, _⟩ := Prod.mk.inj (List.mem_singleton.mp member)
    decide
  · obtain ⟨rfl, _⟩ := Prod.mk.inj (List.mem_singleton.mp member)
    obtain ⟨rfl, _⟩ := Prod.mk.inj (Option.some.inj (program.childText.symm.trans found))
    exact program.userFrames 1 (by decide) (by unfold KernelPage; decide) _ attr parentText

/-- The program forks; its text lies at the same frame in both address spaces, and every
image of one byte is loaded. -/
theorem program_exec :
    ∃ (before forked : Kernel) (locked : Tasks) (returned : Int) (frame : Nat),
      before.tasks.allocPcb = some (locked, some 16) ∧ before.sysFork 1 = some (forked, returned) ∧
        Forkable [0x00400000] 1 16 before.pages ∧ (before.memmap 1).toLinMemmap.Fits ∧
        leads forked.pages 16 0x1000 = some frame ∧ OfParent forked.pages 1 frame ∧
        ∀ byte, Loadable forked.pages 1 16 (forked.pages.cr3 16 :: [0x00400000]) [(0x1000, byte)] ∧
          ∃ final result, (Exec.sysExec (some "init")).run (execHandler (fileMemory (oneByte byte)) 0 16) ⟨forked, 0⟩ =
            some (final, result) := by
  obtain ⟨before, forked, locked, returned, frame, program⟩ := program_forked
  obtain ⟨attr, parentText⟩ := program.parentText
  have spaces := fork_spaces program.ready program.fits program.allocated program.called
  refine ⟨before, forked, locked, returned, frame, program.allocated, program.called, program.ready, program.fits, ?_, ?_,
    fun byte => ⟨program.loadable byte, spaces.exec_returns ?_ ?_ ?_ (by decide) ?_ program.stack⟩⟩
  · exact congrArg (Option.map fun found => found.1 + 0x1000 % 4096) program.childText
  · exact ⟨1, by decide, by unfold KernelPage; decide, attr, program.base.symm ▸ parentText⟩
  · rw [oneByte_loaded]
    exact program.loadable byte
  · rw [oneByte_ehdr]
    decide
  · rw [oneByte_ehdr]
    decide
  · intro lin other member
    rw [oneByte_loaded] at member
    obtain ⟨rfl, _⟩ := Prod.mk.inj (List.mem_singleton.mp member)
    exact ⟨_, program.childText⟩

/-! ## Parent and child -/

/-- After `sys_fork`, a `sys_exec` by the child leaves the parent alone exactly when
every byte that it loads to a byte of the parent is the one that is there. A path that
overruns the name in the PCB does not return here. -/
theorem exec_leaves_parent (ready : Forkable dirs ppid pid before.pages)
    (fits : (before.memmap ppid).toLinMemmap.Fits) (allocated : before.tasks.allocPcb = some (locked, some pid))
    (called : before.sysFork ppid = some (forked, returned))
    (loadable : Loadable forked.pages ppid pid (forked.pages.cr3 pid :: dirs) (loadedBytes memory cpu path))
    (done : (Exec.sysExec path).run (execHandler memory cpu pid) ⟨forked, position⟩ = some (final, result)) :
    LeavesAlone forked.pages ppid final.kernel.pages ↔
      LoadsSame forked.pages ppid pid (loadedBytes memory cpu path) := by
  have spaces := fork_spaces ready fits allocated called
  obtain ⟨last, stored, held⟩ := spaces.exec loadable done
  rw [← replay_same_iff, ← stored]
  constructor
  · intro leaves addr isParent
    rw [← held.bytes addr isParent]
    exact leaves.bytes addr isParent
  · intro same
    refine ⟨held.parentPages, fun addr isParent => ?_⟩
    rw [held.bytes addr isParent]
    exact same addr isParent

/-- The child of a program loads the byte that is in the text already. -/
theorem exec_leaves_parent_same :
    ∃ (forked : Kernel) (byte : Byte) (final : ExecState) (result : Int),
      (Exec.sysExec (some "init")).run (execHandler (fileMemory (oneByte byte)) 0 16) ⟨forked, 0⟩ =
        some (final, result) ∧ LeavesAlone forked.pages 1 final.kernel.pages := by
  obtain ⟨before, forked, locked, returned, frame, allocated, called, ready, fits, leadsTo, _, exec⟩ := program_exec
  obtain ⟨loadable, final, result, ran⟩ := exec (forked.pages.byteAt frame)
  refine ⟨forked, _, final, result, ran, ?_⟩
  rw [← oneByte_loaded] at loadable
  refine (exec_leaves_parent ready fits allocated called loadable ran).mpr ?_
  rw [oneByte_loaded]
  intro left lin byte right whole addr leadsAddr _ _
  obtain ⟨rfl, single⟩ : left = [] ∧ [(0x1000, forked.pages.byteAt frame)] = (lin, byte) :: right := by
    cases left with
    | nil => exact ⟨rfl, whole⟩
    | cons first rest =>
        have length := congrArg List.length whole
        simp at length
  obtain ⟨same, _⟩ := List.cons.inj single
  obtain ⟨rfl, rfl⟩ := Prod.mk.inj same
  rw [leadsTo] at leadsAddr
  cases leadsAddr
  rfl

/-- The child of a program loads another byte, and the program has it in its text. -/
theorem exec_patches_parent :
    ∃ (before forked : Kernel) (returned : Int) (byte : Byte) (final : ExecState) (result : Int),
      before.sysFork 1 = some (forked, returned) ∧
        (Exec.sysExec (some "init")).run (execHandler (fileMemory (oneByte byte)) 0 16) ⟨forked, 0⟩ =
          some (final, result) ∧ ¬LeavesAlone forked.pages 1 final.kernel.pages := by
  obtain ⟨before, forked, locked, returned, frame, allocated, called, ready, fits, leadsTo, isParent, exec⟩ :=
    program_exec
  obtain ⟨loadable, final, result, ran⟩ := exec (forked.pages.byteAt frame + 1)
  refine ⟨before, forked, returned, _, final, result, called, ran, fun leaves => ?_⟩
  rw [← oneByte_loaded] at loadable
  obtain ⟨last, stored, held⟩ := (fork_spaces ready fits allocated called).exec loadable ran
  have isByte := (held.bytes frame isParent).symm.trans (leaves.bytes frame isParent)
  rw [stored, oneByte_loaded] at isByte
  have loaded : replay forked.pages 16 [(0x1000, forked.pages.byteAt frame + 1)] frame =
      forked.pages.byteAt frame + 1 := if_pos leadsTo
  have wrong : forked.pages.byteAt frame + 1 = forked.pages.byteAt frame := loaded.symm.trans isByte
  exact absurd wrong (by simp)

end AempOS.Task
