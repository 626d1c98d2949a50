import AempOS.Task.ExecImage
import AempOS.Task.OutOfFrames

/-! `sys_exec` that returns `-1`. A null path and an image without headers are found
before anything is changed, but a header of another kind ends `exec_load` when the
segments before it are loaded, and a missing frame for the stack ends `sys_exec` when the
PCB is rewritten: nothing is undone. Such a call leaves its caller alone only where it
loads and writes what is there already. -/

set_option autoImplicit false

namespace AempOS.Task

open Lib Memory

variable {memory : Buffer} {cpu : Nat} {dirs : List Nat} {pid : Nat}

/-! ## Callers that are left alone -/

/-- A process has the same page directory, page tables and bytes below the kernel. -/
structure SameMemory (pid : Nat) (start state : PageState) : Prop where
  bytes : ∀ lin < kernelLinBase, userByte state pid lin = userByte start pid lin
  directory : state.cr3 pid = start.cr3 pid
  space : SameSpace start state (start.cr3 pid)

/-- The same memory map, process info and saved registers. -/
structure SamePcb (before after : Pcb) : Prop where
  memmap : after.memmap = before.memmap
  info : after.info = before.info
  regs : after.regs = before.regs
  stackTop : after.stackTop = before.stackTop

structure Untouched (pid : Nat) (start final : Kernel) : Prop where
  memory : SameMemory pid start.pages final.pages
  pcb : SamePcb (start.tasks.table pid) (final.tasks.table pid)

/-! ## Calls that leave their caller alone -/

/-- The last byte that is stored at an address is there already. -/
def LoadsOwn (start : PageState) (pid : Nat) (stores : List (Nat × Byte)) : Prop :=
  ∀ lin entry, LastOf (fun entry => entry.1 = lin) stores entry → userByte start pid lin = some entry.2

/-- The last segments of text and of data are where the text and the data are already. -/
structure NotesOwn (phdrs : List Exec.Phdr) (pcb : Pcb) : Prop where
  text : ∀ phdr, LastOf (fun phdr => phdr.flags = 5) phdrs phdr → phdr.region = Exec.textOf pcb
  data : ∀ phdr, LastOf (fun phdr => phdr.flags = 6) phdrs phdr → phdr.region = Exec.dataOf pcb

/-- The registers of a process that is about to enter its image. -/
def enteredRegs (entry : Nat) (regs : Nat → Nat) : Nat → Nat :=
  Function.update (Function.update (Exec.userFrame regs) eipReg entry) espReg 0xBFFFEFFC

/-- The PCB is that of a process about to enter the image. -/
structure EntersOwn (entry : Nat) (pcb : Pcb) : Prop where
  memmap : pcb.memmap = execMemmap pcb.memmap.textLinBase pcb.memmap.textLinLimit pcb.memmap.dataLinBase
    pcb.memmap.dataLinLimit
  textHold : pcb.info.textHold = true
  dataHold : pcb.info.dataHold = true
  regs : pcb.regs = enteredRegs entry pcb.regs
  stackTop : pcb.stackTop = pcb.regs

/-- The page table of the stack is there, and there is no frame for a page. -/
def StackStarved (state : PageState) (pid : Nat) : Prop :=
  Present (state.word (state.cr3 pid) 767) ∧ (alloc4k .user state.man).2 = failed

/-- Where `exec_load` returns `-1`. -/
def Exec.EndsEarly (ehdr : Exec.Ehdr) (phdrs : List Exec.Phdr) : Prop :=
  ehdr.phnum = 0 ∨ ¬∀ phdr ∈ Exec.described phdrs, phdr.Known

instance (ehdr : Exec.Ehdr) (phdrs : List Exec.Phdr) : Decidable (Exec.EndsEarly ehdr phdrs) :=
  inferInstanceAs (Decidable (_ ∨ _))

/-- The segments lie below the kernel, and what the call writes is there already: all
that it would write where `exec_load` returns `-1`, and else also the rest of the PCB,
with a stack for which there is no frame. -/
structure Spares (memory : Buffer) (cpu pid : Nat) (start : Kernel) : Prop where
  below : ∀ entry ∈ segmentsBytes memory cpu (imagePhdrs memory cpu), entry.1 < kernelLinBase
  bytes : LoadsOwn start.pages pid (segmentsBytes memory cpu (imagePhdrs memory cpu))
  notes : NotesOwn (Exec.loaded (imagePhdrs memory cpu)) (start.tasks.table pid)
  enters : ¬Exec.EndsEarly (imageEhdr memory cpu) (imagePhdrs memory cpu) →
    EntersOwn (imageEhdr memory cpu).entry (start.tasks.table pid) ∧ StackStarved start.pages pid

/-! ## The PCB -/

section

variable {phdrs : List Exec.Phdr} {pcb : Pcb}

theorem SamePcb.refl (pcb : Pcb) : SamePcb pcb pcb := ⟨rfl, rfl, rfl, rfl⟩

def Exec.withRegions (pcb : Pcb) (text data : Nat × Nat) : Pcb :=
  { pcb with memmap := { pcb.memmap with
      textLinBase := text.1
      textLinLimit := text.2
      dataLinBase := data.1
      dataLinLimit := data.2 } }

/-- `exec_load` writes to the text and the data of the memory map only. -/
theorem noted_pcb (phdrs : List Exec.Phdr) (pcb : Pcb) :
    phdrs.foldl Exec.note pcb =
      Exec.withRegions pcb (Exec.textOf (phdrs.foldl Exec.note pcb)) (Exec.dataOf (phdrs.foldl Exec.note pcb)) := by
  induction phdrs generalizing pcb with
  | nil => rfl
  | cons phdr rest ih =>
      have covered : ∀ text data, Exec.withRegions (Exec.note pcb phdr) text data = Exec.withRegions pcb text data := by
        intro text data
        unfold Exec.note
        split <;> rfl
      rw [List.foldl_cons, ← covered]
      exact ih (Exec.note pcb phdr)

/-- The notes are there already exactly if both regions are. -/
theorem notesOwn_iff (known : ∀ phdr ∈ phdrs, phdr.Known) :
    NotesOwn phdrs pcb ↔ Exec.textOf (phdrs.foldl Exec.note pcb) = Exec.textOf pcb ∧
      Exec.dataOf (phdrs.foldl Exec.note pcb) = Exec.dataOf pcb := by
  rw [textNoted, dataNoted known, overwrite_same_iff, overwrite_same_iff]
  exact ⟨fun notes => ⟨notes.text, notes.data⟩, fun both => ⟨both.1, both.2⟩⟩

theorem NotesOwn.noted (notes : NotesOwn phdrs pcb) (known : ∀ phdr ∈ phdrs, phdr.Known) :
    phdrs.foldl Exec.note pcb = pcb := by
  obtain ⟨text, data⟩ := (notesOwn_iff known).mp notes
  rw [noted_pcb, text, data]
  rfl

end

/-! ## Memory after the segments -/

section

variable {start state : PageState} {stored : List (Nat × Byte)}

def storePages (stored : List (Nat × Byte)) : Finset Nat := (stored.map fun entry => entry.1 / 4096).toFinset

/-- The pages to which the image is loaded are there. -/
theorem LoadsOwn.present (loads : LoadsOwn start pid stored) :
    ∀ page ∈ storePages stored, ∃ found, start.entry (start.cr3 pid) page = some found := by
  intro page member
  obtain ⟨entry, isEntry, rfl⟩ := List.mem_map.mp (List.mem_toFinset.mp member)
  rcases overwrite_cases (fun other => other.1 = entry.1) stored with none | ⟨last, isLast⟩
  · exact absurd rfl (none entry isEntry)
  · obtain ⟨found, isFound, _⟩ := Option.map_eq_some_iff.mp (loads entry.1 last isLast)
    exact ⟨found, isFound⟩

/-- No frame is needed for them. -/
theorem LoadsOwn.supplies (loads : LoadsOwn start pid stored) :
    SuppliesFor start (start.cr3 pid) (storePages stored) := by
  have pages : absentPages start (start.cr3 pid) (storePages stored) = ∅ := by
    refine Finset.filter_eq_empty_iff.mpr fun page member absent => ?_
    obtain ⟨found, isFound⟩ := loads.present page member
    rw [absent] at isFound
    cases isFound
  have tables : absentTables start (start.cr3 pid) (storePages stored) = ∅ := by
    refine Finset.filter_eq_empty_iff.mpr fun i member absent => absent ?_
    obtain ⟨page, isPage, rfl⟩ := Finset.mem_image.mp member
    obtain ⟨found, isFound⟩ := loads.present page isPage
    by_contra missing
    rw [entry_absent missing] at isFound
    cases isFound
  unfold SuppliesFor
  rw [pages, tables]
  exact .none start.man

end

/-! ## The stack -/

section

variable {state next final : PageState} {lin current : Nat}

/-- A table or a page that was missing is there. -/
def Adds (dir : Nat) (state next : PageState) : Prop :=
  (∃ i < 1024, ¬Present (state.word dir i) ∧ Present (next.word dir i)) ∨
    ∃ page < kernelPage, state.entry dir page = none ∧ ∃ found, next.entry dir page = some found

theorem Adds.congr {dir : Nat} {other : PageState} (adds : Adds dir state next) (mem : other.mem = next.mem) :
    Adds dir state other := by
  rcases adds with ⟨i, inside, absent, present⟩ | ⟨page, inside, absent, found, isFound⟩
  · exact .inl ⟨i, inside, absent, by rwa [word_congr mem]⟩
  · exact .inr ⟨page, inside, absent, found, by rwa [entry_congr mem]⟩

/-- What is added later was missing before. -/
theorem Adds.after (keeps : KeepsBytes dirs pid state next) (adds : Adds (state.cr3 pid) next final) :
    Adds (state.cr3 pid) state final := by
  rcases adds with ⟨i, inside, absent, present⟩ | ⟨page, inside, absent, found, isFound⟩
  · refine .inl ⟨i, inside, fun there => absent ?_, present⟩
    rwa [keeps.dirKept i inside there]
  · refine .inr ⟨page, inside, ?_, found, isFound⟩
    cases was : state.entry (state.cr3 pid) page with
    | none => rfl
    | some other =>
        rw [keeps.kept page (kernelPage_inside inside) other was] at absent
        exact absent

variable (held : OwnPages dirs pid state) (stack : lin / 4194304 = 767) (below : lin < kernelLinBase)

include held stack below

/-- Where there is no frame the call returns `-1`, and changes nothing. -/
theorem StackStarved.mapped (starved : StackStarved state pid) (pdeAttr pteAttr : Nat)
    (absent : state.entry (state.cr3 pid) (lin / 4096) = none) :
    state.linMappingPhy current lin failed pid pdeAttr pteAttr = some (state, -1) := by
  obtain ⟨table, isFailed⟩ := starved
  have index : lin / 4096 / 1024 = 767 := by omega
  have present : Present (state.pde pid lin) := by
    rw [pde_read held.tables held.alive, index]
    exact table
  have missing : ¬Present (state.mem (state.ptePhyAddr pid lin + 4 * pteIndex lin)) := by
    intro there
    rw [entry_read held.tables held.alive, if_pos ⟨present, there⟩] at absent
    cases absent
  have isUser : state.takeFrame lin = alloc4k .user state.man := if_neg (by omega)
  have man := alloc4k_failed held.trusted isFailed
  have placed : state.mapPage lin failed (state.ptePhyAddr pid lin) pteAttr = (state, -1) := by
    simp only [PageState.mapPage, if_true, if_neg missing, isUser, isFailed, man]
    rfl
  simp only [PageState.linMappingPhy, PageState.ensureTable, if_pos present, Option.bind_eq_bind, Option.bind_some, placed]
  rfl

end

section

variable {kernel : Kernel} {position : Nat}

end

end AempOS.Task
