import AempOS.Task.ExecMemoryProperties
import AempOS.Task.OwnPages

/-! The image that `read_elf` and `exec_load` build in the memory of their caller. It is
the one that the program headers describe, but for the zeros of a segment whose position
in the file passes the end of a `u32`: there the copy goes on at the start of the file. -/

set_option autoImplicit false

namespace AempOS.Task

open Lib Memory

variable {memory : Buffer} {cpu : Nat}

/-! ## What the headers describe -/

namespace Exec

namespace Phdr

/-- The segment has a byte at an address. -/
def Covers (phdr : Phdr) (lin : Nat) : Prop := phdr.vaddr ≤ lin ∧ lin < phdr.vaddr + phdr.memsz

instance (phdr : Phdr) (lin : Nat) : Decidable (phdr.Covers lin) := inferInstanceAs (Decidable (_ ∧ _))

/-- A segment of text or data below the kernel, whose bytes in the file do not wrap. -/
structure Fits (phdr : Phdr) : Prop where
  flags : phdr.flags = 5 ∨ phdr.flags = 6
  memory : phdr.vaddr + phdr.memsz ≤ kernelLinBase
  file : phdr.offset + phdr.filesz < 4294967296

end Phdr

end Exec

/-- A byte of the file. -/
def fileByte (memory : Buffer) (cpu position : Nat) : Byte := (imageBytes memory cpu position 1).headD 0

/-- The byte of a segment at one of its addresses: one of the file, or zero behind those. -/
def describedByte (memory : Buffer) (cpu : Nat) (phdr : Exec.Phdr) (lin : Nat) : Byte :=
  if lin - phdr.vaddr < phdr.filesz then fileByte memory cpu (phdr.offset + (lin - phdr.vaddr)) else 0

/-- Memory is that of the image: every byte is that of the last segment that covers it,
the others are kept, and text and data are where the last segments of either kind are. -/
structure Built (memory : Buffer) (cpu pid : Nat) (phdrs : List Exec.Phdr) (start final : Kernel) : Prop where
  bytes : ∀ lin phdr, LastOf (fun phdr => phdr.Covers lin) phdrs phdr →
    userByte final.pages pid lin = some (describedByte memory cpu phdr lin)
  kept : ∀ lin < kernelLinBase, (∀ phdr ∈ phdrs, ¬phdr.Covers lin) →
    ∀ byte, userByte start.pages pid lin = some byte → userByte final.pages pid lin = some byte
  text : ∀ phdr, LastOf (fun phdr => phdr.flags = 5) phdrs phdr →
    (final.memmap pid).textLinBase = phdr.vaddr ∧ (final.memmap pid).textLinLimit = phdr.vaddr + phdr.memsz
  data : ∀ phdr, LastOf (fun phdr => phdr.flags = 6) phdrs phdr →
    (final.memmap pid).dataLinBase = phdr.vaddr ∧ (final.memmap pid).dataLinLimit = phdr.vaddr + phdr.memsz

theorem Exec.Phdr.Fits.limit {phdr : Exec.Phdr} (fits : phdr.Fits) :
    add32 phdr.vaddr phdr.memsz = phdr.vaddr + phdr.memsz := by
  have high := fits.memory
  unfold kernelLinBase at high
  unfold add32
  omega

/-- The byte at an address after the stores, if it is known. -/
def latest (before : Option Byte) (stored : List (Nat × Byte)) (lin : Nat) : Option Byte :=
  overwrite (fun entry => entry.1 = lin) (fun entry => some entry.2) before stored

/-- Memory in the middle of a call that started in `start` and has stored some bytes, with
frames for the pages that may still be missing. -/
structure Underlaid (dirs : List Nat) (start : PageState) (pid : Nat) (pages : Finset Nat) (stored : List (Nat × Byte))
    (state : PageState) : Prop where
  own : OwnPages dirs pid state
  supplies : SuppliesFor state (state.cr3 pid) pages
  grown : Grown start pid pages state
  bytes : ∀ lin < kernelLinBase, ∀ byte, latest (userByte start pid lin) stored lin = some byte →
    userByte state pid lin = some byte

section

variable {dirs : List Nat} {start : PageState} {pid : Nat} {pages : Finset Nat} {stored : List (Nat × Byte)}

theorem Underlaid.congr {state next : PageState} (held : Underlaid dirs start pid pages stored state)
    (mem : next.mem = state.mem) (man : next.man = state.man) (cr3 : next.cr3 = state.cr3) :
    Underlaid dirs start pid pages stored next := by
  refine ⟨held.own.congr mem man cr3, ?_, held.grown.congr mem man cr3, fun lin below byte known => ?_⟩
  · rw [cr3]
    exact held.supplies.congr mem man
  · rw [userByte_congr mem cr3]
    exact held.bytes lin below byte known

variable (inside : ∀ page ∈ pages, page < 1048576)

include inside

theorem Underlaid.linMapping {state : ExecState} {lin attr : Nat}
    (held : Underlaid dirs start pid pages stored state.kernel.pages) (below : lin < kernelLinBase)
    (member : lin / 4096 ∈ pages) (small : attr < 4096) (odd : attr % 2 = 1) :
    ∃ after, (Exec.linMapping lin attr).run (execHandler memory cpu pid) state = some (after, 0) ∧
      after.kernel.tasks = state.kernel.tasks ∧ Underlaid dirs start pid pages stored after.kernel.pages ∧
      ∃ found, after.kernel.pages.entry (after.kernel.pages.cr3 pid) (lin / 4096) = some found := by
  obtain ⟨next, moved, supplies⟩ : ∃ next, mapUserPage pid pid attr state.kernel.pages lin = some next ∧
      SuppliesFor next (state.kernel.pages.cr3 pid) pages :=
    mapUserPage_supplied held.own.tables held.own.trusted held.own.alive small odd below inside member held.supplies
  obtain ⟨keeps, found, isFound⟩ := held.own.map below small odd moved
  have cr3 : (Kernel.settle state.kernel.tasks next).pages.cr3 = next.cr3 := keeps.cr3.symm
  have nextHeld : Underlaid dirs start pid pages stored next := by
    refine ⟨keeps.pages, ?_, held.grown.map below member held.own moved keeps, fun other otherBelow byte known => ?_⟩
    · rw [keeps.cr3]
      exact supplies
    · exact keeps.bytes other otherBelow byte (held.bytes other otherBelow byte known)
  refine ⟨{ state with kernel := .settle state.kernel.tasks next }, ?_, rfl, nextHeld.congr rfl rfl cr3, found, ?_⟩
  · have handled : execHandler memory cpu pid state (.linMapping lin attr) =
        some ({ state with kernel := .settle state.kernel.tasks next }, (0 : Int)) := by
      have moved : state.kernel.pages.mapOk pid lin failed pid (pgP + pgUsu + pgRww) attr = some next := moved
      simp only [execHandler, moved, Option.map_some]
      rfl
    exact Program.run_perform handled
  · rw [cr3]
    exact isFound

theorem Underlaid.store {state : ExecState} {lin : Nat}
    (held : Underlaid dirs start pid pages stored state.kernel.pages) (below : lin < kernelLinBase)
    (present : ∃ found, state.kernel.pages.entry (state.kernel.pages.cr3 pid) (lin / 4096) = some found) (byte : Byte) :
    ∃ after, (Exec.store lin byte).run (execHandler memory cpu pid) state = some (after, ()) ∧
      after.kernel.tasks = state.kernel.tasks ∧
      Underlaid dirs start pid pages (stored ++ [(lin, byte)]) after.kernel.pages := by
  obtain ⟨⟨frame, attr⟩, found⟩ := present
  have address : lin < 4294967296 := Nat.lt_trans below (by decide)
  have accessed : state.kernel.pages.kernelAccess pid lin 3 = some state.kernel.pages :=
    kernelAccess_present held.own.tables held.own.alive address found
  have isFrame := pagePhyAddr_eq held.own.tables held.own.alive (by omega) found
  obtain ⟨own, bytes⟩ := held.own.store below found byte
  have supplies := SuppliesFor.store held.own below found byte inside held.supplies
  refine ⟨⟨.settle state.kernel.tasks (state.kernel.pages.storeByte (frame + lin % 4096) byte), state.position⟩, ?_,
    rfl, ?_⟩
  · have handled : execHandler memory cpu pid state (.store lin byte) =
        some (⟨.settle state.kernel.tasks (state.kernel.pages.storeByte (frame + lin % 4096) byte), state.position⟩, ()) := by
      simp only [execHandler, accessed, Option.map_some, isFrame]
      rfl
    exact Program.run_perform handled
  · have nextHeld : Underlaid dirs start pid pages (stored ++ [(lin, byte)])
        (state.kernel.pages.storeByte (frame + lin % 4096) byte) := by
      refine ⟨own, supplies, held.grown.store held.own below found byte, fun other otherBelow value known => ?_⟩
      unfold latest at known
      rw [overwrite_concat] at known
      rw [bytes other otherBelow]
      by_cases here : lin = other
      · rw [if_pos here] at known
        rw [if_pos here.symm]
        exact known
      · rw [if_neg here] at known
        rw [if_neg (Ne.symm here)]
        exact held.bytes other otherBelow value known
    exact nextHeld.congr rfl rfl rfl

omit inside in
theorem Underlaid.updatePcb {state : ExecState} {change : Pcb → Pcb}
    (held : Underlaid dirs start pid pages stored state.kernel.pages) (keeps : ∀ pcb, (change pcb).cr3 = pcb.cr3) :
    ∃ after, (Exec.updatePcb change).run (execHandler memory cpu pid) state = some (after, ()) ∧
      after.kernel.tasks.table pid = change (state.kernel.tasks.table pid) ∧
      Underlaid dirs start pid pages stored after.kernel.pages := by
  refine ⟨⟨{ state.kernel with tasks := state.kernel.tasks.modify pid change }, state.position⟩, rfl, ?_, ?_⟩
  · simp [Tasks.modify]
  · refine held.congr rfl rfl (funext fun i => ?_)
    by_cases own : i = pid
    · subst own
      simp [Kernel.pages, Tasks.modify, keeps]
    · simp [Kernel.pages, Tasks.modify, own]

/-- What a call keeps in the middle of `exec_load`. -/
theorem Underlaid.loads : Loads memory cpu pid (fun lin => lin < kernelLinBase ∧ lin / 4096 ∈ pages)
    (fun stored pcb state => state.kernel.tasks.table pid = pcb ∧
      Underlaid dirs start pid pages stored state.kernel.pages) where
  round {stored pcb state lin attr} held may small odd := by
    obtain ⟨isPcb, under⟩ := held
    obtain ⟨below, member⟩ := may
    obtain ⟨mapped, ran, mappedTasks, mappedHeld, present⟩ := under.linMapping inside below member small odd
    refine ⟨mapped, ran, fun byte position => ?_⟩
    have again : Underlaid dirs start pid pages stored (ExecState.mk mapped.kernel position).kernel.pages := mappedHeld
    obtain ⟨after, isStored, storedTasks, storedHeld⟩ := again.store inside below present byte
    refine ⟨after, isStored, ?_, storedHeld⟩
    rw [storedTasks, ← isPcb]
    exact congrArg (fun tasks => tasks.table pid) mappedTasks
  note {stored pcb state change} held keeps := by
    obtain ⟨isPcb, under⟩ := held
    obtain ⟨after, ran, afterPcb, afterHeld⟩ := under.updatePcb keeps
    exact ⟨after, ran, by rw [afterPcb, isPcb], afterHeld⟩

end

/-! ## The image -/

/-- What the notes leave in a part of the PCB that one kind of segments writes. -/
theorem noted_eq {kind : Exec.Phdr → Prop} [DecidablePred kind] {phdrs : List Exec.Phdr} {A : Type} (field : Pcb → A)
    (value : Exec.Phdr → A)
    (notes : ∀ phdr ∈ phdrs, ∀ pcb, field (Exec.note pcb phdr) = if kind phdr then value phdr else field pcb)
    (pcb : Pcb) : field (phdrs.foldl Exec.note pcb) = overwrite kind value (field pcb) phdrs := by
  induction phdrs generalizing pcb with
  | nil => rfl
  | cons first rest ih =>
      rw [List.foldl_cons, ih fun other member => notes other (List.mem_cons_of_mem _ member),
        notes first (List.mem_cons_self ..)]
      rfl

def Exec.textOf (pcb : Pcb) : Nat × Nat := (pcb.memmap.textLinBase, pcb.memmap.textLinLimit)

def Exec.dataOf (pcb : Pcb) : Nat × Nat := (pcb.memmap.dataLinBase, pcb.memmap.dataLinLimit)

def Exec.Phdr.region (phdr : Exec.Phdr) : Nat × Nat := (phdr.vaddr, add32 phdr.vaddr phdr.memsz)

/-- A segment of text moves the text, and one of data moves the data. -/
theorem textNoted (phdrs : List Exec.Phdr) (pcb : Pcb) :
    Exec.textOf (phdrs.foldl Exec.note pcb) =
      overwrite (fun phdr => phdr.flags = 5) Exec.Phdr.region (Exec.textOf pcb) phdrs := by
  refine noted_eq Exec.textOf Exec.Phdr.region (fun phdr _ pcb => ?_) pcb
  unfold Exec.note
  split
  next => rfl
  next => rfl

theorem dataNoted {phdrs : List Exec.Phdr} (known : ∀ phdr ∈ phdrs, phdr.Known) (pcb : Pcb) :
    Exec.dataOf (phdrs.foldl Exec.note pcb) =
      overwrite (fun phdr => phdr.flags = 6) Exec.Phdr.region (Exec.dataOf pcb) phdrs := by
  refine noted_eq Exec.dataOf Exec.Phdr.region (fun phdr member pcb => ?_) pcb
  unfold Exec.note
  by_cases text : phdr.flags = 5
  · rw [if_pos text, if_neg (by omega)]
    rfl
  · rw [if_neg text, if_pos ((known phdr member).resolve_left text)]
    rfl

section

variable {dirs : List Nat} {kernel : Kernel} {pid position : Nat}

end

end AempOS.Task
