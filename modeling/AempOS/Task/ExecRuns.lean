import Mathlib.Data.List.TakeWhile
import AempOS.Task.ExecMemory

/-! The parts of `sys_exec` run: `read_elf` reads the headers of an image that has room for
them, and `exec_load` loads the segments one after the other. What holds of the kernel in
the middle of `exec_load`, with the bytes stored so far, is the business of its callers:
they say what one round of `exec_elfcpy` and one note in the PCB keep. -/

set_option autoImplicit false

namespace AempOS.Task

open Lib Memory

variable {memory : Buffer} {cpu pid : Nat}

/-! ## Headers -/

namespace Exec

/-- The headers before the first one with `p_memsz = 0`. -/
def described (phdrs : List Phdr) : List Phdr := phdrs.takeWhile fun phdr => phdr.memsz ≠ 0

/-- The segment is text or data. -/
def Phdr.Known (phdr : Phdr) : Prop := phdr.flags = 5 ∨ phdr.flags = 6

instance (phdr : Phdr) : Decidable phdr.Known := inferInstanceAs (Decidable (_ ∨ _))

/-- The segments that `exec_load` loads, and its result. -/
def loaded (phdrs : List Phdr) : List Phdr := (described phdrs).takeWhile fun phdr => phdr.Known

def loadResult (phdrs : List Phdr) : Int := if ∀ phdr ∈ described phdrs, phdr.Known then 0 else -1

theorem described_empty {phdr : Phdr} (rest : List Phdr) (empty : phdr.memsz = 0) : described (phdr :: rest) = [] := by
  simp [described, empty]

theorem described_more {phdr : Phdr} (rest : List Phdr) (some : phdr.memsz ≠ 0) :
    described (phdr :: rest) = phdr :: described rest := by
  simp [described, some]

/-- What `exec_load` writes to the memory map for a segment. -/
def note (pcb : Pcb) (phdr : Phdr) : Pcb :=
  if phdr.flags = 5 then setText phdr pcb else setData phdr pcb

end Exec

/-! ## `read_elf` -/

section

variable {kernel : Kernel} {position : Nat}

theorem readPhdrs_runs (ehdr : Exec.Ehdr) {rounds i : Nat} (few : i + rounds ≤ headerMax) :
    ∃ last, (Exec.readPhdrs ehdr rounds i).run (execHandler memory cpu pid) ⟨kernel, position⟩ =
      some (⟨kernel, last⟩, (List.range' i rounds).map (imagePhdr memory cpu ehdr)) := by
  induction rounds generalizing i position with
  | zero => exact ⟨position, rfl⟩
  | succ rounds ih =>
      have read : (Exec.readPhdr (add32 ehdr.phoff (ehdr.phentsize * i))).run (execHandler memory cpu pid)
          ⟨kernel, position⟩ = some (⟨kernel, add32 (add32 ehdr.phoff (ehdr.phentsize * i)) phdrSize⟩,
            imagePhdr memory cpu ehdr i) := rfl
      have few : i + 1 + rounds ≤ headerMax := by omega
      obtain ⟨last, rest⟩ := ih few
      refine ⟨last, ?_⟩
      rw [Exec.readPhdrs, Program.run_then read, if_neg (by omega), Program.run_then rest, List.range'_succ, List.map_cons]
      rfl

theorem readShdrs_runs (ehdr : Exec.Ehdr) {rounds i : Nat} (few : i + rounds ≤ headerMax) :
    ∃ last, (Exec.readShdrs ehdr rounds i).run (execHandler memory cpu pid) ⟨kernel, position⟩ =
      some (⟨kernel, last⟩, ()) := by
  induction rounds generalizing i position with
  | zero => exact ⟨position, rfl⟩
  | succ rounds ih =>
      have read : (Exec.readShdr (add32 ehdr.shoff (ehdr.shentsize * i))).run (execHandler memory cpu pid)
          ⟨kernel, position⟩ = some (⟨kernel, add32 (add32 ehdr.shoff (ehdr.shentsize * i)) shdrSize⟩, ()) := rfl
      have few : i + 1 + rounds ≤ headerMax := by omega
      obtain ⟨last, rest⟩ := ih few
      refine ⟨last, ?_⟩
      rw [Exec.readShdrs, Program.run_then read, if_neg (by omega), rest]

/-- An image whose headers fit their arrays is read, and the position moves. -/
theorem readElf_runs (phnum : (imageEhdr memory cpu).phnum ≤ headerMax)
    (shnum : (imageEhdr memory cpu).shnum ≤ headerMax) :
    ∃ last, Exec.readElf.run (execHandler memory cpu pid) ⟨kernel, position⟩ =
      some (⟨kernel, last⟩, (imageEhdr memory cpu, imagePhdrs memory cpu)) := by
  have read : (Exec.readEhdr 0).run (execHandler memory cpu pid) ⟨kernel, position⟩ =
      some (⟨kernel, add32 0 ehdrSize⟩, imageEhdr memory cpu) := rfl
  obtain ⟨middle, segments⟩ : ∃ middle, (Exec.readPhdrs (imageEhdr memory cpu) (imageEhdr memory cpu).phnum 0).run
      (execHandler memory cpu pid) ⟨kernel, add32 0 ehdrSize⟩ = some (⟨kernel, middle⟩, imagePhdrs memory cpu) :=
    readPhdrs_runs _ (by omega)
  obtain ⟨last, sections⟩ : ∃ last, (Exec.readShdrs (imageEhdr memory cpu) (imageEhdr memory cpu).shnum 0).run
      (execHandler memory cpu pid) ⟨kernel, middle⟩ = some (⟨kernel, last⟩, ()) :=
    readShdrs_runs _ (by omega)
  refine ⟨last, ?_⟩
  rw [Exec.readElf, Program.run_then read, Program.run_then segments, Program.run_then sections]
  rfl

end

/-! ## `exec_load` -/

/-- What one round of `exec_elfcpy` and one note keep of a kernel in the middle of
`exec_load`, with the bytes stored so far and the PCB of the caller. -/
structure Loads (memory : Buffer) (cpu pid : Nat) (may : Nat → Prop)
    (holds : List (Nat × Byte) → Pcb → ExecState → Prop) : Prop where
  round : ∀ {stored pcb state lin attr}, holds stored pcb state → may lin → attr < 4096 → attr % 2 = 1 →
    ∃ mapped, (Exec.linMapping lin attr).run (execHandler memory cpu pid) state = some (mapped, 0) ∧
      ∀ byte position, ∃ after,
        (Exec.store lin byte).run (execHandler memory cpu pid) ⟨mapped.kernel, position⟩ = some (after, ()) ∧
          holds (stored ++ [(lin, byte)]) pcb after
  note : ∀ {stored pcb state} {change : Pcb → Pcb}, holds stored pcb state → (∀ pcb, (change pcb).cr3 = pcb.cr3) →
    ∃ after, (Exec.updatePcb change).run (execHandler memory cpu pid) state = some (after, ()) ∧
      holds stored (change pcb) after

namespace Loads

variable {may : Nat → Prop} {holds : List (Nat × Byte) → Pcb → ExecState → Prop} {stored : List (Nat × Byte)} {pcb : Pcb}
  {state : ExecState} (loads : Loads memory cpu pid may holds)

include loads

/-- The rounds of `exec_elfcpy`. -/
theorem elfcpy {attr fileLimit rounds lin fileOffset : Nat} (held : holds stored pcb state) (small : attr < 4096)
    (odd : attr % 2 = 1) (within : ∀ entry ∈ copiedBytes memory cpu fileLimit rounds lin fileOffset, may entry.1) :
    ∃ after, (Exec.elfcpy attr fileLimit rounds lin fileOffset).run (execHandler memory cpu pid) state =
      some (after, ()) ∧ holds (stored ++ copiedBytes memory cpu fileLimit rounds lin fileOffset) pcb after := by
  induction rounds generalizing state stored lin fileOffset with
  | zero => exact ⟨state, rfl, by simpa [copiedBytes] using held⟩
  | succ rounds ih =>
      rw [copiedBytes] at within ⊢
      obtain ⟨mapped, isMapped, stores⟩ := loads.round held (within _ (List.mem_cons_self ..)) small odd
      have rest : ∀ (byte : Byte) (position : Nat),
          ∃ after, (Exec.store lin byte >>= fun _ => Exec.elfcpy attr fileLimit rounds (lin + 1) (add32 fileOffset 1)).run
            (execHandler memory cpu pid) ⟨mapped.kernel, position⟩ = some (after, ()) ∧
            holds (stored ++ ((lin, byte) :: copiedBytes memory cpu fileLimit rounds (lin + 1) (add32 fileOffset 1))) pcb
              after := by
        intro byte position
        obtain ⟨written, isWritten, writtenHeld⟩ := stores byte position
        obtain ⟨after, ran, afterHeld⟩ := ih writtenHeld fun entry inRest => within entry (List.mem_cons_of_mem _ inRest)
        refine ⟨after, ?_, ?_⟩
        · rw [Program.run_then isWritten]
          exact ran
        · rw [List.append_assoc] at afterHeld
          exact afterHeld
      rw [Exec.elfcpy, Program.run_then isMapped]
      split
      next =>
          have read : (Exec.readAt fileOffset 1).run (execHandler memory cpu pid) mapped =
              some (⟨mapped.kernel, add32 fileOffset 1⟩, imageBytes memory cpu fileOffset 1) := rfl
          rw [Program.run_then read]
          exact rest _ _
      next => exact rest 0 mapped.position

/-- A segment is loaded and noted down, and what follows goes on from there. -/
theorem segment {phdr : Exec.Phdr} {attr : Nat} {change : Pcb → Pcb} (held : holds stored pcb state) (small : attr < 4096)
    (odd : attr % 2 = 1) (keeps : ∀ pcb, (change pcb).cr3 = pcb.cr3)
    (within : ∀ entry ∈ segmentBytes memory cpu phdr, may entry.1) :
    ∃ after, (∀ rest : ExecProgram Int, (do
          Exec.execElfcpy phdr attr
          Exec.updatePcb change
          rest).run (execHandler memory cpu pid) state = rest.run (execHandler memory cpu pid) after) ∧
      holds (stored ++ segmentBytes memory cpu phdr) (change pcb) after := by
  obtain ⟨copied, isCopied, copiedHeld⟩ : ∃ copied,
      (Exec.execElfcpy phdr attr).run (execHandler memory cpu pid) state = some (copied, ()) ∧
        holds (stored ++ segmentBytes memory cpu phdr) pcb copied := loads.elfcpy held small odd within
  obtain ⟨noted, isNoted, notedHeld⟩ := loads.note copiedHeld keeps
  refine ⟨noted, fun rest => ?_, notedHeld⟩
  rw [Program.run_then isCopied, Program.run_then isNoted]

/-- The loop of `exec_load` loads the segments up to the first one that is empty or of
another kind. -/
theorem loadSegments {phdrs : List Exec.Phdr} (stored : List (Nat × Byte)) (pcb : Pcb) (held : holds stored pcb state)
    (within : ∀ entry ∈ segmentsBytes memory cpu phdrs, may entry.1) :
    ∃ after, (Exec.loadSegments phdrs).run (execHandler memory cpu pid) state = some (after, Exec.loadResult phdrs) ∧
      holds (stored ++ segmentsBytes memory cpu phdrs) ((Exec.loaded phdrs).foldl Exec.note pcb) after := by
  induction phdrs generalizing state stored pcb with
  | nil => exact ⟨state, rfl, by simpa [segmentsBytes, Exec.loaded, Exec.described] using held⟩
  | cons phdr rest ih =>
      unfold Exec.loadSegments
      unfold segmentsBytes at within ⊢
      by_cases empty : phdr.memsz = 0
      · have nothing := Exec.described_empty rest empty
        rw [if_pos empty, if_pos empty, Exec.loaded, Exec.loadResult, nothing, List.append_nil]
        exact ⟨state, rfl, held⟩
      have more := Exec.described_more rest empty
      rw [if_neg empty] at within ⊢
      rw [if_neg empty]
      by_cases known : phdr.Known
      · have isLoaded : Exec.loaded (phdr :: rest) = phdr :: Exec.loaded rest := by
          simp [Exec.loaded, more, known]
        have isResult : Exec.loadResult (phdr :: rest) = Exec.loadResult rest := by
          simp [Exec.loadResult, more, known]
        have flags : phdr.flags = 5 ∨ phdr.flags = 6 := known
        rw [if_pos flags] at within ⊢
        rw [isLoaded, isResult]
        have segment : ∀ (attr : Nat) (change : Pcb → Pcb), attr < 4096 → attr % 2 = 1 →
            (∀ pcb, (change pcb).cr3 = pcb.cr3) → (∀ pcb, Exec.note pcb phdr = change pcb) →
            ∃ after, (do
                Exec.execElfcpy phdr attr
                Exec.updatePcb change
                Exec.loadSegments rest).run (execHandler memory cpu pid) state = some (after, Exec.loadResult rest) ∧
              holds (stored ++ (segmentBytes memory cpu phdr ++ segmentsBytes memory cpu rest))
                ((phdr :: Exec.loaded rest).foldl Exec.note pcb) after := by
          intro attr change small odd keeps isNote
          obtain ⟨noted, follows, notedHeld⟩ := loads.segment held small odd keeps fun entry member =>
            within entry (List.mem_append_left _ member)
          obtain ⟨after, ran, afterHeld⟩ := ih _ _ notedHeld fun entry member =>
            within entry (List.mem_append_right _ member)
          refine ⟨after, (follows _).trans ran, ?_⟩
          rw [← List.append_assoc, List.foldl_cons, isNote]
          exact afterHeld
        by_cases text : phdr.flags = 5
        · rw [if_pos text]
          exact segment _ _ (by decide) (by decide) (fun _ => rfl) fun _ => if_pos text
        · rw [if_neg text, if_pos (flags.resolve_left text)]
          exact segment _ _ (by decide) (by decide) (fun _ => rfl) fun _ => if_neg text
      · have isLoaded : Exec.loaded (phdr :: rest) = [] := by simp [Exec.loaded, more, known]
        have isResult : Exec.loadResult (phdr :: rest) = -1 := by simp [Exec.loadResult, more, known]
        have others : ¬(phdr.flags = 5 ∨ phdr.flags = 6) := known
        rw [if_neg others, isLoaded, isResult, if_neg fun text => others (.inl text),
          if_neg fun data => others (.inr data), List.append_nil]
        exact ⟨state, rfl, held⟩

end Loads

end AempOS.Task
