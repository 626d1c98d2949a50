import AempOS.Task.ExecMemory

/-! What a call of `sys_exec` reads and stores, whatever it finds: the image is read as it
is, and the bytes of its segments are stored in order, each to a page that the call
mapped before. -/

set_option autoImplicit false

namespace AempOS.Task

open Lib Memory

variable {memory : Buffer} {cpu : Nat}

/-! ## What a call loads -/

/-- The position in the file, the pages that were mapped, and the bytes that were stored. -/
structure ExecMode where
  position : Nat
  mapped : Nat → Prop
  stored : List (Nat × Byte)

/-- The image is read as it is; bytes are stored at some addresses only, and to pages
that were mapped before. -/
def loadDiscipline (memory : Buffer) (cpu : Nat) (may : Nat → Prop) : Discipline ExecMode ExecOp ExecOp.Reply where
  allows mode op :=
    match op with
    | .linMapping lin attr => lin < 4294967296 ∧ attr < 4096 ∧ attr % 2 = 1
    | .store lin _ => may lin ∧ mode.mapped (lin / 4096)
    | .updatePcb change => ∀ pcb, (change pcb).cr3 = pcb.cr3
    | _ => True
  moves mode op reply after :=
    match op with
    | .fakeOpen => after = { mode with position := 0 }
    | .fakeSeek pos => after = { mode with position := pos }
    | .fakeRead size =>
        reply = imageBytes memory cpu mode.position size ∧
          after = { mode with position := add32 mode.position size }
    | .linMapping lin _ => after = { mode with mapped := fun page => page = lin / 4096 ∨ mode.mapped page }
    | .store lin byte => after = { mode with stored := mode.stored ++ [(lin, byte)] }
    | _ => after = mode

section

variable {may : Nat → Prop} {mode : ExecMode}

/-- The program keeps the discipline and stores `bytes`; what it returns meets `post`. -/
def Stores {A : Type} (memory : Buffer) (cpu : Nat) (may : Nat → Prop) (program : ExecProgram A) (mode : ExecMode)
    (bytes : List (Nat × Byte)) (post : A → Prop) : Prop :=
  program.Keeps (loadDiscipline memory cpu may)
    (fun result after => post result ∧ after.stored = mode.stored ++ bytes) mode

namespace Stores

variable {A B : Type} {post : A → Prop} {after : A → ExecProgram B} {bytes more : List (Nat × Byte)}

theorem pure {result : A} (holds : post result) :
    Stores memory cpu may (Pure.pure result : ExecProgram A) mode [] post :=
  ⟨holds, (List.append_nil _).symm⟩

theorem bind {program : ExecProgram A} {last : B → Prop} (first : Stores memory cpu may program mode bytes post)
    (second : ∀ result next, post result → next.stored = mode.stored ++ bytes →
      Stores memory cpu may (after result) next more last) :
    Stores memory cpu may (program >>= after) mode (bytes ++ more) last := by
  refine Program.Keeps.bind (first.mono fun result next ended => ?_)
  obtain ⟨holds, stored⟩ := ended
  refine (second result next holds stored).mono fun result final ended => ⟨ended.1, ?_⟩
  rw [ended.2, stored, List.append_assoc]

/-- A part that stores nothing. -/
theorem silent {program : ExecProgram A} {last : B → Prop} (first : Stores memory cpu may program mode [] post)
    (second : ∀ result next, post result → next.stored = mode.stored →
      Stores memory cpu may (after result) next more last) :
    Stores memory cpu may (program >>= after) mode more last :=
  bind first fun result next holds stored => second result next holds (stored.trans (List.append_nil _))

theorem mono {program : ExecProgram A} {other : A → Prop} (stores : Stores memory cpu may program mode bytes post)
    (weaker : ∀ result, post result → other result) : Stores memory cpu may program mode bytes other :=
  Program.Keeps.mono stores fun result _ ended => ⟨weaker result ended.1, ended.2⟩

theorem overrun : Stores memory cpu may (Exec.overrun : ExecProgram A) mode bytes post :=
  ⟨trivial, fun reply => reply.elim⟩

theorem readAt (offset size : Nat) : Stores memory cpu may (Exec.readAt offset size) mode []
    (fun bytes => bytes = imageBytes memory cpu offset size) := by
  refine ⟨trivial, fun _ sought moved => ⟨trivial, fun reply after read => ?_⟩⟩
  have moved : sought = { mode with position := offset } := moved
  subst moved
  obtain ⟨isReply, rfl⟩ := read
  exact ⟨isReply, (List.append_nil _).symm⟩

theorem updatePcb {change : Pcb → Pcb} (keeps : ∀ pcb, (change pcb).cr3 = pcb.cr3) :
    Stores memory cpu may (Exec.updatePcb change) mode [] (fun _ => True) := by
  refine ⟨keeps, fun _ after moved => ⟨trivial, ?_⟩⟩
  have moved : after = mode := moved
  rw [moved, List.append_nil]

theorem linMapping {lin attr : Nat} (address : lin < 4294967296) (small : attr < 4096) (odd : attr % 2 = 1) :
    Stores memory cpu may (Exec.linMapping lin attr) mode [] (fun _ => True) := by
  refine ⟨⟨address, small, odd⟩, fun _ after moved => ⟨trivial, ?_⟩⟩
  have moved : after = { mode with mapped := fun page => page = lin / 4096 ∨ mode.mapped page } := moved
  rw [moved, List.append_nil]

theorem readPhdrs (ehdr : Exec.Ehdr) (rounds i : Nat) : Stores memory cpu may (Exec.readPhdrs ehdr rounds i) mode []
    (fun phdrs => phdrs = (List.range' i rounds).map (imagePhdr memory cpu ehdr)) := by
  induction rounds generalizing i mode with
  | zero => exact pure rfl
  | succ rounds ih =>
      have read : Stores memory cpu may (Exec.readPhdr (add32 ehdr.phoff (ehdr.phentsize * i))) mode []
          (fun phdr => phdr = imagePhdr memory cpu ehdr i) :=
        silent (readAt _ _) fun bytes _ isBytes _ => pure (isBytes ▸ rfl)
      refine silent read fun phdr next isPhdr _ => ?_
      split
      next => exact overrun
      next =>
          refine silent (ih (i + 1)) fun phdrs _ isRest _ => pure ?_
          rw [isPhdr, isRest, List.range'_succ, List.map_cons]

theorem readShdrs (ehdr : Exec.Ehdr) (rounds i : Nat) :
    Stores memory cpu may (Exec.readShdrs ehdr rounds i) mode [] (fun _ => True) := by
  induction rounds generalizing i mode with
  | zero => exact pure trivial
  | succ rounds ih =>
      have read : Stores memory cpu may (Exec.readShdr (add32 ehdr.shoff (ehdr.shentsize * i))) mode []
          (fun _ => True) :=
        silent (readAt _ _) fun _ _ _ _ => pure trivial
      refine silent read fun _ next _ _ => ?_
      split
      next => exact overrun
      next => exact ih (i + 1)

theorem readElf : Stores memory cpu may Exec.readElf mode []
    (fun result => result = (imageEhdr memory cpu, imagePhdrs memory cpu)) := by
  have read : Stores memory cpu may (Exec.readEhdr 0) mode [] (fun ehdr => ehdr = imageEhdr memory cpu) :=
    silent (readAt _ _) fun bytes _ isBytes _ => pure (isBytes ▸ rfl)
  refine silent read fun ehdr _ isEhdr _ => ?_
  subst isEhdr
  refine silent (readPhdrs _ _ _) fun phdrs _ isPhdrs _ => ?_
  exact silent (readShdrs _ _ _) fun _ _ _ _ => pure (isPhdrs ▸ rfl)

/-- The rounds of `exec_elfcpy`: every byte goes to a page that its round mapped. -/
theorem elfcpy {attr fileLimit rounds lin fileOffset : Nat} (small : attr < 4096) (odd : attr % 2 = 1)
    (address : lin + rounds ≤ 4294967296)
    (allowed : ∀ other byte, (other, byte) ∈ copiedBytes memory cpu fileLimit rounds lin fileOffset → may other) :
    Stores memory cpu may (Exec.elfcpy attr fileLimit rounds lin fileOffset) mode
      (copiedBytes memory cpu fileLimit rounds lin fileOffset) (fun _ => True) := by
  induction rounds generalizing mode lin fileOffset with
  | zero => exact pure trivial
  | succ rounds ih =>
      have mayLin : may lin := allowed lin _ (List.mem_cons_self ..)
      have rest : ∀ byte (next : ExecMode), next.mapped (lin / 4096) → next.stored = mode.stored →
          Program.Keeps (loadDiscipline memory cpu may)
            (fun _ after => True ∧ after.stored = mode.stored ++ ((lin, byte) ::
              copiedBytes memory cpu fileLimit rounds (lin + 1) (add32 fileOffset 1))) next
            (Exec.store lin byte >>= fun _ => Exec.elfcpy attr fileLimit rounds (lin + 1) (add32 fileOffset 1)) := by
        intro byte next mapped stored
        refine ⟨⟨mayLin, mapped⟩, fun _ after moved => ?_⟩
        have moved : after = { next with stored := next.stored ++ [(lin, byte)] } := moved
        subst moved
        have later : Stores memory cpu may (Exec.elfcpy attr fileLimit rounds (lin + 1) (add32 fileOffset 1))
            { next with stored := next.stored ++ [(lin, byte)] }
            (copiedBytes memory cpu fileLimit rounds (lin + 1) (add32 fileOffset 1)) (fun _ => True) :=
          ih (by omega) fun other byte member => allowed other byte (List.mem_cons_of_mem _ member)
        refine Program.Keeps.mono later fun _ last ended => ⟨trivial, ?_⟩
        simpa [stored] using ended.2
      refine ⟨⟨by omega, small, odd⟩, fun _ linked moved => ?_⟩
      have moved : linked = { mode with mapped := fun page => page = lin / 4096 ∨ mode.mapped page } := moved
      subst moved
      simp only [copiedBytes]
      split
      next inFile =>
          refine ⟨trivial, fun _ sought moved => ⟨trivial, fun reply read reading => ?_⟩⟩
          have moved : sought = { mode with
            position := fileOffset, mapped := fun page => page = lin / 4096 ∨ mode.mapped page } := moved
          subst moved
          obtain ⟨isReply, rfl⟩ := reading
          have isReply : reply = imageBytes memory cpu fileOffset 1 := isReply
          subst isReply
          exact rest _ _ (.inl rfl) rfl
      next => exact rest 0 _ (.inl rfl) rfl

theorem execElfcpy {attr : Nat} {phdr : Exec.Phdr} (small : attr < 4096) (odd : attr % 2 = 1)
    (allowed : ∀ other byte, (other, byte) ∈ segmentBytes memory cpu phdr → may other) (base : phdr.vaddr < 4294967296) :
    Stores memory cpu may (Exec.execElfcpy phdr attr) mode (segmentBytes memory cpu phdr) (fun _ => True) := by
  refine elfcpy small odd ?_ allowed
  unfold add32
  omega

theorem loadSegments {phdrs : List Exec.Phdr} (bases : ∀ phdr ∈ phdrs, phdr.vaddr < 4294967296)
    (allowed : ∀ other byte, (other, byte) ∈ segmentsBytes memory cpu phdrs → may other) :
    Stores memory cpu may (Exec.loadSegments phdrs) mode (segmentsBytes memory cpu phdrs) (fun _ => True) := by
  induction phdrs generalizing mode with
  | nil => exact pure trivial
  | cons phdr rest ih =>
      unfold Exec.loadSegments
      unfold segmentsBytes at allowed ⊢
      by_cases empty : phdr.memsz = 0
      · simp only [if_pos empty]
        exact pure trivial
      · simp only [if_neg empty] at allowed ⊢
        have base := bases phdr (List.mem_cons_self ..)
        have isRest := fun phdr member => bases phdr (List.mem_cons_of_mem _ member)
        by_cases text : phdr.flags = 5
        · simp only [if_pos text, if_pos (Or.inl text : phdr.flags = 5 ∨ phdr.flags = 6)] at allowed ⊢
          refine bind (execElfcpy (by decide) (by decide) (fun other byte member => ?_) base) fun _ _ _ _ => ?_
          · exact allowed other byte (List.mem_append_left _ member)
          · refine silent (updatePcb fun _ => rfl) fun _ _ _ _ => ?_
            exact ih isRest fun other byte member => allowed other byte (List.mem_append_right _ member)
        · by_cases data : phdr.flags = 6
          · simp only [if_neg text, if_pos data, if_pos (Or.inr data : phdr.flags = 5 ∨ phdr.flags = 6)] at allowed ⊢
            refine bind (execElfcpy (by decide) (by decide) (fun other byte member => ?_) base) fun _ _ _ _ => ?_
            · exact allowed other byte (List.mem_append_left _ member)
            · refine silent (updatePcb fun _ => rfl) fun _ _ _ _ => ?_
              exact ih isRest fun other byte member => allowed other byte (List.mem_append_right _ member)
          · simp only [if_neg text, if_neg data, if_neg (not_or.mpr ⟨text, data⟩)]
            exact pure trivial

theorem mapStack {lins : List Nat} (addresses : ∀ lin ∈ lins, lin < 4294967296) :
    Stores memory cpu may (Exec.mapStack lins) mode [] (fun _ => True) := by
  induction lins generalizing mode with
  | nil => exact pure trivial
  | cons lin rest ih =>
      refine silent (linMapping (addresses lin (List.mem_cons_self ..)) (by decide) (by decide)) fun result _ _ _ => ?_
      split
      next => exact pure trivial
      next => exact ih fun lin member => addresses lin (List.mem_cons_of_mem _ member)

theorem sysExec (path : Option String) (allowed : ∀ lin byte, (lin, byte) ∈ loadedBytes memory cpu path → may lin) :
    Stores memory cpu may (Exec.sysExec path) mode (loadedBytes memory cpu path) (fun _ => True) := by
  cases path with
  | none => exact pure trivial
  | some path =>
      have opened : Stores memory cpu may Exec.fakeOpen mode [] (fun _ => True) := by
        refine ⟨trivial, fun _ after moved => ⟨trivial, ?_⟩⟩
        have moved : after = { mode with position := 0 } := moved
        rw [moved, List.append_nil]
      have bases : ∀ phdr ∈ imagePhdrs memory cpu, phdr.vaddr < 4294967296 := by
        intro phdr member
        obtain ⟨i, _, rfl⟩ := List.mem_map.mp member
        exact word32_lt _ _
      refine silent opened fun _ _ _ _ => silent readElf fun result _ isResult _ => ?_
      subst isResult
      have loaded : ∀ next : ExecMode, Stores memory cpu may
          (Exec.execLoad (imageEhdr memory cpu) (imagePhdrs memory cpu)) next (loadedBytes memory cpu (some path))
          (fun _ => True) := by
        intro next
        unfold Exec.execLoad
        split
        next none =>
            have nothing : loadedBytes memory cpu (some path) = [] := by
              simp [loadedBytes, imagePhdrs, none, segmentsBytes]
            rw [nothing]
            exact pure trivial
        next => exact loadSegments bases allowed
      rw [← List.append_nil (loadedBytes memory cpu (some path))]
      refine bind (loaded _) fun result _ _ _ => ?_
      split
      next => exact pure trivial
      next =>
          split
          next => exact overrun
          next =>
              refine silent (updatePcb fun _ => rfl) fun _ _ _ _ => silent (updatePcb fun _ => rfl) fun _ _ _ _ => ?_
              exact mapStack (by decide)

end Stores

end

end AempOS.Task
