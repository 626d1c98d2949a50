import AempOS.Boot.RootSearch
import Mathlib.Data.List.Forall2
import Mathlib.Tactic.IntervalCases

/-! A search reads the sectors of the root directory up to the first one with an
entry of its name, and takes as many rounds off the count that all searches share. -/

set_option autoImplicit false

namespace AempOS.Boot

open Lib

/-- Entry `e` of sector `k` of the root directory has this name. -/
def entryHas (floppy : Floppy) (name : List Byte) (k e : Nat) : Bool :=
  (List.range name.length).all fun i => name.getD i 0 == floppy (19 + k) (32 * e + i)

def sectorHas (floppy : Floppy) (name : List Byte) (k : Nat) : Bool :=
  (List.range 16).any (entryHas floppy name k)

/-- The sectors up to the first one with an entry of the name. -/
def sectorsRead (floppy : Floppy) (name : List Byte) : Nat :=
  (firstFrom (sectorHas floppy name) rootDirSectors 0).getD rootDirSectors + 1

/-- The sector with the entry is at `es`, and `di` stands in the entry. -/
structure AtEntry (floppy : Floppy) (name : List Byte) (found : Found) (k e : Nat) : Prop where
  sector : k < rootDirSectors
  entry : e < 16
  named : entryHas floppy name k e = true
  wSectorNo : found.wSectorNo.toNat = 19 + k
  read : ∀ i < 512, found.cpu.memory (linear found.cpu.es 0 + i) = floppy (19 + k) i
  di : 32 * e ≤ found.di.toNat ∧ found.di.toNat < 32 * e + 32

/-! ## One entry -/

section Entry

variable {cpu : Cpu} {floppy : Floppy} {name : List Byte} {k e : Nat} {di : BitVec 16}

theorem byte_read (read : ∀ i < 512, cpu.memory (linear cpu.es 0 + i) = floppy (19 + k) i)
    (inside : di.toNat < 512) : cpu.byte di = floppy (19 + k) di.toNat := by
  rw [← read _ inside]
  rfl

/-- The comparison goes on until it meets a character that differs. -/
theorem cmpFilename_spec (cpu : Cpu) (rest : List Byte) (room : di.toNat + rest.length < 65536) :
    ∃ d, cmpFilename cpu di rest =
        (decide (∀ i < rest.length, rest.getD i 0 = cpu.byte (di + BitVec.ofNat 16 i)), d) ∧
      di.toNat ≤ d.toNat ∧ d.toNat ≤ di.toNat + rest.length := by
  induction rest generalizing di with
  | nil => exact ⟨di, by simp [cmpFilename], Nat.le_refl _, Nat.le_refl _⟩
  | cons al rest ih =>
      rw [List.length_cons] at room ⊢
      by_cases same : al = cpu.byte di
      · have next : (di + 1).toNat = di.toNat + 1 := by bv_omega
        obtain ⟨d, compared, low, high⟩ := @ih (di + 1) (by omega)
        refine ⟨d, ?_, by omega, by omega⟩
        rw [cmpFilename, if_pos same, compared, Prod.mk.injEq, decide_eq_decide]
        refine ⟨⟨fun later i inside => ?_, fun all i inside => ?_⟩, rfl⟩
        · cases i with
          | zero => exact same.trans (congrArg cpu.byte (BitVec.add_zero di).symm)
          | succ i =>
              have here := later i (by omega)
              rw [List.getD_cons_succ, here]
              congr 1
              bv_omega
        · have here := all (i + 1) (by omega)
          rw [List.getD_cons_succ] at here
          rw [here]
          congr 1
          bv_omega
      · refine ⟨di, ?_, Nat.le_refl _, by omega⟩
        rw [cmpFilename, if_neg same, Prod.mk.injEq]
        refine ⟨(decide_eq_false fun all => same ?_).symm, rfl⟩
        exact (all 0 (by omega)).trans (congrArg cpu.byte (BitVec.add_zero di))

/-- `and di, 0FFE0h` -/
theorem maskEntry_toNat (di : BitVec 16) : (di &&& 0xFFE0).toNat = di.toNat / 32 * 32 := by
  have same : di &&& (0xFFE0 : BitVec 16) = (di >>> 5) <<< 5 := by
    apply BitVec.eq_of_getLsbD_eq
    intro i inside
    interval_cases i <;> simp
  have small := di.isLt
  rw [same, BitVec.toNat_shiftLeft, BitVec.toNat_ushiftRight, Nat.shiftRight_eq_div_pow,
    Nat.shiftLeft_eq]
  omega

variable (short : name.length < 32)

include short in
theorem cmpFilename_entry (read : ∀ i < 512, cpu.memory (linear cpu.es 0 + i) = floppy (19 + k) i)
    (inside : e < 16) (start : di.toNat = 32 * e) :
    ∃ d, cmpFilename cpu di name = (entryHas floppy name k e, d) ∧ 32 * e ≤ d.toNat ∧
      d.toNat < 32 * e + 32 := by
  obtain ⟨d, compared, low, high⟩ := @cmpFilename_spec di cpu name (by omega)
  refine ⟨d, ?_, by omega, by omega⟩
  rw [compared, Prod.mk.injEq]
  refine ⟨?_, rfl⟩
  unfold entryHas
  rw [Bool.eq_iff_iff, decide_eq_true_iff, List.all_eq_true]
  have place (i : Nat) (within : i < name.length) :
      cpu.byte (di + BitVec.ofNat 16 i) = floppy (19 + k) (32 * e + i) := by
    have offset : (di + BitVec.ofNat 16 i).toNat = 32 * e + i := by bv_omega
    rw [byte_read read (by omega), offset]
  constructor
  · intro all i member
    have within := List.mem_range.mp member
    rw [beq_iff_eq, all i within, place i within]
  · intro all i within
    rw [place i within]
    exact beq_iff_eq.mp (all i (List.mem_range.mpr within))

include short in
/-- The entries of a sector are looked at one after the other. -/
theorem searchSector_spec (read : ∀ i < 512, cpu.memory (linear cpu.es 0 + i) = floppy (19 + k) i)
    {dx : Nat} (left : dx + e = 16) (start : di.toNat = 32 * e) :
    match firstFrom (entryHas floppy name k) dx e with
    | none => searchSector cpu name dx di = none
    | some found => ∃ d, searchSector cpu name dx di = some d ∧ 32 * found ≤ d.toNat ∧
        d.toNat < 32 * found + 32 := by
  induction dx generalizing e di with
  | zero => rfl
  | succ dx ih =>
      obtain ⟨d, compared, low, high⟩ := cmpFilename_entry short read (by omega : e < 16) start
      rw [firstFrom, searchSector, compared]
      cases entryHas floppy name k e with
      | true => exact ⟨d, rfl, low, high⟩
      | false =>
          have mask := maskEntry_toNat d
          have next : ((d &&& 0xFFE0) + 0x20).toNat = 32 * (e + 1) ∨ e = 15 := by
            by_cases last : e = 15
            · exact .inr last
            · left
              bv_omega
          rcases next with next | last
          · exact ih (by omega) next
          · have none : dx = 0 := by omega
            rw [none]
            rfl

end Entry

/-! ## One search -/

section Search

variable {bios : Bios} {floppy : Floppy} {name : List Byte}

theorem sectorHas_eq (k : Nat) :
    sectorHas floppy name k = (firstFrom (entryHas floppy name k) 16 0).isSome := by
  unfold sectorHas
  cases outcome : firstFrom (entryHas floppy name k) 16 0 with
  | none =>
      rw [Option.isSome_none, List.any_eq_false]
      intro e member
      rw [firstFrom_none outcome (Nat.zero_le e) (by simpa using member)]
      decide
  | some e =>
      obtain ⟨_, inside, holds, _⟩ := firstFrom_some outcome
      rw [Option.isSome_some, List.any_eq_true]
      exact ⟨e, by simpa using inside, holds⟩

/-- The rounds that are left when a search has found its file, or the end of the
rounds. -/
theorem searchRootDir_spec (delivers : Delivers bios floppy) (short : name.length < 32)
    (base : BitVec 16) {left k : Nat} {sectorNo : BitVec 16} (inside : k + left ≤ rootDirSectors)
    (sector : sectorNo.toNat = 19 + k) (cpu : Cpu) :
    match firstFrom (sectorHas floppy name) left k with
    | none => searchRootDir bios base name left sectorNo cpu = none
    | some first => ∃ found e, searchRootDir bios base name left sectorNo cpu = some found ∧
        AtEntry floppy name found first e ∧ found.wRootDirSizeForLoop + (first + 1) = left + k := by
  induction left generalizing k sectorNo cpu with
  | zero => rfl
  | succ left ih =>
      unfold rootDirSectors at inside
      have one : (1 : BitVec 8).toNat = 1 := rfl
      obtain ⟨read, ran, _, segment, bytes, _⟩ := readSector_delivers delivers
        { cpu with ax := sectorNo, bx := 0, cx := setCl cpu.cx 1, es := base }
        (by simp only [sector]; omega) (by simp only [setCl_low, one]; omega)
      simp only [setCl_low, one, sector] at bytes segment
      have held (i : Nat) (within : i < 512) :
          read.memory (linear read.es 0 + i) = floppy (19 + k) i := by
        rw [segment, bytes i (by omega), Nat.div_eq_of_lt within, Nat.mod_eq_of_lt within, Nat.add_zero]
      rw [firstFrom, sectorHas_eq]
      unfold searchRootDir
      simp only [ran, Option.bind_eq_bind, Option.bind_some]
      have entries := @searchSector_spec read floppy name k 0 0 short held 16 rfl rfl
      cases outcome : firstFrom (entryHas floppy name k) 16 0 with
      | none =>
          rw [outcome] at entries
          have next : (sectorNo + 1).toNat = 19 + (k + 1) := by bv_omega
          have later := ih (by unfold rootDirSectors; omega) next read
          simp only [entries, Option.isSome_none, Bool.false_eq_true, if_false]
          rw [show left + 1 + k = left + (k + 1) by omega]
          exact later
      | some e =>
          rw [outcome] at entries
          obtain ⟨d, ended, low, high⟩ := entries
          obtain ⟨_, within, holds, _⟩ := firstFrom_some outcome
          simp only [ended]
          refine ⟨_, e, rfl, ⟨by unfold rootDirSectors; omega, by omega, holds, sector, held, low, high⟩, ?_⟩
          simp only
          omega

/-- A search needs as many rounds as there are sectors up to the file. -/
theorem search_spec (delivers : Delivers bios floppy) (short : name.length < 32) (base : BitVec 16)
    {k left : Nat} (held : firstFrom (sectorHas floppy name) rootDirSectors 0 = some k)
    (rounds : left ≤ rootDirSectors) (cpu : Cpu) :
    (left < sectorsRead floppy name ∧ search bios base name left cpu = none) ∨
      ∃ found e, search bios base name left cpu = some found ∧ AtEntry floppy name found k e ∧
        found.wRootDirSizeForLoop + sectorsRead floppy name = left := by
  have needed : sectorsRead floppy name = k + 1 := by
    rw [sectorsRead, held]
    rfl
  have searched := searchRootDir_spec delivers short base (by omega : 0 + left ≤ rootDirSectors)
    (rfl : sectorNoOfRootDirectory.toNat = 19 + 0) cpu
  rw [firstFrom_resized left held] at searched
  rw [needed]
  split at searched
  next missing =>
    split at missing
    next => cases missing
    next far => exact .inl ⟨by omega, searched⟩
  next first reached =>
    split at reached
    next =>
      cases reached
      exact .inr searched
    next => cases reached

end Search

/-! ## The five searches -/

section Searches

variable {bios : Bios} {floppy : Floppy}

/-- The files in the order of the searches, with the place that each is loaded to. -/
def loaderFiles : List (BitVec 16 × List Byte) :=
  [(baseOfKernelFile, kernelFileName), (baseOfEchoFile, echoFileName), (baseOfInit1File, init1FileName),
    (baseOfInit2File, init2FileName), (baseOfInit3File, init3FileName)]

theorem loaderSearches_eq (bios : Bios) (load : Found → Cpu) (cpu : Cpu) :
    loaderSearches bios load cpu =
      searchAll load (loaderFiles.map fun file => search bios file.1 file.2) rootDirSectors cpu :=
  rfl

/-- The file is in the root directory. -/
def Held (floppy : Floppy) (name : List Byte) : Prop :=
  ∃ k < rootDirSectors, sectorHas floppy name k = true

instance (floppy : Floppy) (name : List Byte) : Decidable (Held floppy name) :=
  inferInstanceAs (Decidable (∃ k, k < rootDirSectors ∧ sectorHas floppy name k = true))

/-- The searches end with all files found when the sectors up to each of them are
together no more than the rounds. -/
theorem searchAll_spec (delivers : Delivers bios floppy) (load : Found → Cpu)
    {files : List (BitVec 16 × List Byte)} (short : ∀ file ∈ files, file.2.length < 32)
    (held : ∀ file ∈ files, Held floppy file.2) {left : Nat} (rounds : left ≤ rootDirSectors) (cpu : Cpu) :
    let searches := files.map fun file => search bios file.1 file.2
    (left < (files.map fun file => sectorsRead floppy file.2).sum ∧ searchAll load searches left cpu = none) ∨
      ((files.map fun file => sectorsRead floppy file.2).sum ≤ left ∧
        ∃ founds, searchAll load searches left cpu = some founds ∧
          List.Forall₂ (fun file found => ∃ k e, AtEntry floppy file.2 found k e) files founds) := by
  induction files generalizing left cpu with
  | nil => exact .inr ⟨Nat.zero_le _, [], rfl, .nil⟩
  | cons file rest ih =>
      obtain ⟨k, inside, has⟩ := held file List.mem_cons_self
      obtain ⟨first, hit⟩ : ∃ first, firstFrom (sectorHas floppy file.2) rootDirSectors 0 = some first :=
        firstFrom_isSome (Nat.zero_le k) (by omega) has
      simp only [List.map_cons, List.sum_cons, searchAll]
      rcases search_spec delivers (short file List.mem_cons_self) file.1 hit rounds cpu with
        ⟨far, missed⟩ | ⟨found, e, ran, entry, remains⟩
      · left
        rw [missed]
        exact ⟨by omega, rfl⟩
      · have fewer : found.wRootDirSizeForLoop ≤ rootDirSectors := by omega
        rcases ih (fun other member => short other (List.mem_cons_of_mem _ member))
            (fun other member => held other (List.mem_cons_of_mem _ member)) fewer (load found) with
          ⟨far, missed⟩ | ⟨enough, founds, later, entries⟩
        · left
          simp only [ran, Option.bind_eq_bind, Option.bind_some, missed]
          exact ⟨by omega, rfl⟩
        · right
          simp only [ran, Option.bind_eq_bind, Option.bind_some, later]
          exact ⟨by omega, _, rfl, .cons ⟨first, e, entry⟩ entries⟩

theorem loaderFiles_short : ∀ file ∈ loaderFiles, file.2.length < 32 := by
  decide

/-- Each search reaches its `LABEL_FILENAME_FOUND` with `di` inside the entry of its
file. -/
def FindsAll (bios : Bios) (floppy : Floppy) (load : Found → Cpu) (cpu : Cpu) : Prop :=
  ∃ founds, loaderSearches bios load cpu = some founds ∧
    List.Forall₂ (fun file found => ∃ k e, AtEntry floppy file.2 found k e) loaderFiles founds

/-- The sectors up to each of the files, counted once for each file. -/
def loaderRounds (floppy : Floppy) : Nat :=
  (loaderFiles.map fun file => sectorsRead floppy file.2).sum

/-- All five files are found if and only if the searches together look at no more
sectors than the root directory has. -/
theorem findsAll_iff (delivers : Delivers bios floppy) (held : ∀ file ∈ loaderFiles, Held floppy file.2)
    (load : Found → Cpu) (cpu : Cpu) :
    FindsAll bios floppy load cpu ↔ loaderRounds floppy ≤ rootDirSectors := by
  unfold FindsAll loaderRounds
  rw [loaderSearches_eq]
  rcases searchAll_spec delivers load loaderFiles_short held (Nat.le_refl _) cpu with
    ⟨far, missed⟩ | ⟨enough, founds, ran, entries⟩
  · constructor
    · rintro ⟨founds, ran, _⟩
      rw [missed] at ran
      cases ran
    · intro enough
      omega
  · exact ⟨fun _ => enough, fun _ => ⟨founds, ran, entries⟩⟩

/-- A root directory with the first four files in its first sector and `INIT3.BIN` in
sector `last` of it. -/
def rootFloppy (last : Nat) : Floppy := fun sector i =>
  let entries := [kernelFileName, echoFileName, init1FileName, init2FileName]
  let first := if sector = 19 then (entries.getD (i / 32) []).getD (i % 32) 0 else 0
  if sector = 19 + last ∧ i / 32 = 15 then init3FileName.getD (i % 32) 0 else first

def idleCpu : Cpu := ⟨0, 0, 0, 0, 0, fun _ => 0⟩

/-- The last search may go on to the tenth sector. -/
theorem findsAll_tenth :
    FindsAll (floppyBios (rootFloppy 9)) (rootFloppy 9) Found.cpu idleCpu :=
  (findsAll_iff (floppyBios_delivers _) (by decide +kernel) Found.cpu idleCpu).mpr (by decide +kernel)

/-- In the eleventh sector the file is not found: the four searches before have
taken a round each. -/
theorem findsAll_not_eleventh :
    (∀ file ∈ loaderFiles, Held (rootFloppy 10) file.2) ∧
      ¬FindsAll (floppyBios (rootFloppy 10)) (rootFloppy 10) Found.cpu idleCpu := by
  have held : ∀ file ∈ loaderFiles, Held (rootFloppy 10) file.2 := by decide +kernel
  refine ⟨held, ?_⟩
  rintro ⟨founds, ran, _⟩
  rcases searchAll_spec (floppyBios_delivers (rootFloppy 10)) Found.cpu loaderFiles_short held
    (Nat.le_refl _) idleCpu with ⟨_, missed⟩ | ⟨enough, _⟩
  · rw [loaderSearches_eq, missed] at ran
    cases ran
  · exact absurd enough (by decide +kernel)

end Searches

end AempOS.Boot
