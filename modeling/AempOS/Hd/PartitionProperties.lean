import AempOS.Hd.Partition
import Mathlib.Tactic.IntervalCases

/-! Where the walk ends: each partition of a drive is found at its place of `hd_info`,
and no other place is written. -/

set_option autoImplicit false

namespace AempOS.Hd.Partition

open Lib

/-- The boot record in a sector of the first drive. -/
def record (image : Image) (sector : BitVec 32) (i : Nat) : PartEnt :=
  partEnt (image 0 (sector.setWidth 28)) i

/-- The sectors of the boot records from one of them on, in the extended partition that
starts at `x`. -/
inductive Records (image : Image) (x : BitVec 32) : BitVec 32 → List (BitVec 32) → Prop where
  | last {s : BitVec 32} : (record image s 1).sysId = noPart → Records image x s [s]
  | more {s : BitVec 32} {rest : List (BitVec 32)} : (record image s 1).sysId ≠ noPart →
      Records image x (x + (record image s 1).startSect) rest → Records image x s (s :: rest)

/-- The logical partition of the boot record in a sector. -/
def logicalInfo (image : Image) (s : BitVec 32) : PartInfo :=
  ⟨s + (record image s 0).startSect, (record image s 0).nrSects⟩

theorem Records.nonempty {image : Image} {x s : BitVec 32} {records : List (BitVec 32)}
    (chain : Records image x s records) : 0 < records.length := by
  cases chain with
  | last => exact Nat.zero_lt_one
  | more => exact Nat.succ_pos _

/-! ## The stores -/

section Stores

variable (driver : Driver) (devNr : Nat) (info : PartInfo)

@[simp] theorem setLogical_logical :
    ((driver.setLogical 0 devNr info).hdInfo 0).logical =
      Function.update (driver.hdInfo 0).logical devNr info := by
  simp [Driver.setLogical]

@[simp] theorem setLogical_primary :
    ((driver.setLogical 0 devNr info).hdInfo 0).primary = (driver.hdInfo 0).primary := by
  simp [Driver.setLogical]

@[simp] theorem setPrimary_primary :
    ((driver.setPrimary 0 devNr info).hdInfo 0).primary =
      Function.update (driver.hdInfo 0).primary devNr info := by
  simp [Driver.setPrimary]

@[simp] theorem setPrimary_logical :
    ((driver.setPrimary 0 devNr info).hdInfo 0).logical = (driver.hdInfo 0).logical := by
  simp [Driver.setPrimary]

end Stores

/-! ## One extended partition -/

/-- The driver after the round of the record in sector `s`. -/
private def stored (image : Image) (devNr : Nat) (s : BitVec 32) (driver : Driver) : Driver :=
  Driver.setLogical { driver with hdbuf := image 0 (s.setWidth 28) } 0 devNr (logicalInfo image s)

private theorem extendedLoop_succ (image : Image) (x s : BitVec 32) (nr1stSub rounds i : Nat)
    (driver : Driver) :
    extendedLoop image 0 x nr1stSub (rounds + 1) i s driver =
      if (record image s 1).sysId = noPart then stored image (nr1stSub + i) s driver
      else
        extendedLoop image 0 x nr1stSub rounds (i + 1) (x + (record image s 1).startSect)
          (stored image (nr1stSub + i) s driver) :=
  rfl

/-- The records of a chain go to consecutive places. -/
theorem extendedLoop_spec {image : Image} {x s : BitVec 32} {records : List (BitVec 32)}
    (chain : Records image x s records) {nr1stSub rounds i : Nat} (enough : records.length ≤ rounds)
    (driver : Driver) :
    let final := extendedLoop image 0 x nr1stSub rounds i s driver
    (∀ k r, records[k]? = some r → (final.hdInfo 0).logical (nr1stSub + i + k) = logicalInfo image r) ∧
      (∀ j, j < nr1stSub + i ∨ nr1stSub + i + records.length ≤ j →
        (final.hdInfo 0).logical j = (driver.hdInfo 0).logical j) ∧
      (final.hdInfo 0).primary = (driver.hdInfo 0).primary := by
  induction chain generalizing rounds i driver with
  | @last s ends =>
      obtain ⟨rounds, rfl⟩ : ∃ less, rounds = less + 1 := ⟨rounds - 1, by simp at enough; omega⟩
      rw [extendedLoop_succ, if_pos ends]
      refine ⟨fun k r found => ?_, fun j apart => ?_, setLogical_primary _ _ _⟩
      · obtain ⟨rfl, rfl⟩ : k = 0 ∧ s = r := by
          cases k with
          | zero => exact ⟨rfl, Option.some.inj found⟩
          | succ k => cases found
        rw [stored, setLogical_logical, Nat.add_zero, Function.update_self]
      · rw [List.length_singleton] at apart
        rw [stored, setLogical_logical, Function.update_of_ne (by omega)]
  | @more s rest goesOn later ih =>
      rw [List.length_cons] at enough
      obtain ⟨rounds, rfl⟩ : ∃ less, rounds = less + 1 := ⟨rounds - 1, by omega⟩
      rw [extendedLoop_succ, if_neg goesOn]
      obtain ⟨found, others, primary⟩ := @ih rounds (i + 1) (by omega)
        (stored image (nr1stSub + i) s driver)
      have logical : ((stored image (nr1stSub + i) s driver).hdInfo 0).logical =
          Function.update (driver.hdInfo 0).logical (nr1stSub + i) (logicalInfo image s) :=
        setLogical_logical _ _ _
      rw [logical] at others
      refine ⟨fun k r at' => ?_, fun j apart => ?_, primary.trans (setLogical_primary _ _ _)⟩
      · cases k with
        | zero =>
            have same : s = r := Option.some.inj at'
            rw [← same]
            exact (others (nr1stSub + i) (.inl (by omega))).trans (Function.update_self _ _ _)
        | succ k =>
            have there := found k r at'
            rw [show nr1stSub + i + (k + 1) = nr1stSub + (i + 1) + k by omega]
            exact there
      · rw [List.length_cons] at apart
        exact (others j (by omega)).trans (Function.update_of_ne (by omega) _ _)

/-! ## The master table -/

/-- Entry `i` of the master table of the first drive. -/
def master (image : Image) (i : Nat) : PartEnt :=
  record image 0 i

/-- The boot records of each extended partition, at most `NR_SUB_PER_PART` of them. -/
def Chains (image : Image) (records : Nat → List (BitVec 32)) : Prop :=
  ∀ i < nrPartPerDrive, (master image i).sysId = extPart →
    Records image (master image i).startSect (master image i).startSect (records i) ∧
      (records i).length ≤ nrSubPerPart

/-- What entries `i` to 3 of the master table make of `hd_info`. -/
structure Walked (image : Image) (records : Nat → List (BitVec 32)) (i : Nat) (before after : HdInfo) :
    Prop where
  primary : ∀ e, i ≤ e → e < 4 → (master image e).sysId ≠ noPart →
    after.primary (e + 1) = ⟨(master image e).startSect, (master image e).nrSects⟩
  otherPrimary : ∀ j, (∀ e, i ≤ e → e < 4 → (master image e).sysId ≠ noPart → j ≠ e + 1) →
    after.primary j = before.primary j
  logical : ∀ e, i ≤ e → e < 4 → (master image e).sysId = extPart → ∀ k r, (records e)[k]? = some r →
    after.logical (16 * e + k) = logicalInfo image r
  otherLogical : ∀ j, (∀ e, i ≤ e → e < 4 → (master image e).sysId = extPart →
      j < 16 * e ∨ 16 * e + (records e).length ≤ j) → after.logical j = before.logical j

theorem partitionExtended_spec {image : Image} {driver : Driver} {e : Nat} {records : List (BitVec 32)}
    (entry : e < 4) (chain : Records image ((driver.hdInfo 0).primary (e + 1)).base
      ((driver.hdInfo 0).primary (e + 1)).base records) (short : records.length ≤ nrSubPerPart) :
    let final := partitionExtended image (0 + (e + 1)) driver
    (∀ k r, records[k]? = some r → (final.hdInfo 0).logical (16 * e + k) = logicalInfo image r) ∧
      (∀ j, j < 16 * e ∨ 16 * e + records.length ≤ j →
        (final.hdInfo 0).logical j = (driver.hdInfo 0).logical j) ∧
      (final.hdInfo 0).primary = (driver.hdInfo 0).primary := by
  have drive : drvOfDev (0 + (e + 1)) = 0 := by
    unfold drvOfDev nrPrimPerDrive nrPartPerDrive
    rw [if_pos (by omega)]
    omega
  have index : (0 + (e + 1)) % nrPrimPerDrive = e + 1 := by
    unfold nrPrimPerDrive nrPartPerDrive
    omega
  have first : (e + 1 - 1) * nrSubPerPart = 16 * e := Nat.mul_comm _ _
  have looped := @extendedLoop_spec image _ _ records chain (16 * e) nrSubPerPart 0 short driver
  unfold partitionExtended
  simp only [drive, index, first]
  exact looped

section Entries

variable {image : Image} {records : Nat → List (BitVec 32)} {i : Nat} {before middle after : HdInfo}

/-- An unused entry is passed over. -/
theorem Walked.skip (later : Walked image records (i + 1) before after)
    (unused : (master image i).sysId = noPart) : Walked image records i before after := by
  have beyond {e : Nat} (low : i ≤ e) (used : (master image e).sysId ≠ noPart) : i + 1 ≤ e := by
    have apart : e ≠ i := fun same => used (same ▸ unused)
    omega
  have extended {e : Nat} (ext : (master image e).sysId = extPart) : (master image e).sysId ≠ noPart := by
    rw [ext]
    decide
  exact
    { primary := fun e low high used => later.primary e (beyond low used) high used
      otherPrimary := fun j apart => later.otherPrimary j fun e low => apart e (by omega)
      logical := fun e low high ext => later.logical e (beyond low (extended ext)) high ext
      otherLogical := fun j apart => later.otherLogical j fun e low => apart e (by omega) }

/-- A used entry is stored, with the boot records of an extended partition, and the
entries behind it are stored elsewhere. -/
theorem Walked.entry (later : Walked image records (i + 1) middle after) (inside : i < 4)
    (used : (master image i).sysId ≠ noPart)
    (short : (master image i).sysId = extPart → (records i).length ≤ nrSubPerPart)
    (primary : middle.primary =
      Function.update before.primary (i + 1) ⟨(master image i).startSect, (master image i).nrSects⟩)
    (logical : (master image i).sysId = extPart → ∀ k r, (records i)[k]? = some r →
      middle.logical (16 * i + k) = logicalInfo image r)
    (others : ∀ j, ((master image i).sysId = extPart →
      j < 16 * i ∨ 16 * i + (records i).length ≤ j) → middle.logical j = before.logical j) :
    Walked image records i before after where
  primary e low high usedHere := by
    rcases Nat.eq_or_lt_of_le low with rfl | behind
    · rw [later.otherPrimary (i + 1) fun e low _ _ => by omega, primary, Function.update_self]
    · exact later.primary e behind high usedHere
  otherPrimary j apart := by
    rw [later.otherPrimary j fun e low => apart e (by omega), primary,
      Function.update_of_ne (apart i (Nat.le_refl _) inside used)]
  logical e low high ext k r found := by
    rcases Nat.eq_or_lt_of_le low with rfl | behind
    · have within : k < (records i).length := (List.getElem?_eq_some_iff.mp found).1
      have bound := short ext
      unfold nrSubPerPart at bound
      rw [later.otherLogical (16 * i + k) fun e low _ _ => .inl (by omega)]
      exact logical ext k r found
    · exact later.logical e behind high ext k r found
  otherLogical j apart := by
    rw [later.otherLogical j fun e low => apart e (by omega)]
    exact others j fun ext => apart i (Nat.le_refl _) inside ext

end Entries

theorem primaryLoop_spec {image : Image} {records : Nat → List (BitVec 32)} (chains : Chains image records)
    {rounds i : Nat} (left : rounds + i = 4) (driver : Driver) :
    Walked image records i (driver.hdInfo 0)
      ((primaryLoop image 0 (master image) rounds i driver).hdInfo 0) := by
  induction rounds generalizing i driver with
  | zero =>
      exact ⟨fun e low high => absurd low (by omega), fun _ _ => rfl,
        fun e low high => absurd low (by omega), fun _ _ => rfl⟩
  | succ rounds ih =>
      have inside : i < 4 := by omega
      rw [primaryLoop]
      by_cases unused : (master image i).sysId = noPart
      · rw [if_pos unused]
        exact (ih (by omega) driver).skip unused
      · rw [if_neg unused]
        have drive : drvOfDev 0 = 0 := rfl
        simp only [drive]
        have filled := setPrimary_primary driver (i + 1) ⟨(master image i).startSect, (master image i).nrSects⟩
        have apart := setPrimary_logical driver (i + 1) ⟨(master image i).startSect, (master image i).nrSects⟩
        generalize driver.setPrimary 0 (i + 1) ⟨(master image i).startSect, (master image i).nrSects⟩ = next
          at filled apart ⊢
        by_cases ext : (master image i).sysId = extPart
        · obtain ⟨chain, short⟩ := chains i inside ext
          have start : ((next.hdInfo 0).primary (i + 1)).base = (master image i).startSect := by
            rw [filled, Function.update_self]
          rw [← start] at chain
          obtain ⟨found, others, primary⟩ := partitionExtended_spec inside chain short
          rw [if_pos ext]
          exact (ih (by omega) _).entry inside unused (fun _ => short) (primary.trans filled)
            (fun _ => found) fun j outside => (others j (outside ext)).trans (congrFun apart j)
        · rw [if_neg ext]
          exact (ih (by omega) next).entry inside unused (fun wrong => absurd wrong ext) filled
            (fun wrong => absurd wrong ext) fun j _ => congrFun apart j

/-! ## The other drive -/

section OtherDrive

variable (image : Image) {d : Nat} (other : d ≠ 0)

include other in
theorem extendedLoop_other (x s : BitVec 32) (nr1stSub rounds i : Nat) (driver : Driver) :
    (extendedLoop image 0 x nr1stSub rounds i s driver).hdInfo d = driver.hdInfo d := by
  have apart (devNr : Nat) (s : BitVec 32) (driver : Driver) :
      (stored image devNr s driver).hdInfo d = driver.hdInfo d := Function.update_of_ne other _ _
  induction rounds generalizing i s driver with
  | zero => rfl
  | succ rounds ih =>
      rw [extendedLoop_succ]
      split
      next => exact apart _ _ _
      next => exact (ih _ _ _).trans (apart _ _ _)

include other in
theorem primaryLoop_other (partTbl : Nat → PartEnt) {rounds i : Nat} (left : rounds + i = 4)
    (driver : Driver) : (primaryLoop image 0 partTbl rounds i driver).hdInfo d = driver.hdInfo d := by
  induction rounds generalizing i driver with
  | zero => rfl
  | succ rounds ih =>
      rw [primaryLoop]
      split
      next => exact ih (by omega) driver
      next =>
        have drive : drvOfDev 0 = 0 := rfl
        have device : drvOfDev (0 + (i + 1)) = 0 := by
          unfold drvOfDev nrPrimPerDrive nrPartPerDrive
          rw [if_pos (by omega)]
          omega
        simp only [drive]
        refine (ih (by omega) _).trans ?_
        split
        next =>
          simp only [partitionExtended, device]
          exact (extendedLoop_other image other _ _ _ _ _ _).trans (Function.update_of_ne other _ _)
        next => exact Function.update_of_ne other _ _

end OtherDrive

/-- Every partition of the first drive is at its place, and no other place of
`hd_info` is written. -/
theorem partition_walked {image : Image} {records : Nat → List (BitVec 32)}
    (chains : Chains image records) (driver : Driver) :
    Walked image records 0 (driver.hdInfo 0) ((partition image 0 pPrimary driver).hdInfo 0) ∧
      ∀ d ≠ 0, (partition image 0 pPrimary driver).hdInfo d = driver.hdInfo d :=
  ⟨@primaryLoop_spec image records chains 4 0 rfl { driver with hdbuf := image 0 0 },
    fun _ other => primaryLoop_other image other _ rfl { driver with hdbuf := image 0 0 }⟩

/-- A boot sector with entries of these types, starts and sizes. -/
def tableSector (entries : List (Byte × Nat × Nat)) : Buffer := fun off =>
  let place := off - partitionTableOffset
  let (sysId, start, size) := entries.getD (place / 16) (0, 0, 0)
  if place % 16 = 4 then sysId
  else if place % 16 < 8 then 0
  else if place % 16 < 12 then BitVec.ofNat 8 (start / 256 ^ (place % 16 - 8))
  else BitVec.ofNat 8 (size / 256 ^ (place % 16 - 12))

/-- A primary partition, and an extended one with two boot records. -/
def twoLogical : Image := fun _ sector =>
  if sector = 0 then tableSector [(0x83, 63, 1000), (extPart, 2000, 5000)]
  else if sector = 2000 then tableSector [(0x83, 63, 900), (extPart, 1000, 1000)]
  else tableSector [(0x83, 63, 800)]

def emptyDriver : Driver := ⟨fun _ => ⟨fun _ => ⟨0, 0⟩, fun _ => ⟨0, 0⟩⟩, fun _ => 0⟩

theorem partition_walked_twoLogical :
    let final := (partition twoLogical 0 pPrimary emptyDriver).hdInfo 0
    final.primary 2 = ⟨2000, 5000⟩ ∧ final.logical 17 = ⟨3063, 800⟩ ∧ final.logical 18 = ⟨0, 0⟩ := by
  have chains : Chains twoLogical fun _ => [2000, 3000] := by
    intro i inside ext
    have second : i = 1 := by
      unfold nrPartPerDrive at inside
      interval_cases i
      · exact absurd ext (by decide)
      · rfl
      · exact absurd ext (by decide)
      · exact absurd ext (by decide)
    subst second
    have start : (master twoLogical 1).startSect = 2000 := by decide
    have next : (2000 : BitVec 32) + (record twoLogical 2000 1).startSect = 3000 := by decide
    rw [start]
    refine ⟨.more (by decide) ?_, by decide⟩
    rw [next]
    exact .last (by decide)
  obtain ⟨walked, _⟩ := partition_walked chains emptyDriver
  refine ⟨?_, ?_, ?_⟩
  · exact (walked.primary 1 (by decide) (by decide) (by decide)).trans (by decide)
  · exact (walked.logical 1 (by decide) (by decide) (by decide) 1 3000 rfl).trans (by decide)
  · refine walked.otherLogical 18 fun e _ high ext => ?_
    interval_cases e
    · exact absurd ext (by decide)
    · exact .inr (by decide)
    · exact absurd ext (by decide)
    · exact absurd ext (by decide)

end AempOS.Hd.Partition
