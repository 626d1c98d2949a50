import AempOS.Fs.InodeProperties
import AempOS.Fs.MkfsProperties

/-! The maps over whole runs of allocations and releases. `alloc_smap_bit` sets a
run of bits without looking at them; that is right because every run that is
taken or freed is a slot: slot `k` has the bits from `1 + 2048 * k` on, and all
bits of a slot are equal. -/

set_option autoImplicit false

namespace AempOS.Fs

open Lib

/-- What a file has of the maps: its inode number and the first sector of its
run. -/
structure LiveFile where
  inodeNr : Nat
  startSect : Nat
  deriving DecidableEq

structure MapState where
  disk : Disk
  live : List LiveFile

/-- The bits of slot `k`. -/
def InSlot (k b : Nat) : Prop :=
  1 + nrDefaultFileSects * k ≤ b ∧ b < 1 + nrDefaultFileSects * (k + 1)

instance (k b : Nat) : Decidable (InSlot k b) := inferInstanceAs (Decidable (_ ∧ _))

/-- The slot lies in the sector map. -/
def SlotFits (sb : SuperBlock) (k : Nat) : Prop :=
  1 + nrDefaultFileSects * (k + 1) ≤ sb.nrSmapSects * sectorBits

instance (sb : SuperBlock) (k : Nat) : Decidable (SlotFits sb k) :=
  inferInstanceAs (Decidable (_ ≤ _))

def SlotClear (disk : Disk) (k : Nat) : Prop :=
  ∀ i < nrDefaultFileSects, sectorBit disk (1 + nrDefaultFileSects * k + i) = false

instance (disk : Disk) (k : Nat) : Decidable (SlotClear disk k) :=
  inferInstanceAs (Decidable (∀ i < nrDefaultFileSects, _ = _))

/-- There are a clear inode bit and a clear slot that fits in the sector map. -/
def MapsHaveRoom (sb : SuperBlock) (disk : Disk) : Prop :=
  (∃ n < sectorBits, inodeBit disk n = false) ∧
    ∃ k < sb.nrSmapSects * sectorBits, SlotFits sb k ∧ SlotClear disk k

instance (sb : SuperBlock) (disk : Disk) : Decidable (MapsHaveRoom sb disk) :=
  inferInstanceAs (Decidable ((∃ n < sectorBits, _ = _) ∧ ∃ k < _, _ ∧ _))

inductive MapAction where
  /-- `alloc_imap_bit`, then `alloc_smap_bit` for a new file. -/
  | create
  /-- The map part of `do_unlink`. -/
  | release (file : LiveFile)
  deriving DecidableEq

/-- The two allocations of `create_file`. -/
def MapState.take (sb : SuperBlock) (state : MapState) : MapState :=
  let (inodeNr, disk) := allocImapBit sb state.disk
  let (freeSectNr, disk) := allocSmapBit sb disk nrDefaultFileSects
  { disk, live := ⟨inodeNr, freeSectNr⟩ :: state.live }

/-- "free the bit in i-map" and "free the bits in s-map". -/
def MapState.give (sb : SuperBlock) (state : MapState) (file : LiveFile) : MapState :=
  { disk := freeSmapBits sb (freeImapBit state.disk file.inodeNr) file.startSect nrDefaultFileSects
    live := state.live.erase file }

def MapState.step (sb : SuperBlock) (state : MapState) : MapAction → Option MapState
  | .create => if MapsHaveRoom sb state.disk then some (state.take sb) else none
  | .release file => if file ∈ state.live then some (state.give sb file) else none

/-- From the maps that `mkfs` writes on a partition of `size` sectors. -/
def mapMachine (size : Nat) (disk : Disk) : Machine MapState MapAction where
  initial state := state = { disk := mkfs size disk, live := [] }
  step := MapState.step (newSuperBlock size)

/-- The maps hold the reserved bits, the root directory and the live files. -/
structure MapsExact (sb : SuperBlock) (state : MapState) : Prop where
  imap : ∀ n < sectorBits, inodeBit state.disk n = true ↔
    n ≤ 4 ∨ ∃ file ∈ state.live, file.inodeNr = n
  smap : ∀ b < sb.nrSmapSects * sectorBits, sectorBit state.disk b = true ↔
    b = 0 ∨ InSlot 0 b ∨ ∃ file ∈ state.live, ∃ k,
      file.startSect = sb.n1stSect + nrDefaultFileSects * k ∧ InSlot k b
  inodes : ∀ file ∈ state.live, 5 ≤ file.inodeNr ∧ file.inodeNr < sectorBits
  slots : ∀ file ∈ state.live, ∃ k, 1 ≤ k ∧ SlotFits sb k ∧
    file.startSect = sb.n1stSect + nrDefaultFileSects * k
  distinct : state.live.Pairwise fun left right =>
    left.inodeNr ≠ right.inodeNr ∧ left.startSect ≠ right.startSect

def LeastClearInode (disk : Disk) (n : Nat) : Prop :=
  inodeBit disk n = false ∧ ∀ m < n, inodeBit disk m = true

def LeastClearSlot (sb : SuperBlock) (disk : Disk) (k : Nat) : Prop :=
  SlotFits sb k ∧ SlotClear disk k ∧ ∀ j < k, ¬SlotClear disk j

section Slots

variable {sb : SuperBlock} {state : MapState} {j k b : Nat}

theorem InSlot.unique (left : InSlot j b) (right : InSlot k b) : j = k := by
  unfold InSlot nrDefaultFileSects at *
  omega

theorem SlotFits.mono (fits : SlotFits sb k) (below : j ≤ k) : SlotFits sb j := by
  have scaled := Nat.mul_le_mul_left nrDefaultFileSects (Nat.succ_le_succ below)
  exact Nat.le_trans (Nat.add_le_add_left scaled 1) fits

theorem SlotFits.inside (fits : SlotFits sb k) (member : InSlot k b) :
    b < sb.nrSmapSects * sectorBits := by
  unfold SlotFits at fits
  unfold InSlot at member
  omega

theorem slotClear_iff {disk : Disk} :
    SlotClear disk k ↔ ∀ b, InSlot k b → sectorBit disk b = false := by
  unfold SlotClear InSlot
  constructor
  · intro clear b member
    have place : b = 1 + nrDefaultFileSects * k + (b - (1 + nrDefaultFileSects * k)) := by omega
    rw [place]
    exact clear _ (by unfold nrDefaultFileSects at *; omega)
  · intro clear i inside
    exact clear _ ⟨Nat.le_add_right _ _, by unfold nrDefaultFileSects at *; omega⟩

theorem slot_unique {n1stSect sect : Nat} (left : sect = n1stSect + nrDefaultFileSects * j)
    (right : sect = n1stSect + nrDefaultFileSects * k) : j = k := by
  unfold nrDefaultFileSects at *
  omega

/-- The slot is root's or that of a live file. -/
def SlotTaken (sb : SuperBlock) (state : MapState) (k : Nat) : Prop :=
  k = 0 ∨ ∃ file ∈ state.live, file.startSect = sb.n1stSect + nrDefaultFileSects * k

theorem MapsExact.slot_bit (held : MapsExact sb state) (member : InSlot k b)
    (inside : b < sb.nrSmapSects * sectorBits) :
    sectorBit state.disk b = true ↔ SlotTaken sb state k := by
  rw [held.smap b inside]
  constructor
  · rintro (rfl | root | ⟨file, live, j, start, inSlot⟩)
    · unfold InSlot at member
      omega
    · exact .inl (member.unique root)
    · obtain rfl := member.unique inSlot
      exact .inr ⟨file, live, start⟩
  · rintro (rfl | ⟨file, live, start⟩)
    · exact .inr (.inl member)
    · exact .inr (.inr ⟨file, live, k, start, member⟩)

theorem first_inSlot (k : Nat) : InSlot k (1 + nrDefaultFileSects * k) := by
  unfold InSlot nrDefaultFileSects
  omega

theorem MapsExact.clear_iff (held : MapsExact sb state) (fits : SlotFits sb k) :
    SlotClear state.disk k ↔ ¬SlotTaken sb state k := by
  rw [slotClear_iff]
  constructor
  · intro clear taken
    have set := (held.slot_bit (first_inSlot k) (fits.inside (first_inSlot k))).mpr taken
    rw [clear _ (first_inSlot k)] at set
    cases set
  · intro unused b member
    rw [← Bool.not_eq_true, held.slot_bit member (fits.inside member)]
    exact unused

/-- The least clear bit is the first of the least clear slot. -/
theorem MapsExact.least_slot (held : MapsExact sb state) (fits : SlotFits sb k)
    (clear : SlotClear state.disk k) (unset : sectorBit state.disk b = false)
    (least : ∀ c < b, sectorBit state.disk c = true) :
    ∃ j, b = 1 + nrDefaultFileSects * j ∧ LeastClearSlot sb state.disk j := by
  have early : b ≤ 1 + nrDefaultFileSects * k := by
    by_contra later
    have set := least _ (Nat.lt_of_not_le later)
    rw [slotClear_iff.mp clear _ (first_inSlot k)] at set
    cases set
  have positive : 1 ≤ b := by
    rcases Nat.eq_zero_or_pos b with rfl | some
    · have set := (held.smap 0 (Nat.lt_of_le_of_lt (Nat.zero_le _)
        (fits.inside (first_inSlot k)))).mpr (.inl rfl)
      rw [unset] at set
      cases set
    · exact some
  obtain ⟨j, member⟩ : ∃ j, InSlot j b := by
    refine ⟨(b - 1) / nrDefaultFileSects, ?_⟩
    unfold InSlot nrDefaultFileSects
    omega
  have below : j ≤ k := by
    unfold InSlot nrDefaultFileSects at *
    omega
  have fitsJ := fits.mono below
  have unused : ¬SlotTaken sb state j := by
    rw [← held.slot_bit member (fitsJ.inside member), unset]
    exact Bool.false_ne_true
  have start : b = 1 + nrDefaultFileSects * j := by
    by_contra apart
    have inner : InSlot j (1 + nrDefaultFileSects * j) := first_inSlot j
    have before : 1 + nrDefaultFileSects * j < b := by
      unfold InSlot at member
      omega
    exact unused ((held.slot_bit inner (fitsJ.inside inner)).mp (least _ before))
  refine ⟨j, start, fitsJ, (held.clear_iff fitsJ).mpr unused, fun i earlier clearI => ?_⟩
  have before : 1 + nrDefaultFileSects * i < b := by
    unfold nrDefaultFileSects at *
    omega
  have set := least _ before
  rw [slotClear_iff.mp clearI _ (first_inSlot i)] at set
  cases set

end Slots

section Counting

variable {sb : SuperBlock} {state : MapState} {k : Nat}

/-- There are no more live files than inode numbers for them. -/
theorem MapsExact.live_length (held : MapsExact sb state) : state.live.length ≤ 4091 := by
  have unique : (state.live.map LiveFile.inodeNr).Nodup :=
    List.pairwise_map.mpr (held.distinct.imp And.left)
  have numbers : state.live.map LiveFile.inodeNr ⊆ List.range' 5 4091 := by
    intro n member
    obtain ⟨file, live, rfl⟩ := List.mem_map.mp member
    have bounds := held.inodes file live
    unfold sectorBits at bounds
    exact List.mem_range'_1.mpr (by omega)
  have fewer := (List.subperm_of_subset unique numbers).length_le
  rwa [List.length_map, List.length_range'] at fewer

/-- Every slot ahead of the least clear one has a live file of its own, but for
root's. -/
theorem MapsExact.slot_early (held : MapsExact sb state) (least : LeastClearSlot sb state.disk k) :
    k ≤ state.live.length + 1 := by
  obtain ⟨fits, _, earlier⟩ := least
  have unique : ((List.range' 1 (k - 1)).map fun j => sb.n1stSect + nrDefaultFileSects * j).Nodup := by
    refine List.Nodup.map (fun i j same => ?_) List.nodup_range'
    exact slot_unique rfl same
  have files : ((List.range' 1 (k - 1)).map fun j => sb.n1stSect + nrDefaultFileSects * j) ⊆
      state.live.map LiveFile.startSect := by
    intro sect member
    obtain ⟨j, inside, rfl⟩ := List.mem_map.mp member
    obtain ⟨low, high⟩ := List.mem_range'_1.mp inside
    have taken : SlotTaken sb state j := by
      by_contra unused
      exact earlier j (by omega) ((held.clear_iff (fits.mono (by omega))).mpr unused)
    rcases taken with zero | ⟨file, live, start⟩
    · omega
    · exact List.mem_map.mpr ⟨file, live, start⟩
  have fewer := (List.subperm_of_subset unique files).length_le
  rw [List.length_map, List.length_map, List.length_range'] at fewer
  omega

theorem leastClearSlot_exists {disk : Disk} (fits : SlotFits sb k) (clear : SlotClear disk k) :
    ∃ j, LeastClearSlot sb disk j := by
  have some : ∃ j, SlotClear disk j := ⟨k, clear⟩
  refine ⟨Nat.find some, fits.mono (Nat.find_min' some clear), Nat.find_spec some, fun j before => ?_⟩
  exact Nat.find_min some before

end Counting

section Steps

variable {sb : SuperBlock} {state : MapState}

/-- One file more, when the bits of its inode and of its slot are set. -/
theorem MapsExact.add (held : MapsExact sb state) {disk : Disk} {n k : Nat} (insideN : n < sectorBits)
    (newInode : ¬(n ≤ 4 ∨ ∃ file ∈ state.live, file.inodeNr = n)) (fits : SlotFits sb k)
    (newSlot : ¬SlotTaken sb state k)
    (imap : ∀ m, inodeBit disk m = (inodeBit state.disk m || decide (m = n)))
    (smap : ∀ c < sb.nrSmapSects * sectorBits,
      sectorBit disk c = true ↔ sectorBit state.disk c = true ∨ InSlot k c) :
    MapsExact sb
      { disk := disk, live := ⟨n, sb.n1stSect + nrDefaultFileSects * k⟩ :: state.live } := by
  constructor
  · intro m inside
    rw [imap, Bool.or_eq_true, held.imap m inside, decide_eq_true_eq]
    simp only [List.mem_cons, exists_eq_or_imp]
    rw [or_right_comm, or_assoc, @eq_comm _ m n]
  · intro c inside
    rw [smap c inside, held.smap c inside]
    simp only [List.mem_cons, exists_eq_or_imp]
    have own : (∃ l, sb.n1stSect + nrDefaultFileSects * k = sb.n1stSect + nrDefaultFileSects * l ∧
        InSlot l c) ↔ InSlot k c := by
      constructor
      · rintro ⟨l, same, member⟩
        exact slot_unique rfl same ▸ member
      · exact fun member => ⟨k, rfl, member⟩
    rw [own, or_assoc, or_assoc, @or_comm _ (InSlot k c)]
  · intro file member
    rcases List.mem_cons.mp member with rfl | old
    · exact ⟨by simp only; omega, insideN⟩
    · exact held.inodes file old
  · intro file member
    rcases List.mem_cons.mp member with rfl | old
    · exact ⟨k, Nat.pos_of_ne_zero fun zero => newSlot (.inl zero), fits, rfl⟩
    · exact held.slots file old
  · refine List.pairwise_cons.mpr ⟨fun file member => ⟨fun same => ?_, fun same => ?_⟩, held.distinct⟩
    · exact newInode (.inr ⟨file, member, same.symm⟩)
    · exact newSlot (.inr ⟨file, member, same.symm⟩)

theorem MapsExact.remove (held : MapsExact sb state) {disk : Disk} {file : LiveFile} {k : Nat}
    (live : file ∈ state.live) (start : file.startSect = sb.n1stSect + nrDefaultFileSects * k)
    (low : 1 ≤ k)
    (imap : ∀ m, inodeBit disk m = (inodeBit state.disk m && !decide (m = file.inodeNr)))
    (smap : ∀ c < sb.nrSmapSects * sectorBits,
      sectorBit disk c = true ↔ sectorBit state.disk c = true ∧ ¬InSlot k c) :
    MapsExact sb { disk := disk, live := state.live.erase file } := by
  have five := (held.inodes file live).1
  have nodup : state.live.Nodup := held.distinct.imp fun apart same => apart.1 (congrArg _ same)
  have symm : Std.Symm fun left right : LiveFile =>
      left.inodeNr ≠ right.inodeNr ∧ left.startSect ≠ right.startSect :=
    ⟨fun _ _ apart => ⟨apart.1.symm, apart.2.symm⟩⟩
  have apart : ∀ other ∈ state.live, other ≠ file →
      other.inodeNr ≠ file.inodeNr ∧ other.startSect ≠ file.startSect :=
    fun other member differ => held.distinct.forall member live differ
  constructor
  · intro m inside
    rw [imap, Bool.and_eq_true, held.imap m inside, Bool.not_eq_true', decide_eq_false_iff_not]
    simp only [nodup.mem_erase_iff]
    constructor
    · rintro ⟨low | ⟨other, member, rfl⟩, differ⟩
      · exact .inl low
      · exact .inr ⟨other, ⟨fun same => differ (congrArg _ same), member⟩, rfl⟩
    · rintro (low | ⟨other, ⟨differ, member⟩, rfl⟩)
      · exact ⟨.inl low, by omega⟩
      · exact ⟨.inr ⟨other, member, rfl⟩, (apart other member differ).1⟩
  · intro c inside
    rw [smap c inside, held.smap c inside]
    simp only [nodup.mem_erase_iff]
    constructor
    · rintro ⟨zero | root | ⟨other, member, l, startL, inSlot⟩, outside⟩
      · exact .inl zero
      · exact .inr (.inl root)
      · refine .inr (.inr ⟨other, ⟨fun same => outside ?_, member⟩, l, startL, inSlot⟩)
        rw [same] at startL
        exact slot_unique startL start ▸ inSlot
    · rintro (zero | root | ⟨other, ⟨differ, member⟩, l, startL, inSlot⟩)
      · refine ⟨.inl zero, fun inSlot => ?_⟩
        unfold InSlot at inSlot
        omega
      · refine ⟨.inr (.inl root), fun inSlot => ?_⟩
        have := root.unique inSlot
        omega
      · refine ⟨.inr (.inr ⟨other, member, l, startL, inSlot⟩), fun inFile => ?_⟩
        have same := inSlot.unique inFile
        subst same
        exact (apart other member differ).2 (startL.trans start.symm)
  · exact fun other member => held.inodes other (List.mem_of_mem_erase member)
  · exact fun other member => held.slots other (List.mem_of_mem_erase member)
  · exact held.distinct.sublist List.erase_sublist

theorem MapsExact.take (held : MapsExact sb state) (maps : MapsAt sb) (near : sb.n1stSect ≤ 2 ^ 31)
    (room : MapsHaveRoom sb state.disk) :
    ∃ n k, (state.take sb).live = ⟨n, sb.n1stSect + nrDefaultFileSects * k⟩ :: state.live ∧
      LeastClearInode state.disk n ∧ LeastClearSlot sb state.disk k ∧
      MapsExact sb (state.take sb) := by
  obtain ⟨clearInode, i, _, fitsI, clearI⟩ := room
  obtain ⟨n, disk1, imap, insideN, zeroN, leastN, bitsN, frameN⟩ :=
    allocImapBit_clear maps clearInode
  have sameSmap (b : Nat) : sectorBit disk1 b = sectorBit state.disk b :=
    sectorBit_congr (fun r low _ => frameN r (by omega))
      (show b < (b + 1) * sectorBits by unfold sectorBits; omega)
  -- A clear bit whose sector number is no greater than the live files allow.
  obtain ⟨j, leastJ⟩ := leastClearSlot_exists fitsI clearI
  have early := held.slot_early leastJ
  have few := held.live_length
  have unsetJ : sectorBit disk1 (1 + nrDefaultFileSects * j) = false := by
    rw [sameSmap]
    exact slotClear_iff.mp leastJ.2.1 _ (first_inSlot j)
  obtain ⟨b, disk2, smap, insideB, zeroB, leastB, bitsB, frameB⟩ :=
    allocSmapBit_clear maps (by decide : 0 < nrDefaultFileSects)
      ⟨_, leastJ.1.inside (first_inSlot j), by unfold nrDefaultFileSects; omega, unsetJ⟩
  rw [sameSmap] at zeroB
  obtain ⟨k, rfl, leastK⟩ := held.least_slot fitsI clearI zeroB fun c before =>
    (sameSmap c).symm.trans (leastB c before)
  have fitsK := leastK.1
  have sector : 1 + nrDefaultFileSects * k + sb.n1stSect - 1 =
      sb.n1stSect + nrDefaultFileSects * k := by omega
  have taken : state.take sb =
      { disk := disk2, live := ⟨n, sb.n1stSect + nrDefaultFileSects * k⟩ :: state.live } := by
    simp only [MapState.take, imap, smap, sector]
  have newSlot : ¬SlotTaken sb state k := (held.clear_iff fitsK).mp leastK.2.1
  have newInode : ¬(n ≤ 4 ∨ ∃ file ∈ state.live, file.inodeNr = n) := by
    rw [← held.imap n insideN, zeroN]
    exact Bool.false_ne_true
  refine ⟨n, k, by rw [taken], ⟨zeroN, leastN⟩, leastK, ?_⟩
  rw [taken]
  refine held.add insideN newInode fitsK newSlot (fun m => ?_) fun c inside => ?_
  · have kept : inodeBit disk2 m = inodeBit disk1 m := by
      unfold inodeBit
      rw [frameB 2 (by omega)]
    rw [kept, bitsN]
  · have whole : 1 + nrDefaultFileSects * k ≤ c ∧
        c < min (1 + nrDefaultFileSects * k + nrDefaultFileSects) (sb.nrSmapSects * sectorBits) ↔
        InSlot k c := by
      unfold InSlot
      rw [Nat.mul_succ]
      omega
    rw [bitsB, sameSmap, Bool.or_eq_true, decide_eq_true_eq, whole]

theorem MapsExact.give (held : MapsExact sb state) (maps : MapsAt sb) {file : LiveFile}
    (live : file ∈ state.live) : MapsExact sb (state.give sb file) := by
  obtain ⟨k, low, fits, start⟩ := held.slots file live
  obtain ⟨five, insideN⟩ := held.inodes file live
  have sector : file.startSect = 1 + nrDefaultFileSects * k + sb.n1stSect - 1 := by omega
  have stop : 1 + nrDefaultFileSects * k + nrDefaultFileSects ≤ sb.nrSmapSects * sectorBits := by
    unfold SlotFits at fits
    rwa [Nat.mul_succ, ← Nat.add_assoc] at fits
  obtain ⟨bits, frame⟩ := freeSmapBits_spec (freeImapBit state.disk file.inodeNr) maps
    (Nat.le_add_right 1 (nrDefaultFileSects * k)) (by decide : 0 < nrDefaultFileSects) stop
  unfold MapState.give
  rw [sector]
  refine held.remove live start low (fun m => ?_) fun c inside => ?_
  · have kept : inodeBit (freeSmapBits sb (freeImapBit state.disk file.inodeNr)
        (1 + nrDefaultFileSects * k + sb.n1stSect - 1) nrDefaultFileSects) m =
        inodeBit (freeImapBit state.disk file.inodeNr) m := by
      unfold inodeBit
      rw [frame 2 (by omega)]
    rw [kept, freeImapBit_bit insideN]
  · have sameSmap : sectorBit (freeImapBit state.disk file.inodeNr) c = sectorBit state.disk c :=
      sectorBit_congr (fun r low _ => freeImapBit_other (by omega)) inside
    have whole : 1 + nrDefaultFileSects * k ≤ c ∧
        c < 1 + nrDefaultFileSects * k + nrDefaultFileSects ↔ InSlot k c := by
      unfold InSlot
      rw [Nat.mul_succ, Nat.add_assoc]
    rw [bits, sameSmap, Bool.and_eq_true, Bool.not_eq_true', decide_eq_false_iff_not, whole]

end Steps

section Runs

variable {size : Nat} {disk : Disk} {state : MapState}

theorem mkfs_mapsExact (bounded : size < 2 ^ 32) (disk : Disk) :
    MapsExact (newSuperBlock size) { disk := mkfs size disk, live := [] } := by
  have formatted := mkfs_formatted bounded disk
  constructor
  · intro n inside
    have bit := formatted.imap_bit n
    simp only [volumeOf, decide_eq_true inside, Bool.true_and] at bit
    simp only [bit, decide_eq_true_eq, List.not_mem_nil, false_and, exists_false, or_false]
    omega
  · intro b inside
    have bit := formatted.smap_bit inside
    simp only [volumeOf, decide_eq_true inside, Bool.true_and] at bit
    simp only [bit, decide_eq_true_eq, List.not_mem_nil, false_and, exists_false, or_false]
    unfold InSlot nrDefaultFileSects
    omega
  · exact fun _ member => absurd member List.not_mem_nil
  · exact fun _ member => absurd member List.not_mem_nil
  · exact .nil

theorem newSuperBlock_near (bounded : size < 2 ^ 32) : (newSuperBlock size).n1stSect ≤ 2 ^ 31 := by
  have small := (newSuperBlock_inodeArray bounded).small
  omega

theorem mapMachine_exact (bounded : size < 2 ^ 32)
    (reached : (mapMachine size disk).Reachable state) : MapsExact (newSuperBlock size) state := by
  have start : ∀ state, (mapMachine size disk).initial state →
      MapsExact (newSuperBlock size) state := by
    rintro state rfl
    exact mkfs_mapsExact bounded disk
  refine reached.invariant start ?_
  intro state action next held moved
  cases action with
  | create =>
      simp only [mapMachine, MapState.step] at moved
      split at moved
      next room =>
        cases moved
        obtain ⟨_, _, _, _, _, kept⟩ :=
          held.take (newSuperBlock_maps bounded) (newSuperBlock_near bounded) room
        exact kept
      next => cases moved
  | release file =>
      simp only [mapMachine, MapState.step] at moved
      split at moved
      next live =>
        cases moved
        exact held.give (newSuperBlock_maps bounded) live
      next => cases moved

/-- In every run the maps say which inodes and slots are taken, and an allocation
takes the least clear ones. -/
theorem maps_follow_files (bounded : size < 2 ^ 32)
    (reached : (mapMachine size disk).Reachable state) :
    MapsExact (newSuperBlock size) state ∧
      ∀ next, (mapMachine size disk).step state .create = some next →
        ∃ n k, next.live =
            ⟨n, (newSuperBlock size).n1stSect + nrDefaultFileSects * k⟩ :: state.live ∧
          LeastClearInode state.disk n ∧ LeastClearSlot (newSuperBlock size) state.disk k := by
  have held := mapMachine_exact bounded reached
  refine ⟨held, fun next moved => ?_⟩
  simp only [mapMachine, MapState.step] at moved
  split at moved
  next room =>
    cases moved
    obtain ⟨n, k, live, leastN, leastK, _⟩ :=
      held.take (newSuperBlock_maps bounded) (newSuperBlock_near bounded) room
    exact ⟨n, k, live, leastN, leastK⟩
  next => cases moved

/-- The maps right behind `mkfs` have room. -/
theorem mkfs_mapsHaveRoom : MapsHaveRoom (newSuperBlock 32768) (mkfs 32768 fun _ => zeroBuffer) := by
  have held := mkfs_mapsExact (by decide : 32768 < 2 ^ 32) fun _ => zeroBuffer
  have fits : SlotFits (newSuperBlock 32768) 1 := by decide
  constructor
  · refine ⟨5, by decide, ?_⟩
    have bit := held.imap 5 (by decide)
    rw [← Bool.not_eq_true]
    simpa using bit
  · refine ⟨1, by decide, fits, ?_⟩
    have clear := held.clear_iff fits
    rw [clear]
    simp [SlotTaken]

theorem maps_follow_files_first :
    ∃ next, (mapMachine 32768 fun _ => zeroBuffer).step
        { disk := mkfs 32768 fun _ => zeroBuffer, live := [] } .create = some next ∧
      ∃ n k, next.live = [⟨n, (newSuperBlock 32768).n1stSect + nrDefaultFileSects * k⟩] := by
  have start : (mapMachine 32768 fun _ => zeroBuffer).Reachable
      { disk := mkfs 32768 fun _ => zeroBuffer, live := [] } := .initial rfl
  obtain ⟨_, allocates⟩ := maps_follow_files (by decide : 32768 < 2 ^ 32) start
  obtain ⟨next, moved⟩ : ∃ next, (mapMachine 32768 fun _ => zeroBuffer).step
      { disk := mkfs 32768 fun _ => zeroBuffer, live := [] } .create = some next := by
    simp only [mapMachine, MapState.step]
    rw [if_pos mkfs_mapsHaveRoom]
    exact ⟨_, rfl⟩
  obtain ⟨n, k, live, _⟩ := allocates _ moved
  exact ⟨_, moved, n, k, live⟩

end Runs

end AempOS.Fs
