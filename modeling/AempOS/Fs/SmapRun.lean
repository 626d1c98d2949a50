import AempOS.Fs.MapsProperties

/-! "free the bits in s-map" of `do_unlink` in the 32-bit integers of the code.
`freeSmapBits` has the same steps on natural numbers; for every run inside a map
the two do the same. -/

set_option autoImplicit false

namespace AempOS.Fs

open Lib

/-- The variables `s`, `fsbuf`, `i` and `bits_left`, and the disk. -/
structure RunCursor where
  disk : Disk
  s : BitVec 32
  fsbuf : Buffer
  i : BitVec 32
  bitsLeft : BitVec 32

/-- `if (i == SECTOR_SIZE)`: write the sector back and read the next one. -/
def RunCursor.turn (cursor : RunCursor) : RunCursor :=
  if cursor.i = 512 then
    let disk := wrSect cursor.disk cursor.s.toNat cursor.fsbuf
    { cursor with
      disk := disk
      s := cursor.s + 1
      fsbuf := rdSect disk (cursor.s + 1).toNat
      i := 0 }
  else cursor

def RunCursor.clearByte (cursor : RunCursor) : RunCursor :=
  { cursor with
    fsbuf := Function.update cursor.fsbuf cursor.i.toNat 0
    i := cursor.i + 1
    bitsLeft := cursor.bitsLeft - 8 }

/-- "clear bytes from the second byte to the second to last". -/
def RunCursor.clearBytes : Nat → RunCursor → RunCursor
  | 0, cursor => cursor
  | rounds + 1, cursor => RunCursor.clearBytes rounds cursor.turn.clearByte

/-- "clear the last byte", and the write of the last sector. -/
def RunCursor.finish (cursor : RunCursor) : Disk :=
  let cursor := cursor.turn
  wrSect cursor.disk cursor.s.toNat
    (Function.update cursor.fsbuf cursor.i.toNat
      (cursor.fsbuf cursor.i.toNat &&& (BitVec.allOnes 8 <<< cursor.bitsLeft.toNat)))

def runBitIdx (sb : SuperBlock) (startSect : BitVec 32) : BitVec 32 :=
  startSect - BitVec.ofNat 32 sb.n1stSect + 1

/-- `byte_cnt`. For a run that ends in its first byte it is 0 or negative, and
the loop over the bytes has no round. -/
def runByteCnt (bitIdx nrSects : BitVec 32) : BitVec 32 :=
  (nrSects - (8 - bitIdx.srem 8)).sdiv 8

/-- Where the code stands behind the first byte. -/
def runStart (sb : SuperBlock) (disk : Disk) (startSect nrSects : BitVec 32) : RunCursor :=
  let bitIdx := runBitIdx sb startSect
  let byteIdx := bitIdx.sdiv 8
  let s := 2 + BitVec.ofNat 32 sb.nrImapSects + byteIdx.sdiv 512
  let fsbuf := rdSect disk s.toNat
  let off := byteIdx.srem 512
  let bit := (bitIdx.srem 8).toNat
  let first := clearBits (8 - bit) (fsbuf off.toNat) bit nrSects.toNat
  { disk := disk
    s := s
    fsbuf := Function.update fsbuf off.toNat first.1
    i := off + 1
    bitsLeft := BitVec.ofNat 32 first.2 }

/-- `i_start_sect` and `i_nr_sects` of the file that is removed are given. -/
def clearSmapRun (sb : SuperBlock) (disk : Disk) (startSect nrSects : BitVec 32) : Disk :=
  let rounds := (runByteCnt (runBitIdx sb startSect) nrSects).toInt.toNat
  (RunCursor.clearBytes rounds (runStart sb disk startSect nrSects)).finish

/-! ## Signed division -/

private theorem toNat_sdiv {x y : BitVec 32} (left : x.toNat < 2 ^ 31) (right : y.toNat < 2 ^ 31) :
    (x.sdiv y).toNat = x.toNat / y.toNat := by
  have low : x.msb = false := BitVec.msb_eq_false_iff_two_mul_lt.mpr (by omega)
  have high : y.msb = false := BitVec.msb_eq_false_iff_two_mul_lt.mpr (by omega)
  simp only [BitVec.sdiv, low, high, BitVec.udiv_eq, BitVec.toNat_udiv]

private theorem toNat_srem {x y : BitVec 32} (left : x.toNat < 2 ^ 31) (right : y.toNat < 2 ^ 31) :
    (x.srem y).toNat = x.toNat % y.toNat := by
  have low : x.msb = false := BitVec.msb_eq_false_iff_two_mul_lt.mpr (by omega)
  have high : y.msb = false := BitVec.msb_eq_false_iff_two_mul_lt.mpr (by omega)
  simp only [BitVec.srem, low, high, BitVec.umod_eq, BitVec.toNat_umod]

/-- A negative count gives no rounds, like a count that is cut off at 0. -/
private theorem byteCnt_rounds {bitIdx nrSects : BitVec 32} (start : bitIdx.toNat < 2 ^ 31)
    (small : nrSects.toNat < 2 ^ 31) :
    (runByteCnt bitIdx nrSects).toInt.toNat = (nrSects.toNat - (8 - bitIdx.toNat % 8)) / 8 := by
  have eight : (8 : BitVec 32).toNat = 8 := rfl
  have bit : (bitIdx.srem 8).toNat = bitIdx.toNat % 8 := toNat_srem start (by decide)
  have ahead : (8 - bitIdx.srem 8).toNat = 8 - bitIdx.toNat % 8 := by bv_omega
  unfold runByteCnt
  generalize 8 - bitIdx.srem 8 = part at ahead ⊢
  by_cases beyond : part.toNat ≤ nrSects.toNat
  · have rest : (nrSects - part).toNat = nrSects.toNat - part.toNat := by bv_omega
    have quotient : ((nrSects - part).sdiv 8).toNat = (nrSects.toNat - part.toNat) / 8 := by
      rw [toNat_sdiv (by omega) (by decide), rest, eight]
    rw [BitVec.toInt_eq_toNat_of_lt (by omega), Int.toNat_natCast, quotient, ahead]
  · have negative : (nrSects - part).toInt = (nrSects.toNat : Int) - part.toNat := by
      rw [BitVec.toInt_sub, BitVec.toInt_eq_toNat_of_lt (by omega),
        BitVec.toInt_eq_toNat_of_lt (by omega)]
      exact Int.bmod_eq_of_le (by omega) (by omega)
    have below : ((nrSects - part).sdiv 8).toInt ≤ 0 := by
      rw [BitVec.toInt_sdiv, negative, show (8 : BitVec 32).toInt = 8 from rfl]
      have opposite : (nrSects.toNat : Int) - part.toNat = -((part.toNat - nrSects.toNat : Nat) : Int) := by
        omega
      rw [opposite, Int.neg_tdiv]
      have quotient : ((part.toNat - nrSects.toNat : Nat) : Int).tdiv 8 = 0 ∨
          ((part.toNat - nrSects.toNat : Nat) : Int).tdiv 8 = 1 := by
        rw [Int.tdiv_eq_ediv_of_nonneg (Int.natCast_nonneg _)]
        omega
      rcases quotient with zero | one
      · rw [zero]
        decide
      · rw [one]
        decide
    omega

/-! ## The two cursors -/

/-- The variables as natural numbers. -/
def RunCursor.toSmap (cursor : RunCursor) : SmapCursor where
  disk := cursor.disk
  s := cursor.s.toNat
  fsbuf := cursor.fsbuf
  i := cursor.i.toNat
  bitsLeft := cursor.bitsLeft.toNat

variable {cursor : RunCursor}

theorem RunCursor.toSmap_turn (room : cursor.s.toNat + 1 < 2 ^ 32) :
    cursor.turn.toSmap = cursor.toSmap.turn := by
  have next : (cursor.s + 1).toNat = cursor.s.toNat + 1 := by bv_omega
  unfold RunCursor.turn SmapCursor.turn
  by_cases last : cursor.i = 512
  · rw [if_pos last, if_pos (show cursor.toSmap.i = sectorSize from congrArg BitVec.toNat last)]
    simp only [toSmap, next]
    rfl
  · have inside : cursor.toSmap.i ≠ sectorSize := fun same => last (BitVec.eq_of_toNat_eq same)
    rw [if_neg last, if_neg inside]

theorem RunCursor.turn_s (room : cursor.s.toNat + 1 < 2 ^ 32) :
    cursor.turn.s.toNat ≤ cursor.s.toNat + 1 := by
  unfold turn
  split
  next => bv_omega
  next => exact Nat.le_succ _

theorem RunCursor.turn_i (high : cursor.i.toNat ≤ 512) : cursor.turn.i.toNat < 512 := by
  unfold turn
  split
  next => exact Nat.zero_lt_succ _
  next other => bv_omega

theorem RunCursor.turn_bitsLeft : cursor.turn.bitsLeft = cursor.bitsLeft := by
  unfold turn
  split
  next => rfl
  next => rfl

theorem RunCursor.toSmap_clearByte (high : cursor.i.toNat < 512) (some : 8 ≤ cursor.bitsLeft.toNat) :
    cursor.clearByte.toSmap = cursor.toSmap.clearByte := by
  have next : (cursor.i + 1).toNat = cursor.i.toNat + 1 := by bv_omega
  have left : (cursor.bitsLeft - 8).toNat = cursor.bitsLeft.toNat - 8 := by bv_omega
  simp only [toSmap, clearByte, SmapCursor.clearByte, next, left]

theorem RunCursor.toSmap_clearBytes {rounds : Nat} (room : cursor.s.toNat + rounds < 2 ^ 32)
    (high : cursor.i.toNat ≤ 512) (some : 8 * rounds ≤ cursor.bitsLeft.toNat) :
    (RunCursor.clearBytes rounds cursor).toSmap = SmapCursor.clearBytes rounds cursor.toSmap ∧
      (RunCursor.clearBytes rounds cursor).s.toNat ≤ cursor.s.toNat + rounds := by
  induction rounds generalizing cursor with
  | zero => exact ⟨rfl, Nat.le_refl _⟩
  | succ rounds ih =>
      have turned : cursor.turn.bitsLeft.toNat = cursor.bitsLeft.toNat := by rw [turn_bitsLeft]
      have within := turn_i high
      have sect := @turn_s cursor (by omega)
      have cleared := toSmap_clearByte within (by omega : 8 ≤ cursor.turn.bitsLeft.toNat)
      have left : cursor.turn.clearByte.bitsLeft.toNat = cursor.turn.bitsLeft.toNat - 8 :=
        congrArg SmapCursor.bitsLeft cleared
      have next : cursor.turn.clearByte.i.toNat = cursor.turn.i.toNat + 1 :=
        congrArg SmapCursor.i cleared
      have same : cursor.turn.clearByte.s = cursor.turn.s := rfl
      obtain ⟨rest, bound⟩ := @ih cursor.turn.clearByte (by rw [same]; omega) (by omega)
        (by omega)
      rw [same] at bound
      rw [RunCursor.clearBytes, SmapCursor.clearBytes, rest, cleared, toSmap_turn (by omega)]
      exact ⟨rfl, by omega⟩

theorem RunCursor.finish_eq (room : cursor.s.toNat + 1 < 2 ^ 32) :
    cursor.finish = cursor.toSmap.finish := by
  unfold SmapCursor.finish
  rw [← toSmap_turn room]
  rfl

/-! ## Runs inside a map -/

variable {sb : SuperBlock} {b count : Nat}

/-- The map has fewer bits than a signed integer counts, far more than the drive
has sectors, whose numbers have 28 bits. -/
structure MapFits (sb : SuperBlock) : Prop where
  imap : sb.nrImapSects = 1
  small : sb.nrSmapSects < 2 ^ 19

/-- `mkfs` makes such maps for all sectors that the drive can be asked for. -/
theorem newSuperBlock_mapFits {size : Nat} (reached : size ≤ 2 ^ 28) :
    MapFits (newSuperBlock size) := by
  refine ⟨rfl, ?_⟩
  simp only [newSuperBlock, sectorBits]
  omega

/-- Where `freeSmapBits` stands behind the first byte of the run. -/
private def smapStart (sb : SuperBlock) (disk : Disk) (b count : Nat) : SmapCursor :=
  let s := 2 + sb.nrImapSects + b / 8 / sectorSize
  let fsbuf := rdSect disk s
  let first := clearBits (8 - b % 8) (fsbuf (b / 8 % sectorSize)) (b % 8) count
  { disk := disk
    s := s
    fsbuf := Function.update fsbuf (b / 8 % sectorSize) first.1
    i := b / 8 % sectorSize + 1
    bitsLeft := first.2 }

private theorem freeSmapBits_eq (disk : Disk) (low : 1 ≤ b) :
    freeSmapBits sb disk (b + sb.n1stSect - 1) count =
      (SmapCursor.clearBytes ((count - (8 - b % 8)) / 8) (smapStart sb disk b count)).finish := by
  have start : b + sb.n1stSect - 1 - sb.n1stSect + 1 = b := by omega
  unfold freeSmapBits
  simp only [start]
  rfl

/-- An empty run: the sector of its first bit is written back as it was read. -/
private theorem freeSmapBits_none (disk : Disk) (low : 1 ≤ b) :
    freeSmapBits sb disk (b + sb.n1stSect - 1) 0 = disk := by
  have nothing (rounds k : Nat) (byte : Byte) : clearBits rounds byte k 0 = (byte, 0) := by
    cases rounds with
    | zero => rfl
    | succ rounds => rw [clearBits, if_pos rfl]
  have left : (smapStart sb disk b 0).bitsLeft = 0 := by
    rw [smapStart, nothing]
  rw [freeSmapBits_eq disk low, Nat.zero_sub, Nat.zero_div, SmapCursor.clearBytes,
    SmapCursor.finish_flush left]
  unfold smapStart SmapCursor.flush
  simp only [nothing, Function.update_eq_self]
  exact wrSect_rdSect disk _

private theorem runBitIdx_eq (low : 1 ≤ b) :
    runBitIdx sb (BitVec.ofNat 32 (sb.n1stSect + b - 1)) = BitVec.ofNat 32 b := by
  unfold runBitIdx
  bv_omega

private theorem toNat_ofNat_small {n : Nat} (small : n < 2 ^ 31) : (BitVec.ofNat 32 n).toNat = n := by
  rw [BitVec.toNat_ofNat, Nat.mod_eq_of_lt (by omega)]

private theorem runStart_toSmap (imap : sb.nrImapSects = 1) (disk : Disk) (low : 1 ≤ b)
    (first : b < 2 ^ 31) (run : count < 2 ^ 31) :
    (runStart sb disk (BitVec.ofNat 32 (sb.n1stSect + b - 1)) (BitVec.ofNat 32 count)).toSmap =
      smapStart sb disk b count := by
  have start := toNat_ofNat_small first
  have byteIdx : ((BitVec.ofNat 32 b).sdiv 8).toNat = b / 8 := by
    rw [toNat_sdiv (by omega) (by decide), start]
    rfl
  have bit : ((BitVec.ofNat 32 b).srem 8).toNat = b % 8 := by
    rw [toNat_srem (by omega) (by decide), start]
    rfl
  have off : (((BitVec.ofNat 32 b).sdiv 8).srem 512).toNat = b / 8 % sectorSize := by
    rw [toNat_srem (by omega) (by decide), byteIdx]
    rfl
  have page : (((BitVec.ofNat 32 b).sdiv 8).sdiv 512).toNat = b / 8 / sectorSize := by
    rw [toNat_sdiv (by omega) (by decide), byteIdx]
    rfl
  have sect : (2 + BitVec.ofNat 32 sb.nrImapSects + ((BitVec.ofNat 32 b).sdiv 8).sdiv 512).toNat =
      2 + sb.nrImapSects + b / 8 / sectorSize := by
    rw [imap]
    unfold sectorSize at page ⊢
    bv_omega
  have next : (((BitVec.ofNat 32 b).sdiv 8).srem 512 + 1).toNat = b / 8 % sectorSize + 1 := by
    unfold sectorSize at off ⊢
    bv_omega
  have left : (BitVec.ofNat 32 (count - (8 - b % 8))).toNat = count - (8 - b % 8) :=
    toNat_ofNat_small (by omega)
  unfold runStart RunCursor.toSmap smapStart
  simp only [runBitIdx_eq low, sect, bit, off, toNat_ofNat_small run, clearBits_left, next, left]

theorem clearSmapRun_eq (fits : MapFits sb) (disk : Disk) (low : 1 ≤ b)
    (high : b + count ≤ sb.nrSmapSects * sectorBits) :
    clearSmapRun sb disk (BitVec.ofNat 32 (sb.n1stSect + b - 1)) (BitVec.ofNat 32 count) =
      freeSmapBits sb disk (b + sb.n1stSect - 1) count := by
  have small := fits.small
  have imap := fits.imap
  unfold sectorBits at high
  have begins := runStart_toSmap imap disk low (by omega : b < 2 ^ 31) (by omega : count < 2 ^ 31)
  have rounds : (runByteCnt (BitVec.ofNat 32 b) (BitVec.ofNat 32 count)).toInt.toNat =
      (count - (8 - b % 8)) / 8 := by
    rw [byteCnt_rounds, toNat_ofNat_small (by omega), toNat_ofNat_small (by omega)]
    · rw [toNat_ofNat_small (by omega)]
      omega
    · rw [toNat_ofNat_small (by omega)]
      omega
  rw [freeSmapBits_eq disk low, clearSmapRun, runBitIdx_eq low, rounds]
  generalize runStart sb disk (BitVec.ofNat 32 (sb.n1stSect + b - 1)) (BitVec.ofNat 32 count) = cursor
    at begins
  have atSect : cursor.s.toNat = 2 + sb.nrImapSects + b / 8 / sectorSize :=
    congrArg SmapCursor.s begins
  have atByte : cursor.i.toNat = b / 8 % sectorSize + 1 := congrArg SmapCursor.i begins
  have atBits : cursor.bitsLeft.toNat = count - (8 - b % 8) :=
    (congrArg SmapCursor.bitsLeft begins).trans (clearBits_left _ _ _ _)
  unfold sectorSize at atSect atByte
  obtain ⟨same, bound⟩ := @RunCursor.toSmap_clearBytes cursor ((count - (8 - b % 8)) / 8) (by omega)
    (by omega) (by omega)
  rw [RunCursor.finish_eq (by omega), same, begins]

/-- A run inside the map is cleared, and every other bit of the map and every
other sector stays as it was. -/
theorem clearSmapRun_spec (fits : MapFits sb) (disk : Disk) (low : 1 ≤ b)
    (high : b + count ≤ sb.nrSmapSects * sectorBits) :
    (∀ c, sectorBit (clearSmapRun sb disk (BitVec.ofNat 32 (sb.n1stSect + b - 1))
        (BitVec.ofNat 32 count)) c = (sectorBit disk c && !decide (b ≤ c ∧ c < b + count))) ∧
      ∀ r, r < 3 ∨ 3 + sb.nrSmapSects ≤ r →
        clearSmapRun sb disk (BitVec.ofNat 32 (sb.n1stSect + b - 1)) (BitVec.ofNat 32 count) r =
          disk r := by
  rw [clearSmapRun_eq fits disk low high]
  by_cases empty : count = 0
  · subst empty
    rw [freeSmapBits_none disk low]
    refine ⟨fun c => ?_, fun _ _ => rfl⟩
    rw [decide_eq_false (by omega), Bool.not_false, Bool.and_true]
  · have small := fits.small
    have maps : MapsAt { sb with n1stSect := 2 } :=
      ⟨fits.imap, Nat.le_refl _, by simp only; omega⟩
    have moved : freeSmapBits sb disk (b + sb.n1stSect - 1) count =
        freeSmapBits { sb with n1stSect := 2 } disk (b + 2 - 1) count := by
      have other := @freeSmapBits_eq { sb with n1stSect := 2 } b count disk low
      rw [freeSmapBits_eq disk low]
      exact other.symm
    rw [moved]
    exact freeSmapBits_spec disk maps low (Nat.pos_of_ne_zero empty) high

/-- A run over the end of the first sector of the map, on a disk of ones. -/
theorem clearSmapRun_overSectors :
    let sb := newSuperBlock 100000
    let after := clearSmapRun sb (fun _ _ => 0xFF) (BitVec.ofNat 32 (sb.n1stSect + 4090 - 1))
      (BitVec.ofNat 32 20)
    sectorBit after 4089 = true ∧ sectorBit after 4090 = false ∧ sectorBit after 4109 = false ∧
      sectorBit after 4110 = true := by
  obtain ⟨bits, _⟩ := @clearSmapRun_spec (newSuperBlock 100000) 4090 20
    (newSuperBlock_mapFits (by decide)) (fun _ _ => 0xFF) (by decide) (by decide)
  refine ⟨?_, ?_, ?_, ?_⟩
  · rw [bits]
    decide
  · rw [bits]
    decide
  · rw [bits]
    decide
  · rw [bits]
    decide

end AempOS.Fs
