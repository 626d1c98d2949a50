import AempOS.Fs.Maps
import AempOS.Fs.DiskProperties

/-! What the operations on the maps do to the bits of the maps. The sector map
is read as one buffer over all its sectors, and the loops over sectors, bytes
and bits as a walk along its bits. -/

set_option autoImplicit false

namespace AempOS.Fs

open Lib

/-- Where the maps stand, as far as their operations depend on it. -/
structure MapsAt (sb : SuperBlock) : Prop where
  imap : sb.nrImapSects = 1
  first : 2 ≤ sb.n1stSect
  small : 3 + sb.nrSmapSects ≤ 2 ^ 22

theorem Layout.maps {sb : SuperBlock} (layout : Layout sb) : MapsAt sb := by
  have first := layout.first
  have small := layout.small
  exact ⟨layout.imap, by omega, by omega⟩

/-- Bit `n` of the inode map. -/
def inodeBit (disk : Disk) (n : Nat) : Bool :=
  bitAt (disk 2) n

/-- The sectors of the sector map in one buffer. -/
def smapBytes (disk : Disk) : Buffer := fun pos =>
  disk (3 + pos / sectorSize) (pos % sectorSize)

/-- Bit `b` of the sector map. -/
def sectorBit (disk : Disk) (b : Nat) : Bool :=
  bitAt (smapBytes disk) b

theorem sectorBit_congr {disk other : Disk} {count b : Nat}
    (same : ∀ r, 3 ≤ r → r < 3 + count → other r = disk r) (inside : b < count * sectorBits) :
    sectorBit other b = sectorBit disk b := by
  unfold sectorBit bitAt smapBytes sectorSize
  unfold sectorBits at inside
  rw [same _ (by omega) (by omega)]

section InodeMap

variable {sb : SuperBlock} {disk : Disk}

/-- A byte that is not full has a lowest clear bit, and setting it sets no other. -/
private theorem lowest_clear {byte : Byte} (room : byte ≠ 0xFF) :
    skipOnes byte 8 0 < 8 ∧ byte.getLsbD (skipOnes byte 8 0) = false ∧
      ∀ m < skipOnes byte 8 0, byte.getLsbD m = true := by
  have some : ∃ k < 8, byte.getLsbD k = false := by
    by_contra none
    refine room ((byte_full_iff byte).mpr fun k inside => ?_)
    by_contra clear
    exact none ⟨k, inside, by simpa using clear⟩
  obtain ⟨k, inside, clear⟩ := some
  obtain ⟨_, below, zero, ones⟩ :=
    skipOnes_spec byte (Nat.zero_le k) (show k < 0 + 8 by omega) clear
  exact ⟨by omega, zero, fun m before => ones m (Nat.zero_le _) before⟩

theorem allocImapBit_full (maps : MapsAt sb) (full : ∀ n < sectorBits, inodeBit disk n = true) :
    allocImapBit sb disk = (0, disk) := by
  have present : sb.nrImapSects ≠ 0 := by rw [maps.imap]; decide
  have none : firstFrom (fun j => rdSect disk 2 j != 0xFF) sectorSize 0 = none := by
    apply firstFrom_eq_none
    intro j _ inside
    simp only [sectorSize, Nat.zero_add] at inside
    have ones : rdSect disk 2 j = 0xFF := by
      rw [rdSect_small disk (by omega), byte_full_iff]
      intro k small
      have bit := full (j * 8 + k) (by unfold sectorBits; omega)
      unfold inodeBit bitAt at bit
      rwa [show (j * 8 + k) / 8 = j by omega, show (j * 8 + k) % 8 = k by omega] at bit
    rw [ones]
    rfl
  simp only [allocImapBit, if_neg present, none]

theorem allocImapBit_clear (maps : MapsAt sb)
    (clear : ∃ n < sectorBits, inodeBit disk n = false) :
    ∃ n next, allocImapBit sb disk = (n, next) ∧ n < sectorBits ∧ inodeBit disk n = false ∧
      (∀ m < n, inodeBit disk m = true) ∧
      (∀ m, inodeBit next m = (inodeBit disk m || decide (m = n))) ∧
      ∀ r, r ≠ 2 → next r = disk r := by
  have present : sb.nrImapSects ≠ 0 := by rw [maps.imap]; decide
  have two : rdSect disk 2 = disk 2 := rdSect_small disk (by omega)
  obtain ⟨n, inside, zero⟩ := clear
  unfold sectorBits at inside
  have passes : (rdSect disk 2 (n / 8) != 0xFF) = true := by
    rw [two]
    by_contra full
    have ones := (byte_full_iff _).mp (by simpa using full) (n % 8) (by omega)
    unfold inodeBit bitAt at zero
    rw [zero] at ones
    cases ones
  have bounded : n / 8 < 0 + sectorSize := by unfold sectorSize; omega
  obtain ⟨j, hit⟩ : ∃ j, firstFrom (fun j => rdSect disk 2 j != 0xFF) sectorSize 0 = some j :=
    firstFrom_isSome (Nat.zero_le (n / 8)) bounded passes
  obtain ⟨_, below, room, earlier⟩ := firstFrom_some hit
  simp only [sectorSize, Nat.zero_add] at below
  rw [two] at room
  have notFull : disk 2 j ≠ 0xFF := by simpa using room
  obtain ⟨small, stop, ones⟩ := lowest_clear notFull
  have here : ∀ k < 8, inodeBit disk (j * 8 + k) = (disk 2 j).getLsbD k := by
    intro k bound
    unfold inodeBit bitAt
    rw [show (j * 8 + k) / 8 = j by omega, show (j * 8 + k) % 8 = k by omega]
  refine ⟨j * 8 + skipOnes (disk 2 j) 8 0, wrSect disk 2 (Function.update (disk 2) j
    (disk 2 j ||| BitVec.twoPow 8 (skipOnes (disk 2 j) 8 0))), ?_, ?_, ?_, ?_, ?_, ?_⟩
  · simp only [two] at hit
    simp only [allocImapBit, if_neg present, two, hit]
  · unfold sectorBits
    omega
  · rw [here _ small, stop]
  · intro m before
    by_cases same : m / 8 = j
    · rw [show m = j * 8 + m % 8 by omega, here _ (by omega)]
      exact ones _ (by omega)
    · have full := earlier (m / 8) (Nat.zero_le _) (by omega)
      rw [two] at full
      exact (byte_full_iff _).mp (by simpa using full) (m % 8) (by omega)
  · intro m
    unfold inodeBit
    rw [wrSect_self (by omega), bitAt_update]
    split
    next same =>
      rw [BitVec.getLsbD_or, BitVec.getLsbD_twoPow]
      unfold bitAt
      rw [same, ← Bool.decide_and]
      congr 1
      rw [decide_eq_decide]
      omega
    next other =>
      rw [decide_eq_false (by omega), Bool.or_false]
  · intro r other
    exact wrSect_other (by omega) other

theorem freeImapBit_bit {n : Nat} (inside : n < sectorBits) (m : Nat) :
    inodeBit (freeImapBit disk n) m = (inodeBit disk m && !decide (m = n)) := by
  have two : rdSect disk 2 = disk 2 := rdSect_small disk (by omega)
  unfold sectorBits at inside
  have index : n / 8 % sectorSize = n / 8 := by unfold sectorSize; omega
  unfold inodeBit freeImapBit
  simp only [index, two]
  rw [wrSect_self (by omega), bitAt_update]
  split
  next same =>
    rw [BitVec.getLsbD_and, BitVec.getLsbD_not, BitVec.getLsbD_twoPow]
    have low : m % 8 < 8 := by omega
    unfold bitAt
    rw [same, decide_eq_true low, Bool.true_and, ← Bool.decide_and]
    congr 2
    rw [decide_eq_decide]
    omega
  next other => rw [decide_eq_false (by omega), Bool.not_false, Bool.and_true]

theorem freeImapBit_other {n r : Nat} (other : r ≠ 2) : freeImapBit disk n r = disk r :=
  wrSect_other (by omega) other

end InodeMap

section SectorMapAllocation

variable {sb : SuperBlock} {disk : Disk}

/-- The state of the walk behind the first `pos` bytes: nothing met yet, or a run
begun at the least clear bit `b`, whose sector is `freeSectNr`. -/
def Walked (n1stSect count : Nat) (before : Nat → Bool) (now : Buffer)
    (pos freeSectNr left : Nat) : Prop :=
  (freeSectNr = 0 ∧ left = count ∧ (∀ c, bitAt now c = before c) ∧
      ∀ c < pos * 8, before c = true) ∨
    ∃ b < pos * 8, freeSectNr = b + n1stSect - 1 ∧ before b = false ∧
      (∀ c < b, before c = true) ∧ left = count - (pos * 8 - b) ∧
      ∀ c, bitAt now c = (before c || decide (b ≤ c ∧ c < min (b + count) (pos * 8)))

/-- The sector of the least clear bit is a `u32` number. -/
def Reaches (n1stSect : Nat) (before : Nat → Bool) : Prop :=
  ∀ b, before b = false → (∀ c < b, before c = true) → b + n1stSect ≤ 2 ^ 32

variable {n1stSect count pos freeSectNr left : Nat} {before : Nat → Bool} {now : Buffer}

private theorem bitAt_byte (buf : Buffer) (pos : Nat) {k : Nat} (small : k < 8) :
    bitAt buf (pos * 8 + k) = (buf pos).getLsbD k := by
  unfold bitAt
  rw [show (pos * 8 + k) / 8 = pos by omega, show (pos * 8 + k) % 8 = k by omega]

/-- Bits of a byte that was filled from bit `k` on. -/
private theorem bitAt_filled (now : Buffer) (pos k : Nat) (some : 0 < left) (c : Nat) :
    bitAt (Function.update now pos (setBits (8 - k) (now pos) k left).1) c =
      (bitAt now c || decide (pos * 8 + k ≤ c ∧ c < min (pos * 8 + k + left) (pos * 8 + 8))) := by
  rw [bitAt_update]
  split
  next same =>
    rw [setBits_bit _ some (Nat.mod_lt _ (by omega))]
    unfold bitAt
    rw [same]
    congr 1
    rw [decide_eq_decide]
    omega
  next other =>
    have outside : ¬(pos * 8 + k ≤ c ∧ c < min (pos * 8 + k + left) (pos * 8 + 8)) := by omega
    rw [decide_eq_false outside, Bool.or_false]

private theorem Walked.byte (walked : Walked n1stSect count before now pos freeSectNr left)
    (some : 0 < left) (nonzero : 2 ≤ n1stSect) (fits : Reaches n1stSect before) :
    Walked n1stSect count before
      (Function.update now pos (allocByte n1stSect pos (now pos) freeSectNr left).1) (pos + 1)
      (allocByte n1stSect pos (now pos) freeSectNr left).2.1
      (allocByte n1stSect pos (now pos) freeSectNr left).2.2 := by
  rcases walked with ⟨rfl, rfl, same, ones⟩ | ⟨b, inside, rfl, clear, least, rest, bits⟩
  · by_cases full : now pos = 0xFF
    · rw [allocByte, if_pos rfl, if_pos full]
      simp only [Function.update_eq_self]
      refine .inl ⟨rfl, rfl, same, fun c below => ?_⟩
      by_cases earlier : c < pos * 8
      · exact ones c earlier
      · rw [← same, show c = pos * 8 + c % 8 by omega, bitAt_byte _ _ (by omega)]
        exact (byte_full_iff _).mp full _ (by omega)
    · obtain ⟨small, stop, low⟩ := lowest_clear full
      have clear : before (pos * 8 + skipOnes (now pos) 8 0) = false := by
        rw [← same, bitAt_byte _ _ small, stop]
      have least : ∀ c < pos * 8 + skipOnes (now pos) 8 0, before c = true := by
        intro c below
        by_cases earlier : c < pos * 8
        · exact ones c earlier
        · rw [← same, show c = pos * 8 + c % 8 by omega, bitAt_byte _ _ (by omega)]
          exact low _ (by omega)
      have bound := fits _ clear least
      rw [allocByte, if_pos rfl, if_neg full]
      refine .inr ⟨pos * 8 + skipOnes (now pos) 8 0, by omega, Nat.mod_eq_of_lt (by omega),
        clear, least, ?_, fun c => ?_⟩
      · simp only [setBits_left]
        omega
      · rw [bitAt_filled _ _ _ some, same]
        congr 1
        rw [decide_eq_decide]
        omega
  · have met : b + n1stSect - 1 ≠ 0 := by omega
    rw [allocByte, if_neg met]
    refine .inr ⟨b, by omega, rfl, clear, least, ?_, fun c => ?_⟩
    · simp only [setBits_left]
      omega
    · rw [bitAt_filled now pos 0 some, bits, Bool.or_assoc]
      congr 1
      rw [← Bool.decide_or, decide_eq_decide]
      omega

/-- A finished run stays what it is over the rest of the map. -/
private theorem Walked.later (walked : Walked n1stSect count before now pos freeSectNr 0)
    (some : 0 < count) {stop : Nat} (ahead : pos ≤ stop) :
    Walked n1stSect count before now stop freeSectNr 0 := by
  rcases walked with ⟨_, zero, _⟩ | ⟨b, inside, found, clear, least, rest, bits⟩
  · omega
  · refine .inr ⟨b, by omega, found, clear, least, by omega, fun c => ?_⟩
    rw [bits]
    congr 1
    rw [decide_eq_decide]
    omega

private theorem smapBytes_store (disk : Disk) (i : Nat) (fsbuf : Buffer) (byte : Byte) {j : Nat}
    (inside : j < sectorSize) :
    smapBytes (Function.update disk (3 + i) (Function.update fsbuf j byte)) =
      Function.update (smapBytes (Function.update disk (3 + i) fsbuf)) (i * sectorSize + j) byte := by
  unfold sectorSize at inside
  funext pos
  unfold smapBytes sectorSize
  by_cases sect : pos / 512 = i
  · rw [sect, Function.update_self]
    by_cases same : pos % 512 = j
    · rw [same, Function.update_self, show pos = i * 512 + j by omega, Function.update_self]
    · have apart : pos ≠ i * 512 + j := by omega
      rw [Function.update_of_ne same, Function.update_of_ne apart, sect, Function.update_self]
  · have elsewhere : 3 + pos / 512 ≠ 3 + i := by omega
    have apart : pos ≠ i * 512 + j := by omega
    rw [Function.update_of_ne elsewhere, Function.update_of_ne apart,
      Function.update_of_ne elsewhere]

/-- Through one sector of the map, which is still in the buffer. -/
private theorem Walked.bytes {i : Nat} (some : 0 < count) (nonzero : 2 ≤ n1stSect)
    (fits : Reaches n1stSect before) {rounds j : Nat} {fsbuf : Buffer}
    (length : j + rounds = sectorSize)
    (walked : Walked n1stSect count before (smapBytes (Function.update disk (3 + i) fsbuf))
      (i * sectorSize + j) freeSectNr left) :
    Walked n1stSect count before
      (smapBytes (Function.update disk (3 + i)
        (allocBytes n1stSect (i * sectorSize) rounds j fsbuf freeSectNr left).1))
      ((i + 1) * sectorSize)
      (allocBytes n1stSect (i * sectorSize) rounds j fsbuf freeSectNr left).2.1
      (allocBytes n1stSect (i * sectorSize) rounds j fsbuf freeSectNr left).2.2 := by
  induction rounds generalizing j fsbuf freeSectNr left with
  | zero =>
      have here : i * sectorSize + j = (i + 1) * sectorSize := by rw [Nat.succ_mul]; omega
      rw [← here]
      exact walked
  | succ rounds ih =>
      have ahead : i * sectorSize + j ≤ (i + 1) * sectorSize := by rw [Nat.succ_mul]; omega
      rw [allocBytes]
      split
      next done =>
        subst done
        exact walked.later some ahead
      next more =>
        have here : smapBytes (Function.update disk (3 + i) fsbuf) (i * sectorSize + j) = fsbuf j := by
          unfold sectorSize at length
          unfold smapBytes sectorSize
          rw [show (i * 512 + j) / 512 = i by omega, show (i * 512 + j) % 512 = j by omega,
            Function.update_self]
        have next := walked.byte (Nat.pos_of_ne_zero more) nonzero fits
        rw [here, ← smapBytes_store disk i fsbuf _ (by omega), Nat.add_assoc] at next
        exact ih (by omega) next

private theorem allocBytes_met (n1stSect base : Nat) {rounds j : Nat} {fsbuf : Buffer}
    (met : freeSectNr ≠ 0) :
    (allocBytes n1stSect base rounds j fsbuf freeSectNr left).2.1 = freeSectNr := by
  induction rounds generalizing j fsbuf left with
  | zero => rfl
  | succ rounds ih =>
      rw [allocBytes]
      split
      next => rfl
      next =>
        simp only [allocByte, if_neg met]
        exact ih

private theorem Walked.sects (maps : MapsAt sb) (some : 0 < count)
    (fits : Reaches sb.n1stSect before) {rounds i : Nat}
    (length : i + rounds = sb.nrSmapSects)
    (walked : Walked sb.n1stSect count before (smapBytes disk) (i * sectorSize) freeSectNr left) :
    ∃ found next rest, allocSects sb rounds i disk freeSectNr left = (found, next) ∧
      Walked sb.n1stSect count before (smapBytes next) (sb.nrSmapSects * sectorSize) found rest ∧
      ∀ r, r < 3 ∨ 3 + sb.nrSmapSects ≤ r → next r = disk r := by
  induction rounds generalizing i disk freeSectNr left with
  | zero =>
      have here : i = sb.nrSmapSects := by omega
      subst here
      exact ⟨freeSectNr, disk, left, rfl, walked, fun _ _ => rfl⟩
  | succ rounds ih =>
      have first := maps.first
      have small := maps.small
      have below : 3 + i < 2 ^ 22 := by omega
      have sect : 1 + 1 + sb.nrImapSects + i = 3 + i := by rw [maps.imap]
      have start : Walked sb.n1stSect count before
          (smapBytes (Function.update disk (3 + i) (disk (3 + i)))) (i * sectorSize + 0)
          freeSectNr left := by
        rw [Function.update_eq_self, Nat.add_zero]
        exact walked
      have passed := start.bytes some first fits (Nat.zero_add sectorSize)
      rw [allocSects]
      simp only [sect, rdSect_small disk below, wrSect_small disk _ below]
      generalize out : allocBytes sb.n1stSect (i * sectorSize) sectorSize 0 (disk (3 + i)) freeSectNr
        left = result at passed ⊢
      -- a sector in which nothing was met is not written, and did not change
      have stored : ∃ next, (if result.2.1 = 0 then disk
            else Function.update disk (3 + i) result.1) = next ∧
          Walked sb.n1stSect count before (smapBytes next) ((i + 1) * sectorSize) result.2.1
            result.2.2 ∧
          ∀ r, r < 3 ∨ 3 + sb.nrSmapSects ≤ r → next r = disk r := by
        by_cases unmet : result.2.1 = 0
        · refine ⟨disk, if_pos unmet, ?_, fun _ _ => rfl⟩
          rcases passed with ⟨zero, all, _, ones⟩ | ⟨b, _, found, _⟩
          · rcases walked with ⟨_, _, same, _⟩ | ⟨b, _, begun, _⟩
            · exact .inl ⟨zero, all, same, ones⟩
            · have met : freeSectNr ≠ 0 := by omega
              rw [← out, allocBytes_met _ _ met] at unmet
              exact absurd unmet met
          · omega
        · refine ⟨_, if_neg unmet, passed, fun r outside => ?_⟩
          exact Function.update_of_ne (by omega) _ _
      obtain ⟨next, written, moved, frame⟩ := stored
      rw [written]
      split
      next done =>
        rw [done] at moved
        refine ⟨result.2.1, next, 0, rfl, moved.later some ?_, frame⟩
        exact Nat.mul_le_mul_right _ (by omega)
      next more =>
        obtain ⟨found, last, rest, ran, ended, outside⟩ := ih (by omega) moved
        exact ⟨found, last, rest, ran, ended, fun r apart => (outside r apart).trans (frame r apart)⟩

/-- The run starts at the least clear bit of the map, and ends at the end of the
map if it has to. -/
theorem allocSmapBit_clear (maps : MapsAt sb) (some : 0 < count)
    (clear : ∃ b < sb.nrSmapSects * sectorBits, b + sb.n1stSect ≤ 2 ^ 32 ∧
      sectorBit disk b = false) :
    ∃ b next, allocSmapBit sb disk count = (b + sb.n1stSect - 1, next) ∧
      b < sb.nrSmapSects * sectorBits ∧ sectorBit disk b = false ∧
      (∀ c < b, sectorBit disk c = true) ∧
      (∀ c, sectorBit next c = (sectorBit disk c ||
        decide (b ≤ c ∧ c < min (b + count) (sb.nrSmapSects * sectorBits)))) ∧
      ∀ r, r < 3 ∨ 3 + sb.nrSmapSects ≤ r → next r = disk r := by
  have start : Walked sb.n1stSect count (sectorBit disk) (smapBytes disk) (0 * sectorSize) 0 count :=
    .inl ⟨rfl, rfl, fun _ => rfl, fun c below => by omega⟩
  obtain ⟨d, insideMap, bound, unset⟩ := clear
  have fits : Reaches sb.n1stSect (sectorBit disk) := by
    intro b _ least
    by_contra far
    rw [least d (by omega)] at unset
    cases unset
  obtain ⟨found, next, rest, ran, ended, frame⟩ := start.sects maps some fits (Nat.zero_add _)
  have bytes : sb.nrSmapSects * sectorSize * 8 = sb.nrSmapSects * sectorBits := by
    unfold sectorSize sectorBits
    omega
  rcases ended with ⟨_, _, _, ones⟩ | ⟨b, inside, rfl, zero, least, _, bits⟩
  · rw [ones d (by omega)] at unset
    cases unset
  · rw [bytes] at inside
    refine ⟨b, next, ran, inside, zero, least, fun c => ?_, frame⟩
    rw [← bytes]
    exact bits c

end SectorMapAllocation

section SectorMapRelease

namespace SmapCursor

variable {cursor : SmapCursor} {count : Nat}

/-- The disk once the buffer is written back. -/
def flush (cursor : SmapCursor) : Disk :=
  wrSect cursor.disk cursor.s cursor.fsbuf

/-- The byte of the whole map that is next. -/
def pos (cursor : SmapCursor) : Nat :=
  (cursor.s - 3) * sectorSize + cursor.i

/-- The cursor stands in the map or right behind it. -/
structure Inside (count : Nat) (cursor : SmapCursor) : Prop where
  low : 3 ≤ cursor.s
  high : cursor.i ≤ sectorSize
  bound : cursor.pos ≤ count * sectorSize

theorem turn_flush (cursor : SmapCursor) : cursor.turn.flush = cursor.flush := by
  unfold turn
  split
  next => exact wrSect_rdSect _ _
  next => rfl

theorem Inside.turn_pos (inside : cursor.Inside count) : cursor.turn.pos = cursor.pos := by
  have low := inside.low
  unfold turn
  split
  next last =>
    unfold pos
    rw [last, show cursor.s + 1 - 3 = cursor.s - 3 + 1 by omega, Nat.succ_mul, Nat.add_zero]
  next => rfl

theorem turn_bitsLeft (cursor : SmapCursor) : cursor.turn.bitsLeft = cursor.bitsLeft := by
  unfold turn
  split
  next => rfl
  next => rfl

theorem Inside.turn (inside : cursor.Inside count) :
    3 ≤ cursor.turn.s ∧ cursor.turn.i < sectorSize := by
  have low := inside.low
  have high := inside.high
  unfold SmapCursor.turn
  split
  next => exact ⟨Nat.le_succ_of_le low, Nat.zero_lt_succ _⟩
  next other => exact ⟨low, Nat.lt_of_le_of_ne high other⟩

/-- Storing one byte at the cursor, after the turn of the page. -/
theorem Inside.store (inside : cursor.Inside count) (small : 3 + count ≤ 2 ^ 22)
    (room : cursor.pos < count * sectorSize) (byte : Byte) :
    let stored : Disk := wrSect cursor.turn.disk cursor.turn.s
      (Function.update cursor.turn.fsbuf cursor.turn.i byte)
    smapBytes stored = Function.update (smapBytes cursor.flush) cursor.pos byte ∧
      ∀ r, r < 3 ∨ 3 + count ≤ r → stored r = cursor.flush r := by
  obtain ⟨low, high⟩ := inside.turn
  have place := inside.turn_pos
  rw [← turn_flush cursor]
  generalize cursor.turn = turned at low high place ⊢
  have sect : turned.s = 3 + (turned.s - 3) := by omega
  have within : turned.s < 3 + count := by
    unfold pos sectorSize at place room
    omega
  have below : turned.s < 2 ^ 22 := by omega
  simp only
  constructor
  · rw [wrSect_small _ _ below, flush, wrSect_small _ _ below, sect,
      smapBytes_store _ _ _ _ high, ← place]
    rfl
  · intro r outside
    rw [wrSect_other below (by omega), flush, wrSect_other below (by omega)]

private theorem Inside.advance (inside : cursor.Inside count)
    (room : cursor.pos < count * sectorSize) :
    cursor.turn.clearByte.Inside count ∧ cursor.turn.clearByte.pos = cursor.pos + 1 := by
  obtain ⟨low, high⟩ := inside.turn
  have step : cursor.turn.clearByte.pos = cursor.pos + 1 := by
    rw [← inside.turn_pos]
    exact (Nat.add_assoc _ _ _).symm
  exact ⟨⟨low, high, by rw [step]; exact room⟩, step⟩

theorem Inside.clearBytes {rounds : Nat} (inside : cursor.Inside count)
    (small : 3 + count ≤ 2 ^ 22) (room : cursor.pos + rounds ≤ count * sectorSize) :
    (SmapCursor.clearBytes rounds cursor).Inside count ∧
      (SmapCursor.clearBytes rounds cursor).pos = cursor.pos + rounds ∧
      (SmapCursor.clearBytes rounds cursor).bitsLeft = cursor.bitsLeft - 8 * rounds ∧
      (∀ p, smapBytes (SmapCursor.clearBytes rounds cursor).flush p =
        if cursor.pos ≤ p ∧ p < cursor.pos + rounds then 0 else smapBytes cursor.flush p) ∧
      ∀ r, r < 3 ∨ 3 + count ≤ r →
        (SmapCursor.clearBytes rounds cursor).flush r = cursor.flush r := by
  induction rounds generalizing cursor with
  | zero =>
      rw [SmapCursor.clearBytes]
      refine ⟨inside, (Nat.add_zero _).symm, (Nat.sub_zero _).symm, fun p => ?_, fun _ _ => rfl⟩
      rw [if_neg (by omega)]
  | succ rounds ih =>
      have here : cursor.pos < count * sectorSize := by omega
      obtain ⟨bytes, frame⟩ := inside.store small here 0
      obtain ⟨ahead, place⟩ := inside.advance here
      obtain ⟨last, atEnd, left, zeros, outside⟩ := ih ahead (by omega)
      rw [SmapCursor.clearBytes]
      refine ⟨last, by omega, ?_, fun p => ?_, fun r apart => ?_⟩
      · have before := turn_bitsLeft cursor
        have after : cursor.turn.clearByte.bitsLeft = cursor.turn.bitsLeft - 8 := rfl
        omega
      · rw [zeros, place]
        by_cases same : p = cursor.pos
        · subst same
          rw [if_neg (by omega), if_pos (by omega)]
          exact (congrFun bytes _).trans (Function.update_self _ _ _)
        · by_cases behind : cursor.pos + 1 ≤ p ∧ p < cursor.pos + 1 + rounds
          · rw [if_pos behind, if_pos (by omega)]
          · rw [if_neg behind, if_neg (by omega)]
            exact (congrFun bytes _).trans (Function.update_of_ne same _ _)
      · exact (outside r apart).trans (frame r apart)

/-- With no bits left the last byte is written back as it was read. -/
theorem finish_flush (none : cursor.bitsLeft = 0) : cursor.finish = cursor.flush := by
  have keeps (byte : Byte) : byte &&& (BitVec.allOnes 8 <<< 0) = byte := by
    rw [BitVec.shiftLeft_zero, BitVec.and_allOnes]
  rw [SmapCursor.finish, ← turn_flush cursor]
  simp only [turn_bitsLeft, none, keeps, Function.update_eq_self]
  rfl

/-- The last byte: its low bits are cleared, as many as are left. -/
theorem Inside.finish (inside : cursor.Inside count) (small : 3 + count ≤ 2 ^ 22)
    (room : cursor.bitsLeft = 0 ∨ cursor.pos < count * sectorSize) :
    (∀ c, sectorBit cursor.finish c = (sectorBit cursor.flush c &&
        !decide (cursor.pos * 8 ≤ c ∧ c < cursor.pos * 8 + min cursor.bitsLeft 8))) ∧
      ∀ r, r < 3 ∨ 3 + count ≤ r → cursor.finish r = cursor.flush r := by
  by_cases none : cursor.bitsLeft = 0
  · rw [finish_flush none, none]
    refine ⟨fun c => ?_, fun _ _ => rfl⟩
    rw [decide_eq_false (by omega), Bool.not_false, Bool.and_true]
  · have here := room.resolve_left none
    obtain ⟨bytes, frame⟩ := inside.store small here
      (cursor.turn.fsbuf cursor.turn.i &&& (BitVec.allOnes 8 <<< cursor.turn.bitsLeft))
    refine ⟨fun c => ?_, frame⟩
    have held : cursor.turn.fsbuf cursor.turn.i = smapBytes cursor.flush cursor.pos := by
      obtain ⟨low, high⟩ := inside.turn
      have place := inside.turn_pos
      rw [← turn_flush cursor, ← place]
      generalize cursor.turn = turned at low high place ⊢
      have below : turned.s < 2 ^ 22 := by
        unfold pos sectorSize at place here
        omega
      unfold sectorSize at high
      unfold smapBytes flush pos sectorSize
      rw [wrSect_small _ _ below, show 3 + ((turned.s - 3) * 512 + turned.i) / 512 = turned.s by omega,
        Function.update_self, show ((turned.s - 3) * 512 + turned.i) % 512 = turned.i by omega]
    have bit : sectorBit cursor.finish c = bitAt (Function.update (smapBytes cursor.flush) cursor.pos
        (smapBytes cursor.flush cursor.pos &&& (BitVec.allOnes 8 <<< cursor.bitsLeft))) c := by
      rw [← held, ← turn_bitsLeft cursor]
      exact congrArg (bitAt · c) bytes
    rw [bit, bitAt_update]
    split
    next same =>
      have low : c % 8 < 8 := Nat.mod_lt _ (by omega)
      rw [BitVec.getLsbD_and, BitVec.getLsbD_shiftLeft, BitVec.getLsbD_allOnes,
        decide_eq_true low, decide_eq_true (show c % 8 - cursor.bitsLeft < 8 by omega),
        Bool.true_and, Bool.and_true]
      unfold sectorBit bitAt
      rw [same]
      congr 2
      rw [decide_eq_decide]
      omega
    next other =>
      rw [decide_eq_false (by omega), Bool.not_false, Bool.and_true]
      rfl

end SmapCursor

/-- Freeing a run that lies inside the map clears its bits and no others. -/
theorem freeSmapBits_spec {sb : SuperBlock} {b count : Nat} (disk : Disk) (maps : MapsAt sb)
    (low : 1 ≤ b) (some : 0 < count) (high : b + count ≤ sb.nrSmapSects * sectorBits) :
    (∀ c, sectorBit (freeSmapBits sb disk (b + sb.n1stSect - 1) count) c =
        (sectorBit disk c && !decide (b ≤ c ∧ c < b + count))) ∧
      ∀ r, r < 3 ∨ 3 + sb.nrSmapSects ≤ r →
        freeSmapBits sb disk (b + sb.n1stSect - 1) count r = disk r := by
  have first := maps.first
  have small := maps.small
  unfold sectorBits at high
  have sect : 2 + sb.nrImapSects + b / 8 / sectorSize = 3 + b / 8 / sectorSize := by
    rw [maps.imap]
  have start : b + sb.n1stSect - 1 - sb.n1stSect + 1 = b := by omega
  have below : 3 + b / 8 / sectorSize < 2 ^ 22 := by unfold sectorSize; omega
  generalize made : clearBits (8 - b % 8) (disk (3 + b / 8 / sectorSize) (b / 8 % sectorSize))
    (b % 8) count = byte
  let cursor : SmapCursor :=
    { disk := disk
      s := 3 + b / 8 / sectorSize
      fsbuf := Function.update (disk (3 + b / 8 / sectorSize)) (b / 8 % sectorSize) byte.1
      i := b / 8 % sectorSize + 1
      bitsLeft := byte.2 }
  have whole : freeSmapBits sb disk (b + sb.n1stSect - 1) count =
      (SmapCursor.clearBytes ((count - (8 - b % 8)) / 8) cursor).finish := by
    unfold freeSmapBits
    simp only [start, sect, rdSect_small disk below, made]
    rfl
  have place : cursor.pos = b / 8 + 1 := by
    simp only [SmapCursor.pos, cursor, sectorSize]
    omega
  have inside : cursor.Inside sb.nrSmapSects :=
    ⟨Nat.le_add_right _ _, Nat.mod_lt _ (by decide), by rw [place]; unfold sectorSize; omega⟩
  have left : cursor.bitsLeft = count - (8 - b % 8) := by
    simp only [cursor, ← made, clearBits_left]
  have held : smapBytes disk (b / 8) = disk (3 + b / 8 / sectorSize) (b / 8 % sectorSize) := rfl
  have flushed : smapBytes cursor.flush = Function.update (smapBytes disk) (b / 8) byte.1 := by
    have stored := smapBytes_store disk (b / 8 / sectorSize) (disk (3 + b / 8 / sectorSize)) byte.1
      (show b / 8 % sectorSize < sectorSize from Nat.mod_lt _ (by decide))
    rw [Function.update_eq_self, Nat.mul_comm, Nat.div_add_mod] at stored
    rw [← stored, SmapCursor.flush, wrSect_small _ _ below]
  obtain ⟨last, atEnd, rest, zeros, frame⟩ :=
    inside.clearBytes (show 3 + sb.nrSmapSects ≤ 2 ^ 22 by omega)
      (show cursor.pos + (count - (8 - b % 8)) / 8 ≤ sb.nrSmapSects * sectorSize by
        rw [place]; unfold sectorSize; omega)
  obtain ⟨bits, outside⟩ := last.finish (by omega)
    (by rw [atEnd, rest, place, left]; unfold sectorSize; omega)
  rw [whole]
  refine ⟨fun c => ?_, fun r apart => ?_⟩
  · have middle : sectorBit (SmapCursor.clearBytes ((count - (8 - b % 8)) / 8) cursor).flush c =
        (sectorBit disk c && !decide (b ≤ c ∧ c < b + min count (8 - b % 8) +
          8 * ((count - (8 - b % 8)) / 8))) := by
      unfold sectorBit bitAt
      rw [zeros, place, flushed]
      by_cases same : c / 8 = b / 8
      · rw [if_neg (by omega), same, Function.update_self, ← made,
          clearBits_bit _ (Nat.mod_lt _ (by omega)), held]
        congr 2
        rw [decide_eq_decide]
        omega
      · rw [Function.update_of_ne same]
        split
        next within =>
          rw [decide_eq_true (by omega)]
          simp
        next beyond => rw [decide_eq_false (by omega), Bool.not_false, Bool.and_true]
    rw [bits, middle, atEnd, rest, place, left, Bool.and_assoc]
    congr 1
    rw [← Bool.not_or, ← Bool.decide_or]
    congr 1
    rw [decide_eq_decide]
    omega
  · rw [outside r apart, frame r apart, SmapCursor.flush]
    have elsewhere : r ≠ 3 + b / 8 / sectorSize := by unfold sectorSize; omega
    exact wrSect_other below elsewhere

end SectorMapRelease

end AempOS.Fs
