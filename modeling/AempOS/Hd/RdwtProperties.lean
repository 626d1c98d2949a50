import AempOS.Hd.Rdwt

/-! The loop of `hd_rdwt` counts whole sectors down and stops at exactly 0: it ends
for the requests of whole sectors, and for no other. Those move each byte of the
buffer once, in order, and no byte behind it. -/

set_option autoImplicit false

namespace AempOS.Hd.Rdwt

open Lib

/-! ## The count of the command -/

/-- The drive is told the sectors of the request, 256 of them as 0. -/
theorem cmdCount_sectors {cnt : BitVec 32} (some : 1 ≤ cnt.toNat) (small : cnt.toNat ≤ 256 * 512) :
    sectorsOf (cmdCount cnt) = (cnt.toNat + 511) / 512 := by
  have sum : (cnt + 512 - 1).toNat = cnt.toNat + 511 := by bv_omega
  have positive : (cnt + 512 - 1).msb = false := by
    rw [BitVec.msb_eq_false_iff_two_mul_lt, sum]
    omega
  have count : (cmdCount cnt).toNat = (cnt.toNat + 511) / 512 % 256 := by
    have divisor : (512 : BitVec 32).msb = false := by decide
    have size : (512 : BitVec 32).toNat = 512 := by decide
    simp only [cmdCount, BitVec.sdiv, positive, divisor, BitVec.toNat_setWidth]
    rw [BitVec.udiv_eq, BitVec.toNat_udiv, sum, size]
  unfold sectorsOf
  split
  next zero =>
    rw [zero] at count
    simp at count
    omega
  next nonzero =>
    have positive : (cmdCount cnt).toNat ≠ 0 := fun zero => nonzero (BitVec.eq_of_toNat_eq zero)
    omega

/-! ## Requests of whole sectors -/

theorem addresses_append (la : Linear) (left right : Nat) :
    addresses la (left + right) = addresses la left ++ addresses (la + BitVec.ofNat 32 left) right := by
  simp [addresses, List.range_add, BitVec.ofNat_add, BitVec.add_assoc]

/-- After `rounds` whole sectors: the bytes before `512 * rounds` are done, the
others untouched. -/
structure Progress (drive : Drive) (type : BitVec 32) (start : LoopState) (rounds : Nat)
    (state : LoopState) : Prop where
  bytesLeft : state.bytesLeft = start.bytesLeft - BitVec.ofNat 32 (512 * rounds)
  la : state.la = start.la + BitVec.ofNat 32 (512 * rounds)
  moved : state.moved = rounds
  touched : state.touched = addresses start.la (512 * rounds)
  memory : ∀ a, state.memory a =
    if type = devRead ∧ (a - start.la).toNat < 512 * rounds then
      drive.sector ((a - start.la).toNat / 512) ((a - start.la).toNat % 512)
    else start.memory a
  sent : type ≠ devRead → state.sent = (addresses start.la (512 * rounds)).map start.memory

variable {drive : Drive} {type : BitVec 32} {start state : LoopState} {rounds : Nat}

theorem sectorMin_whole {bytesLeft : BitVec 32} (low : 512 ≤ bytesLeft.toNat)
    (high : bytesLeft.toNat ≤ 256 * 512) : sectorMin bytesLeft = 512 := by
  unfold sectorMin
  split
  next => rfl
  next short =>
    have signed : bytesLeft.toInt = bytesLeft.toNat := by
      rw [BitVec.toInt_eq_toNat_of_lt (by omega)]
    have sector : (512 : BitVec 32).toInt = 512 := by decide
    have least : ¬ (512 : Int) < bytesLeft.toInt := by
      simpa [BitVec.slt, sector] using short
    apply BitVec.eq_of_toNat_eq
    show bytesLeft.toNat = 512
    omega

theorem sub_add_assoc (a base shift : BitVec 32) : a - (base + shift) = a - base - shift := by
  bv_omega

/-- An address seen from a place `done` bytes behind `base`, modulo the addresses. -/
theorem offset_toNat (a base : Linear) {done : Nat} (small : done ≤ 255 * 512) :
    (a - (base + BitVec.ofNat 32 done)).toNat =
      if done ≤ (a - base).toNat then (a - base).toNat - done
      else (a - base).toNat + (4294967296 - done) := by
  rw [sub_add_assoc]
  generalize a - base = offset
  have behind : (BitVec.ofNat 32 done).toNat = done := Nat.mod_eq_of_lt (by omega)
  have below := offset.isLt
  rw [BitVec.toNat_sub, behind]
  split <;> omega

theorem offset_sub {a base : Linear} {done : Nat} (small : done ≤ 255 * 512) :
    (a - (base + BitVec.ofNat 32 done)).toNat < 512 ↔
      done ≤ (a - base).toNat ∧ (a - base).toNat < done + 512 := by
  rw [offset_toNat a base small]
  split <;> omega

/-- One round moves the next sector. -/
theorem round_progress (held : Progress drive type start rounds state)
    (room : 512 * (rounds + 1) ≤ start.bytesLeft.toNat) (small : start.bytesLeft.toNat ≤ 256 * 512)
    (raised : drive.raises rounds = true) :
    ∃ next, state.round drive type = some next ∧ Progress drive type start (rounds + 1) next := by
  have left : state.bytesLeft.toNat = start.bytesLeft.toNat - 512 * rounds := by
    rw [held.bytesLeft, BitVec.toNat_sub, BitVec.toNat_ofNat]
    omega
  have whole : sectorMin state.bytesLeft = 512 := sectorMin_whole (by omega) (by omega)
  have size : (512 : BitVec 32).toNat = 512 := by decide
  have further : BitVec.ofNat 32 (512 * (rounds + 1)) = BitVec.ofNat 32 (512 * rounds) + 512 := by
    rw [Nat.mul_succ, BitVec.ofNat_add]
    rfl
  have nextLa : state.la + 512 = start.la + BitVec.ofNat 32 (512 * (rounds + 1)) := by
    rw [held.la, further, BitVec.add_assoc]
  have nextLeft : state.bytesLeft - 512 = start.bytesLeft - BitVec.ofNat 32 (512 * (rounds + 1)) := by
    rw [held.bytesLeft, further, sub_add_assoc]
  have nextTouched : state.touched ++ addresses state.la 512 = addresses start.la (512 * (rounds + 1)) := by
    rw [held.touched, held.la, ← addresses_append]
    rfl
  unfold LoopState.round
  rw [held.moved, raised, whole, if_pos rfl]
  by_cases reads : type = devRead
  · rw [if_pos reads]
    refine ⟨_, rfl, nextLeft, nextLa, congrArg (· + 1) held.moved, nextTouched, fun a => ?_,
      fun writes => absurd reads writes⟩
    -- the bytes of this sector, those before it, and those behind it
    simp only [LoopState.advance, LoopState.copyOut, LoopState.portRead, size, held.memory, reads,
      true_and, held.la, held.moved, offset_sub (show 512 * rounds ≤ 255 * 512 by omega)]
    by_cases before : (a - start.la).toNat < 512 * rounds
    · rw [if_neg (by omega), if_pos before, if_pos (by omega)]
    · by_cases here : (a - start.la).toNat < 512 * rounds + 512
      · rw [if_pos ⟨by omega, here⟩, if_pos (by omega), offset_toNat _ _ (by omega),
          if_pos (by omega), copyBytes, if_pos (by omega)]
        have quotient : (a - start.la).toNat / 512 = rounds := by omega
        have remainder : (a - start.la).toNat % 512 = (a - start.la).toNat - 512 * rounds := by omega
        rw [quotient, remainder]
        simp
      · rw [if_neg (by omega), if_neg before, if_neg (by omega)]
  · rw [if_neg reads]
    have same : ∀ a, state.memory a = start.memory a := by
      intro a
      rw [held.memory, if_neg (fun both => reads both.1)]
    refine ⟨_, rfl, nextLeft, nextLa, congrArg (· + 1) held.moved, nextTouched, fun a => ?_,
      fun _ => ?_⟩
    · rw [if_neg (fun both => reads both.1)]
      exact same a
    · simp only [LoopState.advance, LoopState.portWrite, LoopState.copyIn, size]
      rw [held.sent reads, Nat.mul_succ, addresses_append, List.map_append, ← held.la]
      refine congrArg (_ ++ ·) ?_
      simp only [addresses, List.map_map]
      refine List.map_congr_left fun i inside => ?_
      have below := List.mem_range.mp inside
      simp [copyBytes, below, same]

/-- The loop from round `rounds` on ends after the last sector. -/
theorem rdwtLoop_progress {count : Nat} (cnt : start.bytesLeft.toNat = 512 * count)
    (small : start.bytesLeft.toNat ≤ 256 * 512) (raised : ∀ i < count, drive.raises i = true) :
    ∀ left rounds state, rounds + left = count → Progress drive type start rounds state →
      ∃ final, rdwtLoop drive type (left + 1) state = some final ∧ Progress drive type start count final := by
  intro left
  induction left with
  | zero =>
      intro rounds state reached held
      have zero : state.bytesLeft = 0 := by
        apply BitVec.eq_of_toNat_eq
        rw [held.bytesLeft, BitVec.toNat_sub, BitVec.toNat_ofNat]
        simp
        omega
      refine ⟨state, by rw [rdwtLoop, if_pos zero], ?_⟩
      rwa [← reached]
  | succ left ih =>
      intro rounds state reached held
      have nonzero : state.bytesLeft ≠ 0 := by
        intro zero
        have := congrArg BitVec.toNat zero
        rw [held.bytesLeft, BitVec.toNat_sub, BitVec.toNat_ofNat] at this
        simp at this
        omega
      obtain ⟨next, moved, progress⟩ := round_progress held (by omega) small (raised rounds (by omega))
      obtain ⟨final, ran, done⟩ := ih (rounds + 1) next (by omega) progress
      refine ⟨final, ?_, done⟩
      rw [rdwtLoop, if_neg nonzero, moved]
      exact ran

/-! ## Other requests -/

theorem round_left {next : LoopState} (moved : state.round drive type = some next) :
    next.bytesLeft = state.bytesLeft - 512 := by
  unfold LoopState.round at moved
  split at moved
  next =>
    cases moved
    split <;> rfl
  next => cases moved

/-- What is left after whole sectors stays left, also below 0. -/
theorem rdwtLoop_never (partial' : state.bytesLeft.toNat % 512 ≠ 0) :
    rdwtLoop drive type rounds state = none := by
  induction rounds generalizing state with
  | zero => rfl
  | succ rounds ih =>
      have nonzero : state.bytesLeft ≠ 0 := by
        rintro zero
        exact partial' (by rw [zero]; rfl)
      rw [rdwtLoop, if_neg nonzero]
      cases moved : state.round drive type with
      | none => rfl
      | some next =>
          refine ih ?_
          rw [round_left moved, BitVec.toNat_sub]
          have := state.bytesLeft.isLt
          simp
          omega

/-! ## The transfer -/

/-- The transfer of the request is done: the loop ended after the sectors that the
drive was told, and has moved the `CNT` bytes at `la` in order and no other. -/
structure Transferred (env : Env) (msg : Message) (la : Linear) (final : LoopState) : Prop where
  moved : final.moved = (msg.cnt.toNat + 511) / 512
  told : final.moved = sectorsOf (hdCmd env.hdInfo msg).count
  touched : final.touched = addresses la msg.cnt.toNat
  read : msg.type = devRead → ∀ a, final.memory a =
    if (a - la).toNat < msg.cnt.toNat then
      (env.drive (hdCmd env.hdInfo msg)).sector ((a - la).toNat / 512) ((a - la).toNat % 512)
    else env.memory a
  written : msg.type ≠ devRead → final.memory = env.memory ∧
    final.sent.take msg.cnt.toNat = (addresses la msg.cnt.toNat).map env.memory

variable {env : Env} {msg : Message} {la : Linear}

theorem rdwt_transferred (some : 1 ≤ msg.cnt.toNat) (small : msg.cnt.toNat ≤ 256 * 512)
    (serves : (env.drive (hdCmd env.hdInfo msg)).Serves (hdCmd env.hdInfo msg)) :
    (∃ rounds final, env.rdwt msg la rounds = .some final ∧ Transferred env msg la final) ↔
      msg.cnt.toNat % 512 = 0 := by
  have told : sectorsOf (hdCmd env.hdInfo msg).count = (msg.cnt.toNat + 511) / 512 :=
    cmdCount_sectors some small
  constructor
  · rintro ⟨rounds, final, ran, -⟩
    by_contra rest
    rw [Env.rdwt, rdwtLoop_never rest] at ran
    cases ran
  · intro whole
    obtain ⟨count, cnt⟩ := Nat.dvd_of_mod_eq_zero whole
    have sectors : (msg.cnt.toNat + 511) / 512 = count := by omega
    have begins : Progress (env.drive (hdCmd env.hdInfo msg)) msg.type (env.start msg la) 0
        (env.start msg la) := by
      refine ⟨by simp, by simp, rfl, rfl, fun a => ?_, fun _ => rfl⟩
      rw [if_neg (by omega)]
    have raised : ∀ i < count, (env.drive (hdCmd env.hdInfo msg)).raises i = true :=
      fun i below => serves i (by omega)
    obtain ⟨final, ran, done⟩ := rdwtLoop_progress cnt small raised count 0 _ (by omega) begins
    refine ⟨count + 1, final, ran, ?_, ?_, ?_, fun reads a => ?_, fun writes => ⟨?_, ?_⟩⟩
    · rw [done.moved, sectors]
    · rw [done.moved, told, sectors]
    · rw [done.touched, cnt]
      rfl
    · rw [done.memory, cnt]
      simp only [reads, true_and]
      rfl
    · funext a
      rw [done.memory, if_neg (fun both => writes both.1)]
      rfl
    · rw [done.sent writes, cnt, List.take_of_length_le (by simp [addresses])]
      rfl

/-- Both functions do the transfer that they are asked for exactly if it is one of
whole sectors. A count down by sectors from another number passes 0. -/
theorem rdwt_whole_sectors (some : 1 ≤ msg.cnt.toNat) (small : msg.cnt.toNat ≤ 256 * 512)
    (serves : (env.drive (hdCmd env.hdInfo msg)).Serves (hdCmd env.hdInfo msg)) (kbuf : Linear) :
    ((∃ rounds final, env.hdRdwt msg rounds = .some final ∧
        Transferred env msg (env.va2la msg.procNr msg.buf) final) ↔ msg.cnt.toNat % 512 = 0) ∧
      ((∃ rounds final, env.hdRdwtReal msg kbuf rounds = .some final ∧
        Transferred env msg kbuf final) ↔ msg.cnt.toNat % 512 = 0) :=
  ⟨rdwt_transferred some small serves, rdwt_transferred some small serves⟩

/-- A drive that puts the number of a sector into its bytes, and answers for ever. -/
def numberedEnv : Env where
  kernelInitial := false
  memory _ := 0
  hdbuf _ := 0
  hdInfo _ := { primary := fun _ => 0, logical := fun _ => 63 }
  drive _ := { sector := fun i _ => BitVec.ofNat 8 i, raises := fun _ => true }
  segBase _ := 0

/-- A read of `cnt` bytes from `hd2a`. -/
def readRequest (cnt : BitVec 32) : Message where
  type := devRead
  device := 0x20
  position := 512
  cnt := cnt
  procNr := 4
  buf := 0x1000

theorem rdwt_whole_sectors_two :
    (∃ rounds final, numberedEnv.hdRdwt (readRequest 1024) rounds = some final ∧
        Transferred numberedEnv (readRequest 1024) 0x1000 final) ∧
      ∃ rounds final, numberedEnv.hdRdwtReal (readRequest 1024) 0xC0100000 rounds = some final ∧
        Transferred numberedEnv (readRequest 1024) 0xC0100000 final := by
  have serves : (numberedEnv.drive (hdCmd numberedEnv.hdInfo (readRequest 1024))).Serves
      (hdCmd numberedEnv.hdInfo (readRequest 1024)) := fun _ _ => rfl
  have both := rdwt_whole_sectors (by decide) (by decide) serves 0xC0100000
  exact ⟨both.1.mpr rfl, both.2.mpr rfl⟩

/-- A read of 100 bytes leaves `bytes_left` at -412 after its sector. -/
theorem rdwt_partial_never :
    (numberedEnv.drive (hdCmd numberedEnv.hdInfo (readRequest 100))).Serves
        (hdCmd numberedEnv.hdInfo (readRequest 100)) ∧
      ∀ rounds, numberedEnv.hdRdwt (readRequest 100) rounds = none ∧
        numberedEnv.hdRdwtReal (readRequest 100) 0xC0100000 rounds = none := by
  refine ⟨fun _ _ => rfl, fun rounds => ⟨?_, ?_⟩⟩
  · exact rdwtLoop_never (by decide)
  · exact rdwtLoop_never (by decide)

end AempOS.Hd.Rdwt
