import AempOS.Boot.Paging
import AempOS.Memory.MemmanInit

/-! `memtest` and `getFreeMemInfo` of `boot/loader.asm`, on a memory whose words may not
keep what is stored, and the table that `init` of `kernel/memman.c` copies after `SetupPaging`. -/

set_option autoImplicit false

namespace AempOS.Boot

open Lib Memory

/-- What a word reads as after a store to its address. -/
abbrev Ram := Nat → BitVec 32 → BitVec 32

abbrev Words := Nat → BitVec 32

def Ram.store (ram : Ram) (words : Words) (addr : Nat) (value : BitVec 32) : Words :=
  Function.update words addr (ram addr value)

def fmiBuff : Nat := 0x007FF000

/-- One round of `.mt_loop`: whether the last word of a page takes the pattern and its
complement, and the memory after the word was put back. -/
def testPage (ram : Ram) (words : Words) (eax : Nat) : Words × Bool :=
  let ebx := eax + 0xFFC
  let ecx := words ebx
  let words := ram.store words ebx 0xAA55AA55
  let words := ram.store words ebx (words ebx ^^^ 0xFFFFFFFF)
  if 0x55AA55AA ≠ words ebx then (ram.store words ebx ecx, false)
  else
    let words := ram.store words ebx (words ebx ^^^ 0xFFFFFFFF)
    if 0xAA55AA55 ≠ words ebx then (ram.store words ebx ecx, false)
    else (ram.store words ebx ecx, true)

/-- The first page from `eax` on that fails, or the one behind `stop`, if the rounds are
enough. -/
def memtest (ram : Ram) (stop : Nat) : Nat → Words → Nat → Option (Words × Nat)
  | 0, _, _ => none
  | rounds + 1, words, eax =>
      let tested := testPage ram words eax
      if tested.2 then
        if eax + 0x1000 ≤ stop then memtest ram stop rounds tested.1 (eax + 0x1000)
        else some (tested.1, eax + 0x1000)
      else some (tested.1, eax)

/-- `.fmi_loop` -/
def fmiLoop (ram : Ram) : Nat → Words → Nat → Nat → Nat → Option (Words × Nat)
  | 0, _, _, _, _ => none
  | rounds + 1, words, ebx, edx, dwFMINumber => do
      let (words, eax) ← memtest ram 0x02000000 0x2001 words ebx
      let words := ram.store words (edx + 4) (BitVec.ofNat 32 eax)
      if eax + 0x1000 < 0x02000000 then
        fmiLoop ram rounds words (eax + 0x1000) (edx + 4) (dwFMINumber + 1)
      else some (words, dwFMINumber + 1)

def getFreeMemInfo (ram : Ram) (words : Words) : Option Words := do
  let (words, dwFMINumber) ← fmiLoop ram 0x2001 words 0 fmiBuff 0
  some (ram.store words fmiBuff (BitVec.ofNat 32 dwFMINumber))

/-- The bytes of the words at the multiples of four. -/
def bytesOf (words : Words) : Buffer := fun o =>
  BitVec.ofNat 8 ((words (o - o % 4)).toNat / 256 ^ (o % 4))

/-- So many words from a linear address on. -/
def wordsLin (memory : Buffer) : Nat → Nat → Option (List Nat)
  | 0, _ => some []
  | count + 1, lin => do
      let word ← wordLin memory lin
      let rest ← wordsLin memory count ((lin + 4) % 4294967296)
      some (word :: rest)

/-- `MemInfo[1 .. MemInfo[0]]` after `init` has copied the 256 words, which are at
`FMIBuff` in the page tables of the loader. -/
def memInfo (memory : Buffer) : Option (List Nat) := do
  let memInfo ← wordsLin memory 256 fmiBuff
  some (memInfo.tail.take (memInfo.headD 0))

/-! ## One page -/

/-- The last word of the page keeps both patterns. -/
def Good (ram : Ram) (page : Nat) : Prop :=
  ram (page + 0xFFC) 0xAA55AA55 = 0xAA55AA55 ∧ ram (page + 0xFFC) 0x55AA55AA = 0x55AA55AA

instance (ram : Ram) (page : Nat) : Decidable (Good ram page) :=
  inferInstanceAs (Decidable (_ ∧ _))

variable {ram : Ram} {words : Words} {eax stop : Nat}

theorem flip_pattern : (0x55AA55AA : BitVec 32) ^^^ 0xFFFFFFFF = 0xAA55AA55 := by decide

theorem testPage_passes (ram : Ram) (words : Words) (page : Nat) :
    (testPage ram words page).2 = true ↔ Good ram page := by
  have flip : (0xAA55AA55 : BitVec 32) ^^^ 0xFFFFFFFF = 0x55AA55AA := by decide
  unfold testPage Good Ram.store
  simp only [Function.update_self]
  split
  next wrong =>
    simp only [Bool.false_eq_true, false_iff]
    rintro ⟨first, second⟩
    rw [first, flip, second] at wrong
    exact wrong rfl
  next right =>
    have right := (not_not.mp right).symm
    rw [right, flip_pattern]
    split
    next wrong =>
      simp only [Bool.false_eq_true, false_iff]
      rintro ⟨first, _⟩
      exact wrong first.symm
    next kept =>
      have kept := (not_not.mp kept).symm
      rw [kept, flip] at right
      exact ⟨fun _ => ⟨kept, right⟩, fun _ => rfl⟩

theorem testPage_other (ram : Ram) (words : Words) {page addr : Nat} (other : addr ≠ page + 0xFFC) :
    (testPage ram words page).1 addr = words addr := by
  unfold testPage Ram.store
  simp only
  split
  next => simp only [Function.update_of_ne other]
  next =>
    split
    next => simp only [Function.update_of_ne other]
    next => simp only [Function.update_of_ne other]

/-- `memtest` goes on to the first page that is not good. -/
theorem memtest_spec {rounds : Nat} (aligned : eax % 4096 = 0) (stopAligned : stop % 4096 = 0)
    (below : eax ≤ stop) (enough : stop / 4096 < eax / 4096 + rounds) (words : Words) :
    ∃ next page, memtest ram stop rounds words eax = some (next, page) ∧ page % 4096 = 0 ∧
      eax ≤ page ∧ page ≤ stop + 4096 ∧ (page ≤ stop → ¬Good ram page) ∧
      (∀ other, other % 4096 = 0 → eax ≤ other → other < page → Good ram other) ∧
      ∀ addr, addr % 4096 ≠ 0xFFC → next addr = words addr := by
  induction rounds generalizing eax words with
  | zero =>
      have reaches : eax / 4096 ≤ stop / 4096 := Nat.div_le_div_right below
      rw [Nat.add_zero] at enough
      exact absurd reaches (Nat.not_le.mpr enough)
  | succ rounds ih =>
      have verdict := testPage_passes ram words eax
      have others (addr : Nat) (apart : addr % 4096 ≠ 0xFFC) :
          (testPage ram words eax).1 addr = words addr := testPage_other ram words (by omega)
      simp only [memtest]
      split
      next passed =>
        have good : Good ram eax := verdict.mp passed
        split
        next more =>
          have nextAligned : (eax + 0x1000) % 4096 = 0 := by rw [Nat.add_mod_right, aligned]
          have left : stop / 4096 < (eax + 0x1000) / 4096 + rounds := by
            rw [Nat.add_div_right eax (by decide : 0 < 0x1000)]
            omega
          obtain ⟨last, page, ran, pageAligned, low, high, bad, rest, kept⟩ :=
            ih nextAligned more left (testPage ram words eax).1
          refine ⟨last, page, ran, pageAligned, by omega, high, bad, fun other onPage from' to' => ?_,
            fun addr apart => (kept addr apart).trans (others addr apart)⟩
          by_cases here : other = eax
          · exact here ▸ good
          · exact rest other onPage (by omega) to'
        next ends =>
          refine ⟨_, eax + 0x1000, rfl, by omega, by omega, by omega, fun wrong => by omega,
            fun other onPage from' to' => ?_, others⟩
          have here : other = eax := by omega
          exact here ▸ good
      next failed =>
        have bad : ¬Good ram eax := fun good => failed (verdict.mpr good)
        exact ⟨_, eax, rfl, aligned, Nat.le_refl _, by omega, fun _ => bad,
          fun other _ low high => by omega, others⟩

end AempOS.Boot
