import AempOS.Boot.PagingProperties

/-! `InitKernel` puts the segments of the kernel where the linker meant them to be,
from the sectors that were loaded. -/

set_option autoImplicit false

namespace AempOS.Boot

open Lib Memory

variable {memory image : Buffer} {n size lin count : Nat}

/-- What `InitKernel` reads of a program header. -/
structure Segment where
  pType : Nat
  pOffset : Nat
  pVaddr : Nat
  pFilesz : Nat

/-- The physical address of a segment. -/
def Segment.place (segment : Segment) : Nat := segment.pVaddr - 0xC0000000

def Segment.Byte (segment : Segment) (o : Nat) : Prop :=
  segment.pType ≠ 0 ∧ segment.place ≤ o ∧ o < segment.place + segment.pFilesz

/-- A segment of a file of that size. It lies in the kernel's half, in the first GiB, in
mapped memory, and apart from the file and from the page tables. -/
structure Segment.Fits (n size : Nat) (segment : Segment) : Prop where
  inFile : segment.pOffset + segment.pFilesz ≤ size
  high : 0xC0000000 ≤ segment.pVaddr
  mapped : segment.place + segment.pFilesz ≤ n * 0x400000
  low : segment.place + segment.pFilesz < 0x40000000
  file : segment.place + segment.pFilesz ≤ baseOfKernelFilePhyAddr ∨
    baseOfKernelFilePhyAddr + size ≤ segment.place
  tables : segment.place + segment.pFilesz ≤ pageDirBase ∨ pageTblBase + 8192 * n ≤ segment.place

/-- A file at the place of the kernel file, below the page tables. -/
structure Image (n size : Nat) (image memory : Buffer) : Prop where
  tables : Tables n memory
  bytes : ∀ o < size, memory (baseOfKernelFilePhyAddr + o) = image o
  nonempty : 0 < n
  most : n ≤ 1024
  small : size ≤ 0x30000

/-! ## Reading the headers -/

theorem Image.halfLin (held : Image n size image memory) {o : Nat} (inside : o + 2 ≤ size) :
    halfLin memory (baseOfKernelFilePhyAddr + o) =
      some ((image o).toNat + 256 * (image (o + 1)).toNat) := by
  have base : baseOfKernelFilePhyAddr = 0x60000 := rfl
  have small := held.small
  have nonempty := held.nonempty
  rw [held.tables.halfLin (by omega) (by omega), Nat.add_assoc, held.bytes o (by omega),
    held.bytes (o + 1) (by omega)]

theorem Image.wordLin (held : Image n size image memory) {o : Nat} (inside : o + 4 ≤ size) :
    wordLin memory (baseOfKernelFilePhyAddr + o) = some (word32 image o) := by
  have base : baseOfKernelFilePhyAddr = 0x60000 := rfl
  have small := held.small
  have nonempty := held.nonempty
  rw [held.tables.wordLin (by omega) (by omega)]
  simp only [word32, Nat.add_assoc, held.bytes o (by omega), held.bytes (o + 1) (by omega),
    held.bytes (o + 2) (by omega), held.bytes (o + 3) (by omega)]

/-! ## Copying -/

end AempOS.Boot
