import AempOS.Lib.Locking

/-! `kernel/spinlock.c`, without the fields for debugging. -/

set_option autoImplicit false

namespace AempOS.Sync

open Lib

/-- `lock; cmpxchg`: what the word held, and what it holds now. -/
def cmpxchg (oldval newval word : Nat) : Nat × Nat :=
  (word, if word = oldval then newval else word)

/-- `locked` behind `initlock`. -/
def initlock : Nat := 0

/-- One round of the loop of `acquire`: `locked`, and whether the loop ends. -/
def acquirePass (locked : Nat) : Nat × Bool :=
  let (result, locked) := cmpxchg 0 1 locked
  (locked, result ≠ 1)

def release (_ : Nat) : Nat := 0

def spinlock : TryLock Nat where
  free := initlock
  taken := 1
  attempt := acquirePass
  release := release
  takes := rfl
  refuses := rfl
  frees := rfl

end AempOS.Sync
