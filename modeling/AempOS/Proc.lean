import Mathlib.Init

/-! The process states of `include/proc.h`, shared by every module that reads
or writes `task.stat`. -/

set_option autoImplicit false

namespace AempOS

/-- `enum proc_stat`. -/
inductive ProcStat where
  | idle | ready | sleeping | killed | running | waiting
  deriving DecidableEq, Repr

end AempOS
