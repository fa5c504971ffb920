-- SUMMARY: What every core has in common.
import Mathlib

/-! # Cores -/

namespace Emu

/-- `emu_state`. -/
inductive RunState where
  | running | wfi | halted
  deriving DecidableEq, Repr

end Emu
