import Mathlib

/-! The `zx_status_t` values the modelled code returns, or passes through from the calls it
makes. -/

namespace Zircon

/-- A `zx_status_t`. -/
inductive Status where
  | ok
  | errNoMemory
  | errInvalidArgs
  | errOutOfRange
  | errShouldWait
  deriving DecidableEq, Repr

end Zircon
