/-
The microseconds of the TSC, `dev/pit.c`.

The ticks are converted with the rate that the PIT has measured during
boot. All arithmetic is on `uint64_t`, so the conversion multiplies the
quotient and the remainder apart.
-/
import Mathlib.Data.BitVec

namespace Alix

/-- `pit_tsc_delta_to_us`. -/
def pitTscDeltaToUs (hz delta : BitVec 64) : BitVec 64 :=
  if hz = 0 then 0
  else delta / hz * 1000000 + delta % hz * 1000000 / hz

end Alix
