/-!
# EvmBlocks.Checked

Sums and differences that must stay inside a fixed range.

Offsets are natural numbers throughout the library, so that statements about
them are statements about `Nat`.  The places where a result has to fit a
machine word go through `Checked.add` and `Checked.sub`, which answer either
the exact result or the reason why there is none.
-/

namespace EvmBlocks

/-- Why a sum or difference has no result within its range. -/
inductive ArithmeticFault where
  | addOverflow
  | subOverflow
  deriving DecidableEq, Repr

/-- The text that reports an arithmetic fault. -/
def ArithmeticFault.message : ArithmeticFault → String
  | .addOverflow => "attempt to add with overflow"
  | .subOverflow => "attempt to subtract with overflow"

/-- The greatest byte offset: offsets are 64 bits wide. -/
def maxOffset : Nat := 0xffffffffffffffff

/-- The greatest value of one byte. -/
def maxByte : Nat := 255

namespace Checked

/-- The sum, if it is at most `limit`. -/
def add (limit a b : Nat) : Except ArithmeticFault Nat :=
  if a + b ≤ limit then .ok (a + b) else .error .addOverflow

/-- The difference, if it is not negative. -/
def sub (a b : Nat) : Except ArithmeticFault Nat :=
  if b ≤ a then .ok (a - b) else .error .subOverflow

/-! ## When a result exists -/

theorem add_of_le (h : a + b ≤ limit) : add limit a b = .ok (a + b) := if_pos h

theorem add_of_lt (h : limit < a + b) : add limit a b = .error .addOverflow :=
  if_neg (Nat.not_le.mpr h)

theorem sub_of_le (h : b ≤ a) : sub a b = .ok (a - b) := if_pos h

end Checked

end EvmBlocks
