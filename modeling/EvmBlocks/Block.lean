import EvmBlocks.Checked
import EvmBlocks.Text

/-!
# EvmBlocks.Block

Basic blocks as half-open ranges of byte offsets.
-/

namespace EvmBlocks

/-- The offsets from `start` up to, and without, `stop`. -/
structure Block where
  start : Nat
  stop : Nat
  deriving DecidableEq, Repr

namespace Block

/-- The number of offsets in the block. -/
def length (b : Block) : Nat := b.stop - b.start

/-- The number of offsets in the blocks of a list together. -/
def totalLength (blocks : List Block) : Nat :=
  blocks.foldl (fun total b => total + b.length) 0

/-- The number of offsets in the block, unless it stops before it starts. -/
def length? (b : Block) : Except ArithmeticFault Nat := Checked.sub b.stop b.start

/-- The block has no offsets. -/
def isEmpty (b : Block) : Bool := b.stop ≤ b.start

/-- The offset lies in the block. -/
def contains (b : Block) (offset : Nat) : Bool := b.start ≤ offset && offset < b.stop

/-- The block as a range of decimal offsets. -/
def text (b : Block) : String := Numeral.decimal b.start ++ ".." ++ Numeral.decimal b.stop

/-- The block as a record, for inspection. -/
def inspect (b : Block) : String :=
  "Block \x7b start: " ++ Numeral.decimal b.start ++ ", end: " ++ Numeral.decimal b.stop ++
    " \x7d"

theorem contains_iff (b : Block) (offset : Nat) :
    b.contains offset = true ↔ b.start ≤ offset ∧ offset < b.stop := by
  simp [contains]

theorem isEmpty_iff (b : Block) : b.isEmpty = true ↔ b.stop ≤ b.start := by
  simp [isEmpty]

end Block

end EvmBlocks
