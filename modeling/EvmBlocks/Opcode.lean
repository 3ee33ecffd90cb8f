import EvmBlocks.Isa.Evm

/-!
# EvmBlocks.Opcode

Opcodes and what the instruction set says about them.

Every byte is an opcode.  A byte without a row in the table is *unassigned*:
it has no mnemonic, no flags and no operand.
-/

namespace EvmBlocks

/-- An opcode byte. -/
structure Opcode where
  byte : UInt8
  deriving DecidableEq, Repr

namespace Opcode

/-! ## The row of an opcode -/

/-- The row of the opcode, if it is assigned. -/
def row? (op : Opcode) : Option Isa.Row := Isa.Evm.table.row? op.byte

/-- The mnemonic, if the opcode is assigned. -/
def mnemonic? (op : Opcode) : Option String := op.row?.map Isa.Row.mnemonic

/-- The flags; an unassigned opcode has none. -/
def flags (op : Opcode) : Isa.FlagSet := op.row?.elim .empty Isa.Row.flags

/-- The number of operand bytes that follow the opcode. -/
def immediateSize (op : Opcode) : Nat := op.row?.elim 0 Isa.Row.immediateSize

/-- The number of bytes of a complete instruction with this opcode. -/
def size (op : Opcode) : Nat := op.row?.elim 1 Isa.Row.size

theorem size_eq (op : Opcode) : op.size = 1 + op.immediateSize := by
  unfold size immediateSize
  cases op.row? <;> rfl

/-! ## Classes -/

/-- The opcode has no row. -/
def isUnassigned (op : Opcode) : Bool := op.row?.isNone

/-- The opcode places a literal on the stack. -/
def isPush (op : Opcode) : Bool := op.flags.contains Isa.Flag.push.toSet

/-- The opcode transfers control to a computed destination. -/
def isJump (op : Opcode) : Bool := op.flags.contains Isa.Flag.jump.toSet

/-- The opcode begins a basic block: it is a jump destination. -/
def isBlockStart (op : Opcode) : Bool := op.flags.contains Isa.Flag.jumpTarget.toSet

/-- The opcode finishes a basic block: it jumps or halts. -/
def isBlockEnd (op : Opcode) : Bool :=
  op.flags.intersects (Isa.Flag.jump.toSet.union Isa.Flag.halt.toSet)

/-! ## Texts -/

/-- The mnemonic, or the byte in hexadecimal if there is none. -/
def text (op : Opcode) : String := op.mnemonic?.getD (Numeral.hexByte op.byte)

/-- The opcode as a value, for inspection. -/
def inspect (op : Opcode) : String := "Opcode(" ++ op.text ++ ")"

/-! ## Collections -/

/-- The opcodes in ascending order of their bytes, each once. -/
def sortedDistinct (ops : List Opcode) : List Opcode :=
  (ops.mergeSort fun a b => a.byte ≤ b.byte).eraseReps

/-- The rows of all assigned opcodes in ascending order. -/
def assigned : List Isa.Row := Isa.Evm.table.named

end Opcode

end EvmBlocks
