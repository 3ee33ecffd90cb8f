import EvmBlocks.Checked
import EvmBlocks.Expr
import EvmBlocks.Opcode

/-!
# EvmBlocks.Instruction

One instruction of a bytecode: an opcode at an offset, with the operand bytes
that are present.
-/

namespace EvmBlocks

/-- An opcode at an offset with its operand bytes.  There are fewer of them
than the opcode asks for when the code ends inside the operand. -/
structure Instruction where
  offset : Nat
  opcode : Opcode
  data : List UInt8
  deriving DecidableEq, Repr

namespace Instruction

/-! ## Extent -/

/-- The bytes of the instruction: its opcode, then its operand. -/
def encode (i : Instruction) : List UInt8 := i.opcode.byte :: i.data

/-- The number of bytes that are present. -/
def size (i : Instruction) : Nat := 1 + i.data.length

/-- The offset just past the instruction. -/
def stop (i : Instruction) : Nat := i.offset + i.size

/-- The offset just past the instruction, if it is an offset at all. -/
def stop? (i : Instruction) : Except ArithmeticFault Nat :=
  Checked.add maxOffset i.offset i.size

/-- The code ends before the operand is complete. -/
def isTruncated (i : Instruction) : Bool := i.size < i.opcode.size

theorem length_encode (i : Instruction) : i.encode.length = i.size := by
  simp [encode, size, Nat.add_comm]

theorem stop?_of_le (h : i.stop ≤ maxOffset) : stop? i = .ok i.stop :=
  Checked.add_of_le h

theorem stop?_of_lt (h : maxOffset < i.stop) : stop? i = .error .addOverflow :=
  Checked.add_of_lt h

theorem isTruncated_iff (i : Instruction) :
    i.isTruncated = true ↔ i.data.length < i.opcode.immediateSize := by
  simp [isTruncated, size, Opcode.size_eq]

/-! ## Values -/

/-- The literal that the instruction places on the stack, if it is a push. -/
def pushValue? (i : Instruction) : Option Expr :=
  if i.opcode.isPush then some (Expr.ofPushData i.data) else none

/-- The result of the instruction as a stack value. -/
def toExpr (i : Instruction) : Expr := .output i.offset

/-! ## Texts -/

/-- The opcode, followed by the operand in hexadecimal if there is one. -/
def text (i : Instruction) : String :=
  if i.data.isEmpty then i.opcode.text
  else i.opcode.text ++ " 0x" ++ Numeral.hexBytes i.data

/-- The instruction as a record, for inspection. -/
def inspect (i : Instruction) : String :=
  "Instruction \x7b offset: " ++ Numeral.decimal i.offset ++ ", opcode: " ++
    i.opcode.inspect ++ ", data: [" ++
    ", ".intercalate (i.data.map fun b => Numeral.decimal b.toNat) ++ "] \x7d"

end Instruction

end EvmBlocks
