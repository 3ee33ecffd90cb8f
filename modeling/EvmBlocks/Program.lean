import EvmBlocks.Block.Layout
import EvmBlocks.Decode

/-!
# EvmBlocks.Program

A bytecode with its instructions and its basic blocks.
-/

namespace EvmBlocks

/-- An analysed bytecode. -/
structure Program where
  code : List UInt8
  instructions : InstructionMap
  layout : Layout

/-- The text that reports a fault found while a program was analysed. -/
def SegmentFault.report (fault : SegmentFault) : String :=
  "internal consistency fault: " ++ fault.message

namespace Program

/-- Decodes a code and segments it, with a report. -/
def analyzeLogged (j : Journal) (code : List UInt8) :
    Except SegmentFault Program × Journal :=
  let (instructions, j) := decodeLogged j code
  let (blocks, j) := instructions.segmentLogged j
  (blocks.map fun blocks => ⟨code, instructions, Layout.ofBlocks blocks⟩, j)

/-- Decodes a code and segments it. -/
def analyze (code : List UInt8) : Except SegmentFault Program :=
  (analyzeLogged .silent code).1

/-- The instruction whose opcode byte is at an offset. -/
def instructionAt? (p : Program) (offset : Nat) : Option Instruction :=
  p.instructions.get? offset

/-- The basic blocks in ascending order. -/
def blocks (p : Program) : List Block := p.layout.blocks.toList

/-- The block that contains an offset. -/
def blockAt? (p : Program) (offset : Nat) : Option Block :=
  (p.layout.blockAt? offset).bind p.layout.get?

/-- The instructions whose opcode bytes lie in a block, in ascending order. -/
def blockInstructions (p : Program) (b : Block) : List Instruction :=
  p.instructions.range b.start b.stop

/-- Each block with its instructions. -/
def listing (p : Program) : List (Block × List Instruction) :=
  p.blocks.map fun b => (b, p.blockInstructions b)

end Program

end EvmBlocks
