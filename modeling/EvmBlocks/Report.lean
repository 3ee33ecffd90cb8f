import EvmBlocks.Program

/-!
# EvmBlocks.Report

Programs as lines of text: the disassembly, the list of blocks, and a summary
in numbers.
-/

namespace EvmBlocks.Report

/-! ## Disassembly -/

/-- One instruction with its offset in decimal and in hexadecimal. -/
def instructionLine (i : Instruction) : String :=
  "    " ++ Numeral.decimalColumn 6 i.offset ++ " (" ++ Numeral.hexPadded 4 i.offset ++ "): " ++
    i.text

/-- The line that heads a block. -/
def blockHeader (b : Block) : String := "block " ++ b.text

/-- A block with its instructions: a blank line, the header, the instructions. -/
def blockLines (b : Block) (instructions : List Instruction) : List String :=
  "" :: blockHeader b :: instructions.map instructionLine

/-- The disassembly, block by block. -/
def disassembly (p : Program) : List String :=
  p.listing.flatMap fun (b, instructions) => blockLines b instructions

/-! ## Blocks -/

/-- The ranges of the blocks. -/
def blockRanges (p : Program) : List String := p.blocks.map Block.text

/-! ## Summary -/

/-- A program in numbers. -/
structure Summary where
  codeSize : Nat
  instructions : Nat
  blocks : Nat
  bytesInBlocks : Nat
  jumpTargets : Nat
  unassigned : Nat
  truncated : Nat
  deriving DecidableEq, Repr

/-- The numbers of a program. -/
def Summary.ofProgram (p : Program) : Summary :=
  let instructions := p.instructions.instructions
  { codeSize := p.code.length
    instructions := p.instructions.size
    blocks := p.layout.size
    bytesInBlocks := Block.totalLength p.blocks
    jumpTargets := instructions.countP (·.opcode.isBlockStart)
    unassigned := instructions.countP (·.opcode.isUnassigned)
    truncated := instructions.countP Instruction.isTruncated }

/-- The summary, one number to a line. -/
def Summary.lines (s : Summary) : List String :=
  ["=== Bytecode Info ===",
    "Code size:          " ++ Numeral.decimal s.codeSize ++ " bytes",
    "Instructions:       " ++ Numeral.decimal s.instructions,
    "Basic blocks:       " ++ Numeral.decimal s.blocks,
    "Bytes in blocks:    " ++ Numeral.decimal s.bytesInBlocks,
    "JUMPDESTs:          " ++ Numeral.decimal s.jumpTargets,
    "Unassigned opcodes: " ++ Numeral.decimal s.unassigned,
    "Truncated pushes:   " ++ Numeral.decimal s.truncated]

/-- The summary of a program. -/
def info (p : Program) : List String := (Summary.ofProgram p).lines

end EvmBlocks.Report
