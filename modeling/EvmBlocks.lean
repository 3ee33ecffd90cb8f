import EvmBlocks.Block
import EvmBlocks.Block.Layout
import EvmBlocks.Block.Segment
import EvmBlocks.Checked
import EvmBlocks.Cli.FileTree
import EvmBlocks.Cli.Outcome
import EvmBlocks.Cli.Request
import EvmBlocks.Decode
import EvmBlocks.Expr
import EvmBlocks.HexInput
import EvmBlocks.Instruction
import EvmBlocks.InstructionMap
import EvmBlocks.Isa.Description
import EvmBlocks.Isa.Evm
import EvmBlocks.Isa.Source
import EvmBlocks.Isa.Table
import EvmBlocks.Journal
import EvmBlocks.Main
import EvmBlocks.Opcode
import EvmBlocks.Program
import EvmBlocks.Report
import EvmBlocks.Text
import EvmBlocks.Text.Uppercase
import EvmBlocks.Proofs.Assembly
import EvmBlocks.Proofs.InstructionMap
import EvmBlocks.Proofs.Decode
import EvmBlocks.Proofs.Grouping
import EvmBlocks.Proofs.Segment
import EvmBlocks.Proofs.CutPoints
import EvmBlocks.Proofs.Append
import EvmBlocks.Proofs.Layout
import EvmBlocks.Proofs.Listing
import EvmBlocks.Proofs.Lookup
import EvmBlocks.Proofs.Safety
import EvmBlocks.Proofs.OpcodeClass
import EvmBlocks.Proofs.HexInput
import EvmBlocks.Proofs.Numeral
import EvmBlocks.Proofs.Opcode
import EvmBlocks.Proofs.JumpDests
import EvmBlocks.Proofs.Report
import EvmBlocks.Proofs.Cli
import EvmBlocks.Proofs.Replay
import EvmBlocks.Proofs.Slice
import EvmBlocks.Proofs.Store
import EvmBlocks.Proofs.Template
import EvmBlocks.Proofs.Isa.Definitions
import EvmBlocks.Proofs.Isa.Table
import EvmBlocks.Proofs.Isa.Source
import EvmBlocks.Proofs.Isa.Reordering
import EvmBlocks.Proofs.Faults
import EvmBlocks.Proofs.Malformed
import EvmBlocks.Proofs.Spacing
import EvmBlocks.Proofs.Gaps
import EvmBlocks.Proofs.Continuation
import EvmBlocks.Proofs.HexErrors
import EvmBlocks.Proofs.Isa.Faults
import EvmBlocks.Proofs.Isa.Expansion
import EvmBlocks.Proofs.Journal
import EvmBlocks.Proofs.PushValue
import EvmBlocks.Proofs.Summary
import EvmBlocks.Proofs.Texts
