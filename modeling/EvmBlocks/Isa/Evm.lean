import EvmBlocks.Isa.Table
import EvmBlocks.Text.Uppercase

/-!
# EvmBlocks.Isa.Evm

The instruction set of the Ethereum virtual machine: its description, and the
table that the description means.
-/

namespace EvmBlocks.Isa

/-! ## Flags -/

/-- What an opcode does to the flow of control, or that it carries a literal. -/
inductive Flag where
  /-- Transfers control. -/
  | jump
  /-- May fall through instead. -/
  | conditional
  /-- Is a valid jump destination. -/
  | jumpTarget
  /-- Stops the current frame. -/
  | halt
  /-- Places a literal on the stack. -/
  | push
  deriving DecidableEq, Repr

namespace Flag

/-- The flags in the order in which they are declared. -/
def all : List Flag := [.jump, .conditional, .jumpTarget, .halt, .push]

/-- The name under which a description declares the flag. -/
def name : Flag → String
  | .jump => "jump"
  | .conditional => "conditional"
  | .jumpTarget => "jump_target"
  | .halt => "halt"
  | .push => "push"

/-- The name of the flag as a constant. -/
def constantName (f : Flag) : String := Uppercase.text f.name

/-- The position of the flag among the declared ones. -/
def position (f : Flag) : Nat := all.idxOf f

/-- The set of this flag alone. -/
def toSet (f : Flag) : FlagSet := .single f.position

end Flag

/-- The flags of a set in the order in which they are declared. -/
def FlagSet.toFlags (s : FlagSet) : List Flag := Flag.all.filter fun f => s.contains f.toSet

/-! ## The description -/

namespace Evm

/-- A single opcode with its mnemonic and flags. -/
def entry (opcode : UInt8) (mnemonic : String) (flags : List Flag) : Entry where
  opcode := opcode
  mnemonic := mnemonic
  flags := flags.map Flag.name

/-- Stopping and arithmetic. -/
def arithmeticEntries : List Entry :=
  [ entry 0x00 "STOP" [.halt],
    entry 0x01 "ADD" [],
    entry 0x02 "MUL" [],
    entry 0x03 "SUB" [],
    entry 0x04 "DIV" [],
    entry 0x05 "SDIV" [],
    entry 0x06 "MOD" [],
    entry 0x07 "SMOD" [],
    entry 0x08 "ADDMOD" [],
    entry 0x09 "MULMOD" [],
    entry 0x0a "EXP" [],
    entry 0x0b "SIGNEXTEND" [] ]

/-- Comparison and bitwise logic. -/
def logicEntries : List Entry :=
  [ entry 0x10 "LT" [],
    entry 0x11 "GT" [],
    entry 0x12 "SLT" [],
    entry 0x13 "SGT" [],
    entry 0x14 "EQ" [],
    entry 0x15 "ISZERO" [],
    entry 0x16 "AND" [],
    entry 0x17 "OR" [],
    entry 0x18 "XOR" [],
    entry 0x19 "NOT" [],
    entry 0x1a "BYTE" [],
    entry 0x1b "SHL" [],
    entry 0x1c "SHR" [],
    entry 0x1d "SAR" [] ]

/-- Hashing. -/
def hashingEntries : List Entry :=
  [ entry 0x20 "KECCAK256" [] ]

/-- The environment of the call. -/
def environmentEntries : List Entry :=
  [ entry 0x30 "ADDRESS" [],
    entry 0x31 "BALANCE" [],
    entry 0x32 "ORIGIN" [],
    entry 0x33 "CALLER" [],
    entry 0x34 "CALLVALUE" [],
    entry 0x35 "CALLDATALOAD" [],
    entry 0x36 "CALLDATASIZE" [],
    entry 0x37 "CALLDATACOPY" [],
    entry 0x38 "CODESIZE" [],
    entry 0x39 "CODECOPY" [],
    entry 0x3a "GASPRICE" [],
    entry 0x3b "EXTCODESIZE" [],
    entry 0x3c "EXTCODECOPY" [],
    entry 0x3d "RETURNDATASIZE" [],
    entry 0x3e "RETURNDATACOPY" [],
    entry 0x3f "EXTCODEHASH" [] ]

/-- The enclosing block of the chain. -/
def blockContextEntries : List Entry :=
  [ entry 0x40 "BLOCKHASH" [],
    entry 0x41 "COINBASE" [],
    entry 0x42 "TIMESTAMP" [],
    entry 0x43 "NUMBER" [],
    entry 0x44 "PREVRANDAO" [],
    entry 0x45 "GASLIMIT" [],
    entry 0x46 "CHAINID" [],
    entry 0x47 "SELFBALANCE" [],
    entry 0x48 "BASEFEE" [],
    entry 0x49 "BLOBHASH" [],
    entry 0x4a "BLOBBASEFEE" [] ]

/-- Stack, memory, storage and control flow. -/
def flowEntries : List Entry :=
  [ entry 0x50 "POP" [],
    entry 0x51 "MLOAD" [],
    entry 0x52 "MSTORE" [],
    entry 0x53 "MSTORE8" [],
    entry 0x54 "SLOAD" [],
    entry 0x55 "SSTORE" [],
    entry 0x56 "JUMP" [.jump],
    entry 0x57 "JUMPI" [.jump, .conditional],
    entry 0x58 "PC" [],
    entry 0x59 "MSIZE" [],
    entry 0x5a "GAS" [],
    entry 0x5b "JUMPDEST" [.jumpTarget],
    entry 0x5c "TLOAD" [],
    entry 0x5d "TSTORE" [],
    entry 0x5e "MCOPY" [],
    entry 0x5f "PUSH0" [.push] ]

/-- Calls, creation and ways to leave.  A `RETURN` carries no flag, so it does not
end a basic block. -/
def systemEntries : List Entry :=
  [ entry 0xf0 "CREATE" [],
    entry 0xf1 "CALL" [],
    entry 0xf2 "CALLCODE" [],
    entry 0xf3 "RETURN" [],
    entry 0xf4 "DELEGATECALL" [],
    entry 0xf5 "CREATE2" [],
    entry 0xfa "STATICCALL" [],
    entry 0xfd "REVERT" [.halt],
    entry 0xfe "INVALID" [.halt],
    entry 0xff "SELFDESTRUCT" [.halt] ]

/-- `PUSH1` to `PUSH32`, each followed by as many bytes as its number says. -/
def pushFamily : Family where
  first := 0x60
  count := 32
  template := "PUSH\x7bn\x7d"
  immediate := .ordinal
  flags := [Flag.push.name]

/-- `DUP1` to `DUP16`. -/
def dupFamily : Family where
  first := 0x80
  count := 16
  template := "DUP\x7bn\x7d"

/-- `SWAP1` to `SWAP16`. -/
def swapFamily : Family where
  first := 0x90
  count := 16
  template := "SWAP\x7bn\x7d"

/-- `LOG0` to `LOG4`. -/
def logFamily : Family where
  first := 0xa0
  count := 5
  template := "LOG\x7bn\x7d"
  ordinalBase := 0

/-- The description of the instruction set. -/
def description : Description where
  flags := Flag.all.map Flag.name
  entries :=
    arithmeticEntries ++ logicEntries ++ hashingEntries ++ environmentEntries ++
      blockContextEntries ++ flowEntries ++ systemEntries
  families := [pushFamily, dupFamily, swapFamily, logFamily]

/-! ## The table -/

/-- The description has a table. -/
theorem isSome_build_description : (Table.build description).toOption.isSome = true := by
  decide +kernel

/-- The opcode table. -/
def table : Table := (Table.build description).toOption.get isSome_build_description

end Evm

end EvmBlocks.Isa
