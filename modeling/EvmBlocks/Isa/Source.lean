import EvmBlocks.Isa.Table
import EvmBlocks.Text.Uppercase

/-!
# EvmBlocks.Isa.Source

The source text that carries an opcode table into a build: the flags, a named
constant for each opcode, and the 256 rows.
-/

namespace EvmBlocks.Isa.Table

/-- The line of the flag at position `bit`. -/
def flagLine (name : String) (bit : Nat) : String :=
  "        const " ++ Uppercase.text name ++ " = " ++
    Numeral.hexByte (FlagSet.single bit).bits ++ ";"

/-- The line of the constant that names an opcode. -/
def constantLine (r : Row) : String :=
  "    pub const " ++ r.mnemonic ++ ": Opcode = Opcode(" ++ Numeral.hexByte r.opcode ++ ");"

/-- The line of one row. -/
def rowLine : Option Row → String
  | none => "    None,"
  | some r =>
      "    Some(OpcodeInfo::new(Opcode(" ++ Numeral.hexByte r.opcode ++ "), \"" ++ r.mnemonic ++
        "\", " ++ Numeral.decimal r.immediateSize ++ ", OpcodeFlags::from_bits_retain(" ++
        Numeral.hexByte r.flags.bits ++ "))),"

/-- The lines that declare the flags. -/
def flagLines (t : Table) : List String :=
  t.flagNames.zipIdx.map fun (name, bit) => flagLine name bit

/-- The lines that name the opcodes, in ascending order. -/
def constantLines (t : Table) : List String := t.named.map constantLine

/-- The lines of the 256 rows. -/
def rowLines (t : Table) : List String := t.rows.toList.map rowLine

/-- The lines of the source text. -/
def sourceLines (t : Table) : List String :=
  ["// @generated by build.rs from isa/evm.yaml",
    "",
    "bitflags::bitflags! \x7b",
    "    /// Control-flow properties of an opcode.",
    "    #[derive(Clone, Copy, Debug, PartialEq, Eq, Hash)]",
    "    pub struct OpcodeFlags: u8 \x7b"] ++
  t.flagLines ++
  ["    \x7d",
    "\x7d",
    "",
    "impl Opcode \x7b"] ++
  t.constantLines ++
  ["\x7d",
    "",
    "static OPCODE_TABLE: [Option<OpcodeInfo>; 256] = ["] ++
  t.rowLines ++
  ["];"]

/-- The source text: each line with its newline. -/
def source (t : Table) : String := String.join (t.sourceLines.map (· ++ "\n"))

end EvmBlocks.Isa.Table
