import EvmBlocks.Checked
import EvmBlocks.Isa.Description
import Std.Data.TreeMap

/-!
# EvmBlocks.Isa.Table

The opcode table that a description means, and the ways in which a
description fails to mean one.

A table is built in three steps.  The declared flags are counted; then the
entries and the members of the families are gathered in their order, one
definition per opcode byte; then the flag names of each row are resolved, in
ascending order of the opcode.  The first step that fails decides the fault.

At most eight flags are declared, in an order; a set of them is a byte in which
bit `i` stands for the `i`-th.
-/

namespace EvmBlocks.Isa

/-! ## Sets of flags -/

/-- A set of at most eight flags, one bit each. -/
structure FlagSet where
  bits : UInt8
  deriving DecidableEq, Repr

namespace FlagSet

/-- The set without flags. -/
def empty : FlagSet := ⟨0⟩

/-- The set of the one flag at position `i`. -/
def single (i : Nat) : FlagSet := ⟨1 <<< UInt8.ofNat i⟩

/-- The flags of either set. -/
def union (s t : FlagSet) : FlagSet := ⟨s.bits ||| t.bits⟩

/-- Every flag of `t` is in `s`. -/
def contains (s t : FlagSet) : Bool := s.bits &&& t.bits == t.bits

/-- Some flag is in both sets. -/
def intersects (s t : FlagSet) : Bool := s.bits &&& t.bits != 0

end FlagSet

/-! ## Faults -/

/-- Why a description has no table. -/
inductive TableFault where
  /-- More flags are declared than a byte has bits. -/
  | tooManyFlags (count : Nat)
  /-- A family runs past the last opcode byte. -/
  | familyOverflow (template : String)
  /-- An ordinal of a family does not fit a byte. -/
  | ordinalOverflow (fault : ArithmeticFault)
  /-- An opcode byte has two definitions. -/
  | redefined (opcode : UInt8) (earlier later : String)
  /-- A row names a flag that is not declared. -/
  | unknownFlag (mnemonic flag : String)
  deriving DecidableEq, Repr

/-- The text that reports a table fault. -/
def TableFault.message : TableFault → String
  | .tooManyFlags count =>
      "OpcodeFlags is a u8; " ++ Numeral.decimal count ++ " flags declared"
  | .familyOverflow template => "range " ++ template ++ " overflows a byte"
  | .ordinalOverflow fault => fault.message
  | .redefined opcode earlier later =>
      "opcode " ++ Numeral.hexByte opcode ++ " defined twice (" ++ earlier ++ " and " ++
        later ++ ")"
  | .unknownFlag mnemonic flag => mnemonic ++ ": unknown flag '" ++ flag ++ "'"

/-! ## Definitions -/

/-- What a description says about one opcode byte, its flags still by name. -/
structure Definition where
  opcode : UInt8
  mnemonic : String
  immediateSize : Nat
  flags : List String
  deriving DecidableEq, Repr

/-- The definition made by a single entry: no operand bytes. -/
def Entry.definition (e : Entry) : Definition where
  opcode := e.opcode
  mnemonic := e.mnemonic
  immediateSize := 0
  flags := e.flags

/-- The number of operand bytes of the member of a family with this ordinal. -/
def Immediate.size (ordinal : Nat) : Immediate → Nat
  | .absent => 0
  | .ordinal => ordinal

/-- The definition made by the member of a family at `index`.  Its byte is
checked before its ordinal. -/
def Family.member (f : Family) (index : Nat) : Except TableFault Definition :=
  match Checked.add maxByte f.first.toNat index with
  | .error _ => .error (.familyOverflow f.template)
  | .ok byte =>
      match Checked.add maxByte f.ordinalBase.toNat index with
      | .error fault => .error (.ordinalOverflow fault)
      | .ok ordinal =>
          .ok
            { opcode := UInt8.ofNat byte
              mnemonic := Template.expand f.template (Numeral.decimal ordinal)
              immediateSize := f.immediate.size ordinal
              flags := f.flags }

/-- The members of a family in ascending order. -/
def Family.members (f : Family) : List (Except TableFault Definition) :=
  (List.range f.count.toNat).map f.member

/-- Everything a description defines, in the order in which it is gathered:
the entries first, then the families. -/
def Description.members (d : Description) : List (Except TableFault Definition) :=
  d.entries.map (fun e => .ok e.definition) ++ d.families.flatMap Family.members

/-- Definitions by opcode byte. -/
abbrev Definitions := Std.TreeMap UInt8 Definition

/-- Adds definitions to the known ones until one fails or repeats a byte. -/
def gather (known : Definitions) :
    List (Except TableFault Definition) → Except TableFault Definitions
  | [] => .ok known
  | .error fault :: _ => .error fault
  | .ok d :: rest =>
      match known[d.opcode]? with
      | some earlier => .error (.redefined d.opcode earlier.mnemonic d.mnemonic)
      | none => gather (known.insert d.opcode d) rest

/-! ## Rows -/

/-- One row of an opcode table. -/
structure Row where
  opcode : UInt8
  mnemonic : String
  immediateSize : Nat
  flags : FlagSet
  deriving DecidableEq, Repr

/-- Bytes of an instruction with this opcode: the opcode and its operand. -/
def Row.size (r : Row) : Nat := 1 + r.immediateSize

/-- The set of the flags named by a definition.  A name stands for its first
position among the declared flags. -/
def Definition.flagSet (declared : List String) (d : Definition) :
    Except TableFault FlagSet :=
  d.flags.foldlM
    (fun set name =>
      match declared.idxOf? name with
      | some i => .ok (set.union (.single i))
      | none => .error (.unknownFlag d.mnemonic name))
    FlagSet.empty

/-- The row made by a definition. -/
def Definition.row (declared : List String) (d : Definition) : Except TableFault Row :=
  match d.flagSet declared with
  | .error fault => .error fault
  | .ok flags =>
      .ok
        { opcode := d.opcode
          mnemonic := d.mnemonic
          immediateSize := d.immediateSize
          flags := flags }

/-- The row of one opcode byte: none if the byte has no definition. -/
def rowAt (declared : List String) (known : Definitions) (opcode : UInt8) :
    Except TableFault (Option Row) :=
  match known[opcode]? with
  | none => .ok none
  | some d => (d.row declared).map some

/-- All opcode bytes in ascending order. -/
def opcodeBytes : List UInt8 := (List.range 256).map UInt8.ofNat

/-! ## Tables -/

/-- An opcode table: the declared flags, and a row for each named byte. -/
structure Table where
  flagNames : List String
  rows : Array (Option Row)
  deriving DecidableEq, Repr

namespace Table

/-- The table that a description means. -/
def build (d : Description) : Except TableFault Table :=
  if 8 < d.flags.length then .error (.tooManyFlags d.flags.length)
  else
    match gather ∅ d.members with
    | .error fault => .error fault
    | .ok known =>
        match opcodeBytes.mapM (rowAt d.flags known) with
        | .error fault => .error fault
        | .ok rows => .ok ⟨d.flags, rows.toArray⟩

/-- The row of an opcode byte, if it is named. -/
def row? (t : Table) (opcode : UInt8) : Option Row := t.rows[opcode.toNat]?.join

/-- The rows of the named bytes in ascending order. -/
def named (t : Table) : List Row := t.rows.toList.filterMap id

end Table

end EvmBlocks.Isa
