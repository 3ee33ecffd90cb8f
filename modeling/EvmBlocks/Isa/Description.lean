import EvmBlocks.Text

/-!
# EvmBlocks.Isa.Description

What an author writes down about an instruction set: the flags in use, single
opcodes, and families of consecutive opcodes that share a mnemonic up to an
ordinal.

A description is read from a structured document: a tree of scalars, lists and
records, as any of the common configuration formats provides it.  Reading checks
its shape: numbers must be bytes and lists must be lists, while any scalar is
also a text, namely the way it is spelled.  Fields without a meaning are passed
over, and some have a default.
-/

namespace EvmBlocks.Isa

/-! ## Descriptions -/

/-- One opcode with its mnemonic and the names of its flags. -/
structure Entry where
  opcode : UInt8
  mnemonic : String
  flags : List String := []
  deriving DecidableEq, Repr

/-- How many operand bytes follow an opcode of a family: none, or as many as
its ordinal. -/
inductive Immediate where
  | absent
  | ordinal
  deriving DecidableEq, Repr

/-- Consecutive opcodes `first`, `first + 1`, ..., `count` of them, numbered
from `ordinalBase`.  Their mnemonics come from one template. -/
structure Family where
  first : UInt8
  count : UInt8
  template : String
  ordinalBase : UInt8 := 1
  immediate : Immediate := .absent
  flags : List String := []
  deriving DecidableEq, Repr

/-- The description of an instruction set. -/
structure Description where
  flags : List String
  entries : List Entry
  families : List Family := []
  deriving DecidableEq, Repr

/-! ## Documents -/

/-- A structured document. -/
inductive Document where
  | null
  | bool (value : Bool)
  | integer (value : Int)
  /-- The number that has these digits, the last `places` of them behind the
  point. -/
  | decimal (digits : Int) (places : Nat)
  | text (value : String)
  | list (items : List Document)
  | record (fields : List (String × Document))
  deriving Inhabited

namespace Document

/-! ## Scalars -/

/-- A truth value as it is spelled. -/
def spellBool (value : Bool) : String := if value then "true" else "false"

/-- The sign of a number as it is spelled. -/
def spellSign (value : Int) : String := if value < 0 then "-" else ""

/-- An integer as it is spelled. -/
def spellInt (value : Int) : String := spellSign value ++ Numeral.decimal value.natAbs

/-- A decimal number as it is spelled, with at least one digit in front of the
point. -/
def spellDecimal (digits : Int) (places : Nat) : String :=
  let all := (Nat.toDigits 10 digits.natAbs).leftpad (places + 1) '0'
  let whole := all.length - places
  spellSign digits ++ String.ofList (all.take whole ++ '.' :: all.drop whole)

/-- A text, or any other scalar by its spelling. -/
def text? : Document → Option String
  | text value => some value
  | integer value => some (spellInt value)
  | decimal digits places => some (spellDecimal digits places)
  | bool value => some (spellBool value)
  | null => some "null"
  | list _ | record _ => none

/-- An integer in the range of a byte. -/
def byte? : Document → Option UInt8
  | integer value =>
      if 0 ≤ value ∧ value ≤ 255 then some (UInt8.ofNat value.toNat) else none
  | _ => none

/-! ## Lists and records -/

/-- A list, each of whose items is read by `read`. -/
def list? (read : Document → Option α) : Document → Option (List α)
  | list items => items.mapM read
  | _ => none

/-- The fields of a record. -/
def fields? : Document → Option (List (String × Document))
  | record fields => some fields
  | _ => none

/-- A field that must be there. -/
def required (fields : List (String × Document)) (name : String)
    (read : Document → Option α) : Option α :=
  (fields.lookup name).bind read

/-- A field that has a default. -/
def optional (fields : List (String × Document)) (name : String) (default : α)
    (read : Document → Option α) : Option α :=
  match fields.lookup name with
  | none => some default
  | some value => read value

end Document

/-! ## Reading a description -/

open Document

/-- Reads the operand rule of a family. -/
def Immediate.ofDocument? (d : Document) : Option Immediate :=
  match d.text? with
  | some "none" => some .absent
  | some "ordinal" => some .ordinal
  | _ => none

/-- Reads a single opcode. -/
def Entry.ofDocument? (d : Document) : Option Entry := do
  let fields ← d.fields?
  let opcode ← required fields "opcode" byte?
  let mnemonic ← required fields "mnemonic" text?
  let flags ← optional fields "flags" [] (list? text?)
  return { opcode, mnemonic, flags }

/-- Reads a family of opcodes. -/
def Family.ofDocument? (d : Document) : Option Family := do
  let fields ← d.fields?
  let first ← required fields "first" byte?
  let count ← required fields "count" byte?
  let template ← required fields "mnemonic" text?
  let ordinalBase ← optional fields "ordinal_base" 1 byte?
  let immediate ← optional fields "immediate" .absent Immediate.ofDocument?
  let flags ← optional fields "flags" [] (list? text?)
  return { first, count, template, ordinalBase, immediate, flags }

/-- Reads the description of an instruction set. -/
def Description.ofDocument? (d : Document) : Option Description := do
  let fields ← d.fields?
  let flags ← required fields "flags" (list? text?)
  let entries ← required fields "opcodes" (list? Entry.ofDocument?)
  let families ← optional fields "ranges" [] (list? Family.ofDocument?)
  return { flags, entries, families }

end EvmBlocks.Isa
