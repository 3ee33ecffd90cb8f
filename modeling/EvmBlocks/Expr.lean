import EvmBlocks.Text

/-!
# EvmBlocks.Expr

Stack values as they look from inside a basic block: literals, entries that
were on the stack before the block, and results of instructions.
-/

namespace EvmBlocks

/-- A machine word. -/
abbrev Word := BitVec 256

namespace Word

/-- The natural number that a byte string denotes, most significant byte first. -/
def valueBE (bytes : List UInt8) : Nat :=
  bytes.foldl (fun value byte => value * 256 + byte.toNat) 0

/-- The word that a byte string denotes, most significant byte first.  Only the
last 32 bytes count. -/
def ofBytesBE (bytes : List UInt8) : Word :=
  BitVec.ofNat 256 (valueBE (bytes.drop (bytes.length - 32)))

end Word

/-- A stack value. -/
inductive Expr where
  /-- A literal word. -/
  | constant (value : Word)
  /-- An entry of the stack on entry to the block, counted from the top. -/
  | argument (index : Nat)
  /-- The result of the instruction at an offset. -/
  | output (offset : Nat)
  deriving DecidableEq, Repr

/-- The kinds of stack values. -/
inductive ExprKind where
  | constant
  | argument
  | output
  deriving DecidableEq, Repr

/-- The name of a kind. -/
def ExprKind.text : ExprKind → String
  | .constant => "constant"
  | .argument => "argument"
  | .output => "instruction output"

/-- The failure to read a literal from a value of another kind. -/
structure NotConstant where
  kind : ExprKind
  deriving DecidableEq, Repr

/-- The text that reports a value that is no literal. -/
def NotConstant.message (e : NotConstant) : String :=
  "not a constant expression: " ++ e.kind.text

namespace Expr

/-- The literal that a push with these operand bytes places on the stack. -/
def ofPushData (data : List UInt8) : Expr := .constant (Word.ofBytesBE data)

/-- The kind of a value. -/
def kind : Expr → ExprKind
  | .constant _ => .constant
  | .argument _ => .argument
  | .output _ => .output

/-- The value is a literal. -/
def isConstant : Expr → Bool
  | .constant _ => true
  | .argument _ | .output _ => false

/-- The word of a literal. -/
def word (e : Expr) : Except NotConstant Word :=
  match e with
  | .constant value => .ok value
  | .argument _ | .output _ => .error ⟨e.kind⟩

/-- The value in a listing. -/
def text : Expr → String
  | .constant value => Numeral.hex value.toNat
  | .argument index => "<argument." ++ Numeral.decimal index ++ ">"
  | .output offset => "<#" ++ Numeral.decimal offset ++ ">"

/-- The value as a term, for inspection. -/
def inspect : Expr → String
  | .constant value => "Constant(" ++ Numeral.decimal value.toNat ++ ")"
  | .argument index => "Argument(" ++ Numeral.decimal index ++ ")"
  | .output offset => "InstructionOutput(" ++ Numeral.decimal offset ++ ")"

end Expr

end EvmBlocks
