import EvmBlocks.Text

/-!
# EvmBlocks.HexInput

Reading bytecode from hexadecimal text.

The text is a byte string.  Blanks around it and one marker `0x` or `0X` in
front are dropped; what remains must be pairs of hexadecimal digits, high half
first.  An odd number of digits is reported before any character is looked at.
-/

namespace EvmBlocks

/-- Why a text is not hexadecimal. -/
inductive HexError where
  /-- The digits cannot be paired. -/
  | oddLength
  /-- The first byte that is no digit, and where it stands among the digits. -/
  | invalidCharacter (byte : UInt8) (position : Nat)
  deriving DecidableEq, Repr

/-- The text that reports a hexadecimal error. -/
def HexError.message : HexError → String
  | .oddLength => "invalid hex input: Odd number of digits"
  | .invalidCharacter byte position =>
      "invalid hex input: Invalid character " ++ Quoted.byte byte ++ " at position " ++
        Numeral.decimal position

namespace HexInput

/-! ## Blanks and the marker -/

/-- Space, tab, line feed, form feed and carriage return. -/
def isBlank (b : UInt8) : Bool :=
  b == 0x20 || b == 0x09 || b == 0x0a || b == 0x0c || b == 0x0d

/-- The text without the blanks at its two ends. -/
def trim (text : List UInt8) : List UInt8 :=
  ((text.dropWhile isBlank).reverse.dropWhile isBlank).reverse

/-- The text without one leading `0x` or `0X`. -/
def stripMarker : List UInt8 → List UInt8
  | 0x30 :: 0x78 :: rest => rest
  | 0x30 :: 0x58 :: rest => rest
  | text => text

/-- What has to be digits: the text less its blanks and its marker. -/
def body (text : List UInt8) : List UInt8 := stripMarker (trim text)

/-! ## Digits -/

/-- The value of a hexadecimal digit of either case. -/
def digit? (b : UInt8) : Option UInt8 :=
  if 0x30 ≤ b ∧ b ≤ 0x39 then some (b - 0x30)
  else if 0x61 ≤ b ∧ b ≤ 0x66 then some (b - 0x61 + 10)
  else if 0x41 ≤ b ∧ b ≤ 0x46 then some (b - 0x41 + 10)
  else none

/-- Reads pairs of digits; `position` counts the digits before them and `acc`
holds the bytes read so far, newest first. -/
def readPairs (position : Nat) (acc : List UInt8) :
    List UInt8 → Except HexError (List UInt8)
  | [] => .ok acc.reverse
  | [_] => .error .oddLength
  | high :: low :: rest =>
      match digit? high, digit? low with
      | none, _ => .error (.invalidCharacter high position)
      | some _, none => .error (.invalidCharacter low (position + 1))
      | some h, some l => readPairs (position + 2) ((h * 16 + l) :: acc) rest

/-- The bytes that a run of digits denotes. -/
def readDigits (digits : List UInt8) : Except HexError (List UInt8) :=
  if digits.length % 2 = 0 then readPairs 0 [] digits else .error .oddLength

/-- The bytes that a hexadecimal text denotes. -/
def parse (text : List UInt8) : Except HexError (List UInt8) := readDigits (body text)

end HexInput

end EvmBlocks
