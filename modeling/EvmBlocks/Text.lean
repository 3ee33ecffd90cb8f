/-!
# EvmBlocks.Text

How numbers, characters and names are written in texts.

* *Numerals*: decimal numerals, and lower-case hexadecimal numerals behind the
  marker `0x`, bare or padded to a width.
* *Quoted characters*, for messages about unexpected input.  A byte stands for
  the character of the same number.  Six characters have a short escape; the
  other characters of that range that do not print are written by number; all
  others stand for themselves.
* *Templates*: texts with a placeholder.  The placeholder is the letter `n` in
  braces, and every occurrence of it stands for the same text.
-/

namespace EvmBlocks.Numeral

/-- The decimal numeral, without leading zeros. -/
def decimal (n : Nat) : String := String.ofList (Nat.toDigits 10 n)

/-- The decimal numeral, right-aligned in at least `width` columns. -/
def decimalColumn (width n : Nat) : String :=
  String.ofList ((Nat.toDigits 10 n).leftpad width ' ')

/-- The hexadecimal numeral with its marker and without leading zeros. -/
def hex (n : Nat) : String := "0x" ++ String.ofList (Nat.toDigits 16 n)

/-- The hexadecimal numeral with its marker and at least `width` digits. -/
def hexPadded (width n : Nat) : String :=
  "0x" ++ String.ofList ((Nat.toDigits 16 n).leftpad width '0')

/-! ## Bytes -/

/-- The two hexadecimal digits of a byte, high half first. -/
def byteDigits (b : UInt8) : List Char :=
  [Nat.digitChar (b.toNat / 16), Nat.digitChar (b.toNat % 16)]

/-- A byte with its marker, as in `0x0c`. -/
def hexByte (b : UInt8) : String := "0x" ++ String.ofList (byteDigits b)

/-- The digits of a byte string, two per byte and without a marker. -/
def hexBytes (bytes : List UInt8) : String := String.ofList (bytes.flatMap byteDigits)

theorem toList_hexBytes (bytes : List UInt8) :
    (hexBytes bytes).toList = bytes.flatMap byteDigits := by
  simp [hexBytes]

end EvmBlocks.Numeral

namespace EvmBlocks.Quoted

/-- Bytes whose character does not print: the two control ranges, the
no-break space and the soft hyphen. -/
def isUnprintable (b : UInt8) : Bool :=
  b < 0x20 || (0x7f ≤ b && b ≤ 0xa0) || b == 0xad

/-- The escaped form of the character of a byte, without the quotes. -/
def escape (b : UInt8) : String :=
  if b = 0x00 then "\\0"
  else if b = 0x09 then "\\t"
  else if b = 0x0a then "\\n"
  else if b = 0x0d then "\\r"
  else if b = 0x27 then "\\'"
  else if b = 0x5c then "\\\\"
  else if isUnprintable b then
    "\\u\x7b" ++ String.ofList (Nat.toDigits 16 b.toNat) ++ "\x7d"
  else String.singleton (Char.ofUInt8 b)

/-- The character of a byte between single quotes. -/
def byte (b : UInt8) : String := "'" ++ escape b ++ "'"

end EvmBlocks.Quoted

namespace EvmBlocks.Template

/-- Replaces every placeholder in `template` by `value`, left to right. -/
def fill (value : List Char) : List Char → List Char
  | '\x7b' :: 'n' :: '\x7d' :: rest => value ++ fill value rest
  | c :: rest => c :: fill value rest
  | [] => []

/-- The template with every placeholder replaced by `value`. -/
def expand (template value : String) : String :=
  String.ofList (fill value.toList template.toList)

end EvmBlocks.Template
