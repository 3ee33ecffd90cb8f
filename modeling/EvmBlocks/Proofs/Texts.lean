import EvmBlocks.Proofs.Report

/-!
# EvmBlocks.Proofs.Texts

Texts that determine what they show.

For each of the two texts there is a reader that goes the way back, so things with
the same text are the same as far as the reader sees them.

* `Expr.text_inj`: different values have different texts.  How a text begins tells
  the kind of the value, and `Expr.ofText?` reads the numeral behind that beginning.
* `Instruction.text_eq_iff`: the text of an instruction shows its opcode and its
  operand, whether or not the operand fits the opcode, and it shows nothing else;
  the reader is that of disassemblies, `Report.readInstruction`.
-/

namespace EvmBlocks

/-! ## values -/

namespace Expr

/-- The value that a text shows.  The beginning tells its kind, and the last character
of a text in brackets is taken for the closing one without a look at it. -/
def ofText? (text : String) : Option Expr :=
  match text.toList with
  | '0' :: 'x' :: digits =>
      (Numeral.ofDigits? 16 digits).map fun value => .constant (BitVec.ofNat 256 value)
  | '<' :: '#' :: rest => (Numeral.ofDigits? 10 rest.dropLast).map .output
  | '<' :: 'a' :: 'r' :: 'g' :: 'u' :: 'm' :: 'e' :: 'n' :: 't' :: '.' :: rest =>
      (Numeral.ofDigits? 10 rest.dropLast).map .argument
  | _ => none

/-- A value is read back from its text. -/
theorem ofText?_text (e : Expr) : ofText? e.text = some e := by
  cases e with
  | constant value => simp [ofText?, text, Numeral.hex, Numeral.ofDigits?_toDigits]
  | argument index => simp [ofText?, text, Numeral.decimal, Numeral.ofDigits?_toDigits]
  | output offset => simp [ofText?, text, Numeral.decimal, Numeral.ofDigits?_toDigits]

/-- Two values have the same text exactly if they are the same value. -/
theorem text_inj (e e' : Expr) : e.text = e'.text ↔ e = e' := by
  constructor
  · intro h
    have hread := ofText?_text e
    rw [h, ofText?_text e'] at hread
    exact (Option.some.inj hread).symm
  · exact congrArg text

/-- One value of each kind. -/
example : (constant 42).text = "0x2a" ∧ (argument 3).text = "<argument.3>" ∧
    (output 17).text = "<#17>" := by
  decide

end Expr

/-! ## instructions -/

namespace Instruction

/-- Two instructions have the same text exactly if they have the same opcode and the
same operand bytes.  The offset does not show in the text. -/
theorem text_eq_iff (i j : Instruction) :
    i.text = j.text ↔ i.opcode.byte = j.opcode.byte ∧ i.data = j.data := by
  constructor
  · intro h
    have hread := Report.readInstruction_text i
    rw [h, Report.readInstruction_text j] at hread
    have hencode : i.encode = j.encode := (Option.some.inj hread).symm
    simpa [encode] using hencode
  · rintro ⟨hbyte, hdata⟩
    have hopcode : i.opcode = j.opcode := congrArg Opcode.mk hbyte
    simp [text, hopcode, hdata]

end Instruction

end EvmBlocks
