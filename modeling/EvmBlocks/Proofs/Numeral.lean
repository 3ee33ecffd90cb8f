import EvmBlocks.Proofs.HexInput

/-!
# EvmBlocks.Proofs.Numeral

What numerals look like, and numbers and bytes read back from theirs.

A decimal numeral is what `toString` gives, and a hexadecimal one is the marker
with the digits of `Nat.toDigits` behind it, up to zeros in front (`hexText`).

A numeral is made of digits, its marker and its padding, so any other character
separates it from what stands around it (`notMem_toDigits` and what follows from
it).  The digits of a number denote it again, in every base that has enough digits
(`ofDigits?_toDigits`).  The hexadecimal digits that are printed for a byte string
spell it, and so the reader of hexadecimal texts gives it back (`parse_hexBytes`).
-/

namespace EvmBlocks.Numeral

/-! ## library numerals -/

/-- The digits of a number in base 16 behind the marker `0x`, with zeros in front of them
up to a width. -/
def hexText (width n : Nat) : String :=
  "0x" ++ String.ofList ((Nat.toDigits 16 n).leftpad width '0')

theorem decimal_eq_toString (n : Nat) : decimal n = toString n := rfl

theorem hex_eq_hexText (n : Nat) : hex n = hexText 1 n := by
  have hpos : 0 < (Nat.toDigits 16 n).length := Nat.length_toDigits_pos
  have hpad : 1 - (Nat.toDigits 16 n).length = 0 := by omega
  simp [hex, hexText, List.leftpad, hpad]

/-- A byte below 16 has one digit in base 16 and gets a zero in front; any other has two. -/
theorem hexByte_eq_hexText (b : UInt8) : hexByte b = hexText 2 b.toNat := by
  have hlt := b.toNat_lt
  have hzero : Nat.digitChar 0 = '0' := rfl
  by_cases hsmall : b.toNat < 16
  · have hhigh : b.toNat / 16 = 0 := by omega
    simp [hexByte, byteDigits, hexText, Nat.toDigits_of_lt_base hsmall, List.leftpad, hhigh,
      Nat.mod_eq_of_lt hsmall, hzero]
  · have hhigh : b.toNat / 16 < 16 := by omega
    have hdigits := Nat.toDigits_of_base_le (by decide : 1 < 16) (Nat.le_of_not_lt hsmall)
    simp [hexByte, byteDigits, hexText, hdigits, Nat.toDigits_of_lt_base hhigh, List.leftpad]

/-! ## characters -/

/-- The character is no digit of any numeral. -/
def NoDigit (c : Char) : Prop := ∀ d, Nat.digitChar d ≠ c

theorem noDigit_colon : NoDigit ':' := fun d => by simp

theorem noDigit_newline : NoDigit '\n' := fun d => by simp

variable {c : Char}

theorem notMem_toDigits {base : Nat} (hbase : 1 < base) (hc : NoDigit c) (n : Nat) :
    c ∉ Nat.toDigits base n := by
  induction n using Nat.strongRecOn with
  | ind n ih =>
      rw [Nat.toDigits_eq_if hbase]
      split
      · simpa using (hc n).symm
      · have hquotient := ih (n / base) (Nat.div_lt_self (by omega) hbase)
        simpa using ⟨hquotient, (hc (n % base)).symm⟩

theorem notMem_decimal (hc : NoDigit c) (n : Nat) : c ∉ (decimal n).toList := by
  simpa [decimal] using notMem_toDigits (by decide) hc n

theorem notMem_decimalColumn (hc : NoDigit c) (hblank : c ≠ ' ') (width n : Nat) :
    c ∉ (decimalColumn width n).toList := by
  have hdigits : c ∉ Nat.toDigits 10 n := notMem_toDigits (by decide) hc n
  simp [decimalColumn, List.leftpad, hblank, hdigits]

theorem notMem_hexPadded (hc : NoDigit c) (hmarker : c ≠ 'x') (width n : Nat) :
    c ∉ (hexPadded width n).toList := by
  have hdigits : c ∉ Nat.toDigits 16 n := notMem_toDigits (by decide) hc n
  have hzero : c ≠ '0' := (hc 0).symm
  simp [hexPadded, List.leftpad, hmarker, hzero, hdigits]

theorem notMem_hexBytes (hc : NoDigit c) (bytes : List UInt8) : c ∉ (hexBytes bytes).toList := by
  simp [toList_hexBytes, byteDigits, (hc _).symm]

theorem isAlphanum_of_mem_hexByte {b : UInt8} (h : c ∈ (hexByte b).toList) :
    c.isAlphanum = true := by
  have hdigits : ∀ n < 16, (Nat.digitChar n).isAlphanum = true := by decide
  have hmarker : "0x".toList.all Char.isAlphanum = true := by decide
  have hlt := b.toNat_lt
  simp only [hexByte, byteDigits, String.toList_append, String.toList_ofList, List.mem_append,
    List.mem_cons, List.not_mem_nil, or_false] at h
  rcases h with h | rfl | rfl
  · exact List.all_eq_true.mp hmarker c h
  · exact hdigits (b.toNat / 16) (by omega)
  · exact hdigits (b.toNat % 16) (by omega)

/-! ## numbers -/

/-- The value of a digit: its place among the sixteen digits. -/
def digitValue? (c : Char) : Option Nat := "0123456789abcdef".toList.idxOf? c

theorem digitValue?_digitChar : ∀ d < 16, digitValue? (Nat.digitChar d) = some d := by
  decide

/-- The number that is denoted by digits in a base, most significant digit first. -/
def ofDigits? (base : Nat) (digits : List Char) : Option Nat :=
  digits.foldlM (fun value c => (digitValue? c).map (base * value + ·)) 0

/-- A number is read back from its digits. -/
theorem ofDigits?_toDigits {base : Nat} (hbase : 1 < base) (hle : base ≤ 16) (n : Nat) :
    ofDigits? base (Nat.toDigits base n) = some n := by
  induction n using Nat.strongRecOn with
  | ind n ih =>
      rw [Nat.toDigits_eq_if hbase]
      split
      · simp [ofDigits?, digitValue?_digitChar n (by omega)]
      · have hquotient := ih (n / base) (Nat.div_lt_self (by omega) hbase)
        have hlast : n % base < 16 := Nat.lt_of_lt_of_le (Nat.mod_lt n (by omega)) hle
        rw [ofDigits?] at hquotient ⊢
        simp [List.foldlM_append, hquotient, digitValue?_digitChar _ hlast, Nat.div_add_mod]

/-! ## bytes -/

open HexInput

@[simp] theorem ascii_append (s t : String) : ascii (s ++ t) = ascii s ++ ascii t := by
  simp [ascii]

theorem hasValue_digitChar : ∀ value < 16, HasValue (Nat.digitChar value).toUInt8 value := by
  decide

/-- The digits that are printed for some bytes spell them. -/
theorem spells_hexBytes (bytes : List UInt8) : Spells (ascii (hexBytes bytes)) bytes := by
  induction bytes with
  | nil => simp [ascii, hexBytes]
  | cons byte bytes ih =>
      have hlt := byte.toNat_lt
      have hhigh := hasValue_digitChar (byte.toNat / 16) (by omega)
      have hlow := hasValue_digitChar (byte.toNat % 16) (by omega)
      refine spells_cons.mpr ⟨_, _, _, ?_, ⟨_, _, hhigh, hlow, by omega⟩, ih⟩
      simp [ascii, hexBytes, byteDigits]

/-- Bytes that are printed with their marker are read back. -/
theorem parse_hexBytes (bytes : List UInt8) :
    parse (ascii ("0x" ++ hexBytes bytes)) = .ok bytes := by
  have hmarker : ascii "0x" ∈ markers := by decide
  have hparse : parse ([] ++ ((ascii "0x" ++ ascii (hexBytes bytes)) ++ [])) = .ok bytes :=
    parse_append (by simp) hmarker (spells_hexBytes bytes) (by simp)
  simpa using hparse

/-- A byte is read back from its text. -/
theorem parse_hexByte (b : UInt8) : parse (ascii (hexByte b)) = .ok [b] := by
  simpa [hexByte, hexBytes] using parse_hexBytes [b]

theorem hexByte_injective {a b : UInt8} (h : hexByte a = hexByte b) : a = b := by
  have hbytes := parse_hexByte a
  rw [h, parse_hexByte] at hbytes
  simpa using hbytes.symm

end EvmBlocks.Numeral
