import EvmBlocks.Proofs.Listing
import EvmBlocks.Proofs.Safety
import Mathlib.Data.Nat.Digits.Defs

/-!
# EvmBlocks.Proofs.PushValue

The literal of a push is the number that its operand spells in base 256.

`Word.bigEndian` reads a byte string as a numeral, most significant byte first, without
a bound.  A word keeps the last 32 bytes, which is the number modulo `2 ^ 256`
(`Word.toNat_ofBytesBE`).  An operand has no more than 32 bytes, so its number is kept
whole; and it is the part of the code behind the opcode, cut off where the code ends
(`data_eq_extract`).

A machine does not compute with numbers here: it cuts off the last bytes of the operand
and copies them to the end of a word of zeros.  `Word.load` does so with a fault for
every bound that is not met, and never has one (`Word.load_eq`).
-/

namespace EvmBlocks

namespace Word

/-! ## numerals in base 256 -/

/-- The number that a byte string spells in base 256, most significant byte first. -/
def bigEndian (bytes : List UInt8) : Nat := Nat.ofDigits 256 (bytes.reverse.map UInt8.toNat)

theorem lt_of_mem_digits (bytes : List UInt8) : ∀ d ∈ bytes.map UInt8.toNat, d < 256 := by
  intro d hd
  obtain ⟨b, -, rfl⟩ := List.mem_map.mp hd
  exact b.toNat_lt

theorem valueBE_eq_bigEndian (bytes : List UInt8) : valueBE bytes = bigEndian bytes := by
  induction bytes using List.reverseRecOn with
  | nil => rfl
  | append_singleton bytes b ih =>
      have hvalue : valueBE (bytes ++ [b]) = valueBE bytes * 256 + b.toNat := by simp [valueBE]
      rw [hvalue, ih, bigEndian, bigEndian, List.reverse_concat, List.map_cons, Nat.ofDigits_cons,
        Nat.add_comm, Nat.mul_comm]

theorem bigEndian_lt (bytes : List UInt8) : bigEndian bytes < 256 ^ bytes.length := by
  have hlt := Nat.ofDigits_lt_base_pow_length (by decide : 1 < 256)
    (lt_of_mem_digits bytes.reverse)
  simpa [bigEndian] using hlt

/-- Zeros in front of a numeral do not count. -/
theorem bigEndian_replicate_append (n : Nat) (bytes : List UInt8) :
    bigEndian (List.replicate n 0 ++ bytes) = bigEndian bytes := by
  simp [bigEndian, Nat.ofDigits_append_replicate_zero]

/-- The last `n` bytes of a numeral are its remainder. -/
theorem bigEndian_drop (bytes : List UInt8) (n : Nat) :
    bigEndian (bytes.drop (bytes.length - n)) = bigEndian bytes % 256 ^ n := by
  rw [bigEndian, bigEndian,
    Nat.ofDigits_mod_pow_eq_ofDigits_take n (by decide) _ (lt_of_mem_digits bytes.reverse),
    ← List.map_take, List.take_reverse]

theorem pow_eq_two_pow : 256 ^ 32 = 2 ^ 256 := by norm_num

theorem toNat_ofBytesBE (bytes : List UInt8) :
    (ofBytesBE bytes).toNat = bigEndian bytes % 2 ^ 256 := by
  rw [ofBytesBE, BitVec.toNat_ofNat, valueBE_eq_bigEndian, bigEndian_drop, pow_eq_two_pow,
    Nat.mod_mod]

/-! ## loading a word -/

/-- Why bytes cannot be copied. -/
inductive CopyFault where
  /-- There are no bytes from this offset on. -/
  | slice (start length : Nat)
  /-- An offset is negative. -/
  | arithmetic (fault : ArithmeticFault)
  /-- There are not as many bytes as are to be replaced. -/
  | lengths (target source : Nat)
  deriving DecidableEq, Repr

/-- The bytes from an offset on. -/
def suffix (bytes : List UInt8) (start : Nat) : Except CopyFault (List UInt8) :=
  if start ≤ bytes.length then .ok (bytes.drop start) else .error (.slice start bytes.length)

/-- Replaces the bytes from an offset on by as many others. -/
def overwrite (target : List UInt8) (start : Nat) (source : List UInt8) :
    Except CopyFault (List UInt8) := do
  let replaced ← suffix target start
  if replaced.length = source.length then return target.take start ++ source
  else throw (.lengths replaced.length source.length)

/-- The 32 bytes of a word: the last bytes of the data, at the end of a word of zeros. -/
def load (data : List UInt8) : Except CopyFault (List UInt8) := do
  let low ← suffix data (data.length - 32)
  let start ← (Checked.sub 32 low.length).mapError .arithmetic
  overwrite (List.replicate 32 0) start low

theorem suffix_of_le {bytes : List UInt8} {start : Nat} (h : start ≤ bytes.length) :
    suffix bytes start = .ok (bytes.drop start) := if_pos h

/-- No bound is violated: the last bytes of the data are no more than a word has, and they
replace as many zeros. -/
theorem load_eq (data : List UInt8) :
    load data = .ok (List.replicate (32 - data.length) 0 ++ data.drop (data.length - 32)) := by
  obtain ⟨low, hlow⟩ : ∃ low, data.drop (data.length - 32) = low := ⟨_, rfl⟩
  have hlength : low.length = data.length - (data.length - 32) := by rw [← hlow, List.length_drop]
  have hstart : Checked.sub 32 low.length = .ok (32 - low.length) :=
    Checked.sub_of_le (by omega)
  have hzeros : 32 - low.length ≤ (List.replicate 32 (0 : UInt8)).length := by simp
  have hreplaced : ((List.replicate 32 (0 : UInt8)).drop (32 - low.length)).length = low.length := by
    simp only [List.length_drop, List.length_replicate]
    omega
  have hpadding : (List.replicate 32 (0 : UInt8)).take (32 - low.length) =
      List.replicate (32 - data.length) 0 := by
    rw [List.take_replicate]
    congr 1
    omega
  simp only [load, overwrite, suffix_of_le (Nat.sub_le data.length 32), hlow, hstart,
    suffix_of_le hzeros, hreplaced, hpadding, Except.mapError, bind, Except.bind, if_true]
  rfl

/-- The bytes of a word spell the number that the word denotes. -/
theorem bigEndian_load {data word : List UInt8} (h : load data = .ok word) :
    word.length = 32 ∧ bigEndian word = (ofBytesBE data).toNat := by
  rw [load_eq] at h
  obtain rfl := Except.ok.inj h
  constructor
  · simp only [List.length_append, List.length_replicate, List.length_drop]
    omega
  · rw [bigEndian_replicate_append, bigEndian_drop, toNat_ofBytesBE, pow_eq_two_pow]

end Word

/-! ## operands -/

/-- An instruction ends where its operand does, or where the code ends. -/
theorem stop_eq_min {code : List UInt8} {i : Instruction} (h : i ∈ (decode code).instructions) :
    i.stop = min (i.offset + 1 + i.opcode.immediateSize) code.length := by
  have hle := ((tiles_decode code).bounds i h).2
  have hstop : i.stop = i.offset + 1 + i.data.length := by
    rw [Instruction.stop, Instruction.size, Nat.add_assoc]
  obtain hfull | ⟨hlast, htruncated⟩ := length_data_eq_or_truncated h
  · omega
  · have hend := (tiles_decode code).stop_getLast i hlast
    rw [Instruction.isTruncated_iff] at htruncated
    omega

/-- The operand of an instruction is the part of the code behind the opcode that the opcode
asks for, cut off where the code ends. -/
theorem data_eq_extract {code : List UInt8} {i : Instruction}
    (h : i ∈ (decode code).instructions) :
    i.data = code.extract (i.offset + 1)
      (min (i.offset + 1 + i.opcode.immediateSize) code.length) := by
  obtain ⟨xs, ys, his⟩ := List.append_of_mem h
  have hbytes : i.encode = code.extract i.offset i.stop := by
    simpa [Block.span] using encode_eq_extract (g := [i]) his (List.cons_ne_nil i [])
  have htail := congrArg List.tail hbytes
  rw [Instruction.encode, List.tail_cons, List.extract_eq_take_drop, ← List.drop_one,
    List.drop_take, List.drop_drop, Nat.sub_sub] at htail
  rw [htail, ← stop_eq_min h, List.extract_eq_take_drop]

theorem length_data_le {code : List UInt8} {i : Instruction} (h : i ∈ (decode code).instructions) :
    i.data.length ≤ 32 := by
  have hsize := i.opcode.immediateSize_le
  obtain hfull | ⟨-, htruncated⟩ := length_data_eq_or_truncated h
  · omega
  · rw [Instruction.isTruncated_iff] at htruncated
    omega

/-- The literal of a push is the number that its operand spells.  Data of any length give the
number modulo `2 ^ 256`, and a word is loaded with them without a fault.  A push in a code
has the number of the bytes behind its opcode, up to the end of the operand or of the code,
and none of it is lost. -/
theorem push_literal_bigEndian :
    (∀ data : List UInt8, ∃ v : Word, Expr.ofPushData data = .constant v ∧
        v.toNat = Word.bigEndian data % 2 ^ 256 ∧
        ∃ word, Word.load data = .ok word ∧ word.length = 32 ∧ Word.bigEndian word = v.toNat) ∧
      ∀ code : List UInt8, ∀ i ∈ (decode code).instructions, i.opcode.isPush = true →
        ∃ v : Word, i.pushValue? = some (.constant v) ∧
          v.toNat = Word.bigEndian (code.extract (i.offset + 1)
            (min (i.offset + 1 + i.opcode.immediateSize) code.length)) := by
  constructor
  · intro data
    exact ⟨_, rfl, Word.toNat_ofBytesBE data, _, Word.load_eq data,
      Word.bigEndian_load (Word.load_eq data)⟩
  · intro code i hi hpush
    have hlt : Word.bigEndian i.data < 2 ^ 256 :=
      calc
        Word.bigEndian i.data < 256 ^ i.data.length := Word.bigEndian_lt i.data
        _ ≤ 256 ^ 32 := Nat.pow_le_pow_right (by decide) (length_data_le hi)
        _ = 2 ^ 256 := Word.pow_eq_two_pow
    refine ⟨Word.ofBytesBE i.data, if_pos hpush, ?_⟩
    rw [← data_eq_extract hi, Word.toNat_ofBytesBE, Nat.mod_eq_of_lt hlt]

/-- Data of 33 bytes lose the first one.  A `PUSH3` with two bytes of its operand left has
their number. -/
theorem push_literal_bigEndian_short_push :
    (∃ v : Word, Expr.ofPushData (0xaa :: List.replicate 31 0 ++ [0x07]) = .constant v ∧
        v.toNat = 7) ∧
      ∃ i ∈ (decode [0x5b, 0x62, 0x01, 0x02]).instructions, i.opcode.isPush = true ∧
        ∃ v : Word, i.pushValue? = some (.constant v) ∧ v.toNat = 0x0102 := by
  obtain ⟨hdata, hcode⟩ := push_literal_bigEndian
  constructor
  · obtain ⟨v, hv, hvalue, -⟩ := hdata (0xaa :: List.replicate 31 0 ++ [0x07])
    exact ⟨v, hv, hvalue.trans (by decide +kernel)⟩
  · have hi : ⟨1, ⟨0x62⟩, [0x01, 0x02]⟩ ∈ (decode [0x5b, 0x62, 0x01, 0x02]).instructions := by
      decide +kernel
    have hpush : (⟨0x62⟩ : Opcode).isPush = true := by decide +kernel
    obtain ⟨v, hv, hvalue⟩ := hcode _ _ hi hpush
    exact ⟨_, hi, hpush, v, hv, hvalue.trans (by decide +kernel)⟩

end EvmBlocks
