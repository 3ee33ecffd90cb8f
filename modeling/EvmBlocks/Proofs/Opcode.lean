import EvmBlocks.Opcode
import EvmBlocks.Proofs.Numeral
import Mathlib.Data.List.Nodup

/-!
# EvmBlocks.Proofs.Opcode

What the opcode table says about every byte.

The table is one value with a row for each of the 256 bytes, so what is true of
all rows is found out by going through them (`rows_by_byte`, `words_of_named`),
and an opcode has its own row among them (`mem_rows`).

* The boundaries and operands are given by the number of the byte alone:
  `immediateSize_eq`, `isBlockStart_iff`, `mnemonic?_eq_jumpdest_iff`.
* The text of an opcode is one word (`isAlphanum_of_mem_text`), and no other
  opcode has the same text (`text_injective`): mnemonics are distinct, and none
  of them looks like a number.
-/

namespace EvmBlocks.Opcode

/-! ## rows -/

/-- The row of an opcode stands at the place of its byte. -/
theorem mem_rows (op : Opcode) : (op.row?, op.byte.toNat) ∈ Isa.Evm.table.rows.toList.zipIdx := by
  have hsize : Isa.Evm.table.rows.size = 256 := by decide +kernel
  have hlt : op.byte.toNat < Isa.Evm.table.rows.size := by
    rw [hsize]
    exact op.byte.toNat_lt
  simp [List.mk_mem_zipIdx_iff_getElem?, row?, Isa.Table.row?, hlt]

/-- The rows, byte by byte: each belongs to its byte, only `0x60` to `0x7f` have
operands and are named after their number, and only `0x5b` is a jump destination. -/
theorem rows_by_byte : ∀ e ∈ Isa.Evm.table.rows.toList.zipIdx,
    (∀ r ∈ e.1, r.opcode.toNat = e.2) ∧
      e.1.elim 0 Isa.Row.immediateSize = (if 0x60 ≤ e.2 ∧ e.2 ≤ 0x7f then e.2 - 0x5f else 0) ∧
      (e.1.elim .empty Isa.Row.flags).contains Isa.Flag.jumpTarget.toSet = decide (e.2 = 0x5b) ∧
      (e.1.map Isa.Row.mnemonic = some "JUMPDEST" ↔ e.2 = 0x5b) ∧
      ∀ r ∈ e.1, 0 < r.immediateSize → r.mnemonic = "PUSH" ++ toString r.immediateSize := by
  decide +kernel

variable {op op' : Opcode}

theorem opcode_of_row? {r : Isa.Row} (h : op.row? = some r) : r.opcode = op.byte := by
  have hrow := (rows_by_byte _ op.mem_rows).1
  rw [h] at hrow
  exact UInt8.toNat_inj.mp (hrow r rfl)

/-- The operand of an opcode by its number: `PUSH1` to `PUSH32` have as many bytes
as their ordinal says. -/
theorem immediateSize_eq (op : Opcode) :
    op.immediateSize =
      if 0x60 ≤ op.byte.toNat ∧ op.byte.toNat ≤ 0x7f then op.byte.toNat - 0x5f else 0 := by
  have h := (rows_by_byte _ op.mem_rows).2.1
  rw [immediateSize, h]

/-- The one block start. -/
theorem isBlockStart_iff : op.isBlockStart = true ↔ op.byte = 0x5b := by
  have h := (rows_by_byte _ op.mem_rows).2.2.1
  rw [isBlockStart, flags, h, decide_eq_true_iff, ← UInt8.toNat_inj]
  rfl

theorem mnemonic?_eq_jumpdest_iff : op.mnemonic? = some "JUMPDEST" ↔ op.byte = 0x5b := by
  have h := (rows_by_byte _ op.mem_rows).2.2.2.1
  rw [mnemonic?, h, ← UInt8.toNat_inj]
  rfl

/-! ## names -/

/-- The mnemonics are distinct words, and none of them begins like a number. -/
theorem words_of_named : (Isa.Evm.table.named.map Isa.Row.mnemonic).Nodup ∧
    ∀ r ∈ Isa.Evm.table.named, r.mnemonic.toList.all Char.isAlphanum = true ∧
      r.mnemonic.toList.head? ≠ some '0' := by
  decide +kernel

theorem mem_named_of_row? {r : Isa.Row} (h : op.row? = some r) : r ∈ Isa.Evm.table.named := by
  have hmem := op.mem_rows
  rw [h] at hmem
  exact List.mem_filterMap.mpr ⟨some r, List.fst_mem_of_mem_zipIdx hmem, rfl⟩

theorem text_of_some {r : Isa.Row} (h : op.row? = some r) : op.text = r.mnemonic := by
  simp [text, mnemonic?, h]

theorem text_of_none (h : op.row? = none) : op.text = Numeral.hexByte op.byte := by
  simp [text, mnemonic?, h]

/-- Opcodes with an operand are pushes, and their texts say how many bytes it has. -/
theorem text_of_operand (h : 0 < op.immediateSize) :
    op.text = "PUSH" ++ toString op.immediateSize := by
  have hnamed := (rows_by_byte _ op.mem_rows).2.2.2.2
  cases hrow : op.row? with
  | none => simp [immediateSize, hrow] at h
  | some r =>
      have hsize : op.immediateSize = r.immediateSize := by simp [immediateSize, hrow]
      rw [hrow] at hnamed
      rw [hsize] at h
      rw [text_of_some hrow, hsize]
      exact hnamed r rfl h

/-- The text of an opcode is a word. -/
theorem isAlphanum_of_mem_text {c : Char} (h : c ∈ op.text.toList) : c.isAlphanum = true := by
  cases hrow : op.row? with
  | none =>
      rw [text_of_none hrow] at h
      exact Numeral.isAlphanum_of_mem_hexByte h
  | some r =>
      rw [text_of_some hrow] at h
      exact List.all_eq_true.mp (words_of_named.2 r (mem_named_of_row? hrow)).1 c h

/-- A mnemonic is no number. -/
theorem mnemonic_ne_hexByte {r : Isa.Row} (h : r ∈ Isa.Evm.table.named) (b : UInt8) :
    r.mnemonic ≠ Numeral.hexByte b := by
  intro heq
  apply (words_of_named.2 r h).2
  rw [heq]
  simp [Numeral.hexByte]

/-- No two opcodes have the same text. -/
theorem text_injective : Function.Injective text := by
  intro op op' h
  have hbyte : op.byte = op'.byte := by
    cases hrow : op.row? with
    | none =>
        cases hrow' : op'.row? with
        | none =>
            rw [text_of_none hrow, text_of_none hrow'] at h
            exact Numeral.hexByte_injective h
        | some r' =>
            rw [text_of_none hrow, text_of_some hrow'] at h
            exact absurd h.symm (mnemonic_ne_hexByte (mem_named_of_row? hrow') op.byte)
    | some r =>
        have hr := mem_named_of_row? hrow
        cases hrow' : op'.row? with
        | none =>
            rw [text_of_some hrow, text_of_none hrow'] at h
            exact absurd h (mnemonic_ne_hexByte hr op'.byte)
        | some r' =>
            rw [text_of_some hrow, text_of_some hrow'] at h
            have heq := List.inj_on_of_nodup_map words_of_named.1 hr (mem_named_of_row? hrow') h
            rw [← opcode_of_row? hrow, ← opcode_of_row? hrow', heq]
  cases op
  cases op'
  exact congrArg Opcode.mk hbyte

/-- The opcode with this text. -/
def ofText? (name : String) : Option Opcode :=
  (Isa.opcodeBytes.map mk).find? fun op => op.text = name

theorem mem_opcodeBytes (b : UInt8) : b ∈ Isa.opcodeBytes :=
  List.mem_map.mpr ⟨b.toNat, List.mem_range.mpr b.toNat_lt, UInt8.ofNat_toNat⟩

/-- An opcode is found by its text. -/
theorem ofText?_text (op : Opcode) : ofText? op.text = some op := by
  have hmem : op ∈ Isa.opcodeBytes.map mk := List.mem_map_of_mem (mem_opcodeBytes op.byte)
  have hsome : (ofText? op.text).isSome = true := by
    rw [ofText?, List.find?_isSome]
    exact ⟨op, hmem, by simp⟩
  obtain ⟨op', hop'⟩ := Option.isSome_iff_exists.mp hsome
  have htext : op'.text = op.text := by
    simpa using List.find?_some hop'
  rw [hop', text_injective htext]

end EvmBlocks.Opcode
