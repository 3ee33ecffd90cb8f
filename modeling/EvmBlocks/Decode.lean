import EvmBlocks.InstructionMap
import EvmBlocks.Journal

/-!
# EvmBlocks.Decode

From bytecode to instructions.

The code is read from left to right.  A byte that is not part of an operand
begins an instruction; the operand is as many of the following bytes as the
opcode asks for, or what is left of the code.  Decoding never fails.
-/

namespace EvmBlocks

namespace Decode

/-- The instruction that an opcode byte begins, in front of the bytes `rest`. -/
def instructionAt (offset : Nat) (byte : UInt8) (rest : List UInt8) : Instruction where
  offset := offset
  opcode := ⟨byte⟩
  data := rest.take (Opcode.mk byte).immediateSize

/-- Reports what is remarkable about an instruction. -/
def remark (j : Journal) (i : Instruction) : Journal :=
  let j := if i.opcode.isUnassigned then j.record (.unassigned i.offset i.opcode) else j
  if i.isTruncated then j.record (.truncated i) else j

/-- Reads the code from `offset` on, where `skip` bytes still belong to the
operand of the instruction before, and adds the instructions to `m`. -/
def scan (offset skip : Nat) (m : InstructionMap) (j : Journal) :
    List UInt8 → InstructionMap × Journal
  | [] => (m, j)
  | byte :: rest =>
      match skip with
      | skip + 1 => scan (offset + 1) skip m j rest
      | 0 =>
          let i := instructionAt offset byte rest
          scan (offset + 1) i.opcode.immediateSize (m.insert offset i) (remark j i) rest

/-- Skipping operand bytes is dropping them. -/
theorem scan_skip (offset skip : Nat) (m : InstructionMap) (j : Journal)
    (code : List UInt8) :
    scan offset skip m j code = scan (offset + skip) 0 m j (code.drop skip) := by
  induction code generalizing offset skip with
  | nil => cases skip <;> simp [scan]
  | cons byte rest ih =>
      cases skip with
      | zero => rfl
      | succ n =>
          rw [scan, ih, List.drop_succ_cons]
          congr 1
          omega

/-- One step: an instruction is read, and the scan goes on behind it. -/
theorem scan_cons (offset : Nat) (m : InstructionMap) (j : Journal) (byte : UInt8)
    (rest : List UInt8) :
    scan offset 0 m j (byte :: rest) =
      let i := instructionAt offset byte rest
      scan (offset + i.opcode.size) 0 (m.insert offset i) (remark j i)
        (rest.drop i.opcode.immediateSize) := by
  rw [scan, scan_skip]
  simp only [Opcode.size_eq, Nat.add_assoc]

theorem codeLength_scan (offset skip : Nat) (m : InstructionMap) (j : Journal)
    (code : List UInt8) : (scan offset skip m j code).1.codeLength = m.codeLength := by
  induction code generalizing offset skip m j with
  | nil => rfl
  | cons byte rest ih => cases skip <;> simp [scan, ih]

end Decode

/-- The instructions of a code, keyed by their offsets, with a report. -/
def decodeLogged (j : Journal) (code : List UInt8) : InstructionMap × Journal :=
  let (m, j) := Decode.scan 0 0 (.empty code.length) j code
  (m, j.record (.decoded m.size code.length))

/-- The instructions of a code, keyed by their offsets. -/
def decode (code : List UInt8) : InstructionMap := (decodeLogged .silent code).1

@[simp] theorem codeLength_decode (code : List UInt8) :
    (decode code).codeLength = code.length :=
  Decode.codeLength_scan 0 0 (.empty code.length) .silent code

end EvmBlocks
