import EvmBlocks.Proofs.Listing
import EvmBlocks.Proofs.Opcode

/-!
# EvmBlocks.Proofs.JumpDests

The jump destinations of a code, as the machine itself determines them.

Before a machine runs a code, it scans it once: it records every `0x5b` that it
comes to, and steps over the operands of the pushes `0x60` to `0x7f`.  The scan
knows these numbers and nothing else of the instruction set (`JumpScan.stride`,
`JumpScan.recorded`).

Along the operations of which a code is the assembly, the scan comes to every
opcode and to no operand byte (`JumpScan.recorded_assemble`), so it records the
`JUMPDEST` instructions that are decoded.  Blocks begin at opcodes, and a
`JUMPDEST` begins one, so these are also the places where a block begins with
`0x5b` (`mem_jumpDests_iff`).
-/

namespace EvmBlocks

namespace JumpScan

/-! ## the scan -/

/-- How far the scan moves on from a byte: behind the operand of a push, or to the
next byte. -/
def stride (byte : UInt8) : Nat :=
  if 0x60 ≤ byte ∧ byte ≤ 0x7f then byte.toNat - 0x5f + 1 else 1

theorem stride_pos (byte : UInt8) : 0 < stride byte := by
  unfold stride
  split <;> omega

/-- The offsets that are recorded from `pc` on. -/
def recorded (code : List UInt8) (pc : Nat) : List Nat :=
  if h : pc < code.length then
    (if code[pc] = 0x5b then [pc] else []) ++ recorded code (pc + stride code[pc])
  else []
termination_by code.length - pc
decreasing_by
  have := stride_pos code[pc]
  omega

theorem recorded_of_length_le {code : List UInt8} {pc : Nat} (h : code.length ≤ pc) :
    recorded code pc = [] := by
  rw [recorded, dif_neg (Nat.not_lt.mpr h)]

/-- The scan moves on by the size of a complete instruction. -/
theorem stride_eq (op : Opcode) : stride op.byte = op.size := by
  simp only [stride, Opcode.size_eq, Opcode.immediateSize_eq, UInt8.le_iff_toNat_le,
    UInt8.reduceToNat]
  split <;> omega

/-! ## the scan along operations -/

/-- **One round**: in front of an operation, the scan looks at the opcode. -/
theorem recorded_operation {code pre rest : List UInt8} {op : Operation}
    (hcode : code = pre ++ (op.encode ++ rest)) :
    recorded code pre.length =
      (if op.1.byte = 0x5b then [pre.length] else []) ++
        recorded code (pre.length + op.1.size) := by
  have hlt : pre.length < code.length := by
    simp [hcode, Operation.encode]
  have hbyte : code[pre.length] = op.1.byte := by
    simp [hcode, Operation.encode]
  rw [recorded, dif_pos hlt, hbyte, stride_eq]

/-- **A whole scan**: from the first of some operations on, the scan records the
offsets at which `0x5b` is an opcode. -/
theorem recorded_assemble {code : List UInt8} (pre : List UInt8) {ops : List Operation}
    (hcode : code = pre ++ assemble ops) (hfit : Fitting ops) :
    recorded code pre.length =
      ((place pre.length ops).filter fun i => i.opcode.byte = 0x5b).map Instruction.offset := by
  induction ops generalizing pre with
  | nil =>
      apply recorded_of_length_le
      simp [hcode]
  | cons op ops ih =>
      rw [assemble_cons] at hcode
      have hnext := ih (pre ++ op.encode) (by simp [hcode]) hfit.2.2
      have hskip : recorded code (pre.length + op.1.size) =
          recorded code (pre.length + op.encode.length) := by
        by_cases hops : ops = []
        · -- The nominal end of a last operand may lie beyond the code.
          have hle := hfit.1
          have hlen : code.length = pre.length + op.encode.length := by simp [hcode, hops]
          have hencode : op.encode.length = 1 + op.2.length := by
            simp [Operation.encode, Nat.add_comm]
          rw [recorded_of_length_le (by rw [Opcode.size_eq]; omega),
            recorded_of_length_le (by omega)]
        · have hfull := hfit.2.1 hops
          simp [Operation.encode, Opcode.size_eq, hfull, Nat.add_comm]
      rw [List.length_append] at hnext
      rw [recorded_operation hcode, hskip, hnext, place]
      by_cases hbyte : op.1.byte = 0x5b <;> simp [hbyte]

end JumpScan

/-- The offsets that the scan of a whole code records. -/
def jumpDests (code : List UInt8) : List Nat := JumpScan.recorded code 0

/-! ## recorded offsets and instructions -/

theorem mem_jumpDests {code : List UInt8} {offset : Nat} :
    offset ∈ jumpDests code ↔
      ∃ i ∈ (decode code).instructions, i.offset = offset ∧ i.opcode.byte = 0x5b := by
  obtain ⟨ops, hfit, rfl⟩ := exists_assembly code
  have hscan : jumpDests (assemble ops) =
      ((place 0 ops).filter fun i => i.opcode.byte = 0x5b).map Instruction.offset :=
    JumpScan.recorded_assemble [] rfl hfit
  rw [hscan, instructions_decode_assemble hfit]
  simp [and_comm, and_left_comm]

/-! ## recorded offsets and blocks -/

/-- A block start of a code is where a block starts. -/
theorem exists_block_of_isBlockStart {code : List UInt8} {i : Instruction}
    (h : i ∈ (decode code).instructions) (hstart : i.opcode.isBlockStart = true) :
    ∃ b ∈ basicBlocks (decode code).instructions, b.start = i.offset := by
  obtain ⟨g, hg, hi⟩ := mem_iff_exists_group.mp h
  refine ⟨Block.span g, ?_, ?_⟩
  · rw [basicBlocks_of_ne_nil (List.ne_nil_of_mem h)]
    exact List.mem_map_of_mem hg
  · have htiles := (tiles_decode code).of_mem_groups hg
    exact (offset_eq_of_isBlockStart (isChain_of_mem_groups hg) htiles hi hstart).symm

/-- A block of a code that is not empty starts at an instruction. -/
theorem exists_offset_eq_start {code : List UInt8} (hcode : code ≠ []) {b : Block}
    (h : b ∈ basicBlocks (decode code).instructions) :
    ∃ i ∈ (decode code).instructions, i.offset = b.start := by
  rw [basicBlocks_of_ne_nil (mt instructions_decode_eq_nil_iff.mp hcode)] at h
  obtain ⟨g, hg, rfl⟩ := List.mem_map.mp h
  have hne := ne_nil_of_mem_groups hg
  refine ⟨g.head hne, mem_iff_exists_group.mpr ⟨g, hg, List.head_mem hne⟩, ?_⟩
  rw [Block.span_of_ne_nil hne]

/-- An offset is recorded exactly if a `0x5b` stands there and a block starts
there. -/
theorem mem_jumpDests_iff_exists_block {code : List UInt8} {offset : Nat} :
    offset ∈ jumpDests code ↔
      code[offset]? = some 0x5b ∧
        ∃ b ∈ basicBlocks (decode code).instructions, b.start = offset := by
  rw [mem_jumpDests]
  constructor
  · rintro ⟨i, hi, rfl, hbyte⟩
    refine ⟨?_, exists_block_of_isBlockStart hi (Opcode.isBlockStart_iff.mpr hbyte)⟩
    rw [getElem?_offset_of_mem_decode hi, hbyte]
  · rintro ⟨hbyte, b, hb, rfl⟩
    have hcode : code ≠ [] := by
      rintro rfl
      contradiction
    obtain ⟨i, hi, hoffset⟩ := exists_offset_eq_start hcode hb
    refine ⟨i, hi, hoffset, ?_⟩
    rw [← hoffset, getElem?_offset_of_mem_decode hi] at hbyte
    exact Option.some.inj hbyte

/-- The jump destinations of a code.  The scan records an offset exactly if a
`JUMPDEST` instruction of the program is there, and exactly if the offset lies in
the code, a `0x5b` stands there and a block of the program starts there. -/
theorem mem_jumpDests_iff (code : List UInt8) (hlen : code.length ≤ maxOffset) :
    ∃ p, Program.analyze code = .ok p ∧ ∀ offset,
      (offset ∈ jumpDests code ↔
        ∃ i, p.instructionAt? offset = some i ∧ i.opcode.mnemonic? = some "JUMPDEST") ∧
      (offset ∈ jumpDests code ↔
        offset < code.length ∧ code[offset]? = some 0x5b ∧ ∃ b ∈ p.blocks, b.start = offset) := by
  obtain ⟨p, hp, -, hinstructions, hblocks⟩ := Program.exists_analyze hlen
  refine ⟨p, hp, fun offset => ⟨?_, ?_⟩⟩
  · simp only [Program.instructionAt?, hinstructions, get?_decode_eq_some_iff,
      Opcode.mnemonic?_eq_jumpdest_iff, mem_jumpDests, and_assoc]
  · rw [hblocks, mem_jumpDests_iff_exists_block]
    constructor
    · rintro ⟨hbyte, hblock⟩
      exact ⟨(List.getElem?_eq_some_iff.mp hbyte).1, hbyte, hblock⟩
    · exact And.right

/-- `PUSH1 0x5b`, `JUMPDEST`, `STOP`, `JUMPDEST`, and a `PUSH2` with the one operand
byte `0x5b`: an operand is no jump destination, complete or not. -/
theorem mem_jumpDests_iff_push_operands :
    ([0x60, 0x5b, 0x5b, 0x00, 0x5b, 0x61, 0x5b] : List UInt8).length ≤ maxOffset ∧
      jumpDests [0x60, 0x5b, 0x5b, 0x00, 0x5b, 0x61, 0x5b] = [2, 4] ∧
      ∃ p, Program.analyze [0x60, 0x5b, 0x5b, 0x00, 0x5b, 0x61, 0x5b] = .ok p ∧
        (∃ i, p.instructionAt? 2 = some i ∧ i.opcode.mnemonic? = some "JUMPDEST") ∧
        (∃ b ∈ p.blocks, b.start = 4) ∧ ¬ ∃ b ∈ p.blocks, b.start = 6 := by
  have hlen : ([0x60, 0x5b, 0x5b, 0x00, 0x5b, 0x61, 0x5b] : List UInt8).length ≤ maxOffset := by
    decide
  have hscan : jumpDests [0x60, 0x5b, 0x5b, 0x00, 0x5b, 0x61, 0x5b] = [2, 4] := by
    simp [jumpDests, JumpScan.recorded, JumpScan.stride]
  obtain ⟨p, hp, hiff⟩ := mem_jumpDests_iff _ hlen
  rw [hscan] at hiff
  refine ⟨hlen, hscan, p, hp, (hiff 2).1.mp (by simp), ((hiff 4).2.mp (by simp)).2.2, fun h => ?_⟩
  have hsix := (hiff 6).2.mpr ⟨by simp, by simp, h⟩
  simp at hsix

end EvmBlocks
