import EvmBlocks.Proofs.Program

/-!
# EvmBlocks.Proofs.Continuation

What is known about a code before all of it has been seen.

However a code goes on, its instructions stay where they are.  Only the last one
can change: if its operand is cut short, it takes the bytes that it lacks from
what follows (`exists_instructions_decode_append`).  Its opcode stays too, so
whether it begins a block is settled, and every block but the last is final
(`dropLast_basicBlocks_decode_append`).  `analyze_append_stable` states both.
-/

namespace EvmBlocks

/-! ## completed operands -/

namespace Instruction

/-- The number of operand bytes that the instruction lacks. -/
def missing (i : Instruction) : Nat := i.opcode.immediateSize - i.data.length

/-- The instruction with the operand bytes that it lacks taken from `more`, as far
as there are any. -/
def complete (more : List UInt8) (i : Instruction) : Instruction :=
  { i with data := i.data ++ more.take i.missing }

@[simp] theorem opcode_complete (more : List UInt8) (i : Instruction) :
    (i.complete more).opcode = i.opcode := rfl

theorem missing_eq_zero_iff (i : Instruction) : i.missing = 0 ↔ i.isTruncated = false := by
  rw [← Bool.not_eq_true, isTruncated_iff, missing]
  omega

/-- An instruction whose operand is complete stays as it is. -/
theorem complete_of_missing_eq_zero {i : Instruction} (h : i.missing = 0) (more : List UInt8) :
    i.complete more = i := by
  simp [complete, h]

theorem map_complete_of_missing {is : List Instruction} (h : ∀ i ∈ is, i.missing = 0)
    (more : List UInt8) : is.map (complete more) = is := by
  have hsame : ∀ i ∈ is, i.complete more = id i :=
    fun i hi => complete_of_missing_eq_zero (h i hi) more
  rw [List.map_congr_left hsame, List.map_id]

end Instruction

/-- Complete operations are placed as instructions that lack nothing. -/
theorem missing_of_mem_place {ops : List Operation} {offset : Nat} {i : Instruction}
    (h : ∀ op ∈ ops, op.2.length = op.1.immediateSize) (hi : i ∈ place offset ops) :
    i.missing = 0 := by
  have hop : i.operation ∈ ops := by
    rw [← map_operation_place offset ops]
    exact List.mem_map_of_mem hi
  have hlen : i.data.length = i.opcode.immediateSize := h i.operation hop
  rw [Instruction.missing, hlen, Nat.sub_self]

/-- An operation that is cut short goes on in what follows: with the bytes that it
lacks it fits in front of the operations that come after them. -/
theorem Fitting.cons_of_drop {op : Operation} {more : List UInt8} {ops : List Operation}
    (hle : op.2.length ≤ op.1.immediateSize) (hops : Fitting ops)
    (hmore : assemble ops = more.drop (op.1.immediateSize - op.2.length)) :
    Fitting ((op.1, op.2 ++ more.take (op.1.immediateSize - op.2.length)) :: ops) := by
  refine ⟨?_, fun hne => ?_, hops⟩
  · simp only [List.length_append, List.length_take]
    omega
  · have hdrop := List.length_pos_iff.mpr (mt assemble_eq_nil_iff.mp hne)
    simp only [hmore, List.length_drop, List.length_append, List.length_take] at hdrop ⊢
    omega

/-- The instructions of a code that goes on: those of the code, with the operand of
the last one completed, and then others behind the code. -/
theorem exists_instructions_decode_append (code more : List UInt8) :
    ∃ rest, (decode (code ++ more)).instructions =
        (decode code).instructions.map (Instruction.complete more) ++ rest ∧
      ∀ i ∈ rest, code.length ≤ i.offset := by
  obtain ⟨ops, hfit, rfl⟩ := exists_assembly code
  rw [instructions_decode_assemble hfit]
  obtain rfl | ⟨front, op, rfl⟩ := List.eq_nil_or_concat' ops
  · exact ⟨(decode more).instructions, rfl, by simp⟩
  · obtain ⟨hfull, hlast⟩ := fitting_iff.mp hfit
    rw [List.dropLast_concat] at hfull
    have hle := hlast op List.getLast?_concat
    obtain ⟨ops, hops, hmore⟩ := exists_assembly (more.drop (op.1.immediateSize - op.2.length))
    have hfront : (place 0 front).map (Instruction.complete more) = place 0 front :=
      Instruction.map_complete_of_missing (fun i hi => missing_of_mem_place hfull hi) more
    have hcode : assemble (front ++ [op]) ++ more = assemble
        (front ++ (op.1, op.2 ++ more.take (op.1.immediateSize - op.2.length)) :: ops) := by
      simp [Operation.encode, hmore]
    rw [hcode, instructions_decode_assemble (Fitting.append hfull (hops.cons_of_drop hle hmore)),
      place_append, place_append, List.map_append, hfront]
    refine ⟨place _ ops, (List.append_assoc (place 0 front) [_] _).symm, fun i hi => ?_⟩
    have hi := ((tiles_place _ ops).bounds i hi).1
    simp only [assemble_append, assemble_cons, assemble_nil, Operation.encode, List.append_nil,
      List.length_append, List.length_cons] at hi ⊢
    omega

/-- Below the end of a code, the map of the code that goes on holds the instructions
of the code, completed. -/
theorem get?_decode_append {code : List UInt8} (more : List UInt8) {key : Nat}
    (h : key < code.length) :
    (decode (code ++ more)).get? key =
      ((decode code).get? key).map (Instruction.complete more) := by
  obtain ⟨rest, his, hrest⟩ := exists_instructions_decode_append code more
  ext i
  rw [get?_decode_eq_some_iff, his, List.mem_append, Option.map_eq_some_iff]
  simp only [get?_decode_eq_some_iff, List.mem_map]
  constructor
  · rintro ⟨⟨j, hj, rfl⟩ | hi, hoffset⟩
    · exact ⟨j, ⟨hj, hoffset⟩, rfl⟩
    · have := hrest i hi
      omega
  · rintro ⟨j, ⟨hj, hoffset⟩, rfl⟩
    exact ⟨.inl ⟨j, hj, rfl⟩, hoffset⟩

/-! ## final blocks -/

/-- Every block of a code but the last is a block of the code that goes on, at the same
place. -/
theorem dropLast_basicBlocks_decode_append (code more : List UInt8) :
    (basicBlocks (decode code).instructions).dropLast <+:
      basicBlocks (decode (code ++ more)).instructions := by
  obtain ⟨rest, his, -⟩ := exists_instructions_decode_append code more
  by_cases hne : (decode code).instructions = []
  · simp [hne, basicBlocks]
  · -- Only the last instruction can change, and it is in the last group.
    have hsame : ∀ g ∈ (groups (decode code).instructions).dropLast,
        g.map (Instruction.complete more) = id g := by
      intro g hg
      refine Instruction.map_complete_of_missing (fun i hi => ?_) more
      have hfull := (length_data_decode code).1 i (mem_dropLast_of_mem_groups hg hi)
      rw [Instruction.missing, hfull, Nat.sub_self]
    have hgroups := dropLast_groups_append
      ((decode code).instructions.map (Instruction.complete more)) rest
    rw [groups_map _ (Instruction.opcode_complete more), ← List.map_dropLast,
      List.map_congr_left hsame, List.map_id, ← his] at hgroups
    have hne' : (decode (code ++ more)).instructions ≠ [] := by simp [his, hne]
    rw [basicBlocks_of_ne_nil hne, basicBlocks_of_ne_nil hne', ← List.map_dropLast]
    exact hgroups.map Block.span

/-- What is found in a code stays when the code goes on.  The keys of the code are the
keys below its end, with the same opcodes at the same offsets.  The operands stay too,
except that an operand which is cut short, as only the last can be, takes the bytes
that it lacks from what follows.  All blocks but the last are the first blocks of the
code that goes on. -/
theorem analyze_append_stable (code more : List UInt8) :
    (∀ key, (decode code).contains key = true ↔
        key < code.length ∧ (decode (code ++ more)).contains key = true) ∧
      (∀ key i, (decode code).get? key = some i →
        ∃ i', (decode (code ++ more)).get? key = some i' ∧ i'.offset = i.offset ∧
          i'.opcode = i.opcode ∧ (i.isTruncated = false → i'.data = i.data) ∧
          (i.isTruncated = true → (decode code).instructions.getLast? = some i ∧
            i'.data = i.data ++ more.take
              (min (i.opcode.immediateSize - i.data.length) more.length))) ∧
      ((code ++ more).length ≤ maxOffset →
        ∃ p q, Program.analyze code = .ok p ∧ Program.analyze (code ++ more) = .ok q ∧
          p.blocks.dropLast <+: q.blocks) := by
  have hlt : ∀ key i, (decode code).get? key = some i → key < code.length := by
    intro key i hi
    obtain ⟨hmem, rfl⟩ := get?_decode_eq_some_iff.mp hi
    exact Nat.lt_of_lt_of_le i.offset_lt_stop ((tiles_decode code).bounds i hmem).2
  refine ⟨fun key => ?_, fun key i hi => ?_, fun hlen => ?_⟩
  · simp only [InstructionMap.contains_eq_isSome_get?, Option.isSome_iff_exists]
    constructor
    · intro h
      obtain ⟨i, hi⟩ := h
      have hkey := hlt key i hi
      exact ⟨hkey, i.complete more, by rw [get?_decode_append more hkey, hi, Option.map_some]⟩
    · intro h
      obtain ⟨hkey, i', hi'⟩ := h
      rw [get?_decode_append more hkey] at hi'
      obtain ⟨i, hi, -⟩ := Option.map_eq_some_iff.mp hi'
      exact ⟨i, hi⟩
  · refine ⟨i.complete more, ?_, rfl, rfl, fun hfull => ?_, fun hshort => ⟨?_, ?_⟩⟩
    · rw [get?_decode_append more (hlt key i hi), hi, Option.map_some]
    · rw [Instruction.complete_of_missing_eq_zero (i.missing_eq_zero_iff.mpr hfull)]
    · cases length_data_eq_or_truncated (get?_decode_eq_some_iff.mp hi).1 with
      | inl hfull =>
          rw [Instruction.isTruncated_iff] at hshort
          omega
      | inr hlast => exact hlast.1
    · rw [← List.take_eq_take_min]
      rfl
  · have hlen' : code.length ≤ maxOffset := by
      rw [List.length_append] at hlen
      omega
    obtain ⟨p, hp, -, -, hblocks⟩ := Program.exists_analyze hlen'
    obtain ⟨q, hq, -, -, hblocks'⟩ := Program.exists_analyze hlen
    refine ⟨p, q, hp, hq, ?_⟩
    rw [hblocks, hblocks']
    exact dropLast_basicBlocks_decode_append code more

/-- `STOP`, `JUMPDEST` and a `PUSH3` with one byte of its operand, followed by three
bytes: the operand takes two of them, and the last one is a `JUMPDEST`. -/
theorem analyze_append_stable_short_push :
    ([0x00, 0x5b, 0x62, 0xaa] ++ [0xbb, 0x5b, 0x5b] : List UInt8).length ≤ maxOffset ∧
      (decode [0x00, 0x5b, 0x62, 0xaa]).get? 2 = some ⟨2, ⟨0x62⟩, [0xaa]⟩ ∧
      (decode [0x00, 0x5b, 0x62, 0xaa, 0xbb, 0x5b, 0x5b]).get? 2 =
        some ⟨2, ⟨0x62⟩, [0xaa, 0xbb, 0x5b]⟩ ∧
      ∃ p q, Program.analyze [0x00, 0x5b, 0x62, 0xaa] = .ok p ∧
        Program.analyze [0x00, 0x5b, 0x62, 0xaa, 0xbb, 0x5b, 0x5b] = .ok q ∧
        p.blocks.dropLast <+: q.blocks := by
  have hlen : ([0x00, 0x5b, 0x62, 0xaa] ++ [0xbb, 0x5b, 0x5b] : List UInt8).length ≤ maxOffset := by
    decide
  have hpush : (decode [0x00, 0x5b, 0x62, 0xaa]).get? 2 = some ⟨2, ⟨0x62⟩, [0xaa]⟩ ∧
      Instruction.isTruncated ⟨2, ⟨0x62⟩, [0xaa]⟩ = true := by
    decide +kernel
  obtain ⟨-, hinstructions, hblocks⟩ :=
    analyze_append_stable [0x00, 0x5b, 0x62, 0xaa] [0xbb, 0x5b, 0x5b]
  obtain ⟨⟨offset, opcode, data⟩, hi', rfl, rfl, -, hdata⟩ := hinstructions 2 _ hpush.1
  obtain rfl : data = [0xaa, 0xbb, 0x5b] := (hdata hpush.2).2.trans (by decide +kernel)
  exact ⟨hlen, hpush.1, hi', hblocks hlen⟩

end EvmBlocks
