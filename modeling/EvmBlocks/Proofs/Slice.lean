import EvmBlocks.Proofs.Listing

/-!
# EvmBlocks.Proofs.Slice

The bytes of a block, analysed as a code of their own.

A run of the instructions of a code is the assembly of fitting operations, for
it begins and ends where instructions do, and only its last operand can be
short.  So the bytes of the run decode to the same instructions, moved down to
offset 0 (`instructions_decode_extract`).  A block holds a run without a boundary
inside, hence the analysis of its bytes finds a single block
(`analyze_block_alone`).
-/

namespace EvmBlocks

/-! ## parts of fitting operations -/

theorem Fitting.of_append_right {xs ys : List Operation} (h : Fitting (xs ++ ys)) :
    Fitting ys := by
  induction xs with
  | nil => exact h
  | cons op xs ih => exact ih h.2.2

theorem Fitting.of_append_left {xs ys : List Operation} (h : Fitting (xs ++ ys)) :
    Fitting xs := by
  induction xs with
  | nil => trivial
  | cons op xs ih =>
      obtain ⟨hle, hfull, hrest⟩ := h
      exact ⟨hle, fun hne => hfull (List.append_ne_nil_of_left_ne_nil hne ys), ih hrest⟩

/-! ## instructions and their operations -/

theorem assemble_map_operation (is : List Instruction) :
    assemble (is.map Instruction.operation) = is.flatMap Instruction.encode := by
  induction is with
  | nil => rfl
  | cons i is ih =>
      rw [List.map_cons, assemble_cons, ih, List.flatMap_cons]
      rfl

/-- Tiling instructions are where their operations are placed. -/
theorem Tiles.place_operations {is : List Instruction} {start stop : Nat}
    (h : Tiles start is stop) : place start (is.map Instruction.operation) = is := by
  induction is generalizing start with
  | nil => rfl
  | cons i is ih =>
      obtain ⟨rfl, his⟩ := tiles_cons.mp h
      have hnext : i.offset + i.operation.encode.length = i.stop := by
        simp [Instruction.operation, Operation.encode, Instruction.stop, Instruction.size,
          Nat.add_comm]
      rw [List.map_cons, place, hnext, ih his]
      rfl

/-- The instruction moved down by a distance. -/
def Instruction.lower (distance : Nat) (i : Instruction) : Instruction :=
  { i with offset := i.offset - distance }

@[simp] theorem Instruction.lower_shift (distance : Nat) (i : Instruction) :
    (i.shift distance).lower distance = i := by
  simp [shift, lower]

@[simp] theorem Instruction.pushValue?_shift (distance : Nat) (i : Instruction) :
    (i.shift distance).pushValue? = i.pushValue? := rfl

@[simp] theorem Instruction.isTruncated_shift (distance : Nat) (i : Instruction) :
    (i.shift distance).isTruncated = i.isTruncated := rfl

/-! ## runs of instructions -/

/-- The bytes of a run of the instructions of a code decode to the run, moved down
to the start of the bytes. -/
theorem instructions_decode_extract {code : List UInt8} {xs g ys : List Instruction}
    (h : (decode code).instructions = xs ++ (g ++ ys)) (hne : g ≠ []) :
    (decode (code.extract (Block.span g).start (Block.span g).stop)).instructions.map
        (Instruction.shift (Block.span g).start) = g := by
  have htiles := tiles_decode code
  have hfit := fitting_decode code
  rw [h] at htiles hfit
  obtain ⟨first, -, hrest⟩ := tiles_append.mp htiles
  obtain ⟨last, hg, -⟩ := tiles_append.mp hrest
  rw [List.map_append, List.map_append] at hfit
  have hops : Fitting (g.map Instruction.operation) := hfit.of_append_right.of_append_left
  have hbytes := encode_eq_extract h hne
  rw [← hbytes, ← assemble_map_operation, instructions_decode_assemble hops, ← place_add,
    Nat.zero_add, hg.span_eq hne, hg.place_operations]

/-- If moving the instructions of a code up makes them a run without a boundary
inside, the code has a single block. -/
theorem basicBlocks_decode_of_isChain {code : List UInt8} {g : List Instruction}
    {distance : Nat} (h : (decode code).instructions.map (Instruction.shift distance) = g)
    (hne : g ≠ []) (hchain : g.IsChain fun i j => i.joins j = true) :
    basicBlocks (decode code).instructions = [⟨0, code.length⟩] := by
  subst h
  have hne' : (decode code).instructions ≠ [] := fun hnil => hne (by simp [hnil])
  have hchain' : (decode code).instructions.IsChain fun i j => i.joins j = true := by
    rw [List.isChain_map] at hchain
    exact hchain
  rw [basicBlocks_of_ne_nil hne', groups_of_isChain hne' hchain', List.map_singleton,
    (tiles_decode code).span_eq hne']

/-! ## blocks -/

/-- The bytes of a block have the block moved down as their only one, and the
instructions of the block moved down as theirs. -/
theorem decode_extract_of_mem_basicBlocks {code : List UInt8} {b : Block}
    (h : b ∈ basicBlocks (decode code).instructions) :
    basicBlocks (decode (code.extract b.start b.stop)).instructions = [⟨0, b.stop - b.start⟩] ∧
      (decode (code.extract b.start b.stop)).instructions.map (Instruction.shift b.start) =
        (decode code).range b.start b.stop := by
  by_cases hcode : code = []
  · subst hcode
    have hnil : (decode []).instructions = [] := instructions_decode_eq_nil_iff.mpr rfl
    have hb : b = ⟨0, 0⟩ := by simpa [hnil, basicBlocks] using h
    have hbytes : ([] : List UInt8).extract b.start b.stop = [] := by simp
    rw [hbytes, hnil, range_decode, hnil, hb]
    exact ⟨rfl, rfl⟩
  · rw [basicBlocks_of_ne_nil (mt instructions_decode_eq_nil_iff.mp hcode)] at h
    obtain ⟨g, hg, rfl⟩ := List.mem_map.mp h
    have hne := ne_nil_of_mem_groups hg
    obtain ⟨xs, ys, his⟩ := exists_append_of_mem_groups hg
    have hmoved := instructions_decode_extract his hne
    have hlength : (code.extract (Block.span g).start (Block.span g).stop).length =
        (Block.span g).stop - (Block.span g).start := by
      have hbytes := ((tiles_decode code).of_mem_groups hg).add_length_encode
      rw [encode_eq_extract his hne] at hbytes
      omega
    refine ⟨?_, ?_⟩
    · rw [basicBlocks_decode_of_isChain hmoved hne (isChain_of_mem_groups hg), hlength]
    · rw [range_span_of_mem_groups hg, hmoved]

/-- Every block of a code can be analysed on its own.  The analysis of its bytes
finds one block, which fills them, and the instructions of the block, each moved
down by the start of the block: the opcodes and operands are the same, and so are
the values that are pushed and what is cut short. -/
theorem analyze_block_alone (code : List UInt8) (hlen : code.length ≤ maxOffset) :
    ∃ p, Program.analyze code = .ok p ∧ ∀ b ∈ p.blocks, ∃ q,
      Program.analyze (code.extract b.start b.stop) = .ok q ∧
        q.blocks = [⟨0, b.stop - b.start⟩] ∧
        q.instructions.toList =
          (p.blockInstructions b).map (fun i => (i.offset - b.start, i.lower b.start)) ∧
        (∀ i ∈ p.blockInstructions b, b.start ≤ i.offset) ∧
        q.instructions.instructions.map Instruction.pushValue? =
          (p.blockInstructions b).map Instruction.pushValue? ∧
        q.instructions.instructions.map Instruction.isTruncated =
          (p.blockInstructions b).map Instruction.isTruncated := by
  refine ⟨_, Program.analyze_eq hlen, fun b hb => ?_⟩
  obtain ⟨hblocks, hmoved⟩ := decode_extract_of_mem_basicBlocks hb
  have hlen' : (code.extract b.start b.stop).length ≤ maxOffset := by
    rw [List.extract_eq_take_drop, List.length_take, List.length_drop]
    omega
  refine ⟨_, Program.analyze_eq hlen', hblocks, ?_⟩
  simp only [Program.blockInstructions]
  rw [← hmoved]
  refine ⟨?_, ?_, ?_, ?_⟩
  · have hkey : ∀ i : Instruction, (i.shift b.start).offset - b.start = i.offset :=
      fun i => Nat.add_sub_cancel i.offset b.start
    simp only [toList_decode, List.map_map, Function.comp_def, Instruction.lower_shift, hkey]
    rfl
  · intro i hi
    obtain ⟨i', -, rfl⟩ := List.mem_map.mp hi
    exact Nat.le_add_left _ _
  · simp only [List.map_map, Function.comp_def, Instruction.pushValue?_shift]
  · simp only [List.map_map, Function.comp_def, Instruction.isTruncated_shift]

/-- `PUSH2 0x5b00`, `STOP`, `JUMPDEST` and a `PUSH2` with one byte of its operand: the
bytes of the second block, the short operand included, are analysed alone. -/
theorem analyze_block_alone_short_push :
    ([0x61, 0x5b, 0x00, 0x00, 0x5b, 0x61, 0x5b] : List UInt8).length ≤ maxOffset ∧
      ∃ p, Program.analyze [0x61, 0x5b, 0x00, 0x00, 0x5b, 0x61, 0x5b] = .ok p ∧
        p.blocks = [⟨0, 4⟩, ⟨4, 7⟩] ∧
        ∃ q, Program.analyze [0x5b, 0x61, 0x5b] = .ok q ∧ q.blocks = [⟨0, 3⟩] ∧
          q.instructions.toList =
            (p.blockInstructions ⟨4, 7⟩).map (fun i => (i.offset - 4, i.lower 4)) := by
  have hlen : ([0x61, 0x5b, 0x00, 0x00, 0x5b, 0x61, 0x5b] : List UInt8).length ≤ maxOffset := by
    decide
  obtain ⟨p, hp, halone⟩ := analyze_block_alone _ hlen
  obtain ⟨p', hp', -, -, hblocks⟩ := Program.exists_analyze hlen
  obtain rfl : p = p' := Except.ok.inj (hp.symm.trans hp')
  have hspans : p.blocks = [⟨0, 4⟩, ⟨4, 7⟩] := by
    rw [hblocks]
    decide +kernel
  obtain ⟨q, hq, hblock, hentries, -⟩ := halone ⟨4, 7⟩ (by simp [hspans])
  exact ⟨hlen, p, hp, hspans, q, hq, hblock, hentries⟩

end EvmBlocks
