import EvmBlocks.Proofs.Opcode
import EvmBlocks.Proofs.Program
import EvmBlocks.Report

/-!
# EvmBlocks.Proofs.Summary

The numbers in the summary of a program, and how they hang together.

The summary reads some numbers off the blocks and others off the instructions.  Three
facts connect the two.  Contiguous blocks have as many offsets as the range that they
fill (`Block.totalLength_of_contiguous`).  There is one group of instructions more than
there are boundaries between neighbours (`length_groups`).  And only the last instruction
of a code can be cut short, so that it alone decides the number of those that are.
-/

namespace EvmBlocks

/-! ## the lengths of blocks -/

namespace Block

/-- Adds the length of a block to a total, if the block has one and the sum is an offset. -/
def addLength? (total : Nat) (b : Block) : Except ArithmeticFault Nat := do
  let length ← b.length?
  Checked.add maxOffset total length

/-- The lengths of the blocks of a list together, if every block has one and no sum is
too great. -/
def totalLength? (blocks : List Block) : Except ArithmeticFault Nat := blocks.foldlM addLength? 0

/-- The lengths of contiguous blocks add up, with and without checks, from any total on. -/
theorem foldl_length_of_contiguous {bs : List Block} {start stop : Nat}
    (h : Contiguous start bs stop) (hle : ∀ b ∈ bs, b.start ≤ b.stop) (total : Nat)
    (hmax : total + (stop - start) ≤ maxOffset) :
    bs.foldl (fun total b => total + b.length) total = total + (stop - start) ∧
      bs.foldlM addLength? total = .ok (total + (stop - start)) := by
  induction bs generalizing start total with
  | nil =>
      have hstop : start = stop := h
      simp [hstop, pure, Except.pure]
  | cons b bs ih =>
      obtain ⟨rfl, hbs⟩ := h
      obtain ⟨hb, hrest⟩ := List.forall_mem_cons.mp hle
      have hstop : b.stop ≤ stop := start_le_of_contiguous hbs hrest stop (by simp)
      have hnext : total + b.length + (stop - b.stop) = total + (stop - b.start) := by
        simp only [length]
        omega
      have hadd : addLength? total b = .ok (total + b.length) := by
        rw [addLength?, length?, Checked.sub_of_le hb]
        exact Checked.add_of_le (by omega)
      have ih := ih hbs hrest (total + b.length) (by omega)
      rw [hnext] at ih
      rw [List.foldl_cons, List.foldlM_cons, hadd]
      exact ih

/-- Contiguous blocks have as many offsets as the range that they fill. -/
theorem totalLength_of_contiguous {bs : List Block} {stop : Nat} (h : Contiguous 0 bs stop)
    (hle : ∀ b ∈ bs, b.start ≤ b.stop) (hmax : stop ≤ maxOffset) :
    totalLength bs = stop ∧ totalLength? bs = .ok stop := by
  have hfold := foldl_length_of_contiguous h hle 0 (by omega)
  rwa [Nat.sub_zero, Nat.zero_add] at hfold

end Block

/-! ## the number of blocks -/

/-- The pairs of neighbours in a list of instructions: every instruction but the first, with
the one before it. -/
def neighbours (is : List Instruction) : List (Instruction × Instruction) := is.zip is.tail

theorem neighbours_cons_cons (i j : Instruction) (is : List Instruction) :
    neighbours (i :: j :: is) = (i, j) :: neighbours (j :: is) := rfl

/-- An instruction begins a block behind another one: it is a `JUMPDEST`, or the other one
finishes a block. -/
def beginsBlock (pair : Instruction × Instruction) : Bool :=
  pair.2.opcode.byte = 0x5b || pair.1.opcode.isBlockEnd

theorem beginsBlock_eq (i j : Instruction) : beginsBlock (i, j) = !i.joins j := by
  rw [Bool.eq_iff_iff, Bool.not_eq_true', Instruction.joins_eq_false_iff, Opcode.isBlockStart_iff]
  simp [beginsBlock, or_comm]

/-- There is one group more than there are boundaries. -/
theorem length_groups {is : List Instruction} (hne : is ≠ []) :
    (groups is).length = 1 + (neighbours is).countP beginsBlock := by
  induction is with
  | nil => contradiction
  | cons i is ih =>
      have hone : groups [i] = [] ++ [[i]] :=
        groups_of_isChain (List.cons_ne_nil i []) (List.isChain_singleton i)
      cases is with
      | nil => rw [hone]; rfl
      | cons j is =>
          have ih := ih (List.cons_ne_nil j is)
          have happend : i :: j :: is = [i] ++ j :: is := rfl
          rw [neighbours_cons_cons, List.countP_cons, beginsBlock_eq, happend]
          cases hjoins : i.joins j with
          | false =>
              rw [groups_append (by simpa using hjoins), hone, List.length_append, ih]
              simp [Nat.add_comm]
          | true =>
              obtain ⟨g, gs, hgroups⟩ :=
                List.exists_cons_of_ne_nil (groups_ne_nil (List.cons_ne_nil j is))
              have hhead : g.head? = some j := (head?_of_groups_eq_cons hgroups).symm
              rw [groups_append_of_joins hone hgroups (by simpa [hhead] using hjoins)]
              rw [hgroups] at ih
              simpa using ih

theorem length_basicBlocks (is : List Instruction) :
    (basicBlocks is).length = 1 + (neighbours is).countP beginsBlock := by
  cases is with
  | nil => rfl
  | cons i is => rw [basicBlocks, List.length_map, length_groups (List.cons_ne_nil i is)]

theorem length_neighbours (is : List Instruction) : (neighbours is).length = is.length - 1 := by
  simp [neighbours]

/-- Every `JUMPDEST` but the first instruction begins a block. -/
theorem countP_isBlockStart_le (is : List Instruction) :
    is.countP (·.opcode.isBlockStart) ≤ 1 + (neighbours is).countP beginsBlock := by
  cases is with
  | nil => simp
  | cons i is =>
      have htail : (neighbours (i :: is)).map Prod.snd = is :=
        List.map_snd_zip (by simp)
      have hrest : is.countP (·.opcode.isBlockStart) ≤
          (neighbours (i :: is)).countP beginsBlock := by
        conv_lhs => rw [← htail, List.countP_map]
        apply List.countP_mono_left
        intro pair _ hstart
        simp [beginsBlock, Opcode.isBlockStart_iff.mp hstart]
      rw [List.countP_cons]
      split <;> omega

/-! ## the numbers of instructions and of bytes -/

/-- Instructions have one byte each, and their operands. -/
theorem length_flatMap_encode (is : List Instruction) :
    (is.flatMap Instruction.encode).length =
      is.length + (is.flatMap Instruction.data).length := by
  induction is with
  | nil => rfl
  | cons i is ih =>
      simp only [List.flatMap_cons, List.length_append, List.length_cons, i.length_encode,
        Instruction.size, ih]
      omega

/-- If nothing in front of the last element counts, the last element decides. -/
theorem countP_of_dropLast {α : Type} {p : α → Bool} {xs : List α}
    (h : ∀ x ∈ xs.dropLast, p x = false) :
    xs.countP p ≤ 1 ∧ (xs.countP p = 1 ↔ ∃ x ∈ xs.getLast?, p x = true) := by
  obtain rfl | ⟨front, last, rfl⟩ := List.eq_nil_or_concat' xs
  · simp
  · rw [List.dropLast_concat] at h
    have hfront : front.countP p = 0 := by
      rw [List.countP_eq_zero]
      simpa using h
    cases hlast : p last <;> simp [List.countP_append, hfront, hlast]

/-- At most one instruction of a code is cut short: the last one. -/
theorem countP_isTruncated_decode (code : List UInt8) :
    (decode code).instructions.countP Instruction.isTruncated ≤ 1 ∧
      ((decode code).instructions.countP Instruction.isTruncated = 1 ↔
        ∃ i ∈ (decode code).instructions.getLast?, i.data.length < i.opcode.immediateSize) := by
  simp only [← Instruction.isTruncated_iff]
  apply countP_of_dropLast
  intro i hi
  rw [← Bool.not_eq_true, Instruction.isTruncated_iff, (length_data_decode code).1 i hi]
  exact Nat.lt_irrefl _

/-! ## the summary -/

/-- The numbers of a summary hang together.  The blocks have all the bytes of the code, and
these are added up without a fault; the code has one byte for each instruction and those of
the operands; an instruction is cut short only if it is the last one; a block begins at the
start of the code and at each instruction that is a `JUMPDEST` or follows a block end; so
there are no more `JUMPDEST` instructions than blocks, and no more blocks than instructions
unless the code is empty. -/
theorem summary_consistent (code : List UInt8) (hlen : code.length ≤ maxOffset) :
    ∃ p s, Program.analyze code = .ok p ∧ Report.Summary.ofProgram p = s ∧
      s.codeSize = code.length ∧
      s.bytesInBlocks = s.codeSize ∧ Block.totalLength? p.blocks = .ok s.bytesInBlocks ∧
      s.codeSize = s.instructions + (p.instructions.instructions.flatMap Instruction.data).length ∧
      s.truncated ≤ 1 ∧
      (s.truncated = 1 ↔
        ∃ i ∈ p.instructions.instructions.getLast?, i.data.length < i.opcode.immediateSize) ∧
      s.blocks = 1 + (neighbours p.instructions.instructions).countP beginsBlock ∧
      s.jumpTargets = p.instructions.instructions.countP (fun i => i.opcode.byte = 0x5b) ∧
      s.jumpTargets ≤ s.blocks ∧ s.blocks ≤ max 1 s.instructions := by
  obtain ⟨p, hp, hcode, hinstructions, hblocks⟩ := Program.exists_analyze hlen
  have htiles := tiles_decode code
  obtain ⟨htotal, hchecked⟩ := Block.totalLength_of_contiguous (contiguous_basicBlocks htiles)
    (start_le_stop_of_mem_basicBlocks htiles) hlen
  rw [← hblocks] at htotal hchecked
  have hsize : p.instructions.instructions.length = p.instructions.size :=
    p.instructions.length_instructions
  have hbytes : code.length = p.instructions.size +
      (p.instructions.instructions.flatMap Instruction.data).length := by
    rw [← hsize, ← length_flatMap_encode, hinstructions, flatMap_encode_decode]
  have hcount : p.layout.size =
      1 + (neighbours p.instructions.instructions).countP beginsBlock := by
    rw [← length_basicBlocks, hinstructions, ← hblocks, Program.blocks, Array.length_toList,
      Layout.size]
  obtain ⟨hle, htruncated⟩ := countP_isTruncated_decode code
  rw [← hinstructions] at hle htruncated
  refine ⟨p, .ofProgram p, hp, rfl, ?_, ?_, ?_, ?_, hle, htruncated, hcount, ?_, ?_, ?_⟩
  · exact congrArg List.length hcode
  · exact htotal.trans (congrArg List.length hcode.symm)
  · exact hchecked.trans (congrArg Except.ok htotal.symm)
  · exact (congrArg List.length hcode).trans hbytes
  · apply List.countP_congr
    intro i _
    rw [Opcode.isBlockStart_iff, decide_eq_true_iff]
  · exact (countP_isBlockStart_le _).trans_eq hcount.symm
  · have hmost := (neighbours p.instructions.instructions).countP_le_length (p := beginsBlock)
    rw [length_neighbours, hsize] at hmost
    show p.layout.size ≤ max 1 p.instructions.size
    omega

/-- `STOP`, `JUMPDEST`, `JUMPDEST` and a `PUSH2` with one byte of its operand: the boundary
between the first two is counted once. -/
theorem summary_consistent_adjacent_boundaries :
    ([0x00, 0x5b, 0x5b, 0x61, 0x00] : List UInt8).length ≤ maxOffset ∧
      ∃ p s, Program.analyze [0x00, 0x5b, 0x5b, 0x61, 0x00] = .ok p ∧
        Report.Summary.ofProgram p = s ∧ s.codeSize = 5 ∧ s.bytesInBlocks = 5 ∧
        s.instructions = 4 ∧ s.blocks = 3 ∧ s.jumpTargets = 2 ∧ s.truncated = 1 := by
  have hlen : ([0x00, 0x5b, 0x5b, 0x61, 0x00] : List UInt8).length ≤ maxOffset := by decide
  obtain ⟨p, s, hp, hs, hcode, hbytes, -, hsum, -, htruncated, hblocks, hjumps, -⟩ :=
    summary_consistent _ hlen
  have his : p.instructions.instructions =
      [⟨0, ⟨0x00⟩, []⟩, ⟨1, ⟨0x5b⟩, []⟩, ⟨2, ⟨0x5b⟩, []⟩, ⟨3, ⟨0x61⟩, [0x00]⟩] := by
    rw [Program.instructions_of_analyze hp]
    decide +kernel
  rw [his] at hsum htruncated hblocks hjumps
  have hsum : s.codeSize = s.instructions + 1 := hsum
  refine ⟨hlen, p, s, hp, hs, hcode, hbytes.trans hcode, ?_, hblocks.trans (by decide +kernel),
    hjumps.trans (by decide), htruncated.mpr ⟨_, rfl, by decide +kernel⟩⟩
  exact Nat.add_right_cancel (hsum.symm.trans hcode)

end EvmBlocks
