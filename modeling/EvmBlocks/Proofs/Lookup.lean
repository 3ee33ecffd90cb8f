import EvmBlocks.Proofs.Layout
import EvmBlocks.Proofs.Listing

/-!
# EvmBlocks.Proofs.Lookup

Which block of a program an offset belongs to.

The blocks of a code are contiguous, so the lookup in their layout finds a block
for every offset of the code and for no other.  An instruction lies in one block
with all its bytes, and is listed there (`exists_block_of_mem`): an offset inside
an operand belongs to the block of the opcode in front of it
(`lookup_covers_code`).
-/

namespace EvmBlocks

/-- An instruction of a code lies in one of its blocks, which lists it. -/
theorem exists_block_of_mem {code : List UInt8} {i : Instruction}
    (h : i ∈ (decode code).instructions) :
    ∃ b ∈ basicBlocks (decode code).instructions,
      i ∈ (decode code).range b.start b.stop ∧ b.start ≤ i.offset ∧ i.stop ≤ b.stop := by
  obtain ⟨g, hg, hi⟩ := mem_iff_exists_group.mp h
  refine ⟨Block.span g, ?_, ?_, ((tiles_decode code).of_mem_groups hg).bounds i hi⟩
  · rw [basicBlocks_of_ne_nil (List.ne_nil_of_mem h)]
    exact List.mem_map_of_mem hg
  · rw [range_span_of_mem_groups hg]
    exact hi

namespace Program

/-- In a program whose blocks lie one before another, the lookup finds the block
that contains the offset. -/
theorem blockAt?_ofBlocks {code : List UInt8} {m : InstructionMap} {bs : List Block} {b : Block}
    {offset : Nat} (h : bs.Pairwise Block.Before) :
    (Program.mk code m (Layout.ofBlocks bs)).blockAt? offset = some b ↔
      b ∈ bs ∧ b.contains offset = true := by
  simp only [blockAt?, Option.bind_eq_some_iff, Layout.blockAt?_of_pairwise h, Layout.get?,
    Layout.blocks_ofBlocks, List.getElem?_toArray]
  constructor
  · rintro ⟨id, ⟨b', hb', hcontains⟩, hb⟩
    obtain rfl : b' = b := Option.some.inj (hb'.symm.trans hb)
    exact ⟨List.mem_of_getElem? hb, hcontains⟩
  · rintro ⟨hmem, hcontains⟩
    obtain ⟨id, hb⟩ := List.mem_iff_getElem?.mp hmem
    exact ⟨id, ⟨b, hb, hcontains⟩, hb⟩

end Program

/-- The lookup of an offset in the program of a code.  It finds a block exactly
for the offsets of the code, and this is the only one of the blocks that has the
offset.  The offsets of one instruction all belong to one block, and the
instruction is listed there. -/
theorem lookup_covers_code (code : List UInt8) (hlen : code.length ≤ maxOffset) :
    ∃ p, Program.analyze code = .ok p ∧
      (∀ offset, (∃ b, p.blockAt? offset = some b) ↔ offset < code.length) ∧
      (∀ offset b, p.blockAt? offset = some b ↔
        p.blocks.filter (fun b => b.start ≤ offset ∧ offset < b.stop) = [b]) ∧
      ∀ i ∈ p.instructions.instructions, ∃ b, i ∈ p.blockInstructions b ∧
        ∀ offset, i.offset ≤ offset → offset < i.stop → p.blockAt? offset = some b := by
  have htiles := tiles_decode code
  have hcontiguous := contiguous_basicBlocks htiles
  have hle := start_le_stop_of_mem_basicBlocks htiles
  have hbefore := Block.pairwise_before_of_contiguous hcontiguous hle
  refine ⟨_, Program.analyze_eq hlen, fun offset => ?_, fun offset b => ?_, fun i hi => ?_⟩
  · simp only [Program.blockAt?_ofBlocks hbefore,
      Block.exists_contains_iff_of_contiguous hcontiguous hle]
    omega
  · have hcontains : ∀ b : Block,
        decide (b.start ≤ offset ∧ offset < b.stop) = b.contains offset := by
      intro b
      rw [Bool.eq_iff_iff, decide_eq_true_iff, Block.contains_iff]
    simp only [hcontains]
    rw [Program.blockAt?_ofBlocks hbefore, ← Block.filter_contains_eq_singleton_iff hbefore]
    rfl
  · obtain ⟨b, hb, hlisted, hstart, hstop⟩ := exists_block_of_mem hi
    refine ⟨b, hlisted, fun offset hoffset hlt => ?_⟩
    rw [Program.blockAt?_ofBlocks hbefore, Block.contains_iff]
    exact ⟨hb, by omega, by omega⟩

/-- `PUSH2 0x5b5b`, `STOP`, `JUMPDEST`, `STOP`: the second operand byte belongs to
the block of its `PUSH2`, and the end of the code to no block. -/
theorem lookup_covers_code_operand :
    ([0x61, 0x5b, 0x5b, 0x00, 0x5b, 0x00] : List UInt8).length ≤ maxOffset ∧
      ∃ p, Program.analyze [0x61, 0x5b, 0x5b, 0x00, 0x5b, 0x00] = .ok p ∧
        p.blockAt? 2 = some ⟨0, 4⟩ ∧ p.blockAt? 5 = some ⟨4, 6⟩ ∧ p.blockAt? 6 = none := by
  have hlen : ([0x61, 0x5b, 0x5b, 0x00, 0x5b, 0x00] : List UInt8).length ≤ maxOffset := by decide
  obtain ⟨p, hp, hsome, hfilter, -⟩ := lookup_covers_code _ hlen
  obtain ⟨p', hp', -, -, hblocks⟩ := Program.exists_analyze hlen
  obtain rfl : p = p' := Except.ok.inj (hp.symm.trans hp')
  have hspans : p.blocks = [⟨0, 4⟩, ⟨4, 6⟩] := by
    rw [hblocks]
    decide +kernel
  have hnone : p.blockAt? 6 = none := by
    rw [Option.eq_none_iff_forall_ne_some]
    exact fun b hb => absurd ((hsome 6).mp ⟨b, hb⟩) (by decide)
  refine ⟨hlen, p, hp, (hfilter 2 _).mpr ?_, (hfilter 5 _).mpr ?_, hnone⟩
  · rw [hspans]
    decide
  · rw [hspans]
    decide

end EvmBlocks
