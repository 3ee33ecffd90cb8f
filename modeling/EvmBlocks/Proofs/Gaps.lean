import EvmBlocks.Proofs.Faults
import EvmBlocks.Proofs.Spacing

/-!
# EvmBlocks.Proofs.Gaps

The blocks of a map whose instructions may have gaps between them.

Without overlaps the instructions in the code are spaced, and the blocks found are
those that their groups cover (`SpacedCode.segment_eq`).  `CutInto` says what these
blocks have to do with the instructions, without a word about groups: each
instruction lies in one block, the boundaries are boundaries of blocks, and no byte
is left out but those in gaps in front of block starts.
-/

namespace EvmBlocks

/-- The instructions, in their order, are cut into blocks. -/
structure CutInto (is : List Instruction) (blocks : List Block) : Prop where
  start_lt_stop : ∀ b ∈ blocks, b.start < b.stop
  apart : blocks.IsChain fun b b' => b.stop ≤ b'.start
  enclosed : ∀ i ∈ is, ∃! b, b ∈ blocks ∧ b.start ≤ i.offset ∧ i.stop ≤ b.stop
  starts : ∀ i ∈ is, i.opcode.isBlockStart = true → ∃ b ∈ blocks, b.start = i.offset
  ends : ∀ i ∈ is, i.opcode.isBlockEnd = true → ∃ b ∈ blocks, b.stop = i.stop
  no_inner_start : ∀ i ∈ is, i.opcode.isBlockStart = true →
    ∀ b ∈ blocks, b.contains i.offset = true → b.start = i.offset
  last : ∃ b i, blocks.getLast? = some b ∧ is.getLast? = some i ∧ b.stop = i.stop
  uncovered : ∀ i, is.getLast? = some i → ∀ offset < i.stop,
    ((∀ b ∈ blocks, b.contains offset = false) ↔ InGap 0 is offset)

theorem Block.contains_offset {b : Block} {i : Instruction}
    (h : b.start ≤ i.offset ∧ i.stop ≤ b.stop) : b.contains i.offset = true :=
  (b.contains_iff i.offset).mpr ⟨h.1, i.offset_lt_stop.trans_le h.2⟩

/-- The blocks that the groups of spaced instructions cover cut them up. -/
theorem cutInto_covers {is : List Instruction} (hne : is ≠ []) (h : Spaced 0 is) :
    CutInto is (Block.covers 0 (groups is)) := by
  have hgroups : ∀ g ∈ groups is, g ≠ [] ∧ g.IsChain fun i j => i.joins j = true :=
    fun g hg => ⟨ne_nil_of_mem_groups hg, isChain_of_mem_groups hg⟩
  have hspaced : Spaced 0 (groups is).flatten := by rwa [flatten_groups]
  have hpairwise := Block.pairwise_covers hgroups hspaced
  have hcover := Block.exists_cover_of_mem hgroups hspaced
  rw [flatten_groups] at hcover
  constructor
  case start_lt_stop => exact fun b hb => (Block.bounds_of_mem_covers hgroups hspaced b hb).2
  case apart => exact hpairwise.isChain
  case enclosed =>
    intro i hi
    obtain ⟨b, hb, hin, -⟩ := hcover i hi
    refine ⟨b, ⟨hb, hin⟩, fun b' ⟨hb', hin'⟩ => ?_⟩
    exact Block.eq_of_contains hpairwise hb' hb (Block.contains_offset hin')
      (Block.contains_offset hin)
  case starts =>
    intro i hi hs
    obtain ⟨b, hb, -, hstart, -⟩ := hcover i hi
    exact ⟨b, hb, hstart hs⟩
  case ends =>
    intro i hi he
    obtain ⟨b, hb, -, -, hend⟩ := hcover i hi
    exact ⟨b, hb, hend he⟩
  case no_inner_start =>
    intro i hi hs b hb hcontains
    obtain ⟨b', hb', hin, hstart, -⟩ := hcover i hi
    rw [Block.eq_of_contains hpairwise hb hb' hcontains (Block.contains_offset hin), hstart hs]
  case last =>
    obtain ⟨b, hb, hstop⟩ := Block.getLast?_covers 0 (groups_ne_nil hne)
    have hlast := List.getLast?_eq_some_getLast hne
    rw [flatten_groups, finalStop_of_getLast? hlast] at hstop
    exact ⟨b, is.getLast hne, hb, hlast, hstop⟩
  case uncovered =>
    intro i hlast offset hlt
    have hstop : offset < finalStop 0 (groups is).flatten := by
      rwa [flatten_groups, finalStop_of_getLast? hlast]
    have hiff := Block.contains_covers_iff_not_inGap hgroups hspaced (Nat.zero_le offset) hstop
    rw [flatten_groups] at hiff
    simpa using not_congr hiff

namespace InstructionMap

/-- The instructions in the code are filed under their own offsets, and none of them
reaches into the next one or beyond the greatest offset.  There may be gaps, and the
last instruction may reach beyond the code. -/
structure SpacedCode (m : InstructionMap) : Prop where
  key_eq : ∀ e ∈ m.entriesInCode, e.1 = e.2.offset
  apart : m.entriesInCode.IsChain fun e e' => e.2.stop ≤ e'.1
  stop_le : ∀ e ∈ m.entriesInCode, e.2.stop ≤ maxOffset
  ne_nil : m.entriesInCode ≠ []

instance (m : InstructionMap) : Decidable m.SpacedCode :=
  decidable_of_iff
    ((∀ e ∈ m.entriesInCode, e.1 = e.2.offset) ∧
      (m.entriesInCode.IsChain fun e e' => e.2.stop ≤ e'.1) ∧
      (∀ e ∈ m.entriesInCode, e.2.stop ≤ maxOffset) ∧ m.entriesInCode ≠ [])
    ⟨fun ⟨h₁, h₂, h₃, h₄⟩ => ⟨h₁, h₂, h₃, h₄⟩, fun ⟨h₁, h₂, h₃, h₄⟩ => ⟨h₁, h₂, h₃, h₄⟩⟩

variable {m : InstructionMap}

theorem SpacedCode.spaced (h : m.SpacedCode) : Spaced 0 m.inCode := by
  apply spaced_of_isChain
  · rw [inCode, List.isChain_map]
    refine List.IsChain.imp_of_mem_imp ?_ h.apart
    intro e e' _ he' hle
    rwa [h.key_eq e' he'] at hle
  · simp

/-- The blocks of a map with gaps are those that the groups of its instructions cover. -/
theorem SpacedCode.segment_eq (h : m.SpacedCode) :
    m.segment = .ok (Block.covers 0 (groups m.inCode)) := by
  have hne : m.inCode ≠ [] := mt List.map_eq_nil_iff.mp h.ne_nil
  refine segment_eq_ok_iff.mpr ⟨fun e he => ⟨(h.key_eq e he).symm, h.stop_le e he⟩, ?_⟩
  rw [Segmenter.found_finish .silent hne h.spaced, List.reverse_reverse]

end InstructionMap

/-- A map whose instructions do not overlap is segmented, whatever gaps it has, and its
instructions are cut into the blocks found. -/
theorem segment_with_gaps (m : InstructionMap) (h : m.SpacedCode) :
    ∃ blocks, m.segment = .ok blocks ∧ CutInto m.inCode blocks :=
  ⟨_, h.segment_eq, cutInto_covers (mt List.map_eq_nil_iff.mp h.ne_nil) h.spaced⟩

/-- An `ADD` behind a gap, a `JUMP`, an `ADD` behind a gap, a `JUMPDEST` behind a gap, and
a `PUSH2` behind a gap that reaches beyond the twenty bytes of code. -/
def fourGaps : InstructionMap :=
  (((((InstructionMap.empty 20).insert 2 ⟨2, ⟨0x01⟩, []⟩).insert 3 ⟨3, ⟨0x56⟩, []⟩).insert 6
    ⟨6, ⟨0x01⟩, []⟩).insert 12 ⟨12, ⟨0x5b⟩, []⟩).insert 18 ⟨18, ⟨0x61⟩, [0x5b, 0x56]⟩

/-- All gaps lie in blocks but the one in front of the `JUMPDEST`. -/
theorem segment_with_gaps_fourGaps :
    fourGaps.SpacedCode ∧ fourGaps.segment = .ok [⟨0, 4⟩, ⟨4, 7⟩, ⟨12, 21⟩] ∧
      CutInto fourGaps.inCode [⟨0, 4⟩, ⟨4, 7⟩, ⟨12, 21⟩] ∧
      ∀ offset < 21, InGap 0 fourGaps.inCode offset ↔ 7 ≤ offset ∧ offset < 12 := by
  have hspaced : fourGaps.SpacedCode := by decide +kernel
  have hsegment : fourGaps.segment = .ok [⟨0, 4⟩, ⟨4, 7⟩, ⟨12, 21⟩] := by decide +kernel
  obtain ⟨blocks, hblocks, hcut⟩ := segment_with_gaps fourGaps hspaced
  obtain rfl := Except.ok.inj (hblocks.symm.trans hsegment)
  have hlast : fourGaps.inCode.getLast? = some ⟨18, ⟨0x61⟩, [0x5b, 0x56]⟩ := by decide +kernel
  refine ⟨hspaced, hsegment, hcut, fun offset hlt => ?_⟩
  rw [← hcut.uncovered _ hlast offset hlt]
  simp only [List.forall_mem_cons, List.not_mem_nil, false_implies, implies_true, and_true,
    Bool.eq_false_iff, ne_eq, Block.contains_iff]
  omega

end EvmBlocks
