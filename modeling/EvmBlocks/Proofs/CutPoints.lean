import EvmBlocks.Proofs.Program
import Mathlib.Data.List.Dedup

/-!
# EvmBlocks.Proofs.CutPoints

The blocks of a code lie between its cut points.

A code is cut at its two ends, at the offset of every block start and at the
end of every block end.  These points, in ascending order and each once,
determine the blocks: a block reaches from one point to the next
(`segment_eq_between_cutPoints`).
-/

namespace EvmBlocks

/-- A point at which tiling instructions from `start` to `stop` are cut. -/
def IsCut (start stop : Nat) (is : List Instruction) (point : Nat) : Prop :=
  point = start ∨ point = stop ∨
    (∃ i ∈ is, i.opcode.isBlockStart = true ∧ i.offset = point) ∨
    ∃ i ∈ is, i.opcode.isBlockEnd = true ∧ i.stop = point

namespace InstructionMap

/-- The offsets at which the code of a map is cut: its ends, the offsets of the
block starts, and the ends of the block ends. -/
def cuts (m : InstructionMap) : List Nat :=
  [0, m.codeLength] ++
    (m.inCode.filter fun i => i.opcode.isBlockStart).map Instruction.offset ++
    (m.inCode.filter fun i => i.opcode.isBlockEnd).map Instruction.stop

/-- The cuts in ascending order, each once. -/
def cutPoints (m : InstructionMap) : List Nat := m.cuts.dedup.insertionSort (· ≤ ·)

theorem mem_cutPoints {m : InstructionMap} {point : Nat} :
    point ∈ m.cutPoints ↔ IsCut 0 m.codeLength m.inCode point := by
  simp [cutPoints, cuts, IsCut, and_assoc]

theorem pairwise_cutPoints (m : InstructionMap) : m.cutPoints.Pairwise (· < ·) := by
  have hle : m.cutPoints.Pairwise (· ≤ ·) := List.pairwise_insertionSort _ _
  have hne : m.cutPoints.Nodup := (List.perm_insertionSort _ _).nodup_iff.mpr (List.nodup_dedup _)
  exact (hle.and hne).imp fun h => Nat.lt_of_le_of_ne h.1 h.2

end InstructionMap

/-! ## the ends of the groups are the cuts -/

/-- Instructions are cut between two groups: the first ends with a block end, or
the second begins with a block start. -/
theorem isCut_seam {g : List Instruction} {gs : List (List Instruction)} {start mid stop : Nat}
    (hg : Tiles start g mid) (hgs : Tiles mid gs.flatten stop)
    (hseam : ∀ h ∈ gs.head?, ∃ hg hh, (g.getLast hg).joins (h.head hh) = false) :
    IsCut start stop (g ++ gs.flatten) mid := by
  cases gs with
  | nil => exact .inr (.inl hgs)
  | cons h gs =>
      obtain ⟨hgne, hhne, hjoins⟩ := hseam h rfl
      cases Instruction.joins_eq_false_iff.mp hjoins with
      | inl hend =>
          have hmid := hg.stop_getLast _ (List.getLast?_eq_some_getLast hgne)
          have hmem := List.mem_append_left (h :: gs).flatten (List.getLast_mem hgne)
          exact .inr (.inr (.inr ⟨_, hmem, hend, hmid⟩))
      | inr hstart =>
          have hhead : (h :: gs).flatten.head? = some (h.head hhne) := by
            rw [List.flatten_cons, List.head?_append_of_ne_nil h hhne, List.head?_eq_some_head hhne]
          have hmid := hgs.offset_head _ hhead
          have hmem := List.mem_append_right g (List.mem_of_mem_head? hhead)
          exact .inr (.inr (.inl ⟨_, hmem, hstart, hmid⟩))

/-- The starts of the groups of tiling instructions, and the end of the last
group, are exactly the points at which the instructions are cut. -/
theorem mem_starts_iff_isCut {gs : List (List Instruction)} {start stop : Nat}
    (hne : [] ∉ gs) (hchain : ∀ g ∈ gs, g.IsChain fun i j => i.joins j = true)
    (hseam : gs.IsChain fun g h => ∃ hg hh, (g.getLast hg).joins (h.head hh) = false)
    (ht : Tiles start gs.flatten stop) (point : Nat) :
    point ∈ (gs.map Block.span).map Block.start ++ [stop] ↔
      IsCut start stop gs.flatten point := by
  induction gs generalizing start with
  | nil =>
      have hstop : start = stop := ht
      simp [IsCut, hstop]
  | cons g gs ih =>
      rw [List.mem_cons, not_or] at hne
      rw [List.flatten_cons] at ht
      obtain ⟨mid, hg, hgs⟩ := tiles_append.mp ht
      obtain ⟨hseam, hseams⟩ := List.isChain_cons.mp hseam
      have hgchain := hchain g List.mem_cons_self
      have ih := ih hne.2 (fun h hh => hchain h (List.mem_cons_of_mem g hh)) hseams hgs
      rw [List.map_cons, List.map_cons, List.cons_append, List.mem_cons, ih,
        hg.span_eq (Ne.symm hne.1), List.flatten_cons]
      constructor
      · rintro (rfl | rfl | hstop | ⟨i, hi, hcut⟩ | ⟨i, hi, hcut⟩)
        · exact .inl rfl
        · exact isCut_seam hg hgs hseam
        · exact .inr (.inl hstop)
        · exact .inr (.inr (.inl ⟨i, List.mem_append_right g hi, hcut⟩))
        · exact .inr (.inr (.inr ⟨i, List.mem_append_right g hi, hcut⟩))
      -- Inside the group there are no cuts but its two ends.
      · rintro (hstart | hstop | ⟨i, hi, hs, hcut⟩ | ⟨i, hi, he, hcut⟩)
        · exact .inl hstart
        · exact .inr (.inr (.inl hstop))
        · cases List.mem_append.mp hi with
          | inl hig => exact .inl (hcut.symm.trans (offset_eq_of_isBlockStart hgchain hg hig hs))
          | inr higs => exact .inr (.inr (.inr (.inl ⟨i, higs, hs, hcut⟩)))
        · cases List.mem_append.mp hi with
          | inl hig => exact .inr (.inl (hcut.symm.trans (stop_eq_of_isBlockEnd hgchain hg hig he)))
          | inr higs => exact .inr (.inr (.inr (.inr ⟨i, higs, he, hcut⟩)))

namespace InstructionMap

/-- The blocks of the instructions of a map lie between its cut points. -/
theorem basicBlocks_inCode {m : InstructionMap} (h : m.TilesCode) (hne : m.inCode ≠ []) :
    basicBlocks m.inCode = Block.between m.cutPoints := by
  have hnil := nil_notMem_groups m.inCode
  have ht : Tiles 0 (groups m.inCode).flatten m.codeLength := by
    rw [flatten_groups]
    exact h.tiles
  obtain ⟨hcont, hpos⟩ := ht.contiguous_spans hnil
  have hpoints : ((groups m.inCode).map Block.span).map Block.start ++ [m.codeLength] =
      m.cutPoints := by
    apply List.Pairwise.eq_of_mem_iff (Block.pairwise_starts hcont hpos)
      (pairwise_cutPoints m)
    intro point
    rw [mem_starts_iff_isCut hnil (fun g => isChain_of_mem_groups) (isChain_groups m.inCode) ht,
      flatten_groups]
    exact mem_cutPoints.symm
  rw [basicBlocks_of_ne_nil hne, ← hpoints, Block.between_starts hcont]

end InstructionMap

/-- The blocks of a map that tiles its code lie between its cut points; a map
without instructions in its code has the one block without offsets.  So the
blocks of a bytecode lie between the cut points of its instructions: they are
contiguous from the start of the code to its end, and have offsets if it has. -/
theorem segment_eq_between_cutPoints :
    (∀ m : InstructionMap, m.codeLength ≤ maxOffset → m.TilesCode → m.inCode ≠ [] →
        m.segment = .ok (Block.between m.cutPoints)) ∧
      (∀ m : InstructionMap, (∀ key < m.codeLength, m.get? key = none) →
        m.segment = .ok [⟨0, 0⟩]) ∧
      ∀ code : List UInt8, code.length ≤ maxOffset →
        ∃ p, Program.analyze code = .ok p ∧
          p.blocks = (if code = [] then [⟨0, 0⟩] else Block.between (decode code).cutPoints) ∧
          p.blocks ≠ [] ∧ (code ≠ [] → ∀ b ∈ p.blocks, b.start < b.stop) ∧
          Block.Contiguous 0 p.blocks code.length := by
  refine ⟨?_, ?_, ?_⟩
  · intro m hlen htiles hne
    rw [← InstructionMap.basicBlocks_inCode htiles hne]
    exact htiles.segmentLogged_eq hlen .silent
  · intro m hnone
    exact InstructionMap.segmentLogged_of_inCode_eq_nil
      (InstructionMap.inCode_eq_nil_iff.mpr hnone) .silent
  · intro code hlen
    obtain ⟨p, hp, -, -, hblocks⟩ := Program.exists_analyze hlen
    refine ⟨p, hp, ?_, ?_, ?_, ?_⟩
    · rw [hblocks]
      by_cases hcode : code = []
      · rw [if_pos hcode, instructions_decode_eq_nil_iff.mpr hcode, basicBlocks]
      · have hne : (decode code).inCode ≠ [] := by
          rw [inCode_decode]
          exact mt instructions_decode_eq_nil_iff.mp hcode
        rw [if_neg hcode, ← InstructionMap.basicBlocks_inCode (tilesCode_decode code) hne,
          inCode_decode]
    · rw [hblocks]
      exact basicBlocks_ne_nil _
    · intro hcode
      rw [hblocks]
      exact start_lt_stop_of_mem_basicBlocks (tiles_decode code)
        (mt instructions_decode_eq_nil_iff.mp hcode)
    · rw [hblocks]
      exact contiguous_basicBlocks (tiles_decode code)

/-- A map over five bytes with operands on opcodes that take none, a block end
in front of a block start, and an entry beyond the code. -/
def adjacentBoundaries : InstructionMap :=
  ((((InstructionMap.empty 5).insert 9 ⟨1, ⟨0x00⟩, []⟩).insert 4 ⟨4, ⟨0x5b⟩, []⟩).insert
    2 ⟨2, ⟨0x00⟩, [0x5b]⟩).insert 0 ⟨0, ⟨0x57⟩, [0x00]⟩

/-- A map whose one entry lies at the end of the code. -/
def entryBeyondCode : InstructionMap := (InstructionMap.empty 7).insert 7 ⟨0, ⟨0x5b⟩, []⟩

theorem segment_adjacentBoundaries :
    (adjacentBoundaries.codeLength ≤ maxOffset ∧ adjacentBoundaries.TilesCode ∧
        adjacentBoundaries.inCode ≠ [] ∧ adjacentBoundaries.cutPoints = [0, 2, 4, 5] ∧
        adjacentBoundaries.segment = .ok [⟨0, 2⟩, ⟨2, 4⟩, ⟨4, 5⟩]) ∧
      ((∀ key < entryBeyondCode.codeLength, entryBeyondCode.get? key = none) ∧
        entryBeyondCode.segment = .ok [⟨0, 0⟩]) ∧
      ([0x60, 0x5b, 0x00, 0x5b] : List UInt8).length ≤ maxOffset ∧
        ∃ p, Program.analyze [0x60, 0x5b, 0x00, 0x5b] = .ok p ∧ p.blocks = [⟨0, 3⟩, ⟨3, 4⟩] := by
  obtain ⟨hmap, hempty, hcode⟩ := segment_eq_between_cutPoints
  refine ⟨?_, ?_, by decide, ?_⟩
  · have htiles : adjacentBoundaries.TilesCode := by decide +kernel
    have hne : adjacentBoundaries.inCode ≠ [] := by decide +kernel
    have hpoints : adjacentBoundaries.cutPoints = [0, 2, 4, 5] := by decide +kernel
    have hsegment := hmap adjacentBoundaries (by decide) htiles hne
    rw [hpoints] at hsegment
    exact ⟨by decide, htiles, hne, hpoints, hsegment⟩
  · have hnone : ∀ key < entryBeyondCode.codeLength, entryBeyondCode.get? key = none := by
      decide +kernel
    exact ⟨hnone, hempty entryBeyondCode hnone⟩
  · obtain ⟨p, hp, hblocks, -⟩ := hcode [0x60, 0x5b, 0x00, 0x5b] (by decide)
    have hpoints : (decode [0x60, 0x5b, 0x00, 0x5b]).cutPoints = [0, 3, 4] := by decide +kernel
    rw [if_neg (List.cons_ne_nil _ _), hpoints] at hblocks
    exact ⟨p, hp, hblocks⟩

end EvmBlocks
