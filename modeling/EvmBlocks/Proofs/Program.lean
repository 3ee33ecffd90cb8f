import EvmBlocks.Program
import EvmBlocks.Proofs.Decode
import EvmBlocks.Proofs.Segment

/-!
# EvmBlocks.Proofs.Program

The analysis of a code always has a result, and the result is known: the
decoded instructions, and the blocks that their groups span.
-/

namespace EvmBlocks

/-- The blocks of tiling instructions are contiguous. -/
theorem contiguous_basicBlocks {is : List Instruction} {stop : Nat} (h : Tiles 0 is stop) :
    Block.Contiguous 0 (basicBlocks is) stop := by
  cases is with
  | nil => exact ⟨rfl, h⟩
  | cons i is =>
      rw [← flatten_groups (i :: is)] at h
      exact (h.contiguous_spans (nil_notMem_groups _)).1

/-- The blocks of some tiling instructions have offsets. -/
theorem start_lt_stop_of_mem_basicBlocks {is : List Instruction} {stop : Nat}
    (h : Tiles 0 is stop) (hne : is ≠ []) : ∀ b ∈ basicBlocks is, b.start < b.stop := by
  rw [basicBlocks_of_ne_nil hne]
  rw [← flatten_groups is] at h
  exact (h.contiguous_spans (nil_notMem_groups is)).2

theorem start_le_stop_of_mem_basicBlocks {is : List Instruction} {stop : Nat}
    (h : Tiles 0 is stop) : ∀ b ∈ basicBlocks is, b.start ≤ b.stop := by
  by_cases hne : is = []
  · simp [hne, basicBlocks]
  · exact fun b hb => Nat.le_of_lt (start_lt_stop_of_mem_basicBlocks h hne b hb)

theorem basicBlocks_ne_nil (is : List Instruction) : basicBlocks is ≠ [] := by
  cases is with
  | nil => exact List.cons_ne_nil _ _
  | cons i is => exact mt List.map_eq_nil_iff.mp (groups_ne_nil (List.cons_ne_nil i is))

namespace Program

/-- An analysis finds the instructions of the code and their blocks, whatever is
reported about it. -/
theorem fst_analyzeLogged {code : List UInt8} (h : code.length ≤ maxOffset) (j : Journal) :
    (analyzeLogged j code).1 =
      .ok ⟨code, decode code, Layout.ofBlocks (basicBlocks (decode code).instructions)⟩ := by
  have hsegment := (tilesCode_decode code).segmentLogged_eq (by rwa [codeLength_decode])
    (decodeLogged j code).2
  rw [inCode_decode] at hsegment
  simp only [analyzeLogged, fst_decodeLogged, hsegment]
  rfl

theorem analyze_eq {code : List UInt8} (h : code.length ≤ maxOffset) :
    analyze code =
      .ok ⟨code, decode code, Layout.ofBlocks (basicBlocks (decode code).instructions)⟩ :=
  fst_analyzeLogged h .silent

/-- An analysis fails where the segmentation of the decoded map does. -/
theorem analyze_eq_map_segment (code : List UInt8) :
    analyze code =
      (decode code).segment.map fun blocks => ⟨code, decode code, Layout.ofBlocks blocks⟩ := by
  simp only [analyze, analyzeLogged, snd_decodeLogged_silent]
  rfl

theorem instructions_of_analyze {code : List UInt8} {p : Program} (h : analyze code = .ok p) :
    p.instructions = decode code := by
  rw [analyze_eq_map_segment] at h
  cases hsegment : (decode code).segment with
  | error fault => simp [hsegment, Except.map] at h
  | ok blocks =>
      rw [hsegment] at h
      rw [← Except.ok.inj h]

theorem map_blocks_analyze (code : List UInt8) :
    (analyze code).map blocks = (decode code).segment := by
  rw [analyze_eq_map_segment]
  cases (decode code).segment <;> rfl

theorem exists_analyze {code : List UInt8} (h : code.length ≤ maxOffset) :
    ∃ p, analyze code = .ok p ∧ p.code = code ∧ p.instructions = decode code ∧
      p.blocks = basicBlocks (decode code).instructions :=
  ⟨_, analyze_eq h, rfl, rfl, rfl⟩

end Program

end EvmBlocks
