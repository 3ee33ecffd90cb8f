import EvmBlocks.Proofs.Program
import Mathlib.Data.List.Forall2

/-!
# EvmBlocks.Proofs.OpcodeClass

What the layout of a code depends on.

Of an opcode, the decoder uses the number of operand bytes and the segmenter
whether it begins or finishes a block.  These three make up the class of the
opcode.  Two codes that have opcodes of one class wherever the first has an
opcode are read in lockstep, whatever their operands hold
(`exists_sameShape_assembly`), and two maps with instructions of one shape are
segmented in lockstep (`Segmenter.run_congr`).  So the two codes have the same
layout (`analyze_eq_of_sameClass`).
-/

namespace EvmBlocks

/-- Two opcodes of one class ask for as many operand bytes as each other, and
are boundaries alike. -/
structure Opcode.SameClass (a b : Opcode) : Prop where
  immediateSize : a.immediateSize = b.immediateSize
  isBlockStart : a.isBlockStart = b.isBlockStart
  isBlockEnd : a.isBlockEnd = b.isBlockEnd

instance (a b : Opcode) : Decidable (a.SameClass b) :=
  decidable_of_iff
    (a.immediateSize = b.immediateSize ∧ a.isBlockStart = b.isBlockStart ∧
      a.isBlockEnd = b.isBlockEnd)
    ⟨fun h => ⟨h.1, h.2.1, h.2.2⟩, fun h => ⟨h.1, h.2, h.3⟩⟩

/-- Two instructions of one shape occupy the same offsets, and are boundaries
alike. -/
structure Instruction.SameShape (i j : Instruction) : Prop where
  offset : i.offset = j.offset
  size : i.size = j.size
  isBlockStart : i.opcode.isBlockStart = j.opcode.isBlockStart
  isBlockEnd : i.opcode.isBlockEnd = j.opcode.isBlockEnd

/-! ## segmenting in lockstep -/

namespace Segmenter

theorem step_congr (s : Segmenter) (key : Nat) {i j : Instruction} (h : i.SameShape j) :
    s.step key i = s.step key j := by
  simp only [step, Instruction.stop?, h.offset, h.size, h.isBlockStart, h.isBlockEnd]

/-- Entries of one shape under the same keys lead through the same states. -/
theorem run_congr (s : Segmenter) {xs ys : List (Nat × Instruction)}
    (h : List.Forall₂ (fun x y => x.1 = y.1 ∧ x.2.SameShape y.2) xs ys) :
    s.run xs = s.run ys := by
  induction h generalizing s with
  | nil => rfl
  | @cons x y xs ys hxy _ ih =>
      obtain ⟨hkey, hshape⟩ := hxy
      rw [run, run, hkey, step_congr s y.1 hshape]
      rcases s.step y.1 y.2 with ⟨s', _ | fault⟩
      · exact ih s'
      · rfl

end Segmenter

theorem InstructionMap.segment_congr {m m' : InstructionMap}
    (h : List.Forall₂ (fun x y => x.1 = y.1 ∧ x.2.SameShape y.2) m.entriesInCode
      m'.entriesInCode) : m.segment = m'.segment := by
  unfold segment segmentLogged
  rw [Segmenter.run_congr _ h]
  split <;> rfl

/-! ## reading in lockstep -/

/-- Operations with opcodes of one class and operands of one length. -/
def Operation.SameShape (op op' : Operation) : Prop :=
  op.1.SameClass op'.1 ∧ op.2.length = op'.2.length

theorem Fitting.of_sameShape {ops ops' : List Operation}
    (h : List.Forall₂ Operation.SameShape ops ops') (hfit : Fitting ops) : Fitting ops' := by
  induction h with
  | nil => trivial
  | @cons op op' ops ops' hop hops ih =>
      obtain ⟨hle, hfull, hrest⟩ := hfit
      obtain ⟨hclass, hdata⟩ := hop
      rw [hclass.immediateSize, hdata] at hle hfull
      refine ⟨hle, fun hne => hfull ?_, ih hrest⟩
      rintro rfl
      exact hne (List.forall₂_nil_left_iff.mp hops)

theorem place_of_sameShape (offset : Nat) {ops ops' : List Operation}
    (h : List.Forall₂ Operation.SameShape ops ops') :
    List.Forall₂ Instruction.SameShape (place offset ops) (place offset ops') := by
  induction h generalizing offset with
  | nil => exact List.Forall₂.nil
  | @cons op op' ops ops' hop _ ih =>
      obtain ⟨hclass, hdata⟩ := hop
      have hencode : op.encode.length = op'.encode.length := by simp [Operation.encode, hdata]
      refine List.Forall₂.cons ⟨rfl, ?_, hclass.isBlockStart, hclass.isBlockEnd⟩ ?_
      · simp [Instruction.size, hdata]
      · rw [hencode]
        exact ih (offset + op'.encode.length)

/-- **Lockstep**: bytes `c` behind `pre` that have an opcode of the same class
wherever some operations have theirs are operations of the same shapes. -/
theorem exists_sameShape_assembly {ops : List Operation} (pre c : List UInt8)
    (hlen : c.length = (assemble ops).length)
    (hclass : ∀ i ∈ place pre.length ops, ∀ byte ∈ (pre ++ c)[i.offset]?,
      i.opcode.SameClass ⟨byte⟩) :
    ∃ ops', assemble ops' = c ∧ List.Forall₂ Operation.SameShape ops ops' := by
  induction ops generalizing pre c with
  | nil => exact ⟨[], (List.length_eq_zero_iff.mp hlen).symm, List.Forall₂.nil⟩
  | cons op ops ih =>
      cases c with
      | nil => simp [Operation.encode] at hlen
      | cons byte rest =>
          have hrest : rest.length = op.2.length + (assemble ops).length := by
            simpa [Operation.encode] using hlen
          have hdata : (rest.take op.2.length).length = op.2.length := by
            rw [List.length_take]
            omega
          -- The bytes in front grow by an operation, so all offsets stay as they are.
          have hpre : (pre ++ byte :: rest.take op.2.length).length =
              pre.length + op.encode.length := by
            simp [Operation.encode, hdata]
          have hsplit : (pre ++ byte :: rest.take op.2.length) ++ rest.drop op.2.length =
              pre ++ byte :: rest := by
            simp
          obtain ⟨ops', hops', hshapes⟩ :=
            ih (pre ++ byte :: rest.take op.2.length) (rest.drop op.2.length)
              (by rw [List.length_drop]; omega)
              (by rw [hpre, hsplit]; exact fun i hi => hclass i (List.mem_cons_of_mem _ hi))
          have hop : op.1.SameClass ⟨byte⟩ :=
            hclass ⟨pre.length, op.1, op.2⟩ List.mem_cons_self byte (by simp)
          refine ⟨(⟨byte⟩, rest.take op.2.length) :: ops', ?_, .cons ⟨hop, hdata.symm⟩ hshapes⟩
          simp [Operation.encode, hops']

/-! ## layouts -/

theorem InstructionMap.map_size_get?_eq_some_iff {m : InstructionMap} {key n : Nat} :
    (m.get? key).map Instruction.size = some n ↔
      (key, n) ∈ m.toList.map fun e => (e.1, e.2.size) := by
  simp [mem_toList_iff]

/-- Codes of the same length with opcodes of the same classes have entries of the
same shapes. -/
theorem toList_decode_of_sameClass {c₁ c₂ : List UInt8} (hlen : c₁.length = c₂.length)
    (hclass : ∀ i ∈ (decode c₁).instructions, ∀ byte ∈ c₂[i.offset]?,
      i.opcode.SameClass ⟨byte⟩) :
    List.Forall₂ (fun x y => x.1 = y.1 ∧ x.2.SameShape y.2) (decode c₁).toList
      (decode c₂).toList := by
  obtain ⟨ops, hfit, rfl⟩ := exists_assembly c₁
  rw [instructions_decode_assemble hfit] at hclass
  obtain ⟨ops', rfl, hshapes⟩ := exists_sameShape_assembly [] c₂ hlen.symm hclass
  rw [toList_decode_assemble hfit, toList_decode_assemble (hfit.of_sameShape hshapes),
    List.forall₂_map_left_iff, List.forall₂_map_right_iff]
  exact (place_of_sameShape 0 hshapes).imp fun i j h => ⟨h.offset, h⟩

/-- Only the classes of the opcodes decide the layout of a code.  If a second code
of the same length has an opcode of the same class at every key of the first,
then the two have instructions of the same sizes under the same keys and the
same blocks, whatever bytes stand between the keys. -/
theorem analyze_eq_of_sameClass (c₁ c₂ : List UInt8) (hlen : c₁.length = c₂.length)
    (hclass : ∀ key, (decode c₁).contains key = true → ∀ b₁ ∈ c₁[key]?, ∀ b₂ ∈ c₂[key]?,
      Opcode.SameClass ⟨b₁⟩ ⟨b₂⟩) :
    (∀ key, ((decode c₁).get? key).map Instruction.size =
        ((decode c₂).get? key).map Instruction.size) ∧
      (Program.analyze c₁).map Program.blocks = (Program.analyze c₂).map Program.blocks ∧
      (c₁.length ≤ maxOffset → ∃ p₁ p₂, Program.analyze c₁ = .ok p₁ ∧
        Program.analyze c₂ = .ok p₂ ∧ p₁.blocks = p₂.blocks) := by
  have hopcodes : ∀ i ∈ (decode c₁).instructions, ∀ byte ∈ c₂[i.offset]?,
      i.opcode.SameClass ⟨byte⟩ := by
    intro i hi byte hbyte
    refine hclass i.offset ?_ _ (getElem?_offset_of_mem_decode hi) byte hbyte
    have hentry : (i.offset, i) ∈ (decode c₁).toList := by
      rw [toList_decode]
      exact List.mem_map_of_mem hi
    rw [InstructionMap.contains_eq_isSome_get?, InstructionMap.mem_toList_iff.mp hentry]
    rfl
  have hshapes := toList_decode_of_sameClass hlen hopcodes
  have hsizes : (decode c₁).toList.map (fun e => (e.1, e.2.size)) =
      (decode c₂).toList.map fun e => (e.1, e.2.size) := by
    rw [← List.forall₂_eq_eq_eq, List.forall₂_map_left_iff, List.forall₂_map_right_iff]
    exact hshapes.imp fun x y h => Prod.ext h.1 h.2.size
  have hsegment : (decode c₁).segment = (decode c₂).segment := by
    apply InstructionMap.segment_congr
    rwa [entriesInCode_decode, entriesInCode_decode]
  refine ⟨fun key => ?_, ?_, fun hmax => ?_⟩
  · ext n
    rw [InstructionMap.map_size_get?_eq_some_iff, InstructionMap.map_size_get?_eq_some_iff, hsizes]
  · rw [Program.map_blocks_analyze, Program.map_blocks_analyze, hsegment]
  · obtain ⟨p₁, hp₁, -⟩ := Program.exists_analyze hmax
    obtain ⟨p₂, hp₂, -⟩ := Program.exists_analyze (hlen ▸ hmax)
    refine ⟨p₁, p₂, hp₁, hp₂, ?_⟩
    have hblocks₁ := Program.map_blocks_analyze c₁
    have hblocks₂ := Program.map_blocks_analyze c₂
    rw [hp₁] at hblocks₁
    rw [hp₂, ← hsegment, ← hblocks₁] at hblocks₂
    exact (Except.ok.inj hblocks₂).symm

/-- `PUSH2 0x5b00`, `ADD`, `JUMPDEST` and `PUSH2 0x617f`, `MUL`, `JUMPDEST`: an
operand may look like boundaries or like further pushes, and one opcode may stand
for another of its class. -/
theorem analyze_eq_of_sameClass_operands :
    ([0x61, 0x5b, 0x00, 0x01, 0x5b] : List UInt8).length =
        ([0x61, 0x61, 0x7f, 0x02, 0x5b] : List UInt8).length ∧
      (∀ key, (decode [0x61, 0x5b, 0x00, 0x01, 0x5b]).contains key = true →
        ∀ b₁ ∈ ([0x61, 0x5b, 0x00, 0x01, 0x5b] : List UInt8)[key]?,
          ∀ b₂ ∈ ([0x61, 0x61, 0x7f, 0x02, 0x5b] : List UInt8)[key]?,
            Opcode.SameClass ⟨b₁⟩ ⟨b₂⟩) ∧
      ([0x61, 0x5b, 0x00, 0x01, 0x5b] : List UInt8).length ≤ maxOffset ∧
      ∃ p₁ p₂, Program.analyze [0x61, 0x5b, 0x00, 0x01, 0x5b] = .ok p₁ ∧
        Program.analyze [0x61, 0x61, 0x7f, 0x02, 0x5b] = .ok p₂ ∧ p₁.blocks = p₂.blocks := by
  have hentries : ∀ e ∈ (decode [0x61, 0x5b, 0x00, 0x01, 0x5b]).toList,
      ∀ b₁ ∈ ([0x61, 0x5b, 0x00, 0x01, 0x5b] : List UInt8)[e.1]?,
        ∀ b₂ ∈ ([0x61, 0x61, 0x7f, 0x02, 0x5b] : List UInt8)[e.1]?,
          Opcode.SameClass ⟨b₁⟩ ⟨b₂⟩ := by
    decide +kernel
  have hclass : ∀ key, (decode [0x61, 0x5b, 0x00, 0x01, 0x5b]).contains key = true →
      ∀ b₁ ∈ ([0x61, 0x5b, 0x00, 0x01, 0x5b] : List UInt8)[key]?,
        ∀ b₂ ∈ ([0x61, 0x61, 0x7f, 0x02, 0x5b] : List UInt8)[key]?,
          Opcode.SameClass ⟨b₁⟩ ⟨b₂⟩ := by
    intro key hkey
    rw [InstructionMap.contains_eq_isSome_get?, Option.isSome_iff_exists] at hkey
    obtain ⟨i, hi⟩ := hkey
    exact hentries (key, i) (InstructionMap.mem_toList_iff.mpr hi)
  have hanalyze := (analyze_eq_of_sameClass _ _ (by decide) hclass).2.2 (by decide)
  exact ⟨by decide, hclass, by decide, hanalyze⟩

end EvmBlocks
