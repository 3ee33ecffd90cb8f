import EvmBlocks.Proofs.Faults

/-!
# EvmBlocks.Proofs.Malformed

The blocks of maps with gaps and overlaps.

Nothing is asked of a map but that it can be segmented.  Instructions may then
overlap, so that an open block can be made to stop before it starts.
`Segmenter.Traced` says what holds after any instructions, in ascending order of
their offsets: where blocks start and stop, that the blocks found have offsets,
and that the first block to be closed is found.  The block that is open at the
end need not have offsets, but then it was opened behind a block end that another
instruction overlaps (`lt_stop_or_overlap`).
-/

namespace EvmBlocks

/-! ## where blocks start and stop -/

/-- A point at which a block may start: the start of the code, a block start, or
the end of a block end. -/
def IsStart (is : List Instruction) (point : Nat) : Prop :=
  point = 0 ∨ (∃ i ∈ is, i.opcode.isBlockStart = true ∧ i.offset = point) ∨
    ∃ i ∈ is, i.opcode.isBlockEnd = true ∧ i.stop = point

/-- A point at which a block may stop: the end of an instruction. -/
def IsStop (is : List Instruction) (point : Nat) : Prop := ∃ i ∈ is, i.stop = point

section Points

variable {is : List Instruction} {point : Nat}

theorem IsStart.concat (h : IsStart is point) (i : Instruction) : IsStart (is ++ [i]) point := by
  obtain hzero | ⟨j, hj, hpoint⟩ | ⟨j, hj, hpoint⟩ := h
  · exact .inl hzero
  · exact .inr (.inl ⟨j, List.mem_append_left [i] hj, hpoint⟩)
  · exact .inr (.inr ⟨j, List.mem_append_left [i] hj, hpoint⟩)

theorem IsStop.concat (h : IsStop is point) (i : Instruction) : IsStop (is ++ [i]) point := by
  obtain ⟨j, hj, hpoint⟩ := h
  exact ⟨j, List.mem_append_left [i] hj, hpoint⟩

theorem isStop_concat_self (is : List Instruction) (i : Instruction) : IsStop (is ++ [i]) i.stop :=
  ⟨i, List.mem_concat_self, rfl⟩

/-- A block that the last instruction extends has offsets, unless it was opened behind
a block end that the instruction overlaps. -/
theorem lt_stop_or_overlap {i : Instruction} (h : IsStart (is ++ [i]) point)
    (hlt : ∀ j ∈ is, j.offset < i.offset) (hend : i.opcode.isBlockEnd = false) :
    point < i.stop ∨
      ∃ j ∈ is, j.opcode.isBlockEnd = true ∧ j.stop = point ∧ j.offset < i.offset ∧
        i.offset < j.stop := by
  have hi := i.offset_lt_stop
  simp only [IsStart, List.mem_append, List.mem_singleton] at h
  obtain hzero | ⟨j, hj | rfl, -, hpoint⟩ | ⟨j, hj | rfl, hjend, hpoint⟩ := h
  · omega
  · have hj := hlt j hj
    omega
  · omega
  · by_cases hstop : point < i.stop
    · exact .inl hstop
    · exact .inr ⟨j, hj, hjend, hpoint, hlt j hj, by omega⟩
  · simp [hend] at hjend

end Points

/-! ## blocks along a run -/

namespace Segmenter

/-- A block that was found in some instructions. -/
structure FoundIn (is : List Instruction) (b : Block) : Prop where
  lt : b.start < b.stop
  start : IsStart is b.start
  stop : IsStop is b.stop

theorem FoundIn.concat {is : List Instruction} {b : Block} (h : FoundIn is b) (i : Instruction) :
    FoundIn (is ++ [i]) b :=
  ⟨h.lt, h.start.concat i, h.stop.concat i⟩

/-- What holds after some instructions.  As long as no block is found, the open block
does not start behind all of them, and its end is known. -/
structure Traced (s : Segmenter) (is : List Instruction) : Prop where
  found : ∀ b ∈ s.found, FoundIn is b
  start : IsStart is s.current.start
  stop : ∀ stop, s.current.stop? = some stop → s.current.start < stop → IsStop is stop
  first : s.found = [] →
    s.current.stop? ≠ none ∧ (s.current.start = 0 ∨ ∃ i ∈ is, s.current.start ≤ i.offset)

section Traced

variable {s : Segmenter} {is : List Instruction} {i : Instruction}

theorem traced_initial (j : Journal) : (initial j).Traced [] where
  found := by simp [initial]
  start := .inl rfl
  stop := by simp [initial]
  first := by simp [initial]

theorem Traced.found_close (h : s.Traced is) : ∀ b ∈ s.close.found, FoundIn is b := by
  unfold close
  cases hstop : s.current.stop? with
  | none => exact h.found
  | some stop =>
      by_cases hlt : s.current.start < stop
      · simp only [if_pos hlt, found_emit, List.forall_mem_cons]
        exact ⟨⟨hlt, h.start, h.stop stop hstop hlt⟩, h.found⟩
      · simpa only [if_neg hlt] using h.found

/-- The block in which an instruction is entered.  If it is the first one, it does not
start behind the instruction. -/
theorem Traced.enter (h : s.Traced is) (hlt : ∀ j ∈ is, j.offset < i.offset) :
    (∀ b ∈ (s.enter i).found, FoundIn is b) ∧ IsStart (is ++ [i]) (s.enter i).current.start ∧
      ((s.enter i).found = [] → (s.enter i).current.start ≤ i.offset) := by
  unfold Segmenter.enter
  cases hstart : i.opcode.isBlockStart with
  | true =>
      have hi : IsStart (is ++ [i]) i.offset :=
        .inr (.inl ⟨i, List.mem_concat_self, hstart, rfl⟩)
      exact ⟨h.found_close, hi, fun _ => Nat.le_refl _⟩
  | false =>
      refine ⟨h.found, h.start.concat i, fun hnil => ?_⟩
      obtain hzero | ⟨j, hj, hle⟩ := (h.first hnil).2
      · simp [hzero]
      · have hj := hlt j hj
        simp only [Bool.false_eq_true, if_false]
        omega

/-- The block in which the instruction was entered is extended to its end. -/
theorem traced_extendTo (hfound : ∀ b ∈ s.found, FoundIn is b)
    (hstart : IsStart (is ++ [i]) s.current.start)
    (hfirst : s.found = [] → s.current.start ≤ i.offset) :
    (s.extendTo i.stop).Traced (is ++ [i]) where
  found b hb := (hfound b hb).concat i
  start := hstart
  stop := by simp [isStop_concat_self]
  first hnil := ⟨by simp, .inr ⟨i, List.mem_concat_self, hfirst hnil⟩⟩

/-- The first block to be closed starts before the end of the instruction. -/
theorem found_close_extendTo_ne_nil (hfirst : s.found = [] → s.current.start ≤ i.offset) :
    (s.extendTo i.stop).close.found ≠ [] := by
  have hi := i.offset_lt_stop
  by_cases hlt : s.current.start < i.stop
  · simp [found_close_of_lt (current_extendTo s i.stop) hlt]
  · have hfound : s.found ≠ [] := by
      intro hnil
      have hle := hfirst hnil
      omega
    simp [close, hlt, hfound]

theorem Traced.cutAt {point : Nat} (h : s.Traced is) (hpoint : IsStart is point)
    (hne : s.close.found ≠ []) : (s.cutAt point).Traced is where
  found := h.found_close
  start := hpoint
  stop := by simp
  first hnil := absurd hnil hne

/-- **One step**: an instruction behind all others keeps what holds. -/
theorem Traced.visit (h : s.Traced is) (hlt : ∀ j ∈ is, j.offset < i.offset) :
    (s.visit i).Traced (is ++ [i]) := by
  obtain ⟨hfound, hstart, hfirst⟩ := h.enter hlt
  have hextend := traced_extendTo hfound hstart hfirst
  rw [Segmenter.visit]
  cases hend : i.opcode.isBlockEnd with
  | false => simpa using hextend
  | true =>
      have hpoint : IsStart (is ++ [i]) i.stop :=
        .inr (.inr ⟨i, List.mem_concat_self, hend, rfl⟩)
      simpa using hextend.cutAt hpoint (found_close_extendTo_ne_nil hfirst)

/-- **A whole run** over instructions in ascending order. -/
theorem traced_foldl_visit (j : Journal) (h : is.Pairwise fun i i' => i.offset < i'.offset) :
    (is.foldl Segmenter.visit (initial j)).Traced is := by
  induction is using List.reverseRecOn with
  | nil => exact traced_initial j
  | append_singleton is i ih =>
      rw [List.pairwise_append] at h
      rw [List.foldl_append, List.foldl_cons, List.foldl_nil]
      exact (ih h.1).visit fun j hj => h.2.2 j hj i List.mem_cons_self

/-- The end of the open block, if it is known, is that of the last instruction, and
this is no block end. -/
theorem stop?_current_visit {stop : Nat} (h : (s.visit i).current.stop? = some stop) :
    i.opcode.isBlockEnd = false ∧ stop = i.stop := by
  unfold Segmenter.visit at h
  cases hend : i.opcode.isBlockEnd <;> simp_all

/-- After the last instruction there is a last block, and all others have offsets.  The
last one has offsets, too, unless it was opened behind a block end that the last
instruction overlaps. -/
theorem exists_last_block (j : Journal)
    (h : (is ++ [i]).Pairwise fun i i' => i.offset < i'.offset) :
    ∃ before last, ((is ++ [i]).foldl Segmenter.visit (initial j)).finish.found = last :: before ∧
      (∀ b ∈ before, FoundIn (is ++ [i]) b) ∧ IsStart (is ++ [i]) last.start ∧
      IsStop (is ++ [i]) last.stop ∧
      (last.start < last.stop ∨ ∃ i₀ ∈ is, i₀.opcode.isBlockEnd = true ∧ i₀.stop = last.start ∧
        i₀.offset < i.offset ∧ i.offset < i₀.stop) := by
  have htraced := traced_foldl_visit j h
  rw [List.pairwise_append] at h
  generalize hs : (is ++ [i]).foldl Segmenter.visit (initial j) = s at htraced ⊢
  rw [List.foldl_append, List.foldl_cons, List.foldl_nil] at hs
  unfold finish
  cases hstop : s.current.stop? with
  | none =>
      obtain ⟨last, before, hfound⟩ := List.exists_cons_of_ne_nil fun hnil =>
        (htraced.first hnil).1 hstop
      have hblocks := htraced.found
      rw [hfound, List.forall_mem_cons] at hblocks
      obtain ⟨⟨hlt, hstart, hend⟩, hbefore⟩ := hblocks
      exact ⟨before, last, hfound, hbefore, hstart, hend, .inl hlt⟩
  | some stop =>
      obtain ⟨hend, rfl⟩ := stop?_current_visit (hs ▸ hstop)
      have hlast := lt_stop_or_overlap htraced.start (fun j hj => h.2.2 j hj i List.mem_cons_self)
        hend
      exact ⟨s.found, ⟨s.current.start, i.stop⟩, rfl, htraced.found, htraced.start,
        isStop_concat_self is i, hlast⟩

end Traced

end Segmenter

/-! ## segmented maps -/

section Maps

variable {m : InstructionMap} {point : Nat}
  (h : ∀ entry ∈ m.entriesInCode, Segmenter.Sound entry)

include h

theorem IsStart.exists_holds (hpoint : IsStart m.inCode point) :
    point = 0 ∨ (∃ key i, m.Holds key i ∧ i.opcode.isBlockStart = true ∧ point = key) ∨
      ∃ key i, m.Holds key i ∧ i.opcode.isBlockEnd = true ∧ point = i.stop := by
  obtain hzero | ⟨i, hi, hstart, hpoint⟩ | ⟨i, hi, hend, hpoint⟩ := hpoint
  · exact .inl hzero
  · exact .inr (.inl ⟨_, i, InstructionMap.holds_of_mem_inCode h hi, hstart, hpoint.symm⟩)
  · exact .inr (.inr ⟨_, i, InstructionMap.holds_of_mem_inCode h hi, hend, hpoint.symm⟩)

theorem IsStop.exists_holds (hpoint : IsStop m.inCode point) :
    ∃ key i, m.Holds key i ∧ point = i.stop := by
  obtain ⟨i, hi, hpoint⟩ := hpoint
  exact ⟨_, i, InstructionMap.holds_of_mem_inCode h hi, hpoint.symm⟩

end Maps

/-- The blocks of any map that can be segmented, with whatever gaps and overlaps.
There is a block, and all but the last have offsets.  Blocks start at the start of
the code, at a block start or behind a block end, and stop where an instruction ends;
without instructions in the code there is one empty block.  If the last block has no
offsets although there are instructions, a block end overlaps another instruction. -/
theorem segment_malformed (m : InstructionMap) (blocks : List Block)
    (h : m.segment = .ok blocks) :
    blocks ≠ [] ∧
      (∀ b ∈ blocks.dropLast, b.start < b.stop) ∧
      (∀ b ∈ blocks, b.start = 0 ∨
        (∃ key i, m.Holds key i ∧ i.opcode.isBlockStart = true ∧ b.start = key) ∨
        ∃ key i, m.Holds key i ∧ i.opcode.isBlockEnd = true ∧ b.start = i.stop) ∧
      ((∀ key i, ¬ m.Holds key i) → blocks = [⟨0, 0⟩]) ∧
      ((∃ key i, m.Holds key i) →
        (∀ b ∈ blocks, ∃ key i, m.Holds key i ∧ b.stop = i.stop) ∧
          ∀ b ∈ blocks.getLast?, b.stop ≤ b.start →
            ∃ key₀ i₀, m.Holds key₀ i₀ ∧ i₀.opcode.isBlockEnd = true ∧ b.start = i₀.stop ∧
              ∃ key i, m.Holds key i ∧ key₀ < key ∧ key < i₀.stop) := by
  obtain ⟨hsound, rfl⟩ := InstructionMap.segment_eq_ok_iff.mp h
  obtain hnil | ⟨is, i, hconcat⟩ := List.eq_nil_or_concat m.inCode
  · have hnone : ∀ key i, ¬ m.Holds key i := by
      intro key i ⟨hkey, hget⟩
      simp [InstructionMap.inCode_eq_nil_iff.mp hnil key hkey] at hget
    have hblocks := Except.ok.inj
      (h.symm.trans (InstructionMap.segmentLogged_of_inCode_eq_nil hnil .silent))
    simp [hblocks, hnone]
  · rw [List.concat_eq_append] at hconcat
    have hmem : i ∈ m.inCode := hconcat ▸ List.mem_concat_self
    have hi := InstructionMap.holds_of_mem_inCode hsound hmem
    obtain ⟨before, last, hfound, hbefore, hstart, hstop, hlast⟩ :=
      Segmenter.exists_last_block .silent (hconcat ▸ InstructionMap.pairwise_offset_inCode hsound)
    rw [← hconcat] at hfound hbefore hstart hstop
    have hbounds : ∀ b ∈ before.reverse ++ [last],
        IsStart m.inCode b.start ∧ IsStop m.inCode b.stop := by
      simp only [List.mem_append, List.mem_reverse, List.mem_singleton]
      rintro b (hb | rfl)
      · exact ⟨(hbefore b hb).start, (hbefore b hb).stop⟩
      · exact ⟨hstart, hstop⟩
    rw [hfound, List.reverse_cons]
    refine ⟨by simp, fun b hb => ?_, fun b hb => (hbounds b hb).1.exists_holds hsound,
      fun hnone => absurd hi (hnone _ i), fun _ => ⟨fun b hb => ?_, ?_⟩⟩
    · rw [List.dropLast_concat, List.mem_reverse] at hb
      exact (hbefore b hb).lt
    · exact (hbounds b hb).2.exists_holds hsound
    · rw [List.getLast?_concat]
      rintro b ⟨⟩ hle
      obtain hlt | ⟨i₀, hi₀, hend, hpoint, hlt, hoverlap⟩ := hlast
      · omega
      · have hmem₀ : i₀ ∈ m.inCode := hconcat ▸ List.mem_append_left [i] hi₀
        exact ⟨_, i₀, InstructionMap.holds_of_mem_inCode hsound hmem₀, hend, hpoint.symm, _, i, hi,
          hlt, hoverlap⟩

/-- A `STOP` of eleven bytes with an `ADD` inside it. -/
def overlappedStop : InstructionMap :=
  ((InstructionMap.empty 12).insert 0 ⟨0, ⟨0x00⟩, [1, 2, 3, 4, 5, 6, 7, 8, 9, 10]⟩).insert 3
    ⟨3, ⟨0x01⟩, []⟩

/-- The `ADD` extends the block that was opened behind the `STOP`, which then stops
before it starts. -/
theorem segment_malformed_overlappedStop :
    overlappedStop.segment = .ok [⟨0, 11⟩, ⟨11, 4⟩] ∧
      ∃ key₀ i₀, overlappedStop.Holds key₀ i₀ ∧ i₀.opcode.isBlockEnd = true ∧ i₀.stop = 11 ∧
        ∃ key i, overlappedStop.Holds key i ∧ key₀ < key ∧ key < 11 := by
  have hsegment : overlappedStop.segment = .ok [⟨0, 11⟩, ⟨11, 4⟩] := by decide +kernel
  have hadd : overlappedStop.Holds 3 ⟨3, ⟨0x01⟩, []⟩ := ⟨by decide, by decide +kernel⟩
  obtain ⟨-, -, -, -, hsome⟩ := segment_malformed _ _ hsegment
  obtain ⟨key₀, i₀, hi₀, hend, hstop, key, i, hi, hlt, hoverlap⟩ :=
    (hsome ⟨_, _, hadd⟩).2 ⟨11, 4⟩ rfl (by decide)
  rw [← hstop] at hoverlap
  exact ⟨hsegment, key₀, i₀, hi₀, hend, hstop.symm, key, i, hi, hlt, hoverlap⟩

end EvmBlocks
