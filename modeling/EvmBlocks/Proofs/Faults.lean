import EvmBlocks.Block.Layout
import EvmBlocks.Proofs.Replay
import EvmBlocks.Proofs.Segment

/-!
# EvmBlocks.Proofs.Faults

When a map cannot be segmented, and how it fails.

Whether an entry is faulty can be told from the entry alone
(`Segmenter.fault?`), and a run stops at the first entry that is
(`Segmenter.snd_run`).  Keys ascend, so this is the faulty entry with the
smallest key (`InstructionMap.findSome?_fault?_eq_some_iff`): the fault of a
map depends on nothing that is stored behind that key, or beyond the code.
-/

namespace EvmBlocks

namespace InstructionMap

/-- An entry in the code is faulty: its key is not the offset of its instruction,
or the instruction ends beyond the greatest offset. -/
inductive FaultAt (m : InstructionMap) (key : Nat) : SegmentFault → Prop where
  | mismatch {i : Instruction} (hi : m.Holds key i) (hne : i.offset ≠ key) :
      m.FaultAt key (.offsetMismatch key i.offset)
  | overflow {i : Instruction} (hi : m.Holds key i) (heq : i.offset = key)
      (hlt : maxOffset < key + 1 + i.data.length) :
      m.FaultAt key (.arithmetic .addOverflow)

/-- The smallest key at which an entry in the code is faulty. -/
structure FirstFault (m : InstructionMap) (key : Nat) (fault : SegmentFault) : Prop where
  faultAt : m.FaultAt key fault
  least : ∀ key' < key, ∀ fault', ¬ m.FaultAt key' fault'

end InstructionMap

/-! ## faults of entries -/

namespace Segmenter

/-- The fault of an entry, whatever was visited before it. -/
def fault? (entry : Nat × Instruction) : Option SegmentFault :=
  if entry.2.offset ≠ entry.1 then some (.offsetMismatch entry.1 entry.2.offset)
  else if maxOffset < entry.2.stop then some (.arithmetic .addOverflow)
  else none

theorem fault?_eq_none_iff {entry : Nat × Instruction} : fault? entry = none ↔ Sound entry := by
  simp only [fault?, Sound]
  split <;> simp_all

/-- The state in which an entry is found to be faulty.  Whether the end of an instruction
is an offset is found out only after the instruction may have begun a block. -/
def met (s : Segmenter) (entry : Nat × Instruction) : Segmenter :=
  if entry.2.offset = entry.1 then s.enter entry.2 else s

/-- **One step**: an entry is visited unless it is faulty. -/
theorem step_eq (s : Segmenter) (key : Nat) (i : Instruction) :
    s.step key i =
      match fault? (key, i) with
      | some fault => (s.met (key, i), some fault)
      | none => (s.visit i, none) := by
  cases hfault : fault? (key, i) with
  | none => exact step_of_sound s (fault?_eq_none_iff.mp hfault)
  | some fault =>
      unfold fault? at hfault
      by_cases hkey : i.offset = key
      · by_cases hlt : maxOffset < i.stop
        · obtain rfl : SegmentFault.arithmetic .addOverflow = fault := by
            simpa [hkey, hlt] using hfault
          simp [step, met, enter, hkey, Instruction.stop?_of_lt hlt]
        · simp [hkey, hlt] at hfault
      · obtain rfl : SegmentFault.offsetMismatch key i.offset = fault := by
          simpa [hkey] using hfault
        simp [step, met, hkey]

/-- **A whole run** stops at the first faulty entry. -/
theorem snd_run (s : Segmenter) (entries : List (Nat × Instruction)) :
    (s.run entries).2 = entries.findSome? fault? := by
  induction entries generalizing s with
  | nil => rfl
  | cons entry entries ih =>
      rw [run, step_eq, List.findSome?_cons]
      cases fault? (entry.1, entry.2) with
      | none => exact ih (s.visit entry.2)
      | some fault => rfl

end Segmenter

/-! ## faults of maps -/

namespace InstructionMap

variable {m m' : InstructionMap} {key : Nat} {fault : SegmentFault}

theorem faultAt_iff :
    m.FaultAt key fault ↔ ∃ i, m.Holds key i ∧ Segmenter.fault? (key, i) = some fault := by
  have hstop : ∀ i : Instruction, i.offset = key → i.stop = key + 1 + i.data.length := by
    intro i heq
    simp only [Instruction.stop, Instruction.size]
    omega
  constructor
  · intro h
    cases h with
    | @mismatch i hi hne => exact ⟨i, hi, by simp [Segmenter.fault?, hne]⟩
    | @overflow i hi heq hlt => exact ⟨i, hi, by simp [Segmenter.fault?, heq, hstop i heq, hlt]⟩
  · rintro ⟨i, hi, hfault⟩
    unfold Segmenter.fault? at hfault
    by_cases hkey : i.offset = key
    · by_cases hlt : maxOffset < i.stop
      · obtain rfl : SegmentFault.arithmetic .addOverflow = fault := by
          simpa [hkey, hlt] using hfault
        exact .overflow hi hkey (hstop i hkey ▸ hlt)
      · simp [hkey, hlt] at hfault
    · obtain rfl : SegmentFault.offsetMismatch key i.offset = fault := by simpa [hkey] using hfault
      exact .mismatch hi hkey

/-- Whether a key is faulty is up to what is stored under it. -/
theorem faultAt_congr (hlen : m'.codeLength = m.codeLength) (hget : m'.get? key = m.get? key) :
    m'.FaultAt key fault ↔ m.FaultAt key fault := by
  simp only [faultAt_iff, Holds, hlen, hget]

theorem FirstFault.congr (h : m.FirstFault key fault) (hlen : m'.codeLength = m.codeLength)
    (hget : ∀ key' ≤ key, m'.get? key' = m.get? key') : m'.FirstFault key fault where
  faultAt := (faultAt_congr hlen (hget key (Nat.le_refl key))).mpr h.faultAt
  least key' hlt fault' := by
    rw [faultAt_congr hlen (hget key' (Nat.le_of_lt hlt))]
    exact h.least key' hlt fault'

/-- What is stored in front of the first fault has none. -/
theorem FirstFault.sound_below (h : m.FirstFault key fault) :
    ∀ entry ∈ (m.below key).entriesInCode, Segmenter.Sound entry := by
  intro entry hentry
  rw [entriesInCode_below, List.mem_filter, decide_eq_true_eq] at hentry
  rw [← Segmenter.fault?_eq_none_iff, Option.eq_none_iff_forall_ne_some]
  intro fault' hfault'
  exact h.least entry.1 hentry.2 fault'
    (faultAt_iff.mpr ⟨entry.2, holds_iff.mpr hentry.1, hfault'⟩)

/-- Keys ascend, so the first faulty entry is the one with the smallest key. -/
theorem findSome?_fault?_eq_some_iff :
    m.entriesInCode.findSome? Segmenter.fault? = some fault ↔ ∃ key, m.FirstFault key fault := by
  have hascending := pairwise_entriesInCode m
  rw [List.findSome?_eq_some_iff]
  constructor
  · intro ⟨before, entry, after, hsplit, hfault, hbefore⟩
    rw [hsplit, List.pairwise_append, List.pairwise_cons] at hascending
    have hentry : m.Holds entry.1 entry.2 := holds_iff.mpr (by simp [hsplit])
    refine ⟨entry.1, faultAt_iff.mpr ⟨entry.2, hentry, hfault⟩, fun key' hlt fault' h => ?_⟩
    obtain ⟨i, hi, hfault'⟩ := faultAt_iff.mp h
    have hmem := holds_iff.mp hi
    rw [hsplit, List.mem_append, List.mem_cons] at hmem
    rcases hmem with hmem | heq | hmem
    · simp [hbefore _ hmem] at hfault'
    · simp [← heq] at hlt
    · have hgt := hascending.2.1.1 _ hmem
      simp only at hgt
      omega
  · intro ⟨key, hfirst⟩
    obtain ⟨i, hi, hfault⟩ := faultAt_iff.mp hfirst.faultAt
    obtain ⟨after, hsplit⟩ := exists_entriesInCode_eq hi
    refine ⟨_, (key, i), after, hsplit, hfault, fun entry hentry => ?_⟩
    exact Segmenter.fault?_eq_none_iff.mpr (hfirst.sound_below entry hentry)

theorem segment_eq_error_iff :
    m.segment = .error fault ↔ ∃ key, m.FirstFault key fault := by
  rw [← findSome?_fault?_eq_some_iff, ← Segmenter.snd_run (Segmenter.initial .silent), segment,
    segmentLogged]
  split <;> simp_all

/-- A map without faulty entries is visited to the last one. -/
theorem segment_eq_ok_iff {blocks : List Block} :
    m.segment = .ok blocks ↔ (∀ entry ∈ m.entriesInCode, Segmenter.Sound entry) ∧
      blocks = (m.inCode.foldl Segmenter.visit (.initial .silent)).finish.found.reverse := by
  by_cases hsound : ∀ entry ∈ m.entriesInCode, Segmenter.Sound entry
  · have hrun := Segmenter.run_of_sound (.initial .silent) hsound
    rw [and_iff_right hsound, segment, segmentLogged, hrun, Except.ok.injEq, eq_comm, inCode]
  · have hnone : ((Segmenter.initial .silent).run m.entriesInCode).2 ≠ none := by
      rw [Segmenter.snd_run, ne_eq, List.findSome?_eq_none_iff]
      simpa only [Segmenter.fault?_eq_none_iff] using hsound
    rw [segment, segmentLogged]
    split <;> simp_all

theorem exists_segment_eq_ok_iff :
    (∃ blocks, m.segment = .ok blocks) ↔ ∀ key fault, ¬ m.FaultAt key fault := by
  simp only [segment_eq_ok_iff, exists_and_left, exists_eq, and_true, Prod.forall, ← holds_iff,
    ← Segmenter.fault?_eq_none_iff, faultAt_iff, Option.eq_none_iff_forall_ne_some]
  grind

/-- Nothing but what is stored under the offsets of the code counts. -/
theorem segment_eq_of_get?_eq (hlen : m'.codeLength = m.codeLength)
    (hget : ∀ key < m.codeLength, m'.get? key = m.get? key) : m'.segment = m.segment := by
  rw [segment, fst_segmentLogged, replay_congr hlen hget, segment, fst_segmentLogged]

end InstructionMap

theorem Layout.build_eq_error_iff {m : InstructionMap} {fault : SegmentFault} :
    build m = .error fault ↔ m.segment = .error fault := by
  unfold build
  cases m.segment <;> simp [Except.map]

/-- A map is segmented, and laid out, exactly if no entry in the code is faulty.
Otherwise both fail with the fault of the smallest faulty key: a mismatch with the
key and the stored offset, or an overflow.  What is stored beyond the code, and what
is stored behind that key, has no influence. -/
theorem segment_fails_at_first_fault (m : InstructionMap) :
    ((∀ key fault, ¬ m.FaultAt key fault) ↔
        ∃ blocks, m.segment = .ok blocks ∧ Layout.build m = .ok (.ofBlocks blocks)) ∧
      (∀ fault, (∃ key, m.FirstFault key fault) ↔ m.segment = .error fault) ∧
      (∀ fault, (∃ key, m.FirstFault key fault) ↔ Layout.build m = .error fault) ∧
      (SegmentFault.arithmetic .addOverflow).message = "attempt to add with overflow" ∧
      (∀ m' : InstructionMap, m'.codeLength = m.codeLength →
        (∀ key < m.codeLength, m'.get? key = m.get? key) →
          m'.segment = m.segment ∧ Layout.build m' = Layout.build m) ∧
      ∀ key fault, m.FirstFault key fault → ∀ m' : InstructionMap, m'.codeLength = m.codeLength →
        (∀ key' ≤ key, m'.get? key' = m.get? key') →
          m'.segment = m.segment ∧ Layout.build m' = Layout.build m := by
  have hbuild : ∀ m' : InstructionMap, m'.segment = m.segment →
      m'.segment = m.segment ∧ Layout.build m' = Layout.build m := by
    intro m' h
    exact ⟨h, by rw [Layout.build, h, Layout.build]⟩
  refine ⟨?_, fun fault => m.segment_eq_error_iff.symm, fun fault => ?_, rfl, ?_, ?_⟩
  · rw [← m.exists_segment_eq_ok_iff]
    apply exists_congr
    intro blocks
    constructor
    · intro h
      exact ⟨h, by rw [Layout.build, h, Except.map]⟩
    · exact And.left
  · rw [Layout.build_eq_error_iff, m.segment_eq_error_iff]
  · intro m' hlen hget
    exact hbuild m' (InstructionMap.segment_eq_of_get?_eq hlen hget)
  · intro key fault hfirst m' hlen hget
    have hfirst' := hfirst.congr hlen hget
    apply hbuild
    rw [m.segment_eq_error_iff.mpr ⟨key, hfirst⟩, m'.segment_eq_error_iff.mpr ⟨key, hfirst'⟩]

/-- The longest possible code, with a `STOP` filed under the wrong key and an `ADD`
whose operand reaches beyond the greatest offset. -/
def twoFaults : InstructionMap :=
  (((InstructionMap.empty maxOffset).insert 0 ⟨0, ⟨0x5b⟩, []⟩).insert 5 ⟨9, ⟨0x00⟩, []⟩).insert
    (maxOffset - 1) ⟨maxOffset - 1, ⟨0x01⟩, [0x5b]⟩

/-- The mismatch comes first, also with one more fault behind it; without it, the
overflow is found. -/
theorem segment_fails_at_first_fault_twoFaults :
    twoFaults.FirstFault 5 (.offsetMismatch 5 9) ∧
      twoFaults.segment = .error (.offsetMismatch 5 9) ∧
      Layout.build (twoFaults.insert 6 ⟨7, ⟨0x5b⟩, []⟩) = .error (.offsetMismatch 5 9) ∧
      ∃ key, (twoFaults.insert 5 ⟨5, ⟨0x00⟩, []⟩).FirstFault key (.arithmetic .addOverflow) := by
  obtain ⟨-, hsegment, hbuild, -, -, hlater⟩ := segment_fails_at_first_fault twoFaults
  have hsound : ∀ key < 5, ∀ i ∈ twoFaults.get? key, Segmenter.fault? (key, i) = none := by
    decide +kernel
  have hfirst : twoFaults.FirstFault 5 (.offsetMismatch 5 9) := by
    refine ⟨.mismatch (i := ⟨9, ⟨0x00⟩, []⟩) ⟨by decide, by decide +kernel⟩ (by decide), ?_⟩
    intro key hkey fault hfault
    obtain ⟨i, hi, hsome⟩ := InstructionMap.faultAt_iff.mp hfault
    simp [hsound key hkey i hi.2] at hsome
  have hkeys : ∀ key ≤ 5, (twoFaults.insert 6 ⟨7, ⟨0x5b⟩, []⟩).get? key =
      twoFaults.get? key := by decide +kernel
  have hsame := (hlater 5 _ hfirst (twoFaults.insert 6 ⟨7, ⟨0x5b⟩, []⟩) rfl hkeys).2
  have hoverflow : (twoFaults.insert 5 ⟨5, ⟨0x00⟩, []⟩).segment =
      .error (.arithmetic .addOverflow) := by decide +kernel
  refine ⟨hfirst, (hsegment _).mp ⟨5, hfirst⟩, ?_, ?_⟩
  · rw [hsame]
    exact (hbuild _).mp ⟨5, hfirst⟩
  · exact ((segment_fails_at_first_fault _).2.1 _).mpr hoverflow

end EvmBlocks
