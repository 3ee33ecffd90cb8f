import EvmBlocks.Proofs.Faults
import EvmBlocks.Proofs.Listing
import EvmBlocks.Proofs.Opcode

/-!
# EvmBlocks.Proofs.Journal

What the journal of an analysis says about it.

A journal is read as the records it writes down: a level, a stage and a text each.
There are five kinds of them (`Record.unassigned` to `Record.segmented`).

Each stage of an analysis gives its events to whatever journal it is handed,
and these events are a list that the journal has no part in:
`Decode.account` for the decoding of a code, `InstructionMap.account` for the
segmentation of a map.  A journal that has taken them (`Journal.recordAll`)
holds those among them that its level asks for.

The decoder remarks on one instruction after another, on each at most once.
The segmenter reports a block when it finds it, before the segmentation is
known to succeed: at any time, the reported blocks are those found so far
(`Segmenter.report`).  So a segmentation that stops at a fault has reported
the blocks of what is stored in front of it, but for the block that was still
open there; a jump destination that ends beyond the greatest offset has closed
that block first (`Segmenter.met`).
-/

namespace EvmBlocks

/-! ## records -/

namespace Record

/-- A byte without a row in the opcode table. -/
def unassigned (offset : Nat) (byte : UInt8) : Record where
  level := .trace
  stage := .decoding
  text := "Unassigned opcode at offset " ++ Numeral.hexText 1 offset ++ ": " ++
    Numeral.hexText 2 byte.toNat

/-- A push with fewer bytes behind it than its operand has. -/
def truncated (offset present size : Nat) : Record where
  level := .debug
  stage := .decoding
  text := "PUSH" ++ toString size ++ " at offset " ++ Numeral.hexText 1 offset ++
    " truncated: " ++ toString present ++ " of " ++ toString size ++ " immediate bytes"

/-- The end of the decoding. -/
def decoded (instructions bytes : Nat) : Record where
  level := .debug
  stage := .decoding
  text := "decoded " ++ toString instructions ++ " instructions from " ++ toString bytes ++
    " bytes"

/-- A block. -/
def block (b : Block) : Record where
  level := .trace
  stage := .segmenting
  text := "block " ++ Numeral.hexText 1 b.start ++ ".." ++ Numeral.hexText 1 b.stop

/-- The end of the segmentation. -/
def segmented (instructions blocks : Nat) : Record where
  level := .debug
  stage := .segmenting
  text := "segmented " ++ toString instructions ++ " instructions into " ++ toString blocks ++
    " blocks"

end Record

namespace Event

theorem record_unassigned (offset : Nat) (op : Opcode) :
    (Event.unassigned offset op).record = .unassigned offset op.byte := by
  rw [Record.unassigned, ← Numeral.hex_eq_hexText, ← Numeral.hexByte_eq_hexText]
  rfl

/-- Only pushes have an operand that can be cut off. -/
theorem record_truncated {i : Instruction} (h : i.data.length < i.opcode.immediateSize) :
    (Event.truncated i).record = .truncated i.offset i.data.length i.opcode.immediateSize := by
  rw [Record.truncated, ← Opcode.text_of_operand (Nat.zero_lt_of_lt h), ← Numeral.hex_eq_hexText]
  rfl

theorem record_block (b : Block) : (Event.block b).record = .block b := by
  rw [Record.block, ← Numeral.hex_eq_hexText, ← Numeral.hex_eq_hexText]
  rfl

theorem map_record_block (bs : List Block) :
    (bs.map Event.block).map Event.record = bs.map Record.block := by
  rw [List.map_map]
  exact List.map_congr_left fun b _ => record_block b

theorem record_decoded (instructions bytes : Nat) :
    (Event.decoded instructions bytes).record = .decoded instructions bytes := rfl

theorem record_segmented (instructions blocks : Nat) :
    (Event.segmented instructions blocks).record = .segmented instructions blocks := rfl

end Event

/-- The levels, from the one that keeps nothing to the one that keeps everything. -/
def Level.ascending : List Level := [.off, .error, .warn, .info, .debug, .trace]

theorem Level.rank_eq_idxOf (level : Level) : level.rank = ascending.idxOf level := by
  cases level <;> rfl

/-! ## journals of several events -/

namespace Journal

/-- Adds those of some events that are to be kept. -/
def recordAll (j : Journal) (es : List Event) : Journal := es.foldl record j

@[simp] theorem recordAll_nil (j : Journal) : j.recordAll [] = j := rfl

theorem recordAll_append (j : Journal) (es es' : List Event) :
    j.recordAll (es ++ es') = (j.recordAll es).recordAll es' := List.foldl_append

theorem recordAll_singleton (j : Journal) (e : Event) : j.recordAll [e] = j.record e := rfl

theorem recordAll_concat (j : Journal) (es : List Event) (e : Event) :
    j.recordAll (es ++ [e]) = (j.recordAll es).record e := recordAll_append j es [e]

theorem keeps_record (j : Journal) (e : Event) : (j.record e).keeps = j.keeps := by
  funext e'
  rw [keeps, keeps, level_record]

/-- The events of a journal are those that its level asks for. -/
theorem events_recordAll (j : Journal) (es : List Event) :
    (j.recordAll es).events = j.events ++ es.filter j.keeps := by
  induction es generalizing j with
  | nil => simp
  | cons e es ih =>
      rw [recordAll, List.foldl_cons, ← recordAll, ih, events_record, keeps_record,
        List.filter_cons, List.append_assoc]
      cases j.keeps e <;> rfl

theorem events_recordAll_empty (level : Level) (es : List Event) :
    ((empty level).recordAll es).events = es.filter fun e => e.level.rank ≤ level.rank :=
  events_recordAll (empty level) es

/-- The last level asks for all events. -/
theorem records_recordAll_trace (es : List Event) :
    ((empty .trace).recordAll es).records = es.map Event.record := by
  rw [records, events_recordAll_empty, List.filter_eq_self.mpr]
  intro e _
  cases e <;> rfl

/-- Each level holds what it asks for of what the last level holds. -/
theorem records_recordAll_level (level : Level) (es : List Event) :
    ((empty level).recordAll es).records =
      ((empty .trace).recordAll es).records.filter fun r =>
        Level.ascending.idxOf r.level ≤ Level.ascending.idxOf level := by
  rw [records_recordAll_trace, records, events_recordAll_empty, List.filter_map]
  simp only [Level.rank_eq_idxOf]
  rfl

end Journal

/-! ## the decoder -/

namespace Instruction

/-- What is reported about an instruction: that its opcode has no row, or that
operand bytes are missing. -/
def event? (i : Instruction) : Option Event :=
  if i.opcode.row? = none then some (.unassigned i.offset i.opcode)
  else if i.data.length < i.opcode.immediateSize then some (.truncated i)
  else none

/-- What is written down about an instruction. -/
def remark? (i : Instruction) : Option Record :=
  if i.opcode.row? = none then some (.unassigned i.offset i.opcode.byte)
  else if i.data.length < i.opcode.immediateSize then
    some (.truncated i.offset i.data.length i.opcode.immediateSize)
  else none

theorem map_record_event? (i : Instruction) : i.event?.map Event.record = i.remark? := by
  unfold event? remark?
  by_cases hrow : i.opcode.row? = none
  · simp [hrow, Event.record_unassigned]
  · by_cases htruncated : i.data.length < i.opcode.immediateSize
    · simp [hrow, htruncated, Event.record_truncated htruncated]
    · simp [hrow, htruncated]

end Instruction

namespace Decode

/-- **One step**: an opcode without a row has no operand that could be cut off, so
there is at most one remark. -/
theorem remark_eq (j : Journal) (i : Instruction) :
    remark j i = j.recordAll i.event?.toList := by
  unfold remark Instruction.event?
  by_cases hrow : i.opcode.row? = none
  · have hunassigned : i.opcode.isUnassigned = true := by simp [Opcode.isUnassigned, hrow]
    have hcomplete : i.isTruncated = false := by
      rw [Bool.eq_false_iff, ne_eq, Instruction.isTruncated_iff, Opcode.immediateSize, hrow]
      exact Nat.not_lt_zero _
    simp [hrow, hunassigned, hcomplete, Journal.recordAll_singleton]
  · have hassigned : i.opcode.isUnassigned = false := by
      simpa [Opcode.isUnassigned, Option.isSome_iff_ne_none] using hrow
    by_cases htruncated : i.data.length < i.opcode.immediateSize
    · have h := i.isTruncated_iff.mpr htruncated
      simp [hrow, hassigned, htruncated, h, Journal.recordAll_singleton]
    · have h : i.isTruncated = false :=
        Bool.eq_false_iff.mpr (mt i.isTruncated_iff.mp htruncated)
      simp [hrow, hassigned, htruncated, h]

/-- **A whole run**: the remarks on the instructions, in their order. -/
theorem foldl_remark (j : Journal) (is : List Instruction) :
    is.foldl remark j = j.recordAll (is.filterMap Instruction.event?) := by
  induction is generalizing j with
  | nil => rfl
  | cons i is ih =>
      rw [List.foldl_cons, ih, remark_eq, ← Journal.recordAll_append, List.filterMap_cons]
      cases i.event? <;> rfl

/-- What is reported about the decoding of a code. -/
def account (code : List UInt8) : List Event :=
  (decode code).instructions.filterMap Instruction.event? ++
    [.decoded (decode code).instructions.length code.length]

theorem map_record_account (code : List UInt8) :
    (account code).map Event.record =
      (decode code).instructions.filterMap Instruction.remark? ++
        [.decoded (decode code).instructions.length code.length] := by
  rw [account, List.map_append, List.map_filterMap, List.map_singleton, Event.record_decoded]
  simp only [Instruction.map_record_event?]

end Decode

theorem snd_decodeLogged (j : Journal) (code : List UInt8) :
    (decodeLogged j code).2 = j.recordAll (Decode.account code) := by
  obtain ⟨ops, hfit, rfl⟩ := exists_assembly code
  have hscan := Decode.scan_assemble 0 (.empty (assemble ops).length) j hfit
  rw [Decode.account, Journal.recordAll_concat, ← Decode.foldl_remark,
    InstructionMap.length_instructions, instructions_decode_assemble hfit, ← fst_decodeLogged j]
  simp only [decodeLogged, hscan]

/-! ## the segmenter -/

namespace Segmenter

/-- The state of a segmentation whose journal has taken the blocks found so far. -/
def report (s : Segmenter) (j : Journal) : Segmenter :=
  { s with journal := j.recordAll (s.found.reverse.map Event.block) }

theorem report_initial (j j' : Journal) : (initial j').report j = initial j := rfl

theorem emit_report (s : Segmenter) (j : Journal) (b : Block) :
    (s.report j).emit b = (s.emit b).report j := by
  simp [emit, report, Journal.recordAll_concat]

theorem close_report (s : Segmenter) (j : Journal) : (s.report j).close = s.close.report j := by
  unfold close
  cases hstop : s.current.stop? with
  | none => simp [report, hstop]
  | some stop =>
      by_cases hlt : s.current.start < stop
      · simp only [report, hstop, hlt, if_true]
        exact emit_report s j ⟨s.current.start, stop⟩
      · simp [report, hstop, hlt]

theorem cutAt_report (s : Segmenter) (j : Journal) (start : Nat) :
    (s.report j).cutAt start = (s.cutAt start).report j := by
  rw [cutAt, close_report]
  rfl

theorem finish_report (s : Segmenter) (j : Journal) : (s.report j).finish = s.finish.report j := by
  unfold finish
  cases hstop : s.current.stop? with
  | none => simp [report, hstop]
  | some stop =>
      simp only [report, hstop]
      exact emit_report s j ⟨s.current.start, stop⟩

theorem enter_report (s : Segmenter) (j : Journal) (i : Instruction) :
    (s.report j).enter i = (s.enter i).report j := by
  unfold enter
  cases i.opcode.isBlockStart with
  | true => exact cutAt_report s j i.offset
  | false => rfl

/-- **One step**: what is found is reported, and nothing else. -/
theorem visit_report (s : Segmenter) (j : Journal) (i : Instruction) :
    (s.report j).visit i = (s.visit i).report j := by
  have hextend : ((s.enter i).report j).extendTo i.stop = ((s.enter i).extendTo i.stop).report j :=
    rfl
  unfold visit
  rw [enter_report, hextend]
  cases i.opcode.isBlockEnd with
  | true => exact cutAt_report _ j i.stop
  | false => rfl

/-- **One step** that finds a fault: a block that is closed before it is reported, too. -/
theorem met_report (s : Segmenter) (j : Journal) (entry : Nat × Instruction) :
    (s.report j).met entry = (s.met entry).report j := by
  unfold met
  split
  · exact enter_report s j entry.2
  · rfl

/-- **A whole run**, also one that stops at a fault, has reported what it found. -/
theorem run_report (s : Segmenter) (j : Journal) (entries : List (Nat × Instruction)) :
    (s.report j).run entries = ((s.run entries).1.report j, (s.run entries).2) := by
  induction entries generalizing s with
  | nil => rfl
  | cons entry entries ih =>
      rw [run, run, step_eq, step_eq]
      cases fault? (entry.1, entry.2) with
      | none =>
          simp only [visit_report]
          exact ih (s.visit entry.2)
      | some fault => simp only [met_report]

/-- In the end, at most one block is added to those found before. -/
theorem prefix_reverse_found_finish (s : Segmenter) :
    s.found.reverse <+: s.finish.found.reverse ∧
      s.finish.found.reverse.length ≤ s.found.reverse.length + 1 := by
  unfold finish
  cases s.current.stop? with
  | none => simp
  | some stop => simp

/-- A block that is closed is the one that would be added in the end, unless it is empty. -/
theorem found_close (s : Segmenter) :
    s.close.found = s.finish.found ∨
      s.close.found = s.found ∧ ∀ b ∈ s.finish.found, b.start < b.stop → b ∈ s.found := by
  unfold close finish
  cases s.current.stop? with
  | none => exact .inl rfl
  | some stop =>
      by_cases hlt : s.current.start < stop
      · exact .inl (by simp [hlt])
      · refine .inr ⟨by simp [hlt], fun b hb hne => ?_⟩
        rw [found_emit, List.mem_cons] at hb
        rcases hb with rfl | hb
        · exact absurd hne hlt
        · exact hb

/-- Where a fault is met, at most the last of the blocks in front of it is missing; none
that has offsets is, if the fault is met behind the start of a block. -/
theorem found_met (s : Segmenter) (entry : Nat × Instruction) :
    (s.met entry).found.reverse <+: s.finish.found.reverse ∧
      s.finish.found.reverse.length ≤ (s.met entry).found.reverse.length + 1 ∧
      (entry.2.offset = entry.1 → entry.2.opcode.isBlockStart = true →
        ∀ b ∈ s.finish.found.reverse, b.start < b.stop → b ∈ (s.met entry).found.reverse) := by
  by_cases hclosed : entry.2.offset = entry.1 ∧ entry.2.opcode.isBlockStart = true
  · have hmet : (s.met entry).found = s.close.found := by
      simp only [met, enter, hclosed, if_true]
      rfl
    rw [hmet]
    rcases s.found_close with hall | ⟨hfound, hnonempty⟩
    · rw [hall]
      exact ⟨List.prefix_rfl, Nat.le_succ _, fun _ _ b hb _ => hb⟩
    · rw [hfound]
      obtain ⟨hfront, hlast⟩ := s.prefix_reverse_found_finish
      simp only [List.mem_reverse]
      exact ⟨hfront, hlast, fun _ _ => hnonempty⟩
  · have hmet : s.met entry = s := by
      unfold met enter
      split
      · next heq => exact if_neg fun hstart => hclosed ⟨heq, hstart⟩
      · rfl
    obtain ⟨hfront, hlast⟩ := s.prefix_reverse_found_finish
    rw [hmet]
    exact ⟨hfront, hlast, fun heq hstart => absurd ⟨heq, hstart⟩ hclosed⟩

end Segmenter

namespace InstructionMap

/-- What is reported about the segmentation of a map. -/
def account (m : InstructionMap) : List Event :=
  match (Segmenter.initial .silent).run m.entriesInCode with
  | (s, some _) => s.found.reverse.map Event.block
  | (s, none) =>
      s.finish.found.reverse.map Event.block ++ [.segmented m.size s.finish.found.length]

theorem segmentLogged_eq (j : Journal) (m : InstructionMap) :
    m.segmentLogged j = (m.segment, j.recordAll m.account) := by
  have hrun := Segmenter.run_report (.initial .silent) j m.entriesInCode
  rw [Segmenter.report_initial] at hrun
  rw [segment, segmentLogged, segmentLogged, account, hrun]
  rcases (Segmenter.initial .silent).run m.entriesInCode with ⟨s, _ | fault⟩
  · simp only [Segmenter.finish_report, Journal.recordAll_concat]
    rfl
  · rfl

/-- A completed segmentation has reported its blocks and how many there are. -/
theorem account_of_segment_eq_ok {m : InstructionMap} {blocks : List Block}
    (h : m.segment = .ok blocks) :
    m.account = blocks.map Event.block ++ [.segmented m.size blocks.length] := by
  obtain ⟨⟨s, fault?⟩, hrun⟩ : ∃ r, (Segmenter.initial .silent).run m.entriesInCode = r := ⟨_, rfl⟩
  rw [segment, segmentLogged, hrun] at h
  rw [account, hrun]
  cases fault? with
  | some fault => simp at h
  | none =>
      obtain rfl := Except.ok.inj h
      rw [List.length_reverse]

/-- Up to its first fault, a map is segmented like what is stored in front of it. -/
theorem FirstFault.exists_run {m : InstructionMap} {key : Nat} {fault : SegmentFault}
    (h : m.FirstFault key fault) (s : Segmenter) :
    ∃ s' i, m.Holds key i ∧ s.run (m.below key).entriesInCode = (s', none) ∧
      s.run m.entriesInCode = (s'.met (key, i), some fault) := by
  obtain ⟨i, hi, hfault⟩ := faultAt_iff.mp h.faultAt
  obtain ⟨after, hsplit⟩ := exists_entriesInCode_eq hi
  refine ⟨_, i, hi, Segmenter.run_of_sound s h.sound_below, ?_⟩
  rw [hsplit, Segmenter.run_append_of_sound s h.sound_below, Segmenter.run, Segmenter.step_eq,
    hfault]

/-- A segmentation that stops at a fault has reported a front of the blocks of what is
stored before it, in which at most the last one is missing.  It is missing only if it is
empty where a jump destination overflows. -/
theorem FirstFault.exists_records {m : InstructionMap} {key : Nat} {fault : SegmentFault}
    (h : m.FirstFault key fault) :
    ∃ found blocks, (m.segmentLogged (.empty .trace)).2.records = found.map Record.block ∧
      (m.below key).segment = .ok blocks ∧ found <+: blocks ∧ blocks.length ≤ found.length + 1 ∧
      ∀ i, m.Holds key i → i.offset = key → i.opcode.isBlockStart = true →
        ∀ b ∈ blocks, b.start < b.stop → b ∈ found := by
  obtain ⟨s, i, hi, hbelow, hrun⟩ := h.exists_run (.initial .silent)
  obtain ⟨hfront, hlast, hclosed⟩ := s.found_met (key, i)
  refine ⟨(s.met (key, i)).found.reverse, s.finish.found.reverse, ?_, ?_, hfront, hlast, ?_⟩
  · rw [segmentLogged_eq, Journal.records_recordAll_trace, account, hrun]
    exact Event.map_record_block _
  · rw [segment, segmentLogged, hbelow]
  · intro i' hi'
    obtain rfl : i = i' := Option.some.inj (hi.2.symm.trans hi'.2)
    exact hclosed

end InstructionMap

/-! ## the whole analysis -/

theorem Program.analyzeLogged_eq (j : Journal) (code : List UInt8) :
    analyzeLogged j code =
      (analyze code, j.recordAll (Decode.account code ++ (decode code).account)) := by
  simp only [analyzeLogged, fst_decodeLogged, snd_decodeLogged, InstructionMap.segmentLogged_eq,
    analyze_eq_map_segment, Journal.recordAll_append]

/-- The journal of an analysis, at its last level: the remarks on the instructions, in
ascending order; that the code is decoded, with the numbers of instructions and of
bytes; the blocks; and that the map is segmented, with the numbers of entries and of
blocks.  A segmentation that stops at a fault has reported a front of the blocks of
what is stored before it, in which at most the last block is missing, and not that it
was completed; a jump destination that ends beyond the greatest offset has closed that
block, unless it is empty.  No level changes a result, and each level gives the same
records without those of the levels behind it. -/
theorem journal_tells_what_happened :
    (∀ code : List UInt8, code.length ≤ maxOffset →
      ∃ p, Program.analyze code = .ok p ∧
        p.instructions.instructions.Pairwise (fun i i' => i.offset < i'.offset) ∧
        (Program.analyzeLogged (.empty .trace) code).2.records =
          p.instructions.instructions.filterMap Instruction.remark? ++
            [.decoded p.instructions.instructions.length code.length] ++
            p.blocks.map Record.block ++ [.segmented p.instructions.size p.blocks.length]) ∧
      (∀ (m : InstructionMap) (key offset : Nat),
        m.segment = .error (.offsetMismatch key offset) →
          ∃ found blocks,
            (m.segmentLogged (.empty .trace)).2.records = found.map Record.block ∧
              (m.below key).segment = .ok blocks ∧ found <+: blocks ∧
              blocks.length ≤ found.length + 1) ∧
      (∀ m : InstructionMap, m.segment = .error (.arithmetic .addOverflow) →
        ∃ key i found blocks, m.Holds key i ∧ maxOffset < key + 1 + i.data.length ∧
          (m.segmentLogged (.empty .trace)).2.records = found.map Record.block ∧
          (m.below key).segment = .ok blocks ∧ found <+: blocks ∧
          blocks.length ≤ found.length + 1 ∧
          (i.opcode.byte = 0x5b → ∀ b ∈ blocks, b.start < b.stop → b ∈ found)) ∧
      (∀ (level : Level) (code : List UInt8),
        (Program.analyzeLogged (.empty level) code).1 = Program.analyze code ∧
          (Program.analyzeLogged (.empty level) code).2.records =
            (Program.analyzeLogged (.empty .trace) code).2.records.filter fun r =>
              Level.ascending.idxOf r.level ≤ Level.ascending.idxOf level) ∧
      ∀ (level : Level) (m : InstructionMap),
        (m.segmentLogged (.empty level)).1 = m.segment ∧
          (m.segmentLogged (.empty level)).2.records =
            (m.segmentLogged (.empty .trace)).2.records.filter fun r =>
              Level.ascending.idxOf r.level ≤ Level.ascending.idxOf level := by
  refine ⟨?_, ?_, ?_, ?_, ?_⟩
  · intro code hlen
    obtain ⟨p, hp, -, hinstructions, -⟩ := Program.exists_analyze hlen
    have hsegment : (decode code).segment = .ok p.blocks := by
      rw [← Program.map_blocks_analyze, hp, Except.map]
    have haccount := InstructionMap.account_of_segment_eq_ok hsegment
    refine ⟨p, hp, ?_, ?_⟩
    · rw [hinstructions]
      exact (tiles_decode code).pairwise_offset
    · rw [Program.analyzeLogged_eq, Journal.records_recordAll_trace, List.map_append,
        Decode.map_record_account, haccount, List.map_append, Event.map_record_block,
        List.map_singleton, Event.record_segmented, hinstructions,
        List.append_assoc _ (p.blocks.map Record.block)]
  · intro m key offset hmismatch
    obtain ⟨key', hfirst⟩ := InstructionMap.segment_eq_error_iff.mp hmismatch
    obtain rfl : key' = key := by
      cases hfirst.faultAt
      rfl
    obtain ⟨found, blocks, hrecords, hblocks, hfront, hlast, -⟩ := hfirst.exists_records
    exact ⟨found, blocks, hrecords, hblocks, hfront, hlast⟩
  · intro m hoverflow
    obtain ⟨key, hfirst⟩ := InstructionMap.segment_eq_error_iff.mp hoverflow
    obtain ⟨i, hi, heq, hlt⟩ : ∃ i, m.Holds key i ∧ i.offset = key ∧
        maxOffset < key + 1 + i.data.length := by
      cases hfirst.faultAt with
      | overflow hi heq hlt => exact ⟨_, hi, heq, hlt⟩
    obtain ⟨found, blocks, hrecords, hblocks, hfront, hlast, hclosed⟩ := hfirst.exists_records
    refine ⟨key, i, found, blocks, hi, hlt, hrecords, hblocks, hfront, hlast, fun hbyte => ?_⟩
    exact hclosed i hi heq (Opcode.isBlockStart_iff.mpr hbyte)
  · intro level code
    rw [Program.analyzeLogged_eq, Program.analyzeLogged_eq]
    exact ⟨rfl, Journal.records_recordAll_level level _⟩
  · intro level m
    rw [InstructionMap.segmentLogged_eq, InstructionMap.segmentLogged_eq]
    exact ⟨rfl, Journal.records_recordAll_level level _⟩

/-- Eight bytes of code with a `STOP`, a jump destination, and a `STOP` that is filed
under the wrong key. -/
def strayStop : InstructionMap :=
  (((InstructionMap.empty 8).insert 0 ⟨0, ⟨0x00⟩, []⟩).insert 1 ⟨1, ⟨0x5b⟩, []⟩).insert
    3 ⟨9, ⟨0x00⟩, []⟩

/-- The longest possible code with an `ADD`, and a jump destination that ends beyond
the greatest offset. -/
def endlessJumpdest : InstructionMap :=
  ((InstructionMap.empty maxOffset).insert 0 ⟨0, ⟨0x01⟩, []⟩).insert
    (maxOffset - 1) ⟨maxOffset - 1, ⟨0x5b⟩, [0x00]⟩

/-- A code with an unassigned byte and an operand cut off, at the last level and at the
one before; a mismatch behind an open block; and an overflow that has closed one. -/
theorem journal_tells_what_happened_stray_stop :
    ([0x0c, 0x00, 0x61, 0x5b] : List UInt8).length ≤ maxOffset ∧
      (Program.analyzeLogged (.empty .trace) [0x0c, 0x00, 0x61, 0x5b]).2.records =
        [⟨.trace, .decoding, "Unassigned opcode at offset 0x0: 0x0c"⟩,
          ⟨.debug, .decoding, "PUSH2 at offset 0x2 truncated: 1 of 2 immediate bytes"⟩,
          ⟨.debug, .decoding, "decoded 3 instructions from 4 bytes"⟩,
          ⟨.trace, .segmenting, "block 0x0..0x2"⟩, ⟨.trace, .segmenting, "block 0x2..0x4"⟩,
          ⟨.debug, .segmenting, "segmented 3 instructions into 2 blocks"⟩] ∧
      (Program.analyzeLogged (.empty .debug) [0x0c, 0x00, 0x61, 0x5b]).2.records =
        [⟨.debug, .decoding, "PUSH2 at offset 0x2 truncated: 1 of 2 immediate bytes"⟩,
          ⟨.debug, .decoding, "decoded 3 instructions from 4 bytes"⟩,
          ⟨.debug, .segmenting, "segmented 3 instructions into 2 blocks"⟩] ∧
      strayStop.segment = .error (.offsetMismatch 3 9) ∧
      (strayStop.below 3).segment = .ok [⟨0, 1⟩, ⟨1, 2⟩] ∧
      (∃ found, found <+: [⟨0, 1⟩, ⟨1, 2⟩] ∧ 1 ≤ found.length ∧
        (strayStop.segmentLogged (.empty .trace)).2.records = found.map Record.block) ∧
      endlessJumpdest.segment = .error (.arithmetic .addOverflow) ∧
      (endlessJumpdest.segmentLogged (.empty .trace)).2.records =
        [⟨.trace, .segmenting, "block 0x0..0x1"⟩] := by
  obtain ⟨hanalysis, hmismatch, hoverflow, hlevels, -⟩ := journal_tells_what_happened
  have hlen : ([0x0c, 0x00, 0x61, 0x5b] : List UInt8).length ≤ maxOffset := by decide
  have hstray : strayStop.segment = .error (.offsetMismatch 3 9) := by decide +kernel
  have hbelow : (strayStop.below 3).segment = .ok [⟨0, 1⟩, ⟨1, 2⟩] := by decide +kernel
  have hendless : endlessJumpdest.segment = .error (.arithmetic .addOverflow) := by
    decide +kernel
  have hentries : endlessJumpdest.entriesInCode =
      [(0, ⟨0, ⟨0x01⟩, []⟩), (maxOffset - 1, ⟨maxOffset - 1, ⟨0x5b⟩, [0x00]⟩)] := by
    decide +kernel
  have hfirst : (endlessJumpdest.below (maxOffset - 1)).segment = .ok [⟨0, 1⟩] := by
    decide +kernel
  obtain ⟨p, hp, -, hrecords⟩ := hanalysis [0x0c, 0x00, 0x61, 0x5b] hlen
  have hinstructions : p.instructions.instructions =
      [⟨0, ⟨0x0c⟩, []⟩, ⟨1, ⟨0x00⟩, []⟩, ⟨2, ⟨0x61⟩, [0x5b]⟩] := by
    rw [Program.instructions_of_analyze hp]
    decide +kernel
  have hblocks : p.blocks = [⟨0, 2⟩, ⟨2, 4⟩] := by
    have hmap := Program.map_blocks_analyze [0x0c, 0x00, 0x61, 0x5b]
    rw [hp] at hmap
    exact Except.ok.inj (hmap.trans (by decide +kernel))
  rw [← InstructionMap.length_instructions, hinstructions, hblocks] at hrecords
  obtain ⟨found, blocks, hreported, hok, hfront, hlast⟩ := hmismatch strayStop 3 9 hstray
  obtain rfl := Except.ok.inj (hbelow.symm.trans hok)
  refine ⟨hlen, hrecords.trans (by decide +kernel), ?_, hstray, hbelow,
    ⟨found, hfront, Nat.le_of_succ_le_succ hlast, hreported⟩, hendless, ?_⟩
  · rw [(hlevels .debug _).2, hrecords]
    decide +kernel
  · obtain ⟨key, i, found, blocks, hi, hlt, hreported, hok, hfront, -, hclosed⟩ :=
      hoverflow endlessJumpdest hendless
    rw [InstructionMap.holds_iff, hentries] at hi
    simp only [List.mem_cons, List.not_mem_nil, or_false, Prod.mk.injEq] at hi
    rcases hi with ⟨rfl, rfl⟩ | ⟨rfl, rfl⟩
    · exact absurd hlt (by decide)
    · obtain rfl := Except.ok.inj (hfirst.symm.trans hok)
      have hmem := hclosed rfl ⟨0, 1⟩ List.mem_cons_self (by decide)
      obtain rfl := hfront.eq_of_length_le (List.length_pos_of_mem hmem)
      exact hreported.trans (by decide)

end EvmBlocks
