import EvmBlocks.Block.Segment
import EvmBlocks.Proofs.InstructionMap

/-!
# EvmBlocks.Proofs.Replay

Segmenting as a replay of all offsets of the code.

The segmenter visits the entries of a map in their order and stops at the
first key beyond the code.  `InstructionMap.replay` knows nothing of an order:
it tries the offsets of the code one after another, asks the map for each of
them, and passes over those that have no instruction.  It has a state of its
own, in which the blocks are emitted oldest first and nothing is reported.

The entries in the code are the answers to all these questions
(`entriesInCode_eq_filterMap`), and a visit of the segmenter is one step of the
replay (`outcome_step`), so the two have the same outcome on every map,
well-formed or not (`segment_eq_replay`).
-/

namespace EvmBlocks

/-! ## the replay -/

/-- The block that a replay accumulates, and the blocks that it has emitted.
The end of the accumulated block is unresolved until an instruction has been met
since the block was opened. -/
structure Replay where
  start : Nat
  stop? : Option Nat
  emitted : List Block
  deriving DecidableEq, Repr

namespace Replay

/-- The empty block at offset 0, with its end resolved. -/
def initial : Replay := ⟨0, some 0, []⟩

/-- Emits the accumulated block if its end is resolved and it is not empty, and
opens a block at `start`. -/
def reopen (r : Replay) (start : Nat) : Replay where
  start := start
  stop? := none
  emitted := r.emitted ++ (r.stop?.filter (r.start < ·)).toList.map (Block.mk r.start)

/-- The emitted blocks and the accumulated one, empty or not, if its end is
resolved. -/
def finish (r : Replay) : List Block := r.emitted ++ r.stop?.toList.map (Block.mk r.start)

/-- Meets an instruction at an offset.  A block start opens a block at the offset;
the end of the accumulated block is resolved; a block end opens a block there. -/
def meet (r : Replay) (offset : Nat) (i : Instruction) : Except SegmentFault Replay :=
  if i.offset ≠ offset then .error (.offsetMismatch offset i.offset)
  else if maxOffset < offset + i.data.length + 1 then .error (.arithmetic .addOverflow)
  else
    let stop := offset + i.data.length + 1
    let started := if i.opcode.isBlockStart then r.reopen offset else r
    let resolved := { started with stop? := some stop }
    .ok (if i.opcode.isBlockEnd then resolved.reopen stop else resolved)

/-- Meets the instruction of an entry at its key. -/
def meetEntry (r : Replay) (e : Nat × Instruction) : Except SegmentFault Replay := r.meet e.1 e.2

end Replay

namespace InstructionMap

/-- Tries one offset: if there is an instruction, the replay meets it. -/
def offer (m : InstructionMap) (r : Replay) (offset : Nat) : Except SegmentFault Replay :=
  match m.get? offset with
  | some i => r.meet offset i
  | none => .ok r

/-- The basic blocks of a map, found by trying all offsets of its code. -/
def replay (m : InstructionMap) : Except SegmentFault (List Block) :=
  ((List.range m.codeLength).foldlM m.offer Replay.initial).map Replay.finish

/-! ## entries and offsets -/

/-- The entry under a key. -/
def entryAt? (m : InstructionMap) (key : Nat) : Option (Nat × Instruction) :=
  (m.get? key).map (Prod.mk key)

theorem entryAt?_eq_some_iff {m : InstructionMap} {key : Nat} {e : Nat × Instruction} :
    m.entryAt? key = some e ↔ e.1 = key ∧ m.get? key = some e.2 := by
  obtain ⟨k, i⟩ := e
  simp [entryAt?, and_comm, eq_comm]

/-- The entries in the code are what the offsets of the code have under them, in
their order. -/
theorem entriesInCode_eq_filterMap (m : InstructionMap) :
    m.entriesInCode = (List.range m.codeLength).filterMap m.entryAt? := by
  apply eq_of_ascending
  · exact pairwise_entriesInCode m
  · refine List.Pairwise.filterMap _ ?_ List.pairwise_lt_range
    intro a b hab e he e' he'
    rw [(entryAt?_eq_some_iff.mp he).1, (entryAt?_eq_some_iff.mp he').1]
    exact hab
  · intro e
    simp only [mem_entriesInCode, List.mem_filterMap, List.mem_range, entryAt?_eq_some_iff]
    constructor
    · rintro ⟨hmem, hlt⟩
      exact ⟨e.1, hlt, rfl, mem_toList_iff.mp hmem⟩
    · rintro ⟨key, hlt, rfl, hget⟩
      exact ⟨mem_toList_iff.mpr hget, hlt⟩

/-- Offsets without an instruction do nothing to a replay, so only the entries in
the code count. -/
theorem replay_eq_foldlM (m : InstructionMap) :
    m.replay =
      (m.entriesInCode.foldlM Replay.meetEntry Replay.initial).map Replay.finish := by
  rw [replay, entriesInCode_eq_filterMap, List.foldlM_filterMap]
  congr 2
  funext r offset
  unfold offer entryAt?
  cases m.get? offset <;> rfl

end InstructionMap

/-! ## the segmenter as a replay -/

namespace Segmenter

/-- The state of a segmentation without its journal. -/
def toReplay (s : Segmenter) : Replay := ⟨s.current.start, s.current.stop?, s.found.reverse⟩

theorem toReplay_initial (j : Journal) : (initial j).toReplay = Replay.initial := rfl

theorem toReplay_cutAt (s : Segmenter) (start : Nat) :
    (s.cutAt start).toReplay = s.toReplay.reopen start := by
  unfold cutAt close toReplay Replay.reopen
  cases s.current.stop? with
  | none => simp
  | some stop => by_cases h : s.current.start < stop <;> simp [h, emit, Option.filter]

theorem toReplay_extendTo (s : Segmenter) (stop : Nat) :
    (s.extendTo stop).toReplay = { s.toReplay with stop? := some stop } := rfl

theorem reverse_found_finish (s : Segmenter) : s.finish.found.reverse = s.toReplay.finish := by
  unfold finish toReplay Replay.finish
  cases s.current.stop? <;> simp [emit]

/-- How a visit or a run ends, seen as a replay. -/
def outcome : Segmenter × Option SegmentFault → Except SegmentFault Replay
  | (s, none) => .ok s.toReplay
  | (_, some fault) => .error fault

/-- **One step**: visiting an entry is meeting its instruction at its key. -/
theorem outcome_step (s : Segmenter) (key : Nat) (i : Instruction) :
    outcome (s.step key i) = s.toReplay.meet key i := by
  unfold step Replay.meet
  by_cases hkey : i.offset = key
  · subst hkey
    have hstop : i.stop = i.offset + i.data.length + 1 := by
      simp only [Instruction.stop, Instruction.size]
      omega
    by_cases hlt : maxOffset < i.stop
    · simp [Instruction.stop?_of_lt hlt, ← hstop, hlt, outcome]
    · rw [Instruction.stop?_of_le (Nat.le_of_not_lt hlt), ← hstop]
      cases hstart : i.opcode.isBlockStart <;> cases hend : i.opcode.isBlockEnd <;>
        simp [hlt, outcome, toReplay_cutAt, toReplay_extendTo]
  · simp [hkey, outcome]

/-- **A whole run**: visiting entries is meeting their instructions, up to the
first fault. -/
theorem outcome_run (s : Segmenter) (entries : List (Nat × Instruction)) :
    outcome (s.run entries) = entries.foldlM Replay.meetEntry s.toReplay := by
  induction entries generalizing s with
  | nil => rfl
  | cons e entries ih =>
      rw [List.foldlM_cons, Replay.meetEntry, ← outcome_step, run]
      rcases s.step e.1 e.2 with ⟨s', _ | fault⟩
      · exact ih s'
      · rfl

end Segmenter

namespace InstructionMap

/-- Whatever is reported, segmenting a map and replaying its offsets have the same
outcome. -/
theorem fst_segmentLogged (m : InstructionMap) (j : Journal) :
    (m.segmentLogged j).1 = m.replay := by
  rw [replay_eq_foldlM, ← Segmenter.toReplay_initial j, ← Segmenter.outcome_run]
  unfold segmentLogged
  split
  · next s fault hrun => rw [hrun]; rfl
  · next s hrun =>
    rw [hrun]
    exact congrArg Except.ok (Segmenter.reverse_found_finish s)

/-- A replay asks for nothing but the offsets of the code. -/
theorem replay_congr {m m' : InstructionMap} (hlen : m'.codeLength = m.codeLength)
    (hget : ∀ key < m.codeLength, m'.get? key = m.get? key) : m'.replay = m.replay := by
  have hentries : m'.entriesInCode = m.entriesInCode := by
    rw [entriesInCode_eq_filterMap, entriesInCode_eq_filterMap, hlen]
    apply List.filterMap_congr
    intro key hkey
    rw [entryAt?, entryAt?, hget key (List.mem_range.mp hkey)]
  rw [replay_eq_foldlM, replay_eq_foldlM, hentries]

end InstructionMap

/-- The segmenter implements the replay.  On every map, with whatever keys,
offsets, gaps and overlaps, the two find the same blocks, or stop with the same
mismatch or the same overflow; so what is stored beyond the code has no
influence. -/
theorem segment_eq_replay (m : InstructionMap) :
    m.segment = m.replay ∧
      ∀ m' : InstructionMap, m'.codeLength = m.codeLength →
        (∀ key < m.codeLength, m'.get? key = m.get? key) → m'.segment = m.segment := by
  refine ⟨m.fst_segmentLogged .silent, fun m' hlen hget => ?_⟩
  have hreplay := InstructionMap.replay_congr hlen hget
  rwa [← m'.fst_segmentLogged .silent, ← m.fst_segmentLogged .silent] at hreplay

/-- Twelve bytes of code with a `STOP` of eleven bytes, another `STOP` inside it, and
an `ADD` behind a gap. -/
def overlappingStops : InstructionMap :=
  (((InstructionMap.empty 12).insert 0 ⟨0, ⟨0x00⟩, [1, 2, 3, 4, 5, 6, 7, 8, 9, 10]⟩).insert
    3 ⟨3, ⟨0x00⟩, []⟩).insert 7 ⟨7, ⟨0x01⟩, []⟩

/-- The inner `STOP` leaves no block behind, and an entry beyond the code may have
any offset. -/
theorem segment_overlappingStops :
    (∀ key < overlappingStops.codeLength,
        (overlappingStops.insert 12 ⟨5, ⟨0x5b⟩, []⟩).get? key = overlappingStops.get? key) ∧
      overlappingStops.segment = .ok [⟨0, 11⟩, ⟨4, 8⟩] ∧
      (overlappingStops.insert 12 ⟨5, ⟨0x5b⟩, []⟩).segment = .ok [⟨0, 11⟩, ⟨4, 8⟩] := by
  obtain ⟨hreplay, hbeyond⟩ := segment_eq_replay overlappingStops
  have hkeys : ∀ key < overlappingStops.codeLength,
      (overlappingStops.insert 12 ⟨5, ⟨0x5b⟩, []⟩).get? key = overlappingStops.get? key := by
    decide +kernel
  have hblocks : overlappingStops.replay = .ok [⟨0, 11⟩, ⟨4, 8⟩] := by decide +kernel
  rw [← hreplay] at hblocks
  have hsame := hbeyond (overlappingStops.insert 12 ⟨5, ⟨0x5b⟩, []⟩) rfl hkeys
  exact ⟨hkeys, hblocks, hsame.trans hblocks⟩

end EvmBlocks
