import EvmBlocks.InstructionMap
import EvmBlocks.Journal

/-!
# EvmBlocks.Block.Segment

Cutting an instruction map into basic blocks.

The entries whose keys lie in the code are visited in ascending order, with
one block open at any time.  A jump destination closes the open block and
opens one at its own offset; every instruction extends the open block to its
own end; a jump or a halt closes the open block and opens one behind it.  A
block is closed into the result only if it has offsets, except that the block
still open after the last entry is always kept once its end is known.  At the
start, the open block is the empty one at offset 0.

The map is not trusted: an entry whose key differs from the offset of its
instruction, and an instruction that ends beyond the greatest offset, stop the
segmentation.
-/

namespace EvmBlocks

/-- Why a map cannot be segmented. -/
inductive SegmentFault where
  /-- An instruction is stored under a key that is not its offset. -/
  | offsetMismatch (key offset : Nat)
  /-- The end of an instruction is not an offset. -/
  | arithmetic (fault : ArithmeticFault)
  deriving DecidableEq, Repr

/-- The text that reports a segmentation fault. -/
def SegmentFault.message : SegmentFault → String
  | .offsetMismatch key offset =>
      "instruction map key " ++ Numeral.hex key ++ " holds an instruction at offset " ++
        Numeral.hex offset
  | .arithmetic fault => fault.message

/-- A block under construction.  Its end is unknown until an instruction has
been added to it. -/
structure OpenBlock where
  start : Nat
  stop? : Option Nat
  deriving DecidableEq, Repr

/-- The state of a segmentation: the open block, the blocks found so far,
newest first, and the journal. -/
structure Segmenter where
  current : OpenBlock
  found : List Block
  journal : Journal
  deriving DecidableEq, Repr

namespace Segmenter

/-- Before the first entry. -/
def initial (j : Journal) : Segmenter := ⟨⟨0, some 0⟩, [], j⟩

/-- Adds a block to the result and reports it. -/
def emit (s : Segmenter) (b : Block) : Segmenter :=
  { s with found := b :: s.found, journal := s.journal.record (.block b) }

/-- Keeps the open block if it has offsets. -/
def close (s : Segmenter) : Segmenter :=
  match s.current.stop? with
  | some stop => if s.current.start < stop then s.emit ⟨s.current.start, stop⟩ else s
  | none => s

/-- Keeps the open block if its end is known. -/
def finish (s : Segmenter) : Segmenter :=
  match s.current.stop? with
  | some stop => s.emit ⟨s.current.start, stop⟩
  | none => s

/-- Closes the open block and opens one at `start`. -/
def cutAt (s : Segmenter) (start : Nat) : Segmenter :=
  { s.close with current := ⟨start, none⟩ }

/-- Moves the end of the open block. -/
def extendTo (s : Segmenter) (stop : Nat) : Segmenter :=
  { s with current := ⟨s.current.start, some stop⟩ }

/-- Visits one entry of the map.  With a fault comes the state in which it was
found: a jump destination whose end is not an offset has closed the open block. -/
def step (s : Segmenter) (key : Nat) (i : Instruction) : Segmenter × Option SegmentFault :=
  if i.offset ≠ key then (s, some (.offsetMismatch key i.offset))
  else
    let s := if i.opcode.isBlockStart then s.cutAt key else s
    match i.stop? with
    | .error fault => (s, some (.arithmetic fault))
    | .ok stop =>
        let s := s.extendTo stop
        (if i.opcode.isBlockEnd then s.cutAt stop else s, none)

/-- Visits entries until one of them has a fault. -/
def run (s : Segmenter) : List (Nat × Instruction) → Segmenter × Option SegmentFault
  | [] => (s, none)
  | (key, i) :: rest =>
      match s.step key i with
      | (s, some fault) => (s, some fault)
      | (s, none) => s.run rest

end Segmenter

namespace InstructionMap

/-- The basic blocks of a map, with a report. -/
def segmentLogged (j : Journal) (m : InstructionMap) :
    Except SegmentFault (List Block) × Journal :=
  match (Segmenter.initial j).run m.entriesInCode with
  | (s, some fault) => (.error fault, s.journal)
  | (s, none) =>
      let s := s.finish
      (.ok s.found.reverse, s.journal.record (.segmented m.size s.found.length))

/-- The basic blocks of a map. -/
def segment (m : InstructionMap) : Except SegmentFault (List Block) :=
  (m.segmentLogged .silent).1

end InstructionMap

end EvmBlocks
