import EvmBlocks.Block.Segment
import Std.Data.TreeMap

/-!
# EvmBlocks.Block.Layout

A list of blocks with an index from start offsets to blocks.

The index is determined by the blocks, so two layouts are equal when their
blocks are.  A block is identified by its position in the list; of two blocks
with one start, the index knows the later one.
-/

namespace EvmBlocks

/-- The position of each block under its start; later blocks win. -/
def Block.indexStarts (blocks : List Block) : Std.TreeMap Nat Nat :=
  blocks.zipIdx.foldl (fun index entry => index.insert entry.1.start entry.2) ∅

/-- Blocks together with the index of their starts. -/
structure Layout where
  blocks : Array Block
  starts : Std.TreeMap Nat Nat
  starts_eq : starts = Block.indexStarts blocks.toList

namespace Layout

/-- The layout of a list of blocks, in any order. -/
def ofBlocks (blocks : List Block) : Layout := ⟨blocks.toArray, Block.indexStarts blocks, rfl⟩

/-- The layout without blocks. -/
def empty : Layout := ofBlocks []

/-- The layout of the basic blocks of a map. -/
def build (m : InstructionMap) : Except SegmentFault Layout := m.segment.map ofBlocks

/-- The number of blocks. -/
def size (l : Layout) : Nat := l.blocks.size

/-- There are no blocks. -/
def isEmpty (l : Layout) : Bool := l.blocks.isEmpty

/-- The block at a position. -/
def get? (l : Layout) (id : Nat) : Option Block := l.blocks[id]?

/-- The position of the block that contains an offset.  Only the block with the
greatest start that is not beyond the offset is considered. -/
def blockAt? (l : Layout) (offset : Nat) : Option Nat :=
  match l.starts.getEntryLE? offset with
  | none => none
  | some (_, id) => if (l.get? id).any (·.contains offset) then some id else none

@[simp] theorem blocks_ofBlocks (blocks : List Block) :
    (ofBlocks blocks).blocks = blocks.toArray := rfl

/-- Layouts with the same blocks are equal. -/
@[ext] theorem ext {a b : Layout} (h : a.blocks = b.blocks) : a = b := by
  obtain ⟨blocks, starts, rfl⟩ := a
  obtain ⟨blocks', starts', rfl⟩ := b
  cases h
  rfl

instance : DecidableEq Layout := fun a b =>
  decidable_of_iff (a.blocks = b.blocks) ⟨ext, congrArg blocks⟩

end Layout

end EvmBlocks
