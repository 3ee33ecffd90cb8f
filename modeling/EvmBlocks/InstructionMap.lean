import EvmBlocks.Instruction
import Std.Data.TreeMap

/-!
# EvmBlocks.InstructionMap

Instructions stored under offsets, for a code of known length.

The key is the offset under which an instruction is looked up; it is taken as
given, and may differ from the offset that the instruction itself carries.
`toList` lists the entries in ascending order of their keys, and the other
views are read off it.
-/

namespace EvmBlocks

/-- Instructions by key, for a code of `codeLength` bytes. -/
structure InstructionMap where
  codeLength : Nat
  entries : Std.TreeMap Nat Instruction

namespace InstructionMap

/-- The map without entries. -/
def empty (codeLength : Nat) : InstructionMap := ⟨codeLength, ∅⟩

/-- Stores an instruction under a key, in place of the one that is there. -/
def insert (m : InstructionMap) (key : Nat) (i : Instruction) : InstructionMap :=
  { m with entries := m.entries.insert key i }

/-- The instruction under a key. -/
def get? (m : InstructionMap) (key : Nat) : Option Instruction := m.entries[key]?

/-- Stores an instruction and returns the one that it replaces. -/
def exchange (m : InstructionMap) (key : Nat) (i : Instruction) :
    Option Instruction × InstructionMap :=
  (m.get? key, m.insert key i)

/-- Some instruction is stored under the key. -/
def contains (m : InstructionMap) (key : Nat) : Bool := m.entries.contains key

/-- The number of entries. -/
def size (m : InstructionMap) : Nat := m.entries.size

/-- The map has no entries. -/
def isEmpty (m : InstructionMap) : Bool := m.entries.isEmpty

/-- The entries in ascending order of their keys. -/
def toList (m : InstructionMap) : List (Nat × Instruction) := m.entries.toList

/-- The instructions in ascending order of their keys. -/
def instructions (m : InstructionMap) : List Instruction := m.toList.map Prod.snd

/-- The instructions whose keys are at least `start` and below `stop`, in
ascending order.  Bounds that are inverted are those of an empty range. -/
def range (m : InstructionMap) (start stop : Nat) : List Instruction :=
  m.entries[start...(max stop start)].toList.map Prod.snd

/-- The entries whose keys lie in the code, in ascending order. -/
def entriesInCode (m : InstructionMap) : List (Nat × Instruction) :=
  m.toList.takeWhile fun entry => entry.1 < m.codeLength

/-! ## What each operation does -/

@[simp] theorem codeLength_empty (n : Nat) : (empty n).codeLength = n := rfl

@[simp] theorem toList_empty (n : Nat) : (empty n).toList = [] := rfl

@[simp] theorem codeLength_insert (m : InstructionMap) (key : Nat) (i : Instruction) :
    (m.insert key i).codeLength = m.codeLength := rfl

@[simp] theorem get?_empty (n key : Nat) : (empty n).get? key = none := by
  simp [empty, get?]

theorem get?_insert (m : InstructionMap) (key : Nat) (i : Instruction) (k : Nat) :
    (m.insert key i).get? k = if key = k then some i else m.get? k := by
  simp [insert, get?, Std.TreeMap.getElem?_insert]

theorem mem_toList_iff {m : InstructionMap} {key : Nat} {i : Instruction} :
    (key, i) ∈ m.toList ↔ m.get? key = some i :=
  Std.TreeMap.mem_toList_iff_getElem?_eq_some

theorem contains_eq_isSome_get? (m : InstructionMap) (key : Nat) :
    m.contains key = (m.get? key).isSome :=
  Std.TreeMap.contains_eq_isSome_getElem?

theorem length_toList (m : InstructionMap) : m.toList.length = m.size :=
  Std.TreeMap.length_toList

/-- The keys of the entries ascend strictly. -/
theorem pairwise_toList (m : InstructionMap) :
    m.toList.Pairwise fun a b => a.1 < b.1 := by
  have h := Std.TreeMap.ordered_keys_toList (t := m.entries)
  exact h.imp fun hab => Nat.compare_eq_lt.mp hab

/-- A range is the part of the entries whose keys lie in it. -/
theorem range_eq (m : InstructionMap) (start stop : Nat) :
    m.range start stop =
      (m.toList.filter fun e => decide (start ≤ e.1 ∧ e.1 < stop)).map Prod.snd := by
  unfold range
  rw [Std.TreeMap.toList_rco compare]
  congr 1
  apply List.filter_congr
  intro e _
  have hclamp : (start ≤ e.1 ∧ e.1 < max stop start) ↔ (start ≤ e.1 ∧ e.1 < stop) := by omega
  simp only [Std.isGE_compare, Ordering.isLT_iff_eq_lt, Nat.compare_eq_lt, hclamp]

end InstructionMap

end EvmBlocks
