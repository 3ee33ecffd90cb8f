import EvmBlocks.Proofs.Opcode
import EvmBlocks.Proofs.Program

/-!
# EvmBlocks.Proofs.Safety

An analysis of a code that fits into memory cannot go wrong.

`decode` counts with natural numbers and takes and drops bytes, so nothing in it
can fail.  A machine reads by position: it looks up the byte at an offset, cuts
the operand out between two bounds, and adds offsets in words of fixed width.
`Cursor.advance` is one round of such a reader, with a fault for every access
outside the code and every sum that does not fit; `Ends` is its loop.  The
reader comes to an end without a fault, with the map that `decode` finds
(`ends_iff`), and neither the segmentation of that map nor the length of a block
has a fault.
-/

namespace EvmBlocks

/-- The greatest length of a code: the bytes of one object in memory are counted
with a sign. -/
def maxCodeLength : Nat := 0x7fffffffffffffff

/-- No opcode asks for more than 32 operand bytes. -/
theorem Opcode.immediateSize_le (op : Opcode) : op.immediateSize ≤ 32 := by
  rw [op.immediateSize_eq]
  split <;> omega

namespace Decode

/-! ## a reader by position -/

/-- Why a reader stops inside the code. -/
inductive ReadFault where
  /-- The code has no byte at the offset. -/
  | index (offset length : Nat)
  /-- The bounds are not those of a part of the code. -/
  | slice (start stop length : Nat)
  /-- A sum is not an offset. -/
  | arithmetic (fault : ArithmeticFault)
  deriving DecidableEq, Repr

/-- The byte at an offset. -/
def byteAt (code : List UInt8) (offset : Nat) : Except ReadFault UInt8 :=
  match code[offset]? with
  | some byte => .ok byte
  | none => .error (.index offset code.length)

/-- The bytes between two bounds. -/
def slice (code : List UInt8) (start stop : Nat) : Except ReadFault (List UInt8) :=
  if start ≤ stop ∧ stop ≤ code.length then .ok (code.extract start stop)
  else .error (.slice start stop code.length)

/-- The sum of two sizes or offsets. -/
def sum (a b : Nat) : Except ReadFault Nat := (Checked.add maxOffset a b).mapError .arithmetic

/-- A place in the code, and the instructions in front of it. -/
structure Cursor where
  offset : Nat
  found : InstructionMap

namespace Cursor

/-- In front of the first byte. -/
def start (code : List UInt8) : Cursor := ⟨0, .empty code.length⟩

/-- Reads the instruction at the cursor.  The sizes of the instruction and of a
complete one are compared to tell whether it is cut short. -/
def advance (code : List UInt8) (c : Cursor) : Except ReadFault Cursor := do
  let opcode : Opcode := ⟨← byteAt code c.offset⟩
  let first ← sum c.offset 1
  let last ← sum first opcode.immediateSize
  let data ← slice code first (min last code.length)
  let size ← sum 1 data.length
  let _ ← sum 1 opcode.immediateSize
  let next ← sum c.offset size
  return ⟨next, c.found.insert c.offset ⟨c.offset, opcode, data⟩⟩

end Cursor

/-- The loop of a reader: while the cursor is in the code, it advances. -/
inductive Ends (code : List UInt8) : Cursor → Except ReadFault InstructionMap → Prop where
  | finished {c : Cursor} (h : code.length ≤ c.offset) : Ends code c (.ok c.found)
  | faulted {c : Cursor} {fault : ReadFault} (h : c.offset < code.length)
      (hfault : c.advance code = .error fault) : Ends code c (.error fault)
  | advanced {c c' : Cursor} {result : Except ReadFault InstructionMap}
      (h : c.offset < code.length) (hnext : c.advance code = .ok c')
      (hrest : Ends code c' result) : Ends code c result

/-- A reader ends in at most one way. -/
theorem Ends.unique {code : List UInt8} {c : Cursor} {r r' : Except ReadFault InstructionMap}
    (h : Ends code c r) (h' : Ends code c r') : r = r' := by
  induction h with
  | finished hend => cases h' <;> first | rfl | omega
  | faulted hlt hfault => cases h' <;> grind
  | advanced hlt hnext hrest ih => cases h' <;> grind

theorem sum_of_le {a b : Nat} (h : a + b ≤ maxOffset) : sum a b = .ok (a + b) := by
  rw [sum, Checked.add_of_le h]
  rfl

theorem slice_append (pre data rest : List UInt8) :
    slice (pre ++ (data ++ rest)) pre.length (pre.length + data.length) = .ok data := by
  have hbounds : pre.length ≤ pre.length + data.length ∧
      pre.length + data.length ≤ (pre ++ (data ++ rest)).length := by
    simp only [List.length_append]
    omega
  rw [slice, if_pos hbounds, List.extract_eq_take_drop, List.drop_left, Nat.add_sub_cancel_left,
    List.take_left]

/-- **One round**: in front of an operation, the cursor moves behind it. -/
theorem advance_operation {code pre rest : List UInt8} {op : Operation} (m : InstructionMap)
    (hcode : code = pre ++ (op.encode ++ rest))
    (hdata : (op.2 ++ rest).take op.1.immediateSize = op.2)
    (hlen : code.length ≤ maxCodeLength) :
    (Cursor.mk pre.length m).advance code =
      .ok ⟨pre.length + op.encode.length, m.insert pre.length ⟨pre.length, op.1, op.2⟩⟩ := by
  have hencode : op.encode.length = 1 + op.2.length := by
    simp [Operation.encode, Nat.add_comm]
  have hlength : code.length = pre.length + (op.encode.length + rest.length) := by
    simp [hcode]
  have hwidth : min op.1.immediateSize (op.2.length + rest.length) = op.2.length := by
    rw [← List.length_append, ← List.length_take, hdata]
  -- 64 is more than what is added to an offset of the code in any of the sums.
  have hmax : maxCodeLength + 64 ≤ maxOffset := by decide
  have himmediate := op.1.immediateSize_le
  have hbyte : byteAt code pre.length = .ok op.1.byte := by
    simp [byteAt, hcode, Operation.encode]
  have hfirst : sum pre.length 1 = .ok (pre.length + 1) := sum_of_le (by omega)
  have hnominal : sum (pre.length + 1) op.1.immediateSize =
      .ok (pre.length + 1 + op.1.immediateSize) := sum_of_le (by omega)
  have hlast : min (pre.length + 1 + op.1.immediateSize) code.length =
      pre.length + 1 + op.2.length := by omega
  have hslice : slice code (pre.length + 1) (pre.length + 1 + op.2.length) = .ok op.2 := by
    have happend := slice_append (pre ++ [op.1.byte]) op.2 rest
    simpa [hcode, Operation.encode] using happend
  have hsize : sum 1 op.2.length = .ok (1 + op.2.length) := sum_of_le (by omega)
  have hcomplete : sum 1 op.1.immediateSize = .ok (1 + op.1.immediateSize) :=
    sum_of_le (by omega)
  have hnext : sum pre.length (1 + op.2.length) = .ok (pre.length + op.encode.length) := by
    rw [hencode]
    exact sum_of_le (by omega)
  simp only [Cursor.advance, hbyte, hfirst, hnominal, hlast, hslice, hsize, hcomplete, hnext, bind,
    Except.bind]
  rfl

/-- **A whole loop**: in front of some operations, the reader ends behind them. -/
theorem ends_assemble {code : List UInt8} (pre : List UInt8) {ops : List Operation}
    (m : InstructionMap)
    (hcode : code = pre ++ assemble ops) (hfit : Fitting ops)
    (hlen : code.length ≤ maxCodeLength) :
    Ends code ⟨pre.length, m⟩ (.ok (m.insertAll (place pre.length ops))) := by
  induction ops generalizing pre m with
  | nil =>
      refine Ends.finished ?_
      simp [hcode]
  | cons op ops ih =>
      rw [assemble_cons] at hcode
      have hlt : pre.length < code.length := by
        simp [hcode, Operation.encode]
      have hrest := ih (pre ++ op.encode)
        (m.insert pre.length ⟨pre.length, op.1, op.2⟩) (by simp [hcode]) hfit.2.2
      rw [List.length_append] at hrest
      exact Ends.advanced hlt (advance_operation m hcode hfit.take_operand hlen) hrest

/-- A reader of a code ends in one way: without a fault, with the instructions of
the code. -/
theorem ends_iff {code : List UInt8} (hlen : code.length ≤ maxCodeLength)
    (result : Except ReadFault InstructionMap) :
    Ends code (Cursor.start code) result ↔ result = .ok (decode code) := by
  have hends : Ends code (Cursor.start code) (.ok (decode code)) := by
    obtain ⟨ops, hfit, rfl⟩ := exists_assembly code
    rw [decode, fst_decodeLogged_assemble .silent hfit]
    exact ends_assemble [] _ rfl hfit hlen
  constructor
  · exact fun h => h.unique hends
  · rintro rfl
    exact hends

end Decode

/-- Nothing goes wrong in the analysis of a code that fits into memory.  A reader
by position, with every access and every sum checked, ends without a fault and
finds the instructions of the code; the analysis has a result, whatever is
reported about it; the end of every instruction is an offset; and the length of
every block exists. -/
theorem analyze_never_faults (code : List UInt8) (hlen : code.length ≤ maxCodeLength) :
    (∀ result, Decode.Ends code (.start code) result ↔ result = .ok (decode code)) ∧
      ∃ p, Program.analyze code = .ok p ∧ (∀ j, (Program.analyzeLogged j code).1 = .ok p) ∧
        p.instructions = decode code ∧
        (∀ i ∈ p.instructions.instructions, i.stop? = .ok i.stop) ∧
        ∀ b ∈ p.blocks, b.length? = .ok (b.stop - b.start) := by
  have hmax : code.length ≤ maxOffset := Nat.le_trans hlen (by decide)
  have htiles := tiles_decode code
  refine ⟨Decode.ends_iff hlen, _, Program.analyze_eq hmax, Program.fst_analyzeLogged hmax, rfl,
    fun i hi => ?_, fun b hb => ?_⟩
  · exact Instruction.stop?_of_le (Nat.le_trans (htiles.bounds i hi).2 hmax)
  · exact Checked.sub_of_le (start_le_stop_of_mem_basicBlocks htiles b hb)

/-- A `PUSH32` with one byte of its operand, behind a `JUMPDEST`: the nominal end
of the operand lies far beyond the code. -/
theorem analyze_never_faults_short_push :
    ([0x5b, 0x7f, 0x5b] : List UInt8).length ≤ maxCodeLength ∧
      Decode.Ends [0x5b, 0x7f, 0x5b] (.start [0x5b, 0x7f, 0x5b])
        (.ok (decode [0x5b, 0x7f, 0x5b])) ∧
      ∃ p, Program.analyze [0x5b, 0x7f, 0x5b] = .ok p ∧
        ∀ b ∈ p.blocks, b.length? = .ok (b.stop - b.start) := by
  have hlen : ([0x5b, 0x7f, 0x5b] : List UInt8).length ≤ maxCodeLength := by decide
  obtain ⟨hends, p, hp, -, -, -, hblocks⟩ := analyze_never_faults _ hlen
  exact ⟨hlen, (hends _).mpr rfl, p, hp, hblocks⟩

end EvmBlocks
