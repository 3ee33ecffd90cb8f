import EvmBlocks.Decode
import EvmBlocks.Proofs.Assembly
import EvmBlocks.Proofs.InstructionMap

/-!
# EvmBlocks.Proofs.Decode

Decoding and assembling are inverse to each other.

The scan of a decoder is followed along the operations of which the code is
the assembly: each operation is one step of the scan, whatever bytes its
operand holds (`Decode.scan_cons_operation`), and so a scan stores the placed
operations and nothing else (`Decode.scan_assemble`).  Since every code is an
assembly, this describes `decode` on every code.

* `decode_lossless`: the instructions of a code tile it, spell it out, and all
  but the last have complete operands;
* `decode_assemble`: decoding recovers fitting operations from their assembly.
-/

namespace EvmBlocks

/-! ## instructions stored under their offsets -/

/-- The entry that files an instruction under its own offset. -/
def Instruction.entry (i : Instruction) : Nat × Instruction := (i.offset, i)

/-- Files instructions under their own offsets. -/
def InstructionMap.insertAll (m : InstructionMap) (is : List Instruction) : InstructionMap :=
  is.foldl (fun m i => m.insert i.offset i) m

theorem InstructionMap.insertAll_cons (m : InstructionMap) (i : Instruction)
    (is : List Instruction) : m.insertAll (i :: is) = (m.insert i.offset i).insertAll is := rfl

/-- Tiling instructions behind all entries of a map are listed after them, in
their order. -/
theorem InstructionMap.toList_insertAll {is : List Instruction} {start stop : Nat}
    {m : InstructionMap} (h : Tiles start is stop) (hm : ∀ e ∈ m.toList, e.1 < start) :
    (m.insertAll is).toList = m.toList ++ is.map Instruction.entry := by
  induction is generalizing m start with
  | nil => simp [insertAll]
  | cons i is ih =>
      obtain ⟨rfl, his⟩ := tiles_cons.mp h
      have hlist := toList_insert_of_lt i hm
      have hbelow : ∀ e ∈ (m.insert i.offset i).toList, e.1 < i.stop := by
        intro e he
        rw [hlist, List.mem_append, List.mem_singleton] at he
        have hi := i.offset_lt_stop
        cases he with
        | inl hold => exact Nat.lt_trans (hm e hold) hi
        | inr hnew => rw [hnew]; exact hi
      rw [insertAll_cons, ih his hbelow, hlist, List.append_assoc, List.singleton_append,
        List.map_cons, Instruction.entry]

/-! ## the scan -/

namespace Decode

/-- **One step**: the scan reads exactly the first of some fitting operations,
and goes on with the code of the others. -/
theorem scan_cons_operation (offset : Nat) (m : InstructionMap) (j : Journal)
    {op : Operation} {ops : List Operation} (h : Fitting (op :: ops)) :
    scan offset 0 m j (assemble (op :: ops)) =
      scan (offset + op.encode.length) 0 (m.insert offset ⟨offset, op.1, op.2⟩)
        (remark j ⟨offset, op.1, op.2⟩) (assemble ops) := by
  have hread : instructionAt offset op.1.byte (op.2 ++ assemble ops) = ⟨offset, op.1, op.2⟩ := by
    unfold instructionAt
    rw [h.take_operand]
  rw [assemble_cons, Operation.encode, List.cons_append, scan_cons, hread]
  simp only
  rw [h.drop_operand]
  by_cases hops : ops = []
  · simp [hops, scan]
  · have hsize : op.1.size = (op.1.byte :: op.2).length := by
      rw [Opcode.size_eq, ← h.2.1 hops, List.length_cons, Nat.add_comm]
    rw [hsize]

/-- **A whole run**: the scan of an assembly files the placed operations, and
remarks on each of them. -/
theorem scan_assemble (offset : Nat) (m : InstructionMap) (j : Journal)
    {ops : List Operation} (h : Fitting ops) :
    scan offset 0 m j (assemble ops) =
      (m.insertAll (place offset ops), (place offset ops).foldl remark j) := by
  induction ops generalizing offset m j with
  | nil => rfl
  | cons op ops ih =>
      rw [scan_cons_operation offset m j h, ih _ _ _ h.2.2, place,
        InstructionMap.insertAll_cons, List.foldl_cons]

@[simp] theorem remark_silent (i : Instruction) : remark .silent i = .silent := by
  simp [remark]

theorem snd_scan_silent (offset skip : Nat) (m : InstructionMap) (code : List UInt8) :
    (scan offset skip m .silent code).2 = .silent := by
  induction code generalizing offset skip m with
  | nil => rfl
  | cons byte rest ih => cases skip <;> simp [scan, ih]

end Decode

/-! ## decoded assemblies -/

theorem fst_decodeLogged_assemble (j : Journal) {ops : List Operation} (h : Fitting ops) :
    (decodeLogged j (assemble ops)).1 =
      (InstructionMap.empty (assemble ops).length).insertAll (place 0 ops) :=
  congrArg Prod.fst (Decode.scan_assemble 0 (.empty (assemble ops).length) j h)

/-- What is reported about a decoding does not change its result. -/
theorem fst_decodeLogged (j : Journal) (code : List UInt8) :
    (decodeLogged j code).1 = decode code := by
  obtain ⟨ops, hfit, rfl⟩ := exists_assembly code
  exact (fst_decodeLogged_assemble j hfit).trans (fst_decodeLogged_assemble .silent hfit).symm

theorem snd_decodeLogged_silent (code : List UInt8) : (decodeLogged .silent code).2 = .silent := by
  simp [decodeLogged, Decode.snd_scan_silent]

theorem toList_decode_assemble {ops : List Operation} (h : Fitting ops) :
    (decode (assemble ops)).toList = (place 0 ops).map Instruction.entry := by
  have hlist := InstructionMap.toList_insertAll (m := .empty (assemble ops).length)
    (tiles_place 0 ops) (by simp)
  rw [decode, fst_decodeLogged_assemble .silent h]
  simpa using hlist

theorem instructions_decode_assemble {ops : List Operation} (h : Fitting ops) :
    (decode (assemble ops)).instructions = place 0 ops := by
  rw [InstructionMap.instructions, toList_decode_assemble h, List.map_map]
  exact List.map_id _

/-! ## decoded maps tile their code -/

theorem tiles_decode (code : List UInt8) : Tiles 0 (decode code).instructions code.length := by
  obtain ⟨ops, hfit, rfl⟩ := exists_assembly code
  have htiles := tiles_place 0 ops
  rwa [Nat.zero_add, ← instructions_decode_assemble hfit] at htiles

theorem toList_decode (code : List UInt8) :
    (decode code).toList = (decode code).instructions.map Instruction.entry := by
  obtain ⟨ops, hfit, rfl⟩ := exists_assembly code
  rw [instructions_decode_assemble hfit, toList_decode_assemble hfit]

/-- The instruction under a key of a decoded map is the one at this offset. -/
theorem get?_decode_eq_some_iff {code : List UInt8} {offset : Nat} {i : Instruction} :
    (decode code).get? offset = some i ↔ i ∈ (decode code).instructions ∧ i.offset = offset := by
  rw [← InstructionMap.mem_toList_iff, toList_decode]
  simp only [List.mem_map, Instruction.entry, Prod.mk.injEq]
  constructor
  · rintro ⟨j, hj, hoffset, rfl⟩
    exact ⟨hj, hoffset⟩
  · rintro ⟨hi, hoffset⟩
    exact ⟨i, hi, hoffset, rfl⟩

theorem instructions_decode_eq_nil_iff {code : List UInt8} :
    (decode code).instructions = [] ↔ code = [] := by
  obtain ⟨ops, hfit, rfl⟩ := exists_assembly code
  rw [instructions_decode_assemble hfit, assemble_eq_nil_iff]
  cases ops <;> simp [place]

/-- All instructions of a code lie in it. -/
theorem entriesInCode_decode (code : List UInt8) :
    (decode code).entriesInCode = (decode code).toList := by
  apply InstructionMap.entriesInCode_eq_toList
  intro e he
  rw [toList_decode] at he
  obtain ⟨i, hi, rfl⟩ := List.mem_map.mp he
  rw [codeLength_decode]
  exact Nat.lt_of_lt_of_le i.offset_lt_stop ((tiles_decode code).bounds i hi).2

theorem inCode_decode (code : List UInt8) : (decode code).inCode = (decode code).instructions := by
  rw [InstructionMap.inCode, entriesInCode_decode, InstructionMap.instructions]

theorem tilesCode_decode (code : List UInt8) : (decode code).TilesCode where
  key_eq := by
    rw [entriesInCode_decode, toList_decode]
    intro e he
    obtain ⟨i, -, rfl⟩ := List.mem_map.mp he
    rfl
  tiles := by
    rw [inCode_decode, codeLength_decode]
    exact tiles_decode code

/-! ## nothing is lost -/

/-- Placed operations spell out their assembly. -/
theorem flatMap_encode_place (offset : Nat) (ops : List Operation) :
    (place offset ops).flatMap Instruction.encode = assemble ops := by
  induction ops generalizing offset with
  | nil => rfl
  | cons op ops ih =>
      rw [place, List.flatMap_cons, ih, assemble_cons]
      rfl

/-- The instructions of a code spell it out. -/
theorem flatMap_encode_decode (code : List UInt8) :
    (decode code).instructions.flatMap Instruction.encode = code := by
  obtain ⟨ops, hfit, rfl⟩ := exists_assembly code
  rw [instructions_decode_assemble hfit, flatMap_encode_place]

/-- The byte of a code at the offset of an instruction is its opcode. -/
theorem getElem?_offset_of_mem_decode {code : List UInt8} {i : Instruction}
    (h : i ∈ (decode code).instructions) : code[i.offset]? = some i.opcode.byte := by
  have htiles := tiles_decode code
  have hcode := flatMap_encode_decode code
  obtain ⟨xs, ys, his⟩ := List.append_of_mem h
  rw [his] at htiles hcode
  obtain ⟨mid, hxs, hrest⟩ := tiles_append.mp htiles
  obtain ⟨rfl, -⟩ := tiles_cons.mp hrest
  have hoffset := hxs.add_length_encode
  rw [← hcode, List.flatMap_append]
  simp [← hoffset, Instruction.encode]

/-- The operations of a code, wherever they are, fit. -/
theorem fitting_decode (code : List UInt8) :
    Fitting ((decode code).instructions.map Instruction.operation) := by
  obtain ⟨ops, hfit, rfl⟩ := exists_assembly code
  rwa [instructions_decode_assemble hfit, map_operation_place]

/-- All instructions of a code but the last have complete operands, and the
last has no more operand bytes than its opcode asks for. -/
theorem length_data_decode (code : List UInt8) :
    (∀ i ∈ (decode code).instructions.dropLast, i.data.length = i.opcode.immediateSize) ∧
      ∀ i ∈ (decode code).instructions.getLast?, i.data.length ≤ i.opcode.immediateSize := by
  obtain ⟨hfull, hlast⟩ := fitting_iff.mp (fitting_decode code)
  rw [← List.map_dropLast] at hfull
  rw [List.getLast?_map] at hlast
  constructor
  · intro i hi
    exact hfull i.operation (List.mem_map_of_mem hi)
  · intro i hi
    exact hlast i.operation (Option.mem_map_of_mem _ hi)

/-- The operand of an instruction is complete, or the instruction is the last one and the
code ends inside its operand. -/
theorem length_data_eq_or_truncated {code : List UInt8} {i : Instruction}
    (h : i ∈ (decode code).instructions) :
    i.data.length = i.opcode.immediateSize ∨
      (decode code).instructions.getLast? = some i ∧ i.isTruncated = true := by
  obtain ⟨hfull, hlast⟩ := length_data_decode code
  have hne := List.ne_nil_of_mem h
  rw [← List.dropLast_append_getLast hne, List.mem_append, List.mem_singleton] at h
  cases h with
  | inl hfront => exact .inl (hfull i hfront)
  | inr hend =>
      have hmem : (decode code).instructions.getLast? = some i := by
        rw [hend, List.getLast?_eq_some_getLast hne]
      rw [and_iff_right hmem, Instruction.isTruncated_iff]
      have hle := hlast i hmem
      omega

/-- Decoding keeps every byte of a code in its place.  Keys are offsets; the
first instruction is at the start of the code, each ends where the next one
begins, and the last ends with the code; their bytes in order are the code;
and only the last operand can be incomplete. -/
theorem decode_lossless (code : List UInt8) :
    (∀ e ∈ (decode code).toList, e.1 = e.2.offset) ∧
      ((decode code).instructions = [] ↔ code = []) ∧
      (∀ i ∈ (decode code).instructions.head?, i.offset = 0) ∧
      (decode code).instructions.IsChain (fun i j => i.stop = j.offset) ∧
      (∀ i ∈ (decode code).instructions.getLast?, i.stop = code.length) ∧
      (code.length ≤ maxOffset → ∀ i ∈ (decode code).instructions, i.stop? = .ok i.stop) ∧
      (decode code).instructions.flatMap Instruction.encode = code ∧
      (∀ i ∈ (decode code).instructions.dropLast, i.data.length = i.opcode.immediateSize) ∧
      (∀ i ∈ (decode code).instructions.getLast?, i.data.length ≤ i.opcode.immediateSize) ∧
      (∀ i ∈ (decode code).instructions.dropLast, i.isTruncated = false) ∧
      (decode code).codeLength = code.length := by
  have htiles := tiles_decode code
  obtain ⟨hfull, hlast⟩ := length_data_decode code
  refine ⟨?_, instructions_decode_eq_nil_iff, htiles.offset_head, htiles.isChain,
    htiles.stop_getLast, ?_, flatMap_encode_decode code, hfull, hlast, ?_, codeLength_decode code⟩
  · rw [← entriesInCode_decode]
    exact (tilesCode_decode code).key_eq
  · intro hlen i hi
    exact Instruction.stop?_of_le (Nat.le_trans (htiles.bounds i hi).2 hlen)
  · intro i hi
    rw [← Bool.not_eq_true, Instruction.isTruncated_iff, hfull i hi]
    exact Nat.lt_irrefl _

/-- `PUSH2 0x5b00` and a `PUSH1` without its operand byte. -/
theorem decode_lossless_short_push :
    ([0x61, 0x5b, 0x00, 0x60] : List UInt8).length ≤ maxOffset ∧
      ∀ i ∈ (decode [0x61, 0x5b, 0x00, 0x60]).instructions, i.stop? = .ok i.stop :=
  ⟨by decide, (decode_lossless [0x61, 0x5b, 0x00, 0x60]).2.2.2.2.2.1 (by decide)⟩

/-- Decoding undoes assembling.  Operations whose operands are complete, the
last one possibly cut short, are recovered from their code in their order,
each under the offset that the code of the operations before it reaches. -/
theorem decode_assemble (ops : List Operation)
    (hfull : ∀ op ∈ ops.dropLast, op.2.length = op.1.immediateSize)
    (hlast : ∀ op ∈ ops.getLast?, op.2.length ≤ op.1.immediateSize) :
    (decode (assemble ops)).toList = ops.mapIdx fun k op =>
      ((assemble (ops.take k)).length, ⟨(assemble (ops.take k)).length, op.1, op.2⟩) := by
  rw [toList_decode_assemble (fitting_iff.mpr ⟨hfull, hlast⟩), place_eq_mapIdx,
    List.mapIdx_eq_zipIdx_map, List.mapIdx_eq_zipIdx_map, List.map_map]
  simp only [Nat.zero_add, Function.comp_def, Instruction.entry]

/-- The operand of a `PUSH2` may look like `JUMPDEST STOP`, and the operand of a
last `PUSH3` may be short. -/
theorem decode_assemble_push_jumpdest :
    (∀ op ∈ [((⟨0x61⟩, [0x5b, 0x00]) : Operation), (⟨0x00⟩, [])],
        op.2.length = op.1.immediateSize) ∧
      ([0x5b] : List UInt8).length ≤ (⟨0x62⟩ : Opcode).immediateSize ∧
      (decode (assemble [(⟨0x61⟩, [0x5b, 0x00]), (⟨0x00⟩, []), (⟨0x62⟩, [0x5b])])).toList =
        [(0, ⟨0, ⟨0x61⟩, [0x5b, 0x00]⟩), (3, ⟨3, ⟨0x00⟩, []⟩), (4, ⟨4, ⟨0x62⟩, [0x5b]⟩)] := by
  have hops : (∀ op ∈ [((⟨0x61⟩, [0x5b, 0x00]) : Operation), (⟨0x00⟩, [])],
      op.2.length = op.1.immediateSize) ∧
        ([0x5b] : List UInt8).length ≤ (⟨0x62⟩ : Opcode).immediateSize := by
    decide +kernel
  refine ⟨hops.1, hops.2, decode_assemble _ hops.1 fun op hop => ?_⟩
  cases hop
  exact hops.2

end EvmBlocks
