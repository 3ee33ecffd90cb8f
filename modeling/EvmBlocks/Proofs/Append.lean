import EvmBlocks.Proofs.Program

/-!
# EvmBlocks.Proofs.Append

The analysis of two codes, one written after the other.

If the first code does not end inside an operand, the second is read from its
own first byte on, as if it stood alone; only the offsets differ.  The blocks
are those of the two codes, except that the two blocks at the seam are one
block when no boundary lies between them (`analyze_append`).
-/

namespace EvmBlocks

/-! ## instructions -/

/-- If the last instruction of a code is not cut short, no instruction is. -/
theorem length_data_of_not_truncated {code : List UInt8}
    (h : ∀ i ∈ (decode code).instructions.getLast?, i.isTruncated = false) :
    ∀ i ∈ (decode code).instructions, i.data.length = i.opcode.immediateSize := by
  intro i hi
  cases length_data_eq_or_truncated hi with
  | inl hfull => exact hfull
  | inr hlast => simp [h i hlast.1] at hlast

/-- The second code is decoded as if it stood alone. -/
theorem instructions_decode_append {c₁ : List UInt8} (c₂ : List UInt8)
    (h : ∀ i ∈ (decode c₁).instructions.getLast?, i.isTruncated = false) :
    (decode (c₁ ++ c₂)).instructions =
      (decode c₁).instructions ++
        (decode c₂).instructions.map (Instruction.shift c₁.length) := by
  have hfull := length_data_of_not_truncated h
  obtain ⟨xs, hxs, rfl⟩ := exists_assembly c₁
  obtain ⟨ys, hys, rfl⟩ := exists_assembly c₂
  rw [instructions_decode_assemble hxs] at hfull
  have hops : ∀ op ∈ xs, op.2.length = op.1.immediateSize := by
    rw [← map_operation_place 0 xs]
    intro op hop
    obtain ⟨i, hi, rfl⟩ := List.mem_map.mp hop
    exact hfull i hi
  rw [← assemble_append, instructions_decode_assemble (Fitting.append hops hys),
    instructions_decode_assemble hxs, instructions_decode_assemble hys, place_append, place_add]

/-- The first instruction of a code has its first byte as opcode. -/
theorem head?_instructions_decode (code : List UInt8) :
    (decode code).instructions.head?.map Instruction.opcode = code.head?.map Opcode.mk := by
  have hcode := flatMap_encode_decode code
  cases his : (decode code).instructions with
  | nil =>
      rw [instructions_decode_eq_nil_iff.mp his]
      rfl
  | cons i is =>
      rw [his, List.flatMap_cons] at hcode
      rw [← hcode]
      rfl

/-! ## blocks -/

/-- Moving the instructions of groups moves the blocks that they span. -/
theorem map_span_map_shift (distance : Nat) {gs : List (List Instruction)} (h : [] ∉ gs) :
    (gs.map (List.map (Instruction.shift distance))).map Block.span =
      (gs.map Block.span).map (Block.shift distance) := by
  rw [List.map_map, List.map_map]
  apply List.map_congr_left
  intro g hg
  exact span_map_shift distance fun hnil => h (hnil ▸ hg)

section Seam

variable {xs ys : List Instruction} (distance : Nat)

/-- Across a boundary, the blocks of two lists of instructions stay apart. -/
theorem basicBlocks_append (hxs : xs ≠ []) (hys : ys ≠ [])
    (hseam : ∀ i ∈ xs.getLast?, ∀ j ∈ ys.head?, i.joins j = false) :
    basicBlocks (xs ++ ys.map (Instruction.shift distance)) =
      basicBlocks xs ++ (basicBlocks ys).map (Block.shift distance) := by
  have hseam' : ∀ i ∈ xs.getLast?, ∀ j ∈ (ys.map (Instruction.shift distance)).head?,
      i.joins j = false := by
    intro i hi j hj
    rw [List.head?_map] at hj
    obtain ⟨j', hj', rfl⟩ := Option.mem_map.mp hj
    exact hseam i hi j' hj'
  rw [basicBlocks_of_ne_nil (List.append_ne_nil_of_left_ne_nil hxs _), groups_append hseam',
    groups_map_shift, List.map_append, map_span_map_shift distance (nil_notMem_groups ys),
    ← basicBlocks_of_ne_nil hxs, ← basicBlocks_of_ne_nil hys]

/-- Without a boundary, the last block of the first list and the first block of
the second are parts of one block. -/
theorem basicBlocks_append_of_joins {bs bs' : List Block} {b b' : Block} (hxs : xs ≠ [])
    (hys : ys ≠ []) (hbx : basicBlocks xs = bs ++ [b]) (hby : basicBlocks ys = b' :: bs')
    (hseam : ∀ i ∈ xs.getLast?, ∀ j ∈ ys.head?, i.joins j = true) :
    basicBlocks (xs ++ ys.map (Instruction.shift distance)) =
      bs ++ ⟨b.start, b'.stop + distance⟩ :: bs'.map (Block.shift distance) := by
  rw [basicBlocks_of_ne_nil hxs, List.map_eq_append_iff] at hbx
  obtain ⟨gs, last, hgs, rfl, hlast⟩ := hbx
  obtain ⟨g, rfl, rfl⟩ := List.map_eq_singleton_iff.mp hlast
  rw [basicBlocks_of_ne_nil hys, List.map_eq_cons_iff] at hby
  obtain ⟨h, hs, hhs, rfl, rfl⟩ := hby
  have hgne := ne_nil_of_groups_eq_concat hgs
  have hhne := ne_nil_of_groups_eq_cons hhs
  have hhsne : [] ∉ hs := fun hnil => nil_notMem_groups ys (by simp [hhs, hnil])
  have hhs' : groups (ys.map (Instruction.shift distance)) =
      h.map (Instruction.shift distance) :: hs.map (List.map (Instruction.shift distance)) := by
    rw [groups_map_shift, hhs, List.map_cons]
  have hjoins : ∀ i ∈ g.getLast?, ∀ j ∈ (h.map (Instruction.shift distance)).head?,
      i.joins j = true := by
    intro i hi j hj
    rw [List.head?_map] at hj
    obtain ⟨j', hj', rfl⟩ := Option.mem_map.mp hj
    rw [← getLast?_of_groups_eq_concat hgs] at hi
    rw [← head?_of_groups_eq_cons hhs] at hj'
    exact hseam i hi j' hj'
  rw [basicBlocks_of_ne_nil (List.append_ne_nil_of_left_ne_nil hxs _),
    groups_append_of_joins hgs hhs' hjoins, List.map_append, List.map_cons,
    map_span_map_shift distance hhsne,
    Block.span_append hgne (mt List.map_eq_nil_iff.mp hhne), span_map_shift distance hhne]
  rfl

end Seam

/-- A boundary lies between two codes: the first ends with a block end, or the
second begins with a block start. -/
def boundaryBetween (c₁ c₂ : List UInt8) : Bool :=
  (decode c₁).instructions.getLast?.any (fun i => i.opcode.isBlockEnd) ||
    c₂.head?.any (fun byte => (Opcode.mk byte).isBlockStart)

/-- The boundary between two codes, seen from their instructions. -/
theorem joins_eq_not_boundaryBetween {c₁ c₂ : List UInt8} {i j : Instruction}
    (hi : i ∈ (decode c₁).instructions.getLast?) (hj : j ∈ (decode c₂).instructions.head?) :
    i.joins j = !boundaryBetween c₁ c₂ := by
  have hhead := head?_instructions_decode c₂
  rw [Option.mem_def.mp hj, Option.map_some, eq_comm, Option.map_eq_some_iff] at hhead
  obtain ⟨byte, hbyte, hop⟩ := hhead
  rw [boundaryBetween, Option.mem_def.mp hi, hbyte]
  simp [Instruction.joins, hop]

/-- The analysis of two codes, of which the first does not end inside an
operand.  The instructions of the second are moved behind those of the first,
and so are its blocks; the two blocks at the seam become one if no boundary
lies between the codes. -/
theorem analyze_append (c₁ c₂ : List UInt8) (h₁ : c₁ ≠ []) (h₂ : c₂ ≠ [])
    (hfull : ∀ i ∈ (decode c₁).instructions.getLast?, i.isTruncated = false) :
    (decode (c₁ ++ c₂)).toList =
        (decode c₁).toList ++
          (decode c₂).toList.map (fun e => (e.1 + c₁.length, e.2.shift c₁.length)) ∧
      ((c₁ ++ c₂).length ≤ maxOffset →
        ∃ p₁ p₂ p, Program.analyze c₁ = .ok p₁ ∧ Program.analyze c₂ = .ok p₂ ∧
          Program.analyze (c₁ ++ c₂) = .ok p ∧
          ∃ bs b b' bs', p₁.blocks = bs ++ [b] ∧ p₂.blocks = b' :: bs' ∧
            p.blocks =
              if boundaryBetween c₁ c₂ then
                p₁.blocks ++ p₂.blocks.map (Block.shift c₁.length)
              else
                bs ++ ⟨b.start, b'.stop + c₁.length⟩ :: bs'.map (Block.shift c₁.length)) := by
  have his := instructions_decode_append c₂ hfull
  constructor
  · rw [toList_decode, his, toList_decode c₁, toList_decode c₂, List.map_append, List.map_map,
      List.map_map]
    rfl
  · intro hlen
    have hlen' := hlen
    rw [List.length_append] at hlen'
    have hlen₁ : c₁.length ≤ maxOffset := by omega
    have hlen₂ : c₂.length ≤ maxOffset := by omega
    obtain ⟨p₁, hp₁, -, -, hblocks₁⟩ := Program.exists_analyze hlen₁
    obtain ⟨p₂, hp₂, -, -, hblocks₂⟩ := Program.exists_analyze hlen₂
    obtain ⟨p, hp, -, -, hblocks⟩ := Program.exists_analyze hlen
    have hne₁ := mt instructions_decode_eq_nil_iff.mp h₁
    have hne₂ := mt instructions_decode_eq_nil_iff.mp h₂
    have hlast := List.dropLast_append_getLast (basicBlocks_ne_nil (decode c₁).instructions)
    obtain ⟨b', bs', hfirst⟩ :=
      List.exists_cons_of_ne_nil (basicBlocks_ne_nil (decode c₂).instructions)
    refine ⟨p₁, p₂, p, hp₁, hp₂, hp, _, _, b', bs', hblocks₁.trans hlast.symm,
      hblocks₂.trans hfirst, ?_⟩
    rw [hblocks, his, hblocks₁, hblocks₂]
    by_cases hcut : boundaryBetween c₁ c₂ = true
    · rw [if_pos hcut]
      apply basicBlocks_append _ hne₁ hne₂
      intro i hi j hj
      rw [joins_eq_not_boundaryBetween hi hj, hcut, Bool.not_true]
    · rw [if_neg hcut]
      apply basicBlocks_append_of_joins _ hne₁ hne₂ hlast.symm hfirst
      intro i hi j hj
      rw [joins_eq_not_boundaryBetween hi hj, Bool.eq_false_of_not_eq_true hcut, Bool.not_false]

/-- `PUSH1 0x5b` in front of `ADD STOP JUMPDEST`: the operand is complete, and the
seam lies inside the first block. -/
theorem analyze_append_push_add :
    (∀ i ∈ (decode [0x60, 0x5b]).instructions.getLast?, i.isTruncated = false) ∧
      ([0x60, 0x5b] ++ [0x01, 0x00, 0x5b] : List UInt8).length ≤ maxOffset ∧
      boundaryBetween [0x60, 0x5b] [0x01, 0x00, 0x5b] = false ∧
      (decode [0x60, 0x5b, 0x01, 0x00, 0x5b]).toList =
        (decode [0x60, 0x5b]).toList ++
          (decode [0x01, 0x00, 0x5b]).toList.map (fun e => (e.1 + 2, e.2.shift 2)) ∧
      ∃ p₁ p₂ p, Program.analyze [0x60, 0x5b] = .ok p₁ ∧
        Program.analyze [0x01, 0x00, 0x5b] = .ok p₂ ∧
        Program.analyze [0x60, 0x5b, 0x01, 0x00, 0x5b] = .ok p ∧
        ∃ bs b b' bs', p₁.blocks = bs ++ [b] ∧ p₂.blocks = b' :: bs' ∧
          p.blocks = bs ++ ⟨b.start, b'.stop + 2⟩ :: bs'.map (Block.shift 2) := by
  have hfull : ∀ i ∈ (decode [0x60, 0x5b]).instructions.getLast?, i.isTruncated = false := by
    decide +kernel
  have hcut : boundaryBetween [0x60, 0x5b] [0x01, 0x00, 0x5b] = false := by decide +kernel
  obtain ⟨hlist, hblocks⟩ :=
    analyze_append [0x60, 0x5b] [0x01, 0x00, 0x5b] (List.cons_ne_nil _ _) (List.cons_ne_nil _ _)
      hfull
  rw [hcut] at hblocks
  exact ⟨hfull, by decide, hcut, hlist, hblocks (by decide)⟩

end EvmBlocks
