import EvmBlocks.Proofs.Program

/-!
# EvmBlocks.Proofs.Listing

The instructions of a program, listed block by block.

The instructions of a block are found by a query to the instruction map, and
the blocks by the segmenter; the two meet in the groups of the instructions.
The query for the span of a group answers with that group
(`range_span_of_mem_groups`), so a listing is the grouped instructions: it
loses and repeats none of them, and its cuts are the boundaries between groups
(`listing_exact`).
-/

namespace EvmBlocks

/-! ## instructions selected by their offsets -/

/-- Tiling instructions are in ascending order of their offsets. -/
theorem Tiles.pairwise_offset {is : List Instruction} {start stop : Nat}
    (h : Tiles start is stop) : is.Pairwise fun i j => i.offset < j.offset := by
  have hpos : ∀ b ∈ is.map Instruction.extent, b.start < b.stop := by
    intro b hb
    obtain ⟨i, -, rfl⟩ := List.mem_map.mp hb
    exact i.offset_lt_stop
  have hstarts := (List.pairwise_append.mp (Block.pairwise_starts h hpos)).1
  rw [List.map_map] at hstarts
  exact List.pairwise_map.mp hstarts

/-- Among tiling instructions, those with an offset in the span of a run are the
run. -/
theorem Tiles.filter_contains_span {xs g ys : List Instruction} {start stop : Nat}
    (h : Tiles start (xs ++ (g ++ ys)) stop) (hne : g ≠ []) :
    (xs ++ (g ++ ys)).filter (fun i => (Block.span g).contains i.offset) = g := by
  obtain ⟨first, hxs, hrest⟩ := tiles_append.mp h
  obtain ⟨last, hg, hys⟩ := tiles_append.mp hrest
  have hspan : ∀ offset, (Block.span g).contains offset = true ↔ first ≤ offset ∧ offset < last := by
    intro offset
    rw [hg.span_eq hne]
    exact Block.contains_iff _ offset
  have hbefore : xs.filter (fun i => (Block.span g).contains i.offset) = [] := by
    rw [List.filter_eq_nil_iff]
    intro i hi hcontains
    have hbounds := hxs.bounds i hi
    have hlt := i.offset_lt_stop
    rw [hspan] at hcontains
    omega
  have hinside : g.filter (fun i => (Block.span g).contains i.offset) = g := by
    rw [List.filter_eq_self]
    intro i hi
    have hbounds := hg.bounds i hi
    have hlt := i.offset_lt_stop
    rw [hspan]
    omega
  have hafter : ys.filter (fun i => (Block.span g).contains i.offset) = [] := by
    rw [List.filter_eq_nil_iff]
    intro i hi hcontains
    have hbounds := hys.bounds i hi
    rw [hspan] at hcontains
    omega
  rw [List.filter_append, List.filter_append, hbefore, hinside, hafter, List.nil_append,
    List.append_nil]

/-- A group is a run of the instructions. -/
theorem exists_append_of_mem_groups {is g : List Instruction} (h : g ∈ groups is) :
    ∃ xs ys, is = xs ++ (g ++ ys) := by
  obtain ⟨before, after, hgroups⟩ := List.append_of_mem h
  refine ⟨before.flatten, after.flatten, ?_⟩
  rw [← flatten_groups is, hgroups, List.flatten_append, List.flatten_cons]

/-- A group of tiling instructions tiles the block that it spans. -/
theorem Tiles.of_mem_groups {is g : List Instruction} {start stop : Nat}
    (h : Tiles start is stop) (hg : g ∈ groups is) :
    Tiles (Block.span g).start g (Block.span g).stop := by
  have hne := ne_nil_of_mem_groups hg
  obtain ⟨xs, ys, rfl⟩ := exists_append_of_mem_groups hg
  obtain ⟨first, -, hrest⟩ := tiles_append.mp h
  obtain ⟨last, htiles, -⟩ := tiles_append.mp hrest
  rw [htiles.span_eq hne]
  exact htiles

/-- The instructions that a query to a decoded map selects. -/
theorem range_decode (code : List UInt8) (b : Block) :
    (decode code).range b.start b.stop =
      (decode code).instructions.filter fun i => b.contains i.offset := by
  rw [InstructionMap.range_eq, toList_decode, List.filter_map, List.map_map]
  have hsnd : Prod.snd ∘ Instruction.entry = id := rfl
  rw [hsnd, List.map_id]
  apply List.filter_congr
  intro i _
  rw [Bool.eq_iff_iff, Block.contains_iff]
  exact decide_eq_true_iff

/-! ## the bytes of a run -/

/-- The bytes of a run of the instructions of a code are the bytes of the code in
the span of the run. -/
theorem encode_eq_extract {code : List UInt8} {xs g ys : List Instruction}
    (h : (decode code).instructions = xs ++ (g ++ ys)) (hne : g ≠ []) :
    g.flatMap Instruction.encode = code.extract (Block.span g).start (Block.span g).stop := by
  have htiles := tiles_decode code
  have hcode := flatMap_encode_decode code
  rw [h] at htiles hcode
  obtain ⟨first, hxs, hrest⟩ := tiles_append.mp htiles
  obtain ⟨last, hg, -⟩ := tiles_append.mp hrest
  have hfirst := hxs.add_length_encode
  have hlast := hg.add_length_encode
  rw [hg.span_eq hne]
  show g.flatMap Instruction.encode = code.extract first last
  rw [← hcode, List.flatMap_append, List.flatMap_append, List.extract_eq_take_drop,
    List.drop_left' (by omega), List.take_left' (by omega)]

/-! ## listings -/

/-- The span of a group selects the group. -/
theorem range_span_of_mem_groups {code : List UInt8} {g : List Instruction}
    (h : g ∈ groups (decode code).instructions) :
    (decode code).range (Block.span g).start (Block.span g).stop = g := by
  have hne := ne_nil_of_mem_groups h
  obtain ⟨xs, ys, his⟩ := exists_append_of_mem_groups h
  have htiles := tiles_decode code
  rw [his] at htiles
  rw [range_decode, his]
  exact htiles.filter_contains_span hne

/-- The instructions listed for the blocks of a code are its groups. -/
theorem map_range_basicBlocks {code : List UInt8} (hcode : code ≠ []) :
    (basicBlocks (decode code).instructions).map
        (fun b => (decode code).range b.start b.stop) =
      groups (decode code).instructions := by
  rw [basicBlocks_of_ne_nil (mt instructions_decode_eq_nil_iff.mp hcode), List.map_map]
  conv_rhs => rw [← List.map_id (groups _)]
  apply List.map_congr_left
  intro g hg
  exact range_span_of_mem_groups hg

/-- Block by block, all instructions of a code are listed, each once. -/
theorem flatMap_range_basicBlocks (code : List UInt8) :
    (basicBlocks (decode code).instructions).flatMap
        (fun b => (decode code).range b.start b.stop) =
      (decode code).instructions := by
  by_cases hcode : code = []
  · have hnil := instructions_decode_eq_nil_iff.mpr hcode
    simp [range_decode, hnil]
  · rw [List.flatMap_def, map_range_basicBlocks hcode, flatten_groups]

theorem Program.flatMap_blockInstructions {code : List UInt8} {p : Program}
    (hlen : code.length ≤ maxOffset) (hp : Program.analyze code = .ok p) :
    p.blocks.flatMap p.blockInstructions = p.instructions.instructions := by
  rw [Program.analyze_eq hlen] at hp
  obtain rfl := Except.ok.inj hp
  exact flatMap_range_basicBlocks code

/-- Instructions fill a block of a code: there are some, they reach from its start
to its end and spell out its bytes, and no boundary lies between two of them. -/
structure FillsBlock (code : List UInt8) (b : Block) (is : List Instruction) : Prop where
  ne_nil : is ≠ []
  offset_head : ∀ i ∈ is.head?, i.offset = b.start
  stop_getLast : ∀ i ∈ is.getLast?, i.stop = b.stop
  bytes : is.flatMap Instruction.encode = code.extract b.start b.stop
  isBlockStart_tail : ∀ i ∈ is.tail, i.opcode.isBlockStart = false
  isBlockEnd_dropLast : ∀ i ∈ is.dropLast, i.opcode.isBlockEnd = false

/-- A group fills its span. -/
theorem fillsBlock_span {code : List UInt8} {g : List Instruction}
    (h : g ∈ groups (decode code).instructions) : FillsBlock code (Block.span g) g := by
  have hne := ne_nil_of_mem_groups h
  have htiles := (tiles_decode code).of_mem_groups h
  have hchain := isChain_of_mem_groups h
  obtain ⟨xs, ys, his⟩ := exists_append_of_mem_groups h
  refine ⟨hne, htiles.offset_head, htiles.stop_getLast, encode_eq_extract his hne, ?_,
    fun i hi => isBlockEnd_eq_false_of_mem_dropLast hchain hi⟩
  obtain ⟨i, is, rfl⟩ := List.exists_cons_of_ne_nil hne
  exact fun j hj => isBlockStart_eq_false_of_mem hchain hj

/-- The listing of a code that is not empty.  Block by block, it gives the
instructions of the code in ascending order, each once; what is listed for a
block fills it; and between two neighbouring blocks there is a boundary. -/
theorem listing_exact (code : List UInt8) (hcode : code ≠ []) (hlen : code.length ≤ maxOffset) :
    ∃ p, Program.analyze code = .ok p ∧
      p.instructions.instructions.Pairwise (fun i j => i.offset < j.offset) ∧
      p.blocks.flatMap p.blockInstructions = p.instructions.instructions ∧
      (∀ b ∈ p.blocks, FillsBlock code b (p.blockInstructions b)) ∧
      p.blocks.IsChain fun b b' =>
        ∃ i ∈ (p.blockInstructions b).getLast?, ∃ j ∈ (p.blockInstructions b').head?,
          i.opcode.isBlockEnd = true ∨ j.opcode.isBlockStart = true := by
  obtain ⟨p, hp, -, hinstructions, hblocks⟩ := Program.exists_analyze hlen
  have hlisted : p.blocks.map p.blockInstructions = groups (decode code).instructions := by
    unfold Program.blockInstructions
    rw [hblocks, hinstructions]
    exact map_range_basicBlocks hcode
  refine ⟨p, hp, ?_, ?_, ?_, ?_⟩
  · rw [hinstructions]
    exact (tiles_decode code).pairwise_offset
  · rw [List.flatMap_def, hlisted, flatten_groups, hinstructions]
  · intro b hb
    rw [hblocks, basicBlocks_of_ne_nil (mt instructions_decode_eq_nil_iff.mp hcode)] at hb
    obtain ⟨g, hg, rfl⟩ := List.mem_map.mp hb
    rw [Program.blockInstructions, hinstructions, range_span_of_mem_groups hg]
    exact fillsBlock_span hg
  · have hchain := isChain_groups (decode code).instructions
    rw [← hlisted, List.isChain_map] at hchain
    refine hchain.imp fun b b' => ?_
    rintro ⟨hb, hb', hjoins⟩
    exact ⟨_, List.getLast?_eq_some_getLast hb, _, List.head?_eq_some_head hb',
      Instruction.joins_eq_false_iff.mp hjoins⟩

/-- `JUMPI`, `PUSH2 0x5b00`, `JUMPDEST` and a `PUSH1` without its operand: the
first boundary is a block end and the second a block start, and the operand that
looks like two more is none. -/
theorem listing_exact_push_boundaries :
    ([0x57, 0x61, 0x5b, 0x00, 0x5b, 0x60] : List UInt8) ≠ [] ∧
      ([0x57, 0x61, 0x5b, 0x00, 0x5b, 0x60] : List UInt8).length ≤ maxOffset ∧
      ∃ p, Program.analyze [0x57, 0x61, 0x5b, 0x00, 0x5b, 0x60] = .ok p ∧
        p.blocks = [⟨0, 1⟩, ⟨1, 4⟩, ⟨4, 6⟩] ∧
        p.blocks.flatMap p.blockInstructions =
          [⟨0, ⟨0x57⟩, []⟩, ⟨1, ⟨0x61⟩, [0x5b, 0x00]⟩, ⟨4, ⟨0x5b⟩, []⟩, ⟨5, ⟨0x60⟩, []⟩] ∧
        FillsBlock [0x57, 0x61, 0x5b, 0x00, 0x5b, 0x60] ⟨1, 4⟩ (p.blockInstructions ⟨1, 4⟩) := by
  have hlen : ([0x57, 0x61, 0x5b, 0x00, 0x5b, 0x60] : List UInt8).length ≤ maxOffset := by decide
  obtain ⟨p, hp, -, hflat, hfills, -⟩ := listing_exact _ (List.cons_ne_nil _ _) hlen
  obtain ⟨p', hp', -, hinstructions, hblocks⟩ := Program.exists_analyze hlen
  obtain rfl : p = p' := Except.ok.inj (hp.symm.trans hp')
  have hspans : p.blocks = [⟨0, 1⟩, ⟨1, 4⟩, ⟨4, 6⟩] := by
    rw [hblocks]
    decide +kernel
  refine ⟨List.cons_ne_nil _ _, hlen, p, hp, hspans, ?_, hfills ⟨1, 4⟩ (by simp [hspans])⟩
  rw [hflat, hinstructions]
  decide +kernel

end EvmBlocks
