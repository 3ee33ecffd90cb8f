import EvmBlocks.Proofs.Listing
import EvmBlocks.Proofs.Opcode
import EvmBlocks.Report

/-!
# EvmBlocks.Proofs.Report

The lines of a disassembly, and the code that can be read from them.

How a line begins tells what it is (`begins`): a header begins with a word, an
instruction with blanks, and the blank line with nothing.  So the headers of a
disassembly are those of the blocks, and the indented lines are those of the
instructions (`filter_header_disassembly`, `filter_indent_disassembly`).  The
summary counts both (`countP_indent_disassembly`, `length_blockRanges`).

`readDisassembly` goes the way back from the lines to the bytes, without the
program: behind the first colon of an indented line stands the name of an opcode,
which no other opcode has, and, behind a blank, its operand.  It reads back every
disassembly (`readDisassembly_disassembly`).
-/

namespace EvmBlocks

namespace Report

/-! ## how lines begin -/

/-- The line begins with this text. -/
def begins (start line : String) : Bool := start.toList.isPrefixOf line.toList

/-- The beginning of the line that heads a block. -/
def header : String := "block "

/-- The beginning of the line of an instruction. -/
def indent : String := "    "

theorem begins_header_blockHeader (b : Block) : begins header (blockHeader b) = true := by
  simp [begins, header, blockHeader]

theorem begins_header_instructionLine (i : Instruction) :
    begins header (instructionLine i) = false := by
  simp [begins, header, instructionLine, List.isPrefixOf_cons_cons]

theorem begins_indent_blockHeader (b : Block) : begins indent (blockHeader b) = false := by
  simp [begins, indent, blockHeader, List.isPrefixOf_cons_cons]

theorem begins_indent_instructionLine (i : Instruction) :
    begins indent (instructionLine i) = true := by
  simp [begins, indent, instructionLine]

theorem disassembly_eq (p : Program) :
    disassembly p = p.blocks.flatMap fun b => blockLines b (p.blockInstructions b) := by
  simp [disassembly, Program.listing, List.flatMap_map]

/-- The list of blocks gives their bounds. -/
theorem blockRanges_eq (p : Program) :
    blockRanges p = p.blocks.map fun b => toString b.start ++ ".." ++ toString b.stop := rfl

/-- The headers of a disassembly are those of the blocks. -/
theorem filter_header_disassembly (p : Program) :
    (disassembly p).filter (begins header) = p.blocks.map blockHeader := by
  have hlines : ∀ b, (blockLines b (p.blockInstructions b)).filter (begins header) =
      [blockHeader b] := by
    intro b
    simp only [blockLines, List.filter_cons, begins_header_blockHeader, List.filter_map,
      Function.comp_def, begins_header_instructionLine]
    simp [begins, header]
  rw [disassembly_eq, List.filter_flatMap]
  simp [hlines, ← List.map_eq_flatMap]

/-- The indented lines of a disassembly are those of the instructions, block by
block. -/
theorem filter_indent_disassembly (p : Program) :
    (disassembly p).filter (begins indent) =
      (p.blocks.flatMap p.blockInstructions).map instructionLine := by
  have hlines : ∀ b, (blockLines b (p.blockInstructions b)).filter (begins indent) =
      (p.blockInstructions b).map instructionLine := by
    intro b
    simp only [blockLines, List.filter_cons, begins_indent_blockHeader, List.filter_map,
      Function.comp_def, begins_indent_instructionLine]
    simp [begins, indent]
  rw [disassembly_eq, List.filter_flatMap, List.map_flatMap]
  simp [hlines]

/-! ## the summary -/

/-- In a summary, the numbers of instructions and of blocks stand in one line each. -/
theorem Summary.filter_lines (s : Summary) :
    s.lines.filter (begins "Instructions:") =
        ["Instructions:       " ++ toString s.instructions] ∧
      s.lines.filter (begins "Basic blocks:") =
        ["Basic blocks:       " ++ toString s.blocks] := by
  simp [Summary.lines, begins, List.isPrefixOf_cons_cons, Numeral.decimal_eq_toString]

/-- The disassembly has a line for each instruction that the summary counts. -/
theorem countP_indent_disassembly {code : List UInt8} {p : Program}
    (hlen : code.length ≤ maxOffset) (hp : Program.analyze code = .ok p) :
    (disassembly p).countP (begins indent) = (Summary.ofProgram p).instructions := by
  rw [List.countP_eq_length_filter, filter_indent_disassembly, List.length_map,
    Program.flatMap_blockInstructions hlen hp, InstructionMap.length_instructions]
  rfl

theorem length_blockRanges (p : Program) :
    (blockRanges p).length = (Summary.ofProgram p).blocks := by
  simp [blockRanges, Program.blocks, Summary.ofProgram, Layout.size]

/-! ## reading instructions -/

/-- The bytes of the instruction that a text describes: a word that names the
opcode, and the operand behind it. -/
def readInstruction (text : List Char) : Option (List UInt8) := do
  let opcode ← Opcode.ofText? (String.ofList (text.takeWhile (· ≠ ' ')))
  let data ← (HexInput.parse (((text.dropWhile (· ≠ ' ')).drop 1).map Char.toUInt8)).toOption
  return opcode.byte :: data

/-- The bytes of the instruction in a line of a disassembly.  The instruction is
described behind the first colon and a blank. -/
def readLine (line : String) : Option (List UInt8) :=
  readInstruction ((line.toList.dropWhile (· ≠ ':')).drop 2)

/-- The code in the lines of a disassembly. -/
def readDisassembly (lines : List String) : List UInt8 :=
  ((lines.filter (begins indent)).filterMap readLine).flatten

/-- What stands behind the name of the opcode in the text of an instruction. -/
def operandText (data : List UInt8) : List Char :=
  if data = [] then [] else ' ' :: ("0x" ++ Numeral.hexBytes data).toList

theorem toList_text (i : Instruction) :
    i.text.toList = i.opcode.text.toList ++ operandText i.data := by
  by_cases hdata : i.data = [] <;> simp [Instruction.text, operandText, hdata]

/-- The name of the opcode is the first word of the text. -/
theorem span_text (i : Instruction) :
    i.text.toList.takeWhile (· ≠ ' ') = i.opcode.text.toList ∧
      i.text.toList.dropWhile (· ≠ ' ') = operandText i.data := by
  have hword : ∀ c ∈ i.opcode.text.toList, decide (c ≠ ' ') = true := by
    intro c hc
    have halpha := Opcode.isAlphanum_of_mem_text hc
    rw [decide_eq_true_iff]
    rintro rfl
    exact absurd halpha (by decide)
  rw [toList_text, List.takeWhile_append_of_pos hword, List.dropWhile_append_of_pos hword]
  by_cases hdata : i.data = [] <;> simp [operandText, hdata]

/-- The operand is read back from its text. -/
theorem parse_operandText (data : List UInt8) :
    HexInput.parse (((operandText data).drop 1).map Char.toUInt8) = .ok data := by
  by_cases hdata : data = []
  · subst hdata
    rfl
  · simpa [operandText, hdata, HexInput.ascii] using Numeral.parse_hexBytes data

/-- The text of an instruction describes its bytes. -/
theorem readInstruction_text (i : Instruction) :
    readInstruction i.text.toList = some i.encode := by
  simp only [readInstruction, span_text, parse_operandText, String.ofList_toList,
    Opcode.ofText?_text]
  rfl

/-! ## reading lines -/

/-- What stands in front of the first colon in the line of an instruction. -/
def offsetColumn (i : Instruction) : List Char :=
  ("    " ++ Numeral.decimalColumn 6 i.offset ++ " (" ++ Numeral.hexPadded 4 i.offset ++ ")").toList

theorem toList_instructionLine (i : Instruction) :
    (instructionLine i).toList = offsetColumn i ++ ':' :: ' ' :: i.text.toList := by
  simp [instructionLine, offsetColumn]

theorem colon_notMem_offsetColumn (i : Instruction) : ':' ∉ offsetColumn i := by
  simp [offsetColumn, Numeral.notMem_decimalColumn Numeral.noDigit_colon,
    Numeral.notMem_hexPadded Numeral.noDigit_colon]

/-- The line of an instruction is read back. -/
theorem readLine_instructionLine (i : Instruction) :
    readLine (instructionLine i) = some i.encode := by
  have hcolumn : ∀ c ∈ offsetColumn i, decide (c ≠ ':') = true := by
    intro c hc
    exact decide_eq_true (ne_of_mem_of_not_mem hc (colon_notMem_offsetColumn i))
  rw [readLine, toList_instructionLine, List.dropWhile_append_of_pos hcolumn]
  simpa using readInstruction_text i

/-- The lines of some instructions are read back as their bytes. -/
theorem filterMap_readLine (is : List Instruction) :
    ((is.map instructionLine).filterMap readLine).flatten = is.flatMap Instruction.encode := by
  rw [List.filterMap_map, List.flatMap_def]
  congr 1
  simp [readLine_instructionLine]

/-- The code is read back from its disassembly. -/
theorem readDisassembly_disassembly {code : List UInt8} {p : Program}
    (hlen : code.length ≤ maxOffset) (hp : Program.analyze code = .ok p) :
    readDisassembly (disassembly p) = code := by
  rw [readDisassembly, filter_indent_disassembly, filterMap_readLine,
    Program.flatMap_blockInstructions hlen hp, Program.instructions_of_analyze hp,
    flatMap_encode_decode]

/-! ## lines are single lines -/

theorem newline_notMem_text (i : Instruction) : '\n' ∉ i.text.toList := by
  have hname : '\n' ∉ i.opcode.text.toList := by
    intro h
    exact absurd (Opcode.isAlphanum_of_mem_text h) (by decide)
  have hdata := Numeral.notMem_hexBytes Numeral.noDigit_newline i.data
  by_cases hnil : i.data = [] <;> simp [toList_text, operandText, hnil, hname, hdata]

/-- No line of a disassembly has a newline of its own. -/
theorem newline_notMem_disassembly {p : Program} {line : String} (h : line ∈ disassembly p) :
    '\n' ∉ line.toList := by
  rw [disassembly_eq] at h
  obtain ⟨b, -, hline⟩ := List.mem_flatMap.mp h
  simp only [blockLines, List.mem_cons, List.mem_map] at hline
  rcases hline with rfl | rfl | ⟨i, -, rfl⟩
  · simp
  · simp [blockHeader, Block.text, Numeral.notMem_decimal Numeral.noDigit_newline]
  · simp [instructionLine, Numeral.notMem_decimalColumn Numeral.noDigit_newline,
      Numeral.notMem_hexPadded Numeral.noDigit_newline, newline_notMem_text]

/-! ## printed text -/

/-- Lines as one text: each with its newline. -/
def printed (lines : List String) : String := String.join (lines.map (· ++ "\n"))

theorem toList_printed_cons (line : String) (lines : List String) :
    (printed (line :: lines)).toList = line.toList ++ '\n' :: (printed lines).toList := by
  simp [printed]

/-- The first line reaches up to the first newline. -/
theorem takeWhile_printed_cons {line : String} (h : '\n' ∉ line.toList) (lines : List String) :
    (printed (line :: lines)).toList.takeWhile (· ≠ '\n') = line.toList := by
  have hline : ∀ c ∈ line.toList, decide (c ≠ '\n') = true := by
    intro c hc
    exact decide_eq_true (ne_of_mem_of_not_mem hc h)
  rw [toList_printed_cons, List.takeWhile_append_of_pos hline]
  simp

/-- Lines without newlines of their own are determined by their text. -/
theorem eq_of_printed_eq {xs ys : List String} (hxs : ∀ line ∈ xs, '\n' ∉ line.toList)
    (hys : ∀ line ∈ ys, '\n' ∉ line.toList) (h : printed xs = printed ys) : xs = ys := by
  induction xs generalizing ys with
  | nil =>
      cases ys with
      | nil => rfl
      | cons y ys => simp [printed] at h
  | cons x xs ih =>
      cases ys with
      | nil => simp [printed] at h
      | cons y ys =>
          rw [List.forall_mem_cons] at hxs hys
          have hfirst : x.toList = y.toList := by
            rw [← takeWhile_printed_cons hxs.1 xs, h, takeWhile_printed_cons hys.1 ys]
          have htext := congrArg String.toList h
          rw [toList_printed_cons, toList_printed_cons, hfirst] at htext
          have hrest := List.tail_eq_of_cons_eq (List.append_cancel_left htext)
          rw [String.toList_inj.mp hfirst, ih hxs.2 hys.2 (String.toList_inj.mp hrest)]

end Report

end EvmBlocks
