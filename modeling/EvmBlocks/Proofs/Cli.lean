import EvmBlocks.Cli.Outcome
import EvmBlocks.Proofs.Report

/-!
# EvmBlocks.Proofs.Cli

What the command prints for the content of a file.

All views load their program in the same way, so they fail together and with the
same words (`Asks.outcome_of_error`), and otherwise each shows its own lines of
one and the same program (`Asks.outcome_of_ok`).  Two things follow.

* `disasm_faithful`: the disassembly of a file determines the bytes that the file
  spells out, and is determined by them.
* `views_agree`: the list of blocks shows the bounds of the program's blocks, the
  headers of the disassembly are that list, and the summary counts the lines of both.
-/

namespace EvmBlocks

/-- How an error is worded. -/
def HexError.wording : HexError → String
  | .oddLength => "invalid hex input: Odd number of digits"
  | .invalidCharacter byte position =>
      "invalid hex input: Invalid character " ++ Quoted.byte byte ++ " at position " ++
        toString position

theorem HexError.message_eq_wording (error : HexError) : error.message = error.wording := by
  cases error <;> rfl

namespace Cli

open Report

/-! ## outcomes -/

/-- The command line asks for a view of the file at `path`, and the file can be read
and has this content. -/
structure Asks (read : String → Except OpenFault (List UInt8)) (args : List String) (v : View)
    (path : String) (content : List UInt8) : Prop where
  request : Request.ofArguments args = .view v path
  content : read path = .ok content

variable {read read' : String → Except OpenFault (List UInt8)} {path path' : String}
  {content content' code code' : List UInt8}

section Outcome

variable {args : List String} {v : View}

theorem Asks.outcome_eq (h : Asks read args v path content) :
    Outcome.ofArguments read args = .ofContent v path (.ok content) := by
  rw [Outcome.ofArguments, h.request, Outcome.ofRequest, h.content]

/-- A content that is not hexadecimal is reported, whatever the view. -/
theorem Asks.outcome_of_error (h : Asks read args v path content) {error : HexError}
    (hparse : HexInput.parse content = .error error) :
    Outcome.ofArguments read args = .failure (path ++ ": " ++ error.wording) := by
  simp [h.outcome_eq, Outcome.ofContent, loadProgram, hparse, LoadFault.message,
    error.message_eq_wording]

/-- Any other content is shown as the program of its bytes. -/
theorem Asks.outcome_of_ok (h : Asks read args v path content)
    (hparse : HexInput.parse content = .ok code) {p : Program}
    (hp : Program.analyze code = .ok p) :
    Outcome.ofArguments read args = .output (v.lines p) := by
  simp [h.outcome_eq, Outcome.ofContent, loadProgram, hparse, hp, Except.mapError]

end Outcome

/-! ## the disassembly -/

/-- The disassembly of a file is a faithful account of the bytes in it.  They can be
read from the printed lines alone; and for two files, the printed lines, and the
printed texts, are the same exactly if the bytes are.  The codes may have any length
that offsets can reach. -/
theorem disasm_faithful {args args' : List String}
    (h : Asks read args .disasm path content) (h' : Asks read' args' .disasm path' content')
    (hparse : HexInput.parse content = .ok code) (hparse' : HexInput.parse content' = .ok code')
    (hlen : code.length ≤ maxOffset) (hlen' : code'.length ≤ maxOffset) :
    readDisassembly (Outcome.ofArguments read args).stdout = code ∧
      ((Outcome.ofArguments read args).stdout = (Outcome.ofArguments read' args').stdout ↔
        code = code') ∧
      (printed (Outcome.ofArguments read args).stdout =
          printed (Outcome.ofArguments read' args').stdout ↔ code = code') := by
  obtain ⟨p, hp, -⟩ := Program.exists_analyze hlen
  obtain ⟨p', hp', -⟩ := Program.exists_analyze hlen'
  have hread := readDisassembly_disassembly hlen hp
  have hread' := readDisassembly_disassembly hlen' hp'
  have hlines : disassembly p = disassembly p' ↔ code = code' := by
    constructor
    · intro heq
      rw [← hread, heq, hread']
    · rintro rfl
      rw [Except.ok.inj (hp.symm.trans hp')]
  have htext : printed (disassembly p) = printed (disassembly p') ↔ code = code' := by
    rw [← hlines]
    constructor
    · exact eq_of_printed_eq (fun line => newline_notMem_disassembly)
        fun line => newline_notMem_disassembly
    · exact congrArg printed
  rw [h.outcome_of_ok hparse hp, h'.outcome_of_ok hparse' hp']
  exact ⟨hread, hlines, htext⟩

/-- A file that holds `PUSH1` without its operand, and one that holds `PUSH1 0x00`
in other letters and between blanks. -/
theorem disasm_faithful_short_push :
    Asks (fun _ => .ok (HexInput.ascii "0x60")) ["disasm", "a"] .disasm "a"
        (HexInput.ascii "0x60") ∧
      Asks (fun _ => .ok (HexInput.ascii " 0X6000\n")) ["disasm", "--", "b"] .disasm "b"
        (HexInput.ascii " 0X6000\n") ∧
      HexInput.parse (HexInput.ascii "0x60") = .ok [0x60] ∧
      HexInput.parse (HexInput.ascii " 0X6000\n") = .ok [0x60, 0x00] ∧
      (Outcome.ofArguments (fun _ => .ok (HexInput.ascii "0x60")) ["disasm", "a"]).stdout ≠
        (Outcome.ofArguments (fun _ => .ok (HexInput.ascii " 0X6000\n"))
          ["disasm", "--", "b"]).stdout := by
  have hasks : Asks (fun _ => .ok (HexInput.ascii "0x60")) ["disasm", "a"] .disasm "a"
      (HexInput.ascii "0x60") := ⟨by decide, rfl⟩
  have hasks' : Asks (fun _ => .ok (HexInput.ascii " 0X6000\n")) ["disasm", "--", "b"] .disasm "b"
      (HexInput.ascii " 0X6000\n") := ⟨by decide, rfl⟩
  have hparse : HexInput.parse (HexInput.ascii "0x60") = .ok [0x60] := by decide
  have hparse' : HexInput.parse (HexInput.ascii " 0X6000\n") = .ok [0x60, 0x00] := by decide
  obtain ⟨-, hlines, -⟩ :=
    disasm_faithful hasks hasks' hparse hparse' (by decide) (by decide)
  refine ⟨hasks, hasks', hparse, hparse', fun heq => ?_⟩
  exact absurd (hlines.mp heq) (by decide)

/-! ## the views of one file -/

/-- The answers to command lines, one for each view. -/
def answer (read : String → Except OpenFault (List UInt8)) (args : View → List String)
    (v : View) : Outcome :=
  .ofArguments read (args v)

/-- The views of one file agree.  If its content is not hexadecimal, all of them
fail with the same message.  Otherwise all of them succeed; the list of blocks gives
the bounds of the blocks of the program, one block to a line, the headers in the
disassembly are these lines behind the word `block`, and the summary gives the numbers
of these lines and of the indented lines in the disassembly. -/
theorem views_agree {args : View → List String} (h : ∀ v, Asks read (args v) v path content) :
    (∀ error, HexInput.parse content = .error error → ∀ v,
      (answer read args v).status = 1 ∧ (answer read args v).stdout = [] ∧
        (answer read args v).stderr = "Error: " ++ path ++ ": " ++ error.wording ++ "\n") ∧
      ∀ code, HexInput.parse content = .ok code → code.length ≤ maxOffset →
        (∀ v, (answer read args v).status = 0 ∧ (answer read args v).stderr = "") ∧
        (∃ p, Program.analyze code = .ok p ∧
          (answer read args .blocks).stdout =
            p.blocks.map (fun b => toString b.start ++ ".." ++ toString b.stop) ∧
          (answer read args .disasm).stdout.filter (begins "block ") =
            p.blocks.map (fun b => "block " ++ (toString b.start ++ ".." ++ toString b.stop))) ∧
        (answer read args .disasm).stdout.filter (begins "block ") =
          (answer read args .blocks).stdout.map ("block " ++ ·) ∧
        (answer read args .info).stdout.filter (begins "Basic blocks:") =
          ["Basic blocks:       " ++ toString (answer read args .blocks).stdout.length] ∧
        (answer read args .info).stdout.filter (begins "Instructions:") =
          ["Instructions:       " ++
            toString ((answer read args .disasm).stdout.countP (begins "    "))] := by
  refine ⟨fun error hparse v => ?_, fun code hparse hlen => ?_⟩
  · rw [answer, (h v).outcome_of_error hparse]
    simp [Outcome.status, Outcome.stdout, Outcome.stderr, String.append_assoc]
  · obtain ⟨p, hp, -⟩ := Program.exists_analyze hlen
    have hanswer : ∀ v, answer read args v = .output (v.lines p) :=
      fun v => (h v).outcome_of_ok hparse hp
    have hheaders : (disassembly p).filter (begins "block ") =
        p.blocks.map (fun b => "block " ++ (toString b.start ++ ".." ++ toString b.stop)) :=
      filter_header_disassembly p
    have hlist : (disassembly p).filter (begins "block ") =
        (blockRanges p).map ("block " ++ ·) := by
      rw [hheaders, blockRanges_eq, List.map_map]
      rfl
    obtain ⟨hinstructions, hblocks⟩ := Summary.filter_lines (Summary.ofProgram p)
    rw [← countP_indent_disassembly hlen hp] at hinstructions
    rw [← length_blockRanges] at hblocks
    simp only [hanswer]
    exact ⟨fun v => ⟨rfl, rfl⟩, ⟨p, hp, blockRanges_eq p, hheaders⟩, hlist, hblocks, hinstructions⟩

/-- Command lines for the views of one file. -/
def inputViews : View → List String
  | .disasm => ["disasm", "input.hex"]
  | .blocks => ["blocks", "--", "input.hex"]
  | .info => ["info", "input.hex"]

/-- A file with an odd number of digits, and a file that holds `STOP` and a
`JUMPDEST`. -/
theorem views_agree_inputViews :
    (∀ v, Asks (fun _ => .ok (HexInput.ascii "0x5")) (inputViews v) v "input.hex"
        (HexInput.ascii "0x5")) ∧
      (∀ v, (answer (fun _ => .ok (HexInput.ascii "0x5")) inputViews v).stderr =
        "Error: input.hex: invalid hex input: Odd number of digits\n") ∧
      (∀ v, Asks (fun _ => .ok (HexInput.ascii "005B\n")) (inputViews v) v "input.hex"
        (HexInput.ascii "005B\n")) ∧
      HexInput.parse (HexInput.ascii "005B\n") = .ok [0x00, 0x5b] ∧
      (answer (fun _ => .ok (HexInput.ascii "005B\n")) inputViews .blocks).stdout =
        ["0..1", "1..2"] ∧
      (answer (fun _ => .ok (HexInput.ascii "005B\n")) inputViews .disasm).stdout.filter
          (begins "block ") = ["block 0..1", "block 1..2"] ∧
      (answer (fun _ => .ok (HexInput.ascii "005B\n")) inputViews .info).stdout.filter
          (begins "Basic blocks:") = ["Basic blocks:       2"] := by
  have hrequest : ∀ v, Request.ofArguments (inputViews v) = .view v "input.hex" := by
    intro v
    cases v <;> decide
  have hodd : ∀ v, Asks (fun _ => .ok (HexInput.ascii "0x5")) (inputViews v) v "input.hex"
      (HexInput.ascii "0x5") := fun v => ⟨hrequest v, rfl⟩
  have hcode : ∀ v, Asks (fun _ => .ok (HexInput.ascii "005B\n")) (inputViews v) v "input.hex"
      (HexInput.ascii "005B\n") := fun v => ⟨hrequest v, rfl⟩
  have hparse : HexInput.parse (HexInput.ascii "005B\n") = .ok [0x00, 0x5b] := by decide
  obtain ⟨-, ⟨p, hp, hlines, hheaders⟩, -, hcount, -⟩ :=
    (views_agree hcode).2 [0x00, 0x5b] hparse (by decide)
  have hblocks : p.blocks = [⟨0, 1⟩, ⟨1, 2⟩] := by
    have hmap := Program.map_blocks_analyze [0x00, 0x5b]
    rw [hp] at hmap
    exact Except.ok.inj (hmap.trans (by decide +kernel))
  rw [hblocks] at hlines hheaders
  rw [hlines] at hcount
  refine ⟨hodd, fun v => ?_, hcode, hparse, ?_, ?_, ?_⟩
  · exact ((views_agree hodd).1 .oddLength (by decide) v).2.2
  · exact hlines.trans (by decide)
  · exact hheaders.trans (by decide)
  · exact hcount.trans (by decide)

end Cli

end EvmBlocks
