import EvmBlocks.Cli.FileTree
import EvmBlocks.Cli.Request
import EvmBlocks.HexInput
import EvmBlocks.Report

/-!
# EvmBlocks.Cli.Outcome

The answer of the command to a command line and a way to open files.
-/

namespace EvmBlocks.Cli

/-! ## Loading a program -/

/-- Why there is no program to show. -/
inductive LoadFault where
  | unreadable (fault : OpenFault)
  | notHex (error : HexError)
  | inconsistent (fault : SegmentFault)
  deriving DecidableEq, Repr

/-- The text that reports why there is no program at a path. -/
def LoadFault.message (path : String) : LoadFault → String
  | .unreadable fault => path ++ ": " ++ fault.message
  | .notHex error => path ++ ": " ++ error.message
  | .inconsistent fault => fault.report

/-- The program in the content of a file. -/
def loadProgram (content : Except OpenFault (List UInt8)) : Except LoadFault Program :=
  match content with
  | .error fault => .error (.unreadable fault)
  | .ok text =>
      match HexInput.parse text with
      | .error error => .error (.notHex error)
      | .ok code => (Program.analyze code).mapError .inconsistent

/-! ## Outcomes -/

/-- The lines of a view. -/
def View.lines : View → Program → List String
  | .disasm => Report.disassembly
  | .blocks => Report.blockRanges
  | .info => Report.info

/-- How the command ends. -/
inductive Outcome where
  /-- The command line makes no sense. -/
  | usageError
  /-- Help is shown. -/
  | help
  /-- The lines of a view are shown. -/
  | output (lines : List String)
  /-- There is no program to show. -/
  | failure (message : String)
  deriving DecidableEq, Repr

namespace Outcome

/-- The exit status. -/
def status : Outcome → Nat
  | .usageError => 2
  | .help | .output _ => 0
  | .failure _ => 1

/-- What is printed for the reader, in lines. -/
def stdout : Outcome → List String
  | .output lines => lines
  | .usageError | .help | .failure _ => []

/-- What is printed as an error. -/
def stderr : Outcome → String
  | .failure message => "Error: " ++ message ++ "\n"
  | .usageError | .help | .output _ => ""

/-- A view of the content found at a path. -/
def ofContent (v : View) (path : String) (content : Except OpenFault (List UInt8)) : Outcome :=
  match loadProgram content with
  | .error fault => .failure (fault.message path)
  | .ok program => .output (v.lines program)

/-- The answer to a request, with files opened by `read`. -/
def ofRequest (read : String → Except OpenFault (List UInt8)) : Request → Outcome
  | .usageError => .usageError
  | .help => .help
  | .view v path => ofContent v path (read path)

/-- The answer to a command line, with files opened by `read`. -/
def ofArguments (read : String → Except OpenFault (List UInt8)) (args : List String) :
    Outcome :=
  ofRequest read (Request.ofArguments args)

end Outcome

end EvmBlocks.Cli
