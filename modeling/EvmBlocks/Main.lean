import EvmBlocks.Cli.Outcome

/-!
# EvmBlocks.Main

The command line program: it reads the file that a request names, and prints
the outcome.
-/

namespace EvmBlocks.Cli

/-- The explanation of the command line. -/
def helpText : String :=
  "EVM bytecode disassembler and basic-block splitter\n\n" ++
  "Usage: evmblocks <COMMAND>\n\n" ++
  "Commands:\n" ++
  "  disasm  Disassemble a hex-encoded bytecode file, grouped by basic block\n" ++
  "  blocks  List the byte range of every basic block\n" ++
  "  info    Show bytecode statistics\n" ++
  "  help    Print this message\n\n" ++
  "Options:\n" ++
  "  -h, --help  Print help\n"

/-- The reason why the system does not open a file. -/
def OpenFault.ofError : IO.Error → OpenFault
  | .noFileOrDirectory .. => .absent
  | .inappropriateType _ _ details =>
      if details = "Is a directory" then .isDirectory else .notDirectory
  | error => .refused error.toString

/-- Opens a file. -/
def readFile (path : String) : IO (Except OpenFault (List UInt8)) := do
  try
    let content ← IO.FS.readBinFile path
    return .ok content.toList
  catch error => return .error (.ofError error)

/-- Prints an outcome and gives its exit status. -/
def print (outcome : Outcome) : IO UInt32 := do
  match outcome with
  | .help => IO.print helpText
  | .usageError => IO.eprint helpText
  | .output lines => lines.forM fun line => IO.println line
  | .failure _ => IO.eprint outcome.stderr
  return UInt32.ofNat outcome.status

/-- Answers one command line. -/
def run (args : List String) : IO UInt32 := do
  match Request.ofArguments args with
  | .view v path => print (.ofContent v path (← readFile path))
  | .help => print .help
  | .usageError => print .usageError

end EvmBlocks.Cli

def main (args : List String) : IO UInt32 := EvmBlocks.Cli.run args
