/-!
# EvmBlocks.Cli.Request

What a command line asks for.

A command line names one of three views and the path of a file, or asks for
help.  Arguments are read from left to right, and the first one that decides
the outcome does so.
-/

namespace EvmBlocks.Cli

/-- The three ways to look at a program. -/
inductive View where
  | disasm
  | blocks
  | info
  deriving DecidableEq, Repr

/-- The view with this name. -/
def View.ofName? : String → Option View
  | "disasm" => some .disasm
  | "blocks" => some .blocks
  | "info" => some .info
  | _ => none

/-- What a command line asks for. -/
inductive Request where
  /-- A view of the program in a file. -/
  | view (view : View) (path : String)
  /-- An explanation of the command line. -/
  | help
  /-- Nothing that makes sense. -/
  | usageError
  deriving DecidableEq, Repr

/-- What a single argument looks like. -/
inductive Argument where
  /-- The word from which on nothing is an option. -/
  | separator
  | helpOption
  | unknownOption
  | plain
  deriving DecidableEq, Repr

/-- Looks at an argument.  Behind one hyphen every letter is an option of its
own, so the first letter decides; a lone hyphen is a plain word. -/
def Argument.ofChars : List Char → Argument
  | ['-', '-'] => .separator
  | '-' :: '-' :: name => if name = "help".toList then .helpOption else .unknownOption
  | '-' :: 'h' :: _ => .helpOption
  | '-' :: _ :: _ => .unknownOption
  | _ => .plain

/-- Looks at an argument. -/
def Argument.ofString (s : String) : Argument := ofChars s.toList

namespace Request

/-! ## Help on a topic -/

/-- Help may be asked on one view, or on help itself. -/
def ofHelpTopics : List String → Request
  | [] => .help
  | [topic] => if topic = "help" ∨ (View.ofName? topic).isSome then .help else .usageError
  | _ => .usageError

/-! ## A view of a file -/

/-- A view of the file at the path that has been read, which must not be
empty. -/
def ofPath (v : View) : Option String → Request
  | none => .usageError
  | some path => if path = "" then .usageError else .view v path

/-- Reads arguments behind the separator: only the path may be left. -/
def ofWords (v : View) (path : Option String) : List String → Request
  | [] => ofPath v path
  | word :: rest =>
      match path with
      | none => ofWords v (some word) rest
      | some _ => .usageError

/-- Reads the arguments of a view, `path` being the one read so far. -/
def ofViewArguments (v : View) (path : Option String) : List String → Request
  | [] => ofPath v path
  | arg :: rest =>
      match Argument.ofString arg with
      | .separator => ofWords v path rest
      | .helpOption => if path = some "" then .usageError else .help
      | .unknownOption => .usageError
      | .plain =>
          match path with
          | none => ofViewArguments v (some arg) rest
          | some _ => .usageError

/-! ## The whole command line -/

/-- What a command line asks for. -/
def ofArguments : List String → Request
  | [] => .usageError
  | first :: rest =>
      if first = "help" then ofHelpTopics rest
      else
        match View.ofName? first with
        | some v => ofViewArguments v none rest
        | none => if Argument.ofString first = .helpOption then .help else .usageError

end Request

end EvmBlocks.Cli
