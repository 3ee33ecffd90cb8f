/-!
# EvmBlocks.Cli.FileTree

Files as a command finds them: a tree of directories seen from a working
directory, and the reading of a file by its path.

A path is a list of steps divided by slashes.  Every step, also an empty one
after a closing slash, needs a directory to start from.
-/

namespace EvmBlocks.Cli

/-- Why the content of a file cannot be had. -/
inductive OpenFault where
  /-- Nothing has this name. -/
  | absent
  /-- The name is that of a directory. -/
  | isDirectory
  /-- The path goes on behind a file. -/
  | notDirectory
  /-- The path, or one of its steps, is longer than paths may be. -/
  | nameTooLong
  /-- Any other refusal, in the words of the system. -/
  | refused (reason : String)
  deriving DecidableEq, Repr

/-- The text that reports why a file cannot be opened. -/
def OpenFault.message : OpenFault → String
  | .absent => "No such file or directory (os error 2)"
  | .isDirectory => "No such device (os error 19)"
  | .notDirectory => "Not a directory (os error 20)"
  | .nameTooLong => "File name too long (os error 36)"
  | .refused reason => reason

/-- The greatest number of bytes in one step of a path. -/
def maxNameBytes : Nat := 255

/-- The greatest number of bytes in a path. -/
def maxPathBytes : Nat := 4095

/-- A file with its content, or a directory with its entries. -/
inductive Node where
  | file (content : List UInt8)
  | directory (entries : List (String × Node))

/-- A place in a tree: what is there, and the directories above it, nearest
first. -/
structure Place where
  here : Node
  above : List Node

namespace Place

/-- The root of the tree. -/
def root (p : Place) : Place :=
  match p.above.getLast? with
  | none => p
  | some top => ⟨top, []⟩

/-- The directory above; the root is above itself. -/
def parent (p : Place) : Place :=
  match p.above with
  | [] => p
  | here :: above => ⟨here, above⟩

/-- One step of a path. -/
def step (p : Place) (name : String) : Except OpenFault Place :=
  match p.here with
  | .file _ => .error .notDirectory
  | .directory entries =>
      if name = "" ∨ name = "." then .ok p
      else if name = ".." then .ok p.parent
      else if maxNameBytes < name.utf8ByteSize then .error .nameTooLong
      else
        match entries.lookup name with
        | none => .error .absent
        | some node => .ok ⟨node, p.here :: p.above⟩

/-- The place that a path leads to. -/
def walk (p : Place) (path : String) : Except OpenFault Place :=
  if maxPathBytes < path.utf8ByteSize then .error .nameTooLong
  else
    let start := if path.toList.head? = some '/' then p.root else p
    (path.splitOn "/").foldlM step start

/-- The content of the file that a path leads to. -/
def read (p : Place) (path : String) : Except OpenFault (List UInt8) :=
  match p.walk path with
  | .error fault => .error fault
  | .ok ⟨.file content, _⟩ => .ok content
  | .ok ⟨.directory _, _⟩ => .error .isDirectory

end Place

end EvmBlocks.Cli
