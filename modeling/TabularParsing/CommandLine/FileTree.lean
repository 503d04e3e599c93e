import TabularParsing.CommandLine.Failure

/-!
# Files and paths

A tree of directories and files, and what a path names in it for a run that works in one of its
directories. Reading the file that stands for the program's own input uses the input up.
-/
namespace TabularParsing.CommandLine

inductive FileTree where
  | file (content : String)
  /-- A file whose bytes are no UTF-8. -/
  | binary
  /-- What is left of the program's own input. -/
  | input
  /-- A device that is not there. -/
  | unplugged
  | directory (entries : List (String × FileTree))

/-- A place in a tree with the directories above it, the nearest first. -/
structure Place where
  here : FileTree
  above : List FileTree

/-- The longest name of a file, in bytes. -/
def maxName : Nat := 255

/-- The longest path, in bytes. -/
def maxPath : Nat := 4095

/-- One part further along a path. An empty part and a point stay where they are, two points lead
up, and nothing leads on from a file. Nothing is above the topmost directory. -/
def Place.step (p : Place) (part : String) : Except FileFault Place :=
  match p.here with
  | .directory entries =>
    if part = "" ∨ part = "." then .ok p
    else if part = ".." then
      match p.above with
      | [] => .ok p
      | parent :: above => .ok ⟨parent, above⟩
    else if maxName < part.utf8ByteSize then .error .nameTooLong
    else
      match entries.lookup part with
      | some child => .ok ⟨child, p.here :: p.above⟩
      | none => .error .notFound
  | _ => .error .notDirectory

/-- The topmost directory. -/
def Place.top (p : Place) : Place := ⟨p.above.getLast?.getD p.here, []⟩

/-- What a path names, seen from a place. -/
def Place.find (p : Place) (path : String) : Except FileFault FileTree :=
  if path = "" then .error .notFound
  else if maxPath < path.utf8ByteSize then .error .nameTooLong
  else
    let start := if path.startsWith "/" then p.top else p
    ((path.splitOn "/").foldlM Place.step start).map Place.here

/-- The content of the file that a path names, and the input that is left. -/
def Place.read (p : Place) (path input : String) : Except FileFault String × String :=
  match p.find path with
  | .error fault => (.error fault, input)
  | .ok (.file content) => (.ok content, input)
  | .ok .binary => (.error .garbled, input)
  | .ok .input => (.ok input, "")
  | .ok .unplugged => (.error .noDevice, input)
  | .ok (.directory _) => (.error .directory, input)

end TabularParsing.CommandLine
