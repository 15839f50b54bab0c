import CodeTiling.Command.Host

/-!
# Trees of directories

A tree of directories without links is one way to say what paths lead to. A path is a list of steps
from the working directory, or from the root when it starts with a slash; a slash at its end asks
for a directory. A `Location` is where steps lead: going up undoes the step before, and `.` stays
where it is. In a tree without links a file has one location, so that files are known by it.
-/

namespace CodeTiling.Command

/-- A place in a tree, by the steps to it from the root; the empty step is the root itself. Steps to
a place that is not counted from the root start with `..` above where they are counted from. -/
abbrev Location := List String

namespace Location

/-- The root of all files. -/
def root : Location := [""]

/-- The directory that a place lies in. -/
def up (l : Location) : Location :=
  match l.getLast? with
  | none => [".."]
  | some s => if s = "" then l else if s = ".." then l ++ [".."] else l.dropLast

/-- One step further. -/
def step (l : Location) (s : String) : Location :=
  if s = "." then l else if s = ".." then l.up else l ++ [s]

end Location

/-- The parts of a path. -/
structure Path where
  /-- Whether the steps start at the root. -/
  fromRoot : Bool
  /-- The steps. -/
  steps : List String
  /-- Whether a slash follows the last step. -/
  slash : Bool
deriving DecidableEq, Repr

namespace Path

/-- The most octets of a step. -/
def stepLimit : Nat := 255

/-- The most octets of a path. -/
def lengthLimit : Nat := 4095

/-- The parts of a path that is written. Several slashes are as good as one. -/
def ofText (s : String) : Path :=
  let parts := (s.toList.splitOn '/').map String.ofList
  { fromRoot := s.toList.head? = some '/'
    steps := parts.filter (· ≠ "")
    slash := parts.getLast? = some "" }

end Path

/-- A tree of directories, without the files in it. -/
structure Tree where
  /-- The working directory. -/
  home : Location
  /-- Whether there is a directory at a place. -/
  isDirectory : Location → Bool
  /-- What is at a place besides directories and files; the path that led there is for errors. -/
  special? : Location → String → Option Special

namespace Tree

variable (t : Tree)

/-- A directory. -/
def directory (path : String) : Special :=
  ⟨.error (.isDirectory "read" path), .error (.isDirectory "open" path)⟩

/-- What a path leads to whose last step leads to a place. -/
def arrive (path : String) (slash : Bool) (s : String) (l : Location) : Target Location :=
  if t.isDirectory l then .special (directory path)
  else
    match t.special? l path with
    | some x =>
      if slash then .special ⟨.error (.notDirectory path), .error (.isDirectory "open" path)⟩
      else .special x
    | none =>
      if Path.stepLimit < s.utf8ByteSize then
        .special ⟨.error (.nameTooLong path),
          .error (if slash then .isDirectory "open" path else .nameTooLong path)⟩
      else if slash then .slashed l
      else .file l

/-- Make the steps of a path from a directory, each but the last one into a directory. -/
def follow (path : String) (slash : Bool) : Location → List String → Target Location
  | _, [] => .special (directory path)
  | l, [s] => t.arrive path slash s (l.step s)
  | l, s :: rest =>
    if Path.stepLimit < s.utf8ByteSize then .special (.blocked (.nameTooLong path))
    else if t.isDirectory (l.step s) then follow path slash (l.step s) rest
    else if (t.special? (l.step s) path).isSome then .special (.blocked (.notDirectory path))
    else .beyond (l.step s)

/-- What a path leads to. -/
def target (path : String) : Target Location :=
  let p := Path.ofText path
  if path = "" then .special (.blocked (.noSuchFile path))
  else if Path.lengthLimit < path.utf8ByteSize then .special (.blocked (.nameTooLong path))
  else t.follow path p.slash (if p.fromRoot then .root else t.home) p.steps

end Tree

end CodeTiling.Command
