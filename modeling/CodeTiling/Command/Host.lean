import CodeTiling.Error

/-!
# Files and standard output

What commands need from the world around them. `Host` lists it; a `World` is a plain value that
provides it: files and the text printed so far.

A file may have many names, and a path need not lead to a file. What paths lead to is a part of the
world that commands do not choose (`World.target`); files are told apart by what they are, not by
how they are named. Making a file makes no directory and no link, so what paths lead to stays the
same while a command runs.
-/

namespace CodeTiling.Command

/-- Access to files and to standard output. Files are named by paths. -/
class Host (m : Type → Type) where
  /-- The files that are open for writing. -/
  Handle : Type
  /-- The text of a file. -/
  read : String → m (Except Cause Text)
  /-- Make an empty file, in place of an old one, and open it. -/
  create : String → m (Except Cause Handle)
  /-- Write to the end of an open file. -/
  write : Handle → Text → m (Except Cause Unit)
  /-- Write to standard output. -/
  print : Text → m Unit

/-! ### Paths -/

/-- What becomes of a text that is written to a place that is no file. -/
inductive Sink where
  /-- It is lost. -/
  | discard
  /-- It goes to standard output. -/
  | print
  /-- It is not taken. -/
  | refuse (cause : Cause)
deriving DecidableEq, Repr

/-- A place that is no file: a directory, a device, or one that cannot be reached. -/
structure Special where
  /-- What there is to read, or why it cannot be read. -/
  content : Except Cause Text
  /-- What becomes of texts that are written, or why it cannot be opened for that. -/
  sink : Except Cause Sink

/-- A place that cannot be reached. -/
def Special.blocked (cause : Cause) : Special := ⟨.error cause, .error cause⟩

/-- What a path leads to. Files are known by `ι`, the same for all names of a file. -/
inductive Target (ι : Type) where
  /-- A file, or a place in a directory where one can be made. -/
  | file (i : ι)
  /-- A file or such a place, with a slash behind it. -/
  | slashed (i : ι)
  /-- The path goes on behind a file or such a place as if it were a directory. -/
  | beyond (i : ι)
  /-- A place that is no file. -/
  | special (s : Special)

/-! ### Worlds -/

/-- Files and standard output. -/
structure World (ι : Type) where
  /-- What paths lead to. -/
  target : String → Target ι
  /-- The texts of the files that there are. -/
  files : List (ι × Text) := []
  /-- The text on standard output. -/
  printed : Text := ""

/-- What is open for writing. -/
inductive Opened (ι : Type) where
  /-- A file. -/
  | file (i : ι)
  /-- A place that is no file. -/
  | special (s : Sink)

namespace World

variable {ι α : Type} [DecidableEq ι] (w : World ι)

/-- Set the text of a file, where it stands or else at the end. -/
def put (i : ι) (text : Text) : List (ι × Text) → List (ι × Text)
  | [] => [(i, text)]
  | (j, s) :: rest => if j = i then (i, text) :: rest else (j, s) :: put i text rest

/-- Set the text of a file. -/
def set (i : ι) (text : Text) : World ι := { w with files := put i text w.files }

/-- Write to standard output. -/
def print (text : Text) : World ι := { w with printed := w.printed ++ text }

/-- Why a path that takes a file for a directory leads nowhere. -/
def noDirectory (path : String) (i : ι) : Cause :=
  if (w.files.lookup i).isSome then .notDirectory path else .noSuchFile path

/-- The text of the file at a path. -/
def read (path : String) : Except Cause Text :=
  match w.target path with
  | .file i =>
    match w.files.lookup i with
    | some text => .ok text
    | none => .error (.noSuchFile path)
  | .slashed i | .beyond i => .error (w.noDirectory path i)
  | .special s => s.content

/-- Make an empty file at a path and open it. -/
def create (path : String) : Except Cause (Opened ι × World ι) :=
  match w.target path with
  | .file i => .ok (.file i, w.set i "")
  | .slashed _ => .error (.isDirectory "open" path)
  | .beyond i => .error (w.noDirectory path i)
  | .special s => s.sink.map fun k => (.special k, w)

/-- Write to the end of an open file. -/
def write (text : Text) : Opened ι → Except Cause (Unit × World ι)
  | .file i => .ok ((), w.set i ((w.files.lookup i).getD "" ++ text))
  | .special .discard => .ok ((), w)
  | .special .print => .ok ((), w.print text)
  | .special (.refuse cause) => .error cause

/-- Change a world, or leave it as it is on an error. -/
def change (f : World ι → Except Cause (α × World ι)) : StateM (World ι) (Except Cause α) :=
  fun w => match f w with
  | .ok (a, w') => (.ok a, w')
  | .error cause => (.error cause, w)

end World

/-- A world that commands change. -/
instance {ι : Type} [DecidableEq ι] : Host (StateM (World ι)) where
  Handle := Opened ι
  read path := fun w => (w.read path, w)
  create path := World.change fun w => w.create path
  write o text := World.change fun w => w.write text o
  print text := modify fun w => w.print text

end CodeTiling.Command
