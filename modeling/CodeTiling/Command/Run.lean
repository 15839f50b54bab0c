import CodeTiling.Command.Host
import CodeTiling.Command.Line
import CodeTiling.Ir.Listing
import CodeTiling.Live.Report
import CodeTiling.Load.Program
import CodeTiling.Load.Rules
import CodeTiling.Select.Compile

/-!
# Running commands

The four commands. Each takes its files in order, every one with a name table of its own, and stops
at the first error; what was written before stays written. An output file is made before any file is
read, and it stays open until the end. The command line itself is read in `run` only.
-/

namespace CodeTiling.Command

variable {m : Type → Type} [Monad m] [Host m]

/-- Computations with files that may fail. -/
abbrev RunM (m : Type → Type) := ExceptT Error m

/-- Add a place to the errors of a computation. -/
def RunM.within {α : Type} (p : Place) (x : RunM m α) : RunM m α := x.adapt (Error.within · p)

/-- A result that may be an error. -/
def ofExcept {α : Type} (x : Except Error α) : RunM m α := ExceptT.mk (pure x)

/-- What the host does, with its causes as errors. -/
def ofHost {α : Type} (x : m (Except Cause α)) : RunM m α :=
  ExceptT.mk ((fun r => r.mapError fun (c : Cause) => (c : Error)) <$> x)

/-- The text of a file. -/
def readFile (path : String) : RunM m Text := RunM.within .readFile (ofHost (Host.read path))

/-- Load the rules of a file. -/
def loadRules (t : NameTable) (path : String) : RunM m (List Rule × NameTable) := do
  ofExcept (Load.rulesOfText (← readFile path) t)

/-- Load the program of a file. -/
def loadProgram (t : NameTable) (path : String) : RunM m (Ir.Program × NameTable) := do
  ofExcept (Load.programOfText (← readFile path) t)

/-- The text of an assembly. -/
def assemblyText (a : Code.Assembly Code.Fn) (t : NameTable) : Except Error Text :=
  match a.text? t with
  | some text => .ok text
  | none => .error Cause.absent

/-- The assembly text of a program file under a file of rules. -/
def compileFiles (rules program : String) (workers : Int) : RunM m Text := do
  let (rs, t) ← RunM.within .loadRules (loadRules .empty rules)
  let (p, t) ← RunM.within .loadProgram (loadProgram t program)
  let (a, t) ← ofExcept (compile t rs p workers (.inOrder _))
  ofExcept (assemblyText a t)

/-- The report of live registers of a program file under a file of rules. -/
def reportFile (rules program : String) : RunM m Text := do
  let (rs, t) ← RunM.within .loadRules (loadRules .empty rules)
  let (p, t) ← RunM.within (.load program) (loadProgram t program)
  let (a, t) ← RunM.within (.compile program) (ofExcept (compile t rs p 0 (.inOrder _)))
  ofExcept (Live.assemblyText t a)

/-- The listing of a program file. -/
def listFile (program : String) : RunM m Text := do
  let (p, t) ← RunM.within (.load program) (loadProgram .empty program)
  RunM.within (.format program) (ofExcept (Ir.programText t p))

/-- Check a file of rules. -/
def checkFile (rules : String) : RunM m Unit := do
  let (rs, t) ← RunM.within (.load rules) (loadRules .empty rules)
  RunM.within (.check rules) (ofExcept do let _ ← Engine.ofRules t rs; return ())

/-- Where output goes. -/
inductive Output (m : Type → Type) [Host m] where
  /-- Standard output. -/
  | standard
  /-- An open file. -/
  | file (h : Host.Handle m)

/-- The output of a name. A file is made and opened. -/
def openOutput (name : String) : RunM m (Output m) :=
  if name = "" ∨ name = "-" then return .standard
  else RunM.within .createOutput do return .file (← ofHost (Host.create name))

/-- Write to an output. -/
def Output.write (o : Output m) (text : Text) : RunM m Unit :=
  match o with
  | .standard => ExceptT.lift (Host.print text)
  | .file h => RunM.within .writeOutput (ofHost (Host.write h text))

/-- Write a text for each file to the output, under a file of rules that has to be given. -/
def writeEach (s : Settings) (text : String → RunM m Text) : RunM m Unit := do
  if s.rules = "" then throw (Cause.rulesRequired : Error)
  let o ← openOutput s.out
  for file in s.files do
    o.write (← text file)

/-- Run a command with its settings. -/
def runVerb (v : Verb) (s : Settings) : RunM m Unit :=
  match v with
  | .check => for file in s.files do checkFile file
  | .select => writeEach s fun file =>
    RunM.within (.compile file) (compileFiles s.rules file s.workers)
  | .live => writeEach s fun file => reportFile s.rules file
  | .print => for file in s.files do (Output.standard : Output m).write (← listFile file)

/-- Run a command line. -/
def run (args : List String) : RunM m Unit := do
  match ← ofExcept (lineOf args) with
  | none => return ()
  | some line => RunM.within (.command line.verb.text) (runVerb line.verb line.settings)

/-- The exit code of a run: 1 after an error, 2 when its cause is fatal. -/
def exitCode : Except Error Unit → UInt32
  | .ok () => 0
  | .error e => if e.cause.isFatal then 2 else 1

/-- What is said about the error of a run, if there is something to say. -/
def complaint? : Except Error Unit → Option Text
  | .ok () => none
  | .error e => if e.cause.isFatal then none else some e.message

end CodeTiling.Command
