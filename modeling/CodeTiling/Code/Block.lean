import CodeTiling.Code.Text
import CodeTiling.Error
import CodeTiling.Ir.Program

/-!
# Blocks and functions of code

A block of code has a label, lines, the phis it took over from the program, and the labels of its
successors. A function is a list of blocks; a label means the first block that carries it.
-/

namespace CodeTiling.Code

/-- A line of assembly. -/
inductive Line where
  /-- A line that stands as it is. -/
  | directive (text : Text)
  /-- An instruction. -/
  | instr (i : Instruction)
deriving DecidableEq, Repr

/-- A block of code. -/
structure Block where
  /-- The label. -/
  label : Name
  /-- The lines. -/
  lines : List Line := []
  /-- The phis at the start. -/
  phis : List Ir.Phi := []
  /-- The labels where control may go next, with repetitions. -/
  successors : List Name := []
deriving DecidableEq, Repr

namespace Block

variable (b : Block)

/-- The instructions without the directives. -/
def instructions : List Instruction :=
  b.lines.filterMap fun
    | .instr i => some i
    | .directive _ => none

/-- Add a line at the end. -/
def emit (l : Line) : Block := { b with lines := b.lines ++ [l] }

/-- Add phis after those already there. -/
def addPhis (phis : List Ir.Phi) : Block := { b with phis := b.phis ++ phis }

/-- Add successors after those already there. -/
def addSuccessors (labels : List Name) : Block :=
  { b with successors := b.successors ++ labels }

/-- The successors without repetitions, in the order in which they are first seen. -/
def uniqueSuccessors : List Name :=
  b.successors.foldl (fun seen s => if s ∈ seen then seen else seen ++ [s]) []

/-- The text of a line, `none` when it cannot be written. -/
def lineText? (t : NameTable) : Line → Option Text
  | .directive s => some (s ++ "\n")
  | .instr i => (i.text? t).map fun s => "    " ++ s ++ "\n"

/-- The text of a block, line by line; phis are not written. -/
def text? (t : NameTable) : Option Text := (b.lines.mapM (lineText? t)).map Text.join

end Block

/-- A function of code. -/
structure Fn where
  /-- The names of the arguments. -/
  args : List Name := []
  /-- The blocks, in the order in which they are written. -/
  blocks : List Block := []
deriving DecidableEq, Repr

namespace Fn

variable (f : Fn)

/-- The labels of the blocks in order. -/
def labels : List Name := f.blocks.map (·.label)

/-- The first block with a label. -/
def getBlock? (label : Name) : Option Block := f.blocks.find? (·.label = label)

/-- The place of the first block with a label. -/
def blockIndex? (label : Name) : Option Nat := f.blocks.findIdx? (·.label = label)

/-- The first successor label that no block carries, with the block it stands in. -/
def danglingSuccessor? : Option (Name × Name) :=
  f.blocks.findSome? fun b =>
    (b.successors.find? fun s => (f.getBlock? s).isNone).map fun s => (b.label, s)

/-- Every successor label is carried by a block. -/
def checkSuccessors : Except Error Unit :=
  match f.danglingSuccessor? with
  | some (b, s) => .error (Cause.noSuccessor b.index s.index)
  | none => .ok ()

end Fn

end CodeTiling.Code
