import CodeTiling.Ir.Op
import CodeTiling.Name.Table

/-!
# Programs of the intermediate representation

A program is a list of functions of labelled blocks. A block has phis at its start, code, and at
most one terminator. Operands and instructions may be missing (`none`): such a program can be
written down, and each consumer says what it does with it.
-/

namespace CodeTiling.Ir

/-- An operand: a register or a 64-bit number. -/
inductive Value where
  /-- A register by its name. -/
  | reg (name : Name)
  /-- A number. -/
  | imm (value : Int64)
deriving DecidableEq, Repr

/-- An instruction. -/
inductive Instr where
  /-- An operation on two values. -/
  | binary (op : Op) (dst : Name) (left right : Option Value)
  /-- An operation on one value. -/
  | unary (op : Op) (dst : Name) (value : Option Value)
  /-- The address of a new stack slot. -/
  | alloca (dst : Name)
  /-- A read of memory. -/
  | load (dst : Name) (addr : Option Value)
  /-- A write to memory. -/
  | store (addr value : Option Value)
  /-- A call of a function by its name. -/
  | call (dst func : Name) (args : List (Option Value))
deriving DecidableEq, Repr

namespace Instr

/-- The operation of an instruction. -/
def op : Instr → Op
  | binary op .. => op
  | unary op .. => op
  | alloca .. => .alloca
  | load .. => .load
  | store .. => .store
  | call .. => .call

/-- The operands that an instruction reads. -/
def operands : Instr → List (Option Value)
  | binary _ _ l r => [l, r]
  | unary _ _ x => [x]
  | alloca _ => []
  | load _ a => [a]
  | store a v => [a, v]
  | call _ _ args => args

end Instr

/-- The end of a block. -/
inductive Terminator where
  /-- Return, with a value or without. -/
  | ret (value : Option Value)
  /-- Go to one of two blocks. -/
  | br (cond : Option Value) (onTrue onFalse : Name)
  /-- Go to a block. -/
  | jmp (target : Name)
deriving DecidableEq, Repr

namespace Terminator

/-- The labels where control may go next. -/
def successors : Terminator → List Name
  | ret _ => []
  | br _ t e => [t, e]
  | jmp t => [t]

end Terminator

/-- The value of a phi when control comes from a block. -/
structure PhiSource where
  /-- The label of the block control comes from. -/
  block : Name
  /-- The value in that case. -/
  value : Option Value
deriving DecidableEq, Repr

/-- A register whose value depends on where control comes from. -/
structure Phi where
  /-- The register. -/
  dst : Name
  /-- The values by block. -/
  sources : List PhiSource
deriving DecidableEq, Repr

/-- A block of straight code. -/
structure Block where
  /-- The label. -/
  label : Name
  /-- The phis at the start. -/
  phis : List Phi := []
  /-- The instructions. -/
  code : List (Option Instr) := []
  /-- The end of the block. -/
  term : Option Terminator := none
deriving DecidableEq, Repr

/-- A function. -/
structure Func where
  /-- The name of the function. -/
  name : Name
  /-- The names of its arguments. -/
  args : List Name := []
  /-- Its blocks, the entry first. -/
  blocks : List Block := []
deriving DecidableEq, Repr

namespace Func

/-- The place of the first block with a label. -/
def findBlock (f : Func) (label : Name) : Option Nat := f.blocks.findIdx? (·.label = label)

end Func

/-- A program: lines of data and functions. -/
structure Program where
  /-- Lines for the data section. -/
  data : List Text := []
  /-- The functions. -/
  funcs : List Func := []
deriving DecidableEq, Repr

end CodeTiling.Ir
