import CodeTiling.Machine.Mnemonic
import CodeTiling.Machine.Reg
import CodeTiling.Name.Table

/-!
# Instructions and the registers they use

An instruction is a mnemonic with operands. Its inputs are the registers it reads and its outputs
those it writes; the registers of a memory operand are always read, also when that operand is the
destination.

`Instruction.inputs` and `Instruction.outputs` leave out the absent register `Register.none`.
-/

namespace CodeTiling.Code

/-- A register of the code. -/
inductive Register where
  /-- No register. -/
  | none
  /-- A register of the machine. -/
  | machine (reg : MachineReg)
  /-- A register that is to be allocated, by its name. -/
  | virtual (name : Name)
deriving DecidableEq, Repr

namespace Register

/-- There is a register. -/
def isSome : Register → Bool
  | none => false
  | _ => true

end Register

/-- A memory operand: base plus scaled index plus displacement. -/
structure Indirect where
  /-- How much is accessed. -/
  size : Size := .unspecified
  /-- The base register. -/
  base : Register := .none
  /-- The index register. -/
  index : Register := .none
  /-- What the index is multiplied by. -/
  scale : UInt32 := 0
  /-- The displacement. -/
  disp : Option Int32 := none
deriving DecidableEq, Repr

/-- An operand of an instruction. -/
inductive Operand where
  /-- A number. -/
  | imm (value : Int64)
  /-- A symbol or any text that stands as it is. -/
  | addr (name : Name)
  /-- The label of a block. -/
  | label (name : Name)
  /-- A register. -/
  | reg (reg : Register)
  /-- A slot of the frame whose place is not known yet. -/
  | slot (name : Name)
  /-- A memory operand. -/
  | indirect (mem : Indirect)
deriving DecidableEq, Repr

/-- An instruction. Operands may be missing. -/
structure Instruction where
  /-- What is done. -/
  mnemonic : Mnemonic
  /-- To what it is done. -/
  args : List (Option Operand) := []
deriving DecidableEq, Repr

/-- The registers of a memory operand, base first. -/
def Indirect.registers (m : Indirect) : List Register :=
  [m.base, m.index].filter Register.isSome

/-- The registers of an operand. -/
def Operand.registers : Operand → List Register
  | .reg r => [r].filter Register.isSome
  | .indirect m => m.registers
  | _ => []

/-- The name in a register. -/
def Register.names : Register → List Name
  | .virtual n => [n]
  | _ => []

/-- The names in an operand, which its text is made of. -/
def Operand.names : Operand → List Name
  | .imm _ => []
  | .addr n => [n]
  | .label n => [n]
  | .reg r => r.names
  | .slot n => [n]
  | .indirect m => m.base.names ++ m.index.names

/-- The registers of an operand that may be missing. -/
def registersOf (a : Option Operand) : List Register := a.elim [] Operand.registers

/-- The operand is a memory operand. -/
def isIndirect : Option Operand → Bool
  | some (.indirect _) => true
  | _ => false

namespace Instruction

variable (i : Instruction)

/-- How the first operand is used. A move to memory writes no register, so it only reads. -/
def accessClass : AccessClass :=
  if i.mnemonic = .mov ∧ i.args.head?.any isIndirect then .readOnly
  else i.mnemonic.accessClass

/-- The registers that are read, in the order of the operands. A destination that is written and
not read counts only when it is a memory operand. -/
def inputs : List Register :=
  match i.args with
  | [] => []
  | first :: rest =>
    if i.accessClass = .overwrite ∧ ¬isIndirect first then rest.flatMap registersOf
    else i.args.flatMap registersOf

/-- The registers that are written. -/
def outputs : List Register :=
  match i.args with
  | some (.reg r) :: _ =>
    if i.accessClass = .readOnly then [] else [r].filter Register.isSome
  | _ => []

end Instruction

end CodeTiling.Code
