import CodeTiling.Code.Instruction

/-!
# The text of instructions

Intel order, operands divided by commas. A virtual register is its name after a percent sign, a
frame slot its name in braces, a memory operand a sum in brackets. A missing operand cannot be
written, nor can a name that the table never issued: `Instruction.text?` is `none` exactly when
there is one of these.
-/

namespace CodeTiling.Code

variable (t : NameTable)

namespace Register

/-- The text of a register. -/
def text : Register → Text
  | none => "<none>"
  | machine r => r.text
  | virtual n => "%" ++ t.text n

end Register

namespace Indirect

variable (m : Indirect)

/-- The terms of the sum of a memory operand. -/
def terms : List Text :=
  (if m.base.isSome then [m.base.text t] else []) ++
  (if m.index.isSome then [m.index.text t ++ " * " ++ Text.decimal m.scale.toNat] else []) ++
  (m.disp.toList.map fun d => Text.decimal d.toInt)

/-- The text of a memory operand. -/
def text : Text :=
  (if m.size = .unspecified then Text.empty else m.size.text ++ " ptr ") ++
    "[" ++ Text.intercalate " + " (m.terms t) ++ "]"

end Indirect

namespace Operand

/-- The text of an operand. -/
def text : Operand → Text
  | imm v => Text.decimal v.toInt
  | addr n => t.text n
  | label n => t.text n
  | reg r => r.text t
  | slot n => "\x7b" ++ t.text n ++ "\x7d"
  | indirect m => m.text t

/-- The text of an operand, if the table has issued the names in it. -/
def text? (x : Operand) : Option Text := if x.names.all t.isIssued then some (x.text t) else none

end Operand

namespace Instruction

variable (i : Instruction)

/-- The texts of the operands, `none` when one cannot be written. -/
def operandTexts? : Option (List Text) := i.args.mapM fun a => a.bind (Operand.text? t)

/-- A mnemonic and the texts of its operands as one text. -/
def layout (m : Mnemonic) (args : List Text) : Text :=
  m.text ++ (if args.isEmpty then Text.empty else " " ++ Text.intercalate ", " args)

/-- The text of an instruction, `none` when an operand cannot be written. -/
def text? : Option Text := (i.operandTexts? t).map (layout i.mnemonic)

end Instruction

end CodeTiling.Code
