import CodeTiling.Ir.Program
import CodeTiling.Name.Read

/-!
# Listings of programs

The text of a program: data lines, then the functions, each with its blocks, one instruction to a
line. A missing instruction or value has no text and is an error; a return may lack its value. A
name that the table never issued makes a listing fail with `Cause.absent`.
-/

namespace CodeTiling.Ir

variable (t : NameTable)

/-- The text of a number. -/
def immText (v : Int64) : Text := Text.decimal v.toInt

/-- The text of an operand. -/
def valueText : Option Value → Except Error Text
  | some (.reg n) => t.read n
  | some (.imm v) => .ok (immText v)
  | none => .error (Cause.unlistableValue "<nil>")

/-- The texts of operands from place `i` on. -/
def valueTexts (i : Nat) : List (Option Value) → Except Error (List Text)
  | [] => .ok []
  | v :: vs => do
    let s ← Except.within (.arg i) (valueText t v)
    let rest ← valueTexts (i + 1) vs
    return s :: rest

/-- The part of an instruction's line in front of its operands. -/
def Instr.head : Instr → Except Error Text
  | .binary op dst _ _ => do return (← t.read dst) ++ " = " ++ op.text ++ " "
  | .unary op dst _ => do return (← t.read dst) ++ " = " ++ op.text ++ " "
  | .alloca dst => do return (← t.read dst) ++ " = alloca"
  | .load dst _ => do return (← t.read dst) ++ " = load "
  | .store _ _ => .ok "store "
  | .call dst func _ => do return (← t.read dst) ++ " = call " ++ (← t.read func) ++ " "

/-- The line of an instruction. -/
def instrText : Option Instr → Except Error Text
  | none => .error (Cause.unsupportedInstr "<nil>")
  | some x => do
    let head ← x.head t
    let args ← valueTexts t 0 x.operands
    return "\t" ++ head ++ Text.intercalate ", " args ++ "\n"

/-- The line of a terminator. -/
def termText : Terminator → Except Error Text
  | .ret none => .ok "\tret\n"
  | .ret (some v) => do return "\tret " ++ (← valueText t (some v)) ++ "\n"
  | .br cond onTrue onFalse => do
    return "\tbr " ++ (← valueText t cond) ++ ", " ++ (← t.read onTrue) ++ ", " ++
      (← t.read onFalse) ++ "\n"
  | .jmp target => do return "\tjmp " ++ (← t.read target) ++ "\n"

/-- A source of a phi in brackets. -/
def phiSourceText (s : PhiSource) : Except Error Text := do
  return " [" ++ (← t.read s.block) ++ ": " ++ (← valueText t s.value) ++ "]"

/-- The line of a phi. -/
def phiText (p : Phi) : Except Error Text := do
  let dst ← t.read p.dst
  let srcs ← p.sources.mapM (phiSourceText t)
  return "\t" ++ dst ++ " = phi" ++ Text.intercalate "," srcs ++ "\n"

/-- The lines of a block. -/
def blockText (b : Block) : Except Error Text := do
  let label ← t.read b.label
  let phis ← b.phis.mapM fun p => Except.within .phi (phiText t p)
  let code ← b.code.mapM fun x => Except.within .instr (instrText t x)
  let term ← match b.term with
    | none => pure Text.empty
    | some x => Except.within .terminator (termText t x)
  return label ++ ":\n" ++ Text.join phis ++ Text.join code ++ term

/-- The text of a function. -/
def funcText (f : Func) : Except Error Text := do
  let name ← t.read f.name
  let args ← f.args.mapM t.read
  let blocks ← f.blocks.mapM fun b => Except.within (.block (t.text b.label)) (blockText t b)
  return "func " ++ name ++ "(" ++ Text.intercalate ", " args ++ ") \x7b\n" ++
    Text.join blocks ++ "\x7d\n"

/-- The text of a program. A blank line divides the functions from each other and from the data. -/
def programText (p : Program) : Except Error Text := do
  let data := p.data.map fun (d : Text) => "data " ++ d ++ "\n"
  let funcs ← p.funcs.mapM fun f => Except.within (.funcNamed (t.text f.name)) (funcText t f)
  let blank : Text := if p.data.isEmpty then "" else "\n"
  return Text.join data ++ (if funcs.isEmpty then Text.empty else blank) ++
    Text.intercalate "\n" funcs

end CodeTiling.Ir
