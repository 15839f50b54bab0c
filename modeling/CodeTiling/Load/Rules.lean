import CodeTiling.Document.Rules
import CodeTiling.Load.Basic
import CodeTiling.Rule.Basic

/-!
# Rules from documents

A pattern operand with a hash in front stands for a number, any other for a register. Of the
operands of a template line, `%x` is a new register, `$x` a name of the pattern, `@x` a label; the
name of a machine register is that register, a record is a memory operand, and everything else is
taken literally. Rules are not checked here.
-/

namespace CodeTiling.Load

open Yaml (Value)

/-- Load an operand of a pattern. -/
def operandPattern (s : Text) : LoadM OperandPattern :=
  match s.after? "#" with
  | some name => return .lit (← intern name)
  | none => return .reg (← intern s)

/-- The pattern of an operation that is no call, when it has the right number of operands. -/
def instrPattern? (op : Op) (dst : Name) (args : List OperandPattern) : Option InstrPattern :=
  if op.isBinary then
    match args with
    | [l, r] => some (.binary op dst l r)
    | _ => none
  else if op.isUnary then
    match args with
    | [x] => some (.unary op dst x)
    | _ => none
  else if op = .alloca then
    match args with
    | [] => some (.alloca dst)
    | _ => none
  else if op = .load then
    match args with
    | [a] => some (.load dst a)
    | _ => none
  else
    match args with
    | [a, v] => some (.store a v)
    | _ => none

/-- Load a pattern of an instruction. -/
def instrPattern (d : Document.Pattern) : LoadM (Option InstrPattern) := do
  let op ← opOf d.op
  let dst ← intern d.dst
  let args ← d.args.mapM operandPattern
  if op = .call then
    let func ← intern d.func
    return some (.call dst func (← intern d.list))
  else
    match instrPattern? op dst args with
    | some p => return some p
    | none => fault (wrongArity op args.length)

/-- Load a pattern of a terminator. -/
def termPattern (d : Document.Pattern) : LoadM TermPattern :=
  if d.op = "ret" then
    match d.args with
    | [] => return .ret none
    | [a] => return .ret (some (← operandPattern a))
    | _ => fault (.badOperands d.op)
  else if d.op = "br" then
    match d.args, d.labels with
    | [c], [a, b] => return .br (← operandPattern c) (← intern a) (← intern b)
    | _, _ => fault (.badOperands d.op)
  else if d.op = "jmp" then
    match d.args, d.labels with
    | [], [l] => return .jmp (← intern l)
    | _, _ => fault (.badOperands d.op)
  else fault (.unknownTerminator d.op)

/-- Load a template operand that is a text. -/
def atom (s : Text) : LoadM Atom :=
  match s.after? "%", s.after? "$", s.after? "@", MachineReg.ofText? s with
  | some name, _, _, _ => return .fresh (← intern name)
  | _, some name, _, _ => return .ref (← intern name)
  | _, _, some name, _ => return .label (← intern name)
  | _, _, _, some r => return .machine r
  | _, _, _, _ => return .literal (← intern s)

/-- Load a register of a memory operand. -/
def addressTerm (part : AddressPart) : Value → LoadM AddressTerm
  | .string s => return .atom (← atom s)
  | v => fault (.registerExpected part v.typeName)

/-- Load the size of a memory operand. What is no text counts as an empty one. -/
def sizeOf (v : Value) : LoadM Size :=
  let s := match v with
    | .string s => s
    | _ => ""
  match Size.ofText? s with
  | some size => return size
  | none => fault (.badSize v.text)

/-- Load the scale of a memory operand. -/
def scaleOf (v : Value) : LoadM UInt32 :=
  match v with
  | .int n =>
    if n = 1 ∨ n = 2 ∨ n = 4 ∨ n = 8 then return .ofNat n.toInt.toNat else fault (.badScale v.text)
  | _ => fault (.badScale v.text)

/-- Load the displacement of a memory operand. -/
def dispOf (v : Value) : LoadM Int32 :=
  match v with
  | .int n =>
    if Int32.minValue.toInt ≤ n.toInt ∧ n.toInt ≤ Int32.maxValue.toInt then return .ofInt n.toInt
    else fault (.badDisp v.text)
  | _ => fault (.badDisp v.text)

/-- Load a field of a memory operand. -/
def addressField (m : AddressTemplate) (name : Text) (v : Value) : LoadM AddressTemplate :=
  if name = "size" then return { m with size := ← sizeOf v }
  else if name = "base" then return { m with base := some (← addressTerm .base v) }
  else if name = "index" then return { m with index := some (← addressTerm .index v) }
  else if name = "scale" then return { m with scale := ← scaleOf v }
  else if name = "disp" then return { m with disp := some (← dispOf v) }
  else fault (.unknownField name)

/-- Load a template operand. -/
def templateOperand : Value → LoadM (Option TemplateOperand)
  | .string s => return some (.atom (← atom s))
  | .int n => return some (.atom (.literal (← intern (toString n.toInt))))
  | .record fields => do
    return some (.indirect (← fields.foldlM (fun m (name, v) => addressField m name v) {}))
  | v => fault (.unsupportedOperand v.typeName)

/-- Load a line of a template. -/
def templateLine : List Value → LoadM TemplateLine
  | [] => fault .emptyLine
  | .string s :: vs => do
    let mnemonic ← intern s
    return { mnemonic, args := ← each (fun i _ => .operand s i) templateOperand vs }
  | v :: _ => fault (.mnemonicExpected v.typeName)

/-- Load a rule. -/
def rule (d : Document.Rule) : LoadM Rule := do
  let code ← each (fun i _ => .matchEntry i) instrPattern d.code
  let last ← d.last.mapM fun p => within .last (termPattern p)
  let template ← each (fun i _ => .asmEntry i) templateLine d.lines
  return { name := d.name, pattern := { code, last }, template }

/-- Load the rules of a document. -/
def rules (l : List Document.Rule) : LoadM (List Rule) :=
  each (fun i d => .rule i d.name) rule l

/-- Load the rules of a text. -/
def rulesOfText (text : Text) : LoadM (List Rule) :=
  match Document.rulesOfText text with
  | .ok l => rules l
  | .error cause => throw (cause : Error)

end CodeTiling.Load
