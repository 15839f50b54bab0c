import CodeTiling.Document.Program
import CodeTiling.Ir.Program
import CodeTiling.Load.Basic

/-!
# Programs from documents

Numbers are immediates and texts are registers. The operands of an instruction are loaded before its
destination, and the value of a phi source before its block.
-/

namespace CodeTiling.Load

open Yaml (Value)

/-- Load a value. -/
def value : Value → LoadM Ir.Value
  | .int n => return .imm n
  | .string s => return .reg (← intern s)
  | v => fault (.unsupportedValue v.typeName)

/-- Load operands. -/
def operands (l : List Value) : LoadM (List (Option Ir.Value)) :=
  each (fun i _ => .arg i) (fun v => return some (← value v)) l

/-- The instruction of an operation that is no call, when it has the right number of operands. -/
def instr? (op : Op) (dst : Name) (args : List (Option Ir.Value)) : Option Ir.Instr :=
  if op.isBinary then
    match args with
    | [l, r] => some (.binary op dst l r)
    | _ => none
  else if op.isUnary then
    match args with
    | [x] => some (.unary op dst x)
    | _ => none
  else if op = .alloca then
    match args with
    | [] => some (.alloca dst)
    | _ => none
  else if op = .load then
    match args with
    | [a] => some (.load dst a)
    | _ => none
  else
    match args with
    | [a, v] => some (.store a v)
    | _ => none

/-- Load an instruction. -/
def instr (d : Document.Instr) : LoadM (Option Ir.Instr) := do
  let op ← opOf d.op
  let args ← operands d.args
  let dst ← intern d.dst
  if op = .call then return some (.call dst (← intern d.func) args)
  else
    match instr? op dst args with
    | some i => return some i
    | none => fault (wrongArity op args.length)

/-- The terminator with an operation, operands and labels. -/
def terminator? (op : Text) (args : List (Option Ir.Value)) (labels : List Name) :
    Except SyntaxFault Ir.Terminator :=
  if op = "ret" then
    match args with
    | [] => .ok (.ret none)
    | [v] => .ok (.ret v)
    | _ => .error (.badOperands op)
  else if op = "br" then
    match args, labels with
    | [c], [a, b] => .ok (.br c a b)
    | _, _ => .error (.badOperands op)
  else if op = "jmp" then
    match args, labels with
    | [], [l] => .ok (.jmp l)
    | _, _ => .error (.badOperands op)
  else .error (.unknownTerminator op)

/-- Load a terminator. -/
def terminator (d : Document.Instr) : LoadM Ir.Terminator := do
  let args ← operands d.args
  let labels ← d.labels.mapM intern
  match terminator? d.op args labels with
  | .ok x => return x
  | .error f => fault f

/-- Load a source of a phi. -/
def phiSource (d : Document.PhiSource) : LoadM Ir.PhiSource := do
  let v ← value d.value
  return { block := ← intern d.block, value := some v }

/-- Load a phi. -/
def phi (d : Document.Phi) : LoadM Ir.Phi := do
  let dst ← intern d.dst
  return { dst, sources := ← d.sources.mapM phiSource }

/-- Load a block. -/
def block (d : Document.Block) : LoadM Ir.Block := do
  let label ← intern d.label
  let phis ← each (fun i _ => .phiEntry i) phi d.phis
  let code ← each (fun i _ => .codeEntry i) instr d.code
  let term ← d.term.mapM fun x => within .termEntry (terminator x)
  return { label, phis, code, term }

/-- Load a function. -/
def func (d : Document.Func) : LoadM Ir.Func := do
  let name ← intern d.name
  let args ← d.args.mapM intern
  let blocks ← each (fun _ b => .block b.label) block d.blocks
  return { name, args, blocks }

/-- Load the program of a document. -/
def program (d : Document.Program) : LoadM Ir.Program := do
  return { data := d.data, funcs := ← each (fun _ f => .funcNamed f.name) func d.funcs }

/-- Load the program of a text. -/
def programOfText (text : Text) : LoadM Ir.Program :=
  match Document.programOfText text with
  | .ok d => program d
  | .error cause => throw (cause : Error)

end CodeTiling.Load
