import CodeTiling.Name.Scope
import CodeTiling.Select.Match

/-!
# Expanding templates

A template is expanded over the bindings of a match: names of the pattern become the operands they
stand for, new registers become fresh names, and a line whose only operand is an argument list
becomes one instruction for each argument, the last one first.

The names that are issued stay issued when an expansion fails. Reading the text of a name that the
table never issued fails with `Cause.absent`.
-/

namespace CodeTiling

open Code (Operand Register Instruction Indirect)

/-- The state of an expansion. -/
structure Expansion where
  /-- The names. -/
  naming : Naming
  /-- The new registers of this use of the rule. -/
  issued : List (Name × Name) := []

/-- Computations that issue names and may fail. -/
abbrev ExpandM := ExceptT Error (StateM Expansion)

/-- The text of a name, which the table must have issued. -/
def textOf (n : Name) : ExpandM Text := do
  match (← get).naming.table.text? n with
  | some s => return s
  | none => throw (Cause.absent : Error)

/-- The register of a new-register name: one register for one name. -/
def newRegister (n : Name) : ExpandM Register := do
  match (← get).issued.lookup n with
  | some r => return .virtual r
  | none =>
    let stem ← textOf n
    let s ← get
    let (r, naming) := Naming.fresh stem s.naming
    set ({ naming, issued := (n, r) :: s.issued } : Expansion)
    return .virtual r

/-- The number that a text is the decimal form of, if it fits 64 bits. The number that is read is
written again, so that other texts and other spellings of a number, such as `08` or `+8`, do not
count. -/
def canonicalImm? (s : Text) : Option Int64 :=
  let v := s.value
  if Int64.minValue.toInt ≤ v ∧ v ≤ Int64.maxValue.toInt ∧ Text.decimal v = s then some (.ofInt v)
  else none

/-- The operand of a literal: a number when the text is one in canonical form, else the text. -/
def literalOperand (s : Text) (n : Name) : Operand :=
  match canonicalImm? s with
  | some v => .imm v
  | none => .addr n

variable (b : Bindings)

/-- Expand an operand without parts. -/
def expandAtom : Atom → ExpandM Operand
  | .machine r => return .reg (.machine r)
  | .fresh n => return .reg (← newRegister n)
  | .ref n => do
    match (← get).issued.lookup n, b.value? n with
    | some r, _ => return .reg (.virtual r)
    | none, some a => return a
    | none, none => throw (Cause.unbound (← textOf n) : Error)
  | .literal n => return literalOperand (← textOf n) n
  | .label n => do
    match b.value? n with
    | some a => return a
    | none => throw (Cause.unboundLabel (← textOf n) : Error)

/-- The type of an operand, in the words of messages. -/
def operandType : Operand → Text
  | .imm _ => "asm.Immediate"
  | .addr _ => "asm.Address"
  | .label _ => "asm.Label"
  | .reg _ => "asm.Register"
  | .slot _ => "asm.StackSlot"
  | .indirect _ => "asm.Indirect"

/-- Add a place to the errors of an expansion. -/
def ExpandM.within {α : Type} (p : Place) (x : ExpandM α) : ExpandM α :=
  ExceptT.adapt (Error.within · p) x

/-- Expand a register of a memory operand. -/
def expandTerm (part : AddressPart) : Option AddressTerm → ExpandM Register
  | none => return .none
  | some .nested => ExpandM.within (.addressPart part) (throw (Cause.badAddress .nested : Error))
  | some (.atom a) => ExpandM.within (.addressPart part) do
    match ← expandAtom b a with
    | .reg r => return r
    | x => throw (Cause.badAddress (.typeNotRegister (operandType x)) : Error)

/-- Expand a memory operand, base first. -/
def expandAddress (m : AddressTemplate) : ExpandM Operand := do
  let base ← expandTerm b .base m.base
  let index ← expandTerm b .index m.index
  return .indirect { size := m.size, base, index, scale := m.scale, disp := m.disp }

/-- Expand an operand. -/
def expandOperand : Option TemplateOperand → ExpandM Operand
  | none => throw (Cause.malformed "<nil>" : Error)
  | some (.atom a) => expandAtom b a
  | some (.indirect m) => expandAddress b m

/-- Expand operands from place `j` on. -/
def expandOperands (m : Mnemonic) (j : Nat) :
    List (Option TemplateOperand) → ExpandM (List (Option Operand))
  | [] => return []
  | a :: as => do
    let x ← ExpandM.within (.operand m.text j) (expandOperand b a)
    let xs ← expandOperands m (j + 1) as
    return some x :: xs

/-- The argument list that is the only operand of a line. -/
def lineList? (l : TemplateLine) : Option (List Operand) :=
  match l.args with
  | [some (.atom (.ref n))] => b.list? n
  | _ => none

/-- Expand a line. -/
def expandLine (m : Mnemonic) (l : TemplateLine) : ExpandM (List Instruction) :=
  match lineList? b l with
  | some as => return as.reverse.map fun a => { mnemonic := m, args := [some a] }
  | none => do
    let args ← expandOperands b m 0 l.args
    return [{ mnemonic := m, args }]

/-- Expand lines whose mnemonics are known. -/
def expandLines : List (Mnemonic × TemplateLine) → ExpandM (List Instruction)
  | [] => return []
  | (m, l) :: ls => do
    let is ← expandLine b m l
    let rest ← expandLines ls
    return is ++ rest

/-- A line of a template with its mnemonic. -/
def lineMnemonic (t : NameTable) (l : TemplateLine) : Except Error (Mnemonic × TemplateLine) :=
  match t.text? l.mnemonic with
  | none => .error Cause.absent
  | some s =>
    match Mnemonic.ofText? s with
    | some m => .ok (m, l)
    | none => .error (Cause.unknownMnemonic s)

/-- The lines of a template with their mnemonics. -/
def lineMnemonics (t : NameTable) (template : List TemplateLine) :
    Except Error (List (Mnemonic × TemplateLine)) := template.mapM (lineMnemonic t)

/-- Expand the template of a rule. All mnemonics are looked up before a name is issued. -/
def Rule.expand (r : Rule) (b : Bindings) : ExceptT Error (StateM Naming) (List Instruction) :=
  fun g =>
    match lineMnemonics g.table r.template with
    | .error e => (.error e, g)
    | .ok ls =>
      let (out, s) := expandLines b ls { naming := g }
      (out, s.naming)

end CodeTiling
