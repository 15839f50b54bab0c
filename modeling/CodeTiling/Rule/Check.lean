import CodeTiling.Machine.Mnemonic
import CodeTiling.Name.Read
import CodeTiling.Rule.Basic

/-!
# Checking rules

`Rule.check` finds the first mistake in a rule. The pattern comes first: it has an element, the
operations fit, no name stands twice in one element, and no name stands for two kinds of things.
Then the template, line by line and operand by operand: references are to names of the pattern or
to new registers further left, an argument list stands alone, and a memory operand is made of
registers.

The texts of names stand in the errors, and mnemonics are looked up by theirs, so a name that the
table never issued can make the check fail with `Cause.absent`.
-/

namespace CodeTiling

/-- The kind that a list of bindings gives to a name. -/
def kindOf? (bound : List Binding) (n : Name) : Option BindKind :=
  (bound.find? (·.name = n)).map (·.kind)

/-- The operation of a pattern fits the pattern. -/
def checkOp : Option InstrPattern → Except Error Unit
  | none => .error Cause.missingPattern
  | some (.binary op ..) => if op.isBinary then .ok () else .error (Cause.notBinary op.text)
  | some (.unary op ..) => if op.isUnary then .ok () else .error (Cause.notUnary op.text)
  | some _ => .ok ()

/-- The operations of the elements from place `i` on fit. -/
def checkOps (i : Nat) : List (Option InstrPattern) → Except Error Unit
  | [] => .ok ()
  | p :: ps => do
    Except.within (.element i) (checkOp p)
    checkOps (i + 1) ps

variable (t : NameTable)

/-- Add the bindings of one element. `here` has the names of the element so far, `bound` the
bindings of the pattern so far. -/
def bindElement (here : List Name) (bound : List Binding) :
    List Binding → Except Error (List Binding)
  | [] => .ok bound
  | b :: bs =>
    if b.name ∈ here then .error (t.blame b.name Cause.rebound)
    else match kindOf? bound b.name with
      | none => bindElement (b.name :: here) (bound ++ [b]) bs
      | some k =>
        if k = b.kind then bindElement (b.name :: here) bound bs
        else .error (t.blame b.name fun s => .conflict s k b.kind)

/-- Add the bindings of the elements from place `i` on. -/
def bindElements (i : Nat) (bound : List Binding) :
    List (List Binding) → Except Error (List Binding)
  | [] => .ok bound
  | e :: es => do
    let bound' ← Except.within (.element i) (bindElement t [] bound e)
    bindElements (i + 1) bound' es

/-- Check a pattern and list what its names stand for. -/
def Pattern.check (p : Pattern) : Except Error (List Binding) :=
  if p.code.isEmpty ∧ p.last.isNone then .error Cause.emptyPattern
  else do
    checkOps 0 p.code
    bindElements t 0 [] p.elements

/-! ### Templates

While a template is read, `fresh` has the names of the new registers met so far. -/

variable (bound : List Binding)

/-- Check an operand without parts: whether it is a register, and the new registers after it. -/
def checkAtom (fresh : List Name) : Atom → Except Error (Bool × List Name)
  | .machine r =>
    if r.isValid then .ok (true, fresh) else .error (Cause.badMachineReg r.code)
  | .fresh n =>
    if (kindOf? bound n).isSome then .error (t.blame n Cause.shadowed)
    else .ok (true, n :: fresh)
  | .ref n =>
    if n ∈ fresh then .ok (true, fresh)
    else match kindOf? bound n with
      | none | some .label => .error (t.blame n Cause.unbound)
      | some k => .ok (k = .register, fresh)
  | .literal _ => .ok (false, fresh)
  | .label n =>
    if kindOf? bound n = some .label then .ok (false, fresh)
    else .error (t.blame n Cause.unboundLabel)

/-- The operand refers to an argument list. -/
def isListRef : Atom → Bool
  | .ref n => kindOf? bound n = some .arguments
  | _ => false

/-- Check a register of a memory operand. -/
def checkTerm (part : AddressPart) (fresh : List Name) :
    Option AddressTerm → Except Error (List Name)
  | none => .ok fresh
  | some .nested => .error (Cause.badAddress (.nestedPart part))
  | some (.atom a) =>
    if isListRef bound a then
      Except.within (.addressPart part) (.error Cause.listInAddress)
    else do
      let (isReg, fresh') ← Except.within (.addressPart part) (checkAtom t bound fresh a)
      if isReg then return fresh'
      else .error (Cause.badAddress (.partNotRegister part))

/-- Check a memory operand. -/
def checkAddress (fresh : List Name) (m : AddressTemplate) : Except Error (List Name) :=
  if m.index.isNone ∧ m.scale ≠ 0 then .error (Cause.badAddress .scaleWithoutIndex)
  else if m.index.isSome ∧ m.scale = 0 then .error (Cause.badAddress .indexWithoutScale)
  else do
    let fresh' ← checkTerm t bound .base fresh m.base
    checkTerm t bound .index fresh' m.index

/-- Check an operand. `alone` says that its line has no other. -/
def checkOperand (alone : Bool) (fresh : List Name) :
    Option TemplateOperand → Except Error (List Name)
  | none => .error Cause.missingOperand
  | some (.indirect m) => checkAddress t bound fresh m
  | some (.atom a) =>
    match a with
    | .ref n =>
      if isListRef bound a ∧ ¬alone then .error (t.blame n Cause.listNotAlone)
      else (checkAtom t bound fresh a).map Prod.snd
    | _ => (checkAtom t bound fresh a).map Prod.snd

/-- Check the operands of a line from place `j` on. -/
def checkOperands (mnemonic : Text) (alone : Bool) (j : Nat) (fresh : List Name) :
    List (Option TemplateOperand) → Except Error (List Name)
  | [] => .ok fresh
  | a :: as => do
    let fresh' ← Except.within (.operand mnemonic j) (checkOperand t bound alone fresh a)
    checkOperands mnemonic alone (j + 1) fresh' as

/-- Check a line. -/
def checkLine (fresh : List Name) (l : TemplateLine) : Except Error (List Name) := do
  let m ← t.read l.mnemonic
  match Mnemonic.ofText? m with
  | none => .error (Cause.unknownMnemonic m)
  | some _ => checkOperands t bound m (l.args.length = 1) 0 fresh l.args

/-- Check the lines from place `i` on. -/
def checkLines (i : Nat) (fresh : List Name) : List TemplateLine → Except Error Unit
  | [] => .ok ()
  | l :: ls => do
    let fresh' ← Except.within (.line i) (checkLine t bound fresh l)
    checkLines (i + 1) fresh' ls

/-- Find the first mistake in a rule. -/
def Rule.check (r : Rule) : Except Error Unit := do
  let bound ← Except.within .pattern (r.pattern.check t)
  checkLines t bound 0 [] r.template

end CodeTiling
