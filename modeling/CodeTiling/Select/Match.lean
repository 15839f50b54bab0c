import CodeTiling.Code.Instruction
import CodeTiling.Ir.Program
import CodeTiling.Rule.Basic

/-!
# Matching

A pattern matches the beginning of some code when its names can be given operands that turn it
into that code. Each pattern element that has the shape of its instruction yields equations
between names and operands (`InstrPattern.equations?`); `Bindings.solve` puts them together, so
that a name that stands several times stands for one operand.

`Pattern.matchAt` fails with `Cause.absent` when it comes to a missing pattern element or to a
call with a missing argument.
-/

namespace CodeTiling

open Code (Operand Register)

/-- An equation that a match has to satisfy. -/
inductive Equation where
  /-- The name stands for the operand. -/
  | value (name : Name) (operand : Operand)
  /-- The name stands for the argument list. -/
  | list (name : Name) (operands : List Operand)
deriving DecidableEq, Repr

/-- What names stand for. Operands and argument lists are kept apart. -/
structure Bindings where
  /-- Names that stand for an operand. -/
  values : List (Name × Operand) := []
  /-- Names that stand for an argument list. -/
  lists : List (Name × List Operand) := []
deriving DecidableEq, Repr

/-- The operand of an IR value. -/
def operandOf : Ir.Value → Operand
  | .reg n => .reg (.virtual n)
  | .imm v => .imm v

namespace Bindings

variable (b : Bindings)

/-- The operand that a name stands for. -/
def value? (n : Name) : Option Operand := b.values.lookup n

/-- The argument list that a name stands for. -/
def list? (n : Name) : Option (List Operand) := b.lists.lookup n

/-- Let a name stand for something, unless it already stands for something else. -/
def bind : Equation → Option Bindings
  | .value n a =>
    match b.value? n with
    | none => some { b with values := b.values ++ [(n, a)] }
    | some a' => if a' = a then some b else none
  | .list n l =>
    match b.list? n with
    | none => some { b with lists := b.lists ++ [(n, l)] }
    | some l' => if l' = l then some b else none

/-- Satisfy equations one after another. -/
def solve (b : Bindings) : List Equation → Option Bindings
  | [] => some b
  | e :: es => (b.bind e).bind fun b' => solve b' es

end Bindings

/-- The equation for an operand, when it is of the kind that the pattern wants. -/
def OperandPattern.equation? : OperandPattern → Option Ir.Value → Option Equation
  | .reg n, some (.reg r) => some (.value n (.reg (.virtual r)))
  | .lit n, some (.imm v) => some (.value n (.imm v))
  | _, _ => none

/-- The equation for the destination of an instruction. -/
def destination (n dst : Name) : Equation := .value n (.reg (.virtual dst))

/-- The equations for an instruction, when it has the shape of the pattern. -/
def InstrPattern.equations? : InstrPattern → Ir.Instr → Option (List Equation)
  | .binary op dst l r, .binary op' dst' l' r' =>
    if op = op' then do
      let el ← l.equation? l'
      let er ← r.equation? r'
      return [destination dst dst', el, er]
    else none
  | .unary op dst x, .unary op' dst' x' =>
    if op = op' then do
      let ex ← x.equation? x'
      return [destination dst dst', ex]
    else none
  | .alloca dst, .alloca dst' => some [destination dst dst']
  | .load dst a, .load dst' a' => do
    let ea ← a.equation? a'
    return [destination dst dst', ea]
  | .store a v, .store a' v' => do
    let ea ← a.equation? a'
    let ev ← v.equation? v'
    return [ea, ev]
  | .call dst func list, .call dst' func' args =>
    some [destination dst dst', .value func (.addr func'),
      .list list (args.filterMap (·.map operandOf))]
  | _, _ => none

/-- The equations for a terminator, when it has the shape of the pattern. -/
def TermPattern.equations? : TermPattern → Ir.Terminator → Option (List Equation)
  | .ret none, .ret none => some []
  | .ret (some v), .ret (some v') => do
    let e ← v.equation? (some v')
    return [e]
  | .br cond t e, .br cond' t' e' => do
    let ec ← cond.equation? cond'
    return [ec, .value t (.label t'), .value e (.label e')]
  | .jmp t, .jmp t' => some [.value t (.label t')]
  | _, _ => none

/-- A call pattern has met a call with a missing argument. -/
def missesArgument : InstrPattern → Ir.Instr → Bool
  | .call .., .call _ _ args => args.any Option.isNone
  | _, _ => false

/-- Match one element. A missing instruction matches nothing. -/
def matchElement (b : Bindings) :
    Option InstrPattern → Option Ir.Instr → Except Error (Option Bindings)
  | none, _ => .error Cause.absent
  | some _, none => .ok none
  | some p, some x =>
    if missesArgument p x then .error Cause.absent
    else .ok ((p.equations? x).bind b.solve)

/-- Match elements against the beginning of the code. -/
def matchCode (b : Bindings) :
    List (Option InstrPattern) → List (Option Ir.Instr) → Except Error (Option Bindings)
  | [], _ => .ok (some b)
  | _ :: _, [] => .ok none
  | p :: ps, x :: xs => do
    match ← matchElement b p x with
    | none => return none
    | some b' => matchCode b' ps xs

/-- Match a pattern against the beginning of the code. With a terminator pattern all of the code
has to match and the terminator too. -/
def Pattern.matchAt (p : Pattern) (code : List (Option Ir.Instr)) (term : Option Ir.Terminator) :
    Except Error (Option Bindings) :=
  if code.length < p.code.length then .ok none
  else match p.last, term with
    | none, _ => matchCode {} p.code code
    | some _, none => .ok none
    | some last, some x =>
      if code.length ≠ p.code.length then .ok none
      else do
        match ← matchCode {} p.code code with
        | none => return none
        | some b => return (last.equations? x).bind b.solve

/-- Match a rule: what its names stand for, and how many instructions it uses up. -/
def Rule.matchAt (r : Rule) (code : List (Option Ir.Instr)) (term : Option Ir.Terminator) :
    Except Error (Option (Bindings × Nat)) := do
  return (← r.pattern.matchAt code term).map (·, r.pattern.code.length)

end CodeTiling
