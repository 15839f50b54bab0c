import CodeTiling.Error
import CodeTiling.Ir.Op
import CodeTiling.Name.Table

/-!
# Giving documents a meaning

Loading a document interns its names in the order in which they are met and may fail. `LoadM` is
the kind of computation that does so.
-/

namespace CodeTiling.Load

/-- Computations that intern names and may fail. -/
abbrev LoadM := StateT NameTable (Except Error)

/-- The name of a text. -/
def intern (s : Text) : LoadM Name := fun t => .ok (t.intern s)

/-- Fail for a fault of the document. -/
def fault {α : Type} (f : SyntaxFault) : LoadM α := throw (Cause.badSyntax f : Error)

/-- Add a place to the errors of a computation. -/
def within {α : Type} (p : Place) (x : LoadM α) : LoadM α := fun t => Except.within p (x t)

/-- Load the entries of a list one after another, the first one with number `i`. Errors name the
entry. -/
def eachFrom {α β : Type} (place : Nat → α → Place) (load : α → LoadM β) (i : Nat) :
    List α → LoadM (List β)
  | [] => return []
  | x :: xs => do
    let y ← within (place i x) (load x)
    let ys ← eachFrom place load (i + 1) xs
    return y :: ys

/-- Load the entries of a list. -/
def each {α β : Type} (place : Nat → α → Place) (load : α → LoadM β) (l : List α) :
    LoadM (List β) :=
  eachFrom place load 0 l

/-- The operation with a text. -/
def opOf (s : Text) : LoadM Op :=
  match Op.ofText? s with
  | some op => return op
  | none => fault (.unknownOp s)

/-- How many operands an operation takes; a call takes any number. -/
def arityOf (op : Op) : Nat :=
  if op.isBinary || op = .store then 2
  else if op.isUnary || op = .load then 1
  else 0

/-- The fault of an operation with `got` operands. -/
def wrongArity (op : Op) (got : Nat) : SyntaxFault := .wrongArity op.text (arityOf op) got

end CodeTiling.Load
