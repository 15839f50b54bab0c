import CodeTiling.Code.Block
import CodeTiling.Rule.Check
import CodeTiling.Select.Expand

/-!
# Selecting instructions

An `Engine` is a list of checked rules. It covers the code of a block from the beginning, each
time with the first rule in the list that matches there, until the code and the terminator are
used up. A rule that would use up nothing is passed over.

A missing instruction where no rule matches, and the name of a function or of a block that the
table never issued, make a selection fail with `Cause.absent`.
-/

namespace CodeTiling

open Code (Instruction Line)

/-- Checked rules, the ones to try first in front. -/
structure Engine where
  /-- The rules. -/
  rules : List Rule

/-- Computations that issue names and may fail. -/
abbrev SelectM := ExceptT Error (StateM Naming)

/-- Check rules from place `i` on. -/
def checkRules (t : NameTable) (i : Nat) : List Rule → Except Error Unit
  | [] => .ok ()
  | r :: rs => do
    Except.within (.rule i r.name) (r.check t)
    checkRules t (i + 1) rs

/-- An engine of rules without mistakes. -/
def Engine.ofRules (t : NameTable) (rules : List Rule) : Except Error Engine := do
  checkRules t 0 rules
  return ⟨rules⟩

/-- A rule that uses up nothing. -/
def Rule.isIdle (r : Rule) : Bool := r.pattern.code.isEmpty && r.pattern.last.isNone

/-- The first rule that matches and uses something up. -/
def firstMatch (code : List (Option Ir.Instr)) (term : Option Ir.Terminator) :
    List Rule → Except Error (Option (Rule × Bindings))
  | [] => .ok none
  | r :: rs => do
    match ← r.pattern.matchAt code term with
    | none => firstMatch code term rs
    | some b => if r.isIdle then firstMatch code term rs else return some (r, b)

/-- The type of a terminator, in the words of messages. -/
def termType : Ir.Terminator → Text
  | .ret _ => "ir.Ret"
  | .br .. => "ir.Br"
  | .jmp _ => "ir.Jmp"

/-- The error of no rule matching at a position. -/
def noRule (pos : Nat) (code : List (Option Ir.Instr)) (term : Option Ir.Terminator) : Error :=
  match code, term with
  | some x :: _, _ => Cause.noRuleAt pos x.op.text
  | none :: _, _ => Cause.absent
  | [], some x => Cause.noRuleForTerminator (termType x)
  | [], none => Cause.absent

/-- Add a place to the errors of a selection. -/
def SelectM.within {α : Type} (p : Place) (x : SelectM α) : SelectM α :=
  ExceptT.adapt (Error.within · p) x

/-- Go on only if the table has issued some names, whose texts are wanted. -/
def SelectM.require (ns : List Name) : SelectM Unit := do
  let g ← get
  if ns.all g.table.isIssued then return () else throw (Cause.absent : Error)

/-- What is left of a block to cover: the code from a position on, and the terminator. -/
structure Remaining where
  /-- How many instructions are covered. -/
  pos : Nat
  /-- The code from there on. -/
  code : List (Option Ir.Instr)
  /-- The terminator is to be covered too. -/
  termLeft : Bool

/-- The measure that each tile makes smaller. -/
def Remaining.measure (r : Remaining) : Nat := r.code.length + r.termLeft.toNat

/-- Cover what is left of a block, with at most `fuel` rules. Each rule uses up an instruction or
the terminator, so the measure of what is left is fuel enough; with less, a loop that is not at its
end fails with `Cause.unfinished`. -/
def coverFrom (e : Engine) (term : Option Ir.Terminator) :
    Nat → Remaining → SelectM (List Instruction)
  | 0, left =>
    if left.code.isEmpty ∧ ¬left.termLeft then return [] else throw (Cause.unfinished : Error)
  | fuel + 1, left =>
    if left.code.isEmpty ∧ ¬left.termLeft then return []
    else do
      match ← (firstMatch left.code term e.rules : Except Error _) with
      | none => throw (noRule left.pos left.code term)
      | some (r, b) =>
        let is ← SelectM.within (.appliedRule r.name left.pos) (r.expand b)
        let n := r.pattern.code.length
        let rest ← coverFrom e term fuel
          { pos := left.pos + n
            code := left.code.drop n
            termLeft := left.termLeft && r.pattern.last.isNone }
        return is ++ rest

/-- The instructions that cover a block. -/
def Engine.cover (e : Engine) (b : Ir.Block) : SelectM (List Instruction) :=
  let left : Remaining := { pos := 0, code := b.code, termLeft := b.term.isSome }
  coverFrom e b.term left.measure left

/-- The directives in front of a block. The entry block carries the symbol of the function. -/
def blockDirectives (t : NameTable) (func : Name) (entry : Bool) (b : Ir.Block) : List Text :=
  (if entry then [".globl " ++ t.text func, t.text func ++ ":"] else []) ++ [t.text b.label ++ ":"]

/-- Select instructions for a block. -/
def Engine.selectBlock (e : Engine) (func : Name) (entry : Bool) (b : Ir.Block) :
    SelectM Code.Block := do
  SelectM.require (if entry then [func, b.label] else [b.label])
  let directives := blockDirectives (← get).table func entry b
  let is ← e.cover b
  return {
    label := b.label
    lines := directives.map Line.directive ++ is.map Line.instr
    phis := b.phis
    successors := b.term.elim [] Ir.Terminator.successors }

/-- Select instructions for blocks; `entry` says that the first one is the entry. -/
def Engine.selectBlocks (e : Engine) (func : Name) (entry : Bool) :
    List Ir.Block → SelectM (List Code.Block)
  | [] => return []
  | b :: bs => do
    let place := Place.block ((← get).table.text b.label)
    let c ← SelectM.within place (e.selectBlock func entry b)
    let cs ← e.selectBlocks func false bs
    return c :: cs

/-- Select instructions for a function with the scope in use. -/
def Engine.selectFunc (e : Engine) (f : Ir.Func) : SelectM (List Code.Block) := do
  SelectM.require [f.name]
  e.selectBlocks f.name true f.blocks

/-- Select instructions for a function with a scope made now: the result and the table after it. -/
def Engine.selectFresh (e : Engine) (t : NameTable) (f : Ir.Func) :
    Except Error (List Code.Block) × NameTable :=
  let (out, g) := e.selectFunc f (Naming.ofTable t)
  (out, g.table)

end CodeTiling
