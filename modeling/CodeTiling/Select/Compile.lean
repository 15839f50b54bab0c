import CodeTiling.Code.Assembly
import CodeTiling.Name.Read
import CodeTiling.Select.Engine

/-!
# Compiling programs

All functions of a program are selected with scopes that are made before the first one starts, so
that the names in one function do not depend on the others. The functions come out in the order
of the program, and the first one that fails decides the error.

One worker selects the functions in the order of the program and stops at the first failure. Several
workers select all of them, in an order that is not theirs to choose: a `Schedule`. A schedule has
whole functions one after another; workers whose operations on the table alternate are a `Crew`
(`CodeTiling.Proofs.Interleaved`), and come to the same as any schedule.
-/

namespace CodeTiling

open Code (Assembly Fn)

/-- The first function whose name an earlier one has. -/
def duplicateFunc? (seen : List Name) : List Ir.Func → Option Name
  | [] => none
  | f :: fs => if f.name ∈ seen then some f.name else duplicateFunc? (f.name :: seen) fs

/-- What the selection of a function comes to. -/
abbrev Outcome := Except Error (List Code.Block)

/-- Select functions from place `i` on with a scope made earlier. The table is handed on. -/
def selectAll (e : Engine) (scope : Scope) (t : NameTable) (i : Nat) :
    List Ir.Func → Except Error (List (List Code.Block) × NameTable)
  | [] => .ok ([], t)
  | f :: fs => do
    let (out, g) := e.selectFunc f ⟨t, scope⟩
    let blocks ← Except.within (.func i) out
    let (rest, t') ← selectAll e scope g.table (i + 1) fs
    return (blocks :: rest, t')

/-- An order in which `n` functions are selected, each one as a whole. -/
structure Schedule (n : Nat) where
  /-- The places of the functions, the one to select first in front. -/
  order : List (Fin n)
  /-- Every place stands there once. -/
  perm : order.Perm (List.finRange n)

/-- The order of the program. -/
def Schedule.inOrder (n : Nat) : Schedule n := ⟨List.finRange n, .refl _⟩

/-- Select functions by their places, with scopes made earlier, and go on after a failure. The table
is handed on. -/
def selectPlaces (e : Engine) (scope : Scope) (funcs : List Ir.Func) (t : NameTable) :
    List (Fin funcs.length) → List (Fin funcs.length × Outcome) × NameTable
  | [] => ([], t)
  | i :: rest =>
    let (out, g) := e.selectFunc (funcs.get i) ⟨t, scope⟩
    let (outs, t') := selectPlaces e scope funcs g.table rest
    ((i, out) :: outs, t')

/-- What all functions from place `i` on came to, or the error of the first one that failed. -/
def collect {α : Type} (i : Nat) : List (Except Error α) → Except Error (List α)
  | [] => .ok []
  | out :: outs => do
    let x ← Except.within (.func i) out
    let rest ← collect (i + 1) outs
    return x :: rest

/-- Select the functions of a program with so many workers. The schedule counts when there are
several. -/
def selectFuncs (e : Engine) (t : NameTable) (workers : Int) (funcs : List Ir.Func)
    (s : Schedule funcs.length) : Except Error (List (List Code.Block) × NameTable) :=
  if workers ≤ 1 then selectAll e (Scope.ofTable t) t 0 funcs
  else do
    let (outs, t') := selectPlaces e (Scope.ofTable t) funcs t s.order
    let blocks ← collect 0 ((List.finRange funcs.length).filterMap fun i => outs.lookup i)
    return (blocks, t')

/-- The assembly of functions and their selected blocks. -/
def assemble (p : Ir.Program) (blocks : List (List Code.Block)) : Assembly Fn :=
  let start : Assembly Fn := p.data.foldl Assembly.emitData {}
  (p.funcs.zip blocks).foldl
    (fun a (f, bs) => a.emitFn f.name { args := f.args, blocks := bs }) start

/-- Compile a program: the assembly and the table with the names that were issued. -/
def compile (t : NameTable) (rules : List Rule) (p : Ir.Program) (workers : Int)
    (s : Schedule p.funcs.length) : Except Error (Assembly Fn × NameTable) :=
  match duplicateFunc? [] p.funcs with
  | some n => .error (t.blame n Cause.duplicateFunc)
  | none => do
    let e ← Except.within .rules (Engine.ofRules t rules)
    let (blocks, t') ← selectFuncs e t workers p.funcs s
    return (assemble p blocks, t')

end CodeTiling
