import CodeTiling.Bits.Bitmap
import CodeTiling.Code.Block

/-!
# What each block does to registers

Before live registers are computed, every register of a function gets a number by first
appearance, and every block gets its facts: the registers it reads before writing them, the ones
it writes, the ones that phis take at its end, and its neighbours in the control flow graph.

Phi destinations are written at the start of their block. A phi source that is a register is read
at the end of the block it names.
-/

namespace CodeTiling.Live

open Code (Register Instruction Fn)

/-- The number of a register, and the numbered registers after it was asked for. -/
def number (regs : List Register) (r : Register) : Nat × List Register :=
  match regs.idxOf? r with
  | some i => (i, regs)
  | none => (regs.length, regs ++ [r])

/-- What is known in the middle of a block. -/
structure Sweep where
  /-- The numbered registers. -/
  regs : List Register
  /-- The registers read before they are written. -/
  reads : Bitmap := {}
  /-- The registers written. -/
  writes : Bitmap := {}

namespace Sweep

variable (s : Sweep)

/-- A register is read. -/
def read (r : Register) : Sweep :=
  let (i, regs) := number s.regs r
  if s.writes.contains i then { s with regs } else { s with regs, reads := s.reads.insert i }

/-- A register is written. -/
def write (r : Register) : Sweep :=
  let (i, regs) := number s.regs r
  { s with regs, writes := s.writes.insert i }

/-- An instruction reads its inputs and then writes its outputs. -/
def instr (i : Instruction) : Sweep := i.outputs.foldl write (i.inputs.foldl read s)

/-- A block writes its phis and then runs its instructions. -/
def block (regs : List Register) (b : Code.Block) : Sweep :=
  let atStart := b.phis.foldl (fun s p => s.write (.virtual p.dst)) { regs }
  b.instructions.foldl instr atStart

end Sweep

/-- The facts of a block. -/
structure Facts where
  /-- The registers read before they are written. -/
  reads : Bitmap := {}
  /-- The registers written. -/
  writes : Bitmap := {}
  /-- The registers that phis take at the end of the block. -/
  phiReads : Bitmap := {}
  /-- The places of the successors. -/
  successors : List Nat := []
  /-- The places of the predecessors. -/
  predecessors : List Nat := []
deriving DecidableEq, Repr

/-- Sweep over blocks: the facts so far and the numbered registers. -/
def sweepBlocks (regs : List Register) : List Code.Block → List Facts × List Register
  | [] => ([], regs)
  | b :: bs =>
    let s := Sweep.block regs b
    let (rest, regs') := sweepBlocks s.regs bs
    ({ reads := s.reads, writes := s.writes } :: rest, regs')

/-- The register that a phi source reads, if it reads one. -/
def sourceRegister? (s : Ir.PhiSource) : Option Register :=
  match s.value with
  | some (.reg n) => some (.virtual n)
  | _ => none

/-- The sources of the phis of a block that read a register, with the block they come from. -/
def phiReadsOf (b : Code.Block) : List (Name × Register) :=
  (b.phis.flatMap (·.sources)).filterMap fun s => (sourceRegister? s).map (s.block, ·)

/-- Give a register that a phi takes to the block it comes from. -/
def addPhiRead (f : Fn) (facts : List Facts) (regs : List Register) (r : Name × Register) :
    Except Error (List Facts × List Register) :=
  match f.blockIndex? r.1 with
  | none => .error (Cause.noPhiSource r.1.index)
  | some p =>
    let (i, regs') := number regs r.2
    .ok (facts.modify p fun x => { x with phiReads := x.phiReads.insert i }, regs')

/-- Give all registers that phis take to their blocks. -/
def addPhiReads (f : Fn) (facts : List Facts) (regs : List Register) :
    List (Name × Register) → Except Error (List Facts × List Register)
  | [] => .ok (facts, regs)
  | r :: rs => do
    let (facts', regs') ← addPhiRead f facts regs r
    addPhiReads f facts' regs' rs

/-- The places of the successors of a block. -/
def successorsOf (f : Fn) (b : Code.Block) : List Nat := b.uniqueSuccessors.filterMap f.blockIndex?

/-- The places of the successors of every block. -/
def graph (f : Fn) : List (List Nat) := f.blocks.map (successorsOf f)

/-- The places of the blocks that have `j` as a successor. -/
def predecessorsOf (g : List (List Nat)) (j : Nat) : List Nat :=
  (List.range g.length).filter fun i => j ∈ g.getD i []

/-- Add the edges of the control flow graph. -/
def addEdges (g : List (List Nat)) (facts : List Facts) : List Facts :=
  facts.mapIdx fun i x => { x with successors := g.getD i [], predecessors := predecessorsOf g i }

/-- The facts of the blocks of a function and its numbered registers. A successor or a phi source
that is no block of the function is an error. -/
def factsOf (f : Fn) : Except Error (List Facts × List Register) := do
  Except.within .successors f.checkSuccessors
  let (facts, regs) := sweepBlocks [] f.blocks
  let (facts', regs') ← addPhiReads f facts regs (f.blocks.flatMap phiReadsOf)
  return (addEdges (graph f) facts', regs')

end CodeTiling.Live
