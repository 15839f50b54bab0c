import CodeTiling.Live.Facts

/-!
# Live registers at block boundaries

A register is live where some path to a later read has no write in between. The sets of live
registers are the least solution of the usual equations: what is live at the end of a block is
what phis take there and what is live at the start of a successor; what is live at the start is
that, less what the block writes, plus what it reads first.

The solution is found with a queue of blocks to look at again. `State.visit` looks at one block;
the order in which blocks are taken from the queue is a parameter, and `latestFirst` is used.
-/

namespace CodeTiling.Live

open Code (Register Fn)

/-- The state of the computation. -/
structure State where
  /-- Live at the start of each block. -/
  liveIn : List Bitmap
  /-- Live at the end of each block. -/
  liveOut : List Bitmap
  /-- The blocks to look at again, each at most once. -/
  queue : List Nat

namespace State

/-- The state before any block is looked at. -/
def start (n : Nat) : State where
  liveIn := List.replicate n {}
  liveOut := List.replicate n {}
  queue := List.range n

variable (facts : List Facts) (s : State)

/-- Queue a block unless it is queued. -/
def push (i : Nat) : State := if i ∈ s.queue then s else { s with queue := s.queue ++ [i] }

/-- Live at the end of a block, by what is live at the starts of its successors. -/
def outOf (x : Facts) : Bitmap :=
  x.successors.foldl (fun out j => out.union (s.liveIn.getD j {})) x.phiReads.copy

/-- Live at the start of a block, by what is live at its end. -/
def inOf (x : Facts) (out : Bitmap) : Bitmap := (out.copy.diff x.writes).union x.reads

/-- Look at block `i`. When more is live at its start than before, its predecessors are queued. -/
def visit (i : Nat) : State :=
  let x := facts.getD i {}
  let out := s.outOf x
  let live := inOf x out
  let s' := { s with queue := s.queue.erase i, liveOut := s.liveOut.set i out }
  if (s.liveIn.getD i {}).equal live then s'
  else x.predecessors.foldl push { s' with liveIn := s.liveIn.set i live }

end State

/-- A way to choose which queued block to look at next. -/
structure Strategy where
  /-- The choice from a queue. -/
  pick : List Nat → Nat
  /-- What is chosen is in the queue. -/
  pick_mem : ∀ q, q ≠ [] → pick q ∈ q

/-- Take the block that comes last in the function, which suits the direction of the flow. -/
def latestFirst : Strategy where
  pick q := q.max?.getD 0
  pick_mem q h := by
    obtain ⟨m, hm⟩ := Option.ne_none_iff_exists'.1 (mt List.max?_eq_none_iff.1 h)
    rw [hm]
    exact List.max?_mem hm

/-- Look at queued blocks until none is left, at most `fuel` times. -/
def solveFrom (σ : Strategy) (facts : List Facts) : Nat → State → State
  | 0, s => s
  | fuel + 1, s =>
    if s.queue = [] then s else solveFrom σ facts fuel (s.visit facts (σ.pick s.queue))

/-- How often blocks are looked at, at most: each look that changes the start of a block adds a
register there and queues at most all blocks. -/
def visitBound (blocks regs : Nat) : Nat := blocks * (blocks * regs + 1) + 1

/-- The state when no block is left to look at. -/
def solve (σ : Strategy) (facts : List Facts) (regs : Nat) : State :=
  solveFrom σ facts (visitBound facts.length regs) (State.start facts.length)

/-- The live registers of a function. -/
structure Info where
  /-- All registers, by first appearance. -/
  registers : List Register
  /-- The labels of the blocks. -/
  labels : List Name
  /-- Live at the start of each block. -/
  liveIn : List Bitmap
  /-- Live at the end of each block. -/
  liveOut : List Bitmap

namespace Info

variable (x : Info)

/-- The registers of a set, by first appearance. -/
def registersOf (s : Bitmap) : List Register := s.toList.filterMap (x.registers[·]?)

/-- The registers live at the start of the first block with a label. -/
def liveInOf? (label : Name) : Option (List Register) :=
  (x.labels.idxOf? label).map fun i => x.registersOf (x.liveIn.getD i {})

/-- The registers live at the end of the first block with a label. -/
def liveOutOf? (label : Name) : Option (List Register) :=
  (x.labels.idxOf? label).map fun i => x.registersOf (x.liveOut.getD i {})

end Info

/-- The live registers of a function. -/
def analyze (f : Fn) : Except Error Info := do
  let (facts, registers) ← factsOf f
  let s := solve latestFirst facts registers.length
  return { registers, labels := f.labels, liveIn := s.liveIn, liveOut := s.liveOut }

end CodeTiling.Live
