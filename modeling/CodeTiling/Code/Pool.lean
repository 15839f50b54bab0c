import CodeTiling.Code.Assembly

/-!
# Blocks and functions under construction

While code is being put together, a block may belong to several functions and a function may be
held in several places; a change is seen everywhere. A `Pool` stores every block and function
once, under a number, and functions list the numbers of their blocks. `Pool.fn` reads a function
out as a value.
-/

namespace CodeTiling.Code

/-- The number of a block in a pool. -/
structure BlockId where
  /-- The place in `Pool.blocks`. -/
  index : Nat
deriving DecidableEq, Repr

/-- The number of a function in a pool. -/
structure FnId where
  /-- The place in `Pool.fns`. -/
  index : Nat
deriving DecidableEq, Repr

/-- A function under construction. -/
structure Draft where
  /-- The names of the arguments. -/
  args : List Name
  /-- The numbers of the blocks. -/
  blocks : List BlockId

/-- All blocks and functions under construction, and the assembly made of them so far. -/
structure Pool where
  /-- The blocks by number. -/
  blocks : List Block := []
  /-- The functions by number. -/
  fns : List Draft := []
  /-- The functions that were emitted under a name. -/
  assembly : Assembly FnId := {}

namespace Pool

variable (p : Pool)

/-- Store a new block. -/
def addBlock (b : Block) : BlockId × Pool :=
  (⟨p.blocks.length⟩, { p with blocks := p.blocks ++ [b] })

/-- Change a block. -/
def editBlock (i : BlockId) (f : Block → Block) : Pool :=
  { p with blocks := p.blocks.modify i.index f }

/-- The block with a number. -/
def block? (i : BlockId) : Option Block := p.blocks[i.index]?

/-- Store a new function. -/
def addFn (args : List Name) (blocks : List BlockId) : FnId × Pool :=
  (⟨p.fns.length⟩, { p with fns := p.fns ++ [⟨args, blocks⟩] })

/-- Add a block at the end of a function. -/
def appendBlock (f : FnId) (b : BlockId) : Pool :=
  { p with fns := p.fns.modify f.index fun d => { d with blocks := d.blocks ++ [b] } }

/-- The function with a number, with its blocks as they are now. -/
def fn (f : FnId) : Fn :=
  match p.fns[f.index]? with
  | none => {}
  | some d => { args := d.args, blocks := d.blocks.filterMap p.block? }

/-- Emit a line of data. -/
def emitData (line : Text) : Pool := { p with assembly := p.assembly.emitData line }

/-- Store a new function and emit it under a name. -/
def emitFn (name : Name) (args : List Name) (blocks : List BlockId) : Pool :=
  let (f, p') := p.addFn args blocks
  { p' with assembly := p'.assembly.emitFn name f }

/-- The assembly with its functions read out. -/
def toAssembly : Assembly Fn := p.assembly.map p.fn

end Pool

end CodeTiling.Code
