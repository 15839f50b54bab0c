import CodeTiling.Text.Basic

/-!
# Operations of the intermediate representation

An `Op` is a number into the fixed list of operations; any other number is representable and reads
`bad`. Binary and unary operations are the ones that the two arithmetic instructions take.
-/

namespace CodeTiling

/-- An operation by its number. -/
structure Op where
  /-- The place in `Op.texts`. -/
  code : UInt8
deriving DecidableEq, Repr

namespace Op

/-- The texts of the operations by number; number 0 is no operation. -/
def texts : List Text :=
  ["bad",
    "add", "sub", "mul", "div", "pow", "mod", "shl", "shr", "and", "or", "xor",
    "neg", "not",
    "lt", "le", "eq", "ne", "ge", "gt",
    "alloca", "load", "store", "call"]

/-- Reserve a stack slot. -/
def alloca : Op := ⟨20⟩

/-- Read memory. -/
def load : Op := ⟨21⟩

/-- Write memory. -/
def store : Op := ⟨22⟩

/-- Call a function. -/
def call : Op := ⟨23⟩

variable (o : Op)

/-- The text of an operation, `bad` for any other number. -/
def text : Text := texts.getD o.code.toNat "bad"

/-- The operation with a text. -/
def ofText? (s : Text) : Option Op :=
  match texts.idxOf? s with
  | none | some 0 => none
  | some i => some ⟨UInt8.ofNat i⟩

/-- A comparison of two values. -/
def isCompare : Bool := 14 ≤ o.code && o.code ≤ 19

/-- An operation on two values. -/
def isBinary : Bool := (1 ≤ o.code && o.code ≤ 11) || o.isCompare

/-- An operation on one value. -/
def isUnary : Bool := 12 ≤ o.code && o.code ≤ 13

end Op

end CodeTiling
