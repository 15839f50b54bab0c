import CodeTiling.Text.Basic

/-!
# Mnemonics and how they use their operands

A `Mnemonic` is a number into the fixed list of mnemonics; a number outside the list is not valid
and reads `bad`. The `AccessClass` of a mnemonic says what becomes of its first operand.
-/

namespace CodeTiling

/-- How an instruction uses its first operand. -/
inductive AccessClass where
  /-- The first operand is written and not read. -/
  | overwrite
  /-- All operands are read and none is written. -/
  | readOnly
  /-- The first operand is read and written. -/
  | inPlace
deriving DecidableEq, Repr

namespace AccessClass

/-- The word for a class. -/
def text : AccessClass → Text
  | overwrite => "default"
  | readOnly => "inputs_only"
  | inPlace => "in_place"

/-- The class with a number. -/
def ofCode? : Nat → Option AccessClass
  | 0 => some overwrite
  | 1 => some readOnly
  | 2 => some inPlace
  | _ => none

/-- The word for the class with a number. -/
def textOfCode (n : Nat) : Text := ((ofCode? n).map text).getD "class?"

end AccessClass

/-- A mnemonic by its number. -/
structure Mnemonic where
  /-- The place in `Mnemonic.texts`. -/
  code : UInt8
deriving DecidableEq, Repr

namespace Mnemonic

/-- The texts of the mnemonics by number; number 0 is no mnemonic. -/
def texts : List Text :=
  List.map Text.ofString ["bad",
    "mov", "movzx", "movsx", "lea", "push", "pop",
    "add", "sub", "imul", "idiv", "and", "or", "xor", "sal", "sar", "shl", "shr",
    "neg", "not", "inc", "dec", "cqo",
    "cmp", "test", "sete", "setne", "setl", "setle", "setg", "setge",
    "jmp", "je", "jne", "jl", "jle", "jg", "jge", "jz", "jnz",
    "call", "ret", "leave", "nop"]

variable (m : Mnemonic)

/-- The number stands for a mnemonic. -/
def isValid : Bool := 0 < m.code.toNat && m.code.toNat < texts.length

/-- The text of a mnemonic, `bad` for any other number. -/
def text : Text := texts.getD m.code.toNat "bad"

/-- The mnemonic with a text. -/
def ofText? (s : Text) : Option Mnemonic :=
  match texts.idxOf? s with
  | none | some 0 => none
  | some i => some ⟨UInt8.ofNat i⟩

/-- The move instruction. -/
def mov : Mnemonic := ⟨1⟩

/-- Mnemonics that only read their operands. -/
def readers : List Text := ["cmp", "test", "push"]

/-- Mnemonics that read and write their first operand. -/
def updaters : List Text :=
  ["add", "sub", "imul", "idiv", "and", "or", "xor", "sal", "sar", "shl", "shr",
    "neg", "not", "inc", "dec"]

/-- The class of a mnemonic. -/
def accessClass : AccessClass :=
  if readers.contains m.text then .readOnly
  else if updaters.contains m.text then .inPlace
  else .overwrite

end Mnemonic

end CodeTiling
