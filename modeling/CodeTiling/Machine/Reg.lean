import CodeTiling.Text.Basic

/-!
# Machine registers and operand sizes

Both are numbers into fixed lists; a number outside its list is not valid and reads `reg?` or
`size?`.
-/

namespace CodeTiling

/-- A machine register by its number. -/
structure MachineReg where
  /-- The place in `MachineReg.texts`. -/
  code : UInt8
deriving DecidableEq, Repr

namespace MachineReg

/-- The texts of the registers by number. -/
def texts : List Text :=
  ["rax", "rbx", "rcx", "rdx", "rsi", "rdi", "rbp", "rsp",
    "r8", "r9", "r10", "r11", "r12", "r13", "r14", "r15"]

variable (r : MachineReg)

/-- The number stands for a register. -/
def isValid : Bool := r.code.toNat < texts.length

/-- The text of a register. -/
def text : Text := texts.getD r.code.toNat "reg?"

/-- The register with a text. -/
def ofText? (s : Text) : Option MachineReg :=
  (texts.idxOf? s).map fun i => ⟨UInt8.ofNat i⟩

/-- The registers that carry the arguments of a call, first to last. -/
def arguments : List MachineReg := [⟨5⟩, ⟨4⟩, ⟨3⟩, ⟨2⟩, ⟨8⟩, ⟨9⟩]

end MachineReg

/-- The size of a memory operand by its number. -/
structure Size where
  /-- The place in `Size.texts`. -/
  code : UInt8
deriving DecidableEq, Repr

namespace Size

/-- No size is said. -/
def unspecified : Size := ⟨0⟩

/-- The texts of the sizes by number. -/
def texts : List Text := ["", "byte", "word", "dword", "qword"]

variable (s : Size)

/-- The number stands for a size. -/
def isValid : Bool := s.code.toNat < texts.length

/-- The text of a size. -/
def text : Text := texts.getD s.code.toNat "size?"

/-- The size with a text; `none` is a second text for the unspecified size. -/
def ofText? (s : Text) : Option Size :=
  if s = "none" then some unspecified
  else (texts.idxOf? s).map fun i => ⟨UInt8.ofNat i⟩

end Size

end CodeTiling
