import CodeTiling.Error
import CodeTiling.Ir.Op
import CodeTiling.Machine.Reg
import CodeTiling.Name.Table

/-!
# Rules

A rule maps a sequence of IR instructions, and perhaps the terminator after them, onto lines of
assembly. Its pattern gives names to the registers, numbers, labels, functions and argument lists
that it meets; its template refers to them. `Rule.bindings?` lists the names of a pattern with the
kinds of things they stand for.

Patterns and template operands may be missing (`none`); `Rule.check` refuses such a rule.
-/

namespace CodeTiling

/-- A pattern for an operand: what kind it must have and the name it gets. -/
inductive OperandPattern where
  /-- A register. -/
  | reg (name : Name)
  /-- A number. -/
  | lit (name : Name)
deriving DecidableEq, Repr

/-- A pattern for an instruction. -/
inductive InstrPattern where
  /-- An operation on two values. -/
  | binary (op : Op) (dst : Name) (left right : OperandPattern)
  /-- An operation on one value. -/
  | unary (op : Op) (dst : Name) (value : OperandPattern)
  /-- A new stack slot. -/
  | alloca (dst : Name)
  /-- A read of memory. -/
  | load (dst : Name) (addr : OperandPattern)
  /-- A write to memory. -/
  | store (addr value : OperandPattern)
  /-- A call; the function and the list of arguments get a name each. -/
  | call (dst func list : Name)
deriving DecidableEq, Repr

/-- A pattern for a terminator. -/
inductive TermPattern where
  /-- A return; without an operand it means a return without a value. -/
  | ret (value : Option OperandPattern)
  /-- A branch to one of two labels. -/
  | br (cond : OperandPattern) (onTrue onFalse : Name)
  /-- A jump to a label. -/
  | jmp (target : Name)
deriving DecidableEq, Repr

/-- The pattern of a rule. -/
structure Pattern where
  /-- The instructions, in order. -/
  code : List (Option InstrPattern) := []
  /-- The terminator after them. -/
  last : Option TermPattern := none
deriving DecidableEq, Repr

/-- A template operand without parts. -/
inductive Atom where
  /-- A machine register. -/
  | machine (reg : MachineReg)
  /-- A new register; one name is one register in each use of the rule. -/
  | fresh (name : Name)
  /-- Something the pattern has named, or a new register that stands further left. -/
  | ref (name : Name)
  /-- A text that stands as it is. -/
  | literal (name : Name)
  /-- A label the pattern has named. -/
  | label (name : Name)
deriving DecidableEq, Repr

/-- What may stand as base or index of a template's memory operand. -/
inductive AddressTerm where
  /-- An operand without parts. -/
  | atom (a : Atom)
  /-- Another memory operand, which no rule may have there. -/
  | nested
deriving DecidableEq, Repr

/-- A memory operand of a template. -/
structure AddressTemplate where
  /-- How much is accessed. -/
  size : Size := .unspecified
  /-- The base. -/
  base : Option AddressTerm := none
  /-- The index. -/
  index : Option AddressTerm := none
  /-- What the index is multiplied by. -/
  scale : UInt32 := 0
  /-- The displacement. -/
  disp : Option Int32 := none
deriving DecidableEq, Repr

/-- A template operand. -/
inductive TemplateOperand where
  /-- An operand without parts. -/
  | atom (a : Atom)
  /-- A memory operand. -/
  | indirect (m : AddressTemplate)
deriving DecidableEq, Repr

/-- A line of a template. -/
structure TemplateLine where
  /-- The text of the mnemonic. -/
  mnemonic : Name
  /-- The operands. -/
  args : List (Option TemplateOperand) := []
deriving DecidableEq, Repr

/-- A rule. -/
structure Rule where
  /-- What the rule is called in messages. -/
  name : Text := ""
  /-- What it applies to. -/
  pattern : Pattern := {}
  /-- What it writes. -/
  template : List TemplateLine := []
deriving DecidableEq, Repr

/-- A name of a pattern and the kind of thing it stands for. -/
structure Binding where
  /-- The name. -/
  name : Name
  /-- What it stands for. -/
  kind : BindKind
deriving DecidableEq, Repr

namespace OperandPattern

/-- The name an operand gets. -/
def name : OperandPattern → Name
  | reg n => n
  | lit n => n

/-- The binding of an operand pattern. -/
def binding : OperandPattern → Binding
  | reg n => ⟨n, .register⟩
  | lit n => ⟨n, .literal⟩

end OperandPattern

/-- The bindings of an instruction pattern, in order. -/
def InstrPattern.bindings : InstrPattern → List Binding
  | .binary _ dst l r => [⟨dst, .register⟩, l.binding, r.binding]
  | .unary _ dst x => [⟨dst, .register⟩, x.binding]
  | .alloca dst => [⟨dst, .register⟩]
  | .load dst a => [⟨dst, .register⟩, a.binding]
  | .store a v => [a.binding, v.binding]
  | .call dst func list => [⟨dst, .register⟩, ⟨func, .function⟩, ⟨list, .arguments⟩]

/-- The bindings of a terminator pattern, in order. -/
def TermPattern.bindings : TermPattern → List Binding
  | .ret none => []
  | .ret (some v) => [v.binding]
  | .br cond t e => [cond.binding, ⟨t, .label⟩, ⟨e, .label⟩]
  | .jmp t => [⟨t, .label⟩]

namespace Pattern

variable (p : Pattern)

/-- No element of the pattern is missing. -/
def isComplete : Bool := p.code.all Option.isSome

/-- The bindings of each element, the terminator last. A missing element has none. -/
def elements : List (List Binding) :=
  p.code.map (·.elim [] InstrPattern.bindings) ++ p.last.toList.map TermPattern.bindings

end Pattern

/-- The bindings whose names are not seen before, the first of each name. -/
def firstBindings (seen : List Name) : List Binding → List Binding
  | [] => []
  | b :: bs =>
    if b.name ∈ seen then firstBindings seen bs
    else b :: firstBindings (b.name :: seen) bs

/-- The names of a rule's pattern, each once, in the order in which they first occur and with the
kind of their first occurrence; `none` when an element of the pattern is missing. -/
def Rule.bindings? (r : Rule) : Option (List Binding) :=
  if r.pattern.isComplete then some (firstBindings [] r.pattern.elements.flatten) else none

end CodeTiling
