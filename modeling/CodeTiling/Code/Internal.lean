import CodeTiling.Code.Text
import CodeTiling.Text.Quoted

/-!
# Broken invariants

What a later stage cannot go on with: a register that was not allocated, a function that was not
emitted. The wording names registers and functions by their numbers, or by their texts when a
table is at hand.
-/

namespace CodeTiling.Code

/-- A broken invariant. -/
inductive Broken where
  /-- A machine register is needed and another one is there. -/
  | notMachine (reg : Register)
  /-- No function has the name. -/
  | noFunction (name : Name)
deriving DecidableEq, Repr

namespace Broken

/-- What is broken, without saying where. -/
def sentence : Broken → Text
  | notMachine _ => "virtual register where machine one expected"
  | noFunction _ => "no such function"

/-- What it is about, by number or, with a table, by text. The absent register and the blank name
are not said. -/
def subject (t : Option NameTable) : Broken → Option Text
  | notMachine .none => none
  | notMachine (.machine r) => some r.text
  | notMachine (.virtual n) => some ("%" ++ t.elim (Text.decimal n.index) (·.text n))
  | noFunction n =>
    if n = .blank then none
    else some (t.elim ("ident " ++ Text.decimal n.index) fun t => Text.quote (t.text n))

/-- The full wording. -/
def message (t : Option NameTable) (e : Broken) : Text :=
  "internal error: " ++ e.sentence ++ (e.subject t).elim Text.empty (": " ++ ·)

end Broken

/-- The machine register that a register is. -/
def Register.machine? : Register → Except Broken MachineReg
  | .machine r => .ok r
  | r => .error (.notMachine r)

end CodeTiling.Code
