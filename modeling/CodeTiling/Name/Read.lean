import CodeTiling.Error
import CodeTiling.Name.Table

/-!
# Reading names

A name is read for its text, and a table can read only the names that it has issued. To come to any
other name is fatal (`Cause.absent`).
-/

namespace CodeTiling.NameTable

variable (t : NameTable)

/-- The text of a name that is to be written. -/
def read (n : Name) : Except Error Text :=
  match t.text? n with
  | some s => .ok s
  | none => .error Cause.absent

theorem read_ok_iff {t : NameTable} {n : Name} {s : Text} :
    t.read n = .ok s ↔ t.text? n = some s := by
  unfold read
  split <;> simp_all

/-- The error that a cause about a name is. -/
def blame (n : Name) (cause : Text → Cause) : Error :=
  match t.text? n with
  | some s => cause s
  | none => Cause.absent

end CodeTiling.NameTable
