import CodeTiling.Name.Table

/-!
# Fresh names

A `Scope` issues names of the form `stem.N`. Only the texts that had a name when the scope was
made count as taken, so what a scope issues does not depend on what happens in the table later.

* `Scope.fresh` takes the least number that is neither taken nor used by the scope before;
* `Naming` is a table together with the scope in use.
-/

namespace CodeTiling

/-- The text of the `n`-th name on a stem. -/
def numbered (stem : Text) (n : Nat) : Text := stem ++ "." ++ Text.decimal n

/-- A source of fresh names. -/
structure Scope where
  /-- The size of the table when the scope was made: names below it are taken. -/
  limit : Nat
  /-- For each stem the number to try next, the latest entry first. -/
  next : List (Text × Nat)
deriving Repr

namespace Scope

/-- A new scope on a table. -/
def ofTable (t : NameTable) : Scope := ⟨t.size, []⟩

variable (s : Scope)

/-- The number that a stem tries next. -/
def counter (stem : Text) : Nat := (s.next.lookup stem).getD 0

/-- The text had a name when the scope was made. -/
def isTaken (t : NameTable) (text : Text) : Bool :=
  match t.lookup text with
  | some n => n.index < s.limit
  | none => false

/-- The first number from the counter on whose text is not taken. At most `limit` texts are
taken, so among `limit + 1` numbers there is a free one. -/
def firstFree (t : NameTable) (stem : Text) : Nat :=
  let start := s.counter stem
  ((List.range' start (s.limit + 1)).find? fun n => !s.isTaken t (numbered stem n)).getD
    (start + s.limit + 1)

/-- A fresh name on a stem, with the table and the scope after it is issued. -/
def fresh (t : NameTable) (stem : Text) : Name × NameTable × Scope :=
  let n := s.firstFree t stem
  let (name, t') := t.intern (numbered stem n)
  (name, t', { s with next := (stem, n + 1) :: s.next })

end Scope

/-- A table of names and the scope that issues fresh ones. -/
structure Naming where
  /-- The table. -/
  table : NameTable
  /-- The scope in use. -/
  scope : Scope

namespace Naming

/-- A table with a scope made now. -/
def ofTable (t : NameTable) : Naming := ⟨t, Scope.ofTable t⟩

/-- Issue a fresh name on a stem. -/
def fresh (stem : Text) : StateM Naming Name := fun g =>
  let (name, table, scope) := g.scope.fresh g.table stem
  (name, ⟨table, scope⟩)

end Naming

end CodeTiling
