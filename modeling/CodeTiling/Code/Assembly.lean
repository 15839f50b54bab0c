import CodeTiling.Code.Block

/-!
# Assemblies

An `Assembly` holds data lines and named functions. The names are listed in the order in which they
were first emitted, and the functions are found by name. Emitting a name again replaces the function
and keeps the place. What stands for a function is a parameter: the functions themselves, or
references to them.
-/

namespace CodeTiling.Code

/-- Data and named functions. -/
structure Assembly (φ : Type) where
  /-- The lines of the data section. -/
  data : List Text := []
  /-- The names in the order in which they were first emitted. -/
  names : List Name := []
  /-- The function emitted last under a name. -/
  getFn? : Name → Option φ := fun _ => none
  /-- A name is listed once. -/
  nodup_names : names.Nodup := by exact .nil
  /-- The names that are listed are those under which there is a function. -/
  mem_names : ∀ n, n ∈ names ↔ (getFn? n).isSome = true := by simp

namespace Assembly

variable {φ : Type} (a : Assembly φ)

/-- Emit a line of data. -/
def emitData (line : Text) : Assembly φ := { a with data := a.data ++ [line] }

/-- Emit a function under a name. -/
def emitFn (name : Name) (f : φ) : Assembly φ where
  data := a.data
  names := if (a.getFn? name).isSome then a.names else a.names ++ [name]
  getFn? n := if n = name then some f else a.getFn? n
  nodup_names := by
    split
    · exact a.nodup_names
    · rename_i h
      refine List.nodup_append.2 ⟨a.nodup_names, by simp, fun n hn m hm hnm => h ?_⟩
      rw [← List.mem_singleton.1 hm, ← hnm]
      exact (a.mem_names n).1 hn
  mem_names n := by
    by_cases hn : n = name
    · subst hn
      split <;> simp_all [a.mem_names n]
    · split <;> simp [hn, a.mem_names n]

/-- The names with their functions. -/
def fns : List (Name × φ) := a.names.filterMap fun n => (a.getFn? n).map (n, ·)

/-- The functions in the order of their names. -/
def functions : List φ := a.names.filterMap a.getFn?

theorem functions_eq : a.functions = a.fns.map Prod.snd := by
  rw [functions, fns, List.map_filterMap]
  exact congrArg (List.filterMap · a.names) (funext fun n => by cases a.getFn? n <;> rfl)

/-- The assembly with something else in the place of each function. -/
def map {ψ : Type} (g : φ → ψ) : Assembly ψ where
  data := a.data
  names := a.names
  getFn? n := (a.getFn? n).map g
  nodup_names := a.nodup_names
  mem_names n := by rw [a.mem_names n, Option.isSome_map]

/-- The lines around the data section. -/
def dataText : Text :=
  if a.data.isEmpty then ""
  else "\n.data\n.align 4\n" ++ Text.join (a.data.map (· ++ "\n")) ++ "\n"

end Assembly

/-- The text of a function: its blocks, each with a blank line after it. -/
def Fn.text? (t : NameTable) (f : Fn) : Option Text :=
  (f.blocks.mapM fun (b : Block) => (b.text? t).map fun (s : Text) => s ++ "\n").map Text.join

/-- The text of an assembly, `none` when an operand somewhere cannot be written. -/
def Assembly.text? (t : NameTable) (a : Assembly Fn) : Option Text := do
  let fns ← a.functions.mapM (Fn.text? t)
  return ".intel_syntax noprefix\n" ++ a.dataText ++ ".text\n" ++ Text.join fns

end CodeTiling.Code
