import CodeTiling.Code.Assembly
import CodeTiling.Live.Analysis

/-!
# Reports of live registers

The text that lists, for every function of an assembly, the registers live at the start and at the
end of each block.
-/

namespace CodeTiling.Live

open Code (Assembly Fn Register)

variable (t : NameTable)

/-- Registers in brackets. -/
def registersText (l : List Register) : Text :=
  "[" ++ Text.intercalate " " (l.map fun r => r.text t) ++ "]"

/-- A text with blanks after it up to 16 characters. -/
def column (s : Text) : Text := s ++ String.ofList (List.replicate (16 - s.width) ' ')

/-- The line of a block. Of blocks with one label the first one is meant. -/
def blockLine (x : Info) (label : Name) : Text :=
  "    " ++ column (t.text label) ++ " in: " ++ registersText t ((x.liveInOf? label).getD []) ++
    "  out: " ++ registersText t ((x.liveOutOf? label).getD []) ++ "\n"

/-- The lines of a function. -/
def fnText (name : Name) (f : Fn) : Except Error Text := do
  let x ← Except.within (.liveness (t.text name)) (analyze f)
  return t.text name ++ ":\n" ++ Text.join (f.labels.map (blockLine t x))

/-- The lines of all functions of an assembly. -/
def assemblyText (a : Assembly Fn) : Except Error Text := do
  return Text.join (← a.fns.mapM fun (name, f) => fnText t name f)

end CodeTiling.Live
