import CodeTiling.Yaml.Cursor

/-!
# Gaps in scalars

Between the parts of a scalar stands a `Gap`: blanks within a line, or line breaks with the blanks
around them. `Gap.folded` gives the text that a gap stands for.
-/

namespace CodeTiling.Yaml

/-- What stands between two parts of a scalar. -/
inductive Gap where
  /-- Blanks within a line. -/
  | blanks (text : List Char)
  /-- A line break, unless it was removed, and the breaks of the empty lines after it. -/
  | lines (first : Option Char) (more : List Char)
deriving DecidableEq, Repr

namespace Gap

/-- No gap. -/
def none : Gap := blanks []

/-- A line break that was removed. -/
def removed : Gap := lines Option.none []

/-- The text of a gap: blanks stay; a single line feed is a blank; of more breaks the first line
feed is left out. -/
def folded : Gap → List Char
  | blanks text => text
  | lines Option.none more => more
  | lines (some first) more =>
    if first = '\n' then (if more = [] then [' '] else more) else first :: more

/-- Whether a gap goes over a line break. -/
def isLines : Gap → Bool
  | blanks _ => false
  | lines .. => true

/-- A gap and one more blank. Those at the start of a line do not count. -/
def addBlank (c : Char) : Gap → Gap
  | blanks text => blanks (text ++ [c])
  | lines first more => lines first more

/-- A gap and one more break. Blanks before the first one do not count. -/
def addBreak (b : Option Char) : Gap → Gap
  | blanks _ => lines b []
  | lines first more => lines first (more ++ b.toList)

end Gap

namespace Scan

/-- The gap at the cursor, after what is known of it. A tab before column `floor` of a later line is
refused. -/
def gapFrom (floor : Nat) : Nat → Gap → ScanM Gap
  | 0, g => return g
  | fuel + 1, g => do
    match ← head? with
    | none => return g
    | some x =>
      if isBlank x then
        ensure !(g.isLines && x = '\t' && (← column) < floor)
        skip
        need 1
        gapFrom floor fuel (g.addBlank x)
      else if isBreak x then
        need 2
        let b ← takeBreak?
        need 1
        gapFrom floor fuel (g.addBreak b)
      else return g

/-- The gap at the cursor, after what is known of it. -/
def takeGap (floor : Nat) (start : Gap) : ScanM Gap := do gapFrom floor (← fuel) start

end Scan

end CodeTiling.Yaml
