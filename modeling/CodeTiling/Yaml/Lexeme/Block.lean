import CodeTiling.Yaml.Cursor

/-!
# Block scalars

A literal scalar `|` keeps its lines, a folded one `>` joins lines that are not indented further.
A header can fix the indentation and says what becomes of the breaks at the end: one is kept, none
(`-`) or all (`+`).
-/

namespace CodeTiling.Yaml.Lexeme

open Scan

/-- What becomes of the line breaks at the end. -/
inductive Chomping where
  /-- One is kept. -/
  | clip
  /-- None is kept. -/
  | strip
  /-- All are kept. -/
  | keep
deriving DecidableEq, Repr

/-- The chomping sign at the cursor, if there is one. -/
def takeChomping : ScanM (Option Chomping) := do
  need 1
  if ← startsWith '+' then
    skip
    return some .keep
  else if ← startsWith '-' then
    skip
    return some .strip
  else return none

/-- The indentation digit at the cursor, `0` when there is none. A zero is refused. -/
def takeIncrement : ScanM Nat := do
  need 1
  match ← head? with
  | some d =>
    ensure (d ≠ '0')
    if d.isDigit then
      skip
      return d.toNat - '0'.toNat
    else return 0
  | none => return 0

/-- The header after the sign of the scalar: chomping and indentation, in either order. -/
def blockHeader : ScanM (Chomping × Nat) := do
  match ← takeChomping with
  | some chomping => return (chomping, ← takeIncrement)
  | none =>
    let n ← takeIncrement
    if n = 0 then return (.clip, 0)
    else return ((← takeChomping).getD .clip, n)

/-- Move over spaces, at most so many. -/
def skipSpaces : Nat → ScanM Unit
  | 0 => return ()
  | n + 1 => do
    if ← startsWith ' ' then
      skip
      need 1
      skipSpaces n

/-- The breaks of empty lines and the spaces before the next line, up to column `indent`, or all
of them when it is not known yet. The answer holds also the greatest column that was reached. A tab
where indentation is expected is refused. -/
def blockBreaks (indent : Option Nat) : Nat → Nat → ScanM (List Char × Nat)
  | 0, reached => return ([], reached)
  | fuel + 1, reached => do
    need 1
    let width ← Scan.fuel
    skipSpaces (indent.elim width (· - (← column)))
    let col ← column
    let reached := max reached col
    ensure !((← startsWith '\t') && indent.all (col < ·))
    if (← head?).any isBreak then
      need 2
      let b ← takeBreak?
      let (bs, reached) ← blockBreaks indent fuel reached
      return (b.toList ++ bs, reached)
    else return ([], reached)

/-- What has been read of a block scalar. -/
structure BlockText where
  /-- The parts of the text without the breaks after the last line, the last part first. -/
  parts : List (List Char) := []
  /-- The break after the last line. -/
  first : List Char := []
  /-- The breaks of the empty lines after it. -/
  more : List Char := []
  /-- Whether the last line starts with a blank. -/
  indented : Bool := false

namespace BlockText

variable (t : BlockText)

/-- The parts with one more line. A line feed between lines that start with no blank is folded on
request. -/
def addLine (folds blank : Bool) (line : List Char) : List (List Char) :=
  let joined := folds && !t.indented && !blank && t.first = ['\n']
  line :: (if joined then (if t.more = [] then [' '] else t.more) else t.first ++ t.more) :: t.parts

/-- The whole text, with the breaks at its end that are kept. -/
def toList (chomping : Chomping) : List Char :=
  t.parts.reverse.flatten ++ match chomping with
    | .strip => []
    | .clip => t.first
    | .keep => t.first ++ t.more

end BlockText

/-- The lines of a block scalar at column `indent`, after what has been read. -/
def blockLines (folds : Bool) (indent : Nat) : Nat → BlockText → ScanM BlockText
  | 0, t => return t
  | fuel + 1, t => do
    if (← column) = indent && (← head?).isSome then
      let blank := (← head?).any isBlank
      let line ← takeWhile (!isBreak ·)
      need 2
      let first := (← takeBreak?).toList
      let (more, _) ← blockBreaks (some indent) (← Scan.fuel) 0
      blockLines folds indent fuel
        { parts := t.addLine folds blank line, first, more, indented := blank }
    else return t

/-- A block scalar at its sign, in a block whose column is `parent`. -/
def block (folds : Bool) (parent : Int) : ScanM (List Char) := do
  skip
  let (chomping, increment) ← blockHeader
  endLine
  let known := if increment = 0 then none else some (parent.toNat + increment)
  let (breaks, reached) ← blockBreaks known (← Scan.fuel) 0
  let indent := known.getD (max (max reached (parent + 1).toNat) 1)
  let t ← blockLines folds indent (← Scan.fuel) { more := breaks }
  return t.toList chomping

end CodeTiling.Yaml.Lexeme
