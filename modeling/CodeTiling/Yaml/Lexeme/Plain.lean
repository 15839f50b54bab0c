import CodeTiling.Yaml.Gap

/-!
# Scalars without quotes

A plain scalar ends before a colon or a hash with blanks around it, at a document mark, at a line
that is not indented enough, and in flow collections also at their punctuation. Line breaks inside
are folded.
-/

namespace CodeTiling.Yaml.Lexeme

open Scan

/-- The punctuation of flow collections that ends a plain scalar. -/
def isFlowEnd (c : Char) : Bool :=
  c = ',' || c = '?' || c = '[' || c = ']' || c = '\x7b' || c = '\x7d'

/-- Whether a plain scalar has a part that ends here. -/
def atPlainEnd (flow : Bool) : List Char → Bool
  | [] => true
  | c :: cs => isSpace c || (c = ':' && atSpace cs) || (flow && isFlowEnd c)

/-- The part of a plain scalar up to a blank or to its end. -/
def plainPart (flow : Bool) : Nat → ScanM (List Char)
  | 0 => return []
  | fuel + 1 => do
    match ← rest with
    | [] => return []
    | c :: cs =>
      if atPlainEnd flow (c :: cs) then return []
      else
        skip
        need 2
        return c :: (← plainPart flow fuel)

/-- The parts of a plain scalar with the gaps between them, the first gap given. The answer holds
also whether the cursor came to the last line over a gap and read nothing there. -/
def plainFrom (flow : Bool) (indent : Nat) : Nat → Gap → ScanM (List Char × Bool)
  | 0, gap => return ([], gap.isLines)
  | fuel + 1, gap => do
    need 4
    if (← get).isDocumentMark || (← startsWith '#') then return ([], gap.isLines)
    let part ← plainPart flow (← Scan.fuel)
    let text := if part = [] then [] else gap.folded ++ part
    let below := part = [] && gap.isLines
    if !((← head?).any isSpace) then return (text, below)
    need 1
    let next ← takeGap indent Gap.none
    if !flow && (← column) < indent then return (text, next.isLines)
    let (more, below) ← plainFrom flow indent fuel next
    return (text ++ more, below)

/-- A plain scalar: its text, and whether the cursor went on to a later line. -/
def plain (flow : Bool) (indent : Nat) : ScanM (List Char × Bool) := do
  plainFrom flow indent (← Scan.fuel) Gap.none

end CodeTiling.Yaml.Lexeme
