import CodeTiling.Yaml.Gap

/-!
# Scalars in quotes

Between single quotes a quote is written twice and nothing else is special. Between double quotes a
backslash starts an escape. Line breaks are folded; a backslash before a break removes it.
-/

namespace CodeTiling.Yaml.Lexeme

open Scan

/-- The value of a hexadecimal digit. -/
def hexDigit? (c : Char) : Option Nat :=
  if c.isDigit then some (c.toNat - '0'.toNat)
  else if 'a' ≤ c ∧ c ≤ 'f' then some (c.toNat - 'a'.toNat + 10)
  else if 'A' ≤ c ∧ c ≤ 'F' then some (c.toNat - 'A'.toNat + 10)
  else none

/-- The number that the next `n` characters write in base 16. -/
def takeHex (acc : Nat) : Nat → ScanM Nat
  | 0 => return acc
  | n + 1 => do
    let some d := (← head?).bind hexDigit? | failure
    skip
    takeHex (16 * acc + d) n

/-- What a backslash and a character stand for. -/
inductive Escape where
  /-- A character. -/
  | char (c : Char)
  /-- The character whose number follows in so many digits of base 16. -/
  | code (digits : Nat)
deriving DecidableEq, Repr

/-- What a character after a backslash asks for. -/
def escape? : Char → Option Escape
  | '0' => some (.char '\x00')
  | 'a' => some (.char '\x07')
  | 'b' => some (.char '\x08')
  | 't' => some (.char '\t')
  | '\t' => some (.char '\t')
  | 'n' => some (.char '\n')
  | 'v' => some (.char '\x0b')
  | 'f' => some (.char '\x0c')
  | 'r' => some (.char '\r')
  | 'e' => some (.char '\x1b')
  | ' ' => some (.char ' ')
  | '"' => some (.char '"')
  | '\'' => some (.char '\'')
  | '\\' => some (.char '\\')
  | 'N' => some (.char '\x85')
  | '_' => some (.char '\xa0')
  | 'L' => some (.char '\u2028')
  | 'P' => some (.char '\u2029')
  | 'x' => some (.code 2)
  | 'u' => some (.code 4)
  | 'U' => some (.code 8)
  | _ => none

/-- The character of an escape whose two signs have been read. -/
def escaped : Escape → ScanM Char
  | .char c => return c
  | .code digits => do
    need digits
    let n ← takeHex 0 digits
    ensure n.isValidChar
    return Char.ofNat n

/-- The part of a quoted scalar up to a blank, over a removed line break or to the closing quote,
and whether it ended with a removed break. -/
def quotedPart (quote : Char) : Nat → ScanM (List Char × Bool)
  | 0 => return ([], false)
  | fuel + 1 => do
    let more (c : Char) : ScanM (List Char × Bool) := do
      need 2
      let (part, removed) ← quotedPart quote fuel
      return (c :: part, removed)
    match ← rest with
    | [] => return ([], false)
    | c :: cs =>
      if isSpace c then return ([], false)
      else if c = quote then
        if quote = '\'' && cs.head? = some '\'' then
          skip
          skip
          more '\''
        else return ([], false)
      else if c = '\\' && quote = '"' then
        if cs.head?.any isBreak then
          need 3
          skip
          let _ ← takeBreak?
          return ([], true)
        else
          let some e := cs.head?.bind escape? | failure
          skip
          skip
          more (← escaped e)
      else
        skip
        more c

/-- The text of a quoted scalar from inside it, to behind the closing quote. -/
def quotedFrom (quote : Char) : Nat → ScanM (List Char)
  | 0 => failure
  | fuel + 1 => do
    need 4
    ensure (!(← get).isDocumentMark && (← head?).isSome)
    let (part, removed) ← quotedPart quote (← Scan.fuel)
    need 1
    if ← startsWith quote then
      skip
      return part
    else
      let gap ← takeGap 0 (if removed then Gap.removed else Gap.none)
      return part ++ gap.folded ++ (← quotedFrom quote fuel)

/-- A quoted scalar at its opening quote. -/
def quoted (quote : Char) : ScanM (List Char) := do
  skip
  quotedFrom quote (← Scan.fuel)

end CodeTiling.Yaml.Lexeme
