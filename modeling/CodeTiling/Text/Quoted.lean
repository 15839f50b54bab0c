import CodeTiling.Text.Basic
import CodeTiling.Text.Printable

/-!
# Quoted text

`quote` writes a text between double quotes. Printable characters stand for themselves; the quote
and the backslash get a backslash; the usual control characters get a letter; all others are
written by their number in hexadecimal, with two digits below the space and for delete, four in
the basic plane and eight above it. An octet that belongs to no character is written with two
digits.
-/

namespace CodeTiling.Text

/-- The last `n` hexadecimal digits of a number, in lower case. -/
def hexDigits : Nat → Nat → List Char
  | 0, _ => []
  | n + 1, k => hexDigits n (k / 16) ++ [Nat.digitChar (k % 16)]

/-- How one character is written inside quotes. -/
def quoteChar (c : Char) : List Char :=
  if c = '\"' ∨ c = '\\' then ['\\', c]
  else if isPrintable c then [c]
  else match c.toNat with
    | 7 => ['\\', 'a']
    | 8 => ['\\', 'b']
    | 9 => ['\\', 't']
    | 10 => ['\\', 'n']
    | 11 => ['\\', 'v']
    | 12 => ['\\', 'f']
    | 13 => ['\\', 'r']
    | k =>
      if k < 0x20 ∨ k = 0x7f then '\\' :: 'x' :: hexDigits 2 k
      else if k < 0x10000 then '\\' :: 'u' :: hexDigits 4 k
      else '\\' :: 'U' :: hexDigits 8 k

/-- How one part of a text is written inside quotes. -/
def quoteGlyph : Glyph → List Char
  | .char c => quoteChar c
  | .octet o => '\\' :: 'x' :: hexDigits 2 o.toNat

/-- The text between quotes. -/
def quote (s : Text) : Text :=
  String.ofList ('\"' :: s.glyphs.flatMap quoteGlyph ++ ['\"'])

end CodeTiling.Text
