/-!
# Decimal numerals

A `Decimal` is a sign, the number written by its digits, and a power of ten. `Decimal.ofChars?`
reads numerals such as `-1.50`, `.5`, `2.` and `1e-7`.
-/

namespace CodeTiling

/-- The value of a decimal digit. -/
def digitOf (c : Char) : Nat := c.toNat - '0'.toNat

/-- The number written by decimal digits, the first one highest. -/
def natOfDigits (cs : List Char) : Nat := cs.foldl (fun n c => 10 * n + digitOf c) 0

/-- A number in decimal notation: `± digits · 10 ^ exponent`. -/
structure Decimal where
  /-- Whether it has a minus sign. -/
  negative : Bool
  /-- The number written by all digits, without the point. -/
  digits : Nat
  /-- The power of ten. -/
  exponent : Int
deriving DecidableEq, Repr

namespace Decimal

/-- Take a sign from the front. The answer says whether it is a minus. -/
def takeSign : List Char → Bool × List Char
  | '-' :: cs => (true, cs)
  | '+' :: cs => (false, cs)
  | cs => (false, cs)

/-- The digits before and after the point, and what follows. At least one digit is needed. -/
def takeDigits (cs : List Char) : Option (List Char × List Char × List Char) :=
  let whole := cs.takeWhile Char.isDigit
  match cs.dropWhile Char.isDigit with
  | '.' :: rest =>
    let part := rest.takeWhile Char.isDigit
    if whole = [] ∧ part = [] then none else some (whole, part, rest.dropWhile Char.isDigit)
  | rest => if whole = [] then none else some (whole, [], rest)

/-- The power of ten after the digits, up to the end. -/
def exponentOf? : List Char → Option Int
  | [] => some 0
  | c :: cs =>
    let (negative, digits) := takeSign cs
    if (c = 'e' ∨ c = 'E') ∧ digits ≠ [] ∧ digits.all Char.isDigit then
      some (if negative then -(natOfDigits digits : Int) else natOfDigits digits)
    else none

/-- Read a numeral. -/
def ofChars? (cs : List Char) : Option Decimal := do
  let (negative, rest) := takeSign cs
  let (whole, part, tail) ← takeDigits rest
  let e ← exponentOf? tail
  return { negative, digits := natOfDigits (whole ++ part), exponent := e - part.length }

end Decimal

end CodeTiling
