import CodeTiling.Number.Binary64

/-!
# The fewest digits that read back

A number of the 64-bit floating format is written with the fewest decimal digits that still read
back as the same number, and of those with the nearest. All comparisons are of natural numbers.

A number stands for the interval of all values that round to it: half a step to both sides, a
quarter to the lower side at a power of two, the ends included when the mantissa is even.
-/

namespace CodeTiling

namespace Shortest

/-- A positive number and the interval that rounds to it, over a common denominator. -/
structure Interval where
  /-- The lower end. -/
  low : Nat
  /-- The number. -/
  value : Nat
  /-- The upper end. -/
  high : Nat
  /-- The denominator. -/
  den : Nat
  /-- Whether the ends belong to it. -/
  closed : Bool

/-- The interval of `m · 2 ^ e`. -/
def interval (m : Nat) (e : Int) : Interval :=
  let narrow := m = 1 <<< 52 ∧ Binary64.minExponent < e
  let up := 1 <<< e.toNat
  { low := (4 * m - if narrow then 1 else 2) * up
    value := 4 * m * up
    high := (4 * m + 2) * up
    den := 4 <<< (-e).toNat
    closed := m % 2 = 0 }

/-- Whether `d · 10 ^ k` is in the interval. -/
def Interval.contains (i : Interval) (d : Nat) (k : Int) : Bool :=
  let x := d * Nat.pow 10 k.toNat * i.den
  let y := Nat.pow 10 (-k).toNat
  if i.closed then i.low * y ≤ x ∧ x ≤ i.high * y else i.low * y < x ∧ x < i.high * y

/-- The greatest `d` with `d · 10 ^ k` not above the value. -/
def Interval.floor (i : Interval) (k : Int) : Nat :=
  i.value * Nat.pow 10 (-k).toNat / (i.den * Nat.pow 10 k.toNat)

/-- Whether `(d + 1) · 10 ^ k` is nearer to the value than `d · 10 ^ k`; a tie goes to the even
one. -/
def Interval.upperNearer (i : Interval) (d : Nat) (k : Int) : Bool :=
  let twice := 2 * i.value * Nat.pow 10 (-k).toNat
  let middle := (2 * d + 1) * Nat.pow 10 k.toNat * i.den
  middle < twice ∨ (middle = twice ∧ d % 2 = 1)

/-- The point of the grid of step `10 ^ k` that reads back, the nearer one of two. -/
def Interval.onGrid (i : Interval) (k : Int) : Option Nat :=
  let d := i.floor k
  match i.contains d k, i.contains (d + 1) k with
  | true, true => some (if i.upperNearer d k then d + 1 else d)
  | true, false => some d
  | false, true => some (d + 1)
  | false, false => none

/-- Try finer and finer grids: step `10 ^ k`, then a tenth of it, at most `n` times more. -/
def Interval.search (i : Interval) (k : Int) : Nat → Nat × Int
  | 0 => (i.floor k, k)
  | n + 1 =>
    match i.onGrid k with
    | some d => (d, k)
    | none => i.search (k - 1) n

/-- The power of ten of the first digit, or one more. -/
def Interval.magnitude (i : Interval) : Int :=
  let whole := i.value / i.den
  if 0 < whole then (Nat.toDigits 10 whole).length
  else 1 - (Nat.toDigits 10 (i.den / i.value)).length + 1

/-- Drop the zeros at the end of the digits. -/
def dropZeros (d : Nat) (k : Int) : Nat → Nat × Int
  | 0 => (d, k)
  | fuel + 1 => if d ≠ 0 ∧ d % 10 = 0 then dropZeros (d / 10) (k + 1) fuel else (d, k)

/-- The shortest decimal of a positive `m · 2 ^ e`: digits and a power of ten. -/
def decimal (m : Nat) (e : Int) : Nat × Int :=
  let i := interval m e
  let (d, k) := i.search i.magnitude 20
  dropZeros d k 20

end Shortest

/-- How numbers are written: positional where the exponent of the first digit is in a range, and
otherwise with an exponent of at least two digits and a sign. -/
structure FloatFormat where
  /-- The least exponent that is written positionally. -/
  least : Int
  /-- The least exponent above it that is not. -/
  bound : Int

namespace FloatFormat

/-- The digits `ds` with the point so that the first one has the exponent `e`. -/
def positional (ds : List Char) (e : Int) : List Char :=
  if e < 0 then '0' :: '.' :: List.replicate ((-e).toNat - 1) '0' ++ ds
  else
    let n := e.toNat + 1
    if ds.length ≤ n then ds ++ List.replicate (n - ds.length) '0'
    else ds.take n ++ '.' :: ds.drop n

/-- The digits `ds` with an exponent. -/
def scientific (ds : List Char) (e : Int) : List Char :=
  let mantissa := match ds with
    | d :: c :: cs => d :: '.' :: c :: cs
    | cs => cs
  let digits := Nat.toDigits 10 e.natAbs
  let padded := if digits.length < 2 then '0' :: digits else digits
  mantissa ++ 'e' :: (if e < 0 then '-' else '+') :: padded

variable (f : FloatFormat)

/-- The text of a number. -/
def text : Binary64 → String
  | .nan => "NaN"
  | .infinite negative => if negative then "-Inf" else "+Inf"
  | .finite negative m e =>
    let body :=
      if m = 0 then ['0']
      else
        let (d, k) := Shortest.decimal m e
        let ds := Nat.toDigits 10 d
        let exponent := k + ds.length - 1
        if exponent < f.least ∨ f.bound ≤ exponent then scientific ds exponent
        else positional ds exponent
    String.ofList (if negative then '-' :: body else body)

end FloatFormat

end CodeTiling
