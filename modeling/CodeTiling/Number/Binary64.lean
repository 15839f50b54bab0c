import CodeTiling.Number.Decimal

/-!
# Numbers of 53 significant bits

`Binary64` holds the numbers of the usual 64-bit floating format as exact values: a sign, a
natural number below `2 ^ 53` and a power of two. `Binary64.ofRatio` takes a positive ratio to the
nearest of them, a tie to the even one, and `Binary64.ofDecimal?` reads decimal numerals with it.
-/

namespace CodeTiling

/-- A number of the 64-bit floating format. -/
inductive Binary64 where
  /-- The number `± mantissa · 2 ^ exponent`. -/
  | finite (negative : Bool) (mantissa : Nat) (exponent : Int)
  /-- An infinity. -/
  | infinite (negative : Bool)
  /-- No number. -/
  | nan
deriving DecidableEq, Repr

namespace Binary64

/-- The least exponent. -/
def minExponent : Int := -1074

/-- The greatest exponent of a number with all its 53 bits. -/
def maxExponent : Int := 971

/-- `num · 2 ^ k / den` as a ratio of natural numbers. -/
def scale (num den : Nat) (k : Int) : Nat × Nat :=
  if 0 ≤ k then (num <<< k.toNat, den) else (num, den <<< (-k).toNat)

/-- The quotient rounded to the nearest natural number, a tie to the even one. -/
def roundDiv (num den : Nat) : Nat :=
  let q := num / den
  let r := num % den
  if 2 * r < den then q
  else if den < 2 * r then q + 1
  else if q % 2 = 0 then q else q + 1

/-- The greatest `k` with `2 ^ k ≤ num / den`. -/
def floorLog2 (num den : Nat) : Int :=
  let k : Int := (num.log2 : Int) - den.log2
  let (a, b) := scale num den (-k)
  if a < b then k - 1 else k

/-- The mantissa and exponent nearest to a positive ratio; `none` when it is out of range. -/
def ofRatio (num den : Nat) : Option (Nat × Int) :=
  let e := max (floorLog2 num den - 52) minExponent
  let (a, b) := scale num den (-e)
  let m := roundDiv a b
  let (m, e) := if m = 1 <<< 53 then (1 <<< 52, e + 1) else (m, e)
  if maxExponent < e then none else some (m, e)

/-- The number nearest to a decimal one; `none` when it is out of range. Powers of ten far outside
the range are not computed. -/
def ofDecimal? (d : Decimal) : Option Binary64 :=
  let width : Int := (Nat.toDigits 10 d.digits).length
  if d.digits = 0 ∨ d.exponent + width < -330 then some (.finite d.negative 0 minExponent)
  else if 310 < d.exponent + width then none
  else
    let (num, den) := if 0 ≤ d.exponent then (d.digits * Nat.pow 10 d.exponent.toNat, 1)
      else (d.digits, Nat.pow 10 (-d.exponent).toNat)
    (ofRatio num den).map fun (m, e) => .finite d.negative m e

/-- The number in units of the least positive one; infinities lie beyond all numbers. -/
def units : Binary64 → Int
  | .finite negative m e =>
    let n := Int.ofNat (m <<< (e - minExponent).toNat)
    if negative then -n else n
  | .infinite negative =>
    let n := Int.ofNat (1 <<< 2200)
    if negative then -n else n
  | .nan => 0

/-- An order in which what is no number comes first. -/
def le : Binary64 → Binary64 → Bool
  | .nan, _ => true
  | _, .nan => false
  | a, b => a.units ≤ b.units

/-- Whether two numbers are equal, whatever the sign of zero. What is no number equals nothing. -/
def same : Binary64 → Binary64 → Bool
  | .nan, _ => false
  | _, .nan => false
  | a, b => a.units = b.units

/-- The number nearest to an integer of less than 1024 bits. -/
def ofInt (v : Int) : Binary64 :=
  if v = 0 then .finite false 0 minExponent
  else match ofRatio v.natAbs 1 with
    | some (m, e) => .finite (v < 0) m e
    | none => .infinite (v < 0)

end Binary64

end CodeTiling
