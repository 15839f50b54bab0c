import CodeTiling.Text.Basic

/-!
# Octets in base 64

Three octets are written as four digits of base 64; an equals sign stands for each octet that is
missing at the end. Line breaks do not count. `ofBase64?` reads the text whose octets are written
so.
-/

namespace CodeTiling.Text

/-- The value of a digit of base 64. -/
def base64Digit? (c : Char) : Option Nat :=
  if 'A' ≤ c ∧ c ≤ 'Z' then some (c.toNat - 'A'.toNat)
  else if 'a' ≤ c ∧ c ≤ 'z' then some (c.toNat - 'a'.toNat + 26)
  else if '0' ≤ c ∧ c ≤ '9' then some (c.toNat - '0'.toNat + 52)
  else if c = '+' then some 62
  else if c = '/' then some 63
  else none

/-- The number that some digits of base 64 write. -/
def base64Number? (cs : List Char) : Option Nat :=
  cs.foldlM (fun n c => do return 64 * n + (← base64Digit? c)) 0

/-- The octets that digits write, four at a time. Bits at the end that fill no octet are dropped. -/
def base64Octets? : List Char → Option (List UInt8)
  | [] => some []
  | [a, b, '=', '='] => do
    let n ← base64Number? [a, b]
    return [.ofNat (n / 16)]
  | [a, b, c, '='] => do
    let n ← base64Number? [a, b, c]
    return [.ofNat (n / 1024), .ofNat (n / 4)]
  | a :: b :: c :: d :: rest => do
    let n ← base64Number? [a, b, c, d]
    return .ofNat (n / 65536) :: .ofNat (n / 256) :: .ofNat n :: (← base64Octets? rest)
  | _ => none

/-- The text whose octets are written in base 64. -/
def ofBase64? (s : String) : Option Text :=
  (base64Octets? (s.toList.filter fun c => c ≠ '\n' ∧ c ≠ '\r')).map Text.mk

end CodeTiling.Text
