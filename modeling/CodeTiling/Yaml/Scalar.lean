import CodeTiling.Text.Base64
import CodeTiling.Yaml.Value

/-!
# What scalars stand for

A scalar without quotes and tag is resolved by its text: nothing, a truth value, a number, a
timestamp or else the text itself (`resolve`). A tag can ask for one of these kinds (`resolveAs`):
every text is a string, but what is tagged as a number must read as one. The tag for octets asks for
a text whose octets are written in base 64. Any other tag leaves the text as it is.
-/

namespace CodeTiling.Yaml

/-- The kinds of values that a scalar stands for. -/
inductive ScalarKind where
  /-- Nothing. -/
  | null
  /-- A truth value. -/
  | bool
  /-- A whole number. -/
  | int
  /-- A number with a fraction or an exponent. -/
  | float
  /-- A text. -/
  | string
  /-- A point in time. -/
  | time
deriving DecidableEq, Repr

namespace ScalarKind

/-- All kinds. -/
def all : List ScalarKind := [null, bool, int, float, string, time]

/-- The short form of the tag of a kind. -/
def tag : ScalarKind → String
  | null => "!!null"
  | bool => "!!bool"
  | int => "!!int"
  | float => "!!float"
  | string => "!!str"
  | time => "!!timestamp"

/-- The kind that a tag asks for. -/
def ofTag? (t : String) : Option ScalarKind := all.find? fun k => k.tag = t

/-- The kind of a value; only values without parts have one. -/
def ofValue : Value → ScalarKind
  | .null => null
  | .bool _ => bool
  | .int _ => int
  | .uint _ => int
  | .float _ => float
  | .time _ => time
  | _ => string

end ScalarKind

namespace Scalar

/-! ### Whole numbers -/

/-- The value of a digit of a base up to 16. -/
def digitIn? (base : Nat) (c : Char) : Option Nat :=
  let d :=
    if c.isDigit then digitOf c
    else if 'a' ≤ c ∧ c ≤ 'f' then c.toNat - 'a'.toNat + 10
    else if 'A' ≤ c ∧ c ≤ 'F' then c.toNat - 'A'.toNat + 10
    else base
  if d < base then some d else none

/-- The number written by digits of a base; at least one is needed. -/
def natIn? (base : Nat) : List Char → Option Nat
  | [] => none
  | cs => cs.foldl (fun n c => do return base * (← n) + (← digitIn? base c)) (some 0)

/-- The number written by digits whose base is told by what they start with: `0x`, `0b`, `0o`, or a
zero for base 8. -/
def nat? : List Char → Option Nat
  | '0' :: x :: c :: cs =>
    if x = 'x' ∨ x = 'X' then natIn? 16 (c :: cs)
    else if x = 'b' ∨ x = 'B' then natIn? 2 (c :: cs)
    else if x = 'o' ∨ x = 'O' then natIn? 8 (c :: cs)
    else natIn? 8 (x :: c :: cs)
  | ['0', x] => natIn? 8 [x]
  | cs => natIn? 10 cs

/-- A number with its sign as a value, if it fits 64 bits. Without a sign one more bit is there. -/
def sized? (signed negative : Bool) (n : Nat) : Option Value :=
  if negative then if n ≤ 0x8000000000000000 then some (.int (.ofInt (-n))) else none
  else if n < 0x8000000000000000 then some (.int (.ofNat n))
  else if n < 0x10000000000000000 ∧ !signed then some (.uint (.ofNat n))
  else none

/-- Whether a text starts with a sign. -/
def isSigned : List Char → Bool
  | c :: _ => c = '+' || c = '-'
  | [] => false

/-- A whole number read with a function for its digits. -/
def intBy? (read : List Char → Option Nat) (cs : List Char) : Option Value := do
  let (negative, digits) := Decimal.takeSign cs
  sized? (isSigned cs) negative (← read digits)

/-- A number of base 2 or 8 whose sign stands after the mark of the base, as in `0b-1`. -/
def lateSigned? : List Char → Option Value
  | '0' :: 'b' :: cs => intBy? (natIn? 2) cs
  | '0' :: 'o' :: cs => intBy? (natIn? 8) cs
  | _ => none

/-- The number that a text without underscores writes. -/
def number? (cs : List Char) : Option Value :=
  (intBy? nat? cs).orElse fun _ =>
    ((Decimal.ofChars? cs).bind Binary64.ofDecimal?).map Value.float |>.orElse fun _ =>
      lateSigned? cs

/-! ### Numbers that start with a point -/

/-- Whether every underscore stands between two digits. -/
def underscoresOk : List Char → Bool
  | a :: '_' :: b :: cs => a.isDigit && b.isDigit && underscoresOk (b :: cs)
  | [_, '_'] => false
  | _ :: cs => underscoresOk cs
  | [] => true

/-- The number that a text with a point in front writes. -/
def pointNumber? (cs : List Char) : Option Value :=
  if underscoresOk cs then
    ((Decimal.ofChars? (cs.filter (· ≠ '_'))).bind Binary64.ofDecimal?).map Value.float
  else none

/-! ### All plain scalars -/

/-- The words with a meaning of their own. -/
def word? : String → Option Value
  | "" | "~" | "null" | "Null" | "NULL" => some .null
  | "true" | "True" | "TRUE" => some (.bool true)
  | "false" | "False" | "FALSE" => some (.bool false)
  | ".nan" | ".NaN" | ".NAN" => some (.float .nan)
  | ".inf" | ".Inf" | ".INF" | "+.inf" | "+.Inf" | "+.INF" => some (.float (.infinite false))
  | "-.inf" | "-.Inf" | "-.INF" => some (.float (.infinite true))
  | _ => none

/-- What a text that is no word stands for, if it is not a text. Timestamps are looked for only
on request. -/
def numeral? (times : Bool) : List Char → Option Value
  | [] => none
  | c :: cs =>
    if c = '.' then pointNumber? (c :: cs)
    else if c.isDigit ∨ c = '+' ∨ c = '-' then
      let time := if times then (Timestamp.ofChars? (c :: cs)).map Value.time else none
      time.orElse fun _ => number? ((c :: cs).filter (· ≠ '_'))
    else none

/-- What a text stands for. -/
def resolve (s : String) (times : Bool := true) : Value :=
  ((word? s).orElse fun _ => numeral? times s.toList).getD (.string s)

/-- What a text stands for when a kind is asked for; `none` when it is not of that kind. A whole
number is taken as one with a fraction where that is asked for. -/
def resolveAs (kind : ScalarKind) (s : String) : Option Value :=
  if kind = .string then some (.string s)
  else
    let v := resolve s (kind = .time)
    match kind, v with
    | .float, .int x => some (.float (.ofInt x.toInt))
    | _, _ => if ScalarKind.ofValue v = kind then some v else none

/-- The tag of a text whose octets are written in base 64. -/
def octetsTag : String := "!!binary"

/-- The value of a text under a tag; `none` when it is not what the tag asks for. -/
def value? (tag s : String) : Option Value :=
  match ScalarKind.ofTag? tag with
  | some kind => resolveAs kind s
  | none =>
    if tag = octetsTag then (Text.ofBase64? s).map Value.string
    else some (.string s)

/-- The tag of a text without quotes. -/
def plainTag (s : String) : String :=
  if s = "<<" then "!!merge" else (ScalarKind.ofValue (resolve s)).tag

end Scalar

end CodeTiling.Yaml
