import CodeTiling.Number.Shortest
import CodeTiling.Text.Basic
import CodeTiling.Yaml.Timestamp

/-!
# Untyped values

What a document says where no type is prescribed. Messages name the type of a value
(`Value.typeName`) or give its text (`Value.text`). Values without parts can be keys of a map;
`Value.same` says when two of them are one key.
-/

namespace CodeTiling.Yaml

/-- A value without a prescribed type. -/
inductive Value where
  /-- Nothing. -/
  | null
  /-- A truth value. -/
  | bool (b : Bool)
  /-- A number that fits 64 bits with a sign. -/
  | int (v : Int64)
  /-- A number that fits 64 bits only without a sign. -/
  | uint (v : UInt64)
  /-- A number with a fraction or an exponent. -/
  | float (x : Binary64)
  /-- A text. -/
  | string (s : Text)
  /-- A point in time. -/
  | time (t : Timestamp)
  /-- A list. -/
  | list (items : List Value)
  /-- Keys that are all texts, with their values. -/
  | record (fields : List (Text × Value))
  /-- Keys of any kind, with their values. -/
  | map (entries : List (Value × Value))
deriving Inhabited

namespace Value

/-- The name of the type of a value. -/
def typeName : Value → Text
  | null => "<nil>"
  | bool _ => "bool"
  | int _ => "int"
  | uint _ => "uint64"
  | float _ => "float64"
  | string _ => "string"
  | time _ => "time.Time"
  | list _ => "[]interface \x7b\x7d"
  | record _ => "map[string]interface \x7b\x7d"
  | map _ => "map[interface \x7b\x7d]interface \x7b\x7d"

/-- Numbers are positional from `0.0001` up to a million. -/
def floatFormat : FloatFormat where
  least := -4
  bound := 6

/-- The text of a value without parts. -/
def atomText : Value → Text
  | null => "<nil>"
  | bool b => if b then "true" else "false"
  | int v => toString v.toInt
  | uint v => toString v.toNat
  | float x => floatFormat.text x
  | string s => s
  | time t => t.text
  | _ => ""

/-- Whether a value has parts. -/
def hasParts : Value → Bool
  | list _ => true
  | record _ => true
  | map _ => true
  | _ => false

/-- Whether two values without parts are one key. What is not a number is no key but itself. -/
def same : Value → Value → Bool
  | null, null => true
  | bool a, bool b => a = b
  | int a, int b => a = b
  | uint a, uint b => a = b
  | float a, float b => a.same b
  | string a, string b => a = b
  | time a, time b => a.same b
  | _, _ => false

/-- The place of the type of a key among all types. -/
def rank : Value → Nat
  | null => 0
  | string _ => 1
  | bool _ => 2
  | uint _ => 3
  | int _ => 4
  | float _ => 5
  | time _ => 6
  | _ => 7

/-- An order on keys without parts: by type, then by value. -/
def keyLe : Value → Value → Bool
  | bool a, bool b => !a || b
  | int a, int b => a ≤ b
  | uint a, uint b => a ≤ b
  | float a, float b => a.le b
  | string a, string b => a.le b
  | time a, time b => a.le b
  | a, b => a.rank ≤ b.rank

/-- Texts with a blank between them. -/
def spaced (l : List Text) : Text := Text.intercalate " " l

mutual

/-- The text of a value. Entries stand in the order of their keys. -/
def text : Value → Text
  | list items => "[" ++ spaced (texts items) ++ "]"
  | record fields =>
    let entries := (fieldTexts fields).mergeSort fun a b => a.1.le b.1
    "map[" ++ spaced (entries.map fun (k, v) => k ++ ":" ++ v) ++ "]"
  | map entries =>
    let sorted := (entryTexts entries).mergeSort fun a b => keyLe a.1 b.1
    "map[" ++ spaced (sorted.map fun (k, v) => k.atomText ++ ":" ++ v) ++ "]"
  | v => v.atomText

/-- The texts of the items of a list. -/
def texts : List Value → List Text
  | [] => []
  | v :: vs => text v :: texts vs

/-- The fields of a record with the texts of their values. -/
def fieldTexts : List (Text × Value) → List (Text × Text)
  | [] => []
  | (k, v) :: rest => (k, text v) :: fieldTexts rest

/-- The entries of a map with the texts of their values. -/
def entryTexts : List (Value × Value) → List (Value × Text)
  | [] => []
  | (k, v) :: rest => (k, text v) :: entryTexts rest

end

end Value

end CodeTiling.Yaml
