import CodeTiling.Bits.Bitmap
import CodeTiling.Code.Text
import CodeTiling.Ir.Program

/-!
# Binary records

The log encoding of numbers, texts, names, registers, phis and bit sets. Every item starts with a
head: a tag in the upper three bits and a number, which stands in the lower five bits when it is
below 24 and in the next 1, 2, 4 or 8 bytes otherwise.
-/

namespace CodeTiling.Wire

/-- Bytes, first to last. -/
abbrev Bytes := List UInt8

/-- The `n` lowest bytes of a number, the highest first. -/
def bigEndian : Nat → Nat → Bytes
  | 0, _ => []
  | n + 1, k => bigEndian n (k / 256) ++ [UInt8.ofNat k]

/-- The kinds of items. -/
inductive Tag where
  /-- A number from 0 on. -/
  | int
  /-- A number below 0. -/
  | negative
  /-- A text. -/
  | string
  /-- A list. -/
  | array
  /-- Keys and values. -/
  | map
deriving DecidableEq, Repr

/-- The upper bits of a head. -/
def Tag.bits : Tag → Nat
  | .int => 0x00
  | .negative => 0x20
  | .string => 0x60
  | .array => 0x80
  | .map => 0xa0

/-- A head. -/
def head (tag : Tag) (n : Nat) : Bytes :=
  if n < 24 then [UInt8.ofNat (tag.bits + n)]
  else if n < 0x100 then UInt8.ofNat (tag.bits + 24) :: bigEndian 1 n
  else if n < 0x10000 then UInt8.ofNat (tag.bits + 25) :: bigEndian 2 n
  else if n < 0x100000000 then UInt8.ofNat (tag.bits + 26) :: bigEndian 4 n
  else UInt8.ofNat (tag.bits + 27) :: bigEndian 8 n

/-- Nothing. -/
def null : Bytes := [0xf6]

/-- A number. One below zero is written as one more than its distance from zero. -/
def int (v : Int) : Bytes :=
  if 0 ≤ v then head .int v.toNat else head .negative ((-v).toNat + 1)

/-- A text. -/
def string (s : Text) : Bytes := head .string s.octets.length ++ s.octets

/-- The number of a name; the blank name is nothing. -/
def name (v : Int) : Bytes := if v = 0 then null else int v

/-- A register of the IR, or a virtual one, by the number of its name. -/
def numberedRegister (v : Int) : Bytes := string ("%" ++ toString v)

/-- A register. -/
def register : Code.Register → Bytes
  | .none => null
  | .machine r => string r.text
  | .virtual n => numberedRegister n.index

/-- A phi: its destination and how many sources it has. -/
def phi (p : Ir.Phi) : Bytes :=
  head .map 2 ++ string "dst" ++ int p.dst.index ++ string "srcs" ++ int p.sources.length

/-- A bit set as an open list; one that has no storage is nothing. -/
def bitmap (s : Bitmap) : Bytes :=
  if s.room?.isSome then 0x9f :: s.toList.flatMap (fun i : Nat => int i) ++ [0xff] else null

end CodeTiling.Wire
