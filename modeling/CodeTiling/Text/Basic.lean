/-!
# Texts

A `Text` is a sequence of octets. Most texts are the encoding of characters, and a string is taken
for its encoding wherever a text is expected (`Text.ofString`). A text can also hold octets that
belong to no character.

* `Text.glyphs` divides a text into characters and such octets;
* `Text.shown` is the string in which the replacement character stands for each such octet;
* `Text.le` is the order of texts, octet by octet.
-/

namespace CodeTiling

/-- A sequence of octets. -/
@[ext]
structure Text where
  /-- The octets. -/
  octets : List UInt8

namespace Text

/-- Whether two lists of octets are equal. -/
def octetsEq : List UInt8 → List UInt8 → Bool
  | [], [] => true
  | a :: as, b :: bs => a == b && octetsEq as bs
  | _, _ => false

/-- `octetsEq` decides equality. -/
theorem octetsEq_iff {as bs : List UInt8} : octetsEq as bs = true ↔ as = bs := by
  induction as generalizing bs with
  | nil => cases bs <;> simp [octetsEq]
  | cons a as ih => cases bs <;> simp [octetsEq, ih]

instance : DecidableEq Text := fun s t =>
  decidable_of_iff (octetsEq s.octets t.octets = true) (octetsEq_iff.trans Text.ext_iff.symm)

/-- The text without octets. -/
def empty : Text := ⟨[]⟩

instance : Inhabited Text := ⟨empty⟩

/-- One text after another. -/
def append (s t : Text) : Text := ⟨s.octets ++ t.octets⟩

instance : Append Text := ⟨append⟩

/-- The octets of two texts follow one another. -/
@[simp]
theorem octets_append (s t : Text) : (s ++ t).octets = s.octets ++ t.octets := rfl

/-- The encoding of a string. -/
def ofString (s : String) : Text := ⟨s.toList.flatMap String.utf8EncodeChar⟩

instance : Coe String Text := ⟨ofString⟩

/-- The decimal form of a number. -/
def decimal (v : Int) : Text := ofString (toString v)

/-- The number that digits stand for. -/
def numeralValue (os : List UInt8) : Nat := os.foldl (fun v o => 10 * v + (o.toNat - 48)) 0

/-- The number that a decimal form stands for; other texts stand for some number too. -/
def value (s : Text) : Int :=
  if s.octets.head? = some 45 then -numeralValue s.octets.tail else numeralValue s.octets

/-- Texts one after another. -/
def join (l : List Text) : Text := ⟨l.flatMap octets⟩

/-- Texts one after another with a text between each two of them. -/
def intercalate (between : Text) (l : List Text) : Text := join (l.intersperse between)

/-- What follows a text in another one that starts with it. -/
def after? (s front : Text) : Option Text :=
  if front.octets.isPrefixOf s.octets then some ⟨s.octets.drop front.octets.length⟩ else none

/-! ### Order -/

/-- The order of lists of octets by the first octet in which they differ. -/
def octetsLe : List UInt8 → List UInt8 → Bool
  | [], _ => true
  | _ :: _, [] => false
  | a :: as, b :: bs => a < b || (a = b && octetsLe as bs)

/-- The order of texts. -/
def le (s t : Text) : Bool := octetsLe s.octets t.octets

/-! ### Characters -/

/-- A part of a text. -/
inductive Glyph where
  /-- A character. -/
  | char (c : Char)
  /-- An octet that belongs to no character. -/
  | octet (value : UInt8)
deriving DecidableEq, Repr

/-- The six bits of an octet that continues a character. -/
def continuation? (octet : UInt8) : Option Nat :=
  if 0x80 ≤ octet ∧ octet < 0xc0 then some (octet.toNat - 0x80) else none

/-- The number that the bits of a first octet and so many octets after it make. -/
def codeFrom? (acc : Nat) : Nat → List UInt8 → Option Nat
  | 0, _ => some acc
  | n + 1, octet :: rest => do codeFrom? (64 * acc + (← continuation? octet)) n rest
  | _ + 1, [] => none

/-- The character with a number, if it is one that needs no fewer octets than it has. -/
def charFrom? (least code : Nat) : Option Char :=
  if least ≤ code ∧ code.isValidChar then some (Char.ofNat code) else none

/-- The character that starts with an octet, and how many of the octets after it belong to it. -/
def charAt? (octet : UInt8) (rest : List UInt8) : Option (Char × Nat) :=
  let n := octet.toNat
  if n < 0x80 then some (Char.ofNat n, 0)
  else if n < 0xc0 then none
  else if n < 0xe0 then do return (← charFrom? 0x80 (← codeFrom? (n - 0xc0) 1 rest), 1)
  else if n < 0xf0 then do return (← charFrom? 0x800 (← codeFrom? (n - 0xe0) 2 rest), 2)
  else if n < 0xf8 then do return (← charFrom? 0x10000 (← codeFrom? (n - 0xf0) 3 rest), 3)
  else none

/-- The parts of some octets after other parts, which are given last to first. The first `used`
octets belong to a character before. -/
def glyphsOnto (before : List Glyph) : Nat → List UInt8 → List Glyph
  | _, [] => before.reverse
  | used + 1, _ :: rest => glyphsOnto before used rest
  | 0, octet :: rest =>
    match charAt? octet rest with
    | some (c, n) => glyphsOnto (.char c :: before) n rest
    | none => glyphsOnto (.octet octet :: before) 0 rest

/-- The parts of a text. -/
def glyphs (s : Text) : List Glyph := glyphsOnto [] 0 s.octets

/-- The number of parts of a text. -/
def width (s : Text) : Nat := s.glyphs.length

/-- The character that stands for an octet of no character. -/
def replacement : Char := '\ufffd'

namespace Glyph

/-- The character that a part is shown as. -/
def shown : Glyph → Char
  | char c => c
  | octet _ => replacement

end Glyph

/-- The characters of a text, with the replacement character for octets of no character. -/
def shown (s : Text) : String := String.ofList (s.glyphs.map Glyph.shown)

instance : Repr Text := ⟨fun s _ => repr s.shown⟩

end Text

end CodeTiling
