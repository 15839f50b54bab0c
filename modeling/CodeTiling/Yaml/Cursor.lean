import CodeTiling.Text.Basic

/-!
# Places in a text

A `Cursor` is the rest of a text together with the line and column where it starts. Lines end at
the usual breaks; a carriage return and a line feed after it are one break.

A text is taken up in pieces of a fixed number of octets, no earlier than they are needed. A
character that no document may hold, or an octet of no character, is an error when the piece with it
is taken up, so one that stands far behind what is read does no harm. `ScanM` is the kind of
computation that moves a cursor, and `Scan.need` takes up pieces.
-/

namespace CodeTiling.Yaml

/-! ### Characters -/

/-- Blanks within a line. -/
def isBlank (c : Char) : Bool := c = ' ' || c = '\t'

/-- Line breaks. -/
def isBreak (c : Char) : Bool :=
  c = '\r' || c = '\n' || c = '\x85' || c = '\u2028' || c = '\u2029'

/-- Blanks and line breaks. -/
def isSpace (c : Char) : Bool := isBlank c || isBreak c

/-- The characters of anchors and tag handles. -/
def isWordChar (c : Char) : Bool :=
  ('0' ≤ c && c ≤ '9') || ('A' ≤ c && c ≤ 'Z') || ('a' ≤ c && c ≤ 'z') || c = '_' || c = '-'

/-- The characters that a document may hold at all. -/
def isAllowed (c : Char) : Bool :=
  let n := c.toNat
  n = 0x09 || n = 0x0a || n = 0x0d || (0x20 ≤ n && n ≤ 0x7e) || n = 0x85 ||
    (0xa0 ≤ n && n ≤ 0xd7ff) || (0xe000 ≤ n && n ≤ 0xfffd) || 0x10000 ≤ n

/-- The mark of the byte order. -/
def byteOrderMark : Char := '\ufeff'

/-- Whether a text is over or goes on with a blank or a break. -/
def atSpace : List Char → Bool
  | [] => true
  | c :: _ => isSpace c

/-- Whether a text is over or goes on with a break. -/
def atLineEnd : List Char → Bool
  | [] => true
  | c :: _ => isBreak c

/-- Whether a text goes on with `---` or `...` on its own. -/
def atDocumentMark : List Char → Bool
  | '-' :: '-' :: '-' :: cs => atSpace cs
  | '.' :: '.' :: '.' :: cs => atSpace cs
  | _ => false

/-! ### Pieces -/

/-- A piece of a text that is taken up at once. -/
structure Piece where
  /-- How many characters it has. -/
  length : Nat := 0
  /-- Whether a document may hold all of them. -/
  sound : Bool := true
deriving DecidableEq, Repr

namespace Piece

/-- The most octets of a piece. -/
def capacity : Nat := 512

/-- Whether a document may hold a part of a text. -/
def isSound : Text.Glyph → Bool
  | .char c => isAllowed c
  | .octet _ => false

/-- The number of octets of a part of a text. -/
def sizeOf : Text.Glyph → Nat
  | .char c => c.utf8Size
  | .octet _ => 1

/-- The piece with one more part of a text. -/
def add (p : Piece) (g : Text.Glyph) : Piece := ⟨p.length + 1, p.sound && isSound g⟩

/-- The pieces of a text, when the first one has some characters already and room for some more
octets. A character is never cut. -/
def piecesFrom (p : Piece) (room : Nat) : List Text.Glyph → List Piece
  | [] => if p.length = 0 then [] else [p]
  | g :: gs =>
    if sizeOf g ≤ room then piecesFrom (p.add g) (room - sizeOf g) gs
    else p :: piecesFrom (Piece.add {} g) (capacity - sizeOf g) gs

end Piece

/-! ### Cursors -/

/-- A place in a text. -/
structure Mark where
  /-- The line, from 0. -/
  line : Nat := 0
  /-- The column, from 0. -/
  column : Nat := 0
  /-- The number of characters before it. -/
  index : Nat := 0
deriving DecidableEq, Repr

/-- The rest of a text from a place on. -/
structure Cursor where
  /-- The characters still to come. -/
  rest : List Char
  /-- The number of characters of the whole text. -/
  size : Nat
  /-- Where they start. -/
  mark : Mark := {}
  /-- How many of them have been taken up. The end of the text counts as a character, again and
  again. -/
  ready : Nat := 0
  /-- The pieces that have not been taken up. -/
  pieces : List Piece
  /-- Where the last piece was taken up: the character that was the next one then. -/
  front : Option Char := none
  /-- The number of line breaks since the last character that is not blank. -/
  breaks : Nat := 0

namespace Cursor

/-- The start of a text. A byte order mark in front does not belong to the text. An empty text is as
good as an empty line. -/
def ofText (text : Text) : Cursor :=
  let start (rest : List Text.Glyph) (room : Nat) : Cursor :=
    { rest := rest.map Text.Glyph.shown
      size := rest.length
      pieces := Piece.piecesFrom {} room rest }
  match text.glyphs with
  | [] => start [.char '\n'] Piece.capacity
  | g :: gs =>
    if g = .char byteOrderMark then start gs (Piece.capacity - byteOrderMark.utf8Size)
    else start (g :: gs) Piece.capacity

variable (c : Cursor)

/-- The column. -/
def column : Nat := c.mark.column

/-- The next character. -/
def head? : Option Char := c.rest.head?

/-- Whether the next character is a given one. -/
def startsWith (x : Char) : Bool := c.rest.head? = some x

/-- Whether the cursor is at a document mark. -/
def isDocumentMark : Bool := c.column = 0 && atDocumentMark c.rest

/-- Take up pieces until `n` characters are ready, or once the end when there are no more. -/
def takeUp (n : Nat) (c : Cursor) : List Piece → Option Cursor
  | [] => some { c with pieces := [], ready := c.ready + 1 }
  | p :: ps =>
    if !p.sound then none
    else
      let c := { c with pieces := ps, ready := c.ready + p.length }
      if n ≤ c.ready then some c else takeUp n c ps

/-- Have `n` characters ready. -/
def need (n : Nat) : Option Cursor :=
  if n ≤ c.ready then some c else takeUp n { c with front := c.head? } c.pieces

/-- Move over a character of the line. -/
def skip : Cursor :=
  { c with
    rest := c.rest.tail
    mark := { c.mark with column := c.mark.column + 1, index := c.mark.index + 1 }
    ready := c.ready - 1
    breaks := if c.head?.any isBlank then c.breaks else 0 }

/-- The start of the next line, after `n` characters, where `rest` is what is left. -/
def nextLine (n : Nat) (rest : List Char) : Cursor :=
  { c with
    rest
    mark := { line := c.mark.line + 1, column := 0, index := c.mark.index + n }
    ready := c.ready - n
    breaks := c.breaks + 1 }

/-- The line break at the cursor and the start of the next line. A break counts as a line feed,
except for the two separators that are kept. -/
def takeBreak? : Option (Char × Cursor) :=
  match c.rest with
  | '\r' :: '\n' :: cs => some ('\n', c.nextLine 2 cs)
  | x :: cs =>
    if isBreak x then
      some (if x = '\u2028' ∨ x = '\u2029' then x else '\n', c.nextLine 1 cs)
    else none
  | [] => none

end Cursor

/-! ### Moving -/

/-- Computations that move a cursor and may fail. -/
abbrev ScanM := StateT Cursor Option

namespace Scan

/-- Have some characters ready. -/
def need (n : Nat) : ScanM Unit := fun c => (c.need n).map fun c => ((), c)

/-- Move over a character. -/
def skip : ScanM Unit := modify Cursor.skip

/-- The characters to come. -/
def rest : ScanM (List Char) := return (← get).rest

/-- The next character. -/
def head? : ScanM (Option Char) := return (← get).head?

/-- Whether the next character is a given one. -/
def startsWith (x : Char) : ScanM Bool := return (← get).startsWith x

/-- The column. -/
def column : ScanM Nat := return (← get).column

/-- A number that is greater than the number of characters to come. -/
def fuel : ScanM Nat := return (← get).size + 1

/-- Fail unless a condition holds. -/
def ensure (b : Bool) : ScanM Unit := if b then return () else failure

/-- The line break at the cursor, if there is one, and move to the next line. -/
def takeBreak? : ScanM (Option Char) := do
  match (← get).takeBreak? with
  | some (b, c) => set c; return some b
  | none => return none

/-- The characters at the cursor that have a property. After each one, one more is ready. -/
def takeWhileUpTo (p : Char → Bool) : Nat → ScanM (List Char)
  | 0 => return []
  | fuel + 1 => do
    match ← head? with
    | some x =>
      if p x then
        skip
        need 1
        return x :: (← takeWhileUpTo p fuel)
      else return []
    | none => return []

/-- The characters at the cursor that have a property. -/
def takeWhile (p : Char → Bool) : ScanM (List Char) := do
  need 1
  takeWhileUpTo p (← fuel)

/-- Move over the characters that have a property. -/
def skipWhile (p : Char → Bool) : ScanM Unit := do
  let _ ← takeWhile p

/-- Move over the rest of the line. -/
def skipLine : ScanM Unit := skipWhile (!isBreak ·)

/-- Move to the next line. Before the break only blanks and a comment may stand. -/
def endLine : ScanM Unit := do
  skipWhile isBlank
  if ← startsWith '#' then skipLine
  ensure (atLineEnd (← rest))
  if (← head?).isSome then
    need 2
    let _ ← takeBreak?

end Scan

end CodeTiling.Yaml
