import CodeTiling.Yaml.Lexeme.Quoted

/-!
# Anchors, tags and directives

An anchor is a word after `&`, an alias one after `*`. A tag is `!text`, `!!text`, `!handle!text`
or `!<text>`. Directives stand before a document and tell the version or give a handle a meaning.

In the text of a tag an octet can be written as `%` with two digits of base 16. Octets that are
written so have to follow one another as in the encoding of a character. A tag is kept as the
sequence of its octets, each of them a character.
-/

namespace CodeTiling.Yaml.Lexeme

open Scan

/-! ### Anchors -/

/-- The punctuation that may follow an anchor. -/
def isAfterAnchor (c : Char) : Bool :=
  c = '?' || c = ':' || c = ',' || c = ']' || c = '\x7d' || c = '%' || c = '@' || c = '\x60'

/-- The name of an anchor or alias, at its sign. -/
def anchorName : ScanM String := do
  skip
  let word ← takeWhile isWordChar
  let after ← rest
  ensure (!word.isEmpty && (atSpace after || after.head?.any isAfterAnchor))
  return String.ofList word

/-! ### Tags -/

/-- The characters of a tag's text. -/
def isTagChar (c : Char) : Bool :=
  isWordChar c || ";/?:@&=+$.,!~*'()[]%".toList.contains c

/-- The number of octets of a character whose first octet is given; `none` when no character starts
so. -/
def widthOf? (octet : Nat) : Option Nat :=
  if octet < 0x80 then some 1
  else if octet < 0xc0 then none
  else if octet < 0xe0 then some 2
  else if octet < 0xf0 then some 3
  else if octet < 0xf8 then some 4
  else none

/-- The octet written at the cursor. -/
def escapedOctet : ScanM Nat := do
  need 3
  ensure (← startsWith '%')
  skip
  takeHex 0 2

/-- The octets of a character after the first one, so many. -/
def escapedTail : Nat → ScanM (List Char)
  | 0 => return []
  | n + 1 => do
    let octet ← escapedOctet
    ensure (0x80 ≤ octet && octet < 0xc0)
    return Char.ofNat octet :: (← escapedTail n)

/-- The octets of a character. -/
def escapedChar : ScanM (List Char) := do
  let octet ← escapedOctet
  let some width := widthOf? octet | failure
  return Char.ofNat octet :: (← escapedTail (width - 1))

/-- The text of a tag up to a character that cannot be in it. -/
def tagCharsUpTo : Nat → ScanM (List Char)
  | 0 => return []
  | fuel + 1 => do
    match ← head? with
    | none => return []
    | some c =>
      if isTagChar c then
        let octets ← if c = '%' then escapedChar else pure [c]
        if c ≠ '%' then skip
        need 1
        return octets ++ (← tagCharsUpTo fuel)
      else return []

/-- The text of a tag. -/
def tagChars : ScanM (List Char) := do
  need 1
  tagCharsUpTo (← Scan.fuel)

/-- A tag as it is written: a handle and a text. -/
structure TagText where
  /-- The handle; empty when the text is the whole tag. -/
  handle : String
  /-- The text after the handle. -/
  text : String
deriving DecidableEq, Repr

/-- The handle at the cursor: an exclamation mark, word characters and maybe another mark. -/
def tagHandle : ScanM (List Char) := do
  need 1
  ensure (← startsWith '!')
  skip
  let word ← takeWhile isWordChar
  if ← startsWith '!' then
    skip
    return '!' :: word ++ ['!']
  else return '!' :: word

/-- Whether a handle is more than one exclamation mark and ends with one. -/
def isFullHandle (handle : List Char) : Bool := 1 < handle.length && handle.getLast? = some '!'

/-- The tag at the cursor, without the check of what follows. -/
def tagText : ScanM TagText := do
  need 2
  if (← rest).tail.head? = some '<' then
    skip
    skip
    let text ← tagChars
    ensure (!text.isEmpty && (← startsWith '>'))
    skip
    return ⟨"", String.ofList text⟩
  else
    let handle ← tagHandle
    let text ← tagChars
    if isFullHandle handle then
      ensure !text.isEmpty
      return ⟨String.ofList handle, String.ofList text⟩
    else
      let text := handle.tail ++ text
      if text.isEmpty then return ⟨"", "!"⟩ else return ⟨"!", String.ofList text⟩

/-- The tag at the cursor. -/
def tag : ScanM TagText := do
  let t ← tagText
  need 1
  ensure (atSpace (← rest))
  return t

/-! ### Directives -/

/-- A directive. -/
inductive Directive where
  /-- The version of the language. -/
  | version (major minor : List Char)
  /-- The meaning of a handle. -/
  | handle (name start : String)
deriving DecidableEq, Repr

/-- A number of at most two digits. -/
def versionPart : ScanM (List Char) := do
  let ds ← takeWhile Char.isDigit
  ensure (!ds.isEmpty && ds.length ≤ 2)
  return ds

/-- The version at the cursor. -/
def version : ScanM Directive := do
  let major ← versionPart
  ensure (← startsWith '.')
  skip
  return .version major (← versionPart)

/-- The meaning of a handle at the cursor. -/
def handleMeaning : ScanM Directive := do
  let handle ← tagHandle
  ensure (handle = ['!'] || isFullHandle handle)
  need 1
  ensure ((← head?).any isBlank)
  skipWhile isBlank
  let start ← tagChars
  need 1
  ensure (!start.isEmpty && atSpace (← rest))
  return .handle (String.ofList handle) (String.ofList start)

/-- The directive at the cursor. -/
def directive : ScanM Directive := do
  skip
  let name ← takeWhile isWordChar
  ensure (atSpace (← rest))
  skipWhile isBlank
  let d ←
    if name = "YAML".toList then version
    else if name = "TAG".toList then handleMeaning
    else failure
  endLine
  return d

end CodeTiling.Yaml.Lexeme
