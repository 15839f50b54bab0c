import CodeTiling.Document.Text

/-!
# Documents of rules

What a document of rules says, before its texts are given a meaning: operations, operands and
mnemonics are still texts, and the operands of template lines are values of any type.
-/

namespace CodeTiling.Document

open Yaml (Value Decoder)
open Yaml.Decoder (RecordType setting text untyped listOf record optional)

/-- A pattern of an instruction or a terminator. -/
structure Pattern where
  /-- The operation. -/
  op : Text := ""
  /-- The name for the destination. -/
  dst : Text := ""
  /-- The operands. -/
  args : List Text := []
  /-- The name for the called function. -/
  func : Text := ""
  /-- The name for the arguments of a call. -/
  list : Text := ""
  /-- The names for the labels. -/
  labels : List Text := []
deriving DecidableEq, Repr

/-- A rule. -/
structure Rule where
  /-- The name. -/
  name : Text := ""
  /-- The patterns of instructions. -/
  code : List Pattern := []
  /-- The pattern of a terminator. -/
  last : Option Pattern := none
  /-- The lines of the template. -/
  lines : List (List Value) := []

/-- How a pattern is read. -/
def Pattern.type : RecordType Pattern where
  empty := {}
  fields := [
    ("op", setting text fun s p => { p with op := s }),
    ("dst", setting text fun s p => { p with dst := s }),
    ("args", setting (listOf text) fun l p => { p with args := l }),
    ("func", setting text fun s p => { p with func := s }),
    ("list", setting text fun s p => { p with list := s }),
    ("labels", setting (listOf text) fun l p => { p with labels := l })]

/-- How a rule is read. A line of the template that stands for nothing is an empty one. -/
def Rule.type : RecordType Rule where
  empty := {}
  fields := [
    ("name", setting text fun s r => { r with name := s }),
    ("match", setting (listOf (record Pattern.type)) fun l r => { r with code := l }),
    ("last", setting (optional Pattern.type) fun p r => { r with last := p }),
    ("asm", setting (listOf (listOf untyped)) fun l r => { r with lines := l })]

/-- How a list of rules is read. -/
def rulesType : RecordType (List Rule) where
  empty := []
  fields := [
    ("rules", setting (listOf (record Rule.type)) fun l _ => l)]

/-- The rules of a text, none when it says nothing. -/
def rulesOfText (s : Text) : Except Cause (List Rule) := readText rulesType s

end CodeTiling.Document
