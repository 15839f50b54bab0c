import CodeTiling.Document.Text

/-!
# Documents of programs

What a document of a program says, before its texts are given a meaning: operations and names are
still texts, and the operands of instructions are values of any type.
-/

namespace CodeTiling.Document

open Yaml (Value Decoder)
open Yaml.Decoder (RecordType setting text untyped listOf record optional)

/-- An instruction or a terminator. -/
structure Instr where
  /-- The operation. -/
  op : Text := ""
  /-- The destination. -/
  dst : Text := ""
  /-- The operands. -/
  args : List Value := []
  /-- The called function. -/
  func : Text := ""
  /-- The labels. -/
  labels : List Text := []

/-- A source of a phi. -/
structure PhiSource where
  /-- The block that control comes from. -/
  block : Text := ""
  /-- The value. -/
  value : Value := .null

/-- A phi. -/
structure Phi where
  /-- The destination. -/
  dst : Text := ""
  /-- The sources. -/
  sources : List PhiSource := []

/-- A block. -/
structure Block where
  /-- The label. -/
  label : Text := ""
  /-- The phis. -/
  phis : List Phi := []
  /-- The instructions. -/
  code : List Instr := []
  /-- The terminator. -/
  term : Option Instr := none

/-- A function. -/
structure Func where
  /-- The name. -/
  name : Text := ""
  /-- The parameters. -/
  args : List Text := []
  /-- The blocks. -/
  blocks : List Block := []

/-- A program. -/
structure Program where
  /-- The lines of the data section. -/
  data : List Text := []
  /-- The functions. -/
  funcs : List Func := []

/-- How an instruction is read. -/
def Instr.type : RecordType Instr where
  empty := {}
  fields := [
    ("op", setting text fun s i => { i with op := s }),
    ("dst", setting text fun s i => { i with dst := s }),
    ("args", setting (listOf untyped) fun l i => { i with args := l }),
    ("func", setting text fun s i => { i with func := s }),
    ("labels", setting (listOf text) fun l i => { i with labels := l })]

/-- How a source of a phi is read. -/
def PhiSource.type : RecordType PhiSource where
  empty := {}
  fields := [
    ("block", setting text fun s p => { p with block := s }),
    ("value", setting untyped fun v p => { p with value := v })]

/-- How a phi is read. -/
def Phi.type : RecordType Phi where
  empty := {}
  fields := [
    ("dst", setting text fun s p => { p with dst := s }),
    ("from", setting (listOf (record PhiSource.type)) fun l p => { p with sources := l })]

/-- How a block is read. -/
def Block.type : RecordType Block where
  empty := {}
  fields := [
    ("label", setting text fun s b => { b with label := s }),
    ("phis", setting (listOf (record Phi.type)) fun l b => { b with phis := l }),
    ("code", setting (listOf (record Instr.type)) fun l b => { b with code := l }),
    ("term", setting (optional Instr.type) fun t b => { b with term := t })]

/-- How a function is read. -/
def Func.type : RecordType Func where
  empty := {}
  fields := [
    ("name", setting text fun s f => { f with name := s }),
    ("args", setting (listOf text) fun l f => { f with args := l }),
    ("blocks", setting (listOf (record Block.type)) fun l f => { f with blocks := l })]

/-- How a program is read. -/
def Program.type : RecordType Program where
  empty := {}
  fields := [
    ("data", setting (listOf text) fun l p => { p with data := l }),
    ("funcs", setting (listOf (record Func.type)) fun l p => { p with funcs := l })]

/-- The program of a text, an empty one when it says nothing. -/
def programOfText (s : Text) : Except Cause Program := readText Program.type s

end CodeTiling.Document
