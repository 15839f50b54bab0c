import CodeTiling.Text.Quoted

/-!
# Errors

An `Error` is a cause and the trail of places that led to it, the outermost first. The wording is
in one place: `Place.text` for where, `Cause.text` for what, and `Error.message` joins them.

A cause is fatal (`Cause.isFatal`) when work came to something that it takes for granted and that
does not hold: a missing instruction, pattern or operand, keys that cannot be compared, or a bound
on the rounds of a loop. Such a cause has no wording of its own.
-/

namespace CodeTiling

/-- The two registers of a memory operand. -/
inductive AddressPart where
  /-- The register that is added as it is. -/
  | base
  /-- The register that is scaled. -/
  | index
deriving DecidableEq, Repr

namespace AddressPart

/-- The word for a part. -/
def text : AddressPart → Text
  | base => "base"
  | index => "index"

end AddressPart

/-- What a name of a pattern stands for. -/
inductive BindKind where
  /-- A register. -/
  | register
  /-- A number. -/
  | literal
  /-- The label of a block. -/
  | label
  /-- The name of a function. -/
  | function
  /-- The arguments of a call. -/
  | arguments
deriving DecidableEq, Repr

namespace BindKind

/-- The words for a kind. -/
def text : BindKind → Text
  | register => "register"
  | literal => "literal"
  | label => "label"
  | function => "function"
  | arguments => "argument list"

/-- The kind with a number, counted from 1. -/
def ofCode? : Nat → Option BindKind
  | 1 => some register
  | 2 => some literal
  | 3 => some label
  | 4 => some function
  | 5 => some arguments
  | _ => none

/-- The words for the kind with a number. -/
def textOfCode (n : Nat) : Text := ((ofCode? n).map text).getD "unbound"

end BindKind

/-- Where an error was met. -/
inductive Place where
  /-- A rule of a rule set. -/
  | rule (index : Nat) (name : Text)
  /-- A rule applied at a position of a block. -/
  | appliedRule (name : Text) (pos : Nat)
  /-- The set of rules as a whole. -/
  | rules
  /-- The pattern of a rule. -/
  | pattern
  /-- An element of a pattern. -/
  | element (index : Nat)
  /-- A line of a template. -/
  | line (index : Nat)
  /-- An operand of a template line or an instruction. -/
  | operand (mnemonic : Text) (index : Nat)
  /-- A register of a memory operand. -/
  | addressPart (part : AddressPart)
  /-- A block by its label. -/
  | block (label : Text)
  /-- A function by its place in a program. -/
  | func (index : Nat)
  /-- A function by its name. -/
  | funcNamed (name : Text)
  /-- The successors of the blocks of a function. -/
  | successors
  /-- An entry of a document's list of patterns. -/
  | matchEntry (index : Nat)
  /-- The terminator pattern of a document. -/
  | last
  /-- An entry of a document's list of template lines. -/
  | asmEntry (index : Nat)
  /-- An entry of a document's list of phis. -/
  | phiEntry (index : Nat)
  /-- An entry of a document's code. -/
  | codeEntry (index : Nat)
  /-- The terminator of a document's block. -/
  | termEntry
  /-- An argument by its place. -/
  | arg (index : Nat)
  /-- A phi of a listing. -/
  | phi
  /-- An instruction of a listing. -/
  | instr
  /-- The terminator of a listing. -/
  | terminator
  /-- Reading the rules of a run. -/
  | loadRules
  /-- Reading the program of a run. -/
  | loadProgram
  /-- Reading a file. -/
  | readFile
  /-- Making the output file. -/
  | createOutput
  /-- Writing to the output file. -/
  | writeOutput
  /-- Loading a file of the command line. -/
  | load (file : Text)
  /-- Checking a file of the command line. -/
  | check (file : Text)
  /-- Compiling a file of the command line. -/
  | compile (file : Text)
  /-- Computing the live registers of a function. -/
  | liveness (name : Text)
  /-- Listing a file of the command line. -/
  | format (file : Text)
  /-- A command of the command line. -/
  | command (name : Text)
  /-- Reading a flag of the command line. -/
  | parseFlag
deriving DecidableEq, Repr

namespace Place

/-- The words for a place. -/
def text : Place → Text
  | rule i name => "rule " ++ Text.decimal i ++ " " ++ Text.quote name
  | appliedRule name pos => "rule " ++ Text.quote name ++ " at " ++ Text.decimal pos
  | rules => "rules"
  | pattern => "pattern"
  | element i => "element " ++ Text.decimal i
  | line i => "asm line " ++ Text.decimal i
  | operand m i => m ++ " arg " ++ Text.decimal i
  | addressPart p => p.text
  | block label => "block " ++ label
  | func i => "func " ++ Text.decimal i
  | funcNamed name => "func " ++ name
  | successors => "successors"
  | matchEntry i => "match " ++ Text.decimal i
  | last => "last"
  | asmEntry i => "asm " ++ Text.decimal i
  | phiEntry i => "phi " ++ Text.decimal i
  | codeEntry i => "code " ++ Text.decimal i
  | termEntry => "term"
  | arg i => "arg " ++ Text.decimal i
  | phi => "phi"
  | instr => "instr"
  | terminator => "terminator"
  | loadRules => "load rules"
  | loadProgram => "load program"
  | readFile => "read file"
  | createOutput => "create output"
  | writeOutput => "write"
  | load file => "load " ++ file
  | check file => "check " ++ file
  | compile file => "compile " ++ file
  | liveness name => "liveness " ++ name
  | format file => "format " ++ file
  | command name => name
  | parseFlag => "parse flag"

end Place

/-- What is wrong with a document of rules or of a program. Types and values of untyped operands
are given by their texts. -/
inductive SyntaxFault where
  /-- No operation has this text. -/
  | unknownOp (text : Text)
  /-- The operation takes another number of arguments. -/
  | wrongArity (op : Text) (expected got : Nat)
  /-- No terminator has this text. -/
  | unknownTerminator (text : Text)
  /-- The terminator takes other arguments and labels. -/
  | badOperands (op : Text)
  /-- A template line without a mnemonic. -/
  | emptyLine
  /-- A template line starts with something else than a text. -/
  | mnemonicExpected (type : Text)
  /-- A template operand of a type that stands for no operand. -/
  | unsupportedOperand (type : Text)
  /-- No operand size has this text. -/
  | badSize (text : Text)
  /-- A register of a memory operand is not a text. -/
  | registerExpected (part : AddressPart) (type : Text)
  /-- The scale of a memory operand is not one of the four. -/
  | badScale (text : Text)
  /-- The displacement of a memory operand is not a 32-bit number. -/
  | badDisp (text : Text)
  /-- A memory operand has no such field. -/
  | unknownField (name : Text)
  /-- A value of a type that stands for no IR value. -/
  | unsupportedValue (type : Text)
deriving DecidableEq, Repr

namespace SyntaxFault

/-- The words for a fault. -/
def text : SyntaxFault → Text
  | unknownOp s => "unknown op " ++ Text.quote s
  | wrongArity op expected got =>
    op ++ ": " ++ Text.decimal expected ++ " args expected, got " ++ Text.decimal got
  | unknownTerminator s => "unknown terminator " ++ Text.quote s
  | badOperands op => op ++ ": bad operands"
  | emptyLine => "empty line"
  | mnemonicExpected type => "mnemonic expected, got " ++ type
  | unsupportedOperand type => "unsupported operand " ++ type
  | badSize s => "bad size " ++ s
  | registerExpected part type => part.text ++ ": register expected, got " ++ type
  | badScale s => "bad scale " ++ s ++ ": 1, 2, 4 or 8 expected"
  | badDisp s => "bad disp " ++ s ++ ": 32-bit integer expected"
  | unknownField name => "unknown indirect field " ++ Text.quote name
  | unsupportedValue type => "unsupported value " ++ type

end SyntaxFault

/-- What is wrong with a memory operand. -/
inductive AddressFault where
  /-- A scale with nothing to scale. -/
  | scaleWithoutIndex
  /-- An index without a scale. -/
  | indexWithoutScale
  /-- A memory operand inside a memory operand, of a rule. -/
  | nestedPart (part : AddressPart)
  /-- A memory operand inside a memory operand, of a template instance. -/
  | nested
  /-- A part that cannot be a register. -/
  | partNotRegister (part : AddressPart)
  /-- An operand, given by its type, that is not a register. -/
  | typeNotRegister (type : Text)
deriving DecidableEq, Repr

namespace AddressFault

/-- The words for a fault. -/
def text : AddressFault → Text
  | scaleWithoutIndex => "scale without index"
  | indexWithoutScale => "index without scale"
  | nestedPart part => "nested indirect " ++ part.text
  | nested => "nested indirect"
  | partNotRegister part => part.text ++ " is not a register"
  | typeNotRegister type => type ++ " is not a register"

end AddressFault

/-- Why something failed. -/
inductive Cause where
  /-- A part that should be there is missing. -/
  | absent
  /-- Keys of maps that cannot be compared. -/
  | incomparable
  /-- A loop that was stopped before its end. -/
  | unfinished
  /-- A document that does not say what it should. -/
  | badSyntax (fault : SyntaxFault)
  /-- A text that is not a document of the expected shape. -/
  | badDocument
  /-- A rule without a pattern. -/
  | emptyPattern
  /-- A pattern of two operands with an operation that has not two. -/
  | notBinary (op : Text)
  /-- A pattern of one operand with an operation that has not one. -/
  | notUnary (op : Text)
  /-- A pattern that is missing. -/
  | missingPattern
  /-- A name that stands twice in one element of a pattern. -/
  | rebound (name : Text)
  /-- A name that stands for two kinds of things. -/
  | conflict (name : Text) (first second : BindKind)
  /-- A text that is no mnemonic. -/
  | unknownMnemonic (text : Text)
  /-- An argument list beside other operands. -/
  | listNotAlone (name : Text)
  /-- An argument list as a register of a memory operand. -/
  | listInAddress
  /-- A number that is no machine register. -/
  | badMachineReg (code : UInt8)
  /-- A new register with the name of something in the pattern. -/
  | shadowed (name : Text)
  /-- A name that stands for nothing. -/
  | unbound (name : Text)
  /-- A label that stands for nothing. -/
  | unboundLabel (name : Text)
  /-- A memory operand that makes no sense. -/
  | badAddress (fault : AddressFault)
  /-- A template operand that is missing. -/
  | missingOperand
  /-- A template operand that cannot be expanded, by its type. -/
  | malformed (type : Text)
  /-- No rule applies at a position, where this operation stands. -/
  | noRuleAt (pos : Nat) (op : Text)
  /-- No rule applies to the terminator, given by its type. -/
  | noRuleForTerminator (type : Text)
  /-- A block has a successor that is no block; both by their numbers. -/
  | noSuccessor (block successor : Nat)
  /-- The source of a phi is no block. -/
  | noPhiSource (block : Nat)
  /-- Two functions of one name. -/
  | duplicateFunc (name : Text)
  /-- An instruction that cannot be listed, by its type. -/
  | unsupportedInstr (type : Text)
  /-- A value that cannot be listed, by its type. -/
  | unlistableValue (type : Text)
  /-- There is no file at a path. -/
  | noSuchFile (path : Text)
  /-- There is a directory at a path; the operation is named. -/
  | isDirectory (action path : Text)
  /-- A path leads through a file as if it were a directory. -/
  | notDirectory (path : Text)
  /-- A path, or a step of it, is longer than names may be. -/
  | nameTooLong (path : Text)
  /-- There is no device behind a path. -/
  | noDevice (path : Text)
  /-- What is written at a path finds no room. -/
  | noSpace (path : Text)
  /-- A command that needs rules has got none. -/
  | rulesRequired
  /-- A flag that the command does not have. -/
  | noSuchFlag (flag : Text)
  /-- A flag that needs a value and has got none. -/
  | flagValueRequired (flag : Text)
  /-- A flag with a value that is not a number. -/
  | badNumber (flag text reason : Text)
  /-- A word where none is expected. -/
  | unexpectedArgument (text : Text)
deriving DecidableEq, Repr

/-- The kinds of causes that can be told apart whatever their wording. -/
inductive Kind where
  /-- Something that is taken for granted does not hold. -/
  | fatal
  /-- A loop was stopped before its end. -/
  | unfinished
  /-- A document does not say what it should. -/
  | badSyntax
  /-- A text is no document. -/
  | badDocument
  /-- A rule has no pattern. -/
  | emptyRule
  /-- An operation does not fit its pattern. -/
  | opMismatch
  /-- A name stands twice in one element. -/
  | rebound
  /-- A name stands for two kinds of things. -/
  | conflict
  /-- There is no such mnemonic. -/
  | unknownMnemonic
  /-- An argument list stands where it may not. -/
  | misplacedList
  /-- There is no such machine register. -/
  | badMachineReg
  /-- A new register has the name of something in the pattern. -/
  | shadowed
  /-- A name stands for nothing. -/
  | unbound
  /-- A memory operand makes no sense. -/
  | badAddress
  /-- An operand of a rule is missing. -/
  | missingOperand
  /-- A template cannot be expanded. -/
  | malformed
  /-- No rule matches. -/
  | noRule
  /-- There is no such block. -/
  | noBlock
  /-- Two functions have one name. -/
  | duplicateFunc
  /-- There is no such file. -/
  | noFile
  /-- Anything else. -/
  | other
deriving DecidableEq, Repr

namespace Cause

/-- A text and what it is said of; a missing text is left out. -/
def about (what sentence : Text) : Text :=
  if what = "" then sentence else what ++ ": " ++ sentence

/-- Whether something that is taken for granted did not hold. -/
def isFatal : Cause → Bool
  | absent | incomparable | unfinished => true
  | _ => false

/-- The kind of a cause. -/
def kind : Cause → Kind
  | absent | incomparable => .fatal
  | unfinished => .unfinished
  | badSyntax _ => .badSyntax
  | badDocument => .badDocument
  | emptyPattern => .emptyRule
  | notBinary _ | notUnary _ => .opMismatch
  | rebound _ => .rebound
  | conflict .. => .conflict
  | unknownMnemonic _ => .unknownMnemonic
  | listNotAlone _ | listInAddress => .misplacedList
  | badMachineReg _ => .badMachineReg
  | shadowed _ => .shadowed
  | unbound _ | unboundLabel _ => .unbound
  | badAddress _ => .badAddress
  | missingOperand => .missingOperand
  | malformed _ => .malformed
  | noRuleAt .. | noRuleForTerminator _ => .noRule
  | noSuccessor .. | noPhiSource _ => .noBlock
  | duplicateFunc _ => .duplicateFunc
  | noSuchFile _ => .noFile
  | _ => .other

/-- The words for a cause; there are none for a fatal one. -/
def text : Cause → Text
  | absent => ""
  | incomparable => ""
  | unfinished => ""
  | badSyntax fault => fault.text ++ ": bad rule syntax"
  | badDocument => "decode yaml"
  | emptyPattern => "empty pattern"
  | notBinary op => "binary " ++ op ++ ": op does not fit pattern"
  | notUnary op => "unary " ++ op ++ ": op does not fit pattern"
  | missingPattern => "unsupported pattern: <nil>"
  | rebound name => Text.quote name ++ ": name bound twice"
  | conflict name first second =>
    Text.quote name ++ ": " ++ first.text ++ " and " ++ second.text ++
      ": name bound with conflicting kinds"
  | unknownMnemonic s => Text.quote s ++ ": unknown mnemonic"
  | listNotAlone name =>
    Text.quote name ++ " must be the only operand: argument list used as operand"
  | listInAddress => "argument list used as operand"
  | badMachineReg code => Text.decimal code.toNat ++ ": bad machine register"
  | shadowed name => Text.quote name ++ ": new register shadows pattern name"
  | unbound name => Text.quote name ++ ": unbound name"
  | unboundLabel name => "label " ++ Text.quote name ++ ": unbound name"
  | badAddress fault => fault.text ++ ": malformed indirect"
  | missingOperand => "nil argument"
  | malformed type => "unsupported asm arg: " ++ type ++ ": malformed template"
  | noRuleAt pos op => "at " ++ Text.decimal pos ++ ": " ++ op ++ ": no rule matches"
  | noRuleForTerminator type => "terminator " ++ type ++ ": no rule matches"
  | noSuccessor block successor =>
    "block " ++ Text.decimal block ++ ": successor " ++ Text.decimal successor ++ ": no such block"
  | noPhiSource block => "phi source block " ++ Text.decimal block ++ ": no such block"
  | duplicateFunc name => about name "duplicate function"
  | unsupportedInstr type => "unsupported instr: " ++ type
  | unlistableValue type => "unsupported value: " ++ type
  | noSuchFile path => "open " ++ path ++ ": no such file or directory"
  | isDirectory action path => action ++ " " ++ path ++ ": is a directory"
  | notDirectory path => "open " ++ path ++ ": not a directory"
  | nameTooLong path => "open " ++ path ++ ": file name too long"
  | noDevice path => "open " ++ path ++ ": no such device or address"
  | noSpace path => "write " ++ path ++ ": no space left on device"
  | rulesRequired => "--rules required"
  | noSuchFlag flag => flag ++ ": no such flag"
  | flagValueRequired flag => flag ++ ": flag value is required"
  | badNumber flag s reason =>
    flag ++ ": strconv.ParseInt: parsing " ++ Text.quote s ++ ": " ++ reason
  | unexpectedArgument s => "no args expected, got " ++ s

end Cause

/-- A cause and where it was met. -/
structure Error where
  /-- The places, the outermost first. -/
  trail : List Place := []
  /-- What went wrong. -/
  cause : Cause
deriving DecidableEq, Repr

namespace Error

/-- The error met at one more place, outside the others. -/
def within (e : Error) (p : Place) : Error := { e with trail := p :: e.trail }

/-- The full wording, the outermost place first. -/
def message (e : Error) : Text :=
  e.trail.foldr (fun p rest => Cause.about p.text rest) e.cause.text

end Error

/-- A cause as an error with an empty trail. -/
instance : Coe Cause Error := ⟨fun c => { cause := c }⟩

/-- Add a place to the errors of a computation. -/
def Except.within {α : Type} (p : Place) : Except Error α → Except Error α :=
  Except.mapError (Error.within · p)

end CodeTiling
