import CodeTiling.Error

/-!
# The command line

A command line is a command with flags and files. A flag and its value are one word, divided by an
equals sign or a space, or two words. Flags may stand before, between and after the files; after
`--` every word is a file. The last value of a flag counts. Errors name a flag by its whole word.

This is the outer layer of the program. What a command does depends on the command and its
`Settings` and no more on the words that gave them.
-/

namespace CodeTiling.Command

/-- The commands. -/
inductive Verb where
  /-- Check files of rules. -/
  | check
  /-- Compile programs to assembly. -/
  | select
  /-- Report the live registers of programs. -/
  | live
  /-- List programs. -/
  | print
deriving DecidableEq, Repr

/-- The flags. -/
inductive Flag where
  /-- The file of rules. -/
  | rules
  /-- How many functions are compiled at a time. -/
  | workers
  /-- The output file. -/
  | out
  /-- What is logged. -/
  | verbosity
  /-- Ask for help. -/
  | help
deriving DecidableEq, Repr

namespace Verb

/-- The word for a command. -/
def text : Verb → Text
  | check => "check"
  | select => "select"
  | live => "live"
  | print => "print"

/-- The command with a word. -/
def ofText? (s : Text) : Option Verb := [check, select, live, print].find? fun v => v.text = s

/-- The flags of a command of its own. -/
def flags : Verb → List Flag
  | check => []
  | select => [.rules, .workers, .out]
  | live => [.rules, .out]
  | print => []

end Verb

namespace Flag

/-- The flags of every command. -/
def common : List Flag := [.verbosity, .help]

/-- The names of a flag. -/
def names : Flag → List String
  | rules => ["rules"]
  | workers => ["workers"]
  | out => ["out", "o"]
  | verbosity => ["verbosity", "v"]
  | help => ["help", "h"]

/-- The flag with a name, among those given. -/
def ofName? (flags : List Flag) (name : String) : Option Flag :=
  flags.find? fun f => f.names.contains name

end Flag

/-- What a command line sets. -/
structure Settings where
  /-- The file of rules. -/
  rules : String := ""
  /-- How many functions are compiled at a time. -/
  workers : Int := 1
  /-- The output file. -/
  out : String := ""
  /-- The files, in order. -/
  files : List String := []
deriving DecidableEq, Repr

/-- A command with its settings. -/
structure Line where
  /-- The command. -/
  verb : Verb
  /-- What is set. -/
  settings : Settings
deriving DecidableEq, Repr

/-! ### Flags -/

/-- Whether a word is a flag. -/
def isFlag (s : String) : Bool :=
  match s.toList with
  | '-' :: _ :: _ => true
  | _ => false

/-- Whether a character divides a flag from its value. -/
def isDivider (c : Char) : Bool := c = '=' || c = ' '

/-- A flag up to the first divider, and the value after it. -/
def splitFlag (s : String) : String × Option String :=
  let key := s.toList.takeWhile fun c => !isDivider c
  match s.toList.dropWhile fun c => !isDivider c with
  | _ :: value => (String.ofList key, some (String.ofList value))
  | [] => (s, none)

/-- The name of a flag without its one or two hyphens. -/
def flagName (key : String) : String :=
  match key.toList with
  | '-' :: '-' :: name => String.ofList name
  | '-' :: name => String.ofList name
  | name => String.ofList name

/-- Why a text is not a number. -/
inductive NumberFault where
  /-- It has a character that is no digit, or no digits. -/
  | malformed
  /-- The number does not fit. -/
  | tooLarge
deriving DecidableEq, Repr

namespace NumberFault

/-- The words for a fault. -/
def text : NumberFault → Text
  | malformed => "invalid syntax"
  | tooLarge => "value out of range"

end NumberFault

/-- The number that digits write after a number that has been read, below a bound. Reading stops at
the first fault. -/
def digitsBelow (bound n : Nat) : List Char → Except NumberFault Nat
  | [] => .ok n
  | c :: cs =>
    if !c.isDigit then .error .malformed
    else
      let next := 10 * n + (c.toNat - '0'.toNat)
      if next < bound then digitsBelow bound next cs else .error .tooLarge

/-- The number of 64 bits with a sign that a text is. The digits are read as a number of 64 bits
without one first. -/
def numberOf (s : String) : Except NumberFault Int :=
  let (negative, digits) := match s.toList with
    | '-' :: cs => (true, cs)
    | '+' :: cs => (false, cs)
    | cs => (false, cs)
  if digits = [] then .error .malformed
  else do
    let n ← digitsBelow 0x10000000000000000 0 digits
    if n < 0x8000000000000000 + negative.toNat then return if negative then -n else n
    else .error .tooLarge

/-- Give a flag a value; the word that it was written in is for errors. -/
def setFlag (f : Flag) (word value : String) (s : Settings) : Except Error Settings :=
  match f with
  | .rules => .ok { s with rules := value }
  | .out => .ok { s with out := value }
  | .workers =>
    match numberOf value with
    | .error fault => .error (Cause.badNumber word value fault.text)
    | .ok n => .ok { s with workers := n }
  | .verbosity | .help => .ok s

/-- A flag that waits for its value, with the word that it was written in. -/
abbrev Waiting := Option (Flag × String)

/-- Read a flag: the settings after it, and the flag when its value is the next word. -/
def takeFlag (flags : List Flag) (word : String) (s : Settings) :
    Except Error (Settings × Waiting) :=
  let (key, value?) := splitFlag word
  match Flag.ofName? flags (flagName key), value? with
  | none, _ => .error (Cause.noSuchFlag word)
  | some .help, _ => .ok (s, none)
  | some f, some value => (setFlag f word value s).map (·, none)
  | some f, none => .ok (s, some (f, word))

/-- Read the words after a command, the first one as the value of a flag that waits for it. -/
def settingsOf (flags : List Flag) : Waiting → Settings → List String → Except Error Settings
  | some (_, flag), _, [] => Except.within .parseFlag (.error (Cause.flagValueRequired flag))
  | none, s, [] => .ok s
  | some (f, flag), s, word :: rest => do
    settingsOf flags none (← Except.within .parseFlag (setFlag f flag word s)) rest
  | none, s, word :: rest =>
    if word = "--" then .ok { s with files := s.files ++ rest }
    else if isFlag word then do
      let (s', waiting) ← Except.within .parseFlag (takeFlag flags word s)
      settingsOf flags waiting s' rest
    else settingsOf flags none { s with files := s.files ++ [word] } rest

/-- Read a command line, the first word as the value of a flag that waits for it. It may hold no
command. -/
def lineFrom : Waiting → List String → Except Error (Option Line)
  | some (_, flag), [] => Except.within .parseFlag (.error (Cause.flagValueRequired flag))
  | none, [] => .ok none
  | some (f, flag), word :: rest => do
    let _ ← Except.within .parseFlag (setFlag f flag word {})
    lineFrom none rest
  | none, word :: rest =>
    if isFlag word && word ≠ "--" then do
      let (_, waiting) ← Except.within .parseFlag (takeFlag Flag.common word {})
      lineFrom waiting rest
    else
      match Verb.ofText? word with
      | none => .error (Cause.unexpectedArgument word)
      | some verb => do
        let settings ← Except.within (.command verb.text)
          (settingsOf (verb.flags ++ Flag.common) none {} rest)
        return some { verb, settings }

/-- Read a command line. -/
def lineOf (args : List String) : Except Error (Option Line) := lineFrom none args

end CodeTiling.Command
