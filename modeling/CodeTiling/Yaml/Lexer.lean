import CodeTiling.Yaml.Lexeme.Block
import CodeTiling.Yaml.Lexeme.Plain
import CodeTiling.Yaml.Token

/-!
# Cutting a text into tokens

A `Lexer` cuts off tokens as they are asked for: `peek` is the next one and `advance` moves over it.
The tokens that have been cut off and not been moved over wait in a queue. Two things are not
visible where they stand in the text.

* Indentation: a block collection starts at a column, which is kept on a stack; a smaller column
  ends it.
* Keys: whether a scalar, an alias or a flow collection is a key shows only at the colon after it.
  Until then it is a *candidate*, one for each nesting of flow collections, and the token that
  announces the key is put in front of it afterwards. A key must be on one line and not too long.

Tokens are cut off ahead of the one that is asked for: three of them have to be in the queue, and
while the first one is a candidate also those up to the colon. An error in the text so far ahead
counts. Tokens are numbered from the start of the text; a candidate keeps the number of its token,
and `Lexer.heads` has the numbers of those that hold up the queue.
-/

namespace CodeTiling.Yaml

/-- A token that may turn out to start a key. -/
structure Candidate where
  /-- Whether it still may. -/
  possible : Bool := false
  /-- Whether it has to be a key, because it stands where entries of a map start. -/
  required : Bool := false
  /-- The number of its token. -/
  token : Nat := 0
  /-- Its place in the text. -/
  mark : Mark := {}
deriving DecidableEq, Repr

/-- The state of cutting a text into tokens. -/
structure Lexer where
  /-- The text still to come. -/
  cursor : Cursor
  /-- The tokens that wait. -/
  queue : List Token := []
  /-- The number of the first token in the queue. -/
  passed : Nat := 0
  /-- Whether the start of the text has been announced. -/
  started : Bool := false
  /-- The columns of the open block collections, the innermost first. -/
  indents : List Nat := []
  /-- The number of open flow collections. -/
  nesting : Nat := 0
  /-- The candidates, one for each open flow collection and one outside, the innermost first. -/
  candidates : List Candidate := [{}]
  /-- The numbers of tokens that hold up the queue, each with the nesting of its candidate. -/
  heads : List (Nat × Nat) := []
  /-- Whether a key may start here. -/
  keyAllowed : Bool := true

/-- Computations that cut off tokens and may fail. -/
abbrev LexM := StateT Lexer Option

namespace Lexer

/-! ### Limits -/

/-- The deepest nesting of collections. -/
def depthLimit : Nat := 10000

/-- How many characters a key may have. -/
def keyLimit : Nat := 1024

/-- How far ahead a comment is looked for. -/
def commentReach : Nat := 512

/-! ### Places and tokens -/

/-- Whether a flow collection is open. -/
def inFlow (s : Lexer) : Bool := 0 < s.nesting

/-- The column of the innermost block collection, `-1` outside. -/
def indent (s : Lexer) : Int := match s.indents with
  | i :: _ => i
  | [] => -1

/-- The current column. -/
def column (s : Lexer) : Nat := s.cursor.column

/-- The number that the next token at the end of the queue gets. -/
def nextNumber (s : Lexer) : Nat := s.passed + s.queue.length

/-- Move the cursor. -/
def scan {α : Type} (x : ScanM α) : LexM α := fun s =>
  (x.run s.cursor).map fun (a, c) => (a, { s with cursor := c })

/-- Fail unless a condition holds. -/
def ensure (b : Bool) : LexM Unit := if b then return () else failure

/-- Put a token at the end of the queue. -/
def emit (t : Token) : LexM Unit := modify fun s => { s with queue := s.queue ++ [t] }

/-- Put a token in front of the one with a number, or at the end when that one has left the
queue. -/
def emitBefore (n : Nat) (t : Token) : LexM Unit := modify fun s =>
  if s.passed ≤ n then { s with queue := s.queue.insertIdx (n - s.passed) t }
  else { s with queue := s.queue ++ [t] }

/-- Allow or forbid keys. -/
def allowKey (b : Bool) : LexM Unit := modify fun s => { s with keyAllowed := b }

/-- Close block collections that are indented further than a column. -/
def closeTo (column : Int) : LexM Unit := modify fun s =>
  if s.inFlow then s
  else
    let closed := s.indents.takeWhile fun (i : Nat) => column < i
    { s with
      queue := s.queue ++ closed.map fun _ => Token.blockEnd
      indents := s.indents.dropWhile fun (i : Nat) => column < i }

/-- Open a block collection at a column unless one is open there. Its token stands in front of the
one with number `n`. -/
def openAt (column n : Nat) (t : Token) : LexM Unit := do
  let s ← get
  unless s.inFlow || s.indent ≥ column do
    set { s with indents := column :: s.indents }
    ensure (s.indents.length < depthLimit)
    emitBefore n t

/-- Open a block collection at the current column. -/
def openHere (t : Token) : LexM Unit := do
  let s ← get
  openAt s.column s.nextNumber t

/-! ### Candidates -/

/-- The innermost candidate. -/
def candidate (s : Lexer) : Candidate := s.candidates.headD {}

/-- Change the candidate of a nesting. -/
def setCandidate (nesting : Nat) (k : Candidate) : LexM Unit := modify fun s =>
  { s with candidates := s.candidates.set (s.nesting - nesting) k }

/-- Let a token no longer hold up the queue. Tokens that have left the queue do not matter. -/
def release (n : Nat) : LexM Unit := modify fun s =>
  { s with heads := s.heads.filter fun h => h.1 ≠ n && s.passed ≤ h.1 }

/-- Whether a candidate is on the current line and not too far back. -/
def isNear (s : Lexer) (k : Candidate) : Bool :=
  s.cursor.mark.line ≤ k.mark.line && s.cursor.mark.index ≤ k.mark.index + keyLimit

/-- Whether the candidate of a nesting can still be a key. One that cannot is given up, which is an
error when it has to be a key. -/
def isValid (nesting : Nat) : LexM Bool := do
  let s ← get
  let k := s.candidates.getD (s.nesting - nesting) {}
  if !k.possible then return false
  else if s.isNear k then return true
  else
    ensure !k.required
    setCandidate nesting { k with possible := false }
    return false

/-- Give up the innermost candidate; one that has to be a key is an error. -/
def dropCandidate : LexM Unit := do
  let s ← get
  let k := s.candidate
  if k.possible then
    ensure !k.required
    setCandidate s.nesting { k with possible := false }
    release k.token

/-- Make what comes next a candidate, where keys are allowed. -/
def saveCandidate : LexM Unit := do
  let s ← get
  if s.keyAllowed then
    dropCandidate
    setCandidate s.nesting
      { possible := true
        required := !s.inFlow && s.indent = s.column
        token := s.nextNumber
        mark := s.cursor.mark }
    release s.nextNumber
    modify fun s' => { s' with heads := (s.nextNumber, s.nesting) :: s'.heads }

/-! ### Between tokens -/

/-- Move over a byte order mark at the start of a line. It is looked for where the last piece of
the text was taken up. -/
def skipByteOrderMark : ScanM Unit := do
  Scan.need 1
  let c ← get
  if c.column = 0 && c.front = some byteOrderMark then Scan.skip

/-- The offset of the next comment behind the end of a line, over blanks and line breaks. It is not
looked for behind a break of more than one octet. The characters up to it are ready. -/
def nextComment? (c : Cursor) : Nat → Nat → Option (Option Nat × Cursor)
  | 0, _ => some (none, c)
  | fuel + 1, offset => do
    let c ← c.need (offset + 1)
    match c.rest[offset - 1]?, c.rest[offset]? with
    | some before, some x =>
      if 1 < before.utf8Size then return (none, c)
      else if x = '#' then return (some offset, c)
      else if isSpace x then nextComment? c fuel (offset + 1)
      else return (none, c)
    | _, _ => return (none, c)

/-- Move on to a place that is so many characters ahead, over blanks and line breaks. -/
def skipTo (index : Nat) : Nat → ScanM Unit
  | 0 => return ()
  | fuel + 1 => do
    Scan.need 1
    let c ← get
    if c.mark.index < index then
      if atLineEnd c.rest then
        Scan.need 2
        let _ ← Scan.takeBreak?
      else Scan.skip
      skipTo index fuel

/-- Move over a comment, and over further comments that follow with only blanks and breaks before
them. -/
def skipComments : Nat → ScanM Unit
  | 0 => return ()
  | fuel + 1 => do
    Scan.skipLine
    let (offset?, c) ← fun c => (nextComment? c (commentReach - 1) 1).map fun r => (r, c)
    set c
    match offset? with
    | none => return ()
    | some offset =>
      skipTo (c.mark.index + offset) (offset + 1)
      skipComments fuel

/-- Move to the next token. -/
def skipToToken : Nat → LexM Unit
  | 0 => return ()
  | fuel + 1 => do
    scan skipByteOrderMark
    let tabs := (← get).inFlow || !(← get).keyAllowed
    scan (Scan.skipWhile fun x => x = ' ' || (tabs && x = '\t'))
    if (← get).cursor.startsWith '#' then scan (skipComments fuel)
    if (← get).cursor.head?.any isBreak then
      scan do
        Scan.need 2
        let _ ← Scan.takeBreak?
      unless (← get).inFlow do allowKey true
      skipToToken fuel

/-- The number of blanks before the comment at the cursor, if there is one. The characters up to it
are ready. -/
def commentHere? (c : Cursor) : Nat → Nat → Option (Option Nat × Cursor)
  | 0, _ => some (none, c)
  | fuel + 1, offset => do
    let c ← c.need (offset + 1)
    match c.rest[offset]? with
    | none => return (none, c)
    | some x =>
      if isBlank x then commentHere? c fuel (offset + 1)
      else return (if x = '#' then some offset else none, c)

/-- Move over a comment behind a token, on its line. -/
def skipLineComment : ScanM Unit := do
  if (← get).breaks = 0 then
    let (offset?, c) ← fun c => (commentHere? c commentReach 0).map fun r => (r, c)
    set c
    if offset?.isSome then Scan.skipLine

/-! ### One token -/

/-- A token of one character. -/
def punctuation (t : Token) : LexM Unit := do
  scan Scan.skip
  emit t

/-- The end of the text, which ends a line. -/
def streamEnd : LexM Unit := do
  modify fun s =>
    if s.column = 0 then s
    else { s with cursor := { s.cursor with
      mark := { s.cursor.mark with line := s.cursor.mark.line + 1, column := 0 } } }
  closeTo (-1)
  dropCandidate
  allowKey false
  emit .streamEnd

/-- A directive. -/
def directive : LexM Unit := do
  closeTo (-1)
  dropCandidate
  allowKey false
  emit (.directive (← scan Lexeme.directive))

/-- A document mark. -/
def documentMark (t : Token) : LexM Unit := do
  closeTo (-1)
  dropCandidate
  allowKey false
  scan do
    Scan.skip
    Scan.skip
    Scan.skip
  emit t

/-- An opening bracket or brace. The candidate inside has the number of the bracket until there is
one. -/
def flowStart (t : Token) : LexM Unit := do
  saveCandidate
  modify fun s => { s with
    nesting := s.nesting + 1
    candidates := { token := s.nextNumber, mark := s.cursor.mark } :: s.candidates }
  ensure ((← get).nesting ≤ depthLimit)
  allowKey true
  punctuation t

/-- A closing bracket or brace. -/
def flowEnd (t : Token) : LexM Unit := do
  dropCandidate
  let s ← get
  if s.inFlow then
    release s.candidate.token
    modify fun s => { s with nesting := s.nesting - 1, candidates := s.candidates.tail }
  allowKey false
  punctuation t

/-- A comma. -/
def flowEntry : LexM Unit := do
  dropCandidate
  allowKey true
  punctuation .flowEntry

/-- Open a block collection for an entry that is announced, which is allowed where a key is. -/
def announce (t : Token) : LexM Unit := do
  unless (← get).inFlow do
    ensure (← get).keyAllowed
    openHere t

/-- A hyphen that starts an entry. -/
def blockEntry : LexM Unit := do
  announce .blockListStart
  dropCandidate
  allowKey true
  punctuation .blockEntry

/-- A question mark that announces a key. -/
def explicitKey : LexM Unit := do
  announce .blockMapStart
  dropCandidate
  allowKey !(← get).inFlow
  punctuation .key

/-- A colon. When there is a candidate it is a key, and its tokens are put in front of it. -/
def colon : LexM Unit := do
  let s ← get
  if ← isValid s.nesting then
    let k := s.candidate
    emitBefore k.token .key
    openAt k.mark.column k.token .blockMapStart
    setCandidate s.nesting { k with possible := false }
    release k.token
    allowKey false
  else
    announce .blockMapStart
    allowKey !s.inFlow
  punctuation .value

/-- An anchor or an alias. -/
def anchor (make : String → Token) : LexM Unit := do
  saveCandidate
  allowKey false
  emit (make (← scan Lexeme.anchorName))

/-- A tag. -/
def tag : LexM Unit := do
  saveCandidate
  allowKey false
  emit (.tag (← scan Lexeme.tag))

/-- A block scalar. -/
def blockScalar (folds : Bool) : LexM Unit := do
  dropCandidate
  allowKey true
  let text ← scan (Lexeme.block folds (← get).indent)
  emit (.scalar .quoted (String.ofList text))

/-- A quoted scalar. -/
def quotedScalar (quote : Char) : LexM Unit := do
  saveCandidate
  allowKey false
  emit (.scalar .quoted (String.ofList (← scan (Lexeme.quoted quote))))

/-- A plain scalar. After one that ended on a later line a key may start. -/
def plainScalar : LexM Unit := do
  saveCandidate
  let s ← get
  let (text, below) ← scan (Lexeme.plain s.inFlow (s.indent + 1).toNat)
  allowKey below
  emit (.scalar .plain (String.ofList text))

/-- The characters that do not start a plain scalar. -/
def isIndicator (c : Char) : Bool :=
  "-?:,[]\x7b\x7d#&*!|>'\"%@\x60".toList.contains c

/-- Whether a plain scalar starts with a character, by what follows it. -/
def startsPlain (flow : Bool) (c : Char) (cs : List Char) : Bool :=
  !(isSpace c || isIndicator c) || (c = '-' && !cs.head?.any isBlank) ||
    (!flow && (c = '?' || c = ':') && !atSpace cs)

/-- The token of a node or of punctuation that starts with a character, by what follows it. -/
def nodeToken (flow : Bool) (c : Char) (cs : List Char) : LexM Unit :=
  if c = '[' then flowStart .flowListStart
  else if c = '\x7b' then flowStart .flowMapStart
  else if c = ']' then flowEnd .flowListEnd
  else if c = '\x7d' then flowEnd .flowMapEnd
  else if c = ',' then flowEntry
  else if c = '?' && (flow || atSpace cs) then explicitKey
  else if c = ':' && (flow || atSpace cs) then colon
  else if c = '*' then anchor .reference
  else if c = '&' then anchor .anchor
  else if c = '!' then tag
  else if c = '|' && !flow then blockScalar false
  else if c = '>' && !flow then blockScalar true
  else if c = '\'' || c = '"' then quotedScalar c
  else if startsPlain flow c cs then plainScalar
  else failure

/-- Cut off the next token. -/
def next : LexM Unit := do
  scan (Scan.need 1)
  if !(← get).started then
    modify fun s => { s with started := true }
    emit .streamStart
  else
    skipToToken ((← get).cursor.size + 1)
    closeTo (← get).column
    scan (Scan.need 4)
    let s ← get
    match s.cursor.rest with
    | [] => streamEnd
    | c :: cs =>
      if s.column = 0 && c = '%' then directive
      else if s.cursor.isDocumentMark then
        documentMark (if c = '-' then .documentStart else .documentEnd)
      else if c = '-' && atSpace cs then blockEntry
      else
        nodeToken s.inFlow c cs
        scan skipLineComment

/-! ### The queue -/

/-- Whether tokens have to be cut off before the first one in the queue can be used. -/
def isWaiting : LexM Bool := do
  let s ← get
  if s.queue.length < 3 then return true
  else
    match s.heads.lookup s.passed with
    | none => return false
    | some nesting => isValid nesting

/-- Cut off tokens until the first one can be used. -/
def fill : Nat → LexM Unit
  | 0 => failure
  | fuel + 1 => do
    if ← isWaiting then
      next
      fill fuel

/-- The next token. -/
def peek : LexM Token := do
  fill ((← get).cursor.size + 8)
  match (← get).queue with
  | t :: _ => return t
  | [] => failure

/-- Move over the next token. -/
def advance : LexM Unit := modify fun s => { s with queue := s.queue.tail, passed := s.passed + 1 }

end Lexer

end CodeTiling.Yaml
