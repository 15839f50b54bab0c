import CodeTiling.Yaml.Lexer
import CodeTiling.Yaml.Node

/-!
# Reading a document

`Document.ofText?` reads the first document of a text by recursive descent over its tokens. What
comes after it is not looked at, up to the tokens that are cut off ahead.
-/

namespace CodeTiling.Yaml

/-- What is known while the tokens of a document are read. -/
structure Reader where
  /-- The tokens still to come. -/
  lexer : Lexer
  /-- The numbers of the anchors by name, the latest first. -/
  anchors : List (String × Nat) := []
  /-- How many references there are. -/
  references : Nat := 0
  /-- The nodes with a name that have been read to their end. -/
  anchored : List (Nat × Node) := []
  /-- The meanings of tag handles. -/
  handles : List (String × String) := [("!", "!"), ("!!", longTagStart)]

/-- Reading tokens, which fails where they make no document. -/
abbrev ReadM := StateT Reader Option

namespace Reader

/-! ### Tokens -/

/-- Cut off tokens. -/
def lex {α : Type} (x : LexM α) : ReadM α := fun r =>
  (x.run r.lexer).map fun (a, l) => (a, { r with lexer := l })

/-- The next token. -/
def peek : ReadM Token := lex Lexer.peek

/-- Move over a token. -/
def advance : ReadM Unit := lex Lexer.advance

/-- Whether the next token is one of those given. -/
def peekIn (l : List Token) : ReadM Bool := return l.contains (← peek)

/-! ### Anchors and tags -/

/-- The node of an alias. -/
def lookUp (name : String) : ReadM Node := do
  let r ← get
  match r.anchors.lookup name with
  | some n =>
    set { r with references := r.references + 1 }
    return .reference r.references name n
  | none => failure

/-- Read a node and give it a name, which stands for the node inside it already. -/
def named (anchor : Option String) (read : ReadM Node) : ReadM Node := do
  match anchor with
  | none => read
  | some name =>
    let number := (← get).anchors.length
    modify fun r => { r with anchors := (name, number) :: r.anchors }
    let n ← read
    modify fun r => { r with anchored := (number, n) :: r.anchored }
    return n

/-- The meaning of a tag. -/
def tagOf (t : Lexeme.TagText) : ReadM String := do
  if t.handle = "" then return t.text
  match (← get).handles.lookup t.handle with
  | some start => return start ++ t.text
  | none => failure

/-- The anchor at the front, if there is one. -/
def takeAnchor : ReadM (Option String) := do
  match ← peek with
  | .anchor name => advance; return some name
  | _ => return none

/-- The tag at the front, if there is one. -/
def takeTag : ReadM (Option Lexeme.TagText) := do
  match ← peek with
  | .tag t => advance; return some t
  | _ => return none

/-- The anchor and the tag at the front, in either order. -/
def takeProperties : ReadM (Option String × Option Lexeme.TagText) := do
  match ← takeAnchor with
  | some a => return (some a, ← takeTag)
  | none =>
    let tag ← takeTag
    if tag.isSome then return (← takeAnchor, tag) else return (none, none)

/-- The tag of a node, by the tag that is written and the one by default. The tag `!` asks for
nothing. -/
def tagOr (written : Option String) (default : String) : String :=
  match written with
  | none => default
  | some t => if t = "!" then default else shortTag t

/-- The tag of a scalar that has none. -/
def defaultTag (style : Style) (text : String) : String :=
  if style = .quoted then ScalarKind.string.tag else Scalar.plainTag text

/-! ### Nodes -/

mutual

/-- A node. `block` allows indented collections, `indentless` also a list at the column of the map
around it. -/
def node (block indentless : Bool) : Nat → ReadM Node
  | 0 => failure
  | fuel + 1 => do
    match ← peek with
    | .reference name => advance; lookUp name
    | _ =>
      let (anchor, tag) ← takeProperties
      let _ ← peek
      let tag ← tag.mapM tagOf
      named anchor (content block indentless (anchor.isSome || tag.isSome) tag fuel)

/-- A node after its anchor and tag. One that has them need not be written. -/
def content (block indentless marked : Bool) (tag : Option String) : Nat → ReadM Node
  | 0 => failure
  | fuel + 1 => do
    let t ← peek
    let listTag := tagOr tag "!!seq"
    let mapTag := tagOr tag "!!map"
    if t = .blockEntry && indentless then return .list listTag (← indentlessItems fuel)
    else if t = .flowListStart then advance; return .list listTag (← flowItems true fuel)
    else if t = .flowMapStart then advance; return .map mapTag (← flowEntries true fuel)
    else if t = .blockListStart && block then advance; return .list listTag (← blockItems fuel)
    else if t = .blockMapStart && block then advance; return .map mapTag (← blockEntries fuel)
    else
      match t with
      | .scalar style text => advance; return .scalar (tagOr tag (defaultTag style text)) text
      | _ => if marked then return .scalar (tagOr tag (defaultTag .plain "")) "" else failure

/-- A node unless one of the tokens given follows. -/
def nodeUnless (ends : List Token) (block : Bool) : Nat → ReadM Node
  | 0 => failure
  | fuel + 1 => do if ← peekIn ends then return .empty else node block block fuel

/-- The entries of an indented list. -/
def blockItems : Nat → ReadM (List Node)
  | 0 => failure
  | fuel + 1 => do
    match ← peek with
    | .blockEntry =>
      advance
      let n ← if ← peekIn [.blockEntry, .blockEnd] then pure .empty else node true false fuel
      return n :: (← blockItems fuel)
    | .blockEnd => advance; return []
    | _ => failure

/-- The entries of a list at the column of the map around it. -/
def indentlessItems : Nat → ReadM (List Node)
  | 0 => failure
  | fuel + 1 => do
    match ← peek with
    | .blockEntry =>
      advance
      let n ← if ← peekIn [.blockEntry, .key, .value, .blockEnd] then pure .empty
        else node true false fuel
      return n :: (← indentlessItems fuel)
    | _ => return []

/-- The entries of an indented map. -/
def blockEntries : Nat → ReadM (List (Node × Node))
  | 0 => failure
  | fuel + 1 => do
    match ← peek with
    | .key =>
      advance
      let k ← nodeUnless [.key, .value, .blockEnd] true fuel
      let v ← valueUnless [.key, .value, .blockEnd] true fuel
      return (k, v) :: (← blockEntries fuel)
    | .blockEnd => advance; return []
    | _ => failure

/-- The value of an entry, if there is one. -/
def valueUnless (ends : List Token) (block : Bool) : Nat → ReadM Node
  | 0 => failure
  | fuel + 1 => do
    if ← peekIn [.value] then
      advance
      nodeUnless ends block fuel
    else return .empty

/-- The entries of a list in brackets. -/
def flowItems (first : Bool) : Nat → ReadM (List Node)
  | 0 => failure
  | fuel + 1 => do
    unless first do
      if ← peekIn [.flowEntry] then advance
      else unless ← peekIn [.flowListEnd] do failure
    match ← peek with
    | .flowListEnd => advance; return []
    | .key =>
      advance
      let p ← flowPair fuel
      return .map "!!map" [p] :: (← flowItems false fuel)
    | _ =>
      let n ← node false false fuel
      return n :: (← flowItems false fuel)

/-- A key with its value as an entry of a list in brackets. When the key is missing, the token in
its place is dropped. -/
def flowPair : Nat → ReadM (Node × Node)
  | 0 => failure
  | fuel + 1 => do
    let k ← if ← peekIn [.value, .flowEntry, .flowListEnd] then do advance; pure .empty
      else node false false fuel
    return (k, ← valueUnless [.flowEntry, .flowListEnd] false fuel)

/-- The entries of a map in braces. -/
def flowEntries (first : Bool) : Nat → ReadM (List (Node × Node))
  | 0 => failure
  | fuel + 1 => do
    unless first do
      if ← peekIn [.flowEntry] then advance
      else unless ← peekIn [.flowMapEnd] do failure
    match ← peek with
    | .flowMapEnd => advance; return []
    | .key =>
      advance
      let k ← nodeUnless [.value, .flowEntry, .flowMapEnd] false fuel
      let v ← valueUnless [.flowEntry, .flowMapEnd] false fuel
      return (k, v) :: (← flowEntries false fuel)
    | _ =>
      let k ← node false false fuel
      return (k, .empty) :: (← flowEntries false fuel)

end

/-! ### Documents -/

/-- The number that digits write is one. -/
def isOne (ds : List Char) : Bool := natOfDigits ds = 1

/-- The directives before a document. The version must be 1.1; nothing is said twice. -/
def directives (versioned : Bool) (named : List (String × String)) : Nat → ReadM Unit
  | 0 => failure
  | fuel + 1 => do
    match ← peek with
    | .directive (.version major minor) =>
      advance
      if versioned || !isOne major || !isOne minor then failure
      else directives true named fuel
    | .directive (.handle name start) =>
      advance
      if (named.lookup name).isSome then failure
      else directives versioned ((name, start) :: named) fuel
    | _ => modify fun r => { r with handles := named ++ r.handles }

/-- Whether a token ends a document or comes before one. -/
def isBetween : Token → Bool
  | .directive _ | .documentStart | .documentEnd | .streamEnd => true
  | _ => false

/-- The first document, if there is one. The token after it has to be readable. -/
def document (fuel : Nat) : ReadM (Option Node) := do
  let _ ← peek
  advance
  match ← peek with
  | .streamEnd => return none
  | .directive _ | .documentStart =>
    directives false [] fuel
    unless ← peekIn [.documentStart] do failure
    advance
    let n ← if isBetween (← peek) then pure .empty else node true false fuel
    let _ ← peek
    return some n
  | _ =>
    let n ← node true false fuel
    let _ ← peek
    return some n

end Reader

/-- The first document of a text: `none` when the text makes none, `some none` when it is over
before one starts. -/
def Document.ofText? (text : Text) : Option (Option Document) := do
  let cursor := Cursor.ofText text
  let (root?, r) ← (Reader.document (40 * (cursor.size + 4))).run { lexer := { cursor } }
  return root?.map fun root => { root, anchored := r.anchored }

end CodeTiling.Yaml
