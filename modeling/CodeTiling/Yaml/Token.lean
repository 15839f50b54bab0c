import CodeTiling.Yaml.Lexeme.Tag

/-!
# Tokens

The tokens that a text is cut into. Some of them do not stand in the text where they stand among the
tokens: the start and the end of an indented collection show in the columns, and a key shows at the
colon after it.
-/

namespace CodeTiling.Yaml

/-- How a scalar is written. -/
inductive Style where
  /-- Without quotes. -/
  | plain
  /-- In quotes or as a block. -/
  | quoted
deriving DecidableEq, Repr

/-- A token. -/
inductive Token where
  /-- The start of the text. -/
  | streamStart
  /-- The end of the text. -/
  | streamEnd
  /-- A directive. -/
  | directive (d : Lexeme.Directive)
  /-- The mark `---`. -/
  | documentStart
  /-- The mark `...`. -/
  | documentEnd
  /-- A list of indented entries starts. -/
  | blockListStart
  /-- A map of indented entries starts. -/
  | blockMapStart
  /-- A collection of indented entries ends. -/
  | blockEnd
  /-- A bracket opens. -/
  | flowListStart
  /-- A bracket closes. -/
  | flowListEnd
  /-- A brace opens. -/
  | flowMapStart
  /-- A brace closes. -/
  | flowMapEnd
  /-- An entry of an indented list. -/
  | blockEntry
  /-- A comma. -/
  | flowEntry
  /-- A key comes next. -/
  | key
  /-- A value comes next. -/
  | value
  /-- A reference to an anchor. -/
  | reference (name : String)
  /-- A name for the node that comes next. -/
  | anchor (name : String)
  /-- A tag for the node that comes next. -/
  | tag (t : Lexeme.TagText)
  /-- A scalar. -/
  | scalar (style : Style) (text : String)
deriving DecidableEq, Repr

end CodeTiling.Yaml
