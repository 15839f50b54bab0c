import CodeTiling.Error
import CodeTiling.Yaml.Node.Decode
import CodeTiling.Yaml.Node.Reader

/-!
# Documents as texts

`readText` reads the first document of a text as a record. It fails with a cause: the text is no
document of the expected shape, or keys of merged maps had to be compared that cannot be.
-/

namespace CodeTiling.Document

/-- The cause of a halt. -/
def causeOf : Yaml.Halt → Cause
  | .refused => .badDocument
  | .incomparable => .incomparable

/-- Read the first document of a text as a record. Nothing is set when there is none. -/
def readText {α : Type} (r : Yaml.Decoder.RecordType α) (s : Text) : Except Cause α :=
  match Yaml.Document.ofText? s with
  | none => .error .badDocument
  | some none => .ok r.empty
  | some (some document) => (Yaml.Decoder.read r document).mapError causeOf

end CodeTiling.Document
