import CodeTiling.Yaml.Node

/-!
# What nodes say

A node is read as something of a known type: a text, a list, a record, or a value without a
prescribed type. A `Decoder` is a way to read a node, and `Decoder.read` reads a whole document.

A node of another kind is a *mismatch*: its place stays unset, and reading goes on, but in the end
the document is refused. Some troubles stop the reading at once (`Halt`). A node that stands for
nothing leaves its place unset or empty, which is no trouble.

In a map no key is written twice. The key `<<` merges the entries of other maps: the entries that
are written come first, then those of the merged maps in their order, and what is there already
stays. To know what is there, the keys met so far are kept while maps are merged.

A reference is read as the node that it leads to, once more each time. Following a reference while
it is being followed already stops the reading, and so does a document that consists nearly only
of what references repeat.
-/

namespace CodeTiling.Yaml

/-- What stops the reading of a document. -/
inductive Halt where
  /-- The document is refused. -/
  | refused
  /-- A list or a map is to be compared with the keys of merged maps, which cannot be done. -/
  | incomparable
deriving DecidableEq, Repr

/-- What is known while a document is read. -/
structure Progress where
  /-- The document. -/
  document : Document
  /-- How many nodes have been read. -/
  visits : Nat := 0
  /-- How many of them have been read because of a reference. -/
  repeats : Nat := 0
  /-- The references that are being followed. -/
  followed : List Nat := []
  /-- While maps are merged, the keys met so far. -/
  merged : Option (List Value) := none
  /-- Whether there was a mismatch. -/
  mismatched : Bool := false

/-- Reading a document. -/
abbrev DecodeM := StateT Progress (Except Halt)

namespace DecodeM

/-- Refuse the document. -/
def refuse {α : Type} : DecodeM α := throw .refused

/-- Note a mismatch. -/
def noteMismatch : DecodeM Unit := modify fun p => { p with mismatched := true }

/-- Note a mismatch and leave the place unset. -/
def mismatch {α : Type} : DecodeM (Option α) := do
  noteMismatch
  return none

/-! ### Visiting nodes -/

/-- Whether too much of what has been read is there because of references. Small documents may
consist of that to 99 parts of a hundred and large ones to ten parts. -/
def tooManyRepeats (visits repeats : Nat) : Bool :=
  100 < repeats && 1000 < visits &&
    if visits ≤ 400000 then 99 * visits < 100 * repeats
    else if 4000000 ≤ visits then visits < 10 * repeats
    else visits * (392000000 - 89 * visits) < 360000000 * repeats

/-- Count a node. -/
def count : DecodeM Unit := do
  modify fun p => { p with
    visits := p.visits + 1
    repeats := if p.followed.isEmpty then p.repeats else p.repeats + 1 }
  let p ← get
  if tooManyRepeats p.visits p.repeats then refuse

/-- Read a node, or the one that a reference leads to. -/
def visit {α : Type} (n : Node) (read : Node → DecodeM α) : DecodeM α := do
  count
  match n with
  | .reference id _ target =>
    let p ← get
    match p.document.target? target with
    | none => refuse
    | some n =>
      if p.followed.contains id then refuse
      modify fun p => { p with followed := id :: p.followed }
      count
      let x ← read n
      modify fun p => { p with followed := p.followed.erase id }
      return x
  | n => read n

/-- The value of a scalar. -/
def scalar (tag text : String) : DecodeM Value :=
  match Scalar.value? tag text with
  | some v => return v
  | none => refuse

/-! ### Entries of maps -/

/-- What the entries of a map are put into. -/
structure Container (σ : Type) where
  /-- Read a key. -/
  key : Node → DecodeM (Option Value)
  /-- Read a key without a prescribed type. -/
  anyKey : Node → DecodeM (Option Value)
  /-- Whether a key may be set only once by one map. -/
  isSingle : Value → Bool
  /-- Read the value of a key and put it in. -/
  put : Value → Node → σ → DecodeM σ

/-- The keys met so far with one more, unless it is among them. -/
def meet (k : Value) (seen : List Value) : DecodeM (Option (List Value)) :=
  if k.hasParts then throw .incomparable
  else if seen.any k.same then return none
  else return some (k :: seen)

/-- What is known while the entries of one map are put into a container. -/
structure Filling (σ : Type) where
  /-- What is in it. -/
  content : σ
  /-- While maps are merged, the keys met so far. -/
  merged : Option (List Value)
  /-- The keys that have been set by this map and may not be set again. -/
  done : List Value := []

variable {σ : Type} (c : Container σ)

/-- Put an entry with a given key into a container. -/
def putEntry (k : Value) (v : Node) (f : Filling σ) : DecodeM (Filling σ) :=
  if c.isSingle k then do
    if f.done.any k.same then
      noteMismatch
      return f
    else return { f with content := ← c.put k v f.content, done := k :: f.done }
  else return { f with content := ← c.put k v f.content }

/-- Put an entry into a container, unless it is a merge or its key was met before. -/
def addEntry (f : Filling σ) (e : Node × Node) : DecodeM (Filling σ) := do
  if e.1.isMerge then return f
  match ← c.key e.1 with
  | none => return f
  | some k =>
    match f.merged with
    | none => putEntry c k e.2 f
    | some seen =>
      match ← meet k seen with
      | none => return f
      | some seen => putEntry c k e.2 { f with merged := some seen }

/-- The keys of a map as keys met before its merges. -/
def ownKeys (entries : List (Node × Node)) : DecodeM Unit := do
  modify fun p => { p with merged := some [] }
  for e in entries do
    match ← c.anyKey e.1 with
    | none => pure ()
    | some k =>
      if k.hasParts then throw .incomparable
      modify fun p => { p with merged := p.merged.map (k :: ·) }

/-- Whether a node is a map or a reference to one. -/
def isMap (n : Node) : DecodeM Bool := do
  match n with
  | .map .. => return true
  | .reference _ _ target =>
    match (← get).document.target? target with
    | some (.map ..) => return true
    | _ => return false
  | _ => return false

/-- Do something with the maps that a merge names. -/
def withMerged (take : σ → Node → DecodeM σ) (x : σ) (n : Node) : DecodeM σ := do
  let one (x : σ) (n : Node) : DecodeM σ := do
    if ← isMap n then take x n else refuse
  match n with
  | .list _ items => items.foldlM one x
  | n => one x n

/-- Put the entries of a map into a container, the merged ones last. -/
def fill : Nat → List (Node × Node) → σ → DecodeM σ
  | 0, _, _ => refuse
  | fuel + 1, entries, x => do
    let merged := (← get).merged
    modify fun p => { p with merged := none }
    let f ← entries.foldlM (addEntry c) { content := x, merged }
    modify fun p => { p with merged := f.merged }
    match entries.find? fun e => e.1.isMerge with
    | none => return f.content
    | some (_, n) =>
      if f.merged.isNone then ownKeys c entries
      let take (x : σ) (n : Node) : DecodeM σ := visit n fun
        | .map _ entries =>
          if Node.distinctKeys entries then fill fuel entries x
          else do
            noteMismatch
            return x
        | _ => refuse
      let x ← withMerged take f.content n
      if f.merged.isNone then modify fun p => { p with merged := none }
      return x

end DecodeM

/-- A way to read a node. The result is missing when the place of the node stays unset. -/
abbrev Decoder (α : Type) := Node → DecodeM (Option α)

namespace Decoder

open DecodeM

/-! ### Texts -/

/-- Read a scalar that stands for something as a text, however it is written. -/
def text : Decoder Text := fun n => visit n fun
  | .scalar tag s => do
    match ← scalar tag s with
    | .null => return none
    | .string v => return some v
    | _ => return some s
  | _ => mismatch

/-! ### Values without a prescribed type -/

/-- Set the value of a text, where it stands or else at the end. -/
def setField (k : Text) (v : Value) : List (Text × Value) → List (Text × Value)
  | [] => [(k, v)]
  | (k', v') :: rest => if k' = k then (k, v) :: rest else (k', v') :: setField k v rest

/-- Set the value of a key, where it stands or else at the end. -/
def setKey (k v : Value) : List (Value × Value) → List (Value × Value)
  | [] => [(k, v)]
  | (k', v') :: rest => if k'.same k then (k, v) :: rest else (k', v') :: setKey k v rest

/-- The fields of a record as a container. -/
def fields (value : Decoder Value) : Container (List (Text × Value)) where
  key n := return (← text n).map Value.string
  anyKey := value
  isSingle _ := false
  put k v l := do
    match k, ← value v with
    | .string s, some x => return setField s x l
    | _, _ => return l

/-- The entries of a map with keys of any kind as a container. -/
def entries (value : Decoder Value) : Container (List (Value × Value)) where
  key := value
  anyKey := value
  isSingle _ := false
  put k v l := do
    if k.hasParts then refuse
    match ← value v with
    | some x => return setKey k x l
    | none => return l

/-- Whether all keys are tagged as texts or merges. -/
def areTexts (es : List (Node × Node)) : DecodeM Bool := do
  let d := (← get).document
  return es.all fun e => d.tagOf e.1 = "!!str" || d.tagOf e.1 = "!!merge"

/-- Read a value without a prescribed type, down to a depth. -/
def untypedTo : Nat → Decoder Value
  | 0 => fun _ => refuse
  | fuel + 1 => fun n => visit n fun
    | .scalar tag s => return some (← scalar tag s)
    | .list _ items => do
      return some (.list ((← items.mapM (untypedTo fuel)).filterMap id))
    | .map _ es => do
      if !Node.distinctKeys es then mismatch
      else if ← areTexts es then
        return some (.record (← fill (fields (untypedTo fuel)) (fuel + 1) es []))
      else return some (.map (← fill (entries (untypedTo fuel)) (fuel + 1) es []))
    | .reference .. => refuse

/-- Read a value without a prescribed type. -/
def untyped : Decoder Value := fun n => do untypedTo (← get).document.reach n

/-! ### Lists and records -/

/-- Read a list; items that stay unset are left out. What stands for nothing is an empty list. -/
def listOf {α : Type} (item : Decoder α) : Decoder (List α) := fun n => visit n fun
  | .list _ items => return some ((← items.mapM item).filterMap id)
  | .scalar tag s => do
    match ← scalar tag s with
    | .null => return some []
    | _ => mismatch
  | _ => mismatch

/-- A way to read a node and set a field of a record. -/
abbrev Setter (α : Type) := Node → α → DecodeM α

/-- A type of records: the record with nothing set, and how its fields are read and set. -/
structure RecordType (α : Type) where
  /-- Nothing is set. -/
  empty : α
  /-- The fields by their names. -/
  fields : List (Text × Setter α)

/-- Read a field with a decoder and set it. -/
def setting {α β : Type} (d : Decoder β) (set : β → α → α) : Setter α := fun n x => do
  match ← d n with
  | some y => return set y x
  | none => return x

/-- The field with a name. -/
def RecordType.field? {α : Type} (r : RecordType α) (name : Text) : Option (Setter α) :=
  r.fields.lookup name

/-- A record as a container. Names without a field are ignored. -/
def recordFields {α : Type} (r : RecordType α) : Container α where
  key n := return (← text n).map Value.string
  anyKey := untyped
  isSingle
    | .string s => (r.field? s).isSome
    | _ => false
  put k v x :=
    match k with
    | .string s =>
      match r.field? s with
      | some set => set v x
      | none => return x
    | _ => return x

/-- Read a record from a node that is no reference. -/
def recordHere {α : Type} (r : RecordType α) : Decoder α
  | .map _ es => do
    if Node.distinctKeys es then
      return some (← fill (recordFields r) (← get).document.reach es r.empty)
    else mismatch
  | .scalar tag s => do
    match ← scalar tag s with
    | .null => return none
    | _ => mismatch
  | _ => mismatch

/-- Read a record. -/
def record {α : Type} (r : RecordType α) : Decoder α := fun n => visit n (recordHere r)

/-- Read a record that may be missing. What is tagged as nothing has to be a scalar. -/
def optional {α : Type} (r : RecordType α) : Decoder (Option α) := fun n => visit n fun n => do
  if (← get).document.tagOf n = ScalarKind.null.tag then
    match n with
    | .scalar tag s => do
      let _ ← scalar tag s
      return some none
    | _ => mismatch
  else return (← recordHere r n).map some

/-! ### Documents -/

/-- Read the whole of a document as a record. -/
def root {α : Type} (r : RecordType α) : DecodeM α := do
  count
  let x? ← record r (← get).document.root
  if (← get).mismatched then refuse
  return x?.getD r.empty

/-- Read a document as a record. -/
def read {α : Type} (r : RecordType α) (document : Document) : Except Halt α :=
  (root r).run' { document }

end Decoder

end CodeTiling.Yaml
