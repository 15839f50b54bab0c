import CodeTiling.Yaml.Scalar

/-!
# Nodes

A document is a tree of scalars, lists and maps, and of references to nodes that have a name. A node
has a tag, given or by default. References go by number: a `Document` keeps the nodes that have a
name apart from the tree, because a node may stand inside the node that it refers to.
-/

namespace CodeTiling.Yaml

/-- A node of a document. Tags are in their short form. -/
inductive Node where
  /-- A scalar. -/
  | scalar (tag text : String)
  /-- A list. -/
  | list (tag : String) (items : List Node)
  /-- Keys with their values. -/
  | map (tag : String) (entries : List (Node × Node))
  /-- The reference with a number, to a node by the name of its anchor and by the number of the
  anchor. -/
  | reference (id : Nat) (name : String) (target : Nat)
deriving Inhabited

/-- A document. -/
structure Document where
  /-- The whole. -/
  root : Node
  /-- The nodes with a name, by the numbers of their anchors. -/
  anchored : List (Nat × Node)
deriving Inhabited

/-- The start of the tags that have a short form. -/
def longTagStart : String := "tag:yaml.org,2002:"

/-- The short form of a tag. -/
def shortTag (tag : String) : String :=
  if tag.startsWith longTagStart then "!!" ++ (tag.drop longTagStart.length).toString else tag

namespace Node

/-- A node that is not written. -/
def empty : Node := scalar ScalarKind.null.tag ""

mutual

/-- The number of nodes in a node. -/
def size : Node → Nat
  | scalar .. => 1
  | reference .. => 1
  | list _ items => sizeOfItems items + 1
  | map _ entries => sizeOfEntries entries + 1

/-- The number of nodes in some nodes. -/
def sizeOfItems : List Node → Nat
  | [] => 0
  | n :: ns => n.size + sizeOfItems ns

/-- The number of nodes in some entries. -/
def sizeOfEntries : List (Node × Node) → Nat
  | [] => 0
  | (k, v) :: rest => k.size + v.size + sizeOfEntries rest

end

/-- Whether a key asks for a merge. -/
def isMerge : Node → Bool
  | scalar tag text => tag = "!!merge" && text = "<<"
  | _ => false

/-- What makes two keys the same as they are written. -/
def spelling : Node → Nat × String
  | scalar _ text => (0, text)
  | reference _ name _ => (1, name)
  | list .. => (2, "")
  | map .. => (3, "")

/-- Whether no key is written twice. -/
def distinctKeys (entries : List (Node × Node)) : Bool :=
  let keys := entries.map fun e => e.1.spelling
  keys.eraseDups.length = keys.length

end Node

namespace Document

variable (d : Document)

/-- The node that a reference leads to. -/
def target? (n : Nat) : Option Node := d.anchored.lookup n

/-- The tag of a node; a reference has that of its target. -/
def tagOf : Node → String
  | .scalar tag _ => tag
  | .list tag _ => tag
  | .map tag _ => tag
  | .reference _ _ n =>
    match d.target? n with
    | some (.scalar tag _) => tag
    | some (.list tag _) => tag
    | some (.map tag _) => tag
    | _ => ""

/-- A number that no way from the whole down to a node exceeds, when no reference is followed
inside itself. -/
def reach : Nat := (d.root.size + 1) * (d.root.size + 1) + 1

end Document

end CodeTiling.Yaml
