import ClientLoom.Yaml.Scalar

/-! # Nodes

The content of a document: scalars, sequences, mappings and aliases.  An alias names an anchor;
the document holds the anchored nodes, so an alias may refer to a node that contains it. -/

namespace ClientLoom.Yaml

/-- A node.  Lines are counted from one, and the tag is empty where none is written. -/
inductive Node where
  | scalar (line : Nat) (tag : String) (style : Style) (text : String)
  | sequence (line : Nat) (tag : String) (items : List Node)
  | mapping (line : Nat) (tag : String) (entries : List (Node × Node))
  /-- the anchored node number `target`; `name` is the name of the anchor -/
  | alias (line : Nat) (name : String) (target : Nat)
  deriving Inhabited

namespace Node

/-- The line a node starts on. -/
def line : Node → Nat
  | .scalar line _ _ _ => line
  | .sequence line _ _ => line
  | .mapping line _ _ => line
  | .alias line _ _ => line

/-- The text that stands for a node on its own: of a scalar its text, of an alias the name of
its anchor, of a collection nothing. -/
def ownText : Node → String
  | .scalar _ _ _ text => text
  | .sequence _ _ _ => ""
  | .mapping _ _ _ => ""
  | .alias _ name _ => name

/-- Whether two nodes are of one form and have one text. -/
def sameKey : Node → Node → Bool
  | .scalar _ _ _ a, .scalar _ _ _ b => a == b
  | .sequence _ _ _, .sequence _ _ _ => true
  | .mapping _ _ _, .mapping _ _ _ => true
  | .alias _ a _, .alias _ b _ => a == b
  | _, _ => false

mutual

/-- The number of nodes in a node. -/
def size : Node → Nat
  | .scalar _ _ _ _ => 1
  | .sequence _ _ items => sizes items + 1
  | .mapping _ _ entries => entrySizes entries + 1
  | .alias _ _ _ => 1

/-- The number of nodes in nodes. -/
def sizes : List Node → Nat
  | [] => 0
  | n :: ns => n.size + sizes ns

/-- The number of nodes in the entries of a mapping. -/
def entrySizes : List (Node × Node) → Nat
  | [] => 0
  | (k, v) :: rest => k.size + v.size + entrySizes rest

end

end Node

/-- A document: its root, when it has content, and its anchored nodes by number. -/
structure Document where
  root : Option Node
  anchors : List Node

namespace Document

/-- The document without content. -/
def empty : Document := ⟨none, []⟩

/-- The node that is meant: an alias stands for the node of its anchor. -/
def resolve (d : Document) : Node → Node
  | .alias line name target => (d.anchors[target]?).getD (.alias line name target)
  | n => n

/-- More than the number of nodes of a document. -/
def bound (d : Document) : Nat :=
  (d.root.map Node.size).getD 0 + Node.sizes d.anchors + 1

/-- No visit of a document goes deeper, since no node is inside itself. -/
def depth (d : Document) : Nat := (d.bound + 1) * (d.anchors.length + 2)

end Document
end ClientLoom.Yaml
