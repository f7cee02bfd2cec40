import Workflow.Document.Focus

/-!
# Tables of nodes

The nodes of a document are stored in a table and refer to each other by their numbers, which are
their positions in the table.  A node keeps the number of its parent, the node that it was made for,
and lists the nodes directly inside of it.  Following the listed numbers downward reads the part
that a node stands for.
-/

namespace Workflow

namespace Part

/-- The key that a part is, if it is one. -/
def key? : Part → Option Key
  | .key k => some k
  | _ => none

end Part

/-- What a node holds.  The nodes inside of it are given by their numbers. -/
inductive NodeContent where
  /-- A value without nodes inside of it. -/
  | leaf (t : Tree)
  | array (span : Span) (items : List Nat)
  | object (span : Span) (properties : List Nat)
  | property (span : Span) (key : Nat) (colon : Option Nat) (value : Option Nat)
  | key (k : Key)

namespace NodeContent

/-- The span of a node. -/
def span : NodeContent → Span
  | .leaf t => t.span
  | .array span _ => span
  | .object span _ => span
  | .property span _ _ _ => span
  | .key k => k.span

/-- The numbers of the nodes directly inside of a node. -/
def children : NodeContent → List Nat
  | .leaf _ => []
  | .array _ items => items
  | .object _ properties => properties
  | .property _ k _ value => k :: value.toList
  | .key _ => []

/-- The part that a node stands for, given the parts that the nodes inside of it stand for. -/
def part? (at? : Nat → Option Part) : NodeContent → Option Part
  | .leaf t => some (.tree t)
  | .array span items =>
    (items.mapM fun n => (at? n).bind Part.tree?).map fun trees => .tree (.array span trees)
  | .object span properties =>
    (properties.mapM fun n => (at? n).bind Part.property?).map fun ps => .tree (.object span ps)
  | .property span k colon value =>
    ((at? k).bind Part.key?).bind fun name =>
      match value with
      | none => some (.property ⟨span, name, colon, none⟩)
      | some n =>
        ((at? n).bind Part.tree?).map fun t => .property ⟨span, name, colon, some t⟩
  | .key k => some (.key k)

end NodeContent

/-- A node as it is stored. -/
structure StoredNode where
  /-- The number of the node that it was made for; the root of a document has none. -/
  parent : Option Nat
  content : NodeContent

/-- The nodes of a document, in the order in which they were made. -/
abbrev NodeTable := List StoredNode

namespace NodeTable

variable (nodes : NodeTable)

/-- The number of the parent of a node. -/
def parentOf? (n : Nat) : Option Nat := nodes[n]?.bind StoredNode.parent

/-- The numbers that are listed under a node. -/
def listed (n : Nat) : List Nat := (nodes[n]?.map fun node => node.content.children).getD []

/-- The part that a node stands for, read downward through a number of levels. -/
def part? : Nat → Nat → Option Part
  | 0, _ => none
  | levels + 1, n => nodes[n]?.bind fun node => node.content.part? (part? levels)

/-- The tree of a document: what its first node stands for. -/
def tree? : Option Tree := (nodes.part? nodes.length 0).bind Part.tree?

end NodeTable

/-- Nodes that were made one after the other: the first one, and those below it. -/
structure Made where
  top : StoredNode
  below : NodeTable

namespace Made

/-- All nodes that were made, in their order. -/
def nodes (made : Made) : NodeTable := made.top :: made.below

/-- A node without nodes below it. -/
def leaf (parent : Option Nat) (t : Tree) : Made := ⟨⟨parent, .leaf t⟩, []⟩

/-- The nodes of a property: the property itself, its key, and those made for its value. -/
def property (parent : Option Nat) (this : Nat) (span : Span) (key : Key) (colon : Option Nat)
    (value : Option Made) : Made :=
  ⟨⟨parent, .property span (this + 1) colon (value.map fun _ => this + 2)⟩,
    ⟨some this, .key key⟩ :: (value.map nodes).getD []⟩

/-- Nodes for several things: the numbers of their first nodes, and all nodes. -/
structure Row where
  numbers : List Nat
  nodes : NodeTable

/-- The nodes for one more thing, in front of a row. -/
def Row.cons (row : Row) (next : Nat) (made : Made) : Row :=
  ⟨next :: row.numbers, made.nodes ++ row.nodes⟩

/-- Makes the nodes for several things, one after the other from a number on. -/
def each {α : Type} (make : Nat → α → Except Fault Made) : Nat → List α → Except Fault Row
  | _, [] => .ok ⟨[], []⟩
  | next, a :: rest => do
    let made ← make next a
    let row ← each make (next + made.nodes.length) rest
    pure (row.cons next made)

end Made

end Workflow
