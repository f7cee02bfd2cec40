import Workflow.Document.Nodes
import Workflow.Document.Scalar

/-!
# Documents from composed nodes

A graph of nodes is unrolled into the nodes of a document: a shared node is repeated where it is
used.  A collection that contains itself would never end, so an occurrence of a collection below
itself becomes a null with the span of that collection.  On every way down the collections are
different, hence the number of nodes bounds the depth.

The nodes of the document are made one after the other, each with the number of the node that it is
made for as its parent, and a collection lists those that were made for it.
-/

namespace Workflow

namespace Markup

/-- A value that has not been typed yet: an absent plain scalar with the null tag. -/
def Content.isUntyped : Content → Bool
  | .scalar .null [] .plain => true
  | _ => false

namespace Graph

/-- The node with a number; numbers without a node stand for nothing. -/
def node (g : Graph) (id : Nat) : Node := (g.nodes[id]?).getD ⟨0, 0, .scalar .null [] .plain⟩

/-- The span of a node. -/
def spanOf (node : Node) : Span := Span.between node.start node.stop

/-- The name that a key stands for: the text of a scalar, or else its source. -/
def keyName (source : Text) (key : Node) : Text :=
  match key.content with
  | .scalar _ t _ => t.joinPairs
  | _ => (source.slice key.start key.stop).joinPairs

/-- The first colon between a key and a value. -/
def colonBetween (source : Text) (key value : Node) : Option Nat :=
  (Text.positionOf? ':' (source.slice key.stop value.start)).map fun i => key.stop + i

/-- The span of a property: up to the end of its value, or else of its colon, or else of its
key. -/
def propertySpan (key : Node) (colon : Option Nat) (valueStop : Option Int) : Span :=
  let length : Int :=
    match valueStop, colon with
    | some stop, _ => stop - key.start
    | none, some c => (c : Int) + 1 - key.start
    | none, none => (key.stop : Int) - key.start
  ⟨key.start, length⟩

/-- The nodes of a property.  Those of its value come from a conversion, unless it has not been
typed. -/
def convertProperty (g : Graph) (source : Text)
    (convertValue : Option Nat → Nat → Nat → Except Fault Made) (parent : Option Nat) (this : Nat)
    (key value : Nat) : Except Fault Made :=
  let k := g.node key
  let v := g.node value
  let colon := colonBetween source k v
  let made (value : Option Made) : Made :=
    let span := propertySpan k colon (value.map fun m => m.top.content.span.stop)
    .property parent this span ⟨spanOf k, keyName source k⟩ colon value
  if v.content.isUntyped then .ok (made none)
  else (convertValue (some this) (this + 2) value).map fun m => made (some m)

/-- The nodes for an occurrence of a node, given the numbers of the collections around it, its
parent, and the number of its first node. -/
def convert (g : Graph) (source : Text) :
    Nat → List Nat → Option Nat → Nat → Nat → Except Fault Made
  | 0, _, parent, _, id => .ok (.leaf parent (.null (spanOf (g.node id))))
  | depth + 1, around, parent, this, id =>
    let node := g.node id
    let span := spanOf node
    if around.contains id then .ok (.leaf parent (.null span))
    else
      match node.content with
      | .scalar tag t style => (scalarTree span tag t style).map (.leaf parent)
      | .sequence items =>
        (Made.each (fun next item => convert g source depth (id :: around) (some this) next item)
          (this + 1) items).map fun row => ⟨⟨parent, .array span row.numbers⟩, row.nodes⟩
      | .mapping entries =>
        (Made.each (fun next (key, value) => g.convertProperty source
            (fun parent next value => convert g source depth (id :: around) parent next value)
            (some this) next key value)
          (this + 1) entries).map fun row => ⟨⟨parent, .object span row.numbers⟩, row.nodes⟩

/-- The nodes of the document of a graph; the first one has no parent. -/
def toNodes (g : Graph) (source : Text) : Except Fault NodeTable :=
  (g.convert source (g.nodes.size + 1) [] none 0 g.root).map Made.nodes

/-- The tree of a graph, as it is read from the nodes of its document. -/
def toTree (g : Graph) (source : Text) : Except Fault Tree :=
  (g.toNodes source).map fun nodes => nodes.tree?.getD (.null (spanOf (g.node g.root)))

end Graph

end Markup

end Workflow
