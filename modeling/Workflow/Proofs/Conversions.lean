import Workflow.Document.Unroll
import Workflow.Proofs.FieldFindings
import Workflow.Proofs.NodeTables

/-!
# Conversions and trees

`Graph.unroll` makes the tree of a graph at once, without numbers and parents.  The conversion
stores exactly this tree: its nodes are the layout of the tree, and it comes to the same fault when
there is none.  So the tree that is read from the nodes of a document is the one that the graph is
unrolled to, and the nodes are one chunk.
-/

namespace Workflow

namespace Markup

namespace Graph

/-- A property from its key and its value; the tree of the value is absent when it has not been
typed. -/
def property (source : Text) (key value : Node) (tree : Option Tree) : Property Tree :=
  let colon := colonBetween source key value
  ⟨propertySpan key colon (tree.map fun t => t.span.stop), ⟨spanOf key, keyName source key⟩, colon,
    tree⟩

/-- The tree below a node, given the numbers of the collections around it. -/
def unroll (g : Graph) (source : Text) : Nat → List Nat → Nat → Except Fault Tree
  | 0, _, id => .ok (.null (spanOf (g.node id)))
  | depth + 1, around, id =>
    let node := g.node id
    if around.contains id then .ok (.null (spanOf node))
    else
      match node.content with
      | .scalar tag t style => scalarTree (spanOf node) tag t style
      | .sequence items =>
        (items.mapM fun item => unroll g source depth (id :: around) item).map
          (.array (spanOf node))
      | .mapping entries =>
        (entries.mapM fun (key, value) =>
          let k := g.node key
          let v := g.node value
          if v.content.isUntyped then Except.ok (property source k v none)
          else
            (unroll g source depth (id :: around) value).map fun t =>
              property source k v (some t)).map
          (.object (spanOf node))

/-- Nodes are made for several things as their results are stored in a row. -/
theorem each_eq_map
    {α β : Type} {make : Nat → α → Except Fault Made} {f : α → Except Fault β}
    {stored : Nat → β → Made} (row : Nat → List β → Made.Row)
    (hnil : ∀ next, row next [] = ⟨[], []⟩)
    (hcons : ∀ next b bs, row next (b :: bs) =
      (row (next + (stored next b).nodes.length) bs).cons next (stored next b))
    (h : ∀ next a, make next a = (f a).map (stored next)) (next : Nat) (as : List α) :
    Made.each make next as = (as.mapM f).map (row next) := by
  induction as generalizing next with
  | nil => exact congrArg Except.ok (hnil next).symm
  | cons a as ih =>
      rw [Made.each, h, List.mapM_cons]
      cases f a with
      | error fault => rfl
      | ok b =>
          change (Made.each make (next + (stored next b).nodes.length) as >>= fun row =>
            pure (row.cons next (stored next b))) = _
          rw [ih]
          cases hrest : as.mapM f with
          | error fault => rfl
          | ok bs => exact congrArg Except.ok (hcons next b bs).symm

variable {g : Graph} {source : Text} {depth : Nat} {around : List Nat}

/-- The tree of a scalar is of one of four kinds. -/
theorem scalarTree_induction
    {span : Span} {tag : ScalarTag} {text : Text} {style : ScalarStyle} {P : Tree → Prop}
    (hnull : P (.null span)) (hboolean : ∀ b, P (.boolean span b))
    (hnumber : ∀ n, P (.number span n)) (hstring : ∀ t, P (.string span t)) {t : Tree}
    (h : scalarTree span tag text style = .ok t) :
    P t := by
  unfold scalarTree at h
  split at h
  · cases h
    exact hstring _
  · cases tag with
    | null =>
        cases h
        exact hnull
    | bool =>
        obtain ⟨b, -, rfl⟩ := exists_of_map_eq_ok h
        exact hboolean b
    | int =>
        obtain ⟨n, -, rfl⟩ := exists_of_map_eq_ok h
        exact hnumber _
    | float =>
        obtain ⟨x, -, rfl⟩ := exists_of_map_eq_ok h
        exact hnumber _
    | other =>
        dsimp only at h
        split at h
        · obtain ⟨x, -, rfl⟩ := exists_of_map_eq_ok h
          exact hnumber _
        · cases h
          exact hstring _

theorem stored_of_scalarTree
    {span : Span} {tag : ScalarTag} {text : Text} {style : ScalarStyle} {t : Tree}
    (h : scalarTree span tag text style = .ok t) (parent : Option Nat) (this : Nat) :
    t.stored parent this = .leaf parent t :=
  scalarTree_induction (P := fun t => t.stored parent this = .leaf parent t) rfl (fun _ => rfl)
    (fun _ => rfl) (fun _ => rfl) h

theorem span_of_stored
    (t : Tree) (parent : Option Nat) (this : Nat) :
    (t.stored parent this).top.content.span = t.span := by
  cases t <;> rfl

/-- The nodes of a property, given the number of the object that it belongs to. -/
def storedProperty (parent next : Nat) (p : Property Tree) : Made :=
  .property (some parent) next p.span p.key p.colon
    (p.value.map fun t => t.stored (some next) (next + 2))

/-- The conversion of an entry stores the property that it is unrolled to. -/
theorem convertProperty_eq_map
    (g : Graph) (source : Text) {convertValue : Option Nat → Nat → Nat → Except Fault Made}
    {unrollValue : Nat → Except Fault Tree}
    (hvalue : ∀ parent this id,
      convertValue parent this id = (unrollValue id).map (Tree.stored parent this))
    (this next : Nat) (entry : Nat × Nat) :
    g.convertProperty source convertValue (some this) next entry.1 entry.2 =
      (if (g.node entry.2).content.isUntyped then
          Except.ok (property source (g.node entry.1) (g.node entry.2) none)
        else (unrollValue entry.2).map fun t =>
          property source (g.node entry.1) (g.node entry.2) (some t)).map
        (storedProperty this next) := by
  unfold convertProperty
  dsimp only
  split
  · rfl
  · rw [hvalue]
    cases unrollValue entry.2 with
    | error fault => rfl
    | ok t =>
        refine congrArg Except.ok ?_
        unfold storedProperty property
        simp only [Option.map_some, span_of_stored]

/-- The conversion stores the tree that the graph is unrolled to. -/
theorem convert_eq_map
    (depth : Nat) (around : List Nat) (parent : Option Nat) (this id : Nat) :
    g.convert source depth around parent this id =
      (g.unroll source depth around id).map (Tree.stored parent this) := by
  induction depth generalizing around parent this id with
  | zero => rfl
  | succ depth ih =>
      rw [convert, unroll]
      dsimp only
      split
      · rfl
      · cases hcontent : (g.node id).content with
        | scalar tag t style =>
            dsimp only
            cases hscalar : scalarTree (spanOf (g.node id)) tag t style with
            | error fault => rfl
            | ok u => exact congrArg Except.ok (stored_of_scalarTree hscalar parent this).symm
        | sequence items =>
            have hitems := each_eq_map (Tree.storedItems this) (fun _ => rfl) (fun _ _ _ => rfl)
              (ih (id :: around) (some this)) (this + 1) items
            refine (congrArg (Except.map _) hitems).trans ?_
            dsimp only
            generalize List.mapM (m := Except Fault) _ items = trees
            cases trees <;> rfl
        | mapping entries =>
            have hentries := each_eq_map (Tree.storedProperties this) (fun _ => rfl)
              (fun next p ps => by obtain ⟨span, key, colon, _ | t⟩ := p <;> rfl)
              (convertProperty_eq_map g source (ih (id :: around)) this) (this + 1) entries
            refine (congrArg (Except.map _) hentries).trans ?_
            dsimp only
            generalize List.mapM (m := Except Fault) _ entries = properties
            cases properties <;> rfl

/-- The nodes of a document are the layout of the tree that its graph is unrolled to. -/
theorem toNodes_eq_map
    (g : Graph) (source : Text) :
    g.toNodes source = (g.unroll source (g.nodes.size + 1) [] g.root).map fun t =>
      (t.stored none 0).nodes := by
  rw [toNodes, convert_eq_map]
  cases g.unroll source (g.nodes.size + 1) [] g.root <;> rfl

/-- The tree that is read from the nodes of a document is the one that its graph is unrolled to. -/
theorem toTree_eq_unroll
    (g : Graph) (source : Text) :
    g.toTree source = g.unroll source (g.nodes.size + 1) [] g.root := by
  rw [toTree, toNodes_eq_map]
  cases g.unroll source (g.nodes.size + 1) [] g.root with
  | error fault => rfl
  | ok t =>
      have hread := t.part?_of_stored (NodeTable.hasAt_zero (t.stored none 0).nodes) le_rfl
      have htree : (t.stored none 0).nodes.tree? = some t := by
        rw [NodeTable.tree?, hread]
        rfl
      exact congrArg (fun u => Except.ok (u.getD (.null (spanOf (g.node g.root))))) htree

/-- The nodes of a document are one chunk, and its tree is read from the first one. -/
theorem chunk_of_toNodes
    {g : Graph} {source : Text} {nodes : NodeTable} (h : g.toNodes source = .ok nodes) :
    nodes.Chunk none [0] 0 nodes.length ∧ ∃ t, g.toTree source = .ok t ∧
      nodes.part? nodes.length 0 = some (.tree t) := by
  rw [toNodes_eq_map, ← toTree_eq_unroll] at h
  obtain ⟨t, ht, rfl⟩ := exists_of_map_eq_ok h
  have hat := NodeTable.hasAt_zero (t.stored none 0).nodes
  have hchunk := t.chunk_of_stored hat
  rw [Nat.zero_add] at hchunk
  exact ⟨hchunk, t, ht, t.part?_of_stored hat le_rfl⟩

end Graph

end Markup

end Workflow
