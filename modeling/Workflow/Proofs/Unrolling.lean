import Workflow.Document.Focus
import Workflow.Proofs.FieldFindings
import Workflow.Proofs.LoadingFaults

/-!
# Unrolling a graph

Below its root a graph has an occurrence of a node for every way down, which may be infinitely many.
Unrolling keeps those ways on which no collection is entered twice: where a collection would be
entered for the second time, a null with its span ends the way.  A node that is merely shared is
unrolled wherever it is used.  The bound on the depth is never met, since the collections around an
occurrence are different nodes.

The nodes of the document store their parents on the way, and these are the nodes that list them.
-/

namespace Workflow

namespace Tree

/-- The item at a position of an array, or the value of the property there. -/
def part? : Tree → Nat → Option Tree
  | .array _ items, i => items[i]?
  | .object _ properties, i => properties[i]?.bind Property.value
  | _, _ => none

/-- The tree that a list of positions leads to. -/
def at? : Tree → List Nat → Option Tree
  | t, [] => some t
  | t, i :: path => (t.part? i).bind fun u => u.at? path

end Tree

namespace Markup

namespace Graph

variable (g : Graph)

/-- The node at a position of a collection: an item, or a value that has been typed. -/
def part? (id i : Nat) : Option Nat :=
  match (g.node id).content with
  | .scalar _ _ _ => none
  | .sequence items => items[i]?
  | .mapping entries =>
    (entries[i]?.map Prod.snd).filter fun value => !(g.node value).content.isUntyped

/-- A way down from a node: its positions, the nodes that it leaves behind, innermost first, and the
node where it ends. -/
inductive Leads : Nat → List Nat → List Nat → Nat → Prop
  | here
      (id : Nat) :
      Leads id [] [] id
  | step
      {id i part last : Nat} {path around : List Nat} (hpart : g.part? id i = some part)
      (h : Leads part path around last) :
      Leads id (i :: path) (around ++ [id]) last

/-- The property is made from the entry, and it has a value exactly if one has been typed. -/
def MadeFrom (source : Text) (entry : Nat × Nat) (p : Property Tree) : Prop :=
  p = property source (g.node entry.1) (g.node entry.2) p.value ∧
    (p.value = none ↔ (g.node entry.2).content.isUntyped = true)

/-- The tree stands for an occurrence of a node below some collections.  Below itself a collection
is a null; elsewhere it is a collection with a part for each of its own. -/
def StandsFor (source : Text) (around : List Nat) (id : Nat) (t : Tree) : Prop :=
  if id ∈ around then t = .null (spanOf (g.node id))
  else
    match (g.node id).content with
    | .scalar tag text style => scalarTree (spanOf (g.node id)) tag text style = .ok t
    | .sequence items =>
      ∃ trees, t = .array (spanOf (g.node id)) trees ∧ trees.length = items.length
    | .mapping entries =>
      ∃ properties, t = .object (spanOf (g.node id)) properties ∧
        List.Forall₂ (g.MadeFrom source) entries properties

variable {g} {source : Text} {depth levels : Nat} {around : List Nat} {id : Nat} {t : Tree}

theorem mem_parts_of_part?
    {i part : Nat} (h : g.part? id i = some part) :
    part ∈ g.parts id := by
  unfold part? at h
  unfold parts
  cases hcontent : (g.node id).content with
  | scalar tag text style =>
      rw [hcontent] at h
      cases h
  | sequence items =>
      rw [hcontent] at h
      exact List.mem_of_getElem? h
  | mapping entries =>
      rw [hcontent] at h
      obtain ⟨entry, hentry, rfl⟩ := Option.map_eq_some_iff.mp (Option.filter_eq_some_iff.mp h).1
      exact List.mem_map_of_mem (List.mem_of_getElem? hentry)

/-! ## One level -/

/-- Where one level of a tree comes from: its parts are those of the node, one level further
down. -/
def PartsFrom (g : Graph) (source : Text) (depth : Nat) (around : List Nat) (id : Nat) (t : Tree) :
    Prop :=
  ∀ i, g.part? id i = none ∧ t.part? i = none ∨
    ∃ part u, g.part? id i = some part ∧ t.part? i = some u ∧
      g.unroll source depth (id :: around) part = .ok u

/-- A scalar has the given span and nothing inside of it. -/
theorem span_of_scalarTree
    {span : Span} {tag : ScalarTag} {text : Text} {style : ScalarStyle}
    (h : scalarTree span tag text style = .ok t) :
    t.span = span ∧ (Part.tree t).children = [] :=
  scalarTree_induction (P := fun t => t.span = span ∧ (Part.tree t).children = []) ⟨rfl, rfl⟩
    (fun _ => ⟨rfl, rfl⟩) (fun _ => ⟨rfl, rfl⟩) (fun _ => ⟨rfl, rfl⟩) h

theorem part?_of_scalarTree
    {span : Span} {tag : ScalarTag} {text : Text} {style : ScalarStyle}
    (h : scalarTree span tag text style = .ok t) (i : Nat) :
    t.part? i = none := by
  have hleaf := (span_of_scalarTree h).2
  cases t with
  | array span items =>
      rw [List.map_eq_nil_iff.mp hleaf]
      rfl
  | object span properties =>
      rw [List.map_eq_nil_iff.mp hleaf]
      rfl
  | _ => rfl

/-- The property of an entry, with the value that it was unrolled to. -/
theorem madeFrom_of_unroll
    {entry : Nat × Nat} {p : Property Tree}
    (h : (if (g.node entry.2).content.isUntyped then
        Except.ok (property source (g.node entry.1) (g.node entry.2) none)
      else (g.unroll source depth around entry.2).map fun t =>
        property source (g.node entry.1) (g.node entry.2) (some t)) = .ok p) :
    g.MadeFrom source entry p ∧
      ((g.node entry.2).content.isUntyped = false →
        ∃ u, p.value = some u ∧ g.unroll source depth around entry.2 = .ok u) := by
  cases huntyped : (g.node entry.2).content.isUntyped with
  | true =>
      rw [huntyped, if_pos rfl] at h
      cases h
      exact ⟨⟨rfl, iff_of_true rfl huntyped⟩, nofun⟩
  | false =>
      rw [huntyped, if_neg Bool.false_ne_true] at h
      cases hvalue : g.unroll source depth around entry.2 with
      | error fault =>
          rw [hvalue] at h
          cases h
      | ok u =>
          rw [hvalue] at h
          cases h
          refine ⟨⟨rfl, iff_of_false nofun ?_⟩, fun _ => ⟨u, rfl, rfl⟩⟩
          rw [huntyped]
          exact Bool.false_ne_true

/-- Unrolling one level: the tree stands for the node, and its parts are unrolled in turn. -/
theorem unroll_succ
    (haround : id ∉ around) (h : g.unroll source (depth + 1) around id = .ok t) :
    g.StandsFor source around id t ∧ g.PartsFrom source depth around id t := by
  have hcontains : around.contains id = false := by simpa using haround
  rw [unroll] at h
  simp only [hcontains, Bool.false_eq_true, if_false] at h
  unfold StandsFor PartsFrom part?
  rw [if_neg haround]
  cases hcontent : (g.node id).content with
  | scalar tag text style =>
      rw [hcontent] at h
      exact ⟨h, fun i => Or.inl ⟨rfl, part?_of_scalarTree h i⟩⟩
  | sequence items =>
      rw [hcontent] at h
      obtain ⟨trees, htrees, rfl⟩ := exists_of_map_eq_ok h
      have hall := forall₂_of_mapM htrees
      refine ⟨⟨trees, rfl, hall.length_eq.symm⟩, fun i => ?_⟩
      rcases nth_of_forall₂ hall i with ⟨hnone, hnone'⟩ | ⟨part, u, hpart, hu, hunroll⟩
      · exact Or.inl ⟨hnone, hnone'⟩
      · exact Or.inr ⟨part, u, hpart, hu, hunroll⟩
  | mapping entries =>
      rw [hcontent] at h
      obtain ⟨properties, hproperties, rfl⟩ := exists_of_map_eq_ok h
      have hall := (forall₂_of_mapM hproperties).imp fun entry p hp => madeFrom_of_unroll hp
      refine ⟨⟨properties, rfl, hall.imp fun _ _ h => h.1⟩, fun i => ?_⟩
      rcases nth_of_forall₂ hall i with ⟨hnone, hnone'⟩ | ⟨entry, p, hentry, hp, hmade, hvalue⟩
      · exact Or.inl (by simp [Tree.part?, hnone, hnone'])
      · cases huntyped : (g.node entry.2).content.isUntyped with
        | true =>
            have hnone := hmade.2.mpr huntyped
            exact Or.inl (by simp [Tree.part?, hentry, hp, huntyped, hnone])
        | false =>
            obtain ⟨u, hu, hunroll⟩ := hvalue huntyped
            exact Or.inr ⟨entry.2, u, by simp [hentry, huntyped], by simp [Tree.part?, hp, hu],
              hunroll⟩

/-! ## All levels -/

/-- The collections around are different nodes of the graph, and the depth leaves room for all
others. -/
structure Room (g : Graph) (depth : Nat) (around : List Nat) : Prop where
  distinct : around.Nodup
  nodes : ∀ a ∈ around, a < g.nodes.size
  depth : g.nodes.size < depth + around.length

theorem room_of_lt
    (h : g.nodes.size < depth) :
    g.Room depth [] := ⟨List.nodup_nil, nofun, h⟩

/-- As long as there is room, the depth is not used up. -/
theorem Room.exists_succ
    (h : g.Room depth around) :
    ∃ n, depth = n + 1 := by
  have hshort := length_le_size h.distinct h.nodes
  have hdepth := h.depth
  exact ⟨depth - 1, by omega⟩

/-- Inside of a further collection there is still room. -/
theorem Room.inside
    (h : g.Room (depth + 1) around) (haround : id ∉ around) {part : Nat}
    (hpart : part ∈ g.parts id) :
    g.Room depth (id :: around) where
  distinct := List.nodup_cons.mpr ⟨haround, h.distinct⟩
  nodes := List.forall_mem_cons.mpr ⟨lt_size_of_mem_parts hpart, h.nodes⟩
  depth := by
    have hdepth := h.depth
    rw [List.length_cons]
    omega

/-- The bound on the depth is never met: any bound that leaves room gives the same. -/
theorem unroll_eq_of_room
    (hdepth : g.Room depth around) (hlevels : g.Room levels around) :
    g.unroll source depth around id = g.unroll source levels around id := by
  induction depth generalizing levels around id with
  | zero =>
      obtain ⟨n, hn⟩ := hdepth.exists_succ
      cases hn
  | succ depth ih =>
      obtain ⟨levels, rfl⟩ := hlevels.exists_succ
      by_cases haround : id ∈ around
      · simp [unroll, haround]
      · have hparts : ∀ part ∈ g.parts id, g.unroll source depth (id :: around) part =
            g.unroll source levels (id :: around) part := fun part hpart =>
          ih (hdepth.inside haround hpart) (hlevels.inside haround hpart)
        unfold parts at hparts
        rw [unroll, unroll]
        cases hcontent : (g.node id).content with
        | scalar tag text style => rfl
        | sequence items =>
            rw [hcontent] at hparts
            simp only [mapM_congr hparts]
        | mapping entries =>
            rw [hcontent] at hparts
            dsimp only
            rw [mapM_congr fun entry hentry => by
              rw [hparts entry.2 (List.mem_map_of_mem hentry)]]

/-- A collection below itself becomes a null. -/
theorem eq_null_of_mem
    (haround : id ∈ around) (h : g.unroll source (depth + 1) around id = .ok t) :
    t = .null (spanOf (g.node id)) := by
  have hcontains : around.contains id = true := by simpa using haround
  rw [unroll] at h
  simp only [hcontains, if_true] at h
  exact (Except.ok.inj h).symm

/-- What stands at the end of a way down stands for an occurrence of the node there, and no
collection is left twice on the way. -/
theorem standsFor_of_at?
    (hroom : g.Room depth around) (h : g.unroll source depth around id = .ok t) {path : List Nat}
    {u : Tree} (hu : t.at? path = some u) :
    ∃ inner last, g.Leads id path inner last ∧ (inner ++ around).Nodup ∧
      g.StandsFor source (inner ++ around) last u := by
  induction path generalizing depth around id t with
  | nil =>
      cases hu
      obtain ⟨depth, rfl⟩ := hroom.exists_succ
      refine ⟨[], id, Leads.here id, hroom.distinct, ?_⟩
      by_cases haround : id ∈ around
      · rw [StandsFor, List.nil_append, if_pos haround]
        exact eq_null_of_mem haround h
      · exact (unroll_succ haround h).1
  | cons i path ih =>
      obtain ⟨depth, rfl⟩ := hroom.exists_succ
      obtain ⟨v, hv, hu⟩ := Option.bind_eq_some_iff.mp hu
      by_cases haround : id ∈ around
      · rw [eq_null_of_mem haround h] at hv
        cases hv
      · rcases (unroll_succ haround h).2 i with ⟨-, hnone⟩ | ⟨part, w, hpart, hw, hunroll⟩
        · rw [hnone] at hv
          cases hv
        · cases hw.symm.trans hv
          obtain ⟨inner, last, hleads, hinner, hstands⟩ :=
            ih (hroom.inside haround (mem_parts_of_part? hpart)) hunroll hu
          refine ⟨inner ++ [id], last, Leads.step hpart hleads, ?_, ?_⟩
          · rwa [List.append_assoc]
          · rwa [List.append_assoc]

/-- Every way down on which no collection is left twice leads to a part of the tree. -/
theorem exists_at?_of_leads
    {path inner : List Nat} {last : Nat} (hleads : g.Leads id path inner last)
    (hroom : g.Room depth around) (h : g.unroll source depth around id = .ok t)
    (hinner : (inner ++ around).Nodup) :
    ∃ u, t.at? path = some u := by
  induction hleads generalizing depth around t with
  | here id => exact ⟨t, rfl⟩
  | @step id i part last path inner hpart _ ih =>
      obtain ⟨depth, rfl⟩ := hroom.exists_succ
      rw [List.append_assoc, List.singleton_append] at hinner
      have haround : id ∉ around := (List.nodup_cons.mp (List.nodup_append.mp hinner).2.1).1
      rcases (unroll_succ haround h).2 i with ⟨hnone, -⟩ | ⟨part', u, hpart', hu, hunroll⟩
      · rw [hnone] at hpart
        cases hpart
      · cases hpart.symm.trans hpart'
        obtain ⟨v, hv⟩ := ih (hroom.inside haround (mem_parts_of_part? hpart)) hunroll hinner
        refine ⟨v, ?_⟩
        rw [Tree.at?, hu]
        exact hv

/-- A graph is unrolled to the nodes of a document, unless a misfit is reached from its root, and no
bound on the depth is met.  The tree that is read from the nodes has a part at the end of exactly
those ways down on which no collection is left twice, and the part stands for the occurrence of the
node there: a null with the span of the collection if it stands below another occurrence of the same
collection, and otherwise what the node holds.  The parent that is stored in a node is the one node
that lists it, and only the first node has none.  Climbing in the tree and following the stored
parents is the same: every place of the tree is shown by a node, and every node shows a place. -/
theorem unrolling_exact
    (g : Graph) (source : Text) :
    (∀ levels, g.nodes.size < levels →
        (g.convert source levels [] none 0 g.root).map Made.nodes = g.toNodes source) ∧
      ((∃ nodes, g.toNodes source = .ok nodes) ↔
        ∀ n, Relation.ReflTransGen g.Holds g.root n → ¬ (g.node n).content.Misfits) ∧
      ∀ nodes, g.toNodes source = .ok nodes → nodes.Linked ∧ ∃ t, g.toTree source = .ok t ∧
        (∀ path u, t.at? path = some u → ∃ around id, g.Leads g.root path around id ∧
          around.Nodup ∧ g.StandsFor source around id u) ∧
        (∀ path around id, g.Leads g.root path around id → around.Nodup →
          ∃ u, t.at? path = some u) ∧
        (∀ f : Focus,
          Relation.ReflTransGen (fun outer inner => inner ∈ outer.children) (.root t) f →
            ∃ n, f.ShownBy nodes n) ∧
        ∀ n < nodes.length, ∃ f : Focus,
          Relation.ReflTransGen (fun outer inner => inner ∈ outer.children) (.root t) f ∧
            f.ShownBy nodes n := by
  have hroom : g.Room (g.nodes.size + 1) [] := room_of_lt (Nat.lt_succ_self _)
  refine ⟨fun levels hlevels => ?_, ?_, fun nodes hnodes => ?_⟩
  · rw [toNodes, convert_eq_map, convert_eq_map,
      unroll_eq_of_room (room_of_lt hlevels) hroom]
  · have hanswers : (∃ nodes, g.toNodes source = .ok nodes) ↔ ¬ Faults (g.toTree source) := by
      rw [toTree, faults_map, not_faults_iff]
    rw [hanswers, faults_toTree]
    simp
  · obtain ⟨hchunk, t, ht, hread⟩ := chunk_of_toNodes hnodes
    have hunroll := (g.toTree_eq_unroll source).symm.trans ht
    refine ⟨hchunk.linked, t, ht, fun path u hu => ?_, fun path around id hleads haround => ?_,
      hchunk.shown hread⟩
    · obtain ⟨around, id, hleads, haround, hstands⟩ := standsFor_of_at? hroom hunroll hu
      rw [List.append_nil] at haround hstands
      exact ⟨around, id, hleads, haround, hstands⟩
    · refine exists_at?_of_leads hleads hroom hunroll ?_
      rwa [List.append_nil]

end Graph

end Markup

/-- A text whose root holds itself, with a list that holds itself and is shared, a list as a key and
a value that has not been typed. -/
def tangledText : Text :=
  "&a
x: &b
- w
- *b
y: *b
? - k
: *a
z:
"

/-- The list is unrolled under both keys, and below itself it is a null with its span.  The null is
the sixth node, and the fourth one, the list, is its parent. -/
theorem unrolling_exact_tangled :
    ∃ g nodes t u, Document.composed .yaml tangledText = .ok (some g) ∧
      g.toNodes tangledText = .ok nodes ∧ g.toTree tangledText = .ok t ∧
      (g.convert tangledText 99 [] none 0 g.root).map Made.nodes = .ok nodes ∧
      (∀ n, Relation.ReflTransGen g.Holds g.root n → ¬ (g.node n).content.Misfits) ∧
      t.at? [0, 1] = some u ∧ u.toValue.isNull = true ∧ u.span = ⟨6, 12⟩ ∧
      (∃ around id, g.Leads g.root [0, 1] around id ∧ around.Nodup ∧
        g.StandsFor tangledText around id u) ∧
      g.Leads g.root [1, 0] [2, 0] 3 ∧ (∃ w, t.at? [1, 0] = some w) ∧
      t.at? [3] = none ∧
      nodes.length = 16 ∧ nodes.listed 3 = [4, 5] ∧ nodes.parentOf? 5 = some 3 ∧
      (∃ n, (Focus.root t).ShownBy nodes n) ∧
      ∃ f : Focus, Relation.ReflTransGen (fun outer inner => inner ∈ outer.children) (.root t) f ∧
        f.ShownBy nodes 5 := by
  have hfacts : ((Document.composed .yaml tangledText).toOption.any fun composed =>
      composed.any fun g => decide (g.nodes.size < 99 ∧ g.root = 0 ∧ g.part? 0 1 = some 2 ∧
        g.part? 2 0 = some 3) &&
        (g.toNodes tangledText).toOption.any (fun nodes =>
          decide (nodes.length = 16 ∧ nodes.listed 3 = [4, 5])) &&
        (g.toTree tangledText).toOption.any fun t => (t.at? [3]).isNone &&
          (t.at? [0, 1]).any fun u =>
            u.toValue.isNull && decide (u.span = ⟨6, 12⟩)) = true := by
    decide +kernel
  cases hcomposed : Document.composed .yaml tangledText with
  | error problem =>
      rw [hcomposed] at hfacts
      cases hfacts
  | ok composed =>
      rw [hcomposed, Except.toOption, Option.any_some] at hfacts
      obtain ⟨g, rfl, hfacts⟩ := (Option.any_eq_true _ _).mp hfacts
      rw [Option.any_some, Bool.and_eq_true, Bool.and_eq_true] at hfacts
      obtain ⟨⟨hgraph, htable⟩, htree⟩ := hfacts
      obtain ⟨hsize, hroot, hsecond, hfirst⟩ := of_decide_eq_true hgraph
      obtain ⟨hlevels, hmisfits, hexact⟩ := Markup.Graph.unrolling_exact g tangledText
      have hleads : g.Leads g.root [1, 0] [2, 0] 3 := by
        rw [hroot]
        exact .step hsecond (.step hfirst (.here 3))
      cases hnodes : g.toNodes tangledText with
      | error fault =>
          rw [hnodes] at htable
          cases htable
      | ok nodes =>
          rw [hnodes, Except.toOption, Option.any_some, decide_eq_true_eq] at htable
          obtain ⟨hlength, hlisted⟩ := htable
          obtain ⟨hlinked, t, ht, hplaces, hways, hshown, hshows⟩ := hexact nodes hnodes
          rw [ht, Except.toOption, Option.any_some, Bool.and_eq_true,
            Option.isNone_iff_eq_none] at htree
          obtain ⟨huntyped, htree⟩ := htree
          obtain ⟨u, hu, htree⟩ := (Option.any_eq_true _ _).mp htree
          rw [Bool.and_eq_true, decide_eq_true_eq] at htree
          have hparent : nodes.parentOf? 5 = some 3 :=
            (hlinked.parent_iff 3 5).mpr (by rw [hlisted]; decide)
          exact ⟨g, nodes, t, u, rfl, hnodes, ht, (hlevels 99 hsize).trans hnodes,
            hmisfits.mp ⟨nodes, hnodes⟩, hu, htree.1, htree.2, hplaces [0, 1] u hu, hleads,
            hways [1, 0] [2, 0] 3 hleads (by decide), huntyped, hlength, hlisted, hparent,
            hshown _ .refl, hshows 5 (by omega)⟩

end Workflow
