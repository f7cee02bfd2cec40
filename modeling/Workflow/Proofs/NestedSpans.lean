import Mathlib.Data.List.Chain
import Workflow.Proofs.FindingPlaces
import Workflow.Proofs.Unrolling

/-!
# Nested spans

The spans of a tree come from the marks of the nodes, except for those of the properties: a
property reaches to the end of its value, or only to its colon, or only to the end of its key, and
the colon is searched for in the text between the marks.  Where the marks are nested and in order,
the spans are nested and in order again, whatever is missing in a property.
-/

namespace Workflow

/-! ## Spans and the text -/

namespace Span

/-- One span lies within another. -/
def Within (inner outer : Span) : Prop :=
  outer.offset ≤ inner.offset ∧ inner.stop ≤ outer.stop

@[simp] theorem stop_between
    (start stop : Nat) :
    (between start stop).stop = stop := by
  simp only [Span.stop, between]
  omega

@[simp] theorem length_between
    (start stop : Nat) :
    (between start stop).length = stop - start := by
  rfl

end Span

/-- A colon stands in the text, behind the key, inside of the property and in front of the value. -/
structure Property.ColonAt (text : Text) (p : Property Tree) (c : Nat) : Prop where
  isColon : text[c]? = some ((':' : Char) : CodePoint)
  afterKey : p.key.span.stop ≤ c
  inside : p.span.offset ≤ c ∧ (c : Int) < p.span.stop
  beforeValue : ∀ v, p.value = some v → c < v.span.offset

/-- A part whose span lies in the text and holds the spans of its children one behind the other. -/
structure Part.WellNested (text : Text) (part : Part) : Prop where
  nonneg : 0 ≤ part.span.length
  inText : part.span.stop ≤ text.length
  within : ∀ child ∈ part.children, child.span.Within part.span
  ordered : part.children.Pairwise fun child next => child.span.stop ≤ next.span.offset
  colon : ∀ p, part = .property p → ∀ c, p.colon = some c → p.ColonAt text c

/-- The text from which a document is composed has its length, and its colons. -/
theorem Document.length_sourceOf
    (language : Language) (t : Text) :
    (sourceOf language t).length = t.length := by
  cases language with
  | json => exact List.length_map _
  | yaml => rfl

theorem Document.colon_of_sourceOf
    {language : Language} {t : Text} {c : Nat}
    (h : (sourceOf language t)[c]? = some ((':' : Char) : CodePoint)) :
    t[c]? = some ((':' : Char) : CodePoint) := by
  cases language with
  | yaml => exact h
  | json =>
      rw [sourceOf, Text.replacePoint, List.getElem?_map] at h
      obtain ⟨x, hx, hcolon⟩ := Option.map_eq_some_iff.mp h
      split at hcolon
      · exact absurd hcolon (by decide)
      · rw [hx, hcolon]

/-- Stretches that end before the next one starts end before every later one starts. -/
theorem pairwise_of_isChain
    {α : Type} {start stop : α → Nat} {l : List α} (h : l.IsChain fun a b => stop a ≤ start b)
    (hl : ∀ a ∈ l, start a ≤ stop a) :
    l.Pairwise fun a b => stop a ≤ start b := by
  let InOrder (a b : α) : Prop := stop a ≤ start b ∧ start b ≤ stop b
  have hchain : l.IsChain InOrder := h.imp_of_mem_imp fun a b _ hb hab => ⟨hab, hl b hb⟩
  have htrans : Trans InOrder InOrder InOrder :=
    ⟨fun hab hbc => ⟨(hab.1.trans hab.2).trans hbc.1, hbc.2⟩⟩
  exact (List.isChain_iff_pairwise.mp hchain).imp fun hab => hab.1

/-- What belongs to elements in order is in order. -/
theorem pairwise_of_forall₂
    {α β : Type} {R : α → β → Prop} {l : List α} {bs : List β}
    {S : α → α → Prop} {T : β → β → Prop} (h : List.Forall₂ R l bs) (hl : l.Pairwise S)
    (hST : ∀ a a' b b', R a b → R a' b' → S a a' → T b b') :
    bs.Pairwise T := by
  induction h with
  | nil => exact List.Pairwise.nil
  | cons hab hrest ih =>
      obtain ⟨hfirst, hl⟩ := List.pairwise_cons.mp hl
      refine List.pairwise_cons.mpr ⟨fun b' hb' => ?_, ih hl⟩
      obtain ⟨a', ha', hab'⟩ := exists_of_forall₂ hrest.flip hb'
      exact hST _ a' _ b' hab hab' (hfirst a' ha')

/-- Children that keep to stretches in order lie one behind the other. -/
theorem Part.children_ordered
    {α : Type} (start stop : α → Nat) {l : List α} {children : List Part} {outer : Span}
    (h : List.Forall₂
      (fun a child => child.span.offset = start a ∧ child.span.stop ≤ (stop a : Int)) l children)
    (hinside : ∀ a ∈ l, outer.offset ≤ start a ∧ start a ≤ stop a ∧ (stop a : Int) ≤ outer.stop)
    (hchain : l.IsChain fun a b => stop a ≤ start b) :
    (∀ child ∈ children, child.span.Within outer) ∧
      children.Pairwise fun child next => child.span.stop ≤ next.span.offset := by
  refine ⟨fun child hchild => ?_, ?_⟩
  · obtain ⟨a, ha, hstart, hstop⟩ := exists_of_forall₂ h.flip hchild
    obtain ⟨hleft, -, hright⟩ := hinside a ha
    exact ⟨hleft.trans_eq hstart.symm, hstop.trans hright⟩
  · refine pairwise_of_forall₂ h (pairwise_of_isChain hchain fun a ha => (hinside a ha).2.1) ?_
    intro a a' child child' hchild hchild' hstretches
    rw [hchild'.1]
    exact hchild.2.trans (Int.ofNat_le.mpr hstretches)

namespace Markup

/-! ## Marks -/

/-- The marks of a node are in order, and they lie within those of another node. -/
def Node.Inside (inner outer : Node) : Prop :=
  outer.start ≤ inner.start ∧ inner.start ≤ inner.stop ∧ inner.stop ≤ outer.stop

/-- The nodes in a collection lie within it, every key ends before its value, and everything ends
before the next item or entry. -/
def Content.InOrder (g : Graph) (node : Node) : Content → Prop
  | .scalar _ _ _ => True
  | .sequence items =>
    (∀ item ∈ items, (g.node item).Inside node) ∧
      items.IsChain fun item next => (g.node item).stop ≤ (g.node next).start
  | .mapping entries =>
    (∀ entry ∈ entries, (g.node entry.1).Inside node ∧ (g.node entry.2).Inside node ∧
        (g.node entry.1).stop ≤ (g.node entry.2).start) ∧
      entries.IsChain fun entry next => (g.node entry.2).stop ≤ (g.node next.1).start

/-- Whether the marks in a collection are in order can be checked. -/
instance (g : Graph) (node : Node) : ∀ content : Content, Decidable (content.InOrder g node)
  | .scalar _ _ _ => inferInstanceAs (Decidable True)
  | .sequence items =>
    inferInstanceAs (Decidable ((∀ item ∈ items, _ ∧ _ ∧ _) ∧ items.IsChain _))
  | .mapping entries =>
    inferInstanceAs (Decidable ((∀ entry ∈ entries, (_ ∧ _ ∧ _) ∧ (_ ∧ _ ∧ _) ∧ _) ∧
      entries.IsChain _))

namespace Graph

/-- All marks that are reached from the root are nested and in order, and they lie in a text. -/
structure MarksNested (g : Graph) (source : Text) : Prop where
  ordered : (g.node g.root).start ≤ (g.node g.root).stop
  inText : (g.node g.root).stop ≤ source.length
  inOrder : ∀ id, Relation.ReflTransGen g.Holds g.root id →
    (g.node id).content.InOrder g (g.node id)

variable {g : Graph} {source : Text} {depth : Nat} {around : List Nat} {id : Nat} {t : Tree}

/-- The parts of a collection are inside of it. -/
theorem inside_of_holds
    (h : (g.node id).content.InOrder g (g.node id)) {part : Nat} (hpart : g.Holds id part) :
    (g.node part).Inside (g.node id) := by
  unfold Holds parts at hpart
  cases hcontent : (g.node id).content with
  | scalar tag text style =>
      rw [hcontent] at hpart
      cases hpart
  | sequence items =>
      rw [hcontent] at h hpart
      exact h.1 part hpart
  | mapping entries =>
      rw [hcontent] at h hpart
      obtain ⟨entry, hentry, rfl⟩ := List.mem_map.mp hpart
      exact (h.1 entry hentry).2.1

/-- Whatever is reached from the root is inside of it. -/
theorem MarksNested.inside_root
    (h : g.MarksNested source) (hreach : Relation.ReflTransGen g.Holds g.root id) :
    (g.node id).Inside (g.node g.root) := by
  induction hreach with
  | refl => exact ⟨le_rfl, h.ordered, le_rfl⟩
  | tail hway hpart ih =>
      obtain ⟨hstart, hordered, hstop⟩ := inside_of_holds (h.inOrder _ hway) hpart
      exact ⟨ih.1.trans hstart, hordered, hstop.trans ih.2.2⟩

/-! ## The spans of trees and properties -/

/-- A property that was made from an entry, and whose value was unrolled from that of the entry. -/
def UnrolledFrom (g : Graph) (source : Text) (entry : Nat × Nat) (p : Property Tree) : Prop :=
  g.MadeFrom source entry p ∧
    ∀ u, p.value = some u → ∃ depth around, g.unroll source depth around entry.2 = .ok u

/-- A tree is a leaf, or its parts were unrolled from the parts of a collection. -/
inductive Unrolled (g : Graph) (source : Text) (id : Nat) (t : Tree) : Prop
  | leaf (h : (Part.tree t).children = [])
  | items {items : List Nat} {trees : List Tree} (hcontent : (g.node id).content = .sequence items)
      (htree : t = .array (spanOf (g.node id)) trees)
      (hitems : List.Forall₂ (fun item u => ∃ depth around,
        g.unroll source depth around item = .ok u) items trees)
  | entries {entries : List (Nat × Nat)} {properties : List (Property Tree)}
      (hcontent : (g.node id).content = .mapping entries)
      (htree : t = .object (spanOf (g.node id)) properties)
      (hentries : List.Forall₂ (g.UnrolledFrom source) entries properties)

/-- Whatever a node is unrolled to has the span of its marks. -/
theorem unrolled_of_unroll
    (h : g.unroll source depth around id = .ok t) :
    t.span = spanOf (g.node id) ∧ g.Unrolled source id t := by
  cases depth with
  | zero =>
      cases h
      exact ⟨rfl, .leaf rfl⟩
  | succ depth =>
      rw [unroll] at h
      dsimp only at h
      split at h
      · cases h
        exact ⟨rfl, .leaf rfl⟩
      · cases hcontent : (g.node id).content with
        | scalar tag text style =>
            rw [hcontent] at h
            obtain ⟨hspan, hleaf⟩ := span_of_scalarTree h
            exact ⟨hspan, .leaf hleaf⟩
        | sequence items =>
            rw [hcontent] at h
            obtain ⟨trees, htrees, rfl⟩ := exists_of_map_eq_ok h
            have hall := (forall₂_of_mapM htrees).imp fun item u hu =>
              (⟨depth, id :: around, hu⟩ : ∃ depth around,
                g.unroll source depth around item = .ok u)
            exact ⟨rfl, .items hcontent rfl hall⟩
        | mapping entries =>
            rw [hcontent] at h
            obtain ⟨properties, hproperties, rfl⟩ := exists_of_map_eq_ok h
            refine ⟨rfl, .entries hcontent rfl ((forall₂_of_mapM hproperties).imp ?_)⟩
            intro entry p hp
            obtain ⟨hmade, hvalue⟩ := madeFrom_of_unroll hp
            refine ⟨hmade, fun u hu => ?_⟩
            have htyped : (g.node entry.2).content.isUntyped = false := by
              rw [Bool.eq_false_iff]
              intro huntyped
              rw [hmade.2.mpr huntyped] at hu
              cases hu
            obtain ⟨v, hv, hunroll⟩ := hvalue htyped
            cases hv.symm.trans hu
            exact ⟨depth, id :: around, hunroll⟩

/-- The colon of a property stands between its key and its value. -/
theorem colonBetween_bounds
    {key value : Node} {c : Nat} (h : colonBetween source key value = some c) :
    source[c]? = some ((':' : Char) : CodePoint) ∧ key.stop ≤ c ∧ c < value.start := by
  obtain ⟨i, hi, rfl⟩ := Option.map_eq_some_iff.mp h
  obtain ⟨hlt, hcolon, -⟩ := List.findIdx?_eq_some_iff_getElem.mp hi
  have hlength := hlt
  rw [Text.slice, List.length_take, List.length_drop] at hlength
  refine ⟨?_, Nat.le_add_right _ _, by omega⟩
  simp only [Text.slice, List.getElem_take, List.getElem_drop, beq_iff_eq] at hcolon
  rw [← hcolon]
  exact List.getElem?_eq_getElem (by omega)

theorem stop_propertySpan
    (key : Node) (colon : Option Nat) (valueStop : Option Int) :
    (propertySpan key colon valueStop).stop =
      valueStop.getD ((colon.map fun (c : Nat) => (c : Int) + 1).getD key.stop) := by
  unfold propertySpan Span.stop
  cases valueStop with
  | some stop =>
      dsimp only [Option.getD_some]
      omega
  | none =>
      cases colon with
      | some c =>
          dsimp only [Option.getD_none, Option.map_some, Option.getD_some]
          omega
      | none =>
          dsimp only [Option.getD_none, Option.map_none]
          omega

/-- A property ends where its value, its colon or its key ends. -/
theorem stop_property
    (key value : Node) (tree : Option Tree) :
    (property source key value tree).span.stop = (tree.map fun t => t.span.stop).getD
      (((colonBetween source key value).map fun (c : Nat) => (c : Int) + 1).getD key.stop) :=
  stop_propertySpan key _ _

/-- A property with a value ends where the value ends. -/
theorem property_stop_some
    (key value : Node) (u : Tree) :
    (property source key value (some u)).span.stop = u.span.stop :=
  stop_property key value (some u)

/-- A property reaches at least to the end of its key and at most to the end of its value. -/
theorem property_stop
    {key value : Node} {tree : Option Tree} (hkey : key.stop ≤ value.start)
    (hvalue : value.start ≤ value.stop) (htree : ∀ u, tree = some u → u.span = spanOf value) :
    (key.stop : Int) ≤ (property source key value tree).span.stop ∧
      (property source key value tree).span.stop ≤ value.stop := by
  cases tree with
  | some u =>
      rw [property_stop_some, htree u rfl, spanOf, Span.stop_between]
      omega
  | none =>
      rw [stop_property]
      cases hcolon : colonBetween source key value with
      | some c =>
          obtain ⟨-, hafter, hbefore⟩ := colonBetween_bounds hcolon
          dsimp only [Option.map_none, Option.map_some, Option.getD_none, Option.getD_some]
          omega
      | none =>
          dsimp only [Option.map_none, Option.getD_none]
          omega

theorem property_colonAt
    {key value : Node} {tree : Option Tree} {c : Nat} (hkey : key.start ≤ key.stop)
    (hvalue : value.start ≤ value.stop) (htree : ∀ u, tree = some u → u.span = spanOf value)
    (hcolon : (property source key value tree).colon = some c) :
    (property source key value tree).ColonAt source c := by
  have hbetween : colonBetween source key value = some c := hcolon
  obtain ⟨hisColon, hafter, hbefore⟩ := colonBetween_bounds hbetween
  refine ⟨hisColon, ?_, ⟨hkey.trans hafter, ?_⟩, fun u hu => ?_⟩
  · have hstop : (property source key value tree).key.span.stop = key.stop :=
      Span.stop_between _ _
    rw [hstop]
    exact Int.ofNat_le.mpr hafter
  · cases tree with
    | none =>
        rw [stop_property, hbetween]
        dsimp only [Option.map_none, Option.map_some, Option.getD_none, Option.getD_some]
        omega
    | some u =>
        rw [property_stop_some, htree u rfl, spanOf, Span.stop_between]
        omega
  · rw [htree u hu]
    exact hbefore

/-! ## All parts -/

/-- Where a part of a tree comes from: from a node that is reached, from an entry of such a node, or
from its key. -/
inductive Stems (g : Graph) (source : Text) : Part → Prop
  | tree {id depth : Nat} {around : List Nat} {u : Tree}
      (hreach : Relation.ReflTransGen g.Holds g.root id)
      (hunroll : g.unroll source depth around id = .ok u) : Stems g source (.tree u)
  | property {id : Nat} {entries : List (Nat × Nat)} {entry : Nat × Nat} {p : Property Tree}
      (hreach : Relation.ReflTransGen g.Holds g.root id)
      (hcontent : (g.node id).content = .mapping entries) (hentry : entry ∈ entries)
      (hfrom : g.UnrolledFrom source entry p) : Stems g source (.property p)
  | key {id : Nat} {entries : List (Nat × Nat)} {entry : Nat × Nat} {k : Key}
      (hreach : Relation.ReflTransGen g.Holds g.root id)
      (hcontent : (g.node id).content = .mapping entries) (hentry : entry ∈ entries)
      (hspan : k.span = spanOf (g.node entry.1)) : Stems g source (.key k)

/-- The parts directly inside of a part come from the graph as it does. -/
theorem Stems.child
    {part child : Part} (h : Stems g source part) (hchild : child ∈ part.children) :
    Stems g source child := by
  cases h with
  | @tree id depth around u hreach hunroll =>
      cases (unrolled_of_unroll hunroll).2 with
      | leaf hleaf =>
          rw [hleaf] at hchild
          cases hchild
      | items hcontent htree hitems =>
          rw [htree] at hchild
          obtain ⟨v, hv, rfl⟩ := List.mem_map.mp hchild
          obtain ⟨item, hitem, depth, around, hunroll⟩ := exists_of_forall₂ hitems.flip hv
          have hholds : g.Holds id item := by
            rw [Holds, parts, hcontent]
            exact hitem
          exact .tree (hreach.tail hholds) hunroll
      | entries hcontent htree hentries =>
          rw [htree] at hchild
          obtain ⟨p, hp, rfl⟩ := List.mem_map.mp hchild
          obtain ⟨entry, hentry, hfrom⟩ := exists_of_forall₂ hentries.flip hp
          exact .property hreach hcontent hentry hfrom
  | @property id entries entry p hreach hcontent hentry hfrom =>
      rcases List.mem_cons.mp hchild with rfl | hchild
      · refine .key hreach hcontent hentry ?_
        rw [hfrom.1.1]
        rfl
      · obtain ⟨u, hu, rfl⟩ := Option.map_eq_some_iff.mp (Option.mem_toList.mp hchild)
        obtain ⟨depth, around, hunroll⟩ := hfrom.2 u hu
        have hholds : g.Holds id entry.2 := by
          rw [Holds, parts, hcontent]
          exact List.mem_map_of_mem hentry
        exact .tree (hreach.tail hholds) hunroll
  | key hreach hcontent hentry hspan => cases hchild

/-- Every part of the tree of a graph comes from the graph. -/
theorem stems_of_hasPart
    (ht : g.toTree source = .ok t) {part : Part} (hpart : t.HasPart part) :
    Stems g source part := by
  induction hpart with
  | refl => exact .tree .refl ((g.toTree_eq_unroll source).symm.trans ht)
  | tail _ hchild ih => exact ih.child hchild

/-! ## All spans -/

theorem UnrolledFrom.span_value
    {entry : Nat × Nat} {p : Property Tree} (h : g.UnrolledFrom source entry p) :
    ∀ u, p.value = some u → u.span = spanOf (g.node entry.2) := by
  intro u hu
  obtain ⟨depth, around, hunroll⟩ := h.2 u hu
  exact (unrolled_of_unroll hunroll).1

/-- A property starts with its key and lies within its entry. -/
theorem UnrolledFrom.span
    {entry : Nat × Nat} {p : Property Tree} (h : g.UnrolledFrom source entry p)
    (horder : (g.node entry.1).stop ≤ (g.node entry.2).start)
    (hvalue : (g.node entry.2).start ≤ (g.node entry.2).stop) :
    p.span.offset = (g.node entry.1).start ∧ (g.node entry.1).stop ≤ p.span.stop ∧
      p.span.stop ≤ (g.node entry.2).stop := by
  have hstop : (g.node entry.1).stop ≤ p.span.stop ∧ p.span.stop ≤ (g.node entry.2).stop := by
    rw [h.1.1]
    exact property_stop horder hvalue h.span_value
  refine ⟨?_, hstop⟩
  rw [h.1.1]
  rfl

/-- A property holds its key, then its colon, then its value, as far as they are there. -/
theorem UnrolledFrom.wellNested
    {entry : Nat × Nat} {p : Property Tree} (h : g.UnrolledFrom source entry p)
    (hkey : (g.node entry.1).start ≤ (g.node entry.1).stop)
    (horder : (g.node entry.1).stop ≤ (g.node entry.2).start)
    (hvalue : (g.node entry.2).start ≤ (g.node entry.2).stop)
    (htext : (g.node entry.2).stop ≤ source.length) :
    (Part.property p).WellNested source := by
  obtain ⟨hoffset, hafter, hbefore⟩ := h.span horder hvalue
  have hends : p.span.stop = p.span.offset + p.span.length := rfl
  have hkeySpan : p.key.span = Span.between (g.node entry.1).start (g.node entry.1).stop := by
    rw [h.1.1]
    rfl
  -- the value is there or not; if it is, it ends the property
  have hvalueSpan : ∀ u, p.value = some u →
      u.span = Span.between (g.node entry.2).start (g.node entry.2).stop ∧
        p.span.stop = u.span.stop := by
    intro u hu
    refine ⟨h.span_value u hu, ?_⟩
    have hp := h.1.1
    rw [hu] at hp
    rw [hp, property_stop_some]
  refine ⟨?_, ?_, fun child hchild => ?_, ?_, fun q hq c hc => ?_⟩
  · rw [Part.span]
    omega
  · rw [Part.span]
    omega
  · rcases List.mem_cons.mp hchild with rfl | hchild
    · refine ⟨?_, ?_⟩
      · rw [Part.span, Part.span, hkeySpan, hoffset]
        exact le_rfl
      · rwa [Part.span, Part.span, hkeySpan, Span.stop_between]
    · obtain ⟨u, hu, rfl⟩ := Option.map_eq_some_iff.mp (Option.mem_toList.mp hchild)
      obtain ⟨hspan, hstop⟩ := hvalueSpan u hu
      refine ⟨?_, hstop.ge⟩
      rw [Part.span, Part.span, hspan, hoffset]
      exact hkey.trans horder
  · refine List.pairwise_cons.mpr ⟨fun child hchild => ?_, ?_⟩
    · obtain ⟨u, hu, rfl⟩ := Option.map_eq_some_iff.mp (Option.mem_toList.mp hchild)
      rw [Part.span, Part.span, hkeySpan, Span.stop_between, (hvalueSpan u hu).1]
      exact Int.ofNat_le.mpr horder
    · cases p.value with
      | none => exact List.Pairwise.nil
      | some u => exact List.pairwise_singleton _ _
  · cases hq
    have hcolon := hc
    rw [h.1.1] at hcolon
    rw [h.1.1]
    exact property_colonAt hkey hvalue h.span_value hcolon

/-- The spans directly inside of a tree are in order. -/
theorem children_of_unrolled
    (hinOrder : (g.node id).content.InOrder g (g.node id)) (h : g.Unrolled source id t) :
    (∀ child ∈ (Part.tree t).children, child.span.Within (spanOf (g.node id))) ∧
      (Part.tree t).children.Pairwise fun child next => child.span.stop ≤ next.span.offset := by
  have hright : (spanOf (g.node id)).stop = (g.node id).stop := Span.stop_between _ _
  cases h with
  | leaf hleaf =>
      rw [hleaf]
      exact ⟨nofun, List.Pairwise.nil⟩
  | items hcontent htree hitems =>
      rw [hcontent] at hinOrder
      obtain ⟨hinside, hchain⟩ := hinOrder
      rw [htree]
      refine Part.children_ordered (fun item => (g.node item).start)
        (fun item => (g.node item).stop) (List.forall₂_map_right_iff.mpr (hitems.imp ?_))
        (fun item hitem => ?_) hchain
      · rintro item u ⟨depth, around, hunroll⟩
        rw [Part.span, (unrolled_of_unroll hunroll).1]
        exact ⟨rfl, (Span.stop_between _ _).le⟩
      · obtain ⟨hleft, hordered, hstop⟩ := hinside item hitem
        rw [hright]
        exact ⟨hleft, hordered, Int.ofNat_le.mpr hstop⟩
  | entries hcontent htree hentries =>
      rw [hcontent] at hinOrder
      obtain ⟨hinside, hchain⟩ := hinOrder
      rw [htree]
      refine Part.children_ordered (fun entry : Nat × Nat => (g.node entry.1).start)
        (fun entry => (g.node entry.2).stop) (List.forall₂_map_right_iff.mpr ?_)
        (fun entry hentry => ?_) hchain
      · refine ((List.forall₂_and_left _ _).mpr ⟨hinside, hentries⟩).imp ?_
        rintro entry p ⟨⟨-, hvalue, horder⟩, hfrom⟩
        obtain ⟨hoffset, -, hstop⟩ := hfrom.span horder hvalue.2.1
        exact ⟨hoffset, hstop⟩
      · obtain ⟨hkey, hvalue, horder⟩ := hinside entry hentry
        rw [hright]
        exact ⟨hkey.1, hkey.2.1.trans (horder.trans hvalue.2.1), Int.ofNat_le.mpr hvalue.2.2⟩

/-- Every part that comes from a graph with nested marks is well nested. -/
theorem Stems.wellNested
    (hmarks : g.MarksNested source) {part : Part} (h : Stems g source part) :
    part.WellNested source := by
  have hlength := hmarks.inText
  cases h with
  | @tree id depth around u hreach hunroll =>
      obtain ⟨-, hordered, hstop⟩ := hmarks.inside_root hreach
      obtain ⟨hspan, hparts⟩ := unrolled_of_unroll hunroll
      obtain ⟨hwithin, hchildren⟩ := children_of_unrolled (hmarks.inOrder id hreach) hparts
      have hpart : (Part.tree u).span = Span.between (g.node id).start (g.node id).stop := hspan
      refine ⟨?_, ?_, ?_, hchildren, nofun⟩
      · rw [hpart, Span.length_between]
        omega
      · rw [hpart, Span.stop_between]
        omega
      · rw [hpart]
        exact hwithin
  | @property id entries entry p hreach hcontent hentry hfrom =>
      obtain ⟨-, -, hstop⟩ := hmarks.inside_root hreach
      have hinOrder := hmarks.inOrder id hreach
      rw [hcontent] at hinOrder
      obtain ⟨hkey, hvalue, horder⟩ := hinOrder.1 entry hentry
      exact hfrom.wellNested hkey.2.1 horder hvalue.2.1 (hvalue.2.2.trans (hstop.trans hlength))
  | @key id entries entry k hreach hcontent hentry hspan =>
      obtain ⟨-, -, hstop⟩ := hmarks.inside_root hreach
      have hinOrder := hmarks.inOrder id hreach
      rw [hcontent] at hinOrder
      obtain ⟨-, hordered, hinside⟩ := (hinOrder.1 entry hentry).1
      have hpart : (Part.key k).span = Span.between _ _ := hspan
      refine ⟨?_, ?_, nofun, List.Pairwise.nil, nofun⟩
      · rw [hpart, Span.length_between]
        omega
      · rw [hpart, Span.stop_between]
        omega

/-- The text that is composed differs from that of the document in its tabs only. -/
theorem wellNested_of_source
    {language : Language} {text : Text} {part : Part}
    (h : part.WellNested (Document.sourceOf language text)) :
    part.WellNested text where
  nonneg := h.nonneg
  inText := by
    rw [← Document.length_sourceOf language text]
    exact h.inText
  within := h.within
  ordered := h.ordered
  colon p hp c hc :=
    let hcolon := h.colon p hp c hc
    ⟨Document.colon_of_sourceOf hcolon.isColon, hcolon.afterKey, hcolon.inside,
      hcolon.beforeValue⟩

/-- Where the marks of a graph are nested and in order, so is the tree that it becomes: no span has
a negative length, every part lies within the part around it, and the parts directly inside of a
part stand one behind the other.  A property has its colon, if any, at a colon of the text, behind
its key, inside of itself and in front of its value. -/
theorem toTree_wellNested
    {g : Graph} {language : Language} {text : Text} {t : Tree}
    (hmarks : g.MarksNested (Document.sourceOf language text))
    (ht : g.toTree (Document.sourceOf language text) = .ok t) :
    ∀ part, t.HasPart part → part.WellNested text := by
  intro part hpart
  exact wellNested_of_source ((stems_of_hasPart ht hpart).wellNested hmarks)

end Graph

end Markup

/-- A text with a tab, a value that has not been typed, a key without a colon and a list as a
key. -/
def gappyText : Text :=
  "\x7b\"a\":\t[1, \x7b\"b\": \x7d],\n \"c\", ? [x] : y, \"d\": null\x7d"

theorem toTree_wellNested_gappy :
    ∃ g t, Document.composed .json gappyText = .ok (some g) ∧
      g.MarksNested (Document.sourceOf .json gappyText) ∧
      g.toTree (Document.sourceOf .json gappyText) = .ok t ∧
      (t.properties?.map fun properties => properties.map Property.colon) =
        some [some 4, none, some 32, some 40] ∧
      ∀ part, t.HasPart part → part.WellNested gappyText := by
  have hfacts : ((Document.composed .json gappyText).toOption.any fun composed =>
      composed.any fun g =>
        decide ((g.node g.root).start ≤ (g.node g.root).stop ∧
          (g.node g.root).stop ≤ (Document.sourceOf .json gappyText).length ∧
          ∀ id < g.nodes.size, (g.node id).content.InOrder g (g.node id)) &&
        (g.toTree (Document.sourceOf .json gappyText)).toOption.any fun t =>
          decide ((t.properties?.map fun properties => properties.map Property.colon) =
            some [some 4, none, some 32, some 40])) = true := by
    decide +kernel
  cases hcomposed : Document.composed .json gappyText with
  | error problem =>
      rw [hcomposed] at hfacts
      cases hfacts
  | ok composed =>
      rw [hcomposed, Except.toOption, Option.any_some] at hfacts
      obtain ⟨g, rfl, hfacts⟩ := (Option.any_eq_true _ _).mp hfacts
      obtain ⟨hgraph, hfacts⟩ := (Bool.and_eq_true _ _).mp hfacts
      obtain ⟨hordered, htext, hnodes⟩ := of_decide_eq_true hgraph
      have hmarks : g.MarksNested (Document.sourceOf .json gappyText) := by
        refine ⟨hordered, htext, fun id _ => ?_⟩
        rcases Nat.lt_or_ge id g.nodes.size with hid | hid
        · exact hnodes id hid
        · rw [Markup.Graph.node, Array.getElem?_eq_none hid]
          trivial
      cases ht : g.toTree (Document.sourceOf .json gappyText) with
      | error fault =>
          rw [ht] at hfacts
          cases hfacts
      | ok t =>
          rw [ht, Except.toOption, Option.any_some] at hfacts
          exact ⟨g, t, rfl, hmarks, ht, of_decide_eq_true hfacts,
            Markup.Graph.toTree_wellNested hmarks ht⟩

end Workflow
