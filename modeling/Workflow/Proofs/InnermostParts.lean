import Mathlib.Data.List.Pairwise
import Workflow.Proofs.FieldContexts
import Workflow.Proofs.NestedSpans

/-!
# The innermost part at a location

The part at a location is searched from the root down.  The search enters the first part directly
inside that contains the location, both ends of a span included, and never turns back.  Where every
part lies within the part around it and no two parts side by side share a location, the parts that
contain a location stand one inside of the other.  The search follows them down to the last one, so
they are exactly the part that is found and the parts around it.
-/

namespace Workflow

/-! ## Spans as sets of locations -/

namespace Span

variable {s s' inner outer : Span} {location : Int}

/-- Every location of the inner span lies in the outer one. -/
def Encloses (outer inner : Span) : Prop :=
  ∀ location, inner.contains location = true → outer.contains location = true

/-- No location lies in both spans. -/
def Apart (s s' : Span) : Prop :=
  ∀ location, s.contains location = true → s'.contains location = false

theorem contains_iff :
    s.contains location = true ↔ (s.offset : Int) ≤ location ∧ location ≤ s.stop := by
  rw [contains, Bool.and_eq_true, decide_eq_true_eq, decide_eq_true_eq]

theorem Apart.symm
    (h : s.Apart s') :
    s'.Apart s := by
  intro location hlocation
  rw [Bool.eq_false_iff]
  intro hboth
  rw [h location hboth] at hlocation
  cases hlocation

/-- A span with a negative length has no location; any other one is enclosed by its ends. -/
theorem encloses_iff :
    outer.Encloses inner ↔ inner.length < 0 ∨ inner.Within outer := by
  simp only [Encloses, contains_iff, Within, stop]
  constructor
  · intro h
    by_cases hlength : inner.length < 0
    · exact Or.inl hlength
    · have hfirst := h inner.offset (by omega)
      have hlast := h (inner.offset + inner.length) (by omega)
      omega
  · rintro h location hlocation
    omega

/-- Two spans that have locations are apart where one ends before the other one begins. -/
theorem apart_iff :
    s.Apart s' ↔
      s.length < 0 ∨ s'.length < 0 ∨ s.stop < s'.offset ∨ s'.stop < s.offset := by
  simp only [Apart, Bool.eq_false_iff, ne_eq, contains_iff, stop]
  constructor
  · intro h
    have hfirst := h s.offset
    have hlater := h s'.offset
    omega
  · rintro h location hlocation hboth
    omega

instance (outer inner : Span) : Decidable (outer.Encloses inner) :=
  haveI : Decidable (inner.Within outer) :=
    inferInstanceAs (Decidable (outer.offset ≤ inner.offset ∧ inner.stop ≤ outer.stop))
  decidable_of_iff _ encloses_iff.symm

instance (s s' : Span) : Decidable (s.Apart s') := decidable_of_iff _ apart_iff.symm

end Span

/-- The spans directly inside of a part lie within it and apart from each other. -/
structure Part.Laminar (part : Part) : Prop where
  enclosed : ∀ child ∈ part.children, part.span.Encloses child.span
  apart : part.children.Pairwise fun child other => child.span.Apart other.span

instance (part : Part) : Decidable part.Laminar :=
  decidable_of_iff ((∀ child ∈ part.children, part.span.Encloses child.span) ∧
      part.children.Pairwise fun child other => child.span.Apart other.span)
    ⟨fun h => ⟨h.1, h.2⟩, fun h => ⟨h.enclosed, h.apart⟩⟩

/-- All spans of a tree lie one within the other or apart. -/
def Tree.Laminar (t : Tree) : Prop := ∀ part, t.HasPart part → part.Laminar

/-- Whether all spans of a part lie one within the other or apart, as far as some levels reach; a
part with more levels fails the check. -/
def Part.nestsWithin : Nat → Part → Bool
  | 0, _ => false
  | levels + 1, part => decide part.Laminar && part.children.all (nestsWithin levels)

theorem Part.laminar_of_nestsWithin
    {levels : Nat} {part inner : Part} (h : part.nestsWithin levels = true)
    (hinner : Relation.ReflTransGen (fun a b : Part => b ∈ a.children) part inner) :
    inner.Laminar := by
  induction levels generalizing part with
  | zero => cases h
  | succ levels ih =>
      rw [nestsWithin, Bool.and_eq_true, decide_eq_true_eq, List.all_eq_true] at h
      obtain ⟨hhere, hchildren⟩ := h
      rcases hinner.cases_head with rfl | ⟨child, hchild, hinner⟩
      · exact hhere
      · exact ih (hchildren child hchild) hinner

namespace Focus

variable {location : Int} {f g child : Focus}

/-- The first place directly inside that contains a location. -/
def firstAt? (f : Focus) (location : Int) : Option Focus :=
  f.children.find? fun child => child.part.span.contains location

theorem holds_of_firstAt?_some
    (h : f.firstAt? location = some child) :
    Holds f child ∧ child.part.span.contains location = true :=
  ⟨List.mem_of_find?_eq_some h, (List.find?_some h :)⟩

/-- Where a search that has come to a place ends: it enters the first place directly inside that
contains the location, as long as there is one. -/
inductive Descends (location : Int) : Focus → Focus → Prop
  | here
      {f : Focus} (hnone : f.firstAt? location = none) :
      Descends location f f
  | enter
      {f child g : Focus} (hfirst : f.firstAt? location = some child)
      (hrest : Descends location child g) :
      Descends location f g

/-! ## What is found is where the search ends -/

/-- A search from a place goes on as the searches in what is directly inside do. -/
theorem Descends.of_rel
    {found : Option Focus} (h : Option.Rel (Descends location) (f.firstAt? location) found) :
    Descends location f (found.getD f) := by
  cases hfirst : f.firstAt? location with
  | none =>
      rw [hfirst] at h
      cases h
      exact .here hfirst
  | some child =>
      rw [hfirst] at h
      cases h with
      | some hrest => exact .enter hfirst hrest

mutual

theorem descends_innermost
    (location : Int) :
    ∀ (t : Tree) (above : List (Part × Nat)),
      Descends location ⟨.tree t, above⟩ (innermost location above t)
  | .array span items, above => by
      rw [innermost]
      refine Descends.of_rel ?_
      rw [firstAt?, children_of_items rfl rfl]
      exact descends_innermostItem location (.tree (.array span items)) above items 0
  | .object span properties, above => by
      rw [innermost]
      refine Descends.of_rel ?_
      rw [firstAt?, children_of_properties rfl rfl]
      exact descends_innermostProperty location (.tree (.object span properties)) above properties 0
  | .null _, _ => .here rfl
  | .boolean _ _, _ => .here rfl
  | .number _ _, _ => .here rfl
  | .string _ _, _ => .here rfl

theorem descends_innermostItem
    (location : Int) (part : Part) (above : List (Part × Nat)) :
    ∀ (items : List Tree) (i : Nat),
      Option.Rel (Descends location)
        (((items.zipIdx i).map fun x => (⟨.tree x.1, (part, x.2) :: above⟩ : Focus)).find?
          fun child => child.part.span.contains location)
        (innermostItem location part above i items)
  | [], _ => Option.Rel.none
  | t :: items, i => by
      rw [innermostItem, List.zipIdx_cons, List.map_cons]
      by_cases ht : t.span.contains location = true
      · rw [if_pos ht, List.find?_cons_of_pos (by exact ht)]
        exact Option.Rel.some (descends_innermost location t ((part, i) :: above))
      · rw [if_neg ht, List.find?_cons_of_neg (by exact ht)]
        exact descends_innermostItem location part above items (i + 1)

theorem descends_innermostProperty
    (location : Int) (part : Part) (above : List (Part × Nat)) :
    ∀ (properties : List (Property Tree)) (i : Nat),
      Option.Rel (Descends location)
        (((properties.zipIdx i).map fun x => (⟨.property x.1, (part, x.2) :: above⟩ : Focus)).find?
          fun child => child.part.span.contains location)
        (innermostProperty location part above i properties)
  | [], _ => Option.Rel.none
  | ⟨span, key, colon, value⟩ :: properties, i => by
      rw [innermostProperty.eq_def, List.zipIdx_cons, List.map_cons]
      dsimp only
      by_cases hspan : span.contains location = true
      · rw [if_pos hspan, List.find?_cons_of_pos (by exact hspan)]
        -- inside of a property stand its key and, if it has been typed, its value
        by_cases hkey : key.span.contains location = true
        · rw [if_pos hkey]
          refine Option.Rel.some (.enter ?_ (.here rfl))
          exact List.find?_cons_of_pos hkey
        · rw [if_neg hkey]
          cases value with
          | none =>
              refine Option.Rel.some (.here ?_)
              exact List.find?_cons_of_neg hkey
          | some t =>
              dsimp only
              by_cases ht : t.span.contains location = true
              · rw [if_pos ht]
                refine Option.Rel.some (.enter ?_ (descends_innermost location t _))
                exact (List.find?_cons_of_neg (by exact hkey)).trans
                  (List.find?_cons_of_pos (by exact ht))
              · rw [if_neg ht]
                refine Option.Rel.some (.here ?_)
                exact (List.find?_cons_of_neg (by exact hkey)).trans
                  (List.find?_cons_of_neg (by exact ht))
      · rw [if_neg hspan, List.find?_cons_of_neg (by exact hspan)]
        exact descends_innermostProperty location part above properties (i + 1)

end

theorem Descends.inside
    (h : Descends location f g) :
    Relation.ReflTransGen Holds f g := by
  induction h with
  | here _ => exact .refl
  | enter hfirst _ ih => exact .head (holds_of_firstAt?_some hfirst).1 ih

/-- A search that starts at a place which contains the location stays at such places. -/
theorem Descends.contains
    (h : Descends location f g) (hf : f.part.span.contains location = true) :
    g.part.span.contains location = true := by
  induction h with
  | here _ => exact hf
  | enter hfirst _ ih => exact ih (holds_of_firstAt?_some hfirst).2

/-! ## The places that contain a location -/

/-- All spans from a place on inwards lie one within the other or apart. -/
def Laminar (f : Focus) : Prop := ∀ g, Relation.ReflTransGen Holds f g → g.part.Laminar

theorem Laminar.inner
    (hf : f.Laminar) (hg : Relation.ReflTransGen Holds f g) :
    g.Laminar := fun place hplace => hf place (hg.trans hplace)

theorem laminar_root
    {t : Tree} (ht : t.Laminar) :
    (root t).Laminar :=
  fun g hg => ht g.part (hg.lift part fun _ _ hholds => hholds.part_mem)

/-- What contains a location is only inside of what contains it too. -/
theorem Laminar.contains_outer
    (hf : f.Laminar) (hg : Relation.ReflTransGen Holds f g)
    (hlocation : g.part.span.contains location = true) :
    f.part.span.contains location = true := by
  induction hg with
  | refl => exact hlocation
  | tail houter hholds ih =>
      exact ih ((hf _ houter).enclosed _ hholds.part_mem location hlocation)

/-- At most one place directly inside contains a location. -/
theorem eq_of_contains
    {other : Focus} (hf : f.part.Laminar) (hchild : Holds f child) (hother : Holds f other)
    (hatChild : child.part.span.contains location = true)
    (hatOther : other.part.span.contains location = true) :
    child = other := by
  have hapart : f.children.Pairwise fun a b => a.part.span.Apart b.part.span := by
    have h := hf.apart
    rwa [← map_part_children, List.pairwise_map] at h
  have hsymm : Std.Symm fun a b : Focus => a.part.span.Apart b.part.span := ⟨fun _ _ h => h.symm⟩
  by_contra hne
  have hfalse := hapart.forall hchild hother hne location hatChild
  rw [hatOther] at hfalse
  cases hfalse

/-- Where the search stops, nothing further inside contains the location. -/
theorem Laminar.eq_of_firstAt?_none
    (hf : f.Laminar) (hnone : f.firstAt? location = none)
    (hg : Relation.ReflTransGen Holds f g) (hlocation : g.part.span.contains location = true) :
    g = f := by
  rcases hg.cases_head with rfl | ⟨child, hchild, hg⟩
  · rfl
  · have hinner := (hf.inner (.single hchild)).contains_outer hg hlocation
    exact absurd hinner (List.find?_eq_none.mp hnone child hchild)

/-- Where the search goes on, everything further inside that contains the location is inside of the
place that it enters. -/
theorem Laminar.inside_of_firstAt?_some
    (hf : f.Laminar) (hfirst : f.firstAt? location = some child)
    (hg : Relation.ReflTransGen Holds f g) (hlocation : g.part.span.contains location = true) :
    g = f ∨ Relation.ReflTransGen Holds child g := by
  rcases hg.cases_head with rfl | ⟨other, hother, hg⟩
  · exact Or.inl rfl
  · have hinner := (hf.inner (.single hother)).contains_outer hg hlocation
    obtain ⟨hchild, hatChild⟩ := holds_of_firstAt?_some hfirst
    cases eq_of_contains (hf f .refl) hchild hother hatChild hinner
    exact Or.inr hg

/-- The search comes through every place that contains the location. -/
theorem Descends.through
    (h : Descends location f g) (hf : f.Laminar) {place : Focus}
    (hplace : Relation.ReflTransGen Holds f place)
    (hlocation : place.part.span.contains location = true) :
    Relation.ReflTransGen Holds place g := by
  induction h with
  | here hnone =>
      rw [hf.eq_of_firstAt?_none hnone hplace hlocation]
  | @enter f child g hfirst hrest ih =>
      have hchild := (holds_of_firstAt?_some hfirst).1
      rcases hf.inside_of_firstAt?_some hfirst hplace hlocation with rfl | hplace
      · exact .head hchild hrest.inside
      · exact ih (hf.inner (.single hchild)) hplace

/-! ## The places around a place -/

theorem parent?_of_holds
    (h : Holds f g) :
    g.parent? = some f := by
  obtain ⟨i, hi⟩ := h.above_eq
  rw [parent?, hi]

/-- In a document, looking upward from a place finds the places that it stands in, and itself. -/
theorem exists_up?_iff
    {t : Tree} {place : Focus} (hg : Relation.ReflTransGen Holds (root t) g) :
    (∃ levels, g.up? levels = some place) ↔ Relation.ReflTransGen Holds place g := by
  constructor
  · rintro ⟨levels, hlevels⟩
    induction levels generalizing g with
    | zero =>
        cases hlevels
        exact .refl
    | succ levels ih =>
        obtain ⟨outer, hparent, hlevels⟩ := Option.bind_eq_some_iff.mp hlevels
        rcases hg.cases_tail with rfl | ⟨e, he, hholds⟩
        · cases hparent
        · cases (parent?_of_holds hholds).symm.trans hparent
          exact (ih he hlevels).tail hholds
  · intro h
    clear hg
    induction h with
    | refl => exact ⟨0, rfl⟩
    | @tail e g _ hholds ih =>
        obtain ⟨levels, hlevels⟩ := ih
        refine ⟨levels + 1, ?_⟩
        rw [up?, parent?_of_holds hholds, Option.bind_some, hlevels]

/-- What is found at a location of a document whose spans lie one within the other or apart.
Nothing is found exactly where the document does not contain the location.  Otherwise the place that
is found stands in the document and contains the location, and the places that contain it are the
one that is found and those around it: nothing further inside does. -/
theorem search_finds_innermost
    {t : Tree} (ht : t.Laminar) (location : Int) :
    (at? (some t) location = none ↔ t.span.contains location = false) ∧
      ∀ f, at? (some t) location = some f →
        Relation.ReflTransGen Holds (root t) f ∧ f.part.span.contains location = true ∧
          ∀ g, Relation.ReflTransGen Holds (root t) g →
            (g.part.span.contains location = true ↔ ∃ levels, f.up? levels = some g) := by
  have hroot := laminar_root ht
  rw [at?]
  split
  · next hcontains =>
      have hsearch := descends_innermost location t []
      refine ⟨⟨nofun, fun hfalse => by rw [hcontains] at hfalse; cases hfalse⟩, ?_⟩
      rintro f hf
      cases hf
      have hfound := hsearch.contains hcontains
      refine ⟨hsearch.inside, hfound, fun g hg => ?_⟩
      rw [exists_up?_iff hsearch.inside]
      exact ⟨hsearch.through hroot hg, fun h => (hroot.inner hg).contains_outer h hfound⟩
  · next hcontains =>
      exact ⟨⟨fun _ => Bool.eq_false_iff.mpr hcontains, fun _ => rfl⟩, nofun⟩

end Focus

/-- A text with an object in an array, and with a key that has no value. -/
def nestedArrayText : Text := "\x7b\"a\": [1, \x7b\"b\": 20\x7d], \"c\"\x7d"

/-- The document of that text. -/
def nestedArrayDocument : Document :=
  match Document.treeOf .json nestedArrayText with
  | .ok (some root) => ⟨nestedArrayText, .json, root, 0⟩
  | _ => ⟨nestedArrayText, .json, none, 0⟩

/-- Behind the last digit of a number, at the end of its span, the number is found. -/
theorem search_finds_innermost_nestedArray :
    ∃ t f, nestedArrayDocument.root = some t ∧ t.Laminar ∧ Focus.at? (some t) 18 = some f ∧
      f.part.toValue = .int 20 ∧ f.part.span = ⟨16, 2⟩ ∧
      (Focus.at? (some t) 18 = none ↔ t.span.contains 18 = false) ∧
      Relation.ReflTransGen Focus.Holds (Focus.root t) f ∧ f.part.span.contains 18 = true ∧
        ∀ g, Relation.ReflTransGen Focus.Holds (Focus.root t) g →
          (g.part.span.contains 18 = true ↔ ∃ levels, f.up? levels = some g) := by
  have hfacts : (nestedArrayDocument.root.any fun t => Part.nestsWithin 6 (.tree t) &&
      (Focus.at? (some t) 18).any fun f =>
        decide (f.part.toValue = .int 20) && decide (f.part.span = ⟨16, 2⟩)) = true := by
    decide +kernel
  simp only [Option.any_eq_true, Bool.and_eq_true, decide_eq_true_eq] at hfacts
  obtain ⟨t, htree, hnests, f, hf, hvalue, hspan⟩ := hfacts
  have ht : t.Laminar := fun part hpart => Part.laminar_of_nestsWithin hnests hpart
  obtain ⟨hnone, hfound⟩ := Focus.search_finds_innermost ht 18
  exact ⟨t, f, htree, ht, hf, hvalue, hspan, hnone, hfound f hf⟩

end Workflow
