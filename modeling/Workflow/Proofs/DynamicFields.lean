import Mathlib.Data.List.TakeWhile
import Workflow.Proofs.FieldContexts
import Workflow.Proofs.ScopeBlocks

/-!
# Dynamic fields of a template

In a payload template a key with the dynamic suffix asks for a path or a call.  The check goes
through the objects of the template and stops at such a key.  It does not go into arrays, so of the
dynamic fields with another value exactly those are reported that stand in no array of the
template, each once and in the order of the document.
-/

namespace Workflow

namespace Expression

/-- A call of one of some functions, possibly with blanks after it. -/
inductive Call (names : List Text) : Text → Prop
  | intro
      {name : Text} (hname : name ∈ names) (arguments : Text) {blanks : Text}
      (hblanks : ∀ c ∈ blanks, c.isBlank = true) :
      Call names ("States." ++ name ++ "(" ++ arguments ++ ")" ++ blanks)

/-- What a dynamic field may hold: a path, or a call of an intrinsic function. -/
inductive Dynamic : Value → Prop
  | path
      (rest : Text) :
      Dynamic (.str ('$' :: rest))
  | call
      {t : Text} (h : Call functions t) :
      Dynamic (.str t)

/-- A text is its part up to the last point that is no blank, and blanks. -/
theorem exists_trimEnd_append
    (t : Text) :
    ∃ blanks : Text, (∀ c ∈ blanks, c.isBlank = true) ∧ t = t.trimEnd ++ blanks := by
  refine ⟨(t.reverse.takeWhile CodePoint.isBlank).reverse, fun c hc => ?_, ?_⟩
  · exact List.mem_takeWhile_imp (List.mem_reverse.mp hc)
  · rw [Text.trimEnd, ← List.reverse_append, List.takeWhile_append_dropWhile, List.reverse_reverse]

/-- Blanks at the end are dropped, and nothing else is. -/
theorem trimEnd_append_blanks
    (t : Text) {c : CodePoint} (hc : c.isBlank = false) {blanks : Text}
    (hblanks : ∀ b ∈ blanks, b.isBlank = true) :
    (t ++ [c] ++ blanks).trimEnd = t ++ [c] := by
  rw [Text.trimEnd, List.reverse_append, List.dropWhile_append_of_pos, List.reverse_append,
    List.reverse_singleton, List.singleton_append, List.dropWhile_cons_of_neg, List.reverse_cons,
    List.reverse_reverse]
  · simp [hc]
  · intro b hb
    exact hblanks b (List.mem_reverse.mp hb)

theorem isCallOf_iff
    (names : List Text) (t : Text) :
    isCallOf names t = true ↔ Call names t := by
  constructor
  · intro h
    obtain ⟨name, hname, h⟩ := List.any_eq_true.mp h
    obtain ⟨hopening, hclosing⟩ := (Bool.and_eq_true _ _).mp h
    obtain ⟨rest, hrest⟩ := List.isPrefixOf_iff_prefix.mp hopening
    rw [← hrest, List.drop_left, beq_iff_eq] at hclosing
    obtain ⟨arguments, rfl⟩ := List.getLast?_eq_some_iff.mp (show _ = some (')' : CodePoint) from
      hclosing)
    obtain ⟨blanks, hblanks, ht⟩ := exists_trimEnd_append t
    rw [ht, ← hrest, ← List.append_assoc]
    exact Call.intro hname arguments hblanks
  · rintro ⟨hname, arguments, hblanks⟩
    rw [isCallOf]
    refine List.any_eq_true.mpr ⟨_, hname, ?_⟩
    rw [show Text.ofString ")" = [(')' : CodePoint)] from rfl,
      trimEnd_append_blanks _ (by decide) hblanks, List.append_assoc _ arguments,
      Bool.and_eq_true, List.drop_left, List.getLast?_concat]
    exact ⟨List.isPrefixOf_iff_prefix.mpr (List.prefix_append _ _), rfl⟩

theorem isDynamic_iff
    (v : Value) :
    isDynamic isCall v = true ↔ Dynamic v := by
  constructor
  · intro h
    obtain ⟨t, ht, h⟩ := (Option.any_eq_true _ _).mp h
    cases v with
    | str u =>
        cases ht
        rcases (Bool.or_eq_true _ _).mp h with hpath | hcall
        · obtain ⟨rest, rfl⟩ := List.head?_eq_some_iff.mp
            (show t.head? = some ('$' : CodePoint) from beq_iff_eq.mp hpath)
          exact Dynamic.path rest
        · exact Dynamic.call ((isCallOf_iff functions t).mp hcall)
    | _ => cases ht
  · rintro (rest | hcall)
    · rfl
    · rw [isDynamic, Value.text?, Option.any_some, isCall, (isCallOf_iff functions _).mpr hcall,
        Bool.or_true]

end Expression

/-- Whether a part is a property whose key has the dynamic suffix. -/
def Part.isDynamic (part : Part) : Bool := part.propertyName?.any dynamicSuffix.isSuffixOf

namespace Focus

/-- The positions on the way to a place, from the root on. -/
def position (f : Focus) : List Nat := (f.above.map Prod.snd).reverse

/-- A dynamic field of a template that has a value, and no dynamic field of the template around
it. -/
structure DynamicField (template field : Focus) (value : Tree) : Prop where
  inside : field.Inside template
  dynamic : field.part.isDynamic = true
  value : field.part.property?.bind Property.value = some value
  outermost : ∀ node : Focus, node.Inside template → field.Inside node →
    node.part.isDynamic = false

/-- What stands in the node is looked at: it is no array and no dynamic field. -/
def Entered (node : Focus) : Prop := node.part.isArray = false ∧ node.part.isDynamic = false

/-- The inner place is seen from the outer one, through nodes that are entered. -/
def Sees : Focus → Focus → Prop :=
  Relation.TransGen fun outer inner => Entered outer ∧ Holds outer inner

mutual

/-- The dynamic fields in a part of a template that hold neither a path nor a call, with their
values, as the check comes by them. -/
def invalidIn (above : List (Part × Nat)) : Tree → List (Focus × Tree)
  | .object span properties =>
    invalidAmong (.tree (.object span properties)) above 0 properties
  | _ => []

/-- The same for the properties of an object from some position on. -/
def invalidAmong (object : Part) (above : List (Part × Nat)) :
    Nat → List (Property Tree) → List (Focus × Tree)
  | _, [] => []
  | i, ⟨span, key, colon, some t⟩ :: properties =>
    let field := Part.property ⟨span, key, colon, some t⟩
    let here :=
      if field.isDynamic then
        if Expression.isDynamic Expression.isCall t.toValue then []
        else [(⟨field, (object, i) :: above⟩, t)]
      else invalidIn ((field, 1) :: (object, i) :: above) t
    here ++ invalidAmong object above (i + 1) properties
  | i, ⟨_, _, _, none⟩ :: properties => invalidAmong object above (i + 1) properties

end

/-- The field is dynamic and has a value that is neither a path nor a call. -/
def Invalid (field : Focus) (value : Tree) : Prop :=
  field.part.isDynamic = true ∧ field.part.property?.bind Property.value = some value ∧
    ¬ Expression.Dynamic value.toValue

section Reaching

variable {f g place : Focus}

theorem sees_iff :
    Sees f place ↔ Entered f ∧ ∃ g ∈ f.children, place = g ∨ Sees g place := by
  rw [Sees, Relation.TransGen.head'_iff]
  simp only [Relation.reflTransGen_iff_eq_or_transGen, and_assoc, exists_and_left]
  rfl

/-- A place is found exactly if everything around it, the place where the search starts included, is
entered. -/
theorem sees_iff_inside :
    Sees f place ↔ place.Inside f ∧
      ∀ node, Relation.ReflTransGen Holds f node → place.Inside node → Entered node := by
  constructor
  · intro h
    induction h with
    | @single place h =>
        refine ⟨Relation.TransGen.single h.2, fun node hnode hinside => ?_⟩
        rcases h.2.inside_iff.mp hinside with rfl | hbelow
        · exact h.1
        · -- the node would have to stand both inside and around `f`
          exact absurd hnode hbelow.not_around
    | @tail g place _ h ih =>
        refine ⟨Relation.TransGen.tail ih.1 h.2, fun node hnode hinside => ?_⟩
        rcases h.2.inside_iff.mp hinside with rfl | hbelow
        · exact h.1
        · exact ih.2 node hnode hbelow
  · rintro ⟨hinside, hentered⟩
    induction hinside with
    | single h =>
        exact Relation.TransGen.single
          ⟨hentered f Relation.ReflTransGen.refl (Relation.TransGen.single h), h⟩
    | @tail g place hg h ih =>
        refine Relation.TransGen.tail (ih fun node hnode hinside => ?_)
          ⟨hentered g hg.to_reflTransGen (Relation.TransGen.single h), h⟩
        exact hentered node hnode (Relation.TransGen.tail hinside h)

/-- Directly inside a property stand its key and its value. -/
theorem holds_property_iff
    {p : Property Tree} {above : List (Part × Nat)} :
    Holds ⟨.property p, above⟩ g ↔ g = ⟨.key p.key, (.property p, 0) :: above⟩ ∨
      ∃ t, p.value = some t ∧ g = ⟨.tree t, (.property p, 1) :: above⟩ := by
  rw [Holds, children, Part.children]
  cases p.value <;> simp

/-- Inside a key there is nothing. -/
theorem not_inside_key
    {k : Key} {above : List (Part × Nat)} :
    ¬ place.Inside ⟨.key k, above⟩ := by
  intro h
  obtain ⟨g, hg, -⟩ := Relation.TransGen.head'_iff.mp h
  cases hg

/-- Inside a property, a place that is not its key is the value or stands inside of it. -/
theorem inside_property_iff
    {p : Property Tree} {above : List (Part × Nat)}
    (hkey : place ≠ ⟨.key p.key, (.property p, 0) :: above⟩) :
    place.Inside ⟨.property p, above⟩ ↔ ∃ t, p.value = some t ∧
      Relation.ReflTransGen Holds ⟨.tree t, (.property p, 1) :: above⟩ place := by
  constructor
  · intro h
    obtain ⟨g, hg, hbelow⟩ := Relation.TransGen.head'_iff.mp h
    rcases holds_property_iff.mp hg with rfl | ⟨t, ht, rfl⟩
    · rcases Relation.reflTransGen_iff_eq_or_transGen.mp hbelow with heq | hinside
      · exact absurd heq hkey
      · exact absurd hinside not_inside_key
    · exact ⟨t, ht, hbelow⟩
  · rintro ⟨t, ht, hbelow⟩
    exact Relation.TransGen.head' (holds_property_iff.mpr (Or.inr ⟨t, ht, rfl⟩)) hbelow

/-- From the property on, a field is found in the value, unless it is the property itself. -/
theorem sees_property_iff
    {p : Property Tree} {above : List (Part × Nat)} (hplace : place.part.isDynamic = true) :
    Sees ⟨.property p, above⟩ place ↔ (Part.property p).isDynamic = false ∧
      ∃ t, p.value = some t ∧ Sees ⟨.tree t, (.property p, 1) :: above⟩ place := by
  rw [sees_iff]
  constructor
  · rintro ⟨hentered, g, hg, hfound⟩
    refine ⟨hentered.2, ?_⟩
    rcases holds_property_iff.mp hg with rfl | ⟨t, ht, rfl⟩
    · rcases hfound with rfl | hfound
      · cases hplace
      · exact absurd (sees_iff_inside.mp hfound).1 not_inside_key
    · rcases hfound with rfl | hfound
      · cases hplace
      · exact ⟨t, ht, hfound⟩
  · rintro ⟨hdynamic, t, ht, hfound⟩
    exact ⟨⟨rfl, hdynamic⟩, _, holds_property_iff.mpr (Or.inr ⟨t, ht, rfl⟩), Or.inr hfound⟩

/-- What stands inside of a node has what is above the node above itself. -/
theorem Inside.above_suffix
    (h : place.Inside f) :
    f.above <:+ place.above := by
  induction h with
  | single h =>
      obtain ⟨i, hi⟩ := h.above_eq
      rw [hi]
      exact List.suffix_cons _ _
  | tail _ h ih =>
      obtain ⟨i, hi⟩ := h.above_eq
      rw [hi]
      exact ih.trans (List.suffix_cons _ _)

/-- A node is one of the parts around a place inside of it. -/
theorem Inside.mem_above
    (h : place.Inside f) :
    f.part ∈ place.above.map Prod.fst := by
  obtain ⟨g, hg, hbelow⟩ := Relation.TransGen.head'_iff.mp h
  obtain ⟨i, hi⟩ := hg.above_eq
  have hhere : (f.part, i) ∈ g.above := by
    rw [hi]
    exact List.mem_cons_self
  refine List.mem_map_of_mem (f := Prod.fst) (a := (f.part, i)) ?_
  rcases Relation.reflTransGen_iff_eq_or_transGen.mp hbelow with rfl | hinside
  · exact hhere
  · exact (Inside.above_suffix hinside).subset hhere

end Reaching

/-! ## The invalid fields of a template -/

/-- The properties of an object are gone through one after the other. -/
theorem invalidAmong_cons
    (object : Part) (above : List (Part × Nat)) (i : Nat) (p : Property Tree)
    (properties : List (Property Tree)) :
    invalidAmong object above i (p :: properties) =
      invalidAmong object above i [p] ++ invalidAmong object above (i + 1) properties := by
  obtain ⟨span, key, colon, value⟩ := p
  cases value with
  | none => rfl
  | some t => rw [invalidAmong, invalidAmong, invalidAmong, List.append_nil]

/-- Only an object is gone through. -/
theorem not_sees_of_not_object
    {t : Tree} (ht : t.properties? = none) (above : List (Part × Nat)) (place : Focus) :
    ¬ Sees ⟨.tree t, above⟩ place := by
  intro h
  obtain ⟨hentered, g, hg, -⟩ := sees_iff.mp h
  cases t with
  | array span items => cases hentered.1
  | object span properties => cases ht
  | _ => cases hg

/-- A property without a value is no invalid field, and none is found in it. -/
theorem not_found_of_no_value
    {p : Property Tree} (hvalue : p.value = none) {above : List (Part × Nat)} {place : Focus}
    {value : Tree} (hinvalid : Invalid place value) :
    ¬ (place = ⟨.property p, above⟩ ∨ Sees ⟨.property p, above⟩ place) := by
  rintro (rfl | hfound)
  · rw [Invalid, Part.property?, Option.bind_some, hvalue] at hinvalid
    cases hinvalid.2.1
  · obtain ⟨-, t, ht, -⟩ := (sees_property_iff hinvalid.1).mp hfound
    rw [hvalue] at ht
    cases ht

/-- Of a dynamic field nothing but itself is an invalid field. -/
theorem found_of_dynamic
    {p : Property Tree} (hdynamic : (Part.property p).isDynamic = true) {t : Tree}
    (hvalue : p.value = some t) {above : List (Part × Nat)} {place : Focus} {value : Tree} :
    (place = ⟨.property p, above⟩ ∨ Sees ⟨.property p, above⟩ place) ∧ Invalid place value ↔
      (place = ⟨.property p, above⟩ ∧ value = t) ∧ ¬ Expression.Dynamic t.toValue := by
  constructor
  · rintro ⟨rfl | hfound, hinvalid⟩
    · obtain ⟨-, hheld, hwrong⟩ := hinvalid
      rw [Part.property?, Option.bind_some, hvalue] at hheld
      cases hheld
      exact ⟨⟨rfl, rfl⟩, hwrong⟩
    · have hentered := (sees_iff.mp hfound).1.2
      rw [hdynamic] at hentered
      cases hentered
  · rintro ⟨⟨rfl, rfl⟩, hwrong⟩
    exact ⟨Or.inl rfl, hdynamic, hvalue, hwrong⟩

/-- In any other property the invalid fields are those of its value. -/
theorem found_of_static
    {p : Property Tree} (hdynamic : (Part.property p).isDynamic = false) {t : Tree}
    (hvalue : p.value = some t) {above : List (Part × Nat)} {place : Focus} {value : Tree} :
    (place = ⟨.property p, above⟩ ∨ Sees ⟨.property p, above⟩ place) ∧ Invalid place value ↔
      Sees ⟨.tree t, (.property p, 1) :: above⟩ place ∧ Invalid place value := by
  refine and_congr_left fun hinvalid => ?_
  rw [sees_property_iff hinvalid.1]
  constructor
  · rintro (rfl | ⟨-, u, hu, hfound⟩)
    · rw [Invalid, hdynamic] at hinvalid
      cases hinvalid.1
    · rw [hvalue, Option.some.injEq] at hu
      rwa [hu]
  · intro hfound
    exact Or.inr ⟨hdynamic, t, hvalue, hfound⟩

mutual

/-- What is listed for a part of a template are the invalid fields that are found in it. -/
theorem mem_invalidIn_iff :
    ∀ (t : Tree) (above : List (Part × Nat)) {place : Focus} {value : Tree},
      (place, value) ∈ invalidIn above t ↔ Sees ⟨.tree t, above⟩ place ∧ Invalid place value
  | .object span properties, above, place, value => by
      have hentered : Entered ⟨.tree (.object span properties), above⟩ := ⟨rfl, rfl⟩
      rw [invalidIn, mem_invalidAmong_iff properties, sees_iff, children_of_properties rfl rfl]
      constructor
      · rintro ⟨y, hy, hfound, hinvalid⟩
        exact ⟨⟨hentered, _, List.mem_map_of_mem hy, hfound⟩, hinvalid⟩
      · rintro ⟨⟨-, g, hg, hfound⟩, hinvalid⟩
        obtain ⟨y, hy, rfl⟩ := List.mem_map.mp hg
        exact ⟨y, hy, hfound, hinvalid⟩
  | .array _ _, above, place, _ =>
      iff_of_false List.not_mem_nil fun h => not_sees_of_not_object rfl above place h.1
  | .null _, above, place, _ =>
      iff_of_false List.not_mem_nil fun h => not_sees_of_not_object rfl above place h.1
  | .boolean _ _, above, place, _ =>
      iff_of_false List.not_mem_nil fun h => not_sees_of_not_object rfl above place h.1
  | .number _ _, above, place, _ =>
      iff_of_false List.not_mem_nil fun h => not_sees_of_not_object rfl above place h.1
  | .string _ _, above, place, _ =>
      iff_of_false List.not_mem_nil fun h => not_sees_of_not_object rfl above place h.1

/-- The same for the properties of an object: such a field is one of them or found in one of
them. -/
theorem mem_invalidAmong_iff :
    ∀ (properties : List (Property Tree)) {object : Part} {above : List (Part × Nat)} {i : Nat}
      {place : Focus} {value : Tree},
      (place, value) ∈ invalidAmong object above i properties ↔
        ∃ y ∈ properties.zipIdx i,
          (place = ⟨.property y.1, (object, y.2) :: above⟩ ∨
            Sees ⟨.property y.1, (object, y.2) :: above⟩ place) ∧ Invalid place value
  | [], _, _, _, _, _ => by simp [invalidAmong]
  | ⟨span, key, colon, none⟩ :: properties, object, above, i, place, value => by
      rw [invalidAmong, mem_invalidAmong_iff properties, List.zipIdx_cons, List.exists_mem_cons_iff]
      exact (or_iff_right fun h => not_found_of_no_value rfl h.2 h.1).symm
  | ⟨span, key, colon, some t⟩ :: properties, object, above, i, place, value => by
      rw [invalidAmong, List.mem_append, mem_invalidAmong_iff properties, List.zipIdx_cons,
        List.exists_mem_cons_iff]
      refine or_congr_left ?_
      dsimp only
      cases hdynamic : (Part.property ⟨span, key, colon, some t⟩).isDynamic with
      | true =>
          rw [found_of_dynamic hdynamic rfl, if_pos rfl, ← Expression.isDynamic_iff]
          split
          · next hright => simp [hright]
          · next hwrong => simp [hwrong]
      | false =>
          rw [found_of_static hdynamic rfl, if_neg Bool.false_ne_true, mem_invalidIn_iff t]

end

/-- In the order of the document. -/
def Precedes (f g : Focus) : Prop := f.position < g.position

/-- The position of a place starts with that of the node that it stands in. -/
theorem exists_position_of_above_suffix
    {above : List (Part × Nat)} {place : Focus} (h : above <:+ place.above) :
    ∃ rest, place.position = (above.map Prod.snd).reverse ++ rest := by
  obtain ⟨inner, hinner⟩ := h
  refine ⟨(inner.map Prod.snd).reverse, ?_⟩
  rw [position, ← hinner, List.map_append, List.reverse_append]

/-- What is listed for some properties stands at or in one of them. -/
theorem exists_position_of_mem_invalidAmong
    {properties : List (Property Tree)} {object : Part} {above : List (Part × Nat)} {i : Nat}
    {x : Focus × Tree} (hx : x ∈ invalidAmong object above i properties) :
    ∃ j rest, i ≤ j ∧ j < i + properties.length ∧
      x.1.position = (above.map Prod.snd).reverse ++ j :: rest := by
  obtain ⟨⟨p, j⟩, hy, hfound, -⟩ := (mem_invalidAmong_iff properties).mp hx
  have hsuffix : (object, j) :: above <:+ x.1.above := by
    rcases hfound with hplace | hfound
    · exact hplace ▸ List.suffix_rfl
    · exact (sees_iff_inside.mp hfound).1.above_suffix
  obtain ⟨rest, hrest⟩ := exists_position_of_above_suffix hsuffix
  refine ⟨j, rest, List.le_snd_of_mem_zipIdx hy, List.snd_lt_add_of_mem_zipIdx hy, ?_⟩
  rw [hrest, List.map_cons, List.reverse_cons, List.append_assoc, List.singleton_append]

mutual

/-- The invalid fields are listed in the order of the document. -/
theorem invalidIn_pairwise :
    ∀ (t : Tree) (above : List (Part × Nat)),
      (invalidIn above t).Pairwise fun x y => x.1.Precedes y.1
  | .object _ properties, _ => invalidAmong_pairwise properties
  | .array _ _, _ => List.Pairwise.nil
  | .null _, _ => List.Pairwise.nil
  | .boolean _ _, _ => List.Pairwise.nil
  | .number _ _, _ => List.Pairwise.nil
  | .string _ _, _ => List.Pairwise.nil

theorem invalidAmong_pairwise :
    ∀ (properties : List (Property Tree)) {object : Part} {above : List (Part × Nat)} {i : Nat},
      (invalidAmong object above i properties).Pairwise fun x y => x.1.Precedes y.1
  | [], _, _, _ => List.Pairwise.nil
  | p :: properties, object, above, i => by
      rw [invalidAmong_cons, List.pairwise_append]
      refine ⟨?_, invalidAmong_pairwise properties, fun x hx y hy => ?_⟩
      · obtain ⟨span, key, colon, value⟩ := p
        cases value with
        | none => exact List.Pairwise.nil
        | some t =>
            rw [invalidAmong, invalidAmong, List.append_nil]
            split
            · split
              · exact List.Pairwise.nil
              · exact List.pairwise_singleton _ _
            · exact invalidIn_pairwise t _
      · obtain ⟨j, rest, -, hj, hx⟩ := exists_position_of_mem_invalidAmong hx
        obtain ⟨k, others, hk, -, hy⟩ := exists_position_of_mem_invalidAmong hy
        rw [Precedes, hx, hy]
        refine List.append_left_lt (List.cons_lt_cons_iff.mpr (Or.inl ?_))
        rw [List.length_singleton] at hj
        omega

end

mutual

/-- The check finds just these fields, at their values. -/
theorem templateFindings_eq :
    ∀ (t : Tree) (above : List (Part × Nat)),
      templateFindings t =
        (invalidIn above t).map fun x => ⟨x.2.span, .invalidExpression⟩
  | .object _ properties, _ => templateFieldFindings_eq properties
  | .array _ _, _ => rfl
  | .null _, _ => rfl
  | .boolean _ _, _ => rfl
  | .number _ _, _ => rfl
  | .string _ _, _ => rfl

theorem templateFieldFindings_eq :
    ∀ (properties : List (Property Tree)) {object : Part} {above : List (Part × Nat)} {i : Nat},
      templateFieldFindings properties =
        (invalidAmong object above i properties).map fun x => ⟨x.2.span, .invalidExpression⟩
  | [], _, _, _ => rfl
  | ⟨_, _, _, none⟩ :: properties, _, _, _ => templateFieldFindings_eq properties
  | ⟨span, key, colon, some t⟩ :: properties, object, above, i => by
      rw [templateFieldFindings, invalidAmong, List.map_append,
        ← templateFieldFindings_eq properties, Part.isDynamic, Part.propertyName?, Part.property?,
        Option.map_some, Option.any_some]
      split
      · split <;> rfl
      · rw [← templateFindings_eq t]

end

/-- The invalid fields in the template that a property holds. -/
def invalidOf (p : Property Tree) (above : List (Part × Nat)) : List (Focus × Tree) :=
  (p.value.map (invalidIn ((.property p, 1) :: above))).getD []

/-- The fields that are found in a template are its dynamic fields that stand in no array of it. -/
theorem mem_invalidOf_iff
    {p : Property Tree} {above : List (Part × Nat)} {field : Focus} {value : Tree} :
    (field, value) ∈ invalidOf p above ↔
      DynamicField ⟨.property p, above⟩ field value ∧ ¬ Expression.Dynamic value.toValue ∧
        ∀ node : Focus, node.Inside ⟨.property p, above⟩ → field.Inside node →
          node.part.isArray = false := by
  have hmem : (field, value) ∈ invalidOf p above ↔
      (∃ t, p.value = some t ∧ Sees ⟨.tree t, (.property p, 1) :: above⟩ field) ∧
        Invalid field value := by
    rw [invalidOf]
    cases p.value with
    | none => simp
    | some t => simp [mem_invalidIn_iff t]
  rw [hmem]
  constructor
  · rintro ⟨⟨t, ht, hfound⟩, hdynamic, hvalue, hwrong⟩
    obtain ⟨hinside, hentered⟩ := sees_iff_inside.mp hfound
    have hbetween : ∀ node : Focus, node.Inside ⟨.property p, above⟩ → field.Inside node →
        Entered node := by
      intro node hnode hfield
      have hkey : node ≠ ⟨.key p.key, (.property p, 0) :: above⟩ := by
        rintro rfl
        exact not_inside_key hfield
      obtain ⟨u, hu, hbelow⟩ := (inside_property_iff hkey).mp hnode
      cases ht.symm.trans hu
      exact hentered node hbelow hfield
    exact ⟨⟨hinside.head (holds_property_iff.mpr (Or.inr ⟨t, ht, rfl⟩)), hdynamic, hvalue,
      fun node hnode hfield => (hbetween node hnode hfield).2⟩, hwrong,
      fun node hnode hfield => (hbetween node hnode hfield).1⟩
  · rintro ⟨⟨hinside, hdynamic, hvalue, houtermost⟩, hwrong, harrays⟩
    have hkey : field ≠ ⟨.key p.key, (.property p, 0) :: above⟩ := by
      rintro rfl
      cases hdynamic
    obtain ⟨t, ht, hbelow⟩ := (inside_property_iff hkey).mp hinside
    refine ⟨⟨t, ht, sees_iff_inside.mpr ⟨?_, fun node hnode hfield => ?_⟩⟩,
      hdynamic, hvalue, hwrong⟩
    · rcases Relation.reflTransGen_iff_eq_or_transGen.mp hbelow with rfl | hbelow
      · cases hdynamic
      · exact hbelow
    · have hnode : node.Inside ⟨.property p, above⟩ :=
        Relation.TransGen.head' (holds_property_iff.mpr (Or.inr ⟨t, ht, rfl⟩)) hnode
      exact ⟨harrays node hnode hfield, houtermost node hnode hfield⟩

end Focus

/-- The check of a template reports, in the order of the document and at their values, exactly the
dynamic fields of the template that hold neither a path nor a call of an intrinsic function and that
stand in no array of it. -/
theorem Document.dynamic_fields_exact
    (d : Document) {messages : Value} (hmessages : messages.isObject = true) (p : Property Tree)
    (above : List (Part × Nat)) :
    ∃ reported : List (Focus × Tree),
      d.report messages (propertyFindings (some p)) =
        .ok (reported.map fun x =>
          Finding.diagnostic d messages ⟨x.2.span, .invalidExpression⟩) ∧
      reported.Pairwise (fun x y => x.1.Precedes y.1) ∧
      ∀ field value, (field, value) ∈ reported ↔
        Focus.DynamicField ⟨.property p, above⟩ field value ∧
          ¬ Expression.Dynamic value.toValue ∧
          ∀ node : Focus, node.Inside ⟨.property p, above⟩ → field.Inside node →
            node.part.isArray = false := by
  refine ⟨Focus.invalidOf p above, ?_, ?_, fun field value => Focus.mem_invalidOf_iff⟩
  · rw [d.report_eq_map hmessages, propertyFindings, Focus.invalidOf, Option.bind_some]
    cases p.value with
    | none => rfl
    | some t =>
        dsimp only
        rw [Focus.templateFindings_eq t, List.map_map]
        rfl
  · rw [Focus.invalidOf]
    cases p.value with
    | none => exact List.Pairwise.nil
    | some t => exact Focus.invalidIn_pairwise t _

/-- A text with a template whose dynamic fields are right and wrong, in objects and in an array. -/
def nestedTemplateText : Text :=
  "Parameters:
  a.$: plain
  items:
  - b.$: plain
  c:
    d.$: 'States.UUID() '
    e.$: 1
"

/-- The document of that text. -/
def nestedTemplateDocument : Document :=
  match Document.treeOf .yaml nestedTemplateText with
  | .ok (some root) => ⟨nestedTemplateText, .yaml, root, 0⟩
  | _ => ⟨nestedTemplateText, .yaml, none, 0⟩

/-- In that template the fields `a.$` and `e.$` are reported. -/
theorem dynamic_fields_exact_nestedTemplate :
    ∃ root p, nestedTemplateDocument.root = some root ∧ root.property? "Parameters" = some p ∧
      ∃ reported : List (Focus × Tree),
        nestedTemplateDocument.report Tables.messages (propertyFindings (some p)) =
          .ok (reported.map fun x =>
            Finding.diagnostic nestedTemplateDocument Tables.messages
              ⟨x.2.span, .invalidExpression⟩) ∧
        reported.Pairwise (fun x y => x.1.Precedes y.1) ∧
        (∀ field value, (field, value) ∈ reported ↔
          Focus.DynamicField ⟨.property p, [(.tree root, 0)]⟩ field value ∧
            ¬ Expression.Dynamic value.toValue ∧
            ∀ node : Focus, node.Inside ⟨.property p, [(.tree root, 0)]⟩ → field.Inside node →
              node.part.isArray = false) ∧
        reported.map (fun x => (nestedTemplateDocument.rangeOf x.2.span).start) =
          [⟨1, 7⟩, ⟨6, 9⟩] := by
  have hfacts : (nestedTemplateDocument.root.any fun root =>
      (root.property? "Parameters").any fun p =>
        decide ((propertyFindings (some p)).map (fun x =>
          (nestedTemplateDocument.rangeOf x.span).start) = [⟨1, 7⟩, ⟨6, 9⟩])) = true := by
    decide +kernel
  simp only [Option.any_eq_true, decide_eq_true_eq] at hfacts
  obtain ⟨root, hroot, p, hp, hstarts⟩ := hfacts
  obtain ⟨reported, hreport, horder, hmem⟩ :=
    @Document.dynamic_fields_exact nestedTemplateDocument Tables.messages rfl p
      [(.tree root, 0)]
  refine ⟨root, p, hroot, hp, reported, hreport, horder, hmem, ?_⟩
  rw [Document.report_eq_map _ rfl, Except.ok.injEq] at hreport
  have hranges := congrArg (List.map fun x : Diagnostic => x.range.start) hreport
  rw [List.map_map, List.map_map] at hranges
  exact hranges.symm.trans hstarts

/-- A text with a template in which a dynamic field stands in an array. -/
def arrayTemplateText : Text :=
  "Parameters:
  items:
  - x.$: plain
"

/-- The document of that text. -/
def arrayTemplateDocument : Document :=
  match Document.treeOf .yaml arrayTemplateText with
  | .ok (some root) => ⟨arrayTemplateText, .yaml, root, 0⟩
  | _ => ⟨arrayTemplateText, .yaml, none, 0⟩

/-- A dynamic field in an array is not reported, although it holds neither a path nor a call. -/
theorem array_hides_dynamic_field :
    ∃ root p field value, arrayTemplateDocument.root = some root ∧
      root.property? "Parameters" = some p ∧
      Focus.DynamicField ⟨.property p, [(.tree root, 0)]⟩ field value ∧
      value.toValue = .str "plain" ∧ ¬ Expression.Dynamic value.toValue ∧
      arrayTemplateDocument.report Tables.messages (propertyFindings (some p)) = .ok [] := by
  have hfacts : (arrayTemplateDocument.root.any fun root =>
      (root.property? "Parameters").any fun p =>
        (Focus.mk (.property p) [(.tree root, 0)]).children.any fun template =>
          template.children.any fun items => items.children.any fun array =>
            array.children.any fun object => object.children.any fun field =>
              (field.part.property?.bind Property.value).any fun value =>
                field.part.isDynamic && (field.above.all fun x => !x.1.isDynamic) &&
                  decide (value.toValue = .str "plain") &&
                  decide (propertyFindings (some p) = [])) = true := by
    decide +kernel
  simp only [Option.any_eq_true, List.any_eq_true, Bool.and_eq_true, decide_eq_true_eq,
    List.all_eq_true, Bool.not_eq_true'] at hfacts
  obtain ⟨root, hroot, p, hp, template, htemplate, items, hitems, array, harray, object, hobject,
    field, hfield, value, hvalue, ⟨⟨hdynamic, haround⟩, htext⟩, hnone⟩ := hfacts
  have hinside : field.Inside ⟨.property p, [(.tree root, 0)]⟩ :=
    ((((Relation.TransGen.single htemplate).tail hitems).tail harray).tail hobject).tail hfield
  refine ⟨root, p, field, value, hroot, hp, ⟨hinside, hdynamic, hvalue, fun node _ hnode => ?_⟩,
    htext, ?_, ?_⟩
  · obtain ⟨x, hx, heq⟩ := List.mem_map.mp hnode.mem_above
    rw [← heq]
    exact haround x hx
  · rw [← Expression.isDynamic_iff, htext]
    decide
  · rw [hnone]
    rfl

end Workflow
