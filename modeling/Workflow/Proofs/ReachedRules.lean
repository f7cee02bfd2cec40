import Workflow.Check.Tables
import Workflow.Proofs.FieldContexts

/-!
# The rules that are reached from a Choice state

The rules of a Choice state are the objects in its `Choices`.  A rule with a single comparison
operator may hold further rules, in the arrays of `And` and `Or` and as the value of `Not`; a rule
with several operators leads no further.  The rules that are reached in this way are listed here,
each of them once, by the places where they stand.
-/

namespace Workflow

/-- The properties of an object whose keys are comparison operators. -/
def Part.operators (part : Part) : List (Property Tree) :=
  (part.children.filterMap Part.property?).filter fun p =>
    Tables.comparisonOperators.names.contains p.key.name

/-- A part without any of some names has none of fewer names either. -/
theorem Part.unnamed_of_subset
    {part : Part} {names more : List Text} (h : part.propertyName?.any more.contains = false)
    (hsub : ∀ name ∈ names, name ∈ more) :
    part.propertyName?.any names.contains = false := by
  rw [Bool.eq_false_iff] at h ⊢
  intro hnamed
  obtain ⟨name, hname, hmem⟩ := (Option.any_eq_true _ _).mp hnamed
  refine h ((Option.any_eq_true _ _).mpr ⟨name, hname, ?_⟩)
  rw [List.contains_iff_mem] at hmem ⊢
  exact hsub name hmem

namespace Focus

/-- The rule is an object item of an array that the outer part holds under one of some names. -/
def HoldsItem (names : List Text) (outer rule : Focus) : Prop :=
  ∃ p v, p ∈ outer.children ∧ p.part.propertyName?.any names.contains = true ∧
    p.value? = some v ∧ v.part.isArray = true ∧ rule ∈ v.children ∧ rule.part.isObject = true

/-- The rule is an object that the outer part holds under one of some names. -/
def HoldsValue (names : List Text) (outer rule : Focus) : Prop :=
  ∃ p, p ∈ outer.children ∧ p.part.propertyName?.any names.contains = true ∧
    p.value? = some rule ∧ rule.part.isObject = true

/-- The rules that are reached from a Choice state. -/
inductive ReachedRule (state : Focus) : Focus → Prop
  | choice
      {rule : Focus} (h : HoldsItem ["Choices"] state rule) :
      ReachedRule state rule
  | item
      {rule inner : Focus} (hrule : ReachedRule state rule)
      (hone : rule.part.operators.length = 1) (h : HoldsItem ["And", "Or"] rule inner) :
      ReachedRule state inner
  | value
      {rule inner : Focus} (hrule : ReachedRule state rule)
      (hone : rule.part.operators.length = 1) (h : HoldsValue ["Not"] rule inner) :
      ReachedRule state inner

/-! ## The rules inside a part -/

/-- The objects that a property holds in the place of rules: the items of an array under some names,
the value itself under others. -/
def rulesHeld (arrays values : List Text) (p : Focus) : List Focus :=
  match p.value? with
  | some v =>
    if p.part.propertyName?.any arrays.contains && v.part.isArray then
      v.children.filter fun item => item.part.isObject
    else if p.part.propertyName?.any values.contains && v.part.isObject then [v]
    else []
  | none => []

/-- The objects that the properties of an object hold in the place of rules. -/
def rulesUnder (arrays values : List Text) (f : Focus) : List Focus :=
  f.children.flatMap (rulesHeld arrays values)

/-- The operators whose value is an array of rules. -/
def listOperators : List Text := ["And", "Or"]

/-- The operators whose value is a rule. -/
def ruleOperators : List Text := ["Not"]

/-- The rules that the operators of a rule hold. -/
def operands (rule : Focus) : List Focus := rulesUnder listOperators ruleOperators rule

section Held

variable {arrays values : List Text} {f p rule : Focus}

/-- A part inside another one is smaller. -/
theorem Holds.sizeOf_lt
    (h : Holds f p) :
    sizeOf p.part < sizeOf f.part := by
  obtain ⟨⟨part, i⟩, hpart, rfl⟩ := List.mem_map.mp h
  have hmem := List.fst_mem_of_mem_zipIdx hpart
  obtain ⟨outer, above⟩ := f
  cases outer with
  | tree t =>
      cases t with
      | array span items =>
          obtain ⟨item, hitem, rfl⟩ := List.mem_map.mp hmem
          have := List.sizeOf_lt_of_mem hitem
          simp only [Part.tree.sizeOf_spec, Tree.array.sizeOf_spec]
          omega
      | object span properties =>
          obtain ⟨q, hq, rfl⟩ := List.mem_map.mp hmem
          have := List.sizeOf_lt_of_mem hq
          simp only [Part.tree.sizeOf_spec, Part.property.sizeOf_spec, Tree.object.sizeOf_spec]
          omega
      | _ => cases hmem
  | property q =>
      obtain ⟨span, key, colon, value⟩ := q
      rcases List.mem_cons.mp hmem with rfl | hvalue
      · simp only [Part.key.sizeOf_spec, Part.property.sizeOf_spec, Property.mk.sizeOf_spec]
        omega
      · obtain ⟨t, rfl, rfl⟩ := Option.map_eq_some_iff.mp (Option.mem_toList.mp hvalue)
        simp only [Part.tree.sizeOf_spec, Part.property.sizeOf_spec, Property.mk.sizeOf_spec,
          Option.some.sizeOf_spec]
        omega
  | key k => cases hmem

/-- The value of a property stands directly inside of it. -/
theorem holds_of_value?
    {name : Text} (hname : p.part.propertyName? = some name) {v : Focus} (hv : p.value? = some v) :
    Holds p v := by
  obtain ⟨part, above⟩ := p
  cases part with
  | property q =>
      obtain ⟨t, ht, rfl⟩ := Option.map_eq_some_iff.mp hv
      refine List.mem_map.mpr ⟨(.tree t, 1), ?_, rfl⟩
      simp [Part.children, ht]
  | _ => cases hname

/-- A part is not both an array and an object. -/
theorem isObject_of_isArray
    (h : f.part.isArray = true) :
    f.part.isObject = false := by
  obtain ⟨part, above⟩ := f
  cases part with
  | tree t =>
      cases t with
      | array span items => rfl
      | _ => cases h
  | _ => cases h

theorem mem_rulesHeld_iff :
    rule ∈ rulesHeld arrays values p ↔
      rule.part.isObject = true ∧ ∃ v, p.value? = some v ∧
        (p.part.propertyName?.any arrays.contains = true ∧ v.part.isArray = true ∧
            rule ∈ v.children ∨
          p.part.propertyName?.any values.contains = true ∧ rule = v) := by
  unfold rulesHeld
  cases p.value? with
  | none => simp
  | some v =>
      simp only [Option.some.injEq, exists_eq_left']
      split
      · next harray =>
          rw [Bool.and_eq_true] at harray
          have hnoObject := isObject_of_isArray harray.2
          rw [List.mem_filter, and_comm]
          refine and_congr_right fun hobject => ?_
          refine ⟨fun hmem => Or.inl ⟨harray.1, harray.2, hmem⟩, ?_⟩
          rintro (⟨-, -, hmem⟩ | ⟨-, rfl⟩)
          · exact hmem
          · rw [hobject] at hnoObject
            cases hnoObject
      · next harray =>
          rw [Bool.and_eq_true] at harray
          split
          · next hvalue =>
              rw [Bool.and_eq_true] at hvalue
              rw [List.mem_singleton]
              constructor
              · rintro rfl
                exact ⟨hvalue.2, Or.inr ⟨hvalue.1, rfl⟩⟩
              · rintro ⟨-, ⟨hname, hisArray, -⟩ | ⟨-, heq⟩⟩
                · exact absurd ⟨hname, hisArray⟩ harray
                · exact heq
          · next hvalue =>
              rw [Bool.and_eq_true] at hvalue
              refine ⟨fun h => absurd h List.not_mem_nil, ?_⟩
              rintro ⟨hobject, ⟨hname, hisArray, -⟩ | ⟨hname, rfl⟩⟩
              · exact absurd ⟨hname, hisArray⟩ harray
              · exact absurd ⟨hname, hobject⟩ hvalue

theorem mem_rulesUnder_iff :
    rule ∈ rulesUnder arrays values f ↔ HoldsItem arrays f rule ∨ HoldsValue values f rule := by
  rw [rulesUnder, List.mem_flatMap]
  constructor
  · rintro ⟨p, hp, hrule⟩
    obtain ⟨hobject, v, hv, ⟨hname, harray, hmem⟩ | ⟨hname, rfl⟩⟩ := mem_rulesHeld_iff.mp hrule
    · exact Or.inl ⟨p, v, hp, hname, hv, harray, hmem, hobject⟩
    · exact Or.inr ⟨p, hp, hname, hv, hobject⟩
  · rintro (⟨p, v, hp, hname, hv, harray, hmem, hobject⟩ | ⟨p, hp, hname, hv, hobject⟩)
    · exact ⟨p, hp, mem_rulesHeld_iff.mpr ⟨hobject, v, hv, Or.inl ⟨hname, harray, hmem⟩⟩⟩
    · exact ⟨p, hp, mem_rulesHeld_iff.mpr ⟨hobject, rule, hv, Or.inr ⟨hname, rfl⟩⟩⟩

/-- What a property holds stands inside of it. -/
theorem inside_of_mem_rulesHeld
    (h : rule ∈ rulesHeld arrays values p) :
    rule.Inside p := by
  obtain ⟨-, v, hv, hcase⟩ := mem_rulesHeld_iff.mp h
  have hnamed : ∃ name, p.part.propertyName? = some name := by
    rw [← Option.isSome_iff_exists]
    rcases hcase with ⟨hname, -⟩ | ⟨hname, -⟩
    · obtain ⟨name, hname, -⟩ := (Option.any_eq_true _ _).mp hname
      rw [hname, Option.isSome_some]
    · obtain ⟨name, hname, -⟩ := (Option.any_eq_true _ _).mp hname
      rw [hname, Option.isSome_some]
  obtain ⟨name, hname⟩ := hnamed
  have hvalue := Relation.TransGen.single (holds_of_value? hname hv)
  rcases hcase with ⟨-, -, hmem⟩ | ⟨-, rfl⟩
  · exact hvalue.tail hmem
  · exact hvalue

theorem inside_of_mem_rulesUnder
    (h : rule ∈ rulesUnder arrays values f) :
    rule.Inside f := by
  obtain ⟨p, hp, hrule⟩ := List.mem_flatMap.mp h
  exact Relation.TransGen.head hp (inside_of_mem_rulesHeld hrule)

theorem Inside.sizeOf_lt
    (h : p.Inside f) :
    sizeOf p.part < sizeOf f.part := by
  induction h with
  | single h => exact h.sizeOf_lt
  | tail _ h ih => exact Nat.lt_trans h.sizeOf_lt ih

end Held

/-- A rule with the rules that are reached from it.  Several operators lead no further. -/
def rulesFrom (rule : Focus) : List Focus :=
  rule :: if rule.part.operators.length = 1 then
    rule.operands.attach.flatMap fun inner => rulesFrom inner.1
  else []
termination_by sizeOf rule.part
decreasing_by exact (inside_of_mem_rulesUnder inner.2).sizeOf_lt

theorem rulesFrom_eq
    (rule : Focus) :
    rule.rulesFrom =
      rule :: if rule.part.operators.length = 1 then rule.operands.flatMap rulesFrom else [] := by
  rw [rulesFrom, ← List.attach_map_subtype_val rule.operands, List.flatMap_map]
  simp

/-- A property without any of the names holds no rules. -/
theorem rulesHeld_of_unnamed
    {arrays values : List Text} {p : Focus}
    (harrays : p.part.propertyName?.any arrays.contains = false)
    (hvalues : p.part.propertyName?.any values.contains = false) :
    rulesHeld arrays values p = [] := by
  unfold rulesHeld
  rw [harrays, hvalues]
  cases p.value? <;> rfl

/-- A property whose key is no comparison operator holds no rules. -/
theorem rulesHeld_of_not_operator
    {p : Focus}
    (hp : p.part.propertyName?.any Tables.comparisonOperators.names.contains = false) :
    rulesHeld listOperators ruleOperators p = [] :=
  rulesHeld_of_unnamed (Part.unnamed_of_subset hp (by decide +kernel))
    (Part.unnamed_of_subset hp (by decide +kernel))

/-- A rule without comparison operators holds no rules. -/
theorem operands_of_no_operators
    {rule : Focus} (hnone : rule.part.operators = []) :
    rule.operands = [] := by
  refine List.flatMap_eq_nil_iff.mpr fun p hp => rulesHeld_of_not_operator ?_
  rw [Bool.eq_false_iff]
  intro hnamed
  obtain ⟨name, hname, hmem⟩ := (Option.any_eq_true _ _).mp hnamed
  obtain ⟨q, hq, rfl⟩ := Option.map_eq_some_iff.mp hname
  have hpart : p.part ∈ rule.part.children := Holds.part_mem hp
  exact List.filter_eq_nil_iff.mp hnone q (List.mem_filterMap.mpr ⟨p.part, hpart, hq⟩) hmem

/-- A rule with several operators leads no further. -/
theorem rulesFrom_of_many
    {rule : Focus} (hmany : 1 < rule.part.operators.length) :
    rule.rulesFrom = [rule] := by
  rw [rulesFrom_eq, if_neg (Nat.ne_of_gt hmany)]

/-- A rule with at most one operator leads to all rules that its operators hold. -/
theorem rulesFrom_of_few
    {rule : Focus} (hfew : ¬ 1 < rule.part.operators.length) :
    rule.rulesFrom = rule :: rule.operands.flatMap rulesFrom := by
  rw [rulesFrom_eq]
  split
  · rfl
  · have hnone : rule.part.operators = [] := by
      rw [← List.length_eq_zero_iff]
      omega
    rw [operands_of_no_operators hnone]
    rfl

/-- The rules that are reached from a Choice state. -/
def rulesOf (state : Focus) : List Focus := (rulesUnder ["Choices"] [] state).flatMap rulesFrom

/-- One rule is reached directly from another one. -/
def HoldsOperand (rule inner : Focus) : Prop :=
  rule.part.operators.length = 1 ∧ inner ∈ rule.operands

theorem mem_rulesFrom_iff
    {rule reached : Focus} :
    reached ∈ rule.rulesFrom ↔ Relation.ReflTransGen HoldsOperand rule reached := by
  constructor
  · intro h
    induction hsize : sizeOf rule.part using Nat.strongRecOn generalizing rule with
    | ind size ih =>
      rw [rulesFrom_eq, List.mem_cons] at h
      rcases h with rfl | h
      · exact Relation.ReflTransGen.refl
      · split at h
        · next hone =>
            obtain ⟨inner, hinner, hreached⟩ := List.mem_flatMap.mp h
            have hlt := (inside_of_mem_rulesUnder hinner).sizeOf_lt
            exact Relation.ReflTransGen.head ⟨hone, hinner⟩ (ih _ (hsize ▸ hlt) hreached rfl)
        · cases h
  · intro h
    induction h using Relation.ReflTransGen.head_induction_on with
    | refl =>
        rw [rulesFrom_eq]
        exact List.mem_cons_self
    | head hstep _ ih =>
        rw [rulesFrom_eq, if_pos hstep.1]
        exact List.mem_cons_of_mem _ (List.mem_flatMap.mpr ⟨_, hstep.2, ih⟩)

theorem mem_rulesUnder_choices_iff
    {state choice : Focus} :
    choice ∈ rulesUnder ["Choices"] [] state ↔ HoldsItem ["Choices"] state choice := by
  rw [mem_rulesUnder_iff, or_iff_left]
  rintro ⟨p, -, hname, -⟩
  cases h : p.part.propertyName? with
  | none => rw [h] at hname; cases hname
  | some name => rw [h] at hname; cases hname

/-- The list holds exactly the rules that are reached. -/
theorem mem_rulesOf_iff
    {state rule : Focus} :
    rule ∈ state.rulesOf ↔ ReachedRule state rule := by
  simp only [rulesOf, List.mem_flatMap, mem_rulesUnder_choices_iff, mem_rulesFrom_iff]
  constructor
  · rintro ⟨choice, hchoice, hway⟩
    induction hway with
    | refl => exact .choice hchoice
    | tail _ hstep ih =>
        rcases mem_rulesUnder_iff.mp hstep.2 with hitem | hvalue
        · exact .item ih hstep.1 hitem
        · exact .value ih hstep.1 hvalue
  · intro h
    induction h with
    | choice h => exact ⟨_, h, Relation.ReflTransGen.refl⟩
    | item _ hone h ih =>
        obtain ⟨choice, hchoice, hway⟩ := ih
        exact ⟨choice, hchoice, hway.tail ⟨hone, mem_rulesUnder_iff.mpr (Or.inl h)⟩⟩
    | value _ hone h ih =>
        obtain ⟨choice, hchoice, hway⟩ := ih
        exact ⟨choice, hchoice, hway.tail ⟨hone, mem_rulesUnder_iff.mpr (Or.inr h)⟩⟩

/-! ## Each rule once -/

section Once

variable {arrays values : List Text} {f g : Focus}

/-- A place stands inside only one part of each level. -/
theorem eq_of_level
    {a b : Focus} (ha : Relation.ReflTransGen Holds a g) (hb : Relation.ReflTransGen Holds b g)
    (hlevel : a.above.length = b.above.length) :
    a = b := by
  induction ha with
  | refl =>
      rcases Relation.reflTransGen_iff_eq_or_transGen.mp hb with heq | hinside
      · exact heq
      · have hlength := (show Inside a b from hinside).length_above
        omega
  | @tail e g hae heg ih =>
      rcases heg.around_iff.mp hb with rfl | hbe
      · have hinside : Inside b a := Relation.TransGen.tail' hae heg
        have hlength := hinside.length_above
        omega
      · exact ih hbe

theorem children_nodup
    (f : Focus) :
    f.children.Nodup := by
  have hpositions := positions_nodup f.part.children
  rw [children, List.Nodup, List.pairwise_map]
  rw [List.Nodup, List.pairwise_map] at hpositions
  refine hpositions.imp fun hne heq => hne ?_
  rw [Focus.mk.injEq, List.cons.injEq, Prod.mk.injEq] at heq
  exact heq.2.1.2

theorem length_above_of_mem_children
    (h : g ∈ f.children) :
    g.above.length = f.above.length + 1 := by
  obtain ⟨x, -, rfl⟩ := List.mem_map.mp h
  rfl

theorem rulesHeld_nodup
    (p : Focus) :
    (rulesHeld arrays values p).Nodup := by
  unfold rulesHeld
  split
  · split
    · exact (children_nodup _).filter _
    · split
      · exact List.nodup_singleton _
      · exact List.nodup_nil
  · exact List.nodup_nil

/-- All rules that a property holds stand on one level. -/
theorem level_of_mem_rulesHeld
    {p a b : Focus} (ha : a ∈ rulesHeld arrays values p) (hb : b ∈ rulesHeld arrays values p) :
    a.above.length = b.above.length := by
  unfold rulesHeld at ha hb
  cases hvalue : p.value? with
  | none =>
      rw [hvalue] at ha
      cases ha
  | some v =>
      rw [hvalue] at ha hb
      dsimp only at ha hb
      split at ha
      · next harray =>
          rw [if_pos harray] at hb
          rw [length_above_of_mem_children (List.mem_filter.mp ha).1,
            length_above_of_mem_children (List.mem_filter.mp hb).1]
      · next harray =>
          rw [if_neg harray] at hb
          split at ha
          · next hobject =>
              rw [if_pos hobject] at hb
              rw [List.mem_singleton.mp ha, List.mem_singleton.mp hb]
          · cases ha

/-- What is found inside of different parts of one level is different. -/
theorem nodup_flatMap_of_level
    {l : List Focus} {inner : Focus → List Focus} (hl : l.Nodup)
    (hlevel : ∀ a ∈ l, ∀ b ∈ l, a.above.length = b.above.length)
    (hinside : ∀ a ∈ l, ∀ g ∈ inner a, Relation.ReflTransGen Holds a g)
    (hinner : ∀ a ∈ l, (inner a).Nodup) :
    (l.flatMap inner).Nodup := by
  refine List.nodup_flatMap.mpr ⟨hinner, hl.imp_of_mem fun {a b} ha hb hne g hga hgb => hne ?_⟩
  exact eq_of_level (hinside a ha g hga) (hinside b hb g hgb) (hlevel a ha b hb)

theorem inside_of_mem_rulesFrom
    {rule : Focus} (h : g ∈ rule.rulesFrom) :
    Relation.ReflTransGen Holds rule g := by
  have hway := mem_rulesFrom_iff.mp h
  induction hway with
  | refl => exact Relation.ReflTransGen.refl
  | tail hway hstep ih =>
      have hinside := inside_of_mem_rulesUnder hstep.2
      exact (ih (mem_rulesFrom_iff.mpr hway)).trans hinside.to_reflTransGen

theorem nodup_flatMap_rulesFrom
    (hrules : ∀ rule ∈ rulesUnder arrays values f, rule.rulesFrom.Nodup) :
    ((rulesUnder arrays values f).flatMap rulesFrom).Nodup := by
  rw [rulesUnder, List.flatMap_assoc]
  refine nodup_flatMap_of_level (children_nodup f) ?_ ?_ ?_
  · intro p hp q hq
    rw [length_above_of_mem_children hp, length_above_of_mem_children hq]
  · intro p _ g hg
    obtain ⟨rule, hrule, hg⟩ := List.mem_flatMap.mp hg
    exact (inside_of_mem_rulesHeld hrule).to_reflTransGen.trans (inside_of_mem_rulesFrom hg)
  · intro p hp
    refine nodup_flatMap_of_level (rulesHeld_nodup p) ?_ ?_ ?_
    · exact fun a ha b hb => level_of_mem_rulesHeld ha hb
    · exact fun rule _ g hg => inside_of_mem_rulesFrom hg
    · exact fun rule hrule => hrules rule (List.mem_flatMap.mpr ⟨p, hp, hrule⟩)

/-- No rule is reached twice. -/
theorem rulesFrom_nodup
    (rule : Focus) :
    rule.rulesFrom.Nodup := by
  induction hsize : sizeOf rule.part using Nat.strongRecOn generalizing rule with
  | ind size ih =>
    rw [rulesFrom_eq]
    split
    · refine List.nodup_cons.mpr ⟨fun hmem => ?_, nodup_flatMap_rulesFrom fun inner hinner => ?_⟩
      · obtain ⟨inner, hinner, hrule⟩ := List.mem_flatMap.mp hmem
        exact (inside_of_mem_rulesUnder hinner).not_around (inside_of_mem_rulesFrom hrule)
      · exact ih _ (hsize ▸ (inside_of_mem_rulesUnder hinner).sizeOf_lt) inner rfl
    · exact List.nodup_singleton rule

theorem rulesOf_nodup
    (state : Focus) :
    state.rulesOf.Nodup :=
  nodup_flatMap_rulesFrom fun rule _ => rulesFrom_nodup rule

end Once

end Focus

end Workflow
