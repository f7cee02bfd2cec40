import Workflow.Proofs.RuleFindings
import Workflow.Proofs.ScopeBlocks

/-!
# Fields that a rule does not support

A rule in the array of a Choice state is checked against one table, a rule that an operator holds
against another one.  A field of a rule is reported exactly if it is neither a comparison operator
nor known to the table of the rule.  The tables keep the rule that names the comparison operators
beside the fields, so its name passes for a field; `directive_passes_as_field` shows a rule in
which it is not reported.
-/

namespace Workflow

/-- The names in a table that are fields: those of its composite rules are not. -/
def Tables.fieldNames (own : Fields) : List Text :=
  own.names.filter fun name => !([arrayOfKey, oneOfKey, valueOfKey] : List Text).contains name

namespace Focus

open Tables (comparisonOperators choiceFields choiceRule nestedChoiceRule fieldNames arrayOfKey
  oneOfKey)

/-- The rule is reached from a Choice state and checked against the table. -/
inductive RuleTable (state : Focus) : Focus → Fields → Prop
  | choice
      {rule : Focus} (h : HoldsItem ["Choices"] state rule) :
      RuleTable state rule choiceRule
  | operand
      {rule inner : Focus} (hrule : ReachedRule state rule)
      (hone : rule.part.operators.length = 1)
      (h : HoldsItem ["And", "Or"] rule inner ∨ HoldsValue ["Not"] rule inner) :
      RuleTable state inner nestedChoiceRule

/-- The object stands in the place of an array of rules. -/
inductive InPlaceOfArray (state : Focus) : Focus → Prop
  | choices
      {object : Focus} (h : HoldsValue ["Choices"] state object) :
      InPlaceOfArray state object
  | operands
      {rule object : Focus} (hrule : ReachedRule state rule)
      (hone : rule.part.operators.length = 1) (h : HoldsValue ["And", "Or"] rule object) :
      InPlaceOfArray state object

/-- The properties of a Choice state that are reported at their keys: fields that the state does not
have, fields that a rule does not have, and fields of an object in the place of an array. -/
inductive Unsupported (state : Focus) : Focus → Prop
  | state
      {p : Focus} {name : Text} (hp : p ∈ state.children) (hname : p.part.propertyName? = some name)
      (hfield : name ∉ choiceFields.names) :
      Unsupported state p
  | rule
      {rule p : Focus} {own : Fields} {name : Text} (hrule : RuleTable state rule own)
      (hp : p ∈ rule.children) (hname : p.part.propertyName? = some name)
      (hoperator : name ∉ comparisonOperators.names) (hfield : name ∉ fieldNames own)
      (hdirective : name ≠ oneOfKey) :
      Unsupported state p
  | misplaced
      {object p : Focus} {name : Text} (hobject : InPlaceOfArray state object)
      (hp : p ∈ object.children) (hname : p.part.propertyName? = some name)
      (hdirective : name ≠ arrayOfKey) :
      Unsupported state p

/-! ## The places in order -/

/-- The places at one rule that is checked against a table. -/
def rulePlaces (own : Fields) (rule : Focus) : List Focus :=
  rule.strangers (ruleNames own) ++ rule.misplaced

/-- A rule and all rules inside that are reached from it, with their tables. -/
def tablesFrom (own : Fields) (rule : Focus) : List (Focus × Fields) :=
  (rule, own) :: rule.rulesFrom.tail.map fun inner => (inner, nestedChoiceRule)

/-- The places at a rule and at all rules inside that are reached from it. -/
def placesFrom (own : Fields) (rule : Focus) : List Focus :=
  (rule.tablesFrom own).flatMap fun x => x.1.rulePlaces x.2

/-- The places at a property of a Choice state. -/
def choicePlaces (p : Focus) : List Focus :=
  if p.part.propertyName?.any choiceFields.names.contains then
    p.fieldsInstead ["Choices"] ++ (rulesHeld ["Choices"] [] p).flatMap (placesFrom choiceRule)
  else [p]

/-- Of what is found at a rule, the findings about names stand at its places. -/
theorem filter_ruleFindings
    (own : Fields) (rule : Focus) :
    (rule.ruleFindings own).filter (fun f => f.code == .invalidPropertyName) =
      (rule.rulePlaces own).map strange := by
  simp [ruleFindings, rulePlaces]

theorem filter_findingsFrom
    (own : Fields) (rule : Focus) :
    (rule.findingsFrom own).filter (fun f => f.code == .invalidPropertyName) =
      (rule.placesFrom own).map strange := by
  rw [findingsFrom, placesFrom, tablesFrom, List.filter_append, List.filter_flatMap,
    List.flatMap_cons, List.flatMap_map, List.map_append, List.map_flatMap]
  simp only [filter_ruleFindings]

theorem filter_choiceFindings
    (p : Focus) :
    p.choiceFindings.filter (fun f => f.code == .invalidPropertyName) =
      p.choicePlaces.map strange := by
  unfold choiceFindings choicePlaces
  split
  · rw [findingsHeld, List.filter_append, List.filter_flatMap, List.map_append, List.map_flatMap]
    simp only [filter_findingsFrom, filter_code_strange]
    rfl
  · exact filter_code_strange _ [p]

/-! ## Which places they are -/

section Members

variable {state rule object p : Focus} {own : Fields} {names : List Text}

theorem mem_strangers_iff :
    p ∈ object.strangers names ↔
      p ∈ object.children ∧ ∃ name, p.part.propertyName? = some name ∧ name ∉ names := by
  simp [strangers, List.mem_filter, Option.any_eq_true]

theorem mem_fieldsInstead_iff
    {q : Focus} :
    p ∈ q.fieldsInstead names ↔
      ∃ object, q.part.propertyName?.any names.contains = true ∧ q.value? = some object ∧
        object.part.isObject = true ∧ p ∈ object.strangers [arrayOfKey] := by
  unfold fieldsInstead
  cases q.value? with
  | none => simp
  | some v =>
      simp only [Option.some.injEq]
      split
      · next h =>
          rw [Bool.and_eq_true] at h
          exact ⟨fun hp => ⟨v, h.1, rfl, h.2, hp⟩, fun ⟨_, _, heq, _, hp⟩ => heq ▸ hp⟩
      · next h =>
          rw [Bool.and_eq_true] at h
          refine ⟨fun hp => absurd hp List.not_mem_nil, ?_⟩
          rintro ⟨_, hname, rfl, hobject, -⟩
          exact absurd ⟨hname, hobject⟩ h

theorem mem_flatMap_fieldsInstead_iff :
    p ∈ rule.children.flatMap (fieldsInstead names) ↔
      ∃ object, HoldsValue names rule object ∧ p ∈ object.strangers [arrayOfKey] := by
  simp only [List.mem_flatMap, mem_fieldsInstead_iff, HoldsValue]
  constructor
  · rintro ⟨q, hq, object, hname, hvalue, hobject, hp⟩
    exact ⟨object, ⟨q, hq, hname, hvalue, hobject⟩, hp⟩
  · rintro ⟨object, ⟨q, hq, hname, hvalue, hobject⟩, hp⟩
    exact ⟨q, hq, object, hname, hvalue, hobject, hp⟩

/-- A rule that holds something under an operator and has not several operators has one. -/
theorem operators_of_few
    (hfew : ¬ 1 < rule.part.operators.length) (h : HoldsValue listOperators rule object) :
    rule.part.operators.length = 1 := by
  obtain ⟨q, hq, hname, -⟩ := h
  have hmem : q ∈ rule.children.filter fun p => p.part.isOperator := by
    refine List.mem_filter.mpr ⟨hq, ?_⟩
    by_contra hnot
    rw [Part.unnamed_of_subset (Bool.not_eq_true _ ▸ hnot) (by decide +kernel)] at hname
    cases hname
  have hpos := List.length_pos_of_mem hmem
  rw [length_filter_isOperator] at hpos
  omega

theorem mem_misplaced_iff :
    p ∈ rule.misplaced ↔ rule.part.operators.length = 1 ∧
      ∃ object, HoldsValue listOperators rule object ∧ p ∈ object.strangers [arrayOfKey] := by
  unfold misplaced
  split
  · next hmany =>
      refine ⟨fun hp => absurd hp List.not_mem_nil, fun ⟨hone, _⟩ => ?_⟩
      omega
  · next hfew =>
      rw [mem_flatMap_fieldsInstead_iff]
      refine ⟨?_, fun h => h.2⟩
      rintro ⟨object, hholds, hp⟩
      exact ⟨operators_of_few hfew hholds, object, hholds, hp⟩

theorem mem_rulePlaces_iff :
    p ∈ rule.rulePlaces own ↔ p ∈ rule.strangers (ruleNames own) ∨ p ∈ rule.misplaced :=
  List.mem_append

theorem mem_tail_rulesFrom_iff
    {inner : Focus} :
    inner ∈ rule.rulesFrom.tail ↔ ∃ mid ∈ rule.rulesFrom, HoldsOperand mid inner := by
  have htail : inner ∈ rule.rulesFrom.tail ↔ ∃ next, HoldsOperand rule next ∧
      inner ∈ next.rulesFrom := by
    rw [rulesFrom_eq, List.tail_cons]
    split
    · next hone => simp [HoldsOperand, hone]
    · next hone => simp [HoldsOperand, hone]
  simp only [htail, mem_rulesFrom_iff]
  rw [← Relation.TransGen.head'_iff, Relation.TransGen.tail'_iff]

theorem mem_tablesFrom_iff
    {choice : Focus} :
    (rule, own) ∈ choice.tablesFrom choiceRule ↔
      rule = choice ∧ own = choiceRule ∨
        (∃ mid ∈ choice.rulesFrom, HoldsOperand mid rule) ∧ own = nestedChoiceRule := by
  rw [tablesFrom, List.mem_cons, Prod.mk.injEq, ← mem_tail_rulesFrom_iff, List.mem_map]
  refine or_congr_right ⟨?_, ?_⟩
  · rintro ⟨inner, hinner, heq⟩
    cases heq
    exact ⟨hinner, rfl⟩
  · rintro ⟨hinner, rfl⟩
    exact ⟨rule, hinner, rfl⟩

theorem holdsOperand_iff
    {inner : Focus} :
    HoldsOperand rule inner ↔ rule.part.operators.length = 1 ∧
      (HoldsItem ["And", "Or"] rule inner ∨ HoldsValue ["Not"] rule inner) :=
  and_congr_right fun _ => mem_rulesUnder_iff

/-- The list says which rules are reached, and against which table each of them is checked. -/
theorem mem_tables_iff :
    (rule, own) ∈ (rulesUnder ["Choices"] [] state).flatMap (tablesFrom choiceRule) ↔
      RuleTable state rule own := by
  simp only [List.mem_flatMap, mem_rulesUnder_choices_iff, mem_tablesFrom_iff]
  constructor
  · rintro ⟨choice, hchoice, ⟨rfl, rfl⟩ | ⟨⟨mid, hmid, hoperand⟩, rfl⟩⟩
    · exact .choice hchoice
    · have hreached : ReachedRule state mid :=
        mem_rulesOf_iff.mp (List.mem_flatMap.mpr
          ⟨choice, mem_rulesUnder_choices_iff.mpr hchoice, hmid⟩)
      obtain ⟨hone, h⟩ := holdsOperand_iff.mp hoperand
      exact .operand hreached hone h
  · rintro (h | ⟨hreached, hone, h⟩)
    · exact ⟨rule, h, Or.inl ⟨rfl, rfl⟩⟩
    · obtain ⟨choice, hchoice, hmid⟩ := List.mem_flatMap.mp (mem_rulesOf_iff.mpr hreached)
      exact ⟨choice, mem_rulesUnder_choices_iff.mp hchoice,
        Or.inr ⟨⟨_, hmid, holdsOperand_iff.mpr ⟨hone, h⟩⟩, rfl⟩⟩

/-- Every rule that is reached has its table. -/
theorem exists_ruleTable
    (h : ReachedRule state rule) :
    ∃ own, RuleTable state rule own := by
  cases h with
  | choice h => exact ⟨_, .choice h⟩
  | item hrule hone h => exact ⟨_, .operand hrule hone (Or.inl h)⟩
  | value hrule hone h => exact ⟨_, .operand hrule hone (Or.inr h)⟩

theorem RuleTable.reached
    (h : RuleTable state rule own) :
    ReachedRule state rule := by
  rcases h with h | ⟨hrule, hone, h | h⟩
  · exact .choice h
  · exact .item hrule hone h
  · exact .value hrule hone h

/-- The names in the table of a rule are its fields and the name of one composite rule. -/
theorem RuleTable.mem_names_iff
    (h : RuleTable state rule own) {name : Text} :
    name ∈ own.names ↔ name ∈ fieldNames own ∨ name = oneOfKey := by
  have hdirectives : own.names.filter (fun name =>
      ([arrayOfKey, oneOfKey, Tables.valueOfKey] : List Text).contains name) = [oneOfKey] := by
    cases h <;> decide +kernel
  rw [← List.mem_singleton, ← hdirectives, fieldNames, List.mem_filter, List.mem_filter,
    ← and_or_left]
  cases ([arrayOfKey, oneOfKey, Tables.valueOfKey] : List Text).contains name <;> simp

theorem RuleTable.not_mem_ruleNames_iff
    (h : RuleTable state rule own) {name : Text} :
    name ∉ ruleNames own ↔
      name ∉ comparisonOperators.names ∧ name ∉ fieldNames own ∧ name ≠ oneOfKey := by
  rw [ruleNames, List.mem_append, h.mem_names_iff, not_or, not_or]

/-- The places at a rule are properties that are not supported. -/
theorem RuleTable.unsupported
    (h : RuleTable state rule own) (hp : p ∈ rule.rulePlaces own) :
    Unsupported state p := by
  rcases mem_rulePlaces_iff.mp hp with hp | hp
  · obtain ⟨hchild, name, hname, hnot⟩ := mem_strangers_iff.mp hp
    obtain ⟨hoperator, hfield, hdirective⟩ := h.not_mem_ruleNames_iff.mp hnot
    exact .rule h hchild hname hoperator hfield hdirective
  · obtain ⟨hone, object, hobject, hp⟩ := mem_misplaced_iff.mp hp
    obtain ⟨hchild, name, hname, hnot⟩ := mem_strangers_iff.mp hp
    exact .misplaced (.operands h.reached hone hobject) hchild hname
      (List.mem_singleton.not.mp hnot)

theorem mem_choicePlaces_iff
    {c : Focus} {name : Text} (hname : c.part.propertyName? = some name) :
    p ∈ c.choicePlaces ↔
      name ∉ choiceFields.names ∧ p = c ∨ p ∈ c.fieldsInstead ["Choices"] ∨
        ∃ rule ∈ rulesHeld ["Choices"] [] c, p ∈ rule.placesFrom choiceRule := by
  unfold choicePlaces
  rw [hname, Option.any_some]
  split
  · next h =>
      rw [List.contains_iff_mem] at h
      simp [h]
  · next h =>
      rw [List.contains_iff_mem] at h
      have hunnamed : c.part.propertyName?.any choiceFields.names.contains = false := by
        rw [hname, Option.any_some, ← Bool.not_eq_true, List.contains_iff_mem]
        exact h
      rw [fieldsInstead_of_unnamed (Part.unnamed_of_subset hunnamed (by decide +kernel)),
        rulesHeld_of_unnamed (Part.unnamed_of_subset hunnamed (by decide +kernel))
          (Part.unnamed_of_subset hunnamed (by decide +kernel))]
      simp [h]

/-- The places at a rule are places in the Choice state, by way of the rule in `Choices` around
it. -/
theorem RuleTable.mem_flatMap_choicePlaces
    (hnamed : ∀ c ∈ state.children, ∃ name, c.part.propertyName? = some name)
    (h : RuleTable state rule own) (hp : p ∈ rule.rulePlaces own) :
    p ∈ state.children.flatMap choicePlaces := by
  obtain ⟨choice, hchoice, htable⟩ := List.mem_flatMap.mp (mem_tables_iff.mpr h)
  obtain ⟨c, hc, hheld⟩ := List.mem_flatMap.mp hchoice
  obtain ⟨name, hname⟩ := hnamed c hc
  have hplaces : p ∈ choice.placesFrom choiceRule := List.mem_flatMap.mpr ⟨_, htable, hp⟩
  exact List.mem_flatMap.mpr
    ⟨c, hc, (mem_choicePlaces_iff hname).mpr (Or.inr (Or.inr ⟨choice, hheld, hplaces⟩))⟩

/-- The places in a Choice state are its properties that are not supported. -/
theorem mem_flatMap_choicePlaces_iff
    (hnamed : ∀ c ∈ state.children, ∃ name, c.part.propertyName? = some name) :
    p ∈ state.children.flatMap choicePlaces ↔ Unsupported state p := by
  constructor
  · intro hp
    obtain ⟨c, hc, hp⟩ := List.mem_flatMap.mp hp
    obtain ⟨name, hname⟩ := hnamed c hc
    rcases (mem_choicePlaces_iff hname).mp hp with ⟨hfield, rfl⟩ | hp | ⟨choice, hchoice, hp⟩
    · exact .state hc hname hfield
    · obtain ⟨object, hchoices, hvalue, hobject, hp⟩ := mem_fieldsInstead_iff.mp hp
      obtain ⟨hchild, name, hname, hnot⟩ := mem_strangers_iff.mp hp
      exact .misplaced (.choices ⟨c, hc, hchoices, hvalue, hobject⟩) hchild hname
        (List.mem_singleton.not.mp hnot)
    · obtain ⟨⟨rule, own⟩, htable, hp⟩ := List.mem_flatMap.mp hp
      refine RuleTable.unsupported (mem_tables_iff.mp ?_) hp
      exact List.mem_flatMap.mpr ⟨choice, List.mem_flatMap.mpr ⟨c, hc, hchoice⟩, htable⟩
  · intro h
    cases h with
    | state hp hname hfield =>
        exact List.mem_flatMap.mpr
          ⟨p, hp, (mem_choicePlaces_iff hname).mpr (Or.inl ⟨hfield, rfl⟩)⟩
    | rule hrule hp hname hoperator hfield hdirective =>
        have hnot := hrule.not_mem_ruleNames_iff.mpr ⟨hoperator, hfield, hdirective⟩
        have hstranger := mem_strangers_iff.mpr ⟨hp, _, hname, hnot⟩
        exact hrule.mem_flatMap_choicePlaces hnamed (mem_rulePlaces_iff.mpr (Or.inl hstranger))
    | misplaced hobject hp hname hdirective =>
        have hstranger :=
          mem_strangers_iff.mpr ⟨hp, _, hname, List.mem_singleton.not.mpr hdirective⟩
        cases hobject with
        | choices h =>
            obtain ⟨c, hc, hchoices, hvalue, hobject⟩ := h
            obtain ⟨name, hname⟩ := hnamed c hc
            exact List.mem_flatMap.mpr ⟨c, hc, (mem_choicePlaces_iff hname).mpr (Or.inr (Or.inl
              (mem_fieldsInstead_iff.mpr ⟨_, hchoices, hvalue, hobject, hstranger⟩)))⟩
        | operands hrule hone h =>
            obtain ⟨own, htable⟩ := exists_ruleTable hrule
            have hmisplaced := mem_misplaced_iff.mpr ⟨hone, _, h, hstranger⟩
            exact htable.mem_flatMap_choicePlaces hnamed
              (mem_rulePlaces_iff.mpr (Or.inr hmisplaced))

/-! ## Each place once -/

/-- Rules stand in arrays or under the operators whose value is a rule. -/
def InRulePlace (f : Focus) : Prop :=
  ∃ outer, Holds outer f ∧ (outer.part.isArray = true ∨
    outer.part.propertyName?.any ruleOperators.contains = true)

theorem HoldsItem.inRulePlace
    (h : HoldsItem names object rule) :
    InRulePlace rule := by
  obtain ⟨q, v, -, -, -, harray, hmem, -⟩ := h
  exact ⟨v, hmem, Or.inl harray⟩

theorem RuleTable.inRulePlace
    (h : RuleTable state rule own) :
    InRulePlace rule := by
  rcases h with h | ⟨-, -, h | ⟨q, -, hname, hvalue, -⟩⟩
  · exact h.inRulePlace
  · exact h.inRulePlace
  · obtain ⟨name, hsome, -⟩ := (Option.any_eq_true _ _).mp hname
    exact ⟨q, holds_of_value? hsome hvalue, Or.inr hname⟩

/-- An object in the place of an array is no rule. -/
theorem HoldsValue.not_inRulePlace
    (h : HoldsValue names rule object) (hother : ∀ name ∈ names, name ∉ ruleOperators) :
    ¬ InRulePlace object := by
  rintro ⟨outer, houter, hplace⟩
  obtain ⟨q, -, hname, hvalue, -⟩ := h
  obtain ⟨name, hsome, hmem⟩ := (Option.any_eq_true _ _).mp hname
  obtain rfl := houter.unique (holds_of_value? hsome hvalue)
  rcases hplace with harray | hrule
  · obtain ⟨part, above⟩ := outer
    cases part with
    | tree t => cases hsome
    | _ => cases harray
  · rw [hsome, Option.any_some, List.contains_iff_mem] at hrule
    exact hother name (List.contains_iff_mem.mp hmem) hrule

/-- A place at a rule stands directly inside the rule or inside an object in the place of an
array. -/
theorem exists_holds_of_mem_rulePlaces
    (hp : p ∈ rule.rulePlaces own) :
    ∃ outer, Holds outer p ∧ (outer = rule ∨ HoldsValue listOperators rule outer) := by
  rcases mem_rulePlaces_iff.mp hp with hp | hp
  · exact ⟨rule, (mem_strangers_iff.mp hp).1, Or.inl rfl⟩
  · obtain ⟨-, object, hobject, hp⟩ := mem_misplaced_iff.mp hp
    exact ⟨object, (mem_strangers_iff.mp hp).1, Or.inr hobject⟩

theorem HoldsValue.inside
    (h : HoldsValue names rule object) :
    object.Inside rule := by
  obtain ⟨q, hq, hname, hvalue, -⟩ := h
  obtain ⟨name, hsome, -⟩ := (Option.any_eq_true _ _).mp hname
  exact Relation.TransGen.head hq (Relation.TransGen.single (holds_of_value? hsome hvalue))

/-- Two rules that hold one value are the same. -/
theorem HoldsValue.unique
    {other : Focus} (h : HoldsValue names rule object) (h' : HoldsValue names other object) :
    rule = other := by
  obtain ⟨q, hq, hname, hvalue, -⟩ := h
  obtain ⟨q', hq', hname', hvalue', -⟩ := h'
  obtain ⟨name, hsome, -⟩ := (Option.any_eq_true _ _).mp hname
  obtain ⟨name', hsome', -⟩ := (Option.any_eq_true _ _).mp hname'
  obtain rfl := (holds_of_value? hsome hvalue).unique (holds_of_value? hsome' hvalue')
  exact Holds.unique hq hq'

/-- Two rules have no place in common. -/
theorem RuleTable.eq_of_mem_rulePlaces
    {other : Focus} {others : Fields} (h : RuleTable state rule own)
    (h' : RuleTable state other others) (hp : p ∈ rule.rulePlaces own)
    (hp' : p ∈ other.rulePlaces others) :
    rule = other := by
  obtain ⟨outer, houter, hcase⟩ := exists_holds_of_mem_rulePlaces hp
  obtain ⟨outer', houter', hcase'⟩ := exists_holds_of_mem_rulePlaces hp'
  obtain rfl := houter.unique houter'
  rcases hcase with rfl | hvalue
  · rcases hcase' with rfl | hvalue'
    · rfl
    · exact absurd h.inRulePlace (hvalue'.not_inRulePlace (by decide +kernel))
  · rcases hcase' with rfl | hvalue'
    · exact absurd h'.inRulePlace (hvalue.not_inRulePlace (by decide +kernel))
    · exact hvalue.unique hvalue'

theorem inside_of_mem_fieldsInstead
    {c : Focus} (hp : p ∈ c.fieldsInstead names) :
    p.Inside c := by
  obtain ⟨object, hname, hvalue, -, hp⟩ := mem_fieldsInstead_iff.mp hp
  obtain ⟨name, hsome, -⟩ := (Option.any_eq_true _ _).mp hname
  exact Relation.TransGen.head (holds_of_value? hsome hvalue)
    (Relation.TransGen.single (mem_strangers_iff.mp hp).1)

theorem inside_of_mem_rulePlaces
    (hp : p ∈ rule.rulePlaces own) :
    p.Inside rule := by
  rcases mem_rulePlaces_iff.mp hp with hp | hp
  · exact Relation.TransGen.single (mem_strangers_iff.mp hp).1
  · unfold misplaced at hp
    split at hp
    · cases hp
    · obtain ⟨q, hq, hp⟩ := List.mem_flatMap.mp hp
      exact Relation.TransGen.head hq (inside_of_mem_fieldsInstead hp)

theorem strangers_nodup :
    (object.strangers names).Nodup :=
  (children_nodup object).filter _

theorem fieldsInstead_nodup
    (c : Focus) :
    (c.fieldsInstead names).Nodup := by
  unfold fieldsInstead
  split
  · split
    · exact strangers_nodup
    · exact List.nodup_nil
  · exact List.nodup_nil

theorem rulePlaces_nodup :
    (rule.rulePlaces own).Nodup := by
  refine List.nodup_append'.mpr ⟨strangers_nodup, ?_, ?_⟩
  · unfold misplaced
    split
    · exact List.nodup_nil
    · refine nodup_flatMap_of_level (children_nodup rule) ?_ ?_ fun c _ => fieldsInstead_nodup c
      · intro c hc d hd
        rw [length_above_of_mem_children hc, length_above_of_mem_children hd]
      · exact fun c _ p hp => (inside_of_mem_fieldsInstead hp).to_reflTransGen
  · -- a field of the rule itself does not stand inside of another object
    intro p hp hmisplaced
    have hrule := (mem_strangers_iff.mp hp).1
    obtain ⟨-, object, hobject, hp⟩ := mem_misplaced_iff.mp hmisplaced
    obtain rfl := Holds.unique hrule (mem_strangers_iff.mp hp).1
    exact hobject.inside.not_around Relation.ReflTransGen.refl

theorem map_fst_tablesFrom
    (own : Fields) (rule : Focus) :
    (rule.tablesFrom own).map Prod.fst = rule.rulesFrom := by
  rw [tablesFrom, rulesFrom_eq, List.tail_cons, List.map_cons, List.map_map]
  exact congrArg _ (List.map_id _)

/-- Every rule that is reached is checked once. -/
theorem tables_nodup
    (state : Focus) :
    (((rulesUnder ["Choices"] [] state).flatMap (tablesFrom choiceRule)).map Prod.fst).Nodup := by
  rw [List.map_flatMap]
  simp only [map_fst_tablesFrom]
  exact rulesOf_nodup state

/-- A rule is checked against one table only. -/
theorem RuleTable.unique
    {others : Fields} (h : RuleTable state rule own) (h' : RuleTable state rule others) :
    own = others := by
  have heq := List.inj_on_of_nodup_map (tables_nodup state) (mem_tables_iff.mpr h)
    (mem_tables_iff.mpr h') rfl
  exact (Prod.mk.inj heq).2

/-- The places at the rules of a property of a Choice state. -/
theorem flatMap_placesFrom_nodup
    {c : Focus} (hc : c ∈ state.children) :
    ((rulesHeld ["Choices"] [] c).flatMap (placesFrom choiceRule)).Nodup := by
  let tables := (rulesHeld ["Choices"] [] c).flatMap (tablesFrom choiceRule)
  have htables : ∀ x ∈ tables, RuleTable state x.1 x.2 := by
    intro x hx
    obtain ⟨choice, hchoice, hx⟩ := List.mem_flatMap.mp hx
    exact mem_tables_iff.mp
      (List.mem_flatMap.mpr ⟨choice, List.mem_flatMap.mpr ⟨c, hc, hchoice⟩, hx⟩)
  have hrules : (tables.map Prod.fst).Nodup := by
    have hall := tables_nodup state
    rw [rulesUnder, List.flatMap_assoc, List.map_flatMap] at hall
    exact (List.nodup_flatMap.mp hall).1 c hc
  rw [List.Nodup, List.pairwise_map] at hrules
  have hplaces : (rulesHeld ["Choices"] [] c).flatMap (placesFrom choiceRule) =
      tables.flatMap fun x => x.1.rulePlaces x.2 := by
    rw [List.flatMap_assoc]
    rfl
  rw [hplaces]
  refine List.nodup_flatMap.mpr ⟨fun _ _ => rulePlaces_nodup, ?_⟩
  refine hrules.imp_of_mem fun {x y} hx hy hne p hpx hpy => hne ?_
  exact (htables x hx).eq_of_mem_rulePlaces (htables y hy) hpx hpy

theorem choicePlaces_nodup
    {c : Focus} (hc : c ∈ state.children) :
    c.choicePlaces.Nodup := by
  unfold choicePlaces
  split
  · refine List.nodup_append'.mpr
      ⟨fieldsInstead_nodup c, flatMap_placesFrom_nodup hc, fun p hfield hrule => ?_⟩
    -- the value of the property is an object or an array
    obtain ⟨object, -, hvalue, hobject, -⟩ := mem_fieldsInstead_iff.mp hfield
    obtain ⟨choice, hchoice, -⟩ := List.mem_flatMap.mp hrule
    obtain ⟨-, v, hv, ⟨-, harray, -⟩ | ⟨hname, -⟩⟩ := mem_rulesHeld_iff.mp hchoice
    · obtain rfl := Option.some.inj (hvalue.symm.trans hv)
      rw [isObject_of_isArray harray] at hobject
      cases hobject
    · cases h : c.part.propertyName? with
      | none => rw [h] at hname; cases hname
      | some name => rw [h] at hname; cases hname
  · exact List.nodup_singleton c

theorem inside_of_mem_choicePlaces
    {c : Focus} (hp : p ∈ c.choicePlaces) :
    Relation.ReflTransGen Holds c p := by
  unfold choicePlaces at hp
  split at hp
  · rcases List.mem_append.mp hp with hp | hp
    · exact (inside_of_mem_fieldsInstead hp).to_reflTransGen
    · obtain ⟨choice, hchoice, hp⟩ := List.mem_flatMap.mp hp
      obtain ⟨⟨rule, own⟩, htable, hp⟩ := List.mem_flatMap.mp hp
      have hrule : rule ∈ choice.rulesFrom := by
        rw [← map_fst_tablesFrom choiceRule]
        exact List.mem_map_of_mem htable
      exact ((inside_of_mem_rulesHeld hchoice).to_reflTransGen.trans
        (inside_of_mem_rulesFrom hrule)).trans (inside_of_mem_rulePlaces hp).to_reflTransGen
  · rw [List.mem_singleton.mp hp]

theorem flatMap_choicePlaces_nodup
    (state : Focus) :
    (state.children.flatMap choicePlaces).Nodup := by
  refine nodup_flatMap_of_level (children_nodup state) ?_ ?_ fun c hc => choicePlaces_nodup hc
  · intro c hc d hd
    rw [length_above_of_mem_children hc, length_above_of_mem_children hd]
  · exact fun c _ p hp => inside_of_mem_choicePlaces hp

/-! ## The fields of one rule -/

theorem ReachedRule.inside
    (h : ReachedRule state rule) :
    rule.Inside state := by
  obtain ⟨choice, hchoice, hrule⟩ := List.mem_flatMap.mp (mem_rulesOf_iff.mpr h)
  exact (inside_of_mem_rulesUnder hchoice).trans_left (inside_of_mem_rulesFrom hrule)

theorem InPlaceOfArray.not_inRulePlace
    (h : InPlaceOfArray state object) :
    ¬ InRulePlace object := by
  cases h with
  | choices h => exact h.not_inRulePlace (by decide +kernel)
  | operands hrule hone h => exact h.not_inRulePlace (by decide +kernel)

/-- Whether a field of a rule is supported depends on its name and the table of the rule only. -/
theorem RuleTable.unsupported_iff
    (h : RuleTable state rule own) (hp : p ∈ rule.children) {name : Text}
    (hname : p.part.propertyName? = some name) :
    Unsupported state p ↔
      name ∉ comparisonOperators.names ∧ name ∉ fieldNames own ∧ name ≠ oneOfKey := by
  constructor
  · intro hunsupported
    cases hunsupported with
    | state hchild _ _ =>
        obtain rfl := Holds.unique hp hchild
        exact absurd Relation.ReflTransGen.refl h.reached.inside.not_around
    | rule hrule hchild hother hoperator hfield hdirective =>
        obtain rfl := Holds.unique hp hchild
        obtain rfl := h.unique hrule
        obtain rfl := Option.some.inj (hname.symm.trans hother)
        exact ⟨hoperator, hfield, hdirective⟩
    | misplaced hobject hchild _ _ =>
        obtain rfl := Holds.unique hp hchild
        exact absurd h.inRulePlace hobject.not_inRulePlace
  · rintro ⟨hoperator, hfield, hdirective⟩
    exact .rule h hp hname hoperator hfield hdirective

end Members

end Focus

/-- A field of a rule that is reached from a Choice state is reported at its key if and only if it
is neither a comparison operator, nor a field of the table of the rule, nor called like the
composite rule in that table. -/
theorem Document.unsupported_fields_exact
    (d : Document) {messages : Value} (hmessages : messages.isObject = true) {state : Tree}
    (hkind : Check.kindOf state = some .choice) :
    ∃ (diagnostics : List Diagnostic) (places : List Focus),
      Tables.stateFindings Tables.packaged (some state) >>= d.report messages = .ok diagnostics ∧
        diagnostics.filter (fun x => x.code == some .invalidPropertyName) =
          places.map (fun p => p.strange.diagnostic d messages) ∧
        places.Nodup ∧ (∀ p, p ∈ places ↔ Focus.Unsupported (.root state) p) ∧
        ∀ rule, Focus.ReachedRule (.root state) rule →
          ∃ own, Focus.RuleTable (.root state) rule own ∧
            ∀ p ∈ rule.children, ∀ name, p.part.propertyName? = some name →
              (p ∈ places ↔ name ∉ Tables.comparisonOperators.names ∧
                name ∉ Tables.fieldNames own ∧ name ≠ Tables.oneOfKey) := by
  obtain ⟨properties, hproperties⟩ := Check.properties_of_kindOf hkind
  have hnamed : ∀ c ∈ (Focus.root state).children, ∃ name, c.part.propertyName? = some name := by
    intro c hc
    rw [Focus.children_of_properties rfl hproperties] at hc
    obtain ⟨x, -, rfl⟩ := List.mem_map.mp hc
    exact ⟨_, rfl⟩
  have hplaces := fun p => Focus.mem_flatMap_choicePlaces_iff (p := p) hnamed
  refine ⟨((Focus.root state).children.flatMap Focus.choiceFindings).map
      (Finding.diagnostic d messages), (Focus.root state).children.flatMap Focus.choicePlaces, ?_,
    ?_, Focus.flatMap_choicePlaces_nodup _, hplaces, fun rule hrule => ?_⟩
  · rw [Tables.stateFindings_choice hkind]
    exact d.report_eq_map hmessages _
  · have hfilter : ((Focus.root state).children.flatMap Focus.choiceFindings).filter
          (fun f => f.code == .invalidPropertyName) =
        ((Focus.root state).children.flatMap Focus.choicePlaces).map Focus.strange := by
      rw [List.filter_flatMap, List.map_flatMap]
      exact List.flatMap_congr fun p _ => Focus.filter_choiceFindings p
    rw [List.filter_map]
    exact (congrArg (List.map (Finding.diagnostic d messages)) hfilter).trans List.map_map
  · obtain ⟨own, htable⟩ := Focus.exists_ruleTable hrule
    refine ⟨own, htable, fun p hp name hname => ?_⟩
    rw [hplaces]
    exact htable.unsupported_iff hp hname

/-- A Choice state with fields that are not supported: in the state, in a rule, in a rule inside of
it that may have fewer fields, and in an object in the place of an array. -/
def unsupportedText : Text :=
  "Type: Choice
Retry: 1
Choices:
- Next: A
  Color: 1
  Not:
    Next: B
    Or:
      IsNull: 1
"

/-- The document of that text. -/
def unsupportedDocument : Document :=
  match Document.treeOf .yaml unsupportedText with
  | .ok (some root) => ⟨unsupportedText, .yaml, root, 0⟩
  | _ => ⟨unsupportedText, .yaml, none, 0⟩

/-- The field `Next` is supported in the rule of the array, not in the one under `Not`. -/
theorem unsupported_fields_exact_unsupportedDocument :
    ∃ state, unsupportedDocument.root = some state ∧ Check.kindOf state = some .choice ∧
      ∃ (diagnostics : List Diagnostic) (places : List Focus),
        Tables.stateFindings Tables.packaged (some state) >>=
            unsupportedDocument.report Tables.messages = .ok diagnostics ∧
          diagnostics.filter (fun x => x.code == some .invalidPropertyName) =
            places.map (fun p => p.strange.diagnostic unsupportedDocument Tables.messages) ∧
          places.Nodup ∧ (∀ p, p ∈ places ↔ Focus.Unsupported (.root state) p) ∧
          (∀ rule, Focus.ReachedRule (.root state) rule →
            ∃ own, Focus.RuleTable (.root state) rule own ∧
              ∀ p ∈ rule.children, ∀ name, p.part.propertyName? = some name →
                (p ∈ places ↔ name ∉ Tables.comparisonOperators.names ∧
                  name ∉ Tables.fieldNames own ∧ name ≠ Tables.oneOfKey)) ∧
          diagnostics.map (fun x => (x.code, x.range.start)) =
            [(some .invalidPropertyName, ⟨1, 0⟩), (some .invalidPropertyName, ⟨4, 2⟩),
              (some .invalidPropertyName, ⟨6, 4⟩), (some .invalidPropertyName, ⟨8, 6⟩)] := by
  have hfacts : unsupportedDocument.root.any (fun state =>
      decide (Check.kindOf state = some .choice) &&
        decide ((Tables.stateFindings Tables.packaged (some state) >>=
          unsupportedDocument.report Tables.messages).toOption.map
            (List.map fun x => (x.code, x.range.start)) =
          some [(some .invalidPropertyName, ⟨1, 0⟩), (some .invalidPropertyName, ⟨4, 2⟩),
            (some .invalidPropertyName, ⟨6, 4⟩), (some .invalidPropertyName, ⟨8, 6⟩)])) = true := by
    decide +kernel
  obtain ⟨state, hstate, hfacts⟩ := (Option.any_eq_true _ _).mp hfacts
  rw [Bool.and_eq_true, decide_eq_true_iff, decide_eq_true_iff] at hfacts
  obtain ⟨hkind, hstarts⟩ := hfacts
  obtain ⟨diagnostics, places, hcheck, hnames, hnodup, hplaces, hrules⟩ :=
    @Document.unsupported_fields_exact unsupportedDocument Tables.messages rfl state hkind
  rw [hcheck] at hstarts
  exact ⟨state, hstate, hkind, diagnostics, places, hcheck, hnames, hnodup, hplaces, hrules,
    Option.some.inj hstarts⟩

/-- A rule with a field that is called like the composite rule of its table. -/
def directiveText : Text :=
  "Type: Choice
Choices:
- IsNull: true
  Fn:OneOf: 1
"

/-- The document of that text. -/
def directiveDocument : Document :=
  match Document.treeOf .yaml directiveText with
  | .ok (some root) => ⟨directiveText, .yaml, root, 0⟩
  | _ => ⟨directiveText, .yaml, none, 0⟩

/-- A property that is neither a comparison operator nor a field of the table of its rule is not
reported. -/
theorem directive_passes_as_field :
    ∃ state, directiveDocument.root = some state ∧ Check.kindOf state = some .choice ∧
      Tables.stateFindings Tables.packaged (some state) >>=
          directiveDocument.report Tables.messages = .ok [] ∧
        ∃ rule p, Focus.RuleTable (.root state) rule Tables.choiceRule ∧ p ∈ rule.children ∧
          p.part.propertyName? = some Tables.oneOfKey ∧
          Tables.oneOfKey ∉ Tables.comparisonOperators.names ∧
          Tables.oneOfKey ∉ Tables.fieldNames Tables.choiceRule := by
  have hfacts : (directiveDocument.root.any fun state =>
      decide (Check.kindOf state = some .choice) &&
        ((Tables.stateFindings Tables.packaged (some state) >>=
          directiveDocument.report Tables.messages).toOption.any List.isEmpty) &&
        (Focus.root state).children.any fun c =>
          c.part.propertyName?.any (["Choices"] : List Text).contains && c.value?.any fun v =>
            v.part.isArray && v.children.any fun rule => rule.part.isObject &&
              rule.children.any fun p =>
                decide (p.part.propertyName? = some Tables.oneOfKey)) = true := by
    decide +kernel
  simp only [Option.any_eq_true, List.any_eq_true, Bool.and_eq_true, decide_eq_true_eq]
    at hfacts
  obtain ⟨state, hstate, ⟨hkind, fs, hfs, hempty⟩, c, hc, ⟨name, hname, hchoices⟩, v, hv, harray,
    rule, hrule, hobject, p, hp, hdirective⟩ := hfacts
  have hreport : Tables.stateFindings Tables.packaged (some state) >>=
      directiveDocument.report Tables.messages = .ok [] := by
    rw [List.isEmpty_iff.mp hempty] at hfs
    cases hcheck : Tables.stateFindings Tables.packaged (some state) >>=
        directiveDocument.report Tables.messages with
    | error e => rw [hcheck] at hfs; cases hfs
    | ok found => rw [hcheck] at hfs; exact congrArg Except.ok (Option.some.inj hfs)
  have hnamed : c.part.propertyName?.any (["Choices"] : List Text).contains = true :=
    (Option.any_eq_true _ _).mpr ⟨name, hname, hchoices⟩
  exact ⟨state, hstate, hkind, hreport, rule, p,
    .choice ⟨c, v, hc, hnamed, hv, harray, hrule, hobject⟩, hp, hdirective,
    by decide +kernel, by decide +kernel⟩

end Workflow
