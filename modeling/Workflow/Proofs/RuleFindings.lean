import Workflow.Proofs.CheckedGenerations
import Workflow.Proofs.ReachedRules

/-!
# What the check of fields finds in Choice states

The check of the fields of a Choice state goes from rule to rule.  At each rule it finds the
properties that neither the comparison operators nor the table of the rule knows, and the operators
that exclude each other.  Where an array of rules is expected and an object stands, it takes the
object for one without fields.

The main statement, `Tables.stateFindings_choice`, lists everything that is found in a Choice state,
in order, by the rules that are reached from it.
-/

namespace Workflow

/-- The span of the name of a part: the key of a property, or else the whole part. -/
def Part.nameSpan : Part → Span
  | .property p => p.key.span
  | part => part.span

/-- What only some elements have is found at one place at most, when there is one of these elements
at most. -/
theorem flatMap_append_of_few
    {α β : Type} (has : α → Bool) {first second : α → List β} {l : List α}
    (hfew : ¬ 1 < (l.filter has).length)
    (hnone : ∀ a ∈ l, has a = false → first a = [] ∧ second a = []) :
    (l.flatMap fun a => first a ++ second a) = l.flatMap first ++ l.flatMap second := by
  induction l with
  | nil => rfl
  | cons a l ih =>
      rw [List.flatMap_cons, List.flatMap_cons, List.flatMap_cons]
      cases ha : has a with
      | true =>
          -- behind the only one of these elements there is nothing to be found
          rw [List.filter_cons_of_pos ha, List.length_cons] at hfew
          have hrest : l.filter has = [] := List.length_eq_zero_iff.mp (by omega)
          have hempty : ∀ b ∈ l, first b = [] ∧ second b = [] := fun b hb =>
            hnone b (List.mem_cons_of_mem _ hb)
              (Bool.eq_false_iff.mpr (List.filter_eq_nil_iff.mp hrest b hb))
          rw [List.flatMap_eq_nil_iff.mpr fun b hb => (hempty b hb).1,
            List.flatMap_eq_nil_iff.mpr fun b hb => (hempty b hb).2,
            List.flatMap_eq_nil_iff.mpr fun b hb =>
              List.append_eq_nil_iff.mpr (hempty b hb),
            List.append_nil, List.append_nil, List.append_nil]
      | false =>
          rw [List.filter_cons_of_neg (Bool.eq_false_iff.mp ha)] at hfew
          obtain ⟨hfirst, hsecond⟩ := hnone a List.mem_cons_self ha
          rw [hfirst, hsecond]
          exact ih hfew fun b hb => hnone b (List.mem_cons_of_mem _ hb)

/-- A property whose key is a comparison operator. -/
def Part.isOperator (part : Part) : Bool :=
  part.propertyName?.any Tables.comparisonOperators.names.contains

namespace Focus

/-- The finding at the name of a property that is not allowed. -/
def strange (p : Focus) : Finding := ⟨p.part.nameSpan, .invalidPropertyName⟩

/-- The properties of an object that have none of some names. -/
def strangers (names : List Text) (object : Focus) : List Focus :=
  object.children.filter fun p => p.part.propertyName?.any fun name => !names.contains name

/-- The findings at the operators of a rule that has several. -/
def conflict (rule : Focus) : List Finding :=
  if 1 < rule.part.operators.length then
    rule.part.operators.map fun p => ⟨p.key.span, .exclusiveProperties⟩
  else []

/-- The fields of an object that a property holds in the place of an array of rules.  Only the name
of the rule on arrays counts as known there. -/
def fieldsInstead (arrays : List Text) (p : Focus) : List Focus :=
  match p.value? with
  | some v =>
    if p.part.propertyName?.any arrays.contains && v.part.isObject then
      v.strangers [Tables.arrayOfKey]
    else []
  | none => []

/-- The fields of the object that a rule holds in the place of an array.  Several operators hide
them. -/
def misplaced (rule : Focus) : List Focus :=
  if 1 < rule.part.operators.length then [] else rule.children.flatMap (fieldsInstead listOperators)

/-- The names that a rule may have beside those of a table. -/
def ruleNames (own : Fields) : List Text := Tables.comparisonOperators.names ++ own.names

/-- What is found at one rule that is checked against a table. -/
def ruleFindings (own : Fields) (rule : Focus) : List Finding :=
  (rule.strangers (ruleNames own)).map strange ++ rule.conflict ++ rule.misplaced.map strange

/-- What is found at a rule and at all rules inside that are reached from it. -/
def findingsFrom (own : Fields) (rule : Focus) : List Finding :=
  rule.ruleFindings own ++ rule.rulesFrom.tail.flatMap (ruleFindings Tables.nestedChoiceRule)

/-- What is found in the place of a rule. -/
def findingsAt (own : Fields) (v : Focus) : List Finding :=
  if v.part.isObject then v.findingsFrom own else []

/-- What is found in the place of an array of rules. -/
def findingsAmong (own : Fields) (v : Focus) : List Finding :=
  if v.part.isArray then v.children.flatMap (findingsAt own)
  else if v.part.isObject then (v.strangers [Tables.arrayOfKey]).map strange
  else []

/-- What is found in the value of a property, which is an array of rules under some names and a rule
under others. -/
def findingsHeld (arrays values : List Text) (own : Fields) (p : Focus) : List Finding :=
  (p.fieldsInstead arrays).map strange ++ (rulesHeld arrays values p).flatMap (findingsFrom own)

/-- What is found at a property of a Choice state. -/
def choiceFindings (p : Focus) : List Finding :=
  if p.part.propertyName?.any Tables.choiceFields.names.contains then
    p.findingsHeld ["Choices"] [] Tables.choiceRule
  else [p.strange]

/-! ## Findings by their codes -/

section Codes

variable (code : DiagnosticCode)

/-- Of findings with one code, all are selected or none. -/
theorem filter_code_map
    {α : Type} (own : DiagnosticCode) (found : α → Finding) (hfound : ∀ a, (found a).code = own)
    (l : List α) :
    (l.map found).filter (fun f => f.code == code) = if own == code then l.map found else [] := by
  rw [List.filter_map]
  simp only [Function.comp_def, hfound]
  cases own == code with
  | true => simp
  | false => simp

@[simp] theorem filter_code_strange
    (ps : List Focus) :
    (ps.map strange).filter (fun f => f.code == code) =
      if .invalidPropertyName == code then ps.map strange else [] :=
  filter_code_map code .invalidPropertyName strange (fun _ => rfl) ps

@[simp] theorem filter_code_conflict
    (rule : Focus) :
    rule.conflict.filter (fun f => f.code == code) =
      if .exclusiveProperties == code then rule.conflict else [] := by
  unfold conflict
  split
  · exact filter_code_map code .exclusiveProperties _ (fun _ => rfl) rule.part.operators
  · exact (ite_self _).symm

end Codes

/-! ## Rules with one operator -/

theorem length_filter_isOperator
    (rule : Focus) :
    (rule.children.filter fun p => p.part.isOperator).length = rule.part.operators.length := by
  have hoperators : rule.part.operators =
      (rule.children.filter fun p => p.part.isOperator).filterMap fun p => p.part.property? := by
    rw [Part.operators, ← map_part_children, List.filterMap_map, List.filterMap_filter,
      List.filter_filterMap]
    refine List.filterMap_congr fun p _ => ?_
    obtain ⟨part, above⟩ := p
    cases part with
    | property q => exact Option.filter_some
    | _ => rfl
  rw [hoperators, List.length_filterMap_eq_countP, eq_comm, List.countP_eq_length]
  rintro ⟨part, above⟩ hp
  obtain ⟨-, hname⟩ := List.mem_filter.mp hp
  cases part with
  | property q => rfl
  | _ => cases hname

/-- A property without any of the names holds no object in the place of an array. -/
theorem fieldsInstead_of_unnamed
    {arrays : List Text} {p : Focus} (h : p.part.propertyName?.any arrays.contains = false) :
    p.fieldsInstead arrays = [] := by
  unfold fieldsInstead
  rw [h]
  cases p.value? <;> rfl

/-- What is found at a rule of the nested kind and inside of it belongs to the rules one by one. -/
theorem findingsFrom_nested
    (rule : Focus) :
    rule.findingsFrom Tables.nestedChoiceRule =
      rule.rulesFrom.flatMap (ruleFindings Tables.nestedChoiceRule) := by
  rw [findingsFrom, rulesFrom_eq, List.flatMap_cons, List.tail_cons]

/-- At a rule with several operators these are reported, and nothing inside of it. -/
theorem findingsFrom_of_many
    {rule : Focus} (hmany : 1 < rule.part.operators.length) (own : Fields) :
    rule.findingsFrom own = (rule.strangers (ruleNames own)).map strange ++
      rule.part.operators.map fun p => ⟨p.key.span, .exclusiveProperties⟩ := by
  rw [findingsFrom, rulesFrom_of_many hmany, ruleFindings, conflict, if_pos hmany, misplaced,
    if_pos hmany]
  simp

/-- At a rule with fewer operators the check goes on inside of it. -/
theorem findingsFrom_of_few
    {rule : Focus} (hfew : ¬ 1 < rule.part.operators.length) (own : Fields) :
    rule.findingsFrom own = (rule.strangers (ruleNames own)).map strange ++
      rule.children.flatMap
        (findingsHeld listOperators ruleOperators Tables.nestedChoiceRule) := by
  have hheld : rule.children.flatMap
        (findingsHeld listOperators ruleOperators Tables.nestedChoiceRule) =
      (rule.children.flatMap fun p => (p.fieldsInstead listOperators).map strange) ++
        rule.children.flatMap fun p => (rulesHeld listOperators ruleOperators p).flatMap
          (findingsFrom Tables.nestedChoiceRule) := by
    refine flatMap_append_of_few (fun p => p.part.isOperator) ?_ fun p _ hp => ?_
    · rw [length_filter_isOperator]
      exact hfew
    · rw [rulesHeld_of_not_operator hp,
        fieldsInstead_of_unnamed (Part.unnamed_of_subset hp (by decide +kernel))]
      exact ⟨rfl, rfl⟩
  have hinner : rule.rulesFrom.tail.flatMap (ruleFindings Tables.nestedChoiceRule) =
      rule.children.flatMap fun p => (rulesHeld listOperators ruleOperators p).flatMap
        (findingsFrom Tables.nestedChoiceRule) := by
    rw [rulesFrom_of_few hfew, List.tail_cons, operands, rulesUnder, List.flatMap_assoc,
      List.flatMap_assoc, funext findingsFrom_nested]
  rw [findingsFrom, ruleFindings, conflict, misplaced, if_neg hfew, if_neg hfew, List.append_nil,
    List.append_assoc, List.map_flatMap, hinner, hheld]

section Held

variable {arrays values : List Text} {span : Span} {key : Key} {colon : Option Nat} {t : Tree}
variable {above : List (Part × Nat)}

theorem flatMap_filter_isObject
    (own : Fields) (l : List Focus) :
    (l.filter fun f => f.part.isObject).flatMap (findingsFrom own) =
      l.flatMap (findingsAt own) := by
  induction l with
  | nil => rfl
  | cons f l ih =>
      rw [List.filter_cons, List.flatMap_cons, findingsAt]
      split
      · rw [List.flatMap_cons, ih]
      · rw [ih, List.nil_append]

/-- Under one of the names for arrays, the value is checked as an array of rules. -/
theorem findingsHeld_of_array
    (hkey : arrays.contains key.name = true) (hother : values.contains key.name = false)
    (own : Fields) :
    findingsHeld arrays values own ⟨.property ⟨span, key, colon, some t⟩, above⟩ =
      findingsAmong own ⟨.tree t, (.property ⟨span, key, colon, some t⟩, 1) :: above⟩ := by
  simp only [findingsHeld, fieldsInstead, rulesHeld, value?, Option.map_some, Part.propertyName?,
    Part.property?, Option.any_some, hkey, hother, Bool.true_and, Bool.false_and, findingsAmong]
  cases harray : (Part.tree t).isArray with
  | true =>
      let v : Focus := ⟨.tree t, (.property ⟨span, key, colon, some t⟩, 1) :: above⟩
      have hobject : (Part.tree t).isObject = false := isObject_of_isArray (f := v) harray
      rw [hobject]
      exact flatMap_filter_isObject own v.children
  | false =>
      cases (Part.tree t).isObject with
      | true => exact List.append_nil _
      | false => rfl

/-- Under one of the other names, the value is checked as a rule. -/
theorem findingsHeld_of_value
    (hkey : values.contains key.name = true) (hother : arrays.contains key.name = false)
    (own : Fields) :
    findingsHeld arrays values own ⟨.property ⟨span, key, colon, some t⟩, above⟩ =
      findingsAt own ⟨.tree t, (.property ⟨span, key, colon, some t⟩, 1) :: above⟩ := by
  simp only [findingsHeld, fieldsInstead, rulesHeld, value?, Option.map_some, Part.propertyName?,
    Part.property?, Option.any_some, hkey, hother, Bool.true_and, Bool.false_and, findingsAt]
  split
  · next h => cases h
  · split
    · rw [List.flatMap_cons, List.flatMap_nil, List.append_nil]
      rfl
    · rfl

/-- Under no such name, nothing is found in the value. -/
theorem findingsHeld_of_other
    {p : Property Tree} (harrays : arrays.contains p.key.name = false)
    (hvalues : values.contains p.key.name = false) (own : Fields) :
    findingsHeld arrays values own ⟨.property p, above⟩ = [] := by
  obtain ⟨span, key, colon, value⟩ := p
  cases value with
  | none => rfl
  | some t =>
      simp only [findingsHeld, fieldsInstead, rulesHeld, value?, Option.map_some,
        Part.propertyName?, Part.property?, Option.any_some, harrays, hvalues, Bool.false_and]
      rfl

end Held

/-- The findings at the names of properties, one property after another. -/
theorem map_strange_filter
    (names : List Text) (part : Part) (above : List (Part × Nat)) :
    ∀ (properties : List (Property Tree)) (i : Nat),
      ((((properties.zipIdx i).map fun x => Focus.mk (.property x.1) ((part, x.2) :: above)).filter
        fun p => p.part.propertyName?.any fun name => !names.contains name).map strange) =
        properties.flatMap fun p =>
          if names.contains p.key.name then [] else [⟨p.key.span, .invalidPropertyName⟩]
  | [], _ => rfl
  | p :: properties, i => by
      have ih := map_strange_filter names part above properties (i + 1)
      rw [List.zipIdx_cons, List.map_cons, List.flatMap_cons, ← ih, List.filter_cons]
      cases hname : names.contains p.key.name with
      | true => simp [Part.propertyName?, Part.property?, List.contains_iff_mem.mp hname]
      | false =>
          have hnot : p.key.name ∉ names := by
            rw [← List.contains_iff_mem, hname]
            exact Bool.false_ne_true
          simp [Part.propertyName?, Part.property?, hnot, strange, Part.nameSpan]

theorem map_strange_strangers
    (names : List Text) (span : Span) (properties : List (Property Tree))
    (above : List (Part × Nat)) :
    ((strangers names ⟨.tree (.object span properties), above⟩).map strange) =
      properties.flatMap fun p =>
        if names.contains p.key.name then [] else [⟨p.key.span, .invalidPropertyName⟩] := by
  rw [strangers, children_of_properties rfl rfl]
  exact map_strange_filter names _ above properties 0

end Focus

/-- A state of some kind is an object. -/
theorem Check.properties_of_kindOf
    {state : Tree} {kind : StateKind} (hkind : kindOf state = some kind) :
    ∃ properties, state.properties? = some properties := by
  cases hproperties : state.properties? with
  | none => simp [kindOf, textIn, Tree.property?, hproperties] at hkind
  | some properties => exact ⟨properties, rfl⟩

namespace Tables

open Focus (listOperators ruleOperators findingsAt findingsAmong findingsHeld)

/-- In a table in which all entries count, the names with an entry that counts are those of the
table. -/
theorem truthy_get_obj
    {fields : Fields} (h : ∀ field ∈ fields, field.2.truthy = true) (name : Text) :
    ((Value.obj fields).get name).truthy = fields.names.contains name := by
  rw [Value.get, Value.get?, Value.fields?, Option.bind_some, Bool.eq_iff_iff,
    List.contains_iff_mem]
  cases hget : fields.get? name with
  | none =>
      refine ⟨fun hnull => ?_, fun hname => ?_⟩
      · cases hnull
      · obtain ⟨field, hfield, rfl⟩ := List.mem_map.mp hname
        exact absurd rfl (Fields.ne_of_get?_eq_none hget field hfield)
  | some v =>
      have hmem := Fields.mem_of_get? hget
      exact ⟨fun _ => List.mem_map.mpr ⟨_, hmem, rfl⟩, fun _ => h _ hmem⟩

theorem truthy_comparisonOperators
    (name : Text) :
    ((Value.obj comparisonOperators).get name).truthy = comparisonOperators.names.contains name :=
  truthy_get_obj (by decide +kernel) name

theorem operators_object
    (span : Span) (properties : List (Property Tree)) :
    (Part.tree (.object span properties)).operators =
      presentIn (.obj comparisonOperators) properties := by
  rw [Part.operators, presentIn, Part.children, List.filterMap_map]
  simp only [truthy_comparisonOperators]
  congr 1
  exact List.filterMap_some

/-- A table with further tables under some names only has none under other names. -/
theorem isObject_get_obj
    {fields : Fields} (holds : Text → Bool)
    (hall : ∀ field ∈ fields, field.2.isObject = true → holds field.1 = true) {name : Text}
    (h : holds name = false) :
    ((Value.obj fields).get name).isObject = false := by
  rw [Value.get, Value.get?, Value.fields?, Option.bind_some]
  cases hget : fields.get? name with
  | none => rfl
  | some v =>
      rw [Option.getD_some, Bool.eq_false_iff]
      intro hobject
      have hname := hall _ (Fields.mem_of_get? hget) hobject
      rw [h] at hname
      cases hname

/-- What is checked in the value of `And` and `Or`. -/
theorem get_listOperators
    {name : Text} (h : listOperators.contains name = true) :
    (Value.obj comparisonOperators).get name = .obj [arrayOf "NestedChoiceRule"] := by
  rw [List.contains_iff_mem, listOperators, List.mem_cons, List.mem_singleton] at h
  rcases h with rfl | rfl
  · rfl
  · rfl

/-- What is checked in the value of `Not`. -/
theorem get_ruleOperators
    {name : Text} (h : ruleOperators.contains name = true) :
    (Value.obj comparisonOperators).get name = .obj [valueOf "NestedChoiceRule"] := by
  rw [List.contains_iff_mem, ruleOperators, List.mem_singleton] at h
  rw [h]
  rfl

theorem ruleOperators_of_listOperators
    {name : Text} (h : listOperators.contains name = true) :
    ruleOperators.contains name = false := by
  rw [List.contains_iff_mem, listOperators, List.mem_cons, List.mem_singleton] at h
  rcases h with rfl | rfl
  · decide
  · decide

/-- No other comparison operator holds rules. -/
theorem isObject_comparisonOperators
    {name : Text} (hlist : listOperators.contains name = false)
    (hrule : ruleOperators.contains name = false) :
    ((Value.obj comparisonOperators).get name).isObject = false := by
  have hall : ∀ field ∈ comparisonOperators, field.2.isObject = true →
      (listOperators.contains field.1 || ruleOperators.contains field.1) = true := by
    decide +kernel
  refine isObject_get_obj (fun name => listOperators.contains name || ruleOperators.contains name)
    hall ?_
  rw [hlist, hrule, Bool.false_or]

/-- A table that rules are checked against: at most one comparison operator, beside fields of its
own. -/
structure ForRules (own : Fields) (table : Value) : Prop where
  no_array : ∀ name, table.get arrayOfKey ≠ .str name
  rule : objectRule (.obj referenceTypes) (ruleBound (.obj referenceTypes)) table =
    .ok (.exclusive (.obj own) (.obj comparisonOperators))
  counts : ∀ field ∈ own, field.2.truthy = true

/-- A table that arrays of rules are checked against: it names the table for the items. -/
structure ForRuleArrays (own : Fields) (table : Value) : Prop where
  items : ∃ name next, table.get arrayOfKey = .str name ∧
    lookup (.obj referenceTypes) name = .ok next ∧ next.isObject = true ∧ ForRules own next
  rule : objectRule (.obj referenceTypes) (ruleBound (.obj referenceTypes)) table =
    .ok (.plain table)
  fields : ∃ entry, table = .obj [(arrayOfKey, entry)] ∧ entry.truthy = true ∧
    entry.isObject = false

theorem forRules_choiceRule :
    ForRules choiceRule (.obj choiceRule) where
  no_array := nofun
  rule := rfl
  counts := by decide +kernel

theorem forRules_nestedChoiceRule :
    ForRules nestedChoiceRule (.obj nestedChoiceRule) where
  no_array := nofun
  rule := rfl
  counts := by decide +kernel

theorem forRules_valueOf :
    ForRules nestedChoiceRule (.obj [valueOf "NestedChoiceRule"]) where
  no_array := nofun
  rule := rfl
  counts := by decide +kernel

theorem forRuleArrays_arrayOf
    {own : Fields} {table : String} {next : Value}
    (hnext : lookup (.obj referenceTypes) (Text.ofString table) = .ok next)
    (hobject : next.isObject = true) (hrules : ForRules own next)
    (hnamed : (Text.ofString table).isEmpty = false) :
    ForRuleArrays own (.obj [arrayOf table]) where
  items := ⟨_, next, rfl, hnext, hobject, hrules⟩
  rule := rfl
  fields := ⟨_, rfl, by rw [Value.truthy, hnamed]; rfl, rfl⟩

theorem forRuleArrays_nested :
    ForRuleArrays nestedChoiceRule (.obj [arrayOf "NestedChoiceRule"]) :=
  forRuleArrays_arrayOf rfl rfl forRules_nestedChoiceRule rfl

/-! ## The check of rules -/

/-- The findings at names that are not allowed, when it can always be told which are allowed. -/
theorem unknownFields_eq
    {allowed : Text → Except Fault Bool} {names : List Text}
    (hallowed : ∀ name, allowed name = .ok (names.contains name))
    (properties : List (Property Tree)) :
    unknownFields allowed properties = .ok (properties.flatMap fun p =>
      if names.contains p.key.name then [] else [⟨p.key.span, .invalidPropertyName⟩]) := by
  rw [unknownFields, mapM_eq_ok_map fun p _ => congrArg (· >>= _) (hallowed p.key.name)]
  exact congrArg Except.ok List.flatMap_def.symm

/-- Where an object stands in the place of an array of rules, all of its fields are strange but the
name of the rule on arrays. -/
theorem fieldFindings_arrayOf
    (named : Value) {entry : Value} (hcounts : entry.truthy = true)
    (hflat : entry.isObject = false) :
    ∀ properties : List (Property Tree),
      fieldFindings named (.obj [(arrayOfKey, entry)]) properties =
        .ok (properties.flatMap fun p =>
          if [arrayOfKey].contains p.key.name then [] else [⟨p.key.span, .invalidPropertyName⟩])
  | [] => rfl
  | ⟨span, key, colon, value⟩ :: properties => by
      have hrest := fieldFindings_arrayOf named hcounts hflat properties
      have hentry : (Value.obj [(arrayOfKey, entry)]).get key.name =
          if [arrayOfKey].contains key.name then entry else .null := by
        rw [Value.get, Value.get?, Value.fields?, Option.bind_some, Fields.get?]
        cases hname : arrayOfKey == key.name with
        | true => simp [eq_comm.mp (beq_iff_eq.mp hname)]
        | false => simp [hname, Ne.symm (beq_eq_false_iff_ne.mp hname)]
      rw [fieldFindings, hrest, List.flatMap_cons, lookup, hentry]
      cases [arrayOfKey].contains key.name with
      | true =>
          change (if entry.truthy = true then _ else _) = _
          rw [if_pos hcounts]
          cases value with
          | none => rfl
          | some t => exact if_neg (Bool.eq_false_iff.mp hflat)
      | false => rfl

mutual

/-- Against a table for rules, the check finds what is to be found at the rules that are reached. -/
theorem findings_eq :
    ∀ (t : Tree) (above : List (Part × Nat)) {own : Fields} {table : Value}, ForRules own table →
      findings (.obj referenceTypes) table t = .ok (findingsAt own ⟨.tree t, above⟩)
  | .object span properties, above, own, table, htable => by
      let rule : Focus := ⟨.tree (.object span properties), above⟩
      have hoperators : rule.part.operators = presentIn (.obj comparisonOperators) properties :=
        operators_object span properties
      have hallowed : ∀ name, (do
          let operator ← lookup (.obj comparisonOperators) name
          let field ← lookup (.obj own) name
          pure (operator.truthy || field.truthy)) = .ok ((Focus.ruleNames own).contains name) := by
        intro name
        rw [Focus.ruleNames, List.contains_append, ← truthy_comparisonOperators,
          ← truthy_get_obj htable.counts]
        rfl
      have hunknown := unknownFields_eq hallowed properties
      rw [findings, htable.rule]
      change (unknownFields _ properties >>= _) = _
      rw [hunknown, ← Focus.map_strange_strangers _ span properties above]
      change (if _ then _ else _) = _
      have hat : findingsAt own rule = rule.findingsFrom own := if_pos rfl
      rw [← hoperators, hat]
      split
      · next hmany =>
          rw [Focus.findingsFrom_of_many hmany]
          rfl
      · next hfew =>
          rw [valueFindings_eq properties (.tree (.object span properties)) above 0,
            Focus.findingsFrom_of_few hfew, Focus.children_of_properties rfl rfl,
            List.flatMap_map]
          rfl
  | .array _ _, above, own, table, htable => by
      rw [findings]
      split
      · next name hname => exact absurd hname (htable.no_array name)
      · rfl
  | .null _, _, _, _, _ => rfl
  | .boolean _ _, _, _, _, _ => rfl
  | .number _ _, _, _, _, _ => rfl
  | .string _ _, _, _, _, _ => rfl

/-- Against a table for arrays of rules, the check finds what is to be found at the rules that are
reached from the items of an array. -/
theorem arrayFindings_eq :
    ∀ (t : Tree) (above : List (Part × Nat)) {own : Fields} {table : Value},
      ForRuleArrays own table →
      findings (.obj referenceTypes) table t = .ok (findingsAmong own ⟨.tree t, above⟩)
  | .array span items, above, own, table, htable => by
      obtain ⟨name, next, hname, hlookup, hobject, hrules⟩ := htable.items
      rw [findings, hname, findingsAmong, Focus.children_of_items rfl rfl, List.flatMap_map]
      dsimp only
      rw [hlookup]
      refine (if_pos hobject).trans ?_
      exact itemFindings_eq items _ above 0 hrules
  | .object span properties, above, own, table, htable => by
      obtain ⟨entry, rfl, hcounts, hflat⟩ := htable.fields
      rw [findings, htable.rule]
      refine (fieldFindings_arrayOf _ hcounts hflat properties).trans (congrArg Except.ok ?_)
      exact (Focus.map_strange_strangers [arrayOfKey] span properties above).symm
  | .null _, _, _, _, _ => rfl
  | .boolean _ _, _, _, _, _ => rfl
  | .number _ _, _, _, _, _ => rfl
  | .string _ _, _, _, _, _ => rfl

/-- The same of the items one by one. -/
theorem itemFindings_eq :
    ∀ (items : List Tree) (part : Part) (above : List (Part × Nat)) (i : Nat) {own : Fields}
      {table : Value}, ForRules own table →
      itemFindings (.obj referenceTypes) table items =
        .ok ((items.zipIdx i).flatMap fun x => findingsAt own ⟨.tree x.1, (part, x.2) :: above⟩)
  | [], _, _, _, _, _, _ => rfl
  | t :: items, part, above, i, own, table, htable => by
      have hrest := itemFindings_eq items part above (i + 1) htable
      rw [itemFindings, hrest, List.zipIdx_cons, List.flatMap_cons]
      cases hobject : t.isObject with
      | true =>
          rw [if_pos rfl, findings_eq t ((part, i) :: above) htable]
          rfl
      | false =>
          have hnone : findingsAt own ⟨.tree t, (part, i) :: above⟩ = [] := if_neg (by
            rw [Part.isObject, Part.tree?, Option.any_some, hobject]
            exact Bool.false_ne_true)
          rw [hnone]
          rfl

/-- Inside the comparison operators, the check finds what is to be found at the rules that the
operators hold. -/
theorem valueFindings_eq :
    ∀ (properties : List (Property Tree)) (part : Part) (above : List (Part × Nat)) (i : Nat),
      valueFindings (.obj referenceTypes) (.obj comparisonOperators) properties =
        .ok ((properties.zipIdx i).flatMap fun x =>
          findingsHeld listOperators ruleOperators nestedChoiceRule
            ⟨.property x.1, (part, x.2) :: above⟩)
  | [], _, _, _ => rfl
  | ⟨span, key, colon, value⟩ :: properties, part, above, i => by
      have hrest := valueFindings_eq properties part above (i + 1)
      rw [valueFindings.eq_def, List.zipIdx_cons, List.flatMap_cons]
      dsimp only
      rw [hrest]
      cases value with
      | none => rfl
      | some t =>
          dsimp only
          cases hlist : listOperators.contains key.name with
          | true =>
              have hother := ruleOperators_of_listOperators hlist
              rw [get_listOperators hlist, Focus.findingsHeld_of_array hlist hother]
              refine (if_pos rfl).trans ?_
              rw [arrayFindings_eq t _ forRuleArrays_nested]
              rfl
          | false =>
              cases hrule : ruleOperators.contains key.name with
              | true =>
                  rw [get_ruleOperators hrule, Focus.findingsHeld_of_value hrule hlist]
                  refine (if_pos rfl).trans ?_
                  rw [findings_eq t _ forRules_valueOf]
                  rfl
              | false =>
                  rw [isObject_comparisonOperators hlist hrule,
                    Focus.findingsHeld_of_other hlist hrule]
                  rfl

end

/-! ## Choice states -/

/-- Only one field of Choice states holds rules. -/
theorem isObject_choiceFields
    {name : Text} (h : (["Choices"] : List Text).contains name = false) :
    ((Value.obj choiceFields).get name).isObject = false := by
  have hall : ∀ field ∈ choiceFields, field.2.isObject = true →
      (["Choices"] : List Text).contains field.1 = true := by
    decide +kernel
  exact isObject_get_obj (List.contains ["Choices"]) hall h

theorem truthy_choiceFields
    (name : Text) :
    ((Value.obj choiceFields).get name).truthy = choiceFields.names.contains name :=
  truthy_get_obj (by decide +kernel) name

/-- The check of a property of a Choice state finds what is to be found at it and in the rules that
it holds. -/
theorem choicePropertyFindings_eq
    (p : Property Tree) (above : List (Part × Nat)) :
    statePropertyFindings (.obj referenceTypes) (.obj common)
        (.obj [entry "Properties" choiceFields]) false p =
      .ok (Focus.choiceFindings ⟨.property p, above⟩) := by
  obtain ⟨span, key, colon, value⟩ := p
  have hentry : statePropertyFindings (.obj referenceTypes) (.obj common)
        (.obj [entry "Properties" choiceFields]) false ⟨span, key, colon, value⟩ =
      let entry := (Value.obj choiceFields).get key.name
      if entry.truthy then
        value.elim (pure []) fun t =>
          if entry.isObject then findings (.obj referenceTypes) entry t else pure []
      else pure [⟨key.span, .invalidPropertyName⟩] := by
    cases value <;> rfl
  rw [hentry]
  dsimp only
  have hname : (Part.property ⟨span, key, colon, value⟩).propertyName?.any
      choiceFields.names.contains = choiceFields.names.contains key.name := rfl
  rw [Focus.choiceFindings, hname, truthy_choiceFields]
  cases choiceFields.names.contains key.name with
  | false => rfl
  | true =>
      rw [if_pos rfl, if_pos rfl]
      cases hchoices : (["Choices"] : List Text).contains key.name with
      | true =>
          have hkey := hchoices
          rw [List.contains_iff_mem, List.mem_singleton] at hkey
          have htable : (Value.obj choiceFields).get key.name = .obj [arrayOf "ChoiceRule"] := by
            rw [hkey]
            rfl
          rw [htable]
          cases value with
          | none => rfl
          | some t =>
              rw [Focus.findingsHeld_of_array hchoices rfl]
              exact arrayFindings_eq t _ (forRuleArrays_arrayOf rfl rfl forRules_choiceRule rfl)
      | false =>
          rw [isObject_choiceFields hchoices, Focus.findingsHeld_of_other hchoices rfl]
          cases value <;> rfl

/-- Everything that the check of fields finds in a Choice state, property by property. -/
theorem stateFindings_choice
    {state : Tree} (hkind : Check.kindOf state = some .choice) :
    stateFindings packaged (some state) =
      .ok ((Focus.root state).children.flatMap Focus.choiceFindings) := by
  obtain ⟨properties, hproperties⟩ := Check.properties_of_kindOf hkind
  have hmarks : properties.mapM (statePropertyFindings (.obj referenceTypes) (.obj common)
        (.obj [entry "Properties" choiceFields]) false) =
      .ok (properties.zipIdx.map fun x =>
        Focus.choiceFindings ⟨.property x.1, [(.tree state, x.2)]⟩) := by
    conv_lhs => rw [← List.zipIdx_map_fst 0 properties, List.mapM_map]
    exact mapM_eq_ok_map fun x _ => choicePropertyFindings_eq x.1 [(.tree state, x.2)]
  unfold stateFindings
  simp only [Option.bind_some, hproperties]
  change (kindTable (.obj stateTypes) (some state) >>= _) = _
  rw [kindTable_of_kindOf _ hkind]
  change (properties.mapM (statePropertyFindings (.obj referenceTypes) (.obj common)
    (.obj [entry "Properties" choiceFields]) false) >>= _) = _
  rw [hmarks, Focus.children_of_properties rfl hproperties, List.flatMap_map]
  exact congrArg Except.ok List.flatMap_def.symm

end Tables

end Workflow
