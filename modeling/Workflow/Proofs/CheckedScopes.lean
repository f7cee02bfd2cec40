import Workflow.Check.States
import Workflow.Proofs.FieldFindings
import Workflow.Proofs.SuccessorEdges
import Workflow.Proofs.TreeValues

/-!
# The scopes that a check enters

A check goes through the tree of a document.  For every scope that it enters it finds what is wrong
with the references of this scope, and judges the scope.  Here each of these findings is related to
the value of the scope: the names that a state reaches are its successors in the value, provided
that no object repeats a key.
-/

namespace Workflow

/-- No reference is wrong. -/
def ReferencesRight (fs : List Finding) : Prop := ∀ f ∈ fs, f.code.isReference = false

theorem referencesRight_append
    {fs gs : List Finding} :
    ReferencesRight (fs ++ gs) ↔ ReferencesRight fs ∧ ReferencesRight gs := by
  unfold ReferencesRight
  rw [List.forall_mem_append]

mutual

/-- A template is not judged. -/
theorem aboutFields_templateFindings :
    ∀ t : Tree, AboutFields (templateFindings t)
  | .object _ properties => by
      rw [templateFindings]
      exact aboutFields_templateFieldFindings properties
  | .null _ => aboutFields_nil
  | .boolean _ _ => aboutFields_nil
  | .number _ _ => aboutFields_nil
  | .string _ _ => aboutFields_nil
  | .array _ _ => aboutFields_nil

/-- Nor are the properties of a template. -/
theorem aboutFields_templateFieldFindings :
    ∀ properties : List (Property Tree), AboutFields (templateFieldFindings properties)
  | [] => aboutFields_nil
  | ⟨_, _, _, some t⟩ :: properties => by
      rw [templateFieldFindings, aboutFields_append]
      refine ⟨?_, aboutFields_templateFieldFindings properties⟩
      split
      · split
        · exact aboutFields_nil
        · exact aboutFields_singleton rfl rfl
      · exact aboutFields_templateFindings t
  | ⟨_, _, _, none⟩ :: properties => by
      rw [templateFieldFindings]
      exact aboutFields_templateFieldFindings properties

end

theorem aboutFields_propertyFindings
    (p : Option (Property Tree)) :
    AboutFields (propertyFindings p) := by
  unfold propertyFindings
  split
  · exact aboutFields_templateFindings _
  · exact aboutFields_nil

theorem aboutFields_failPathFindings
    (state : Tree) :
    AboutFields (failPathFindings state) := by
  unfold failPathFindings
  refine aboutFields_flatMap fun name _ => ?_
  split
  · split
    · exact aboutFields_nil
    · exact aboutFields_singleton rfl rfl
  · exact aboutFields_nil

namespace Check

section Edges

variable {names : List Text}

/-- A reference is right when it has no value yet, or when its value is one of the names. -/
theorem reference_eq_nil_iff
    {code : DiagnosticCode} {p : Option (Property Tree)} :
    reference names code p = [] ↔
      ∀ t, p.bind Property.value = some t → ∃ id ∈ names, t.text? = some id := by
  unfold reference
  cases hvalue : p.bind Property.value with
  | none => simp
  | some t =>
      cases htext : t.text? with
      | none => simp [htext]
      | some id => simp [htext]

theorem verdictsIn_reference
    {code : DiagnosticCode} (hcode : code.isVerdict = false) (p : Option (Property Tree)) :
    verdictsIn (reference names code p) = [] := by
  unfold reference
  cases p.bind Property.value with
  | none => rfl
  | some t =>
      dsimp only
      split
      · rfl
      · exact verdictsIn_singleton hcode

theorem textIn_eq_some_iff
    {p : Option (Property Tree)} {id : Text} :
    textIn p = some id ↔ ∃ t, p.bind Property.value = some t ∧ t.text? = some id := by
  rw [textIn, Option.bind_eq_some_iff]

/-- The text in a property is the text of the field. -/
theorem textIn_property?
    {t : Tree} (ht : t.DistinctKeys) {name id : Text} :
    textIn (t.property? name) = some id ↔ t.toValue.get name = .str id := by
  rw [textIn, ← ht.text?_get_toValue]
  cases t.toValue.get name with
  | str other => simp [Value.text?]
  | _ => simp [Value.text?]

/-- A rule has a text in its `Next` property when its value is an object with this target. -/
theorem textIn_next_iff
    {item : Tree} (hitem : item.DistinctKeys) {id : Text} :
    (∃ p, item.property? "Next" = some p ∧ textIn (some p) = some id) ↔
      item.toValue.isObject = true ∧ item.toValue.get "Next" = .str id := by
  constructor
  · rintro ⟨p, hp, htext⟩
    rw [← hp, textIn_property? hitem] at htext
    refine ⟨?_, htext⟩
    cases hvalue : item.toValue with
    | obj fields => rfl
    | _ =>
        rw [hvalue] at htext
        cases htext
  · rintro ⟨-, htarget⟩
    rw [← textIn_property? hitem] at htarget
    cases hp : item.property? "Next" with
    | none =>
        rw [hp] at htarget
        cases htarget
    | some p => exact ⟨p, rfl, hp ▸ htarget⟩

/-- The rules of a field, in the tree and in the value. -/
theorem mem_ruleTargets_toValue_iff
    {state : Tree} (hstate : state.DistinctKeys) {field id : Text} :
    .str id ∈ State.ruleTargets state.toValue field ↔
      ∃ items, ((state.property? field).bind Property.value).bind Tree.items? = some items ∧
        ∃ p ∈ items.filterMap fun item => item.property? "Next", textIn (some p) = some id := by
  rw [State.mem_ruleTargets_iff, hstate.items?_get?_toValue]
  have hitems : ∀ items,
      ((state.property? field).bind Property.value).bind Tree.items? = some items →
        ∀ item ∈ items, item.DistinctKeys := by
    intro items hitems
    obtain ⟨u, hu, hitems⟩ := Option.bind_eq_some_iff.mp hitems
    obtain ⟨p, hp, hvalue⟩ := Option.bind_eq_some_iff.mp hu
    exact (hstate.property? hp hvalue).items hitems
  constructor
  · rintro ⟨rules, hrules, rule, hrule, hobject, htarget⟩
    obtain ⟨items, hfound, rfl⟩ := Option.map_eq_some_iff.mp hrules
    obtain ⟨item, hitem, rfl⟩ := List.mem_map.mp hrule
    obtain ⟨p, hp, htext⟩ :=
      (textIn_next_iff (hitems items hfound item hitem)).mpr ⟨hobject, htarget⟩
    exact ⟨items, hfound, p, List.mem_filterMap.mpr ⟨item, hitem, hp⟩, htext⟩
  · rintro ⟨items, hfound, p, hp, htext⟩
    obtain ⟨item, hitem, hnext⟩ := List.mem_filterMap.mp hp
    obtain ⟨hobject, htarget⟩ :=
      (textIn_next_iff (hitems items hfound item hitem)).mp ⟨p, hnext, htext⟩
    refine ⟨items.map Tree.toValue, ?_, item.toValue, List.mem_map_of_mem hitem, hobject, htarget⟩
    rw [hfound, Option.map_some]

/-- A reference to a text is right when this text is one of the names. -/
theorem reference_eq_nil_of_textIn
    {code : DiagnosticCode} {p : Option (Property Tree)} {id : Text} (htext : textIn p = some id) :
    reference names code p = [] ↔ id ∈ names := by
  obtain ⟨t, ht, hid⟩ := textIn_eq_some_iff.mp htext
  rw [reference_eq_nil_iff]
  constructor
  · intro h
    obtain ⟨other, hother, heq⟩ := h t ht
    rw [hid, Option.some.injEq] at heq
    exact heq ▸ hother
  · intro hid' u hu
    rw [ht, Option.some.injEq] at hu
    exact ⟨id, hid', hu ▸ hid⟩

/-- A reference without a wrong one is right. -/
theorem reference_eq_nil_of_right
    {code : DiagnosticCode} (hcode : code.isReference = true) {p : Option (Property Tree)}
    (hright : ReferencesRight (reference names code p)) :
    reference names code p = [] := by
  unfold reference at hright ⊢
  cases hvalue : p.bind Property.value with
  | none => rfl
  | some t =>
      rw [hvalue] at hright
      dsimp only at hright ⊢
      split
      · rfl
      · next hunnamed =>
          rw [if_neg hunnamed] at hright
          have hfalse := hright _ List.mem_cons_self
          rw [hcode] at hfalse
          cases hfalse

/-- The names that the rules of a field reach are its targets in the value, if these are names of
the scope. -/
theorem mem_rules_iff
    {state : Tree} (hstate : state.DistinctKeys) {field id : Text} :
    id ∈ (rules names field state).2 ↔
      id ∈ names ∧ .str id ∈ State.ruleTargets state.toValue field := by
  rw [mem_ruleTargets_toValue_iff hstate]
  unfold rules
  cases ((state.property? field).bind Property.value).bind Tree.items? with
  | none => simp
  | some items =>
      simp only [Option.some.injEq, exists_eq_left', List.mem_filterMap (β := Text)]
      constructor
      · rintro ⟨p, hp, hreached⟩
        split at hreached
        · next hright =>
            rw [List.isEmpty_iff, reference_eq_nil_of_textIn hreached] at hright
            exact ⟨hright, p, hp, hreached⟩
        · cases hreached
      · rintro ⟨hid, p, hp, htext⟩
        refine ⟨p, hp, ?_⟩
        rw [(reference_eq_nil_of_textIn htext).mpr hid]
        exact htext

/-- Where no rule of a field is wrong, all targets in its value are names of the scope. -/
theorem mem_names_of_rules
    {state : Tree} (hstate : state.DistinctKeys) {field id : Text}
    (hright : ReferencesRight (rules names field state).1)
    (htarget : .str id ∈ State.ruleTargets state.toValue field) :
    id ∈ names := by
  obtain ⟨items, hitems, p, hp, htext⟩ := (mem_ruleTargets_toValue_iff hstate).mp htarget
  rw [rules, hitems] at hright
  have hreference : ReferencesRight (reference names .invalidNext (some p)) := fun f hf =>
    hright f (List.mem_flatMap.mpr ⟨p, hp, hf⟩)
  exact (reference_eq_nil_of_textIn htext).mp (reference_eq_nil_of_right rfl hreference)

/-- The kind of a state, read off the tree and off the value. -/
theorem kindOf_eq
    {state : Tree} (hstate : state.DistinctKeys) :
    kindOf state = State.kind? state.toValue := by
  have htype : (state.toValue.get? "Type").bind Value.text? = (state.toValue.get "Type").text? := by
    rw [Value.get]
    cases state.toValue.get? "Type" <;> rfl
  rw [kindOf, State.kind?, htype, hstate.text?_get_toValue]
  rfl

theorem handlesErrors_eq
    {state : Tree} (hstate : state.DistinctKeys) :
    (kindOf state).any StateKind.handlesErrors = State.handlesErrors state.toValue := by
  rw [kindOf_eq hstate]
  rfl

theorem isChoice_eq
    {state : Tree} (hstate : state.DistinctKeys) :
    (kindOf state == some .choice) = State.isKind state.toValue .choice := by
  rw [kindOf_eq hstate]
  rfl

section Report

variable {state : Tree} (hstate : state.DistinctKeys)

include hstate

theorem mem_caught_iff
    {id : Text} :
    id ∈ (caught names state).2 ↔
      id ∈ names ∧ State.handlesErrors state.toValue = true ∧
        .str id ∈ State.ruleTargets state.toValue "Catch" := by
  rw [caught, handlesErrors_eq hstate]
  cases State.handlesErrors state.toValue with
  | false => simp
  | true => simp [mem_rules_iff hstate]

theorem mem_chosen_iff
    {id : Text} :
    id ∈ (chosen names state).2 ↔
      id ∈ names ∧ State.isKind state.toValue .choice = true ∧
        (.str id ∈ State.ruleTargets state.toValue "Choices" ∨
          state.toValue.get "Default" = .str id) := by
  rw [chosen, isChoice_eq hstate]
  cases State.isKind state.toValue .choice with
  | false => simp
  | true =>
      simp only [if_true, List.mem_append, mem_rules_iff hstate, true_and,
        ← textIn_property? hstate]
      have hdefault : (id ∈ if (reference names .invalidDefault (state.property? "Default")).isEmpty
            then (textIn (state.property? "Default")).toList else []) ↔
          id ∈ names ∧ textIn (state.property? "Default") = some id := by
        split
        · next hright =>
            rw [Option.mem_toList]
            constructor
            · intro htext
              rw [List.isEmpty_iff, reference_eq_nil_of_textIn htext] at hright
              exact ⟨hright, htext⟩
            · exact And.right
        · next hwrong =>
            rw [List.isEmpty_iff] at hwrong
            constructor
            · intro h
              cases h
            · rintro ⟨hid, htext⟩
              exact absurd ((reference_eq_nil_of_textIn htext).mpr hid) hwrong
      rw [hdefault, or_comm, ← and_or_left]

/-- The names of the scope that a state reaches are its successors. -/
theorem mem_reached_iff
    {id : Text} (hid : id ∈ names) (inner fields : List Finding) :
    id ∈ (report names inner fields state).reached ↔ id ∈ State.nextIds state.toValue := by
  rw [State.mem_nextIds_iff, State.mem_targetValues_iff]
  simp only [report, List.mem_append, mem_caught_iff hstate, mem_chosen_iff hstate,
    Option.mem_toList, textIn_property? hstate, hid, true_and]
  rw [eq_comm (a := Value.str id) (b := state.toValue.get "Next"),
    eq_comm (a := Value.str id) (b := state.toValue.get "Default"), or_assoc]
  tauto

/-- Where no reference of a state is wrong, all its successors are names of the scope. -/
theorem mem_names_of_mem_nextIds
    {inner fields : List Finding}
    (hright : ReferencesRight (report names inner fields state).findings)
    {id : Text} (hid : id ∈ State.nextIds state.toValue) :
    id ∈ names := by
  simp only [report, referencesRight_append] at hright
  obtain ⟨⟨⟨⟨⟨⟨-, -⟩, hcaught⟩, -⟩, -⟩, hchosen⟩, hnext⟩ := hright
  rw [State.mem_nextIds_iff, State.mem_targetValues_iff] at hid
  rcases hid with htarget | ⟨hchoice, htarget⟩ | ⟨hhandles, htarget⟩
  · have htext := (textIn_property? hstate).mpr htarget.symm
    exact (reference_eq_nil_of_textIn htext).mp (reference_eq_nil_of_right rfl hnext)
  · -- the check looks at the default before the rules, the targets are listed the other way
    rw [chosen, isChoice_eq hstate, hchoice] at hchosen
    simp only [if_true, referencesRight_append] at hchosen
    rcases htarget with htarget | htarget
    · exact mem_names_of_rules hstate hchosen.2 htarget
    · have htext := (textIn_property? hstate).mpr htarget.symm
      exact (reference_eq_nil_of_textIn htext).mp (reference_eq_nil_of_right rfl hchosen.1)
  · rw [caught, handlesErrors_eq hstate, hhandles] at hcaught
    exact mem_names_of_rules hstate hcaught htarget

end Report

/-- No rule is judged. -/
theorem verdictsIn_rules
    (field : Text) (state : Tree) :
    verdictsIn (rules names field state).1 = [] := by
  unfold rules
  split
  · rfl
  · rw [verdictsIn_flatMap, List.flatMap_eq_nil_iff]
    exact fun p _ => verdictsIn_reference rfl _

/-- The templates of a state are not judged. -/
theorem aboutFields_templates
    (state : Tree) :
    AboutFields (templates state).1 ∧ AboutFields (templates state).2 := by
  unfold templates
  dsimp only
  constructor
  · split
    · exact aboutFields_propertyFindings _
    · exact aboutFields_nil
  · split
    · exact aboutFields_propertyFindings _
    · exact aboutFields_nil

/-- A state is not judged itself: the judgements in its report are those on the scopes nested in
it. -/
theorem verdictsIn_report
    {inner fields : List Finding} {state : Tree} (hfields : verdictsIn fields = [])
    (hinner : nested (kindOf state) state = [] → inner = []) :
    verdictsIn (report names inner fields state).findings = verdictsIn inner := by
  have hcaught : verdictsIn (caught names state).1 = [] := by
    unfold caught
    split
    · exact verdictsIn_rules _ _
    · rfl
  have hchosen : verdictsIn (chosen names state).1 = [] := by
    unfold chosen
    split
    · rw [verdictsIn_append, verdictsIn_rules, verdictsIn_reference rfl]
      rfl
    · rfl
  have hparameters := (aboutFields_templates state).1.verdictsIn_eq
  have hselector := (aboutFields_templates state).2.verdictsIn_eq
  have hkind : verdictsIn (kindFindings inner state) = verdictsIn inner := by
    unfold kindFindings
    cases hkind : kindOf state with
    | none => rw [hinner (by rw [hkind]; rfl)]
    | some kind =>
        cases kind with
        | map =>
            rw [verdictsIn_append, (aboutFields_propertyFindings _).verdictsIn_eq, List.nil_append]
        | parallel => rfl
        | fail =>
            rw [hinner (by rw [hkind]; rfl), (aboutFields_failPathFindings _).verdictsIn_eq,
              verdictsIn_nil]
        | _ => rw [hinner (by rw [hkind]; rfl)]
  have hnext : verdictsIn (reference names .invalidNext (state.property? "Next")) = [] :=
    verdictsIn_reference rfl _
  simp only [report, verdictsIn_append, hfields, hcaught, hchosen, hparameters, hselector, hkind,
    hnext, List.nil_append, List.append_nil]

end Edges

/-- The properties of the mapping of states of a scope. -/
def mapping? (scope : Tree) : Option (List (Property Tree)) :=
  ((scope.property? statesKey).bind Property.value).bind Tree.properties?

/-- The states that a scope declares with objects, with their keys. -/
def declaredIn (scope : Tree) : List (Key × Tree) := declared ((mapping? scope).getD [])

/-- The scopes that a check enters, each behind the scopes nested in its states. -/
def entered : Nat → Tree → List Tree
  | 0, _ => []
  | levels + 1, scope =>
    ((declaredIn scope).flatMap fun field =>
      (nested (kindOf field.2) field.2).flatMap fun inner => entered levels inner.2) ++ [scope]

/-- The report on a declared state whose nested scopes have been checked. -/
def Reported (schema : Value) (lenient : Bool) (levels : Nat) (names : List Text)
    (field : Key × Tree) (r : StateReport) : Prop :=
  ∃ inner fields,
    (nested (kindOf field.2) field.2).mapM (fun s => scope schema lenient levels s.1 s.2) =
      .ok inner ∧
    verdictsIn fields = [] ∧ r = report names inner.flatten fields field.2

section Scope

variable {schema : Value} {lenient : Bool} {levels : Nat} {kind : ScopeKind} {tree : Tree}
variable {fs : List Finding}

/-- A scope without a mapping of states is not judged. -/
theorem verdictsIn_scope_of_none
    (h : scope schema lenient (levels + 1) kind tree = .ok fs)
    (hnone : mapping? tree = none) :
    verdictsIn fs = [] := by
  rw [scope] at h
  obtain ⟨fields, hfields, h⟩ := exists_of_bind_eq_ok h
  have hquiet := ((scopeFields_delivers _ _ _).yields fields hfields).verdictsIn_eq
  cases hstates : tree.property? statesKey with
  | none =>
      rw [hstates] at h
      cases h
      exact hquiet
  | some states =>
      rw [mapping?, hstates, Option.bind_some] at hnone
      rw [hstates] at h
      dsimp only at h
      rw [hnone] at h
      cases h
      rw [verdictsIn_append, hquiet, verdictsIn_reference rfl, List.append_nil]

/-- The findings in a scope with a mapping of states. -/
theorem scope_of_some
    {states : Property Tree} {properties : List (Property Tree)}
    (h : scope schema lenient (levels + 1) kind tree = .ok fs)
    (hstates : tree.property? statesKey = some states)
    (hproperties : states.value.bind Tree.properties? = some properties) :
    ∃ fields reports, verdictsIn fields = [] ∧
      List.Forall₂ (Reported schema lenient levels (declaredNames lenient states))
        (declared properties) reports ∧
      fs = fields ++
          reference (declaredNames lenient states) .invalidStartAt (tree.property? "StartAt") ++
          reports.flatMap StateReport.findings ++ missingEnd states.key reports ++
          unreached (textIn (tree.property? "StartAt")).toList (declared properties) reports := by
  rw [scope] at h
  obtain ⟨fields, hfields, h⟩ := exists_of_bind_eq_ok h
  rw [hstates] at h
  dsimp only at h
  rw [hproperties] at h
  obtain ⟨reports, hreports, h⟩ := exists_of_bind_eq_ok h
  cases h
  refine ⟨fields, reports, ((scopeFields_delivers _ _ _).yields fields hfields).verdictsIn_eq, ?_,
    rfl⟩
  refine (forall₂_of_mapM hreports).imp fun field r hreport => ?_
  obtain ⟨inner, hinner, hreport⟩ := exists_of_bind_eq_ok hreport
  rw [state] at hreport
  cases hown : Tables.stateFindings schema (some field.2) with
  | error e =>
      rw [hown] at hreport
      cases hreport
  | ok own =>
      rw [hown] at hreport
      cases hreport
      exact ⟨inner, own, hinner, ((Tables.stateFindings_delivers _ _).yields own hown).verdictsIn_eq,
        rfl⟩

end Scope

theorem mapping?_eq_some_iff
    {scope : Tree} {properties : List (Property Tree)} :
    mapping? scope = some properties ↔
      ∃ states, scope.property? statesKey = some states ∧
        states.value.bind Tree.properties? = some properties := by
  rw [mapping?, Option.bind_assoc, Option.bind_eq_some_iff]

/-- A tree that is no object has no mapping of states. -/
theorem mapping?_of_not_object
    {tree : Tree} (h : tree.isObject = false) :
    mapping? tree = none := by
  cases tree with
  | object span properties => cases h
  | _ => rfl

theorem mem_declaredIn_iff
    {scope : Tree} {field : Key × Tree} :
    field ∈ declaredIn scope ↔
      ∃ properties, mapping? scope = some properties ∧ field ∈ declared properties := by
  unfold declaredIn
  cases mapping? scope with
  | none => simp [declared]
  | some properties => simp

/-- A check enters a scope itself and what it enters from the states declared there. -/
theorem mem_entered_iff
    {levels : Nat} {scope s : Tree} :
    s ∈ entered (levels + 1) scope ↔
      (∃ field ∈ declaredIn scope, ∃ inner ∈ nested (kindOf field.2) field.2,
        s ∈ entered levels inner.2) ∨ s = scope := by
  rw [entered, List.mem_append, List.mem_singleton]
  simp only [List.mem_flatMap]

/-- Nothing but the tree itself is entered where it is no object. -/
theorem entered_of_not_object
    {tree : Tree} (h : tree.isObject = false) (levels : Nat) :
    entered (levels + 1) tree = [tree] := by
  rw [entered, declaredIn, mapping?_of_not_object h]
  rfl

theorem mem_declared_iff
    {properties : List (Property Tree)} {key : Key} {t : Tree} :
    (key, t) ∈ declared properties ↔
      ∃ p ∈ properties, p.key = key ∧ p.value = some t ∧ t.isObject = true := by
  unfold declared
  rw [List.mem_filterMap]
  constructor
  · rintro ⟨p, hp, hfield⟩
    split at hfield
    · next u hvalue =>
        split at hfield
        · next hobject =>
            cases hfield
            exact ⟨p, hp, rfl, hvalue, hobject⟩
        · cases hfield
    · cases hfield
  · rintro ⟨p, hp, rfl, hvalue, hobject⟩
    refine ⟨p, hp, ?_⟩
    rw [hvalue]
    simp only [hobject, if_true]

/-- A property whose value is an object holds an object. -/
theorem exists_tree_of_isObject
    {p : Property Tree} (h : p.toValue.isObject = true) :
    ∃ t, p.value = some t ∧ t.isObject = true := by
  cases hvalue : p.value with
  | none =>
      rw [Property.toValue, hvalue] at h
      cases h
  | some t =>
      rw [Property.toValue, hvalue, Option.map_some, Option.getD_some, Tree.isObject_toValue] at h
      exact ⟨t, rfl, h⟩

/-- With sound tables the check of a scope does not fail. -/
theorem scope_delivers
    {schema : Value} {lenient : Bool} :
    ∀ (levels : Nat) (kind : ScopeKind) (tree : Tree),
      Delivers (scope schema lenient levels kind tree) (Tables.Sound schema) (fun _ => True)
  | 0, _, _ => Delivers.pure trivial
  | levels + 1, kind, tree => by
      rw [scope]
      refine (scopeFields_delivers schema kind _).bind fun fields _ => ?_
      split
      · exact Delivers.pure trivial
      · dsimp only
        split
        · exact Delivers.pure trivial
        · next properties _ =>
            refine Delivers.bind (P := fun _ => True) ?_ fun reports _ => Delivers.pure trivial
            refine (Delivers.mapM (Q := fun _ => True) fun field hfield => ?_).mono id
              fun _ _ => trivial
            obtain ⟨key, t⟩ := field
            obtain ⟨-, -, -, -, hobject⟩ := mem_declared_iff.mp hfield
            refine Delivers.bind (P := fun _ => True) ?_ fun inner _ => ?_
            · exact (Delivers.mapM fun s _ => scope_delivers levels s.1 s.2).mono id
                fun _ _ => trivial
            · exact ((Tables.stateFindings_delivers schema t).mono (fun h => ⟨h, hobject⟩)
                fun _ _ => trivial).map fun _ _ => trivial

section Values

variable {tree : Tree} (htree : tree.DistinctKeys)

include htree

/-- A state that a scope declares repeats no keys. -/
theorem distinctKeys_of_declaredIn
    {key : Key} {t : Tree} (h : (key, t) ∈ declaredIn tree) :
    t.DistinctKeys := by
  obtain ⟨properties, hfound, hfield⟩ := mem_declaredIn_iff.mp h
  obtain ⟨p, hp, -, hvalue, -⟩ := mem_declared_iff.mp hfield
  obtain ⟨u, hu, hproperties⟩ := Option.bind_eq_some_iff.mp hfound
  obtain ⟨states, hstates, hmapping⟩ := Option.bind_eq_some_iff.mp hu
  exact ((htree.property? hstates hmapping).properties hproperties).2 p hp t hvalue

/-- The states that the value of a scope declares are the properties of its mapping. -/
theorem declared?_toValue :
    State.declared? tree.toValue =
      (mapping? tree).map fun properties => properties.map fun p => (p.key.name, p.toValue) := by
  rw [State.declared?, htree.get?_toValue, mapping?]
  cases hp : tree.property? "States" with
  | none =>
      rw [statesKey, hp]
      rfl
  | some p =>
      rw [statesKey, hp, Option.map_some, Option.bind_some, Option.bind_some, Property.toValue]
      cases hvalue : p.value with
      | none => rfl
      | some u =>
          rw [Option.map_some, Option.getD_some, Option.bind_some]
          exact (htree.property? hp hvalue).fields?_toValue

/-- The scopes nested in a state repeat no keys. -/
theorem distinctKeys_of_nested
    {kind : Option StateKind} {inner : ScopeKind × Tree} (h : inner ∈ nested kind tree) :
    inner.2.DistinctKeys := by
  unfold nested at h
  split at h
  · split at h
    · next scope hscope =>
        obtain ⟨p, hp, hvalue⟩ := Option.bind_eq_some_iff.mp hscope
        split at h
        · rw [List.mem_singleton.mp h]
          exact htree.property? hp hvalue
        · cases h
    · cases h
  · split at h
    · next scopes hscopes =>
        obtain ⟨u, hu, hitems⟩ := Option.bind_eq_some_iff.mp hscopes
        obtain ⟨p, hp, hvalue⟩ := Option.bind_eq_some_iff.mp hu
        obtain ⟨scope, hscope, rfl⟩ := List.mem_map.mp h
        exact (htree.property? hp hvalue).items hitems scope (List.mem_of_mem_filter hscope)
    · cases h
  · cases h

end Values

/-- The scopes that a check enters repeat no keys. -/
theorem distinctKeys_of_entered :
    ∀ (levels : Nat) (tree : Tree), tree.DistinctKeys → ∀ s ∈ entered levels tree, s.DistinctKeys
  | 0, _, _, s, hs => by
      rw [entered] at hs
      cases hs
  | levels + 1, tree, htree, s, hs => by
      obtain ⟨field, hfield, inner, hinner, hs⟩ | rfl := mem_entered_iff.mp hs
      · have hstate := distinctKeys_of_declaredIn htree hfield
        exact distinctKeys_of_entered levels inner.2 (distinctKeys_of_nested hstate hinner) s hs
      · exact htree

end Check

/-- A diagnostic has the code of its finding. -/
theorem Finding.code_of_report
    {d : Document} {messages : Value} {f : Finding} {x : Diagnostic}
    (h : f.report d messages = .ok x) :
    x.code = some f.code ∧ x.range = d.rangeOf f.span := by
  rw [Finding.report] at h
  cases hmessage : f.message messages with
  | error e =>
      rw [hmessage] at h
      cases h
  | ok m =>
      rw [hmessage] at h
      cases h
      exact ⟨rfl, rfl⟩

/-- The judgements among some diagnostics are the diagnostics of the judgements. -/
theorem Document.report_verdictsIn
    {d : Document} {messages : Value} {fs : List Finding} {ds : List Diagnostic}
    (h : d.report messages fs = .ok ds) :
    d.report messages (verdictsIn fs) =
      .ok (ds.filter fun x => x.code.any DiagnosticCode.isVerdict) := by
  have hreports := forall₂_of_mapM h
  clear h
  induction hreports with
  | nil => rfl
  | @cons f x fs ds hreport _ ih =>
      have hcode := (Finding.code_of_report hreport).1
      cases hverdict : f.code.isVerdict with
      | false =>
          have hskipped : verdictsIn (f :: fs) = verdictsIn fs := by
            simp [verdictsIn, hverdict]
          rw [hskipped, ih, List.filter_cons_of_neg (by simp [hcode, hverdict])]
      | true =>
          have hkept : verdictsIn (f :: fs) = f :: verdictsIn fs := by
            simp [verdictsIn, hverdict]
          rw [Document.report] at ih
          rw [hkept, Document.report, List.mapM_cons, hreport, ih,
            List.filter_cons_of_pos (by simp [hcode, hverdict])]
          rfl

/-- With a catalog of messages every finding can be reported. -/
theorem Document.report_delivers
    (d : Document) (messages : Value) (fs : List Finding) :
    Delivers (d.report messages fs) (messages.isObject = true) (fun _ => True) := by
  refine (Delivers.mapM (Q := fun _ => True) fun f _ => ?_).mono id fun _ _ => trivial
  refine Delivers.map (P := fun _ => True) ?_ fun _ _ => trivial
  unfold Finding.message
  split
  · exact Delivers.pure trivial
  · next hnone =>
      refine ⟨fun _ _ => trivial, fun hobject => ?_⟩
      cases messages with
      | obj catalog => exact absurd rfl (hnone catalog)
      | _ => cases hobject

/-- With sound tables and a catalog of messages the check of a document does not fail. -/
theorem Document.check_delivers
    (d : Document) (options : CheckOptions) (kind : ScopeKind) (given : Option Tree) :
    Delivers (d.check options kind given)
      (Tables.Sound options.schema ∧ options.messages.isObject = true) (fun _ => True) := by
  unfold Document.check
  split
  · unfold Document.checkScope
    split
    · refine ((Check.scope_delivers _ _ _).mono (fun h => h.1) fun _ h => h).bind fun fs _ => ?_
      exact (d.report_delivers options.messages fs).mono (fun h => h.2) fun _ h => h
    · exact Delivers.pure trivial
  · exact Delivers.pure trivial

/-- What the check of a document reports are the findings in its scopes. -/
theorem Document.exists_findings_of_check
    {d : Document} {options : CheckOptions} {kind : ScopeKind} {given : Option Tree} {t : Tree}
    (hgiven : given.or d.root = some t) {ds : List Diagnostic}
    (h : d.check options kind given = .ok ds) :
    (t.isObject = false ∧ ds = []) ∨
      ∃ fs, Check.scope options.schema options.lenient allLevels kind t = .ok fs ∧
        d.report options.messages fs = .ok ds := by
  rw [Document.check, hgiven] at h
  dsimp only at h
  rw [Document.checkScope] at h
  cases hobject : t.isObject with
  | false =>
      rw [hobject] at h
      cases h
      exact Or.inl ⟨rfl, rfl⟩
  | true =>
      rw [hobject] at h
      exact Or.inr (exists_of_bind_eq_ok h)

end Workflow
