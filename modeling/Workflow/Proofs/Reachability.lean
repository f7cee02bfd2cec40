import Workflow.Proofs.CheckedScopes

/-!
# Reachability verdicts

The check judges each scope that it enters: no terminal state, and states that nothing reaches.  It
collects the reached names from the tree while it goes through the states.  The same judgements can
be read off the value of the scope: a state is reached when it is the `StartAt` of the scope or a
successor of some state beside it.
-/

namespace Workflow

namespace State

/-- The scope starts at an id, or one of its states can hand control to it. -/
def isReferenced (scope : Value) (id : Text) : Bool :=
  (scope.get "StartAt").text? == some id ||
    ((declared? scope).getD []).any fun field => (nextIds field.2).contains id

/-- A state that ends its scope: its `End` is true, or its kind is terminal. -/
def isEnd (state : Value) : Bool :=
  (match state.get "End" with
    | .bool b => b
    | _ => false) || kindHas state StateKind.isTerminal

/-- Some state of the scope that is an object ends it. -/
def hasEnd (scope : Value) : Bool :=
  ((declared? scope).getD []).any fun field => field.2.isObject && isEnd field.2

end State

namespace Check

/-- The judgements on a scope that its value asks for. -/
def graphVerdicts (scope : Tree) : List Finding :=
  match scope.property? statesKey with
  | none => []
  | some states =>
    match states.value.bind Tree.properties? with
    | none => []
    | some properties =>
      (if State.hasEnd scope.toValue then [] else [⟨states.key.span, .noTerminalState⟩]) ++
        (properties.filter fun p =>
          p.toValue.isObject && !State.isReferenced scope.toValue p.key.name).map
            fun p => ⟨p.key.span, .unreachableState⟩

/-- Every state that the scope declares with an object has a colon behind its key. -/
def Separated (scope : Tree) : Prop :=
  ∀ p ∈ (mapping? scope).getD [], p.toValue.isObject = true → p.colon.isSome = true

instance : DecidablePred Separated := fun _ => List.decidableBAll _ _

/-- A state ends its scope in the tree when it does in the value. -/
theorem ends_eq
    {state : Tree} (hstate : state.DistinctKeys) :
    ends state = State.isEnd state.toValue := by
  unfold ends State.isEnd
  rw [kindOf_eq hstate, hstate.get_toValue]
  refine congrArg (fun b => b || State.kindHas state.toValue StateKind.isTerminal) ?_
  cases (state.property? "End").bind Property.value with
  | none => rfl
  | some u =>
      cases u with
      | number span n => cases n <;> rfl
      | _ =>
          rw [Option.map_some, Option.getD_some, Tree.toValue]

section Judgements

variable {schema : Value} {lenient : Bool} {levels : Nat} {scope : Tree}
variable {states : Property Tree} {properties : List (Property Tree)} {reports : List StateReport}

variable (hscope : scope.DistinctKeys) (hstates : scope.property? statesKey = some states)
variable (hproperties : states.value.bind Tree.properties? = some properties)
variable (hreports : List.Forall₂ (Reported schema lenient levels (declaredNames lenient states))
  (declared properties) reports)

include hscope hstates hproperties

/-- The fields of the mapping in the value of the scope. -/
theorem declared?_of_property :
    State.declared? scope.toValue =
      some (properties.map fun p => (p.key.name, p.toValue)) := by
  rw [declared?_toValue hscope, mapping?_eq_some_iff.mpr ⟨states, hstates, hproperties⟩,
    Option.map_some]

/-- What a declared state holds repeats no keys. -/
theorem distinctKeys_of_declared
    {key : Key} {t : Tree} (h : (key, t) ∈ declared properties) :
    t.DistinctKeys := by
  have hfound := mapping?_eq_some_iff.mpr ⟨states, hstates, hproperties⟩
  exact distinctKeys_of_declaredIn hscope (mem_declaredIn_iff.mpr ⟨properties, hfound, h⟩)

include hreports

/-- No report says that its state ends the scope exactly when no state in the value does. -/
theorem missingEnd_eq
    (key : Key) :
    missingEnd key reports =
      if State.hasEnd scope.toValue then [] else [⟨key.span, .noTerminalState⟩] := by
  have hends : reports.map StateReport.isTerminal = (declared properties).map fun field =>
      State.isEnd field.2.toValue := by
    refine map_eq_map_of_forall₂ hreports ?_
    rintro ⟨key, t⟩ hfield r ⟨inner, fields, -, -, rfl⟩
    exact ends_eq (distinctKeys_of_declared hscope hstates hproperties hfield)
  have hany : reports.any StateReport.isTerminal = State.hasEnd scope.toValue := by
    have hleft : reports.any StateReport.isTerminal =
        (reports.map StateReport.isTerminal).any id := by
      rw [List.any_map]
      rfl
    rw [hleft, hends, List.any_map, State.hasEnd,
      declared?_of_property hscope hstates hproperties, Option.getD_some, Bool.eq_iff_iff]
    simp only [List.any_eq_true, Function.comp_apply, id, Bool.and_eq_true]
    constructor
    · rintro ⟨⟨key, t⟩, hfield, hend⟩
      obtain ⟨p, hp, -, hvalue, hobject⟩ := mem_declared_iff.mp hfield
      refine ⟨(p.key.name, p.toValue), List.mem_map_of_mem hp, ?_, ?_⟩
      · simp [Property.toValue, hvalue, Tree.isObject_toValue, hobject]
      · simpa [Property.toValue, hvalue] using hend
    · rintro ⟨field, hfield, hobject, hend⟩
      obtain ⟨p, hp, rfl⟩ := List.mem_map.mp hfield
      obtain ⟨t, hvalue, ht⟩ := exists_tree_of_isObject hobject
      rw [Property.toValue, hvalue] at hend
      exact ⟨(p.key, t), mem_declared_iff.mpr ⟨p, hp, rfl, hvalue, ht⟩, hend⟩
  rw [missingEnd, hany]

/-- A name of the scope is reached exactly when the value of the scope refers to it. -/
theorem contains_reached
    {id : Text} (hid : id ∈ declaredNames lenient states) :
    ((textIn (scope.property? "StartAt")).toList ++
        reports.flatMap StateReport.reached).contains id =
      State.isReferenced scope.toValue id := by
  have hstart : id ∈ (textIn (scope.property? "StartAt")).toList ↔
      (scope.toValue.get "StartAt").text? = some id := by
    rw [Option.mem_toList, textIn, ← hscope.text?_get_toValue]
  have hreached : reports.flatMap StateReport.reached =
      (declared properties).flatMap fun field =>
        (report (declaredNames lenient states) [] [] field.2).reached := by
    rw [List.flatMap_def, List.flatMap_def, map_eq_map_of_forall₂ hreports]
    rintro field - r ⟨inner, fields, -, -, rfl⟩
    rfl
  rw [State.isReferenced, declared?_of_property hscope hstates hproperties, Option.getD_some,
    hreached, Bool.eq_iff_iff]
  simp only [List.contains_iff_mem, List.mem_append, hstart, Bool.or_eq_true, beq_iff_eq,
    List.any_eq_true, List.mem_flatMap]
  refine or_congr Iff.rfl ?_
  constructor
  · rintro ⟨⟨key, t⟩, hfield, hmem⟩
    have ht := distinctKeys_of_declared hscope hstates hproperties hfield
    rw [mem_reached_iff ht hid] at hmem
    obtain ⟨p, hp, -, hvalue, -⟩ := mem_declared_iff.mp hfield
    refine ⟨(p.key.name, p.toValue), List.mem_map_of_mem hp, ?_⟩
    rw [Property.toValue, hvalue]
    exact hmem
  · rintro ⟨field, hfield, hmem⟩
    obtain ⟨p, hp, rfl⟩ := List.mem_map.mp hfield
    obtain ⟨t, hvalue, ht⟩ := exists_tree_of_isObject (State.isObject_of_mem_nextIds hmem)
    have hdeclared : (p.key, t) ∈ declared properties :=
      mem_declared_iff.mpr ⟨p, hp, rfl, hvalue, ht⟩
    refine ⟨(p.key, t), hdeclared, ?_⟩
    rw [mem_reached_iff (distinctKeys_of_declared hscope hstates hproperties hdeclared) hid]
    rw [Property.toValue, hvalue] at hmem
    exact hmem

/-- The states that no report reaches are those to which the value of the scope does not refer. -/
theorem unreached_eq
    (hnamed : ∀ p ∈ properties, p.toValue.isObject = true →
      p.key.name ∈ declaredNames lenient states) :
    unreached (textIn (scope.property? "StartAt")).toList (declared properties) reports =
      (properties.filter fun p =>
        p.toValue.isObject && !State.isReferenced scope.toValue p.key.name).map
          fun p => ⟨p.key.span, .unreachableState⟩ := by
  unfold unreached declared
  dsimp only
  rw [List.filterMap_filterMap, ← List.filterMap_eq_map, List.filterMap_filter]
  refine List.filterMap_congr fun p hp => ?_
  cases hobject : p.toValue.isObject with
  | false =>
      cases hvalue : p.value with
      | none => rfl
      | some t =>
          rw [Property.toValue, hvalue, Option.map_some, Option.getD_some,
            Tree.isObject_toValue] at hobject
          simp [hobject]
  | true =>
      obtain ⟨t, hvalue, ht⟩ := exists_tree_of_isObject hobject
      have hreached := contains_reached hscope hstates hproperties hreports (hnamed p hp hobject)
      rw [hvalue]
      simp only [ht, if_true, Option.bind_some, hreached, Bool.true_and]
      cases State.isReferenced scope.toValue p.key.name with
      | true => rfl
      | false => rfl

/-- The judgements on a scope with a mapping of states. -/
theorem judgements_eq
    (hnamed : ∀ p ∈ properties, p.toValue.isObject = true →
      p.key.name ∈ declaredNames lenient states) :
    missingEnd states.key reports ++
        unreached (textIn (scope.property? "StartAt")).toList (declared properties) reports =
      graphVerdicts scope := by
  rw [missingEnd_eq hscope hstates hproperties hreports,
    unreached_eq hscope hstates hproperties hreports hnamed, graphVerdicts, hstates]
  dsimp only
  rw [hproperties]

end Judgements

/-- A scope without a mapping of states asks for no judgements. -/
theorem graphVerdicts_of_none
    {scope : Tree}
    (h : mapping? scope = none) :
    graphVerdicts scope = [] := by
  unfold graphVerdicts
  cases hstates : scope.property? statesKey with
  | none => rfl
  | some states =>
      rw [mapping?, hstates, Option.bind_some] at h
      dsimp only
      rw [h]

/-- All of the judgements on a scope by its value are judgements. -/
theorem verdictsIn_graphVerdicts
    (scope : Tree) :
    verdictsIn (graphVerdicts scope) = graphVerdicts scope := by
  unfold verdictsIn
  rw [List.filter_eq_self]
  intro f hf
  unfold graphVerdicts at hf
  split at hf
  · cases hf
  · split at hf
    · cases hf
    · rcases List.mem_append.mp hf with hend | hstate
      · split at hend
        · cases hend
        · rw [List.mem_singleton.mp hend]
          rfl
      · obtain ⟨p, -, rfl⟩ := List.mem_map.mp hstate
        rfl

/-- A state that the scope declares with an object is one of its names. -/
theorem mem_declaredNames
    {lenient : Bool} {states : Property Tree} {properties : List (Property Tree)}
    (hproperties : states.value.bind Tree.properties? = some properties)
    {p : Property Tree} (hp : p ∈ properties) (hcolon : lenient = true ∨ p.colon.isSome = true) :
    p.key.name ∈ declaredNames lenient states := by
  rw [declaredNames, hproperties]
  refine List.mem_filterMap.mpr ⟨p, hp, ?_⟩
  rw [if_pos (by simpa using hcolon)]

/-- The judgements that the report of a state carries are those on the scopes nested in it. -/
theorem verdictsIn_reported
    {schema : Value} {lenient : Bool} {levels : Nat} {names : List Text}
    {field : Key × Tree} {r : StateReport}
    (hr : Reported schema lenient levels names field r)
    (hinner : ∀ s ∈ nested (kindOf field.2) field.2, ∀ found,
      scope schema lenient levels s.1 s.2 = .ok found →
      verdictsIn found = (entered levels s.2).flatMap graphVerdicts) :
    verdictsIn r.findings =
      ((nested (kindOf field.2) field.2).flatMap fun s =>
        entered levels s.2).flatMap graphVerdicts := by
  obtain ⟨inner, own, hnested, hown, rfl⟩ := hr
  have hnone : nested (kindOf field.2) field.2 = [] → inner.flatten = [] := by
    intro hnil
    rw [hnil, List.mapM_nil] at hnested
    cases hnested
    rfl
  rw [verdictsIn_report hown hnone, verdictsIn_flatten, List.flatMap_assoc, List.flatMap_def]
  exact congrArg List.flatten (map_eq_map_of_forall₂ (forall₂_of_mapM hnested) hinner)

/-- The judgements in a run of the check are those that the values of the scopes ask for, scope by
scope in the order of the run. -/
theorem verdictsIn_scope
    {schema : Value} {lenient : Bool} :
    ∀ (levels : Nat) (kind : ScopeKind) (tree : Tree) (fs : List Finding), tree.DistinctKeys →
      (lenient = true ∨ ∀ s ∈ entered levels tree, Separated s) →
      scope schema lenient levels kind tree = .ok fs →
      verdictsIn fs = (entered levels tree).flatMap graphVerdicts
  | 0, _, _, _, _, _, h => by
      cases h
      rfl
  | levels + 1, kind, tree, fs, htree, hseparated, h => by
      cases hfound : mapping? tree with
      | none =>
          rw [verdictsIn_scope_of_none h hfound, entered, declaredIn, hfound]
          simp [declared, graphVerdicts_of_none hfound]
      | some properties =>
          obtain ⟨states, hstates, hproperties⟩ := mapping?_eq_some_iff.mp hfound
          have hdeclared : declaredIn tree = declared properties := by
            rw [declaredIn, hfound, Option.getD_some]
          obtain ⟨fields, reports, hquiet, hreports, rfl⟩ := scope_of_some h hstates hproperties
          have hnamed : ∀ p ∈ properties, p.toValue.isObject = true →
              p.key.name ∈ declaredNames lenient states := by
            intro p hp hobject
            refine mem_declaredNames hproperties hp (hseparated.imp_right fun hall => ?_)
            refine hall tree (mem_entered_iff.mpr (Or.inr rfl)) p ?_ hobject
            rw [hfound, Option.getD_some]
            exact hp
          have hown := judgements_eq htree hstates hproperties hreports hnamed
          -- the judgements on the scopes nested in a state, by the induction
          have hinner : reports.map (fun r => verdictsIn r.findings) =
              (declared properties).map fun field =>
                ((nested (kindOf field.2) field.2).flatMap fun inner =>
                  entered levels inner.2).flatMap graphVerdicts := by
            refine map_eq_map_of_forall₂ hreports ?_
            intro field hfield r hr
            refine verdictsIn_reported hr fun s hs found hcheck => ?_
            have ht := distinctKeys_of_declared htree hstates hproperties hfield
            refine verdictsIn_scope levels s.1 s.2 found (distinctKeys_of_nested ht hs) ?_ hcheck
            refine hseparated.imp_right fun hall s' hs' => hall s' ?_
            rw [← hdeclared] at hfield
            exact mem_entered_iff.mpr (Or.inl ⟨field, hfield, s, hs, hs'⟩)
          rw [entered, hdeclared, List.flatMap_append, List.flatMap_singleton, ← hown,
            List.append_assoc, verdictsIn_append, hown, verdictsIn_graphVerdicts,
            verdictsIn_append, verdictsIn_append, hquiet, verdictsIn_reference rfl,
            verdictsIn_flatMap, List.flatMap_assoc, List.flatMap_def, List.flatMap_def, hinner]
          rfl

end Check

/-- A text in which a Catch rule leads to a Map state with a nested scope that never ends, and no
edge leads to a Fail state. -/
def unreachedText : Text :=
  "StartAt: A
States:
 A:
  Type: Task
  Catch:
  - Next: M
 M:
  Type: Map
  Iterator:
   States:
    X:
     Next: X
 U:
  Type: Fail
"

/-- The document of that text. -/
def unreachedDocument : Document :=
  match Document.treeOf .yaml unreachedText with
  | .ok (some root) => ⟨unreachedText, .yaml, root, 0⟩
  | _ => ⟨unreachedText, .yaml, none, 0⟩

end Workflow
