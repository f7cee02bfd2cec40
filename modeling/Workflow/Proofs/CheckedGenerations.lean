import Workflow.Proofs.CheckedScopes
import Workflow.Proofs.TreeGenerations

/-!
# Checks of the two generations of Map states

A check of a document finds the same whichever name the nested scopes of Map states have: the
tables allow both names, the check enters the same scopes, and the spans stay where they are.
-/

namespace Workflow

/-- A computation for each element of a mapped list. -/
theorem mapM_map_congr
    {α β γ : Type} {l : List α} {g : α → β} {f : α → Except Fault γ} {f' : β → Except Fault γ}
    (h : ∀ a ∈ l, f' (g a) = f a) :
    (l.map g).mapM f' = l.mapM f := by
  induction l with
  | nil => rfl
  | cons a l ih =>
      rw [List.map_cons, List.mapM_cons, List.mapM_cons, h a List.mem_cons_self,
        ih fun b hb => h b (List.mem_cons_of_mem _ hb)]

/-! ## Fields -/

namespace Tables

theorem unknownFields_renew
    {place : Place} (hplace : place.isLegacy = false) (allowed : Text → Except Fault Bool)
    (properties : List (Property Tree)) :
    unknownFields allowed (properties.map (Property.renew place)) =
      unknownFields allowed properties := by
  unfold unknownFields
  refine congrArg (· >>= _) (mapM_map_congr fun p _ => ?_)
  have hkey : (p.renew place).key = p.key := by
    rw [Property.renew, Place.newName_of_not_legacy hplace]
  rw [hkey]

theorem kindTable_of_kindOf
    (kinds : Value) {t : Tree} {kind : StateKind} (h : Check.kindOf t = some kind) :
    kindTable kinds (some t) = lookup kinds kind.word := by
  obtain ⟨word, hword, hkind⟩ := Option.bind_eq_some_iff.mp h
  obtain ⟨u, hu, htext⟩ := Check.textIn_eq_some_iff.mp hword
  obtain ⟨p, hp, hvalue⟩ := Option.bind_eq_some_iff.mp hu
  have hname := List.find?_some hkind
  rw [beq_iff_eq] at hname
  have htoValue : p.toValue = .str word := by
    rw [Property.toValue, hvalue]
    cases u with
    | string span text =>
        cases htext
        rfl
    | _ => cases htext
  rw [kindTable, Option.bind_some, hp, Option.map_some, htoValue, hname]

theorem statePropertyFindings_of_allowed
    {common kind fields : Value} {p : Property Tree}
    (hcommon : lookup common p.key.name = .ok .null) (hkind : kind.isNull = false)
    (hfields : lookupD kind "Properties" (.obj []) = .ok fields)
    (hentry : lookup fields p.key.name = .ok (.bool true)) (named : Value) (hasCommon : Bool) :
    statePropertyFindings named common kind hasCommon p = .ok [] := by
  have hother : isCommonField common hasCommon p.key.name = .ok false := by
    cases hasCommon with
    | false => rfl
    | true => rw [isCommonField, if_pos rfl, hcommon]; rfl
  rw [statePropertyFindings, hother, hkind]
  dsimp only [bind, Except.bind]
  rw [if_neg Bool.false_ne_true, if_neg Bool.false_ne_true, hfields]
  dsimp only
  rw [hentry]
  cases p.value <;> rfl

/-- The packaged tables allow the fields that nest scopes, whatever they hold. -/
theorem statePropertyFindings_of_nesting
    {kind : StateKind} {p : Property Tree} (h : kind.NestsUnder p.key.name) (named : Value)
    (hasCommon : Bool) :
    statePropertyFindings named (.obj common) ((Value.obj stateTypes).get kind.word) hasCommon p =
      .ok [] := by
  rcases h with ⟨rfl, hname | hname⟩ | ⟨rfl, hname⟩
  · exact statePropertyFindings_of_allowed (by rw [hname]; rfl) rfl rfl
      (by rw [hname]; rfl) named hasCommon
  · exact statePropertyFindings_of_allowed (by rw [hname]; rfl) rfl rfl (by rw [hname]; rfl)
      named hasCommon
  · exact statePropertyFindings_of_allowed (by rw [hname]; rfl) rfl rfl (by rw [hname]; rfl)
      named hasCommon

/-- The findings at a property of a state do not change. -/
theorem statePropertyFindings_renew
    {t : Tree} (ht : t.DistinctKeys) {kind : Value}
    (hkind : kindTable (.obj stateTypes) (some t) = .ok kind) (named : Value) (hasCommon : Bool)
    (p : Property Tree) :
    statePropertyFindings named (.obj common) kind hasCommon (p.renew (t.place .state)) =
      statePropertyFindings named (.obj common) kind hasCommon p := by
  by_cases hdata : (t.place .state).below p.key.name = .data
  · rw [Tree.renew_property_of_data hdata]
  · -- whatever nests scopes is allowed, under the old name and under the new one
    obtain ⟨k, hk, hnests⟩ := Place.nestsUnder_of_below_ne_data rfl hdata
    have hkindOf : Check.kindOf t = some k := by
      rw [Check.kindOf_eq ht]
      exact hk
    rw [kindTable_of_kindOf _ hkindOf] at hkind
    cases hkind
    rw [statePropertyFindings_of_nesting hnests, statePropertyFindings_of_nesting]
    exact Place.nestsUnder_newName hnests

theorem stateFindings_renew
    {t : Tree} (ht : t.DistinctKeys) :
    stateFindings packaged (some (t.renew .state)) = stateFindings packaged (some t) := by
  have htype : kindTable (.obj stateTypes) (some (t.renew .state)) =
      kindTable (.obj stateTypes) (some t) := by
    rw [kindTable, kindTable, Option.bind_some, Option.bind_some,
      t.property?_renew_state (by decide)]
  unfold stateFindings
  refine bind_congr_of_ok fun kinds hkinds => ?_
  refine bind_congr_of_ok fun common hcommon => ?_
  refine bind_congr_of_ok fun named _ => ?_
  cases hkinds
  cases hcommon
  change kindTable (.obj stateTypes) (some (t.renew .state)) >>= _ =
    kindTable (.obj stateTypes) (some t) >>= _
  rw [htype]
  refine bind_congr_of_ok fun kind hkind => bind_congr_of_ok fun hasCommon _ => ?_
  rw [Option.bind_some, Option.bind_some, Tree.properties?_renew]
  cases t.properties? with
  | none => rfl
  | some properties =>
      refine congrArg (· >>= _) (mapM_map_congr fun p _ => ?_)
      exact statePropertyFindings_renew ht hkind named hasCommon p

end Tables

/-! ## States -/

namespace Check

section Report

variable {t t' : Tree}
variable (hproperty : ∀ name ∉ State.nestingFields, t'.property? name = t.property? name)

include hproperty

theorem kindOf_congr :
    kindOf t' = kindOf t := by
  rw [kindOf, kindOf, hproperty "Type" (by decide)]

theorem rules_congr
    (names : List Text) {field : Text} (hfield : field ∉ State.nestingFields) :
    rules names field t' = rules names field t := by
  rw [rules, rules, hproperty field hfield]

theorem templates_congr :
    templates t' = templates t := by
  rw [templates, templates, kindOf_congr hproperty, hproperty "Parameters" (by decide),
    hproperty "ResultSelector" (by decide)]

theorem caught_congr
    (names : List Text) :
    caught names t' = caught names t := by
  rw [caught, caught, kindOf_congr hproperty, rules_congr hproperty names (by decide)]

theorem chosen_congr
    (names : List Text) :
    chosen names t' = chosen names t := by
  rw [chosen, chosen, kindOf_congr hproperty, rules_congr hproperty names (by decide),
    hproperty "Default" (by decide)]

theorem failPathFindings_congr :
    failPathFindings t' = failPathFindings t := by
  refine List.flatMap_congr fun name hname => ?_
  rw [List.mem_cons, List.mem_singleton] at hname
  rcases hname with rfl | rfl
  · rw [hproperty "ErrorPath" (by decide)]
  · rw [hproperty "CausePath" (by decide)]

theorem kindFindings_congr
    (hselector : State.selectorField t'.toValue = State.selectorField t.toValue)
    (inner : List Finding) :
    kindFindings inner t' = kindFindings inner t := by
  have htemplate : State.selectorField t.toValue ∉ State.nestingFields := by
    unfold State.selectorField
    split <;> decide
  rw [kindFindings, kindFindings, kindOf_congr hproperty, hselector, hproperty _ htemplate,
    failPathFindings_congr hproperty]

theorem ends_congr :
    ends t' = ends t := by
  rw [ends, ends, kindOf_congr hproperty, hproperty "End" (by decide)]

/-- Given the findings in the nested scopes, the report on a state does not depend on the fields
that hold them. -/
theorem report_congr
    (hselector : State.selectorField t'.toValue = State.selectorField t.toValue)
    (names : List Text) (inner fields : List Finding) :
    report names inner fields t' = report names inner fields t := by
  rw [report, report, templates_congr hproperty, caught_congr hproperty, chosen_congr hproperty,
    kindFindings_congr hproperty hselector, ends_congr hproperty, hproperty "Next" (by decide)]

end Report

section Renewed

theorem kindOf_renew
    (t : Tree) :
    kindOf (t.renew .state) = kindOf t :=
  kindOf_congr fun _ => t.property?_renew_state

variable {t : Tree} (ht : t.DistinctKeys)

include ht

theorem state_renew
    (names : List Text) (inner : List Finding) :
    state Tables.packaged names inner (t.renew .state) = state Tables.packaged names inner t := by
  rw [state, state, Tables.stateFindings_renew ht]
  refine congrArg (Except.map · _) (funext fun fields => ?_)
  exact report_congr (fun _ => t.property?_renew_state) (Tree.selectorField_renew ht) names inner
    fields

/-- The scopes nested in a state are the renewed ones. -/
theorem nested_renew :
    nested (kindOf (t.renew .state)) (t.renew .state) =
      (nested (kindOf t) t).map fun inner => (inner.1, inner.2.renew .scope) := by
  rw [kindOf_renew]
  cases hkind : kindOf t with
  | none => rfl
  | some kind =>
      have hvalue : State.kind? t.toValue = some kind := (kindOf_eq ht).symm.trans hkind
      cases kind with
      | map =>
          unfold nested
          dsimp only
          rw [Tree.processorField_renew ht hvalue, Tree.property?_itemProcessor_renew ht hvalue,
            Tree.value_renew, Tree.place, State.below_processorField hvalue]
          cases (t.property? (State.processorField t.toValue)).bind Property.value with
          | none => rfl
          | some scope =>
              dsimp only [Option.map_some]
              rw [Tree.isObject_renew]
              split <;> rfl
      | parallel =>
          unfold nested
          dsimp only
          rw [Tree.property?_renew (by decide) (by decide), Tree.value_renew, Tree.place,
            State.below_branches hvalue, Tree.bind_items?_renew]
          cases ((t.property? "Branches").bind Property.value).bind Tree.items? with
          | none => rfl
          | some scopes =>
              have hobjects : Tree.isObject ∘ Tree.renew .scope = Tree.isObject :=
                funext (Tree.isObject_renew .scope)
              dsimp only [Option.map_some, Role.item]
              rw [List.filter_map, hobjects, List.map_map, List.map_map]
              rfl
      | _ => rfl

end Renewed

/-! ## Scopes -/

/-- The renewed states of a scope are declared under the same keys. -/
theorem declaredNames_renew
    {place : Place} {states : Property Tree} (h : place.below states.key.name = .states)
    (lenient : Bool) :
    declaredNames lenient (states.renew place) = declaredNames lenient states := by
  rw [declaredNames, declaredNames, Tree.mapping_renew h]
  cases states.value.bind Tree.properties? with
  | none => rfl
  | some properties => exact List.filterMap_map

theorem declared_renew
    (properties : List (Property Tree)) :
    declared (properties.map Property.renewState) =
      (declared properties).map fun field => (field.1, field.2.renew .state) := by
  rw [declared, declared, List.filterMap_map, List.map_filterMap]
  refine List.filterMap_congr fun p _ => ?_
  rw [Function.comp_apply, Property.renewState]
  cases p.value with
  | none => rfl
  | some t =>
      dsimp only [Option.map_some]
      rw [Tree.isObject_renew]
      split <;> rfl

theorem unreached_renew
    (start : List Text) (fields : List (Key × Tree)) (reports : List StateReport) :
    unreached start (fields.map fun field => (field.1, field.2.renew .state)) reports =
      unreached start fields reports := by
  rw [unreached, unreached, List.filterMap_map]
  rfl

theorem scopeFields_renew
    (schema : Value) (kind : ScopeKind) (tree : Tree) :
    scopeFields schema kind ((tree.renew .scope).properties?.getD []) =
      scopeFields schema kind (tree.properties?.getD []) := by
  rw [Tree.properties?_renew]
  cases tree.properties? with
  | none => rfl
  | some properties =>
      unfold scopeFields
      refine congrArg (_ >>= ·) (funext fun table => ?_)
      exact Tables.unknownFields_renew rfl _ properties

/-- The findings in a scope do not change. -/
theorem scope_renew
    (lenient : Bool) (levels : Nat) :
    ∀ (kind : ScopeKind) (tree : Tree), tree.DistinctKeys →
      scope Tables.packaged lenient levels kind (tree.renew .scope) =
        scope Tables.packaged lenient levels kind tree := by
  induction levels with
  | zero =>
      intro kind tree _
      rfl
  | succ levels ih =>
      intro kind tree htree
      have hstart : (tree.renew .scope).property? "StartAt" = tree.property? "StartAt" :=
        Tree.property?_renew_of_data (by decide) (by decide) rfl
      rw [scope, scope, scopeFields_renew, hstart, Tree.property?_renew (by decide) (by decide)]
      refine congrArg (_ >>= ·) (funext fun fields => ?_)
      cases hstates : tree.property? statesKey with
      | none => rfl
      | some states =>
          have hbelow : (tree.place .scope).below states.key.name = .states := by
            rw [Tree.name_of_property? hstates]
            rfl
          have hkey : (states.renew (tree.place .scope)).key = states.key := by
            rw [Property.renew, Place.newName_of_not_legacy rfl]
          dsimp only [Option.map_some]
          rw [declaredNames_renew hbelow, Tree.mapping_renew hbelow]
          cases hproperties : states.value.bind Tree.properties? with
          | none => rfl
          | some properties =>
              dsimp only [Option.map_some]
              simp only [declared_renew, unreached_renew, hkey]
              -- a declared state is reported on as before, once its nested scopes have been checked
              refine congrArg (· >>= _) (mapM_map_congr fun field hfield => ?_)
              have hdeclared : field ∈ declaredIn tree := mem_declaredIn_iff.mpr
                ⟨properties, mapping?_eq_some_iff.mpr ⟨states, hstates, hproperties⟩, hfield⟩
              have hstate : field.2.DistinctKeys := distinctKeys_of_declaredIn htree hdeclared
              have hinner : ∀ inner ∈ nested (kindOf field.2) field.2,
                  scope Tables.packaged lenient levels inner.1 (inner.2.renew .scope) =
                    scope Tables.packaged lenient levels inner.1 inner.2 := fun inner hinner =>
                ih inner.1 inner.2 (distinctKeys_of_nested hstate hinner)
              dsimp only
              rw [nested_renew hstate, mapM_map_congr hinner]
              simp only [state_renew hstate]

end Check

/-- A document with the newer name for all nested scopes of Map states. -/
def Document.renew (d : Document) : Document :=
  { d with root := d.root.map (Tree.renew .scope) }

/-- The diagnostics for a document do not change, if no object repeats a key. -/
theorem Document.check_renew
    (d : Document) (messages : Value) (lenient : Bool) (kind : ScopeKind) (given : Option Tree)
    (hkeys : ∀ t, given.or d.root = some t → t.DistinctKeys) :
    d.renew.check ⟨Tables.packaged, messages, lenient⟩ kind (given.map (Tree.renew .scope)) =
      d.check ⟨Tables.packaged, messages, lenient⟩ kind given := by
  have hgiven : (given.map (Tree.renew .scope)).or d.renew.root =
      (given.or d.root).map (Tree.renew .scope) := by
    cases given <;> rfl
  rw [Document.check, Document.check, hgiven]
  cases hroot : given.or d.root with
  | none => rfl
  | some t =>
      dsimp only [Option.map_some]
      rw [Document.checkScope, Document.checkScope, Tree.isObject_renew,
        Check.scope_renew lenient allLevels kind t (hkeys t hroot)]
      rfl

/-- The two generations of Map states are equivalent.  A workflow and its renewed form have the same
states under the same paths, the same reverse adjacency and the same variables in scope; a document
and its renewed form have the same diagnostics. -/
theorem generations_equivalent
    (w : Value) :
    (allStates (w.renew .scope)).map (fun v => (v.id, v.path)) =
        (allStates w).map (fun v => (v.id, v.path)) ∧
      Predecessors.ofWorkflow (w.renew .scope) = Predecessors.ofWorkflow w ∧
      (∀ (target : Reference) (current : Option Reference),
        variableScope (w.renew .scope) (Predecessors.ofWorkflow (w.renew .scope)) target current =
          variableScope w (Predecessors.ofWorkflow w) target current) ∧
      ∀ (d : Document) (messages : Value) (lenient : Bool) (kind : ScopeKind)
        (given : Option Tree), (∀ t, given.or d.root = some t → t.DistinctKeys) →
        d.renew.check ⟨Tables.packaged, messages, lenient⟩ kind (given.map (Tree.renew .scope)) =
          d.check ⟨Tables.packaged, messages, lenient⟩ kind given := by
  refine ⟨?_, ofWorkflow_renew w, fun target current => ?_, Document.check_renew⟩
  · rw [allStates, allStates, preorder_renew, List.map_map]
    rfl
  · rw [ofWorkflow_renew, variableScope_renew]

/-- A text in which a Map state has another one in its nested scope, both with the older name. -/
def olderMapsText : Text :=
  "States:
 M:
  Type: Map
  Iterator:
   States:
    N:
     Type: Map
     Iterator:
      States:
       X:
        Next: M
"

/-- The document of that text. -/
def olderMaps : Document :=
  match Document.treeOf .yaml olderMapsText with
  | .ok (some root) => ⟨olderMapsText, .yaml, root, 0⟩
  | _ => ⟨olderMapsText, .yaml, none, 0⟩

/-- The newer names make another workflow of it, with the same visit and the same diagnostics. -/
theorem generations_equivalent_olderMaps :
    (olderMaps.workflow.renew .scope).same olderMaps.workflow = false ∧
      (allStates (olderMaps.workflow.renew .scope)).map (fun v => v.id) = ["M", "N", "X"] ∧
      olderMaps.renew.check ⟨Tables.packaged, Tables.messages, false⟩ .top none =
        olderMaps.check ⟨Tables.packaged, Tables.messages, false⟩ .top none := by
  obtain ⟨hvisit, -, -, hcheck⟩ := generations_equivalent olderMaps.workflow
  have hfacts : (olderMaps.workflow.renew .scope).same olderMaps.workflow = false ∧
      (allStates olderMaps.workflow).map (fun v => v.id) = ["M", "N", "X"] ∧
      olderMaps.root.all (fun t => decide t.DistinctKeys) = true := by
    decide +kernel
  obtain ⟨hother, hids, hkeys⟩ := hfacts
  refine ⟨hother, ?_, hcheck olderMaps Tables.messages false .top none fun t ht => ?_⟩
  · have hfirst := congrArg (List.map Prod.fst) hvisit
    rw [List.map_map, List.map_map] at hfirst
    exact hfirst.trans hids
  · rw [Option.none_or] at ht
    rw [ht] at hkeys
    exact of_decide_eq_true hkeys

end Workflow
