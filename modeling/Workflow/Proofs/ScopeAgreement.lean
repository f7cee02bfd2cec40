import Workflow.Proofs.AdjacencyEntries
import Workflow.Proofs.ClosedGraph
import Workflow.Proofs.FindingRoutes

/-!
# The scopes of the tree and of the value

A check goes through the tree of a document, a visit through its value.  The check takes the first
property with a key and all the states that a mapping declares; the value has the last property with
a key only.  Where these are the same for the keys that lead into nested scopes, the check enters
the scopes that the visit comes to, on the same paths, and sees the same states there.  Where a key
of this kind is repeated with another value, the two can see different scopes.
-/

namespace Workflow

deriving instance DecidableEq for Segment

namespace Check

/-- The segments of a path for a step. -/
def Step.path (step : Step) : Path :=
  .name step.name :: (step.branch.map fun i => Segment.index i).toList

/-- The path of the scope at the end of a route. -/
def Route.path (route : Route) : Path := route.flatMap Step.path

/-- The key under which a state has its nested scopes. -/
def nestingKey (state : Tree) : Option Text :=
  match kindOf state with
  | some .map => some (State.processorField state.toValue)
  | some .parallel => some "Branches"
  | _ => none

/-- Among repeated keys of a scope, those that say which states and scopes there are have the same
value for the check as in the value: the first `States`, each declared state, and the first `Type`
and the first nested scopes of each declared state. -/
def ReadsAlike (scope : Tree) : Prop :=
  scope.FirstWins statesKey ∧
    ∀ field ∈ declaredIn scope,
      (State.declared? scope.toValue).bind (Fields.get? · field.1.name) = some field.2.toValue ∧
        field.2.FirstWins "Type" ∧ ∀ name ∈ nestingKey field.2, field.2.FirstWins name

instance (t : Tree) (name : Text) : Decidable (t.FirstWins name) :=
  inferInstanceAs (Decidable (t.toValue.get? name = (t.property? name).map Property.toValue))

instance : DecidablePred ReadsAlike := fun scope =>
  inferInstanceAs (Decidable (scope.FirstWins statesKey ∧
    ∀ field ∈ declaredIn scope,
      (State.declared? scope.toValue).bind (Fields.get? · field.1.name) = some field.2.toValue ∧
        field.2.FirstWins "Type" ∧ ∀ name ∈ nestingKey field.2, field.2.FirstWins name))

/-! ## One scope -/

/-- The first `Type` of a state names its kind in the value. -/
theorem kindOf_eq_of_firstWins
    {state : Tree} (htype : state.FirstWins "Type") :
    kindOf state = State.kind? state.toValue := by
  have htext : (state.toValue.get? "Type").bind Value.text? = textIn (state.property? "Type") := by
    rw [htype, textIn]
    cases state.property? "Type" with
    | none => rfl
    | some p =>
        cases hvalue : p.value with
        | none => simp [Property.toValue, hvalue, Value.text?]
        | some t => simp [Property.toValue, hvalue, Tree.text?_toValue]
  rw [kindOf, State.kind?, htext]

/-- The scopes nested in a state, in the tree and in the value. -/
theorem nestedScopes_toValue
    {state : Tree} (htype : state.FirstWins "Type")
    (hnesting : ∀ name ∈ nestingKey state, state.FirstWins name) (here : Path) :
    State.nestedScopes state.toValue here =
      (nestedAt (kindOf state) state).map fun inner =>
        (inner.2.2.toValue, here ++ (inner.1.map fun i => Segment.index i).toList) := by
  rw [State.nestedScopes, ← kindOf_eq_of_firstWins htype]
  cases hkind : kindOf state with
  | none => rfl
  | some kind =>
      cases kind with
      | map =>
          have hkey : state.FirstWins (State.processorField state.toValue) :=
            hnesting _ (by rw [nestingKey, hkind]; rfl)
          have hprocessor : State.processor state.toValue =
              (((state.property? (State.processorField state.toValue)).bind Property.value).map
                Tree.toValue).getD .null := by
            rw [State.processor_eq_get, hkey.get_toValue]
          dsimp only [nestedAt, nested]
          rw [hprocessor]
          cases (state.property? (State.processorField state.toValue)).bind Property.value with
          | none => rfl
          | some scope =>
              rw [Option.map_some, Option.getD_some, Tree.isObject_toValue]
              cases hobject : scope.isObject <;> simp [hobject]
      | parallel =>
          have hkey : state.FirstWins "Branches" := hnesting _ (by rw [nestingKey, hkind]; rfl)
          dsimp only [nestedAt]
          rw [State.branches?, hkey.items?_get?_toValue]
          cases ((state.property? "Branches").bind Property.value).bind Tree.items? with
          | none => rfl
          | some scopes =>
              dsimp only [Option.map_some]
              rw [List.zipIdx_map, List.filterMap_map, List.map_filterMap]
              refine List.filterMap_congr fun branch _ => ?_
              cases hobject : branch.1.isObject <;>
                simp [Tree.isObject_toValue, hobject]
      | _ => rfl

section Reading

variable {scope : Tree} (hread : ReadsAlike scope)

include hread

/-- The states with objects that a scope declares, in the tree and in the value. -/
theorem mem_declaredIn_toValue_iff
    {id : Text} {v : Value} :
    (∃ field ∈ declaredIn scope, field.1.name = id ∧ field.2.toValue = v) ↔
      (∃ states, State.declared? scope.toValue = some states ∧ (id, v) ∈ states) ∧
        v.isObject = true := by
  constructor
  · rintro ⟨field, hfield, rfl, rfl⟩
    obtain ⟨states, hstates, hget⟩ := Option.bind_eq_some_iff.mp (hread.2 field hfield).1
    obtain ⟨properties, -, hdeclared⟩ := mem_declaredIn_iff.mp hfield
    obtain ⟨-, -, -, -, hobject⟩ := mem_declared_iff.mp hdeclared
    refine ⟨⟨states, hstates, Fields.mem_of_get? hget⟩, ?_⟩
    rw [Tree.isObject_toValue]
    exact hobject
  · rintro ⟨⟨states, hstates, hmem⟩, hobject⟩
    -- the mapping of the value is that of the first `States`
    obtain ⟨mapping, hmapping, hfields⟩ := Option.bind_eq_some_iff.mp hstates
    rw [show scope.toValue.get? "States" = _ from hread.1] at hmapping
    obtain ⟨p, hp, rfl⟩ := Option.map_eq_some_iff.mp hmapping
    obtain ⟨u, hu, huobject⟩ := exists_tree_of_isObject
      (Option.isSome_iff_exists.mpr ⟨states, hfields⟩)
    obtain ⟨properties, hproperties⟩ := Option.isSome_iff_exists.mp huobject
    have hfound : mapping? scope = some properties :=
      mapping?_eq_some_iff.mpr ⟨p, hp, by rw [hu, Option.bind_some, hproperties]⟩
    rw [Property.toValue, hu, Option.map_some, Option.getD_some] at hfields
    have hassigned := Tree.mem_propertyValues_of_fields? hproperties hfields hmem
    rw [Tree.propertyValues_eq_map] at hassigned
    obtain ⟨q, hq, heq⟩ := List.mem_map.mp hassigned
    cases heq
    obtain ⟨t, ht, htobject⟩ := exists_tree_of_isObject hobject
    refine ⟨(q.key, t), mem_declaredIn_iff.mpr ⟨properties, hfound,
      mem_declared_iff.mpr ⟨q, hq, rfl, ht, htobject⟩⟩, rfl, ?_⟩
    rw [Property.toValue, ht]
    rfl

/-- The steps into the scopes nested in a declared state lead to those nested in its value. -/
theorem nestedScopes_of_mem_declaredIn
    {field : Key × Tree} (hfield : field ∈ declaredIn scope) (i : Nat) (path : Path) :
    State.nestedScopes field.2.toValue (path ++ [.name field.1.name]) =
      (stepsInto field i).map fun x => (x.2.2.toValue, path ++ x.1.path) := by
  obtain ⟨-, htype, hnesting⟩ := hread.2 field hfield
  rw [nestedScopes_toValue htype hnesting, stepsInto, List.map_map]
  refine List.map_congr_left fun inner _ => ?_
  simp [Step.path]

end Reading

/-! ## All scopes -/

/-- The scopes that a check enters are those that a visit comes to. -/
theorem mem_reachedScopes_iff_entries :
    ∀ (levels : Nat) (kind : ScopeKind) (tree : Tree) (path : Path),
      (∀ e ∈ entries levels kind tree, ReadsAlike e.scope) → ∀ s : Value × Path,
        s ∈ reachedScopes levels tree.toValue path ↔
          ∃ e ∈ entries levels kind tree, (e.scope.toValue, path ++ e.route.path) = s
  | 0, _, _, _, _, s => by
      simp [reachedScopes, entries]
  | levels + 1, kind, tree, path, hread, s => by
      have hhere : ReadsAlike tree := hread _ (mem_entries_iff.mpr (Or.inl rfl))
      -- behind each step the induction on the levels goes on
      have hinner : ∀ field ∈ (declaredIn tree).zipIdx, ∀ x ∈ stepsInto field.1 field.2,
          (s ∈ reachedScopes levels x.2.2.toValue (path ++ x.1.path) ↔
            ∃ e ∈ entries levels x.2.1 x.2.2,
              ((e.behind x.1).scope.toValue, path ++ (e.behind x.1).route.path) = s) := by
        intro field hfield x hx
        have hrest := mem_reachedScopes_iff_entries levels x.2.1 x.2.2 (path ++ x.1.path)
          (fun e he => hread (e.behind x.1)
            (mem_entries_iff.mpr (Or.inr ⟨field, hfield, x, hx, e, he, rfl⟩))) s
        simpa [Entry.behind, Route.path] using hrest
      rw [Workflow.mem_reachedScopes_iff]
      constructor
      · rintro (rfl | ⟨states, hstates, ⟨id, v⟩, hmem, nested, hnested, hs⟩)
        · exact ⟨_, mem_entries_iff.mpr (Or.inl rfl), by simp [Route.path]⟩
        · obtain ⟨field, hfield, rfl, rfl⟩ := (mem_declaredIn_toValue_iff hhere).mpr
            ⟨⟨states, hstates, hmem⟩, State.isObject_of_mem_nestedScopes hnested⟩
          obtain ⟨i, hposition⟩ := List.mem_iff_getElem?.mp hfield
          have hi : (field, i) ∈ (declaredIn tree).zipIdx :=
            List.mem_zipIdx_iff_getElem?.mpr hposition
          rw [nestedScopes_of_mem_declaredIn hhere hfield i] at hnested
          obtain ⟨x, hx, rfl⟩ := List.mem_map.mp hnested
          obtain ⟨e, he, heq⟩ := (hinner (field, i) hi x hx).mp hs
          exact ⟨_, mem_entries_iff.mpr (Or.inr ⟨(field, i), hi, x, hx, e, he, rfl⟩), heq⟩
      · rintro ⟨e, he, rfl⟩
        rcases mem_entries_iff.mp he with rfl | ⟨field, hfield, x, hx, e, hentry, rfl⟩
        · exact Or.inl (by simp [Route.path])
        · have hdeclared : field.1 ∈ declaredIn tree := List.fst_mem_of_mem_zipIdx hfield
          obtain ⟨⟨states, hstates, hmem⟩, -⟩ :=
            (mem_declaredIn_toValue_iff hhere).mp ⟨field.1, hdeclared, rfl, rfl⟩
          refine Or.inr ⟨states, hstates, _, hmem, (x.2.2.toValue, path ++ x.1.path), ?_,
            (hinner field hfield x hx).mpr ⟨e, hentry, rfl⟩⟩
          rw [nestedScopes_of_mem_declaredIn hhere hdeclared field.2]
          exact List.mem_map_of_mem hx

end Check

/-- Where repeated keys say the same about states and nested scopes, the check of a document enters
exactly the scopes of its value, on the same paths, and sees the names of exactly those states of
each scope that are objects in the value. -/
theorem check_enters_visited
    {root : Tree} {kind : ScopeKind}
    (hread : ∀ e ∈ Check.entries allLevels kind root, Check.ReadsAlike e.scope) :
    (∀ (s : Value) (p : Path), (s, p) ∈ reachedScopes allLevels root.toValue [] ↔
      ∃ e ∈ Check.entries allLevels kind root, e.scope.toValue = s ∧ e.route.path = p) ∧
    ∀ e ∈ Check.entries allLevels kind root, ∀ id : Text,
      (∃ field ∈ Check.declaredIn e.scope, field.1.name = id) ↔
        ∃ v ∈ allStates root.toValue,
          v.path = e.route.path ++ [.name id] ∧ v.state.isObject = true := by
  have hentries : ∀ (s : Value) (p : Path), (s, p) ∈ reachedScopes allLevels root.toValue [] ↔
      ∃ e ∈ Check.entries allLevels kind root, e.scope.toValue = s ∧ e.route.path = p := by
    intro s p
    have hiff := Check.mem_reachedScopes_iff_entries allLevels kind root [] hread (s, p)
    simpa using hiff
  refine ⟨hentries, fun e he id => ?_⟩
  have hreached := (hentries _ _).mpr ⟨e, he, rfl, rfl⟩
  constructor
  · rintro ⟨field, hfield, rfl⟩
    obtain ⟨⟨states, hstates, hmem⟩, hobject⟩ :=
      (Check.mem_declaredIn_toValue_iff (hread e he)).mp ⟨field, hfield, rfl, rfl⟩
    have hvisited : (e.scope.toValue, e.route.path) ∈ visitedScopes allLevels root.toValue [] := by
      rw [visitedScopes_eq_filter]
      exact List.mem_filter.mpr ⟨hreached, by simp [hstates]⟩
    refine ⟨⟨field.1.name, field.2.toValue, e.scope.toValue, _⟩, ?_, rfl, hobject⟩
    exact (mem_preorder_iff_visitedScopes allLevels root.toValue []).mpr
      ⟨_, hvisited, mem_declaredVisits_iff.mpr ⟨states, hstates, hmem, rfl, rfl⟩⟩
  · rintro ⟨v, hv, hpath, hobject⟩
    obtain ⟨⟨s, p⟩, hs, hdeclared⟩ :=
      (mem_preorder_iff_visitedScopes allLevels root.toValue []).mp hv
    obtain ⟨states, hstates, hmem, -, hown⟩ := mem_declaredVisits_iff.mp hdeclared
    rw [hown] at hpath
    obtain ⟨rfl, hid⟩ := List.append_inj' hpath rfl
    cases hid
    -- one path leads to one scope only
    have hsame : s = e.scope.toValue := by
      rw [visitedScopes_eq_filter] at hs
      have hplace := ownerPath_of_mem_reachedScopes root.toValue_proper allLevels
        (OwnerPath.here _) Path.plain_nil
      exact (hplace _ (List.mem_of_mem_filter hs)).1.unique (hplace _ hreached).1
    rw [hsame] at hstates
    obtain ⟨field, hfield, hname, -⟩ :=
      (Check.mem_declaredIn_toValue_iff (hread e he)).mpr ⟨⟨states, hstates, hmem⟩, hobject⟩
    exact ⟨field, hfield, hname⟩

/-- A text with repeated keys: those that say which states and scopes there are agree. -/
def agreeingKeysText : Text :=
  "StartAt: M
StartAt: N
States:
 M:
  Type: Map
  Type: Map
  ItemProcessor:
   States:
    A:
     Type: Pass
     End: false
     End: true
 N: 1
 N:
  Type: Succeed
"

/-- The document of that text. -/
def agreeingKeysDocument : Document :=
  match Document.treeOf .yaml agreeingKeysText with
  | .ok (some root) => ⟨agreeingKeysText, .yaml, root, 0⟩
  | _ => ⟨agreeingKeysText, .yaml, none, 0⟩

/-- The check of that document enters the scopes that the visit comes to. -/
theorem check_enters_visited_agreeingKeysDocument :
    ∃ root, agreeingKeysDocument.root = some root ∧ ¬ root.DistinctKeys ∧
      (∀ (s : Value) (p : Path), (s, p) ∈ reachedScopes allLevels root.toValue [] ↔
        ∃ e ∈ Check.entries allLevels .top root, e.scope.toValue = s ∧ e.route.path = p) ∧
      ∀ e ∈ Check.entries allLevels .top root, ∀ id : Text,
        (∃ field ∈ Check.declaredIn e.scope, field.1.name = id) ↔
          ∃ v ∈ allStates root.toValue,
            v.path = e.route.path ++ [.name id] ∧ v.state.isObject = true := by
  have hfacts : (agreeingKeysDocument.root.any fun root =>
      !decide root.DistinctKeys &&
        decide (∀ e ∈ Check.entries allLevels .top root, Check.ReadsAlike e.scope)) = true := by
    decide +kernel
  obtain ⟨root, hroot, hfacts⟩ := (Option.any_eq_true _ _).mp hfacts
  rw [Bool.and_eq_true, Bool.not_eq_true', decide_eq_false_iff_not, decide_eq_true_iff] at hfacts
  exact ⟨root, hroot, hfacts.1, check_enters_visited hfacts.2⟩

/-- A text in which a Map state has two processors with different states. -/
def repeatedProcessorText : Text :=
  "StartAt: M
States:
 M:
  Type: Map
  End: true
  ItemProcessor:
   StartAt: X
   States:
    A:
     Type: Succeed
  ItemProcessor:
   StartAt: B
   States:
    B:
     Type: Succeed
"

/-- The document of that text. -/
def repeatedProcessorDocument : Document :=
  match Document.treeOf .yaml repeatedProcessorText with
  | .ok (some root) => ⟨repeatedProcessorText, .yaml, root, 0⟩
  | _ => ⟨repeatedProcessorText, .yaml, none, 0⟩

/-- The check enters the first processor, the visit comes to the last one. -/
theorem check_enters_other_processor :
    ∃ root, repeatedProcessorDocument.root = some root ∧ root.isObject = true ∧
      ∃ e ∈ Check.entries allLevels .top root,
        (e.scope.toValue, e.route.path) ∉ reachedScopes allLevels root.toValue [] ∧
        (Check.declaredIn e.scope).map (fun field => field.1.name) = ["A"] ∧
        ((allStates root.toValue).filter fun v =>
          decide (v.path.dropLast = e.route.path)).map Visit.id = ["B"] := by
  have hfacts : (repeatedProcessorDocument.root.any fun root => root.isObject &&
      (Check.entries allLevels .top root).any fun e =>
        decide ((e.scope.toValue, e.route.path) ∉ reachedScopes allLevels root.toValue []) &&
        decide ((Check.declaredIn e.scope).map (fun field => field.1.name) = ["A"]) &&
        decide (((allStates root.toValue).filter fun v =>
          decide (v.path.dropLast = e.route.path)).map Visit.id = ["B"])) = true := by
    decide +kernel
  obtain ⟨root, hroot, hfacts⟩ := (Option.any_eq_true _ _).mp hfacts
  obtain ⟨hobject, hfacts⟩ := Bool.and_eq_true_iff.mp hfacts
  obtain ⟨e, he, hfacts⟩ := List.any_eq_true.mp hfacts
  simp only [Bool.and_eq_true, decide_eq_true_iff] at hfacts
  exact ⟨root, hroot, hobject, e, he, hfacts.1.1, hfacts.1.2, hfacts.2⟩

end Workflow
